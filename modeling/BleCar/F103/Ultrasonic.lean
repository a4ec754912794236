import BleCar.Lib.Clock
import BleCar.Lib.Runs
import BleCar.Motion.Hardware

/-!
# The ultrasonic sensors

`HC_SR04.c` and the echo interrupt. TIM3 runs freely and times the debouncing. TIM1
measures the echoes of both sensors and the delay of the trigger pulse, and is set to 0
by each of them.
-/

namespace BleCar.F103.Ultrasonic

open BleCar.Lib.Clock
open BleCar.Lib.Runs
open BleCar.Motion.Hardware

/-- `SENSOR_FRONT` and `SENSOR_BACK`. -/
inductive Sensor where
  | front
  | back
  deriving DecidableEq, Repr

/-- `Front_Echo_Pin`, `Rear_Echo_Pin`, and the other interrupt lines. -/
inductive GpioPin where
  | frontEcho
  | rearEcho
  | other
  deriving DecidableEq, Repr

/-- `HC_SR04_DATA_tydef`. -/
structure HcSr04Data where
  echoStart : UInt32
  echoEnd : UInt32
  measureComplete : UInt8
  deriving DecidableEq

/-- The counters of TIM1 and TIM3, the trigger pins and the variables of the two files. -/
structure Ranger where
  tim1 : UInt16
  tim3 : UInt16
  trig : Sensor → Level
  hcSr04Data : Sensor → HcSr04Data
  lastInterruptTime : UInt32
  risingCount : UInt32
  fallingCount : UInt32

def debounceTime : UInt32 := 10

/-- An update of `HC_SR04_DATA[sensor]`. -/
def Ranger.setData (s : Ranger) (sensor : Sensor) (f : HcSr04Data → HcSr04Data) : Ranger :=
  { s with hcSr04Data := Function.update s.hcSr04Data sensor (f (s.hcSr04Data sensor)) }

/-! ## The code -/

/-- The test at the start of `HAL_GPIO_EXTI_Callback`. -/
def Ignores (s : Ranger) : Prop := s.tim3.toUInt32 - s.lastInterruptTime < debounceTime

instance (s : Ranger) : Decidable (Ignores s) := inferInstanceAs (Decidable (_ < _))

/-- The sensor whose echo pin it is. -/
def echoSensor : GpioPin → Option Sensor
  | .frontEcho => some .front
  | .rearEcho => some .back
  | .other => none

/-- The part behind the choice of the sensor; `level` is what `HAL_GPIO_ReadPin` finds. -/
def handleEcho (sensor : Sensor) (level : Level) (s : Ranger) : Ranger :=
  if level = .set then
    { s with tim1 := 0, risingCount := s.risingCount + 1 }.setData sensor fun d =>
      { d with echoStart := 0, measureComplete := 0 }
  else
    let echoEnd := s.tim1.toUInt32
    let s := { s with fallingCount := s.fallingCount + 1 }.setData sensor fun d =>
      { d with echoEnd }
    if echoEnd < 25000 then s.setData sensor fun d => { d with measureComplete := 1 } else s

def halGpioExtiCallback (gpioPin : GpioPin) (level : Level) (s : Ranger) : Ranger :=
  if Ignores s then s
  else
    let s := { s with lastInterruptTime := s.tim3.toUInt32 }
    match echoSensor gpioPin with
    | some sensor => handleEcho sensor level s
    | none => s

/-- `HC_SR04_StartMeasure` up to `Delay_us`. -/
def hcSr04StartMeasure (sensor : Sensor) (s : Ranger) : Ranger :=
  let s := s.setData sensor fun d => { d with measureComplete := 0 }
  { s with trig := Function.update s.trig sensor .set }

/-- `Delay_us` up to its loop. -/
def delayUs (s : Ranger) : Ranger := { s with tim1 := 0 }

/-- The loop of `Delay_us(us)` ends. -/
def DelayOver (us : UInt32) (s : Ranger) : Prop := us ≤ s.tim1.toUInt32

instance (us : UInt32) (s : Ranger) : Decidable (DelayOver us s) :=
  inferInstanceAs (Decidable (_ ≤ _))

/-- `HC_SR04_StartMeasure` behind `Delay_us`. -/
def endTrigger (sensor : Sensor) (s : Ranger) : Ranger :=
  { s with trig := Function.update s.trig sensor .reset }

/-! ## Runs -/

/-- Real time in microseconds, and when things happened in it. -/
structure History where
  now : Nat
  /-- TIM1 was last set to 0, or started -/
  zeroed : Nat
  /-- the latest rising edge since the last `HC_SR04_StartMeasure` -/
  risen : Sensor → Option Nat
  /-- the latest edge that was not ignored -/
  accepted : Option Nat
  /-- the latest edge -/
  edge : Option Nat

/-- Where `HC_SR04_StartMeasure` is: not running, in front of `Delay_us`, or in its loop. -/
inductive Trigger where
  | idle
  | started (sensor : Sensor)
  | waiting (sensor : Sensor)

structure World where
  ranger : Ranger
  trigger : Trigger
  history : History

inductive Event where
  | elapse (us : Nat)
  | edge (gpioPin : GpioPin) (level : Level)
  | startMeasure (sensor : Sensor)
  | delay
  | endTrigger
  deriving DecidableEq

def Ranger.elapse (us : Nat) (s : Ranger) : Ranger :=
  { s with tim1 := s.tim1 + UInt16.ofNat us, tim3 := s.tim3 + UInt16.ofNat us }

def History.elapse (us : Nat) (h : History) : History := { h with now := h.now + us }

/-- An edge. TIM1 is set to 0 by the rising edges that are not ignored. -/
def History.atEdge (ignored : Bool) (gpioPin : GpioPin) (level : Level) (h : History) : History :=
  { h with
    zeroed :=
      if ¬ ignored ∧ level = .set ∧ echoSensor gpioPin ≠ none then h.now else h.zeroed
    risen :=
      match echoSensor gpioPin with
      | some sensor =>
        if level = .set then Function.update h.risen sensor (some h.now) else h.risen
      | none => h.risen
    accepted := if ignored then h.accepted else some h.now
    edge := some h.now }

def History.atStart (sensor : Sensor) (h : History) : History :=
  { h with risen := Function.update h.risen sensor none }

def History.atDelay (h : History) : History := { h with zeroed := h.now }

/-- Interrupts and time come between any two parts of `HC_SR04_StartMeasure`. -/
def step (w : World) : Event → Option World
  | .elapse us => some ⟨w.ranger.elapse us, w.trigger, w.history.elapse us⟩
  | .edge gpioPin level => some
    ⟨halGpioExtiCallback gpioPin level w.ranger, w.trigger,
      w.history.atEdge (Ignores w.ranger) gpioPin level⟩
  | .startMeasure sensor =>
    match w.trigger with
    | .idle => some
      ⟨hcSr04StartMeasure sensor w.ranger, .started sensor, w.history.atStart sensor⟩
    | _ => none
  | .delay =>
    match w.trigger with
    | .started sensor => some ⟨delayUs w.ranger, .waiting sensor, w.history.atDelay⟩
    | _ => none
  | .endTrigger =>
    match w.trigger with
    | .waiting sensor =>
      if DelayOver 10 w.ranger then some ⟨endTrigger sensor w.ranger, .idle, w.history⟩ else none
    | _ => none

/-- TIM1 starts at time 0, when TIM3 shows `tim3`. -/
def boot (tim3 : UInt16) : World where
  ranger := ⟨0, tim3, fun _ => .reset, fun _ => ⟨0, 0, 0⟩, 0, 0, 0⟩
  trigger := .idle
  history := ⟨0, 0, fun _ => none, none, none⟩

/-- The period of both counters, `Period + 1`. -/
abbrev period : Nat := 65536

/-! ## What the counters show -/

/-- The counters show the real time since they were set, TIM3 from `start` on, and the
variables hold readings. -/
structure Timed (start : UInt16) (s : Ranger) (h : History) : Prop where
  tim1 : s.tim1.toNat = reading period (h.now - h.zeroed)
  tim3 : s.tim3.toNat = reading period (start.toNat + h.now)
  echoStart : ∀ x, (s.hcSr04Data x).echoStart = 0
  zeroed : h.zeroed ≤ h.now
  risen : ∀ x r, h.risen x = some r → r ≤ h.now
  accepted : ∀ p, h.accepted = some p → p ≤ h.now ∧
    s.lastInterruptTime.toNat = reading period (start.toNat + p)

theorem boot_timed (tim3 : UInt16) : Timed tim3 (boot tim3).ranger (boot tim3).history where
  tim1 := rfl
  tim3 := (Nat.mod_eq_of_lt tim3.toNat_lt).symm
  echoStart _ := rfl
  zeroed := Nat.le_refl 0
  risen _ _ h := by cases h
  accepted _ h := by cases h

section

variable (s : Ranger) (sensor : Sensor) (f : HcSr04Data → HcSr04Data)

@[simp] theorem setData_data :
    (s.setData sensor f).hcSr04Data =
      Function.update s.hcSr04Data sensor (f (s.hcSr04Data sensor)) := rfl

/-- A counter goes on from where it stands. -/
theorem toNat_elapse {c : UInt16} {t : Nat} (h : c.toNat = reading period t) (us : Nat) :
    (c + UInt16.ofNat us).toNat = reading period (t + us) := by
  rw [UInt16.toNat_add, UInt16.toNat_ofNat', h, Nat.add_mod_mod]
  exact reading_add us

variable {s sensor f} in
/-- Setting fields other than the start keeps every start at 0. -/
theorem setData_start (hf : ∀ d : HcSr04Data, d.echoStart = 0 → (f d).echoStart = 0)
    (h : ∀ x, (s.hcSr04Data x).echoStart = 0) (x : Sensor) :
    ((s.setData sensor f).hcSr04Data x).echoStart = 0 := by
  rw [setData_data]
  by_cases hx : x = sensor
  · subst hx
    rw [Function.update_self]
    exact hf _ (h x)
  · rw [Function.update_of_ne hx]
    exact h x

end

/-- The interrupt in its three outcomes. -/
theorem callback_ignored {s : Ranger} (h : Ignores s) (gpioPin : GpioPin) (level : Level) :
    halGpioExtiCallback gpioPin level s = s := if_pos h

theorem callback_other {s : Ranger} (h : ¬ Ignores s) {gpioPin : GpioPin}
    (hp : echoSensor gpioPin = none) (level : Level) :
    halGpioExtiCallback gpioPin level s = { s with lastInterruptTime := s.tim3.toUInt32 } := by
  rw [halGpioExtiCallback, if_neg h, hp]

theorem callback_echo {s : Ranger} (h : ¬ Ignores s) {gpioPin : GpioPin} {sensor : Sensor}
    (hp : echoSensor gpioPin = some sensor) (level : Level) :
    halGpioExtiCallback gpioPin level s =
      handleEcho sensor level { s with lastInterruptTime := s.tim3.toUInt32 } := by
  rw [halGpioExtiCallback, if_neg h, hp]

/-- What handling an echo edge leaves alone, and what it does to TIM1. -/
theorem handleEcho_frame (sensor : Sensor) (level : Level) (s : Ranger) :
    (handleEcho sensor level s).tim3 = s.tim3 ∧
      (handleEcho sensor level s).lastInterruptTime = s.lastInterruptTime ∧
      (handleEcho sensor level s).tim1 = if level = .set then 0 else s.tim1 := by
  unfold handleEcho
  split
  · exact ⟨rfl, rfl, rfl⟩
  · simp only
    split <;> exact ⟨rfl, rfl, rfl⟩

theorem handleEcho_start (sensor : Sensor) (level : Level) {s : Ranger}
    (h : ∀ x, (s.hcSr04Data x).echoStart = 0) (x : Sensor) :
    ((handleEcho sensor level s).hcSr04Data x).echoStart = 0 := by
  unfold handleEcho
  split
  · apply setData_start
    · intro d _
      rfl
    · exact h
  · have hend : ∀ x, (({ s with fallingCount := s.fallingCount + 1 }.setData sensor fun d =>
        { d with echoEnd := s.tim1.toUInt32 }).hcSr04Data x).echoStart = 0 := by
      apply setData_start
      · intro d hd
        exact hd
      · exact h
    simp only
    split
    · apply setData_start
      · intro d hd
        exact hd
      · exact hend
    · exact hend x

/-- A rising edge is never in the future. -/
theorem risen_update {f : Sensor → Option Nat} {now : Nat} (hf : ∀ x r, f x = some r → r ≤ now)
    {o : Option Nat} (ho : ∀ r, o = some r → r ≤ now) (sensor x : Sensor) (r : Nat)
    (hr : Function.update f sensor o x = some r) : r ≤ now := by
  by_cases hx : x = sensor
  · subst hx
    rw [Function.update_self] at hr
    exact ho r hr
  · rw [Function.update_of_ne hx] at hr
    exact hf x r hr

section

variable {start : UInt16} {s : Ranger} {h : History}

theorem Timed.elapse (ht : Timed start s h) (us : Nat) :
    Timed start (s.elapse us) (h.elapse us) where
  tim1 := by
    have hsub : h.now + us - h.zeroed = h.now - h.zeroed + us := Nat.sub_add_comm ht.zeroed
    exact (toNat_elapse ht.tim1 us).trans (congrArg (reading period) hsub.symm)
  tim3 := (toNat_elapse ht.tim3 us).trans (congrArg (reading period) (Nat.add_assoc _ _ _))
  echoStart := ht.echoStart
  zeroed := Nat.le_add_right_of_le ht.zeroed
  risen x r hr := Nat.le_add_right_of_le (ht.risen x r hr)
  accepted p hp := ⟨Nat.le_add_right_of_le (ht.accepted p hp).1, (ht.accepted p hp).2⟩

theorem Timed.risen_atEdge (ht : Timed start s h) (ignored : Bool) (gpioPin : GpioPin)
    (level : Level) (x : Sensor) (r : Nat)
    (hr : (h.atEdge ignored gpioPin level).risen x = some r) : r ≤ h.now := by
  unfold History.atEdge at hr
  cases hp : echoSensor gpioPin with
  | none =>
    simp only [hp] at hr
    exact ht.risen x r hr
  | some sensor =>
    simp only [hp] at hr
    split at hr
    · exact risen_update ht.risen (fun r hr => (Option.some.inj hr).symm.le) sensor x r hr
    · exact ht.risen x r hr

theorem Timed.edge (ht : Timed start s h) (gpioPin : GpioPin) (level : Level) :
    Timed start (halGpioExtiCallback gpioPin level s) (h.atEdge (Ignores s) gpioPin level) := by
  have hrisen := ht.risen_atEdge (Ignores s) gpioPin level
  by_cases hi : Ignores s
  · have hzeroed : (h.atEdge (Ignores s) gpioPin level).zeroed = h.zeroed := if_neg (by simp [hi])
    have haccepted : (h.atEdge (Ignores s) gpioPin level).accepted = h.accepted :=
      if_pos (by simp [hi])
    rw [callback_ignored hi]
    refine ⟨?_, ht.tim3, ht.echoStart, ?_, hrisen, ?_⟩
    · rw [hzeroed]
      exact ht.tim1
    · rw [hzeroed]
      exact ht.zeroed
    · rw [haccepted]
      exact ht.accepted
  · have haccepted : (h.atEdge (Ignores s) gpioPin level).accepted = some h.now :=
      if_neg (by simp [hi])
    have hlast : ∀ p, (h.atEdge (Ignores s) gpioPin level).accepted = some p → p ≤ h.now ∧
        s.tim3.toUInt32.toNat = reading period (start.toNat + p) := by
      intro p hp
      rw [haccepted] at hp
      cases hp
      exact ⟨Nat.le_refl _, (UInt16.toNat_toUInt32 _).trans ht.tim3⟩
    cases hp : echoSensor gpioPin with
    | none =>
      have hzeroed : (h.atEdge (Ignores s) gpioPin level).zeroed = h.zeroed :=
        if_neg (by simp [hp])
      rw [callback_other hi hp]
      refine ⟨?_, ht.tim3, ht.echoStart, ?_, hrisen, hlast⟩
      · rw [hzeroed]
        exact ht.tim1
      · rw [hzeroed]
        exact ht.zeroed
    | some sensor =>
      have hzeroed : (h.atEdge (Ignores s) gpioPin level).zeroed =
          if level = .set then h.now else h.zeroed := by
        simp [History.atEdge, hi, hp]
      obtain ⟨htim3, hlit, htim1⟩ :=
        handleEcho_frame sensor level { s with lastInterruptTime := s.tim3.toUInt32 }
      rw [callback_echo hi hp]
      refine ⟨?_, ?_, handleEcho_start sensor level ht.echoStart, ?_, hrisen, ?_⟩
      · rw [htim1, hzeroed]
        split
        · exact (congrArg (reading period) (Nat.sub_self h.now)).symm
        · exact ht.tim1
      · rw [htim3]
        exact ht.tim3
      · rw [hzeroed]
        split
        · exact Nat.le_refl _
        · exact ht.zeroed
      · rw [hlit]
        exact hlast

theorem Timed.startMeasure (ht : Timed start s h) (sensor : Sensor) :
    Timed start (hcSr04StartMeasure sensor s) (h.atStart sensor) where
  tim1 := ht.tim1
  tim3 := ht.tim3
  echoStart := by
    have hclear : ∀ x, ((s.setData sensor fun d =>
        { d with measureComplete := 0 }).hcSr04Data x).echoStart = 0 := by
      apply setData_start
      · intro d hd
        exact hd
      · exact ht.echoStart
    exact hclear
  zeroed := ht.zeroed
  risen x r hr := risen_update ht.risen (fun r hr => by cases hr) sensor x r hr
  accepted := ht.accepted

theorem Timed.delay (ht : Timed start s h) : Timed start (delayUs s) h.atDelay where
  tim1 := by
    have hzero : h.now - h.now = 0 := Nat.sub_self h.now
    exact (congrArg (reading period) hzero).symm
  tim3 := ht.tim3
  echoStart := ht.echoStart
  zeroed := Nat.le_refl _
  risen := ht.risen
  accepted := ht.accepted

theorem Timed.endTrigger (ht : Timed start s h) (sensor : Sensor) :
    Timed start (endTrigger sensor s) h :=
  ⟨ht.tim1, ht.tim3, ht.echoStart, ht.zeroed, ht.risen, ht.accepted⟩

theorem timed_step {w t : World} (ht : Timed start w.ranger w.history) (e : Event)
    (hs : step w e = some t) : Timed start t.ranger t.history := by
  cases e with
  | elapse us => exact Option.some.inj hs ▸ ht.elapse us
  | edge gpioPin level => exact Option.some.inj hs ▸ ht.edge gpioPin level
  | startMeasure sensor =>
    simp only [step] at hs
    split at hs <;> cases hs
    exact ht.startMeasure sensor
  | delay =>
    simp only [step] at hs
    split at hs <;> cases hs
    exact ht.delay
  | endTrigger =>
    cases hpos : w.trigger with
    | waiting sensor =>
      simp only [step, hpos] at hs
      split at hs <;> cases hs
      exact ht.endTrigger sensor
    | _ =>
      simp only [step, hpos] at hs
      cases hs

/-- Conditions that agree wherever the counters show the real time agree along every run. -/
theorem along_timed {P P' : World → Event → Prop} (start : UInt16)
    (h : ∀ w e, Timed start w.ranger w.history → (P w e ↔ P' w e)) (es : List Event) :
    Along step P (boot start) es ↔ Along step P' (boot start) es := by
  apply along_congr (I := fun w => Timed start w.ranger w.history)
  · exact fun w e t ht hs => timed_step ht e hs
  · exact h
  · exact boot_timed start

end

end BleCar.F103.Ultrasonic
