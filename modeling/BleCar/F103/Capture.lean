import BleCar.Lib.Runs
import BleCar.Motion.Hardware

/-!
# Encoder capture

`HAL_TIM_IC_CaptureCallback` turns the polarity of a channel over at each capture, so that
rising and falling edges alternate. The end of every pulse, whatever the channel, also sets
channel 1 back to rising edges.
-/

namespace BleCar.F103.Capture

open BleCar.Lib.Runs
open BleCar.Motion.Hardware

/-! ## The polarity bits -/

/-- `TIM_INPUTCHANNELPOLARITY_RISING` and `TIM_INPUTCHANNELPOLARITY_FALLING`. -/
inductive Polarity where
  | rising
  | falling
  deriving DecidableEq, Repr

/-- `TIM_CCER_CC1P` stands for falling. -/
def Polarity.bits : Polarity → BitVec 32
  | .rising => 0x0
  | .falling => 0x2

/-- `TIM_RESET_CAPTUREPOLARITY`. -/
def resetCapturePolarity (c : Channel) (ccer : BitVec 32) : BitVec 32 :=
  match c with
  | .ch1 => ccer &&& ~~~(0x2 ||| 0x8)
  | .ch2 => ccer &&& ~~~(0x20 ||| 0x80)
  | .ch3 => ccer &&& ~~~0x200
  | .ch4 => ccer &&& ~~~0x2000

/-- `TIM_SET_CAPTUREPOLARITY`. -/
def orCapturePolarity (c : Channel) (p : Polarity) (ccer : BitVec 32) : BitVec 32 :=
  match c with
  | .ch1 => ccer ||| p.bits
  | .ch2 => ccer ||| (p.bits <<< 4)
  | .ch3 => ccer ||| (p.bits <<< 8)
  | .ch4 => ccer ||| (p.bits <<< 12)

/-- `__HAL_TIM_SET_CAPTUREPOLARITY`. -/
def setCapturePolarity (c : Channel) (p : Polarity) (ccer : BitVec 32) : BitVec 32 :=
  orCapturePolarity c p (resetCapturePolarity c ccer)

/-- The bit `CCxP`. -/
def polarityBit : Channel → Nat
  | .ch1 => 1
  | .ch2 => 5
  | .ch3 => 9
  | .ch4 => 13

def polarity (ccer : BitVec 32) (c : Channel) : Polarity :=
  if ccer.getLsbD (polarityBit c) then .falling else .rising

/-- The macro sets the polarity of its channel and of no other. -/
@[simp] theorem polarity_set (c : Channel) (p : Polarity) (ccer : BitVec 32) :
    polarity (setCapturePolarity c p ccer) = Function.update (polarity ccer) c p := by
  funext x
  cases c <;> cases x <;> cases p <;>
    simp [polarity, setCapturePolarity, orCapturePolarity, resetCapturePolarity, polarityBit,
      Polarity.bits]

/-! ## The callback -/

/-- `IC_STATE`; the third value is `end`. -/
inductive IcState where
  | idle
  | runing
  | ended
  deriving DecidableEq, Repr

/-- The register `CCER` of TIM3, and `Motor_channel`, `ic_state` and
`Motor1_Number_Of_Pulses`; index `k` of the source is channel `k + 1` here. -/
structure Encoder where
  ccer : BitVec 32
  motorChannel : Channel
  icState : Channel → IcState
  motor1NumberOfPulses : UInt32

/-- `htim` is TIM3 or not; no active channel is `HAL_TIM_ACTIVE_CHANNEL_CLEARED`. -/
def halTimIcCaptureCallback (isTim3 : Bool) (active : Option Channel) (s : Encoder) : Encoder :=
  match active with
  | none => s
  | some c =>
    let s := { s with motorChannel := c }
    if isTim3 then
      if s.icState s.motorChannel = .idle then
        { s with
          icState := Function.update s.icState s.motorChannel .runing
          ccer := setCapturePolarity s.motorChannel .falling s.ccer }
      else
        let s := { s with icState := Function.update s.icState s.motorChannel .idle }
        let s := if s.motorChannel = .ch1 then
          { s with motor1NumberOfPulses := s.motor1NumberOfPulses + 1 } else s
        let s := { s with ccer := setCapturePolarity s.motorChannel .rising s.ccer }
        { s with ccer := setCapturePolarity .ch1 .rising s.ccer }
    else s

/-! ## Runs -/

/-- The encoder, and the edges captured on channel 1, the latest first. -/
structure History where
  encoder : Encoder
  captured : List Polarity

/-- A capture on a channel of TIM3, at an edge of the polarity set. -/
def step (s : History) (c : Channel) : Option History :=
  some ⟨halTimIcCaptureCallback true (some c) s.encoder,
    if c = .ch1 then polarity s.encoder.ccer .ch1 :: s.captured else s.captured⟩

/-- The high pulses completed: a rising capture followed by a falling one. -/
def completedPulses : List Polarity → Nat
  | .falling :: .rising :: es => completedPulses es + 1
  | _ :: es => completedPulses es
  | [] => 0

theorem completedPulses_rising (es : List Polarity) :
    completedPulses (.rising :: es) = completedPulses es := by
  simp [completedPulses]

/-- All channels idle. -/
def boot (ccer : BitVec 32) (motorChannel : Channel) : History :=
  ⟨⟨ccer, motorChannel, fun _ => .idle, 0⟩, []⟩

/-- A channel waits for the falling edge exactly while its pulse is running, and the pulses of
channel 1 are counted. -/
structure InStep (s : History) : Prop where
  polarity : ∀ c, polarity s.encoder.ccer c = .falling ↔ s.encoder.icState c = .runing
  pulses : s.encoder.motor1NumberOfPulses.toNat = completedPulses s.captured

/-- No pulse of another channel ends inside one of channel 1, and the counter of channel 1 is not
at its end when a pulse is. -/
def Undisturbed (s : History) (c : Channel) : Prop :=
  s.encoder.icState c ≠ .idle →
    if c = .ch1 then s.encoder.motor1NumberOfPulses.toNat + 1 < 2 ^ 32
    else s.encoder.icState .ch1 ≠ .runing

instance (s : History) (c : Channel) : Decidable (Undisturbed s c) :=
  inferInstanceAs (Decidable (_ → _))

/-! ## One capture -/

theorem callback_idle {s : Encoder} {c : Channel} (h : s.icState c = .idle) :
    halTimIcCaptureCallback true (some c) s =
      { s with
        motorChannel := c
        icState := Function.update s.icState c .runing
        ccer := setCapturePolarity c .falling s.ccer } := by
  simp [halTimIcCaptureCallback, h]

/-- What the end of a pulse makes of the history. -/
def afterPulse (s : History) (c : Channel) : History where
  encoder :=
    { s.encoder with
      motorChannel := c
      icState := Function.update s.encoder.icState c .idle
      motor1NumberOfPulses :=
        if c = .ch1 then s.encoder.motor1NumberOfPulses + 1 else s.encoder.motor1NumberOfPulses
      ccer := setCapturePolarity .ch1 .rising (setCapturePolarity c .rising s.encoder.ccer) }
  captured := if c = .ch1 then polarity s.encoder.ccer .ch1 :: s.captured else s.captured

theorem step_running {s : History} {c : Channel} (h : s.encoder.icState c ≠ .idle) :
    step s c = some (afterPulse s c) := by
  simp only [step, afterPulse, halTimIcCaptureCallback, h, if_true, if_false]
  split <;> rfl

/-- Beyond `InStep`: the state `end` is not used, and a running pulse of channel 1 began with a
rising edge. -/
structure Captures (s : History) : Prop extends InStep s where
  used : ∀ c, s.encoder.icState c ≠ .ended
  begun : s.encoder.icState .ch1 = .runing → ∃ es, s.captured = .rising :: es

section

variable {s : History} {c : Channel}

theorem Captures.running (hs : Captures s) (hc : s.encoder.icState c ≠ .idle) :
    s.encoder.icState c = .runing := by
  have hused := hs.used c
  cases h : s.encoder.icState c with
  | idle => exact absurd h hc
  | runing => rfl
  | ended => exact absurd h hused

/-- A pulse begins. -/
theorem Captures.begins (hs : Captures s) (hc : s.encoder.icState c = .idle) :
    ∃ t, step s c = some t ∧ Captures t := by
  refine ⟨_, rfl, ?_⟩
  have hpol := hs.polarity
  have hrise : polarity s.encoder.ccer c = .rising := by
    cases hp : polarity s.encoder.ccer c with
    | rising => rfl
    | falling => exact absurd (hc.symm.trans ((hpol c).mp hp)) (by decide)
  rw [callback_idle hc]
  refine ⟨⟨fun x => ?_, ?_⟩, fun x => ?_, fun hrun => ?_⟩
  · simp only [polarity_set]
    by_cases hx : x = c
    · simp [hx]
    · simpa [Function.update_of_ne hx] using hpol x
  · by_cases h1 : c = .ch1
    · subst h1
      simp only [if_true, hrise]
      exact hs.pulses
    · simp only [if_neg h1]
      exact hs.pulses
  · by_cases hx : x = c
    · simp [hx]
    · simpa [Function.update_of_ne hx] using hs.used x
  · by_cases h1 : c = .ch1
    · subst h1
      simp only [if_true, hrise]
      exact ⟨_, rfl⟩
    · simp only [Function.update_of_ne (Ne.symm h1)] at hrun
      simp only [if_neg h1]
      exact hs.begun hrun

/-- The polarities after the end of a pulse: those of the other channels are right, that of
channel 1 is only if it is idle. -/
theorem Captures.polarity_ended (hs : Captures s) :
    (∀ x, polarity (setCapturePolarity .ch1 .rising (setCapturePolarity c .rising s.encoder.ccer))
      x = .falling ↔ Function.update s.encoder.icState c .idle x = .runing) ↔
        (c ≠ .ch1 → s.encoder.icState .ch1 ≠ .runing) := by
  simp only [polarity_set]
  constructor
  · intro h h1 hrun
    have hbad := (h .ch1).mpr (by rw [Function.update_of_ne (Ne.symm h1), hrun])
    rw [Function.update_self] at hbad
    cases hbad
  · intro h x
    by_cases hx : x = c
    · subst hx
      by_cases h1 : x = .ch1
      · simp [h1]
      · simp [Function.update_of_ne h1]
    · rw [Function.update_of_ne hx]
      by_cases h1 : x = .ch1
      · subst h1
        simp [h (Ne.symm hx)]
      · rw [Function.update_of_ne h1, Function.update_of_ne hx]
        exact hs.polarity x

/-- The count after the end of a pulse. -/
theorem Captures.pulses_ended (hs : Captures s) (hc : s.encoder.icState .ch1 = .runing) :
    (s.encoder.motor1NumberOfPulses + 1).toNat =
        completedPulses (polarity s.encoder.ccer .ch1 :: s.captured) ↔
      s.encoder.motor1NumberOfPulses.toNat + 1 < 2 ^ 32 := by
  obtain ⟨es, hes⟩ := hs.begun hc
  have hcount := hs.pulses
  have hlt := s.encoder.motor1NumberOfPulses.toNat_lt
  rw [(hs.polarity .ch1).mpr hc, hes, completedPulses, UInt32.toNat_add, UInt32.toNat_one]
  rw [hes, completedPulses_rising] at hcount
  omega

/-- The end of a pulse leaves channel and state in step exactly when it was undisturbed. -/
theorem Captures.inStep_afterPulse (hs : Captures s) (hc : s.encoder.icState c ≠ .idle) :
    InStep (afterPulse s c) ↔ Undisturbed s c := by
  have hpol := hs.polarity_ended (c := c)
  by_cases h1 : c = .ch1
  · subst h1
    have hcount := hs.pulses_ended (hs.running hc)
    constructor
    · intro h _
      exact hcount.mp h.pulses
    · intro h
      exact ⟨hpol.mpr fun hne => absurd rfl hne, hcount.mpr (h hc)⟩
  · constructor
    · intro h _
      rw [if_neg h1]
      exact hpol.mp h.polarity h1
    · intro h
      have hidle := h hc
      rw [if_neg h1] at hidle
      refine ⟨hpol.mpr fun _ => hidle, ?_⟩
      simp only [afterPulse, if_neg h1]
      exact hs.pulses

theorem Captures.afterPulse (hs : Captures s) (hc : s.encoder.icState c ≠ .idle)
    (h : Undisturbed s c) : Captures (afterPulse s c) := by
  refine ⟨(hs.inStep_afterPulse hc).mpr h, fun x => ?_, fun hone => ?_⟩
  · by_cases hx : x = c
    · simp [Capture.afterPulse, hx]
    · simpa [Capture.afterPulse, Function.update_of_ne hx] using hs.used x
  · by_cases h1 : c = .ch1
    · subst h1
      simp [Capture.afterPulse] at hone
    · have hidle := h hc
      rw [if_neg h1] at hidle
      simp only [Capture.afterPulse, Function.update_of_ne (Ne.symm h1)] at hone
      exact absurd hone hidle

end

theorem capture_step (s : History) (c : Channel) (hs : Captures s) :
    ∃ t, step s c = some t ∧ (InStep t ↔ Undisturbed s c) ∧ (Undisturbed s c → Captures t) := by
  by_cases hc : s.encoder.icState c = .idle
  · obtain ⟨t, ht, hcap⟩ := hs.begins hc
    exact ⟨t, ht, iff_of_true hcap.toInStep fun hne => absurd hc hne, fun _ => hcap⟩
  · exact ⟨_, step_running hc, hs.inStep_afterPulse hc, hs.afterPulse hc⟩

theorem boot_captures {ccer : BitVec 32} (hrise : ∀ c, polarity ccer c = .rising)
    (motorChannel : Channel) : Captures (boot ccer motorChannel) where
  polarity c := by simp [boot, hrise]
  pulses := rfl
  used c := by simp [boot]
  begun h := by cases h

/-- From all channels idle and waiting for rising edges: polarity and state stay in step and the
pulses are counted exactly as long as every capture is undisturbed. -/
theorem in_step_iff (ccer : BitVec 32) (motorChannel : Channel)
    (hrise : ∀ c, polarity ccer c = .rising) (cs : List Channel) :
    Always step InStep (boot ccer motorChannel) cs ↔
      Along step Undisturbed (boot ccer motorChannel) cs :=
  always_iff_along (A := fun _ _ => True) (fun _ hs => hs.toInStep)
    (fun s c hs _ => capture_step s c hs) (boot_captures hrise motorChannel)
    (along_true step _ cs)

theorem in_step_iff_alternating :
    Always step InStep (boot 0 .ch1) [.ch1, .ch1, .ch2, .ch2] :=
  (in_step_iff 0 .ch1 (by decide) [.ch1, .ch1, .ch2, .ch2]).mpr (by decide)

/-- A pulse of channel 2 inside one of channel 1: the next rising edge of channel 1 is taken for
the end of its pulse. -/
theorem overlap_miscounts :
    ¬ Always step InStep (boot 0 .ch1) [.ch1, .ch2, .ch2, .ch1] ∧
      (run step (boot 0 .ch1) [.ch1, .ch2, .ch2, .ch1]).map
        (fun s => (s.captured, s.encoder.motor1NumberOfPulses)) =
          some ([.rising, .rising], 1) := by
  refine ⟨fun h => ?_, by decide⟩
  have hthird := always_head step (((h.2 _ rfl).2 _ rfl).2 _ rfl)
  exact absurd (hthird.polarity .ch1) (by decide)

end BleCar.F103.Capture
