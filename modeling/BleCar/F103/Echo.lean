import BleCar.F103.Ultrasonic

/-!
# Echo measurements

A falling edge reads TIM1 as the length of the echo. That it is one rests on the rising
edge of the same echo having been the last to set TIM1 to 0, less than a period ago. The
other sensor and every trigger pulse set TIM1 to 0 as well, and the falling edge does not
ask for a rising one.
-/

namespace BleCar.F103.Echo

open BleCar.Lib.Clock
open BleCar.Lib.Runs
open BleCar.Motion.Hardware
open BleCar.F103.Ultrasonic

/-- The callback sets `measure_complete` of the sensor: a falling edge that is not ignored finds
less than 25 ms in TIM1. -/
def SetsComplete (sensor : Sensor) (gpioPin : GpioPin) (level : Level) (s : Ranger) : Prop :=
  echoSensor gpioPin = some sensor ∧ level = .reset ∧ ¬ Ignores s ∧ s.tim1.toUInt32 < 25000

instance (sensor : Sensor) (gpioPin : GpioPin) (level : Level) (s : Ranger) :
    Decidable (SetsComplete sensor gpioPin level s) := inferInstanceAs (Decidable (_ ∧ _))

theorem handleEcho_fall (sensor : Sensor) (s : Ranger) :
    (handleEcho sensor .reset s).hcSr04Data sensor =
      ⟨(s.hcSr04Data sensor).echoStart, s.tim1.toUInt32,
        if s.tim1.toUInt32 < 25000 then 1 else (s.hcSr04Data sensor).measureComplete⟩ := by
  simp only [handleEcho, if_neg (show ¬ Level.reset = Level.set by decide)]
  split <;> simp

theorem handleEcho_rise (sensor : Sensor) (s : Ranger) :
    (handleEcho sensor .set s).hcSr04Data sensor = ⟨0, (s.hcSr04Data sensor).echoEnd, 0⟩ := by
  simp [handleEcho]

/-- An edge of one sensor leaves the data of the other alone. -/
theorem handleEcho_other {sensor x : Sensor} (hx : x ≠ sensor) (level : Level) (s : Ranger) :
    (handleEcho sensor level s).hcSr04Data x = s.hcSr04Data x := by
  unfold handleEcho
  split
  · simp [Function.update_of_ne hx]
  · simp only
    split <;> simp [Function.update_of_ne hx]

/-- `SetsComplete` is what the code does: it says when a flag that was clear is set. -/
theorem setsComplete_iff {sensor : Sensor} {s : Ranger}
    (hclear : (s.hcSr04Data sensor).measureComplete = 0) (gpioPin : GpioPin) (level : Level) :
    ((halGpioExtiCallback gpioPin level s).hcSr04Data sensor).measureComplete = 1 ↔
      SetsComplete sensor gpioPin level s := by
  unfold SetsComplete
  by_cases hi : Ignores s
  · simp [callback_ignored hi, hclear, hi]
  cases hp : echoSensor gpioPin with
  | none => simp [callback_other hi hp, hclear]
  | some x =>
    rw [callback_echo hi hp]
    by_cases hx : sensor = x
    · subst hx
      cases level with
      | set => simp [handleEcho_rise]
      | reset => simp [handleEcho_fall, hclear, hi]
    · rw [handleEcho_other hx]
      simp [hclear, Ne.symm hx]

/-- Whenever a measurement is completed, a rising edge of the sensor has come since its last
`HC_SR04_StartMeasure`, and the result is the real time since the latest, below 25 ms. -/
def MeasuresTrue (w : World) (e : Event) : Prop :=
  ∀ sensor gpioPin level t, e = .edge gpioPin level →
    SetsComplete sensor gpioPin level w.ranger → step w e = some t →
      ∃ r, w.history.risen sensor = some r ∧
        ((t.ranger.hcSr04Data sensor).echoEnd - (t.ranger.hcSr04Data sensor).echoStart).toNat =
          w.history.now - r ∧ w.history.now - r < 25000

/-- Where a measurement is completed, the latest rising edge of the sensor since its last
`HC_SR04_StartMeasure` is less than a period old and was the last to set TIM1 to 0, up to
whole periods. -/
def SetByRise (w : World) (e : Event) : Prop :=
  ∀ sensor gpioPin level, e = .edge gpioPin level →
    SetsComplete sensor gpioPin level w.ranger →
      ∃ r, w.history.risen sensor = some r ∧ w.history.zeroed ≡ r [MOD period] ∧
        w.history.now - r < period

variable {start : UInt16}

theorem measuresTrue_iff {w : World} (h : Timed start w.ranger w.history) (e : Event) :
    MeasuresTrue w e ↔ SetByRise w e := by
  have key : ∀ sensor gpioPin level, e = .edge gpioPin level →
      SetsComplete sensor gpioPin level w.ranger → ∃ t, step w e = some t ∧
        ((t.ranger.hcSr04Data sensor).echoEnd - (t.ranger.hcSr04Data sensor).echoStart).toNat =
          reading period (w.history.now - w.history.zeroed) := by
    rintro sensor gpioPin level rfl ⟨hp, rfl, hi, hshort⟩
    refine ⟨_, rfl, ?_⟩
    have hdata := handleEcho_fall sensor
      { w.ranger with lastInterruptTime := w.ranger.tim3.toUInt32 }
    rw [if_pos hshort] at hdata
    rw [callback_echo hi hp, hdata, h.echoStart sensor, UInt32.sub_zero, UInt16.toNat_toUInt32]
    exact h.tim1
  have hpos : 0 < period := by decide
  constructor
  · intro hm sensor gpioPin level he hset
    obtain ⟨t, ht, hval⟩ := key sensor gpioPin level he hset
    obtain ⟨r, hr, heq, -⟩ := hm sensor gpioPin level t he hset ht
    exact ⟨r, hr, (reading_eq_elapsed_iff hpos h.zeroed (h.risen sensor r hr)).mp
      (hval.symm.trans heq)⟩
  · intro hr sensor gpioPin level t he hset ht
    obtain ⟨u, hu, hval⟩ := key sensor gpioPin level he hset
    obtain ⟨r, hr, hmod⟩ := hr sensor gpioPin level he hset
    have heq := (reading_eq_elapsed_iff hpos h.zeroed (h.risen sensor r hr)).mpr hmod
    have hshort := UInt32.lt_iff_toNat_lt.mp hset.2.2.2
    rw [UInt16.toNat_toUInt32, h.tim1, heq] at hshort
    rw [hu] at ht
    cases ht
    exact ⟨r, hr, hval.trans heq, hshort⟩

/-- In every run the completed measurements are true exactly when each reads a TIM1 that the
rising edge of its own echo has set. -/
theorem measurements_true_iff (start : UInt16) (es : List Event) :
    Along step MeasuresTrue (boot start) es ↔ Along step SetByRise (boot start) es :=
  along_timed start (fun _ e h => measuresTrue_iff h e) es

/-! ## The events between the two edges -/

def duration : Event → Nat
  | .elapse us => us
  | _ => 0

/-- No trigger, no rising edge of the sensor, and none of the other that is not ignored. -/
def Undisturbed (sensor : Sensor) (w : World) : Event → Prop
  | .elapse _ | .endTrigger => True
  | .edge gpioPin level =>
    level = .set → ∀ x, echoSensor gpioPin = some x → x ≠ sensor ∧ Ignores w.ranger
  | .startMeasure x => x ≠ sensor
  | .delay => False

theorem step_now {w t : World} {e : Event} (h : step w e = some t) :
    t.history.now = w.history.now + duration e := by
  cases e with
  | elapse us => exact Option.some.inj h ▸ rfl
  | edge gpioPin level => exact Option.some.inj h ▸ rfl
  | startMeasure x =>
    simp only [step] at h
    split at h <;> cases h
    rfl
  | delay =>
    simp only [step] at h
    split at h <;> cases h
    rfl
  | endTrigger =>
    simp only [step] at h
    split at h
    · split at h <;> cases h
      rfl
    · cases h

theorem run_now {w t : World} {es : List Event} (h : run step w es = some t) :
    t.history.now = w.history.now + (es.map duration).sum := by
  induction es generalizing w with
  | nil => exact Option.some.inj h ▸ rfl
  | cons e es ih =>
    obtain ⟨m, hm, hr⟩ := run_cons_inv step h
    rw [ih hr, step_now hm, List.map_cons, List.sum_cons, Nat.add_assoc]

/-- The latest rising edge of the sensor was at `r`, and TIM1 has run since. -/
def RunsSince (sensor : Sensor) (r : Nat) (w : World) : Prop :=
  w.history.risen sensor = some r ∧ w.history.zeroed = r

theorem Undisturbed.keeps {sensor : Sensor} {r : Nat} {w t : World} {e : Event}
    (hw : RunsSince sensor r w) (he : Undisturbed sensor w e) (h : step w e = some t) :
    RunsSince sensor r t := by
  obtain ⟨hrisen, hzeroed⟩ := hw
  cases e with
  | elapse us => exact Option.some.inj h ▸ ⟨hrisen, hzeroed⟩
  | edge gpioPin level =>
    obtain rfl := Option.some.inj h
    have hedge : level = .set → ∀ x, echoSensor gpioPin = some x → x ≠ sensor ∧ Ignores w.ranger :=
      he
    cases level with
    | reset =>
      refine ⟨?_, (if_neg (by simp)).trans hzeroed⟩
      cases hp : echoSensor gpioPin <;> simpa [History.atEdge, hp] using hrisen
    | set =>
      cases hp : echoSensor gpioPin with
      | none =>
        exact ⟨by simpa [History.atEdge, hp] using hrisen, by simp [History.atEdge, hp, hzeroed]⟩
      | some x =>
        obtain ⟨hne, hi⟩ := hedge rfl x hp
        refine ⟨?_, by simp [History.atEdge, hi, hzeroed]⟩
        simpa [History.atEdge, hp, Function.update_of_ne hne.symm] using hrisen
  | startMeasure x =>
    simp only [step] at h
    split at h <;> cases h
    exact ⟨(Function.update_of_ne (Ne.symm he) _ _).trans hrisen, hzeroed⟩
  | delay => exact he.elim
  | endTrigger =>
    simp only [step] at h
    split at h
    · split at h <;> cases h
      exact ⟨hrisen, hzeroed⟩
    · cases h

/-- A rising edge that is not ignored, and for less than a period neither a trigger nor another
that counts: a falling edge of the sensor then finds what `SetByRise` asks for. -/
theorem setByRise_of_undisturbed {w m t : World} {sensor : Sensor} {gpioPin : GpioPin}
    (hpin : echoSensor gpioPin = some sensor) (hok : ¬ Ignores w.ranger)
    (hrise : step w (.edge gpioPin .set) = some m) {es : List Event}
    (hes : Along step (Undisturbed sensor) m es) (hr : run step m es = some t)
    (hlong : (es.map duration).sum < period) :
    ∃ r, t.history.risen sensor = some r ∧ t.history.zeroed ≡ r [MOD period] ∧
      t.history.now - r < period := by
  have hstart : RunsSince sensor w.history.now m := by
    obtain rfl := Option.some.inj hrise
    exact ⟨by simp [History.atEdge, hpin], by simp [History.atEdge, hpin, hok]⟩
  obtain ⟨hrisen, hzeroed⟩ : RunsSince sensor w.history.now t :=
    always_last step (always_of_along (fun _ _ _ hw he hstep => he.keeps hw hstep) hstart es hes) hr
  refine ⟨w.history.now, hrisen, by rw [hzeroed], ?_⟩
  rw [run_now hr, step_now hrise]
  simp only [duration]
  omega

/-- Edges at least `DEBOUNCE_TIME` apart. -/
def Spaced (w : World) : Event → Prop
  | .edge _ _ => ∀ q ∈ w.history.edge, 10 ≤ w.history.now - q
  | _ => True

instance (w : World) : ∀ e, Decidable (Spaced w e)
  | .edge _ _ => inferInstanceAs (Decidable (∀ q ∈ w.history.edge, _))
  | .elapse _ | .startMeasure _ | .delay | .endTrigger => isTrue trivial

/-- An echo of the front sensor of 1000 microseconds, in the middle of which one of the rear
sensor begins. -/
def crossTalk : List Event :=
  [.startMeasure .front, .delay, .elapse 10, .endTrigger, .elapse 100, .edge .frontEcho .set,
    .elapse 500, .edge .rearEcho .set, .elapse 500]

theorem cross_talk_halves :
    Along step Spaced (boot 0) (crossTalk ++ [.edge .frontEcho .reset]) ∧
      ¬ Along step MeasuresTrue (boot 0) (crossTalk ++ [.edge .frontEcho .reset]) := by
  refine ⟨by decide, fun h => ?_⟩
  have hlast := ((along_append step MeasuresTrue (boot 0) crossTalk _).mp h).2 _ rfl
  obtain ⟨r, hr, heq, -⟩ := hlast.1 .front .frontEcho .reset _ rfl (by decide) rfl
  cases hr
  exact absurd heq (by decide)

end BleCar.F103.Echo
