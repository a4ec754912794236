import BleCar.F103.Firmware
import BleCar.Motion.TurnRamp

/-!
# The soft turn of the F103 firmware

`current_pwm` is filled in the order of the motors, 0, 1, 2, and read at
`channel - TIM_CHANNEL_1`, which is 0, 4 or 8. Only the wheel on channel 1 finds its own
value there; the front wheel, on channel 3 in every turn, reads behind the array.
-/

namespace BleCar.F103.Turning

open BleCar.Lib.Approach
open BleCar.Motion.Hardware
open BleCar.Motion.Routines
open BleCar.Motion.TurnRamp
open BleCar.F103.Firmware

/-- The channel a turn from the registers of `d` drives `w` by. -/
def wheelChannel (turnDir : UInt8) (d : Drive) (w : Wheel) : Channel :=
  w.channel (turnRoles board turnDir d.act)

/-- The values written to a wheel start at the compare value its channel held on entry and go
monotonically to its target. -/
def WheelRamps (y : Stray) (turnDir level : UInt8) (time : UInt16) (d : Drive) (w : Wheel) :
    Prop :=
  let c := wheelChannel turnDir d w
  ∃ rest, (carTurnSoft board y turnDir level time d).written c =
      d.written c ++ d.getCompare c :: rest ∧
    RampsTo (d.getCompare c) (w.target (turnInner y level)) rest

/-- Every wheel ramps from its present speed, and `current_pwm` is read only where it has been
filled. -/
structure SoftTurn (y : Stray) (turnDir level : UInt8) (time : UInt16) (d : Drive) : Prop where
  wheels : ∀ w, WheelRamps y turnDir level time d w
  reads : ∀ w, channelToIndex (wheelChannel turnDir d w) < motors.length

theorem wheelChannel_front (turnDir : UInt8) (d : Drive) :
    wheelChannel turnDir d .front = .ch3 := by
  simp only [wheelChannel, Wheel.channel, turnRoles, board]
  split_ifs <;> rfl

theorem turnInner_lt {level : UInt8} (h1 : 1 ≤ level) (h3 : ¬ level > 3) (y : Stray) :
    turnInner y level < 65536 := by
  rw [UInt8.le_iff_toNat_le] at h1
  rw [gt_iff_lt, UInt8.lt_iff_toNat_lt] at h3
  simp only [UInt8.reduceToNat] at h1 h3
  have hcases : level.toNat = 1 ∨ level.toNat = 2 ∨ level.toNat = 3 := by omega
  rcases hcases with h | h | h <;> rw [turnInner, h]
  · exact (by decide : 700 < 65536)
  · exact (by decide : 400 < 65536)
  · exact (by decide : 200 < 65536)

/-- A wheel ramps from its present speed exactly when the turn takes the right value for it. -/
theorem wheelRamps_iff {y : Stray} (hy : y.scaled = exactScale) {level : UInt8} (h1 : 1 ≤ level)
    (h3 : ¬ level > 3) (turnDir : UInt8) (time : UInt16) (d : Drive) (w : Wheel) :
    WheelRamps y turnDir level time d w ↔
      presentPwm board y d (wheelChannel turnDir d w) =
        d.getCompare (wheelChannel turnDir d w) := by
  have hinner := turnInner_lt h1 h3 y
  have hwritten := carTurnSoft_written board y hy h3 hinner turnDir time d w
  obtain ⟨rest, hrest, hramp⟩ :=
    turnValues_ramp (presentPwm_lt board y d (wheelChannel turnDir d w)) (w.target_lt hinner)
      (accelSteps time)
  unfold WheelRamps
  dsimp only at hwritten ⊢
  rw [wheelChannel] at *
  rw [hwritten, hrest]
  constructor
  · rintro ⟨rest', heq, -⟩
    exact (List.cons.inj (List.append_cancel_left heq)).1
  · intro heq
    rw [heq] at hramp ⊢
    exact ⟨rest, rfl, hramp⟩

/-- For all compare values, turn directions, levels 1..3 and acceleration times the soft turn
reads `current_pwm` outside its three filled elements, for the front wheel at index 8. A wheel
on channel 1 ramps from its own speed; any other does so only if the stray value found is its
own. -/
theorem soft_turn_never {y : Stray} (hy : y.scaled = exactScale) {level : UInt8} (h1 : 1 ≤ level)
    (h3 : ¬ level > 3) (turnDir : UInt8) (time : UInt16) (d : Drive) :
    ¬ SoftTurn y turnDir level time d ∧
      ∀ w, WheelRamps y turnDir level time d w ↔
        wheelChannel turnDir d w = .ch1 ∨
          (y.pwm (channelToIndex (wheelChannel turnDir d w))).toNat =
            d.getCompare (wheelChannel turnDir d w) := by
  constructor
  · intro h
    have hread := h.reads .front
    rw [wheelChannel_front] at hread
    exact absurd hread (by decide)
  · intro w
    rw [wheelRamps_iff hy h1 h3]
    by_cases hc : wheelChannel turnDir d w = .ch1
    · rw [hc, presentPwm_ch1]
      exact ⟨fun _ => .inl rfl, fun _ => rfl⟩
    · rw [presentPwm_stray board y hc, or_iff_right hc]

/-- The registers at speed level 1, forward. -/
def fullSpeed : Drive := ⟨⟨fun c => if c = .ch4 then 0 else 1000, fun _ => .reset⟩, []⟩

theorem soft_turn_never_left :
    ¬ SoftTurn .blank myTurnLeft 1 0 fullSpeed ∧
      ∀ w, WheelRamps .blank myTurnLeft 1 0 fullSpeed w ↔
        wheelChannel myTurnLeft fullSpeed w = .ch1 ∨
          (Stray.blank.pwm (channelToIndex (wheelChannel myTurnLeft fullSpeed w))).toNat =
            fullSpeed.getCompare (wheelChannel myTurnLeft fullSpeed w) :=
  soft_turn_never rfl (by decide) (by decide) myTurnLeft 0 fullSpeed

/-- At full speed, where the memory behind the array holds 0, a left turn first stops the front
wheel and the inner wheel. -/
theorem soft_turn_stops_front :
    ¬ SoftTurn .blank myTurnLeft 1 0 fullSpeed ∧
      ¬ WheelRamps .blank myTurnLeft 1 0 fullSpeed .front ∧
      ¬ WheelRamps .blank myTurnLeft 1 0 fullSpeed .innerRear := by
  have hfront : ¬ WheelRamps .blank myTurnLeft 1 0 fullSpeed .front := by
    rw [wheelRamps_iff rfl (by decide) (by decide)]
    decide
  have hinner : ¬ WheelRamps .blank myTurnLeft 1 0 fullSpeed .innerRear := by
    rw [wheelRamps_iff rfl (by decide) (by decide)]
    decide
  exact ⟨fun h => hfront (h.wheels .front), hfront, hinner⟩

end BleCar.F103.Turning
