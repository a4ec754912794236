import Mathlib.Order.Lattice.Nat
import BleCar.Lib.Approach
import BleCar.Motion.RoutineSpecs

/-!
# The compare values `car_turn_soft` writes

Each wheel's values are interpolated between the value the routine takes for its
present one and its target. With the ratio `step / steps` exact they ramp from that
value to the target; whether that value is the wheel's own is a matter of the index
`channel_to_index` gives.
-/

namespace BleCar.Motion.TurnRamp

open BleCar.Lib.Approach
open BleCar.Motion.Hardware
open BleCar.Motion.Routines

/-! ## `calculate_step_pwm` -/

/-- The product `ratio * x` with the exact rational `step / steps`, cut towards zero. -/
def exactScale (step steps : Nat) (x : Int) : Int := Int.tdiv (step * x) steps

/-- The value after step `step` of `steps`, from `v` to `target`. -/
def turnValue (v target steps step : Nat) : Nat :=
  calculateStepPwm v target (exactScale step steps)

/-- The part of a distance covered after `step` of `steps` steps. -/
def covered (distance steps step : Nat) : Nat := step * distance / steps

section

variable {v target distance steps step : Nat}

theorem covered_zero : covered distance steps 0 = 0 := by
  rw [covered, Nat.zero_mul, Nat.zero_div]

theorem covered_le (h : step ≤ steps) : covered distance steps step ≤ distance :=
  Nat.div_le_of_le_mul (Nat.mul_le_mul_right distance h)

theorem covered_succ_le : covered distance steps step ≤ covered distance steps (step + 1) :=
  Nat.div_le_div_right (Nat.mul_le_mul_right distance (Nat.le_succ step))

theorem turnValue_rising (h : v < target) (hle : step ≤ steps) (hlt : target < 65536) :
    turnValue v target steps step = v + covered (target - v) steps step := by
  have hscale : exactScale step steps ((target : Int) - v) = covered (target - v) steps step := by
    rw [exactScale, covered, ← Nat.cast_sub h.le]
    norm_cast
  have hbound := @covered_le (target - v) steps step hle
  simp only [turnValue, calculateStepPwm, hscale]
  split_ifs <;> omega

theorem turnValue_falling (h : target ≤ v) (hle : step ≤ steps) (hlt : v < 65536) :
    turnValue v target steps step = v - covered (v - target) steps step := by
  have hscale : exactScale step steps ((target : Int) - v) = -covered (v - target) steps step := by
    rw [exactScale, covered, ← neg_sub, mul_neg, Int.neg_tdiv, ← Nat.cast_sub h]
    norm_cast
  have hbound := @covered_le (v - target) steps step hle
  simp only [turnValue, calculateStepPwm, hscale]
  split_ifs <;> omega

theorem turnValue_zero (hv : v < 65536) (ht : target < 65536) :
    turnValue v target steps 0 = v := by
  rcases Nat.lt_or_ge v target with h | h
  · rw [turnValue_rising h (Nat.zero_le _) ht, covered_zero, Nat.add_zero]
  · rw [turnValue_falling h (Nat.zero_le _) hv, covered_zero, Nat.sub_zero]

/-- One step further is one step closer. -/
theorem turnValue_approaches (hv : v < 65536) (ht : target < 65536) (hlt : step < steps) :
    turnValue v target steps (step + 1) ∈ Set.uIcc (turnValue v target steps step) target := by
  have hle : step + 1 ≤ steps := hlt
  rcases Nat.lt_or_ge v target with h | h
  · have hmono := @covered_succ_le (target - v) steps step
    have hbound := @covered_le (target - v) steps (step + 1) hle
    rw [turnValue_rising h hlt.le ht, turnValue_rising h hle ht, Set.uIcc_of_le (by omega)]
    exact ⟨by omega, by omega⟩
  · have hmono := @covered_succ_le (v - target) steps step
    have hbound := @covered_le (v - target) steps (step + 1) hle
    rw [turnValue_falling h hlt.le hv, turnValue_falling h hle hv, Set.uIcc_of_ge (by omega)]
    exact ⟨by omega, by omega⟩

theorem turnValue_lt (hv : v < 65536) (ht : target < 65536) (hle : step ≤ steps) :
    turnValue v target steps step < 65536 := by
  rcases Nat.lt_or_ge v target with h | h
  · have hbound := @covered_le (target - v) steps step hle
    rw [turnValue_rising h hle ht]
    omega
  · rw [turnValue_falling h hle hv]
    omega

end

/-- The values of a whole ramp, with the forced target at the end. -/
def turnValues (v target steps : Nat) : List Nat :=
  (List.range (steps + 1)).map (turnValue v target steps) ++ [target]

/-- A turn's ramp starts at `v` and goes monotonically to the target. -/
theorem turnValues_ramp {v target : Nat} (hv : v < 65536) (ht : target < 65536) (steps : Nat) :
    ∃ rest, turnValues v target steps = v :: rest ∧ RampsTo v target rest := by
  have hlist : turnValues v target steps =
      v :: (((List.range steps).map Nat.succ).map (turnValue v target steps) ++ [target]) := by
    rw [turnValues, List.range_succ_eq_map, List.map_cons, turnValue_zero hv ht, List.cons_append]
  have happroach : Approaches target (turnValues v target steps) := by
    apply Approaches.concat
    exact approaches_range fun k hk => turnValue_approaches hv ht hk
  rw [hlist] at happroach
  exact ⟨_, hlist, happroach.rampsTo⟩

/-! ## The three wheels -/

/-- A wheel of a turn. -/
inductive Wheel where
  | front | outerRear | innerRear
  deriving DecidableEq, Repr

def Wheel.channel (r : Roles) : Wheel → Channel
  | .front => r.front
  | .outerRear => r.outerRear
  | .innerRear => r.innerRear

/-- What the wheel is driven to: `speed_outer` or `target_inner`. -/
def Wheel.target (targetInner : Nat) : Wheel → Nat
  | .front => speedOuter
  | .outerRear => speedOuter
  | .innerRear => targetInner

theorem Wheel.target_lt {targetInner : Nat} (h : targetInner < 65536) (w : Wheel) :
    w.target targetInner < 65536 := by
  cases w with
  | innerRear => exact h
  | _ => exact (by decide : speedOuter < 65536)

/-- The three compare writes of a turn, in its order. -/
def setWheels (r : Roles) (v : Wheel → Nat) (d : Drive) : Drive :=
  ((d.setCompare r.front (v .front)).setCompare r.outerRear (v .outerRear)).setCompare
    r.innerRear (v .innerRear)

theorem setWheels_written {r : Roles} (hr : Function.Injective (Wheel.channel r))
    (v : Wheel → Nat) (d : Drive) (w : Wheel) :
    (setWheels r v d).written (w.channel r) = d.written (w.channel r) ++ [v w % 65536] := by
  have hfo : r.front ≠ r.outerRear := hr.ne (by decide : Wheel.front ≠ .outerRear)
  have hfi : r.front ≠ r.innerRear := hr.ne (by decide : Wheel.front ≠ .innerRear)
  have hoi : r.outerRear ≠ r.innerRear := hr.ne (by decide : Wheel.outerRear ≠ .innerRear)
  cases w with
  | front =>
    rw [Wheel.channel, setWheels, setCompare_written_other _ hfi.symm,
      setCompare_written_other _ hfo.symm, setCompare_written]
  | outerRear =>
    rw [Wheel.channel, setWheels, setCompare_written_other _ hoi.symm, setCompare_written,
      setCompare_written_other _ hfo]
  | innerRear =>
    rw [Wheel.channel, setWheels, setCompare_written, setCompare_written_other _ hoi,
      setCompare_written_other _ hfi]

variable (B : Board) (y : Stray)

theorem turnRoles_injective (turnDir : UInt8) (a : Actuators) :
    Function.Injective (Wheel.channel (turnRoles B turnDir a)) := by
  have hfo := B.front_ne_outer turnDir (pinDirection (a.pin .m3))
  have hfi := B.front_ne_inner turnDir (pinDirection (a.pin .m3))
  have hoi := B.outer_ne_inner turnDir (pinDirection (a.pin .m3))
  intro w w' h
  cases w <;> cases w' <;> first | rfl | exact absurd h ‹_› | exact absurd h.symm ‹_›

/-- The value a turn takes for the present one of channel `c`. -/
def presentPwm (d : Drive) (c : Channel) : Nat :=
  tableRead y.pwm (motors.map fun m => d.getCompare (B.chan m)) (channelToIndex c)

/-- Channel 1 is the only one whose index finds its own value. -/
theorem presentPwm_ch1 (d : Drive) : presentPwm B y d .ch1 = d.getCompare (B.chan .m1) := rfl

/-- The indices of the other channels lie behind the three values read. -/
theorem presentPwm_stray {c : Channel} (hc : c ≠ .ch1) (d : Drive) :
    presentPwm B y d c = (y.pwm (channelToIndex c)).toNat := by
  have hout : 3 ≤ channelToIndex c := by cases c <;> first | exact absurd rfl hc | decide
  rw [presentPwm, tableRead, if_neg]
  simp only [motors, List.map_cons, List.map_nil, List.length_cons, List.length_nil]
  omega

theorem presentPwm_lt (d : Drive) (c : Channel) : presentPwm B y d c < 65536 := by
  by_cases hc : c = .ch1
  · rw [hc, presentPwm_ch1]
    exact d.getCompare_lt _
  · rw [presentPwm_stray B y hc]
    exact UInt16.toNat_lt _

/-- The value a turn that started in `d` writes to a wheel in one iteration. -/
def stepPwm (r : Roles) (d : Drive) (targetInner steps step : Nat) (w : Wheel) : Nat :=
  calculateStepPwm (presentPwm B y d (w.channel r)) (w.target targetInner) (y.scaled step steps)

theorem turnStep_eq (r : Roles) (d₀ : Drive) (targetInner steps : Nat) (d : Drive) (step : Nat) :
    turnStep y r (motors.map fun m => d₀.getCompare (B.chan m)) targetInner steps d step =
      setWheels r (stepPwm B y r d₀ targetInner steps step) d := rfl

theorem carTurnSoft_eq {level : UInt8} (h : ¬ level > 3) (turnDir : UInt8) (time : UInt16)
    (d : Drive) :
    carTurnSoft B y turnDir level time d =
      setWheels (turnRoles B turnDir d.act) (Wheel.target (turnInner y level))
        ((List.range (accelSteps time + 1)).foldl
          (turnStep y (turnRoles B turnDir d.act) (motors.map fun m => d.getCompare (B.chan m))
            (turnInner y level) (accelSteps time)) d) := by
  rw [carTurnSoft, if_neg h]
  rfl

theorem ramp_written {r : Roles} (hr : Function.Injective (Wheel.channel r)) (d₀ : Drive)
    (targetInner steps n : Nat) (d : Drive) (w : Wheel) :
    ((List.range n).foldl (turnStep y r (motors.map fun m => d₀.getCompare (B.chan m)) targetInner
        steps) d).written (w.channel r) =
      d.written (w.channel r) ++
        (List.range n).map fun step => stepPwm B y r d₀ targetInner steps step w % 65536 := by
  induction n with
  | zero => simp
  | succ n ih =>
    rw [List.range_succ, List.foldl_append, List.foldl_cons, List.foldl_nil, turnStep_eq,
      setWheels_written hr, ih, List.map_append, List.append_assoc]
    rfl

/-- With the exact ratio a turn writes to each wheel the ramp from the value it takes for the
present one. -/
theorem carTurnSoft_written (hy : y.scaled = exactScale) {level : UInt8} (h : ¬ level > 3)
    (hinner : turnInner y level < 65536) (turnDir : UInt8) (time : UInt16) (d : Drive)
    (w : Wheel) :
    let c := w.channel (turnRoles B turnDir d.act)
    (carTurnSoft B y turnDir level time d).written c = d.written c ++
      turnValues (presentPwm B y d c) (w.target (turnInner y level)) (accelSteps time) := by
  intro c
  have hr := turnRoles_injective B turnDir d.act
  have htarget := w.target_lt hinner
  have hvalues : ∀ step ∈ List.range (accelSteps time + 1),
      stepPwm B y (turnRoles B turnDir d.act) d (turnInner y level) (accelSteps time) step w
        % 65536 =
      turnValue (presentPwm B y d c) (w.target (turnInner y level)) (accelSteps time) step := by
    intro step hstep
    have hle : step ≤ accelSteps time := Nat.lt_succ_iff.mp (List.mem_range.mp hstep)
    rw [stepPwm, hy]
    exact Nat.mod_eq_of_lt (turnValue_lt (presentPwm_lt B y d _) htarget hle)
  rw [carTurnSoft_eq B y h, setWheels_written hr, ramp_written B y hr,
    List.map_congr_left hvalues, Nat.mod_eq_of_lt htarget, List.append_assoc]
  rfl

end BleCar.Motion.TurnRamp
