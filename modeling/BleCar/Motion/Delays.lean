import BleCar.Lib.Ticks
import BleCar.Motion.TaskSpecs

/-!
# How long the motor task keeps the main loop

The ramps wait 10 ms after each of their steps, and a change of direction waits 100 ms more
at the standstill. The routines of `BleCar.Motion.Routines` are repeated here with the
milliseconds asked of `HAL_Delay` beside the registers.
-/

namespace BleCar.Motion.Routines

open BleCar.Lib.WhileLoop
open BleCar.Lib.Ticks
open BleCar.Motion.Hardware

variable (B : Board) (y : Stray)

def motorsSetSpeedSoftTimed (targetSpeedLevel direction : UInt8) (accelTimeMs : UInt16)
    (p : Drive × Nat) : Drive × Nat :=
  if targetSpeedLevel < 1 ∨ targetSpeedLevel > 5 then p
  else
    let targetPwm := tableRead y.duty dutyTable (targetSpeedLevel.toNat - 1)
    let s := motors.foldl (scanMotor B direction targetPwm) ⟨p.1, fun _ => 0, 0⟩
    if s.maxDelta = 0 then (s.drive, p.2)
    else
      let steps := accelSteps accelTimeMs
      let ramp := (ticked 10 (rampStep B targetPwm (s.maxDelta / steps)))^[steps]
        (⟨s.drive, s.currentPwms, s.maxDelta % steps⟩, p.2)
      (setAll B (fun _ => targetPwm) ramp.1.drive, ramp.2)

def stopAllMotorsSyncTimed (decelTimeMs : UInt16) (p : Drive × Nat) : Option (Drive × Nat) :=
  if maxPwm B p.1 = 0 then some p
  else
    (whileLoop (fun q => decide (q.1.maxPwm > 0))
      (ticked 10 (decelStep B (decelStepSize B decelTimeMs p.1))) (maxPwm B p.1)
      (decelEntry B p.1, p.2)).map fun q => (q.1.drive, q.2)

def carTurnSoftTimed (turnDir level : UInt8) (accelTimeMs : UInt16) (p : Drive × Nat) :
    Drive × Nat :=
  if level > 3 then p
  else
    let r := turnRoles B turnDir p.1.act
    let currentPwm := motors.map fun m => p.1.getCompare (B.chan m)
    let targetInner := turnInner y level
    let steps := accelSteps accelTimeMs
    let q := (List.range (steps + 1)).foldl
      (fun q step => ticked 10 (fun d => turnStep y r currentPwm targetInner steps d step) q) p
    (((q.1.setCompare r.front speedOuter).setCompare r.outerRear speedOuter).setCompare
      r.innerRear targetInner, q.2)

def myMotorControlTaskTimed (g : Globals) (p : Drive × Nat) : Option (Globals × Drive × Nat) :=
  match g.gControlMotorFlag with
  | .idle => some (g, p)
  | .direction =>
    let currentCarDir := pinDirection (p.1.act.pin .m1)
    (if currentCarDir ≠ g.gMotorDirection then
      (stopAllMotorsSyncTimed B 200 p).map fun q => (q.1, q.2 + 100) else some p).map fun q =>
        ({ g with gControlMotorFlag := .idle },
          motorsSetSpeedSoftTimed B y g.gMotorSpeedLevel g.gMotorDirection 0 q)
  | .turn =>
    some ({ g with gControlMotorFlag := .idle },
      carTurnSoftTimed B y g.gMotorTurnDirection g.gMotorTurnLevel 0 p)
  | .stop => (stopAllMotorsSyncTimed B 200 p).map fun q =>
    ({ g with gControlMotorFlag := .idle }, q)

/-! ## The clock changes nothing -/

section

variable (p : Drive × Nat)

theorem motorsSetSpeedSoftTimed_drive (level direction : UInt8) (time : UInt16) :
    (motorsSetSpeedSoftTimed B y level direction time p).1 =
      motorsSetSpeedSoft B y level direction time p.1 := by
  unfold motorsSetSpeedSoftTimed motorsSetSpeedSoft
  split
  · rfl
  · dsimp only
    split
    · rfl
    · rw [ticked_iterate]

theorem stopAllMotorsSyncTimed_drive (time : UInt16) :
    (stopAllMotorsSyncTimed B time p).map Prod.fst = stopAllMotorsSync B time p.1 := by
  unfold stopAllMotorsSyncTimed stopAllMotorsSync decelLoop
  split
  · rfl
  · rw [← ticked_whileLoop (c := fun s : Decel => decide (s.maxPwm > 0)) 10 _
      (decelEntry B p.1, p.2), Option.map_map, Option.map_map]
    rfl

theorem carTurnSoftTimed_drive (turnDir level : UInt8) (time : UInt16) :
    (carTurnSoftTimed B y turnDir level time p).1 = carTurnSoft B y turnDir level time p.1 := by
  unfold carTurnSoftTimed carTurnSoft
  split
  · rfl
  · dsimp only
    rw [ticked_foldl]

theorem myMotorControlTaskTimed_drive (g : Globals) :
    (myMotorControlTaskTimed B y g p).map (fun out => (out.1, out.2.1)) =
      myMotorControlTask B y g p.1 := by
  unfold myMotorControlTaskTimed myMotorControlTask
  cases g.gControlMotorFlag with
  | idle => rfl
  | turn =>
    dsimp only
    rw [Option.map_some, carTurnSoftTimed_drive]
  | stop =>
    dsimp only
    rw [myMotorCarStop, ← stopAllMotorsSyncTimed_drive, Option.map_map, Option.map_map]
    rfl
  | direction =>
    dsimp only
    have hrun : ∀ q : Drive × Nat, (motorsSetSpeedSoftTimed B y g.gMotorSpeedLevel
        g.gMotorDirection 0 q).1 = myMotorCarRun B y g.gMotorSpeedLevel g.gMotorDirection q.1 :=
      fun q => motorsSetSpeedSoftTimed_drive B y q _ _ 0
    split
    · rw [myMotorCarStop, ← stopAllMotorsSyncTimed_drive, Option.map_map, Option.map_map,
        Option.map_map]
      congr 1
      funext q
      exact congrArg (Prod.mk _) (hrun (q.1, q.2 + 100))
    · exact congrArg some (congrArg (Prod.mk _) (hrun p))

end

/-! ## The clock -/

/-- The compare values are such that a stop of 200 ms, in 20 steps, needs at most one step
more. -/
def Paced (d : Drive) : Prop := maxPwm B d ≤ 21 * (maxPwm B d / 20)

variable {B} {y} {p : Drive × Nat}

theorem motorsSetSpeedSoftTimed_ms (level direction : UInt8) (time : UInt16) :
    (motorsSetSpeedSoftTimed B y level direction time p).2 ≤ p.2 + accelSteps time * 10 := by
  unfold motorsSetSpeedSoftTimed
  split
  · exact Nat.le_add_right _ _
  · dsimp only
    split
    · exact Nat.le_add_right _ _
    · rw [ticked_iterate]

theorem carTurnSoftTimed_ms (turnDir level : UInt8) (time : UInt16) :
    (carTurnSoftTimed B y turnDir level time p).2 ≤ p.2 + (accelSteps time + 1) * 10 := by
  unfold carTurnSoftTimed
  split
  · exact Nat.le_add_right _ _
  · dsimp only
    rw [ticked_foldl, List.length_range]

/-- A stop of 200 ms takes at most 210. -/
theorem stopAllMotorsSyncTimed_ms (h : Paced B p.1) {q : Drive × Nat}
    (hq : stopAllMotorsSyncTimed B 200 p = some q) : q.2 ≤ p.2 + 210 := by
  unfold stopAllMotorsSyncTimed at hq
  split at hq
  case isTrue =>
    obtain rfl := Option.some.inj hq
    exact Nat.le_add_right _ _
  case isFalse hz =>
    obtain ⟨u, hu, rfl⟩ := Option.map_eq_some_iff.mp hq
    have hsteps : decelSteps 200 = 20 := by decide
    rw [decelStepSize, hsteps] at hu
    unfold Paced at h
    have hpos : 0 < maxPwm B p.1 / 20 := by omega
    have hms := ticked_countdown (I := fun _ : Decel => True) (v := Decel.maxPwm) hpos
      (fun _ => rfl) (fun s _ _ => ⟨trivial, decelStep_maxPwm B _ s⟩) trivial hu
    have hrounds : (maxPwm B p.1 + (maxPwm B p.1 / 20 - 1)) / (maxPwm B p.1 / 20) ≤ 21 := by
      rw [← Nat.lt_succ_iff, Nat.div_lt_iff_lt_mul hpos]
      omega
    have hle := Nat.mul_le_mul_right 10 hrounds
    dsimp only [decelEntry] at hms ⊢
    omega

/-! ## Every motion of the car is paced -/

theorem paced_of_stopped {d : Drive} (h : Stopped B d.act) : Paced B d := by
  rw [Paced, maxPwm_eq_zero B h]

/-- A largest compare value from 380 on leaves a remainder that the 21st step covers. -/
theorem paced_of_le {d : Drive} {m : Motor} (h : 380 ≤ d.getCompare (B.chan m)) : Paced B d := by
  have hle := le_maxPwm B d m
  unfold Paced
  omega

theorem paced_of_duty {d : Drive} {level : UInt8} (hl : ¬ (level < 1 ∨ level > 5))
    (h : ∀ m, d.act.ccr (B.chan m) = UInt16.ofNat (dutyOf level)) : Paced B d := by
  obtain ⟨hlo, hhi⟩ := dutyOf_range hl
  have hget : ∀ m, d.getCompare (B.chan m) = dutyOf level := fun m => by
    rw [Drive.getCompare, h m, UInt16.toNat_ofNat_of_lt' (show dutyOf level < 65536 by omega)]
  have hmax : maxPwm B d = dutyOf level := by
    simp only [maxPwm, motors, List.foldl_cons, List.foldl_nil, hget]
    simp only [gt_iff_lt, ← max_def_lt]
    omega
  obtain ⟨h1, h5⟩ := level_range hl
  have hcases : level.toNat = 1 ∨ level.toNat = 2 ∨ level.toNat = 3 ∨ level.toNat = 4 ∨
      level.toNat = 5 := by omega
  rw [Paced, hmax, dutyOf]
  rcases hcases with h | h | h | h | h <;> rw [h] <;> decide

theorem paced_of_turn {d : Drive} {turnDir car : UInt8} {inner : Nat}
    (h : TurnPattern (B.roles turnDir car) inner d.act) : Paced B d := by
  obtain ⟨⟨m, hm⟩, -, -⟩ := roles_driven B turnDir car
  refine paced_of_le (m := m) ?_
  rw [Drive.getCompare, hm, h.1]
  decide

theorem motorsSetSpeedSoft_paced {d : Drive} (h : Paced B d) (level direction : UInt8)
    (time : UInt16) : Paced B (motorsSetSpeedSoft B y level direction time d) := by
  by_cases hl : level < 1 ∨ level > 5
  · rwa [motorsSetSpeedSoft_idle B y hl]
  · exact paced_of_duty hl (motorsSetSpeedSoft_final B y hl direction time d).2

theorem carTurnSoft_paced {d : Drive} (h : Paced B d) (turnDir level : UInt8) (time : UInt16) :
    Paced B (carTurnSoft B y turnDir level time d) := by
  by_cases hl : level > 3
  · rwa [carTurnSoft, if_pos hl]
  · exact paced_of_turn (carTurnSoft_spec B y hl turnDir time d).2

/-- A paced car is stopped by a stop. -/
theorem stopAllMotorsSyncTimed_spec (h : Paced B p.1) :
    ∃ q, stopAllMotorsSyncTimed B 200 p = some q ∧ Stopped B q.1.act ∧ q.2 ≤ p.2 + 210 := by
  have hends : Stopped B p.1.act ∨ decelSteps 200 ≤ maxPwm B p.1 := by
    by_cases hz : maxPwm B p.1 = 0
    · exact .inl (stopped_of_maxPwm B hz)
    · have hsteps : decelSteps 200 = 20 := by decide
      unfold Paced at h
      omega
  obtain ⟨d, hd, -, hstop⟩ := stopAllMotorsSync_spec B hends
  rw [← stopAllMotorsSyncTimed_drive] at hd
  obtain ⟨q, hq, rfl⟩ := Option.map_eq_some_iff.mp hd
  exact ⟨q, hq, hstop, stopAllMotorsSyncTimed_ms h hq⟩

/-- From a paced car every value of the flag keeps the main loop for 510 ms at most, and
leaves the car paced. -/
theorem task_timed {g : Globals} (h : Paced B p.1) :
    ∃ q, myMotorControlTaskTimed B y g p = some ({ g with gControlMotorFlag := .idle }, q) ∧
      Paced B q.1 ∧ q.2 ≤ p.2 + 510 := by
  have hsteps : accelSteps 0 = 20 := by decide
  have hrun := fun q : Drive × Nat => motorsSetSpeedSoftTimed_ms (B := B) (y := y) (p := q)
    g.gMotorSpeedLevel g.gMotorDirection 0
  unfold myMotorControlTaskTimed
  cases hf : g.gControlMotorFlag with
  | idle =>
    have hg : { g with gControlMotorFlag := .idle } = g := by rw [← hf]
    exact ⟨p, by rw [hg], h, Nat.le_add_right _ _⟩
  | turn =>
    have hms := carTurnSoftTimed_ms (B := B) (y := y) (p := p) g.gMotorTurnDirection
      g.gMotorTurnLevel 0
    refine ⟨_, rfl, ?_, by omega⟩
    rw [carTurnSoftTimed_drive]
    exact carTurnSoft_paced h _ _ _
  | stop =>
    obtain ⟨q, hq, hstop, hms⟩ := stopAllMotorsSyncTimed_spec h
    exact ⟨q, by simp only [hq, Option.map_some], paced_of_stopped hstop, by omega⟩
  | direction =>
    dsimp only
    split
    · obtain ⟨q, hq, hstop, hms⟩ := stopAllMotorsSyncTimed_spec h
      have hlast := hrun (q.1, q.2 + 100)
      refine ⟨motorsSetSpeedSoftTimed B y g.gMotorSpeedLevel g.gMotorDirection 0
        (q.1, q.2 + 100), by rw [hq]; rfl, ?_, by dsimp only at hlast; omega⟩
      rw [motorsSetSpeedSoftTimed_drive]
      exact motorsSetSpeedSoft_paced (paced_of_stopped hstop) _ _ _
    · have hlast := hrun p
      refine ⟨_, rfl, ?_, by omega⟩
      rw [motorsSetSpeedSoftTimed_drive]
      exact motorsSetSpeedSoft_paced h _ _ _

end BleCar.Motion.Routines
