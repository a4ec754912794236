import Mathlib.Tactic.NormNum
import BleCar.Motion.Routines

/-!
# What each motion routine does to the registers

One specification per routine of `motor.c`, for any board: the compare values and
pins it leaves, whether it ends, and which writes it makes on the way. Callers use
these and never open the loops again.
-/

namespace BleCar.Motion.Routines

open BleCar.Lib.WhileLoop
open BleCar.Motion.Hardware

variable (B : Board) (y : Stray)

theorem Wrote.foldl {α : Type*} {P : Actuators → Write → Prop} {f : Drive → α → Drive}
    (h : ∀ d a, Wrote P d (f d a)) (l : List α) (d : Drive) : Wrote P d (l.foldl f d) := by
  induction l generalizing d with
  | nil => exact .refl d
  | cons a l ih => exact (h d a).trans (ih (f d a))

theorem setCompare_wrote (d : Drive) (c : Channel) (v : Nat) :
    Wrote IsCompare d (d.setCompare c v) := .single _ trivial

/-! ## Writing all three channels -/

theorem setAll_ccr (v : Motor → Nat) (d : Drive) (m : Motor) :
    (setAll B v d).act.ccr (B.chan m) = UInt16.ofNat (v m) := by
  have h12 : B.chan .m1 ≠ B.chan .m2 := B.chan_injective.ne (by decide)
  have h13 : B.chan .m1 ≠ B.chan .m3 := B.chan_injective.ne (by decide)
  have h23 : B.chan .m2 ≠ B.chan .m3 := B.chan_injective.ne (by decide)
  cases m <;> simp [setAll, motors, h12, h13, h23]

theorem setAll_wrote (v : Motor → Nat) (d : Drive) : Wrote IsCompare d (setAll B v d) :=
  Wrote.foldl (fun d _ => setCompare_wrote d _ _) _ d

/-! ## `motors_set_speed_soft` -/

/-- The pins as `motor_gpio_set_direction` leaves them on the three motors. -/
def dirPins (direction : UInt8) : Motor → Level := fun m => B.dirLevel m direction

/-- A direction write made while the compare registers hold `ccr`. -/
def IsDirection (ccr : Channel → UInt16) (direction : UInt8) (a : Actuators) (w : Write) : Prop :=
  a.ccr = ccr ∧ ∃ m, w = .pin m (B.dirLevel m direction)

theorem motorGpioSetDirection_number (m : Motor) (direction : UInt8) (d : Drive) :
    motorGpioSetDirection B (motorNumber m) direction d =
      d.writePin m (B.dirLevel m direction) := by
  cases m <;> rfl

/-- The target `duty_table[level-1]`. -/
def dutyOf (level : UInt8) : Nat := dutyTable.getD (level.toNat - 1) 0

theorem level_range {level : UInt8} (h : ¬ (level < 1 ∨ level > 5)) :
    1 ≤ level.toNat ∧ level.toNat ≤ 5 := by
  rw [not_or] at h
  have h1 := h.1
  have h2 := h.2
  rw [UInt8.lt_iff_toNat_lt] at h1
  rw [gt_iff_lt, UInt8.lt_iff_toNat_lt] at h2
  simp only [UInt8.reduceToNat] at h1 h2
  omega

theorem tableRead_duty {level : UInt8} (h : ¬ (level < 1 ∨ level > 5)) :
    tableRead y.duty dutyTable ((level.toNat : Int) - 1) = dutyOf level := by
  obtain ⟨h1, h5⟩ := level_range h
  have hin : 0 ≤ (level.toNat : Int) - 1 ∧ (level.toNat : Int) - 1 < dutyTable.length := by
    simp only [dutyTable, List.length_cons, List.length_nil]
    omega
  have hindex : ((level.toNat : Int) - 1).toNat = level.toNat - 1 := by omega
  rw [tableRead, if_pos hin, dutyOf, hindex]

theorem dutyOf_range {level : UInt8} (h : ¬ (level < 1 ∨ level > 5)) :
    100 ≤ dutyOf level ∧ dutyOf level ≤ 1000 := by
  obtain ⟨h1, h5⟩ := level_range h
  unfold dutyOf
  have hcases : level.toNat = 1 ∨ level.toNat = 2 ∨ level.toNat = 3 ∨ level.toNat = 4 ∨
      level.toNat = 5 := by omega
  rcases hcases with h | h | h | h | h <;> rw [h] <;> decide

theorem scan_spec (direction : UInt8) (target : Nat) (d : Drive) :
    let s := motors.foldl (scanMotor B direction target) ⟨d, fun _ => 0, 0⟩
    s.drive.act.ccr = d.act.ccr ∧ s.drive.act.pin = dirPins B direction ∧
      Wrote (IsDirection B d.act.ccr direction) d s.drive ∧
      (s.maxDelta = 0 → ∀ m, d.getCompare (B.chan m) = target) := by
  simp only [motors, List.foldl_cons, List.foldl_nil, scanMotor, motorGpioSetDirection_number]
  refine ⟨rfl, ?_, ?_, ?_⟩
  · funext m
    cases m <;> simp [dirPins]
  · refine .step (.step (.single _ ?_) ?_) ?_
    · exact ⟨rfl, .m1, rfl⟩
    · exact ⟨rfl, .m2, rfl⟩
    · exact ⟨rfl, .m3, rfl⟩
  · simp only [Drive.getCompare, writePin_ccr, gt_iff_lt, ← max_def_lt]
    intro h m
    cases m <;> omega

theorem rampStep_wrote (target base : Nat) (s : Ramp) :
    Wrote IsCompare s.drive (rampStep B target base s).drive := by
  simp only [rampStep]
  exact setAll_wrote B _ _

theorem ramp_wrote (target base n : Nat) (s : Ramp) :
    Wrote IsCompare s.drive ((rampStep B target base)^[n] s).drive := by
  induction n generalizing s with
  | zero => exact .refl _
  | succ n ih => exact (rampStep_wrote B target base s).trans (ih _)

/-- A speed level outside 1..5 leaves everything as it is. -/
theorem motorsSetSpeedSoft_idle {level : UInt8} (h : level < 1 ∨ level > 5) (direction : UInt8)
    (time : UInt16) (d : Drive) : motorsSetSpeedSoft B y level direction time d = d :=
  if_pos h

/-- First the pins are set, with the compare values found on entry; then only compare
values move, and all three end on the level's duty. -/
theorem motorsSetSpeedSoft_spec {level : UInt8} (h : ¬ (level < 1 ∨ level > 5))
    (direction : UInt8) (time : UInt16) (d : Drive) :
    ∃ m, Wrote (IsDirection B d.act.ccr direction) d m ∧ m.act.ccr = d.act.ccr ∧
      m.act.pin = dirPins B direction ∧
      Wrote IsCompare m (motorsSetSpeedSoft B y level direction time d) ∧
      ∀ k, (motorsSetSpeedSoft B y level direction time d).act.ccr (B.chan k) =
        UInt16.ofNat (dutyOf level) := by
  obtain ⟨hccr, hpin, hwrote, hzero⟩ := scan_spec B direction (dutyOf level) d
  refine ⟨_, hwrote, hccr, hpin, ?_⟩
  simp only [motorsSetSpeedSoft, if_neg h, tableRead_duty y h]
  split
  case isTrue hd =>
    refine ⟨.refl _, fun k => ?_⟩
    rw [hccr, ← hzero hd k, Drive.getCompare, UInt16.ofNat_toNat]
  case isFalse =>
    exact ⟨(ramp_wrote B _ _ _ ⟨_, _, _⟩).trans (setAll_wrote B _ _), setAll_ccr B _ _⟩

/-- The registers after `motors_set_speed_soft` at a speed level of 1..5. -/
theorem motorsSetSpeedSoft_final {level : UInt8} (h : ¬ (level < 1 ∨ level > 5))
    (direction : UInt8) (time : UInt16) (d : Drive) :
    (motorsSetSpeedSoft B y level direction time d).act.pin = dirPins B direction ∧
      ∀ k, (motorsSetSpeedSoft B y level direction time d).act.ccr (B.chan k) =
        UInt16.ofNat (dutyOf level) := by
  obtain ⟨m, -, -, hpin, hwrote, hccr⟩ := motorsSetSpeedSoft_spec B y h direction time d
  exact ⟨hwrote.pin_eq.1.trans hpin, hccr⟩

/-! ## `stop_all_motors_sync` -/

theorem le_maxPwm (d : Drive) (m : Motor) : d.getCompare (B.chan m) ≤ maxPwm B d := by
  simp only [maxPwm, motors, List.foldl_cons, List.foldl_nil]
  simp only [gt_iff_lt, ← max_def_lt]
  cases m <;> omega

theorem maxPwm_lt (d : Drive) : maxPwm B d < 65536 := by
  have h1 := d.getCompare_lt (B.chan .m1)
  have h2 := d.getCompare_lt (B.chan .m2)
  have h3 := d.getCompare_lt (B.chan .m3)
  simp only [maxPwm, motors, List.foldl_cons, List.foldl_nil, gt_iff_lt, ← max_def_lt]
  omega

/-- What the loop of `stop_all_motors_sync` keeps: the array mirrors the registers, and
no value exceeds `max_pwm`. -/
structure DecelInv (d : Drive) (s : Decel) : Prop where
  wrote : Wrote IsCompare d s.drive
  mirror : ∀ m, s.pwmValues m = s.drive.getCompare (B.chan m)
  le_max : ∀ m, s.pwmValues m ≤ s.maxPwm
  max_lt : s.maxPwm < 65536

theorem scaled_le {p old new step : Nat} (hp : p ≤ old) (hold : old < 65536)
    (hnew : new = if old > step then old - step else 0) :
    p * new % 4294967296 / ((new + step) % 4294967296) ≤ new := by
  by_cases hgt : old > step
  · rw [if_pos hgt] at hnew
    have hsum : new + step = old := by omega
    rw [hsum, Nat.mod_eq_of_lt (show old < 4294967296 by omega)]
    have hle : p * new % 4294967296 ≤ old * new :=
      (Nat.mod_le _ _).trans (Nat.mul_le_mul_right new hp)
    exact (Nat.div_le_div_right hle).trans
      (Nat.mul_div_cancel_left new (by omega : 0 < old)).le
  · rw [if_neg hgt] at hnew
    simp [hnew]

/-- The state in the middle of the inner loop: some channels are already at their new
value, at most the new maximum; the others are still below the old one. -/
structure DecelMid (d : Drive) (old : Nat) (done : Motor → Prop) (s : Decel) : Prop where
  wrote : Wrote IsCompare d s.drive
  mirror : ∀ m, s.pwmValues m = s.drive.getCompare (B.chan m)
  le_new : ∀ m, done m → s.pwmValues m ≤ s.maxPwm
  le_old : ∀ m, s.pwmValues m ≤ old

theorem decelMotor_maxPwm (k : Nat) (s : Decel) (m : Motor) :
    (decelMotor B k s m).maxPwm = s.maxPwm := by
  unfold decelMotor
  split <;> rfl

theorem decelStep_maxPwm (k : Nat) (s : Decel) : (decelStep B k s).maxPwm = s.maxPwm - k := by
  simp only [decelStep, motors, List.foldl_cons, List.foldl_nil, decelMotor_maxPwm]
  split <;> omega

theorem decelMotor_mid {d : Drive} {old k : Nat} {done : Motor → Prop} {s : Decel}
    (hold : old < 65536) (hmax : s.maxPwm = if old > k then old - k else 0)
    (h : DecelMid B d old done s) (m : Motor) :
    DecelMid B d old (fun j => done j ∨ j = m) (decelMotor B k s m) := by
  unfold decelMotor
  split
  case isFalse hz =>
    refine ⟨h.wrote, h.mirror, fun j hj => ?_, h.le_old⟩
    rcases hj with hj | rfl
    · exact h.le_new j hj
    · omega
  case isTrue hpos =>
    have hnew := scaled_le (h.le_old m) hold hmax
    have hle : s.maxPwm ≤ old := by rw [hmax]; split <;> omega
    dsimp only
    generalize s.pwmValues m * s.maxPwm % 4294967296 / ((s.maxPwm + k) % 4294967296) = new at hnew
    refine ⟨h.wrote.trans (setCompare_wrote _ _ _), fun j => ?_, fun j hj => ?_, fun j => ?_⟩
    · by_cases hj : j = m
      · subst hj
        simp [Drive.getCompare, UInt16.toNat_ofNat_of_lt' (show new < 65536 by omega)]
      · have hc : B.chan j ≠ B.chan m := B.chan_injective.ne hj
        simpa [Drive.getCompare, hj, hc] using h.mirror j
    · by_cases hjm : j = m
      · subst hjm; simpa using hnew
      · simpa [hjm] using h.le_new j (hj.resolve_right hjm)
    · by_cases hjm : j = m
      · subst hjm; simpa using hnew.trans hle
      · simpa [hjm] using h.le_old j

theorem decelStep_inv {d : Drive} {k : Nat} {s : Decel} (h : DecelInv B d s) :
    DecelInv B d (decelStep B k s) := by
  have h0 : DecelMid B d s.maxPwm (fun _ => False)
      { s with maxPwm := if s.maxPwm > k then s.maxPwm - k else 0 } :=
    ⟨h.wrote, h.mirror, fun _ hf => hf.elim, h.le_max⟩
  have h1 := decelMotor_mid B h.max_lt rfl h0 .m1
  have h2 := decelMotor_mid B h.max_lt (decelMotor_maxPwm B k _ _) h1 .m2
  have h3 := decelMotor_mid B h.max_lt
    ((decelMotor_maxPwm B k _ _).trans (decelMotor_maxPwm B k _ _)) h2 .m3
  refine ⟨h3.wrote, h3.mirror, fun m => h3.le_new m (by cases m <;> simp), ?_⟩
  rw [decelStep_maxPwm]
  exact (Nat.sub_le _ _).trans_lt h.max_lt

/-- Whether the loop ends is a matter of `max_pwm` alone. -/
theorem decelLoop_ends_iff (k n : Nat) (s : Decel) :
    (∃ t, decelLoop B k n s = some t) ↔ s.maxPwm ≤ n * k :=
  whileLoop_countdown (I := fun _ => True) (v := Decel.maxPwm) (fun _ => rfl)
    (fun s _ _ => ⟨trivial, decelStep_maxPwm B k s⟩) trivial n

/-- Allowing more than `max_pwm` iterations finds no further result: where
`stopAllMotorsSync` gives `none`, the loop of the source runs for ever. -/
theorem decelLoop_bound {k n : Nat} {s t : Decel} (ht : decelLoop B k n s = some t) :
    decelLoop B k s.maxPwm s = some t :=
  whileLoop_countdown_bound (I := fun _ => True) (v := Decel.maxPwm) (fun _ => rfl)
    (fun s _ _ => ⟨trivial, decelStep_maxPwm B k s⟩) trivial ht

/-- With a step of at least 1 the loop ends, within `max_pwm` iterations, with the three
channels at 0 and no pin touched. -/
theorem decelLoop_spec {d : Drive} {k : Nat} {s : Decel} (hk : 0 < k) (h : DecelInv B d s) :
    ∃ t, decelLoop B k s.maxPwm s = some t ∧ Wrote IsCompare d t.drive ∧
      ∀ m, t.drive.act.ccr (B.chan m) = 0 := by
  obtain ⟨t, ht⟩ := (decelLoop_ends_iff B k s.maxPwm s).mpr (Nat.le_mul_of_pos_right _ hk)
  obtain ⟨hinv, hexit⟩ := whileLoop_invariant (fun s hs _ => decelStep_inv B hs) h ht
  refine ⟨t, ht, hinv.wrote, fun m => ?_⟩
  have hzero : t.drive.getCompare (B.chan m) = 0 := by
    have hle := hinv.le_max m
    have hmax : ¬ t.maxPwm > 0 := of_decide_eq_false hexit
    rw [← hinv.mirror m]
    omega
  exact UInt16.toNat_inj.mp hzero

theorem decelInv_entry (d : Drive) :
    DecelInv B d (decelEntry B d) :=
  ⟨.refl d, fun _ => rfl, le_maxPwm B d, maxPwm_lt B d⟩

/-- The motors stand still. -/
def Stopped (a : Actuators) : Prop := ∀ m, a.ccr (B.chan m) = 0

theorem maxPwm_eq_zero {d : Drive} (h : Stopped B d.act) : maxPwm B d = 0 := by
  have hz : ∀ m, d.getCompare (B.chan m) = 0 := fun m => by rw [Drive.getCompare, h m]; rfl
  simp [maxPwm, motors, hz]

theorem stopped_of_maxPwm {d : Drive} (h : maxPwm B d = 0) : Stopped B d.act := by
  intro m
  have hle := le_maxPwm B d m
  exact UInt16.toNat_inj.mp (by rw [h] at hle; exact Nat.le_zero.mp hle)

theorem decelSteps_pos (time : UInt16) : 0 < decelSteps time := by
  simp only [decelSteps]
  generalize (if time = 0 then 100 else time.toNat) = x
  split <;> omega

/-- `stop_all_motors_sync` ends, with the motors stopped, if they stand still already or
some channel is at least the number of steps. -/
theorem stopAllMotorsSync_spec {d : Drive} {time : UInt16}
    (h : Stopped B d.act ∨ decelSteps time ≤ maxPwm B d) :
    ∃ d', stopAllMotorsSync B time d = some d' ∧ Wrote IsCompare d d' ∧ Stopped B d'.act := by
  unfold stopAllMotorsSync
  split
  case isTrue hz => exact ⟨d, rfl, .refl d, stopped_of_maxPwm B hz⟩
  case isFalse hz =>
    have hle : decelSteps time ≤ maxPwm B d := h.resolve_left fun hs => hz (maxPwm_eq_zero B hs)
    obtain ⟨t, ht, hw, hstop⟩ :=
      decelLoop_spec B (Nat.div_pos hle (decelSteps_pos time)) (decelInv_entry B d)
    exact ⟨t.drive, congrArg (Option.map Decel.drive) ht, hw, hstop⟩

/-- From a standstill `stop_all_motors_sync` does nothing. -/
theorem stopAllMotorsSync_stopped {d : Drive} (h : Stopped B d.act) (time : UInt16) :
    stopAllMotorsSync B time d = some d :=
  if_pos (maxPwm_eq_zero B h)

/-! ## `car_turn_soft` -/

/-- The compare values of a finished turn. -/
def TurnPattern (r : Roles) (inner : Nat) (a : Actuators) : Prop :=
  a.ccr r.front = UInt16.ofNat speedOuter ∧ a.ccr r.outerRear = UInt16.ofNat speedOuter ∧
    a.ccr r.innerRear = UInt16.ofNat inner

theorem turnStep_wrote (r : Roles) (cur : List Nat) (inner steps : Nat) (d : Drive) (i : Nat) :
    Wrote IsCompare d (turnStep y r cur inner steps d i) :=
  ((setCompare_wrote d _ _).trans (setCompare_wrote _ _ _)).trans (setCompare_wrote _ _ _)

/-- A turn touches no pin and ends on the pattern of its level. -/
theorem carTurnSoft_spec {level : UInt8} (h : ¬ level > 3) (turnDir : UInt8) (time : UInt16)
    (d : Drive) :
    Wrote IsCompare d (carTurnSoft B y turnDir level time d) ∧
      TurnPattern (turnRoles B turnDir d.act) (turnInner y level)
        (carTurnSoft B y turnDir level time d).act := by
  have hfo := B.front_ne_outer turnDir (pinDirection (d.act.pin .m3))
  have hfi := B.front_ne_inner turnDir (pinDirection (d.act.pin .m3))
  have hoi := B.outer_ne_inner turnDir (pinDirection (d.act.pin .m3))
  rw [carTurnSoft, if_neg h]
  constructor
  · exact (((Wrote.foldl (turnStep_wrote y _ _ _ _) _ d).trans (setCompare_wrote _ _ _)).trans
      (setCompare_wrote _ _ _)).trans (setCompare_wrote _ _ _)
  · refine ⟨?_, ?_, ?_⟩ <;> simp [turnRoles, hfo, hfi, hoi]

end BleCar.Motion.Routines
