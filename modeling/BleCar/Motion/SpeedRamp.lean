import Mathlib.Order.Lattice.Nat
import BleCar.Lib.Approach
import BleCar.Motion.RoutineSpecs

/-!
# The compare values `motors_set_speed_soft` writes

The three channels of a speed change share one sequence of increments. `rampValue` is
one channel's value after so many steps; below its target a channel always approaches
it, above the target only while no increment exceeds the value it is taken from.
-/

namespace BleCar.Motion.SpeedRamp

open BleCar.Lib.Approach
open BleCar.Motion.Hardware
open BleCar.Motion.Routines

/-! ## One channel -/

/-- The increment of step `k`: the remainder goes to the first steps. -/
def rampIncrement (baseStep remainder k : Nat) : Nat :=
  if k < remainder then baseStep + 1 else baseStep

/-- The value of a channel that starts at `p`, after `k` steps. -/
def rampValue (target baseStep remainder p : Nat) : Nat → Nat
  | 0 => p
  | k + 1 => rampPwm target (rampIncrement baseStep remainder k)
      (rampValue target baseStep remainder p k)

/-- The sum of the first `k` increments. -/
def progress (baseStep remainder k : Nat) : Nat := k * baseStep + min k remainder

theorem progress_succ (b r k : Nat) :
    progress b r (k + 1) = progress b r k + rampIncrement b r k := by
  simp only [progress, rampIncrement, Nat.succ_mul]
  split <;> omega

theorem progress_mono {b r i j : Nat} (h : i ≤ j) : progress b r i ≤ progress b r j := by
  have hmul : i * b ≤ j * b := Nat.mul_le_mul_right b h
  simp only [progress]
  omega

/-- All increments together are the largest difference. -/
theorem progress_steps {steps : Nat} (h : 0 < steps) (delta : Nat) :
    progress (delta / steps) (delta % steps) steps = delta := by
  rw [progress, Nat.min_eq_right (Nat.mod_lt delta h).le, Nat.div_add_mod]

section

variable {target increment current : Nat}

theorem rampPwm_target : rampPwm target increment target = target := by
  simp [rampPwm]

theorem rampPwm_below (h : current ≤ target) (hfit : current + increment < 65536) :
    rampPwm target increment current = min (current + increment) target := by
  simp only [rampPwm, Nat.mod_eq_of_lt hfit]
  split_ifs <;> omega

theorem rampPwm_above (h : target < current) (hlt : current < 65536) (hle : increment ≤ current) :
    rampPwm target increment current = max (current - increment) target := by
  simp only [rampPwm]
  split_ifs <;> omega

/-- An increment above the current value wraps around, and the clamp does not see it. -/
theorem rampPwm_wraps (h : target < current) (hgt : current < increment)
    (hfit : increment < 65536 + current - target) :
    rampPwm target increment current = 65536 + current - increment := by
  simp only [rampPwm]
  split_ifs <;> omega

end

section

variable {target b r p : Nat}

/-- From below: no sum leaves 16 bits, so the clamp is exact. -/
theorem rampValue_rising {n : Nat} (hp : p ≤ target)
    (hfit : target + progress b r n < 65536) :
    ∀ k ≤ n, rampValue target b r p k = min (p + progress b r k) target := by
  intro k hk
  induction k with
  | zero => simp [rampValue, progress, hp]
  | succ k ih =>
    have hsum := progress_succ b r k
    have hmono := progress_mono (b := b) (r := r) hk
    rw [rampValue, ih (by omega), rampPwm_below (Nat.min_le_right _ _) (by omega)]
    omega

/-- No increment of the first `n` steps exceeds the value it is taken from. -/
def NoWrap (target b r p n : Nat) : Prop :=
  ∀ k < n, progress b r k < p - target → progress b r (k + 1) ≤ p

/-- From above, as long as no subtraction wraps. -/
theorem rampValue_falling {n : Nat} (hp : target < p) (hlt : p < 65536)
    (h : NoWrap target b r p n) :
    ∀ k ≤ n, rampValue target b r p k = max (p - progress b r k) target := by
  intro k hk
  induction k with
  | zero => simp [rampValue, progress, hp.le]
  | succ k ih =>
    have hsum := progress_succ b r k
    have hwrap := h k (by omega)
    rw [rampValue, ih (by omega)]
    by_cases hreached : p - progress b r k ≤ target
    · rw [Nat.max_eq_right hreached, rampPwm_target]
      omega
    · rw [Nat.max_eq_left (by omega), rampPwm_above (by omega) (by omega) (by omega)]
      omega

end

/-- What a smooth change of one channel from `start` to `target` is, in terms of the values
written: the ramp and, last of all, the forced write of the target. -/
structure SmoothChange (start target bound : Nat) (vs : List Nat) : Prop where
  ramps : RampsTo start target vs
  bounded : (start :: vs).IsChain fun a b => a ≤ b + bound ∧ b ≤ a + bound
  /-- the target is reached before the last write -/
  reached : vs.dropLast.getLastD start = target

theorem smoothChange_of_values {x : Nat → Nat} {target bound n : Nat}
    (happroach : ∀ k < n, x (k + 1) ∈ Set.uIcc (x k) target)
    (hbound : ∀ k < n, x k ≤ x (k + 1) + bound ∧ x (k + 1) ≤ x k + bound)
    (hlast : x n = target) :
    SmoothChange (x 0) target bound ((List.range n).map (fun k => x (k + 1)) ++ [target]) := by
  have hlist : x 0 :: (List.range n).map (fun k => x (k + 1)) = (List.range (n + 1)).map x := by
    rw [List.range_succ_eq_map, List.map_cons, List.map_map]
    rfl
  refine ⟨?_, ?_, ?_⟩
  · apply Approaches.rampsTo
    rw [← List.cons_append, hlist]
    exact (approaches_range happroach).concat
  · rw [← List.cons_append, hlist]
    refine List.IsChain.append ?_ (List.isChain_singleton target) fun a ha b hb => ?_
    · rw [List.isChain_map]
      exact (List.isChain_range_succ _ n).mpr hbound
    · obtain rfl : target = b := by simpa using hb
      obtain rfl : x n = a := by simpa [List.range_succ] using ha
      omega
  · rw [List.dropLast_concat]
    obtain _ | n := n
    · exact hlast
    · rw [List.range_succ, List.map_append, List.map_singleton, List.getLastD_concat]
      exact hlast

/-- The values written to a channel that starts at `p`. -/
def rampWrites (target delta steps p : Nat) : List Nat :=
  (List.range steps).map (fun k => rampValue target (delta / steps) (delta % steps) p (k + 1)) ++
    [target]

section

variable {target delta steps p : Nat}

theorem rampIncrement_le (delta : Nat) {k : Nat} (hk : k < steps) :
    rampIncrement (delta / steps) (delta % steps) k ≤ (delta + steps - 1) / steps := by
  have hsplit := Nat.div_add_mod delta steps
  rw [rampIncrement, Nat.le_div_iff_mul_le (by omega), Nat.mul_comm]
  split
  · rw [Nat.mul_succ]
    omega
  · omega

theorem rampIncrement_le_delta (delta : Nat) {k : Nat} (hk : k < steps) :
    rampIncrement (delta / steps) (delta % steps) k ≤ delta := by
  have hsum := progress_succ (delta / steps) (delta % steps) k
  have hmono := progress_mono (b := delta / steps) (r := delta % steps) (i := k + 1) hk
  rw [progress_steps (by omega)] at hmono
  omega

theorem rampWrites_smooth_rising (hp : p ≤ target) (hdelta : target - p ≤ delta)
    (hfit : target + delta < 65536) (hsteps : 0 < steps) :
    SmoothChange p target ((delta + steps - 1) / steps) (rampWrites target delta steps p) := by
  have hall := progress_steps hsteps delta
  have hvalue := rampValue_rising (b := delta / steps) (r := delta % steps) hp
    (by rw [hall]; exact hfit)
  refine smoothChange_of_values (x := rampValue target (delta / steps) (delta % steps) p)
    (fun k hk => ?_) (fun k hk => ?_) ?_
  · have hsum := progress_succ (delta / steps) (delta % steps) k
    rw [hvalue k (by omega), hvalue (k + 1) hk, Set.uIcc_of_le (Nat.min_le_right _ _)]
    exact ⟨by omega, by omega⟩
  · have hsum := progress_succ (delta / steps) (delta % steps) k
    have hle := rampIncrement_le delta hk
    rw [hvalue k (by omega), hvalue (k + 1) hk]
    omega
  · rw [hvalue steps (le_refl _), hall]
    omega

theorem rampWrites_smooth_falling (hp : target < p) (hlt : p < 65536)
    (hdelta : p - target ≤ delta) (hsteps : 0 < steps)
    (hwrap : NoWrap target (delta / steps) (delta % steps) p steps) :
    SmoothChange p target ((delta + steps - 1) / steps) (rampWrites target delta steps p) := by
  have hall := progress_steps hsteps delta
  have hvalue := rampValue_falling hp hlt hwrap
  refine smoothChange_of_values (x := rampValue target (delta / steps) (delta % steps) p)
    (fun k hk => ?_) (fun k hk => ?_) ?_
  · have hsum := progress_succ (delta / steps) (delta % steps) k
    rw [hvalue k (by omega), hvalue (k + 1) hk, Set.uIcc_of_ge (Nat.le_max_right _ _)]
    exact ⟨by omega, by omega⟩
  · have hsum := progress_succ (delta / steps) (delta % steps) k
    have hle := rampIncrement_le delta hk
    rw [hvalue k (by omega), hvalue (k + 1) hk]
    omega
  · rw [hvalue steps (le_refl _), hall]
    omega

/-- The first wrapped subtraction leaves a value above the start. -/
theorem rampWrites_wraps (hp : p < 65536) (hdelta : delta + p < 65536)
    (hwrap : ¬ NoWrap target (delta / steps) (delta % steps) p steps) :
    ∃ v ∈ rampWrites target delta steps p, p < v := by
  have hfail : ∃ k, k < steps ∧ progress (delta / steps) (delta % steps) k < p - target ∧
      p < progress (delta / steps) (delta % steps) (k + 1) := by
    simpa [NoWrap] using hwrap
  obtain ⟨hk, hbefore, hafter⟩ := Nat.find_spec hfail
  generalize hfirst : Nat.find hfail = k at hk hbefore hafter
  have hearlier : NoWrap target (delta / steps) (delta % steps) p k := by
    intro j hj hlow
    by_contra hgt
    exact Nat.find_min hfail (hfirst ▸ hj) ⟨by omega, hlow, by omega⟩
  have hvalue := rampValue_falling (by omega) hp hearlier k (le_refl k)
  have hsum := progress_succ (delta / steps) (delta % steps) k
  have hle := rampIncrement_le_delta delta hk
  refine ⟨rampValue target (delta / steps) (delta % steps) p (k + 1), ?_, ?_⟩
  · exact List.mem_append_left _ (List.mem_map.mpr ⟨k, List.mem_range.mpr hk, rfl⟩)
  · rw [rampValue, hvalue, Nat.max_eq_left (by omega),
      rampPwm_wraps (by omega) (by omega) (by omega)]
    omega

/-- One channel changes smoothly exactly when no subtraction of its ramp wraps. -/
theorem rampWrites_smooth_iff (hp : p < 65536) (hnear : ((target : Int) - p).natAbs ≤ delta)
    (hfit : delta + p < 65536) (hfit' : target + delta < 65536) (hsteps : 0 < steps) :
    SmoothChange p target ((delta + steps - 1) / steps) (rampWrites target delta steps p) ↔
      NoWrap target (delta / steps) (delta % steps) p steps := by
  constructor
  · intro h
    by_contra hwrap
    obtain ⟨v, hv, hgt⟩ := rampWrites_wraps hp hfit hwrap
    have hlt : target < p := by
      by_contra hle
      exact hwrap fun k _ hlow => absurd hlow (by omega)
    have hinside := h.ramps.inside v hv
    rw [Set.uIcc_of_ge hlt.le] at hinside
    exact absurd hinside.2 (by omega)
  · intro hwrap
    rcases Nat.lt_or_ge target p with hlt | hge
    · exact rampWrites_smooth_falling hlt hp (by omega) hsteps hwrap
    · exact rampWrites_smooth_rising hge (by omega) hfit' hsteps

end

theorem rampPwm_lt {target increment current : Nat} (ht : target < 65536)
    (hc : current < 65536) : rampPwm target increment current < 65536 := by
  simp only [rampPwm]
  split_ifs <;> omega

theorem rampValue_lt {target b r p : Nat} (ht : target < 65536) (hp : p < 65536) (k : Nat) :
    rampValue target b r p k < 65536 := by
  induction k with
  | zero => exact hp
  | succ k ih => exact rampPwm_lt ht ih

/-! ## The three channels -/

variable (B : Board) (y : Stray)

theorem setAll_written (v : Motor → Nat) (d : Drive) (m : Motor) :
    (setAll B v d).written (B.chan m) = d.written (B.chan m) ++ [v m % 65536] := by
  have h12 : B.chan .m1 ≠ B.chan .m2 := B.chan_injective.ne (by decide)
  have h13 : B.chan .m1 ≠ B.chan .m3 := B.chan_injective.ne (by decide)
  have h23 : B.chan .m2 ≠ B.chan .m3 := B.chan_injective.ne (by decide)
  cases m <;> simp [setAll, motors, setCompare_written, setCompare_written_other, h12, h13, h23,
    h12.symm, h13.symm, h23.symm]

/-- `max_delta`: the largest distance of a channel from the target. -/
def speedDelta (target : Nat) (d : Drive) : Nat :=
  motors.foldl (fun mx m => max mx ((target : Int) - d.getCompare (B.chan m)).natAbs) 0

theorem le_speedDelta (target : Nat) (d : Drive) (m : Motor) :
    ((target : Int) - d.getCompare (B.chan m)).natAbs ≤ speedDelta B target d := by
  simp only [speedDelta, motors, List.foldl_cons, List.foldl_nil]
  cases m <;> omega

/-- The first loop reads the three channels and writes to none. -/
theorem scan_values (direction : UInt8) (target : Nat) (d : Drive) :
    let s := motors.foldl (scanMotor B direction target) ⟨d, fun _ => 0, 0⟩
    (∀ m, s.currentPwms m = d.getCompare (B.chan m)) ∧ s.maxDelta = speedDelta B target d ∧
      ∀ c, s.drive.written c = d.written c := by
  simp only [motors, List.foldl_cons, List.foldl_nil, scanMotor, motorGpioSetDirection_number,
    speedDelta, Drive.getCompare, writePin_ccr, writePin_written]
  refine ⟨fun m => ?_, ?_, fun _ => trivial⟩
  · cases m <;> simp
  · simp only [gt_iff_lt, ← max_def_lt]

/-- What `k` steps of the ramp loop leave and have written. -/
theorem ramp_iterate {target : Nat} (ht : target < 65536) (b : Nat) (s : Ramp)
    (hs : ∀ m, s.currentPwms m < 65536) (k : Nat) :
    let t := (rampStep B target b)^[k] s
    t.remainder = s.remainder - k ∧
      (∀ m, t.currentPwms m = rampValue target b s.remainder (s.currentPwms m) k) ∧
      ∀ m, t.drive.written (B.chan m) = s.drive.written (B.chan m) ++
        (List.range k).map fun i => rampValue target b s.remainder (s.currentPwms m) (i + 1) := by
  induction k with
  | zero => exact ⟨rfl, fun _ => rfl, fun _ => by simp⟩
  | succ k ih =>
    obtain ⟨hrem, hval, hwritten⟩ := ih
    rw [Function.iterate_succ_apply']
    generalize (rampStep B target b)^[k] s = t at hrem hval hwritten
    have hinc : (if t.remainder > 0 then b + 1 else b) = rampIncrement b s.remainder k := by
      rw [hrem, rampIncrement]
      exact if_congr (by omega) rfl rfl
    have hnext : ∀ m, rampPwm target (if t.remainder > 0 then b + 1 else b) (t.currentPwms m) =
        rampValue target b s.remainder (s.currentPwms m) (k + 1) := by
      intro m
      rw [hinc, hval m, rampValue]
    refine ⟨?_, hnext, fun m => ?_⟩
    · simp only [rampStep, hrem]
      omega
    · simp only [rampStep, setAll_written, hwritten m, hnext m]
      rw [Nat.mod_eq_of_lt (rampValue_lt ht (hs m) _), List.range_succ, List.map_append,
        List.append_assoc]
      rfl

/-- The values a speed change writes to the channel of motor `m`. -/
def speedWrites (target : Nat) (accelTimeMs : UInt16) (d : Drive) (m : Motor) : List Nat :=
  if speedDelta B target d = 0 then []
  else rampWrites target (speedDelta B target d) (accelSteps accelTimeMs)
    (d.getCompare (B.chan m))

theorem motorsSetSpeedSoft_written {level : UInt8} (h : ¬ (level < 1 ∨ level > 5))
    (direction : UInt8) (time : UInt16) (d : Drive) (m : Motor) :
    (motorsSetSpeedSoft B y level direction time d).written (B.chan m) =
      d.written (B.chan m) ++ speedWrites B (dutyOf level) time d m := by
  obtain ⟨hcur, hdelta, hwritten⟩ := scan_values B direction (dutyOf level) d
  have htarget : dutyOf level < 65536 := (dutyOf_range h).2.trans_lt (by decide)
  simp only [motorsSetSpeedSoft, if_neg h, tableRead_duty y h, speedWrites, ← hdelta]
  split
  case isTrue => rw [hwritten, List.append_nil]
  case isFalse =>
    generalize motors.foldl (scanMotor B direction (dutyOf level)) ⟨d, fun _ => 0, 0⟩ = s at *
    have hlt : ∀ m, s.currentPwms m < 65536 := fun m => hcur m ▸ d.getCompare_lt _
    obtain ⟨-, -, hramp⟩ := ramp_iterate B htarget (s.maxDelta / accelSteps time)
      ⟨s.drive, s.currentPwms, s.maxDelta % accelSteps time⟩ hlt (accelSteps time)
    rw [setAll_written, hramp m, hwritten, ← hcur m, Nat.mod_eq_of_lt htarget, List.append_assoc]
    rfl

end BleCar.Motion.SpeedRamp
