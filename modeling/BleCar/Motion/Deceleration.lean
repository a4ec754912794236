import BleCar.Motion.RoutineSpecs

/-!
# The two deceleration loops of `motor.c`

`motor_soft_stop` and `stop_all_motors_sync` lower a counter by the truncated quotient
`counter / steps` until it is 0. How often they go round, and whether they end, follows
from that quotient alone; the synchronised loop moreover rescales the three channels
with the counter.
-/

namespace BleCar.Motion.Deceleration

open BleCar.Lib.WhileLoop
open BleCar.Motion.Hardware
open BleCar.Motion.Routines

/-! ## `motor_soft_stop` -/

structure SoftStop where
  drive : Drive
  currentPwm : Nat

/-- The body of the loop. -/
def softStopStep (timChannel : Channel) (stepSize : Nat) (s : SoftStop) : SoftStop :=
  let currentPwm := if s.currentPwm > stepSize then s.currentPwm - stepSize else 0
  { drive := s.drive.setCompare timChannel currentPwm
    currentPwm := currentPwm }

/-- The loop, cut off after `n` iterations. -/
def softStopLoop (timChannel : Channel) (stepSize n : Nat) (s : SoftStop) : Option SoftStop :=
  whileLoop (fun s => decide (s.currentPwm > 0)) (softStopStep timChannel stepSize) n s

/-- The channel of `motor_channel`; numbers outside 1..4 return early. -/
def softStopChannel : Nat → Option Channel
  | 1 => some .ch1
  | 2 => some .ch2
  | 3 => some .ch3
  | 4 => some .ch4
  | _ => none

/-- `none` when the loop never ends. It ends within `current_pwm` iterations or not at all. -/
def motorSoftStop (motorChannel : Nat) (decelTimeMs : UInt16) (d : Drive) : Option Drive :=
  match softStopChannel motorChannel with
  | none => some d
  | some timChannel =>
    let currentPwm := d.getCompare timChannel
    if currentPwm = 0 then some d
    else
      let stepSize := currentPwm / decelSteps decelTimeMs
      (softStopLoop timChannel stepSize currentPwm ⟨d, currentPwm⟩).map (·.drive)

/-- The register shows the counter. -/
def SoftStop.Mirrors (c : Channel) (s : SoftStop) : Prop := s.drive.getCompare c = s.currentPwm

theorem softStopStep_currentPwm (c : Channel) (k : Nat) (s : SoftStop) :
    (softStopStep c k s).currentPwm = s.currentPwm - k := by
  simp only [softStopStep]
  split <;> omega

theorem softStopStep_mirrors {c : Channel} {s : SoftStop} (h : s.Mirrors c) (k : Nat) :
    (softStopStep c k s).Mirrors c := by
  have hlt : s.currentPwm < 65536 := h ▸ s.drive.getCompare_lt c
  have hle : (softStopStep c k s).currentPwm ≤ s.currentPwm :=
    softStopStep_currentPwm c k s ▸ Nat.sub_le _ _
  have hwrite : (softStopStep c k s).drive.getCompare c =
      (UInt16.ofNat (softStopStep c k s).currentPwm).toNat := by
    simp [softStopStep, Drive.getCompare]
  rw [SoftStop.Mirrors, hwrite, UInt16.toNat_ofNat_of_lt' (show _ < 65536 by omega)]

theorem softStopLoop_ends_iff {c : Channel} {s : SoftStop} (h : s.Mirrors c) (k n : Nat) :
    (∃ t, softStopLoop c k n s = some t) ↔ s.currentPwm ≤ n * k :=
  whileLoop_countdown (I := SoftStop.Mirrors c) (v := SoftStop.currentPwm) (fun _ => rfl)
    (fun s hs _ => ⟨softStopStep_mirrors hs k, softStopStep_currentPwm c k s⟩) h n

theorem softStopLoop_stops {c : Channel} {k n : Nat} {s t : SoftStop} (h : s.Mirrors c)
    (ht : softStopLoop c k n s = some t) : t.drive.getCompare c = 0 := by
  obtain ⟨hmirror, hexit⟩ :=
    whileLoop_invariant (I := SoftStop.Mirrors c) (fun s hs _ => softStopStep_mirrors hs k) h ht
  have hzero : ¬ t.currentPwm > 0 := of_decide_eq_false hexit
  rw [hmirror]
  omega

/-- Allowing more than `current_pwm` iterations finds no further result. -/
theorem softStopLoop_bound {c : Channel} {k n : Nat} {s t : SoftStop} (h : s.Mirrors c)
    (ht : softStopLoop c k n s = some t) : softStopLoop c k s.currentPwm s = some t :=
  whileLoop_countdown_bound (I := SoftStop.Mirrors c) (v := SoftStop.currentPwm) (fun _ => rfl)
    (fun s hs _ => ⟨softStopStep_mirrors hs k, softStopStep_currentPwm c k s⟩) h ht

/-- A quotient `a / b` is at least 1, and so `a` of them cover `a`, exactly from `b` on. -/
theorem le_mul_div_iff {a b : Nat} (ha : a ≠ 0) (hb : 0 < b) : a ≤ a * (a / b) ↔ b ≤ a := by
  rw [le_mul_iff_one_le_right (Nat.pos_of_ne_zero ha), Nat.one_le_div_iff hb]

/-- `motor_soft_stop` stops its channel exactly when it stands still already or its compare
value is at least the number of steps. -/
theorem motorSoftStop_iff {motorChannel : Nat} {c : Channel}
    (hc : softStopChannel motorChannel = some c) (time : UInt16) (d : Drive) :
    (∃ d', motorSoftStop motorChannel time d = some d' ∧ d'.getCompare c = 0) ↔
      d.getCompare c = 0 ∨ decelSteps time ≤ d.getCompare c := by
  simp only [motorSoftStop, hc]
  by_cases hz : d.getCompare c = 0
  · simp [hz]
  rw [if_neg hz, or_iff_right hz, ← le_mul_div_iff hz (decelSteps_pos time),
    ← softStopLoop_ends_iff (s := ⟨d, d.getCompare c⟩) rfl]
  constructor
  · rintro ⟨d', hd', -⟩
    obtain ⟨t, ht, -⟩ := Option.map_eq_some_iff.mp hd'
    exact ⟨t, ht⟩
  · rintro ⟨t, ht⟩
    have hstops := softStopLoop_stops (s := ⟨d, d.getCompare c⟩) rfl ht
    exact ⟨t.drive, Option.map_eq_some_iff.mpr ⟨t, ht, rfl⟩, hstops⟩

/-! ## `stop_all_motors_sync` -/

variable (B : Board)

/-- The states in which the loop evaluates its test. -/
abbrev DecelVisits (decelTimeMs : UInt16) (d : Drive) : Decel → Prop :=
  Visits (fun s => decide (s.maxPwm > 0)) (decelStep B (decelStepSize B decelTimeMs d))
    (decelEntry B d)

/-- What `stop_all_motors_sync` returns are the registers of the state its loop tests last. -/
theorem stopAllMotorsSync_eq_some {time : UInt16} {d d' : Drive} :
    stopAllMotorsSync B time d = some d' ↔
      ∃ s, DecelVisits B time d s ∧ s.maxPwm = 0 ∧ s.drive = d' := by
  have hexit : ∀ s : Decel, decide (s.maxPwm > 0) = false ↔ s.maxPwm = 0 := by simp
  unfold stopAllMotorsSync
  split
  case isTrue hz =>
    constructor
    · intro h
      exact ⟨decelEntry B d, .entry, hz, Option.some.inj h⟩
    · rintro ⟨s, hs, -, rfl⟩
      -- the test fails on entry, so there is no other state
      have hentry : s = decelEntry B d :=
        Visits.invariant (I := fun t => t = decelEntry B d)
          (fun t ht hc => absurd hc (by simp [ht, decelEntry, hz])) rfl hs
      rw [hentry]
      rfl
  case isFalse =>
    rw [Option.map_eq_some_iff]
    constructor
    · rintro ⟨s, hs, rfl⟩
      obtain ⟨hv, hc⟩ := whileLoop_result_iff.mp ⟨_, hs⟩
      exact ⟨s, hv, (hexit s).mp hc, rfl⟩
    · rintro ⟨s, hv, hz, rfl⟩
      obtain ⟨n, hn⟩ := whileLoop_result_iff.mpr ⟨hv, (hexit s).mpr hz⟩
      exact ⟨s, decelLoop_bound B hn, rfl⟩

/-- The new value of a channel at `p`, with `max_pwm` lowered already. -/
def rescale (stepSize maxPwm p : Nat) : Nat :=
  p * maxPwm % 4294967296 / ((maxPwm + stepSize) % 4294967296)

theorem decelMotor_pwmValues (k : Nat) (s : Decel) (m j : Motor) :
    (decelMotor B k s m).pwmValues j =
      if j = m then rescale k s.maxPwm (s.pwmValues m) else s.pwmValues j := by
  unfold decelMotor
  split
  case isTrue => simp [Function.update_apply, rescale]
  case isFalse hz =>
    have hzero : s.pwmValues m = 0 := by omega
    by_cases hj : j = m
    · simp [hj, hzero, rescale]
    · simp [hj]

theorem decelStep_pwmValues (k : Nat) (s : Decel) (m : Motor) :
    (decelStep B k s).pwmValues m = rescale k (s.maxPwm - k) (s.pwmValues m) := by
  have hmax : (if s.maxPwm > k then s.maxPwm - k else 0) = s.maxPwm - k := by split <;> omega
  simp only [decelStep, motors, List.foldl_cons, List.foldl_nil, decelMotor_pwmValues,
    decelMotor_maxPwm, hmax]
  cases m <;> simp

section

variable {k m p q : Nat}

/-- 16-bit values times 16-bit values fit the `uint32_t` product. -/
theorem product_lt (hp : p < 65536) (hm : m < 65536) : p * m < 4294967296 := by
  have hle : p * m ≤ 65535 * 65535 := Nat.mul_le_mul (by omega) (by omega)
  omega

theorem rescale_exact (hp : p < 65536) (hm : m < 65536) (hk : k < 65536) :
    rescale k m p = p * m / (m + k) := by
  rw [rescale, Nat.mod_eq_of_lt (product_lt hp hm), Nat.mod_eq_of_lt (show m + k < _ by omega)]

theorem rescale_le (hp : p < 65536) (hm : m < 65536) (hk : k < 65536) : rescale k m p ≤ p := by
  rw [rescale_exact hp hm hk]
  exact Nat.div_le_of_le_mul (Nat.mul_comm p m ▸ Nat.mul_le_mul_right p (Nat.le_add_right m k))

theorem rescale_mono (hq : q < 65536) (hm : m < 65536) (hk : k < 65536) (hpq : p ≤ q) :
    rescale k m p ≤ rescale k m q := by
  rw [rescale_exact (hpq.trans_lt hq) hm hk, rescale_exact hq hm hk]
  exact Nat.div_le_div_right (Nat.mul_le_mul_right m hpq)

/-- A channel at the counter stays at the counter: in the last iteration, too, where the
divisor is no longer the old counter, because the product is 0. -/
theorem rescale_leading (hm : m < 65536) (hk : k < 65536) : rescale k (m - k) m = m - k := by
  rw [rescale_exact hm (by omega) hk]
  by_cases hle : m ≤ k
  · rw [Nat.sub_eq_zero_of_le hle, Nat.mul_zero, Nat.zero_div]
  · rw [Nat.sub_add_cancel (by omega), Nat.mul_div_cancel_left _ (by omega)]

end

theorem decelStepSize_lt (time : UInt16) (d : Drive) : decelStepSize B time d < 65536 :=
  (Nat.div_le_self _ _).trans_lt (maxPwm_lt B d)

/-- What the loop keeps of the proportions found on entry: a largest channel follows the
counter, and no pair of channels changes its order. -/
structure Proportion (d : Drive) (s : Decel) : Prop extends DecelInv B d s where
  leading : ∀ m, d.getCompare (B.chan m) = maxPwm B d → s.pwmValues m = s.maxPwm
  ordered : ∀ i j, d.getCompare (B.chan i) ≤ d.getCompare (B.chan j) →
    s.pwmValues i ≤ s.pwmValues j

variable {B}

theorem Proportion.value_lt {d : Drive} {s : Decel} (h : Proportion B d s) (m : Motor) :
    s.pwmValues m < 65536 :=
  (h.le_max m).trans_lt h.max_lt

theorem Proportion.step {d : Drive} {k : Nat} {s : Decel} (hk : k < 65536)
    (h : Proportion B d s) : Proportion B d (decelStep B k s) where
  toDecelInv := decelStep_inv B h.toDecelInv
  leading m hm := by
    rw [decelStep_pwmValues, decelStep_maxPwm, h.leading m hm]
    exact rescale_leading h.max_lt hk
  ordered i j hij := by
    rw [decelStep_pwmValues, decelStep_pwmValues]
    have hlow : s.maxPwm - k < 65536 := (Nat.sub_le _ _).trans_lt h.max_lt
    exact rescale_mono (h.value_lt j) hlow hk (h.ordered i j hij)

variable (B)

theorem proportion_entry (d : Drive) : Proportion B d (decelEntry B d) where
  toDecelInv := decelInv_entry B d
  leading _ hm := hm
  ordered _ _ hij := hij

variable {B}

theorem DecelVisits.proportion {time : UInt16} {d : Drive} {s : Decel}
    (h : DecelVisits B time d s) : Proportion B d s :=
  Visits.invariant (fun _ hs _ => hs.step (decelStepSize_lt B time d)) (proportion_entry B d) h

variable (B)

/-- `stop_all_motors_sync` stops the motors exactly when they stand still already or the
largest compare value is at least the number of steps. -/
theorem stopAllMotorsSync_iff (time : UInt16) (d : Drive) :
    (∃ d', stopAllMotorsSync B time d = some d' ∧ Stopped B d'.act) ↔
      Stopped B d.act ∨ decelSteps time ≤ maxPwm B d := by
  constructor
  · rintro ⟨d', hd', -⟩
    by_cases hz : maxPwm B d = 0
    · exact .inl (stopped_of_maxPwm B hz)
    · rw [stopAllMotorsSync, if_neg hz] at hd'
      obtain ⟨t, ht, -⟩ := Option.map_eq_some_iff.mp hd'
      have hcover := (decelLoop_ends_iff B _ _ _).mp ⟨t, ht⟩
      exact .inr ((le_mul_div_iff hz (decelSteps_pos time)).mp hcover)
  · intro h
    obtain ⟨d', hd', -, hstop⟩ := stopAllMotorsSync_spec B h
    exact ⟨d', hd', hstop⟩

end BleCar.Motion.Deceleration
