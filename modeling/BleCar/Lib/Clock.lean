import Mathlib.Data.Nat.ModEq

/-!
# Free-running counters

A counter of period `m` shows the time modulo `m`. Differences of two readings give the
elapsed time in arithmetic modulo `m`. In a wider type they give it only while the counter
has not wrapped around between the readings.
-/

namespace BleCar.Lib.Clock

/-- What a counter of period `m` shows at time `t`. -/
def reading (m t : Nat) : Nat := t % m

/-- The counter shows less after `d` than before. -/
def Wraps (m t d : Nat) : Prop := reading m (t + d) < reading m t

instance (m t d : Nat) : Decidable (Wraps m t d) := inferInstanceAs (Decidable (_ < _))

variable {m t d : Nat}

theorem reading_lt (hm : 0 < m) (t : Nat) : reading m t < m := Nat.mod_lt t hm

/-- A counter goes on from what it shows. -/
theorem reading_add (s : Nat) : reading m (reading m t + s) = reading m (t + s) :=
  Nat.mod_add_mod t m s

theorem reading_of_not_wraps (hd : d < m) (h : ¬ Wraps m t d) :
    reading m (t + d) = reading m t + d := by
  have hlt := reading_lt (by omega : 0 < m) t
  unfold Wraps at h
  rw [← reading_add] at h ⊢
  by_cases hin : reading m t + d < m
  · exact Nat.mod_eq_of_lt hin
  · have hover : reading m (reading m t + d) = reading m t + d - m := by
      rw [reading, Nat.mod_eq_sub_mod (by omega), Nat.mod_eq_of_lt (by omega)]
    omega

theorem reading_of_wraps (hd : d < m) (h : Wraps m t d) :
    reading m (t + d) + m = reading m t + d := by
  have hlt := reading_lt (by omega : 0 < m) t
  unfold Wraps at h
  rw [← reading_add] at h ⊢
  by_cases hin : reading m t + d < m
  · have heq : reading m (reading m t + d) = reading m t + d := Nat.mod_eq_of_lt hin
    omega
  · rw [reading, Nat.mod_eq_sub_mod (by omega), Nat.mod_eq_of_lt (by omega)]
    omega

/-- In arithmetic modulo the period the difference is the time elapsed. -/
theorem modular_difference (hd : d < m) :
    (reading m (t + d) + m - reading m t) % m = d := by
  by_cases h : Wraps m t d
  · rw [reading_of_wraps hd h, Nat.add_sub_cancel_left, Nat.mod_eq_of_lt hd]
  · rw [reading_of_not_wraps hd h, show reading m t + d + m - reading m t = d + m by omega,
      Nat.add_mod_right, Nat.mod_eq_of_lt hd]

/-- In a type of `w` values, wider than the period, a difference is below a small bound exactly
when the time elapsed is and the counter has not wrapped around. -/
theorem wide_difference_lt_iff {w b : Nat} (hd : d < m) (hb : b + m ≤ w) :
    (reading m (t + d) + w - reading m t) % w < b ↔ ¬ Wraps m t d ∧ d < b := by
  have hlt := reading_lt (by omega : 0 < m) t
  by_cases h : Wraps m t d
  · have hsum := reading_of_wraps hd h
    have hmod : (reading m (t + d) + w - reading m t) % w = w - m + d := by
      rw [show reading m (t + d) + w - reading m t = w - m + d by omega]
      apply Nat.mod_eq_of_lt
      unfold Wraps at h
      omega
    rw [hmod]
    simp only [h, not_true_eq_false, false_and, iff_false]
    omega
  · rw [reading_of_not_wraps hd h, show reading m t + d + w - reading m t = d + w by omega,
      Nat.add_mod_right, Nat.mod_eq_of_lt (by omega)]
    exact ⟨fun hdb => ⟨h, hdb⟩, fun hdb => hdb.2⟩

/-- A counter set to 0 at time `z` shows the time elapsed since `r` exactly when `r` is a whole
number of periods away from `z` and less than a period old. -/
theorem reading_eq_elapsed_iff {z r : Nat} (hm : 0 < m) (hz : z ≤ t) (hr : r ≤ t) :
    reading m (t - z) = t - r ↔ z ≡ r [MOD m] ∧ t - r < m := by
  have hsum : t - z + z ≡ t - r + r [MOD m] := by rw [Nat.sub_add_cancel hz, Nat.sub_add_cancel hr]
  constructor
  · intro h
    have hmod : t - z ≡ t - r [MOD m] := h ▸ (Nat.mod_modEq (t - z) m).symm
    exact ⟨hmod.add_left_cancel hsum, h ▸ reading_lt hm (t - z)⟩
  · rintro ⟨hmod, hlt⟩
    have hdiff : t - z ≡ t - r [MOD m] := hmod.add_right_cancel hsum
    exact Eq.trans hdiff (Nat.mod_eq_of_lt hlt)

end BleCar.Lib.Clock
