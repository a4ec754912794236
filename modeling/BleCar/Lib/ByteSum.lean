import Mathlib.Data.UInt

/-!
# Sums of bytes read through a pointer

A pointer is the function from an index to the byte found there, and `byteSum d n`
adds the `n` bytes `d 0 .. d (n-1)` in 8-bit arithmetic, first index first.
-/

namespace BleCar.Lib.ByteSum

/-- `sum = 0; for (i = 0; i < n; i++) sum = (uint8_t)(sum + d[i])`. -/
def byteSum (d : Nat → UInt8) : Nat → UInt8
  | 0 => 0
  | n + 1 => byteSum d n + d n

@[simp] theorem byteSum_zero (d : Nat → UInt8) : byteSum d 0 = 0 := rfl

theorem byteSum_succ (d : Nat → UInt8) (n : Nat) : byteSum d (n + 1) = byteSum d n + d n := rfl

/-- Only the summed bytes matter. -/
theorem byteSum_congr {d d' : Nat → UInt8} {n : Nat} (h : ∀ i < n, d i = d' i) :
    byteSum d n = byteSum d' n := by
  induction n with
  | zero => rfl
  | succ n ih =>
    rw [byteSum_succ, byteSum_succ, ih fun i hi => h i (by omega), h n (by omega)]

/-- A sum can be cut in two. -/
theorem byteSum_add (d : Nat → UInt8) (m n : Nat) :
    byteSum d (m + n) = byteSum d m + byteSum (fun i => d (m + i)) n := by
  induction n with
  | zero => rw [byteSum_zero, UInt8.add_zero, Nat.add_zero]
  | succ n ih => rw [← Nat.add_assoc, byteSum_succ, ih, byteSum_succ, UInt8.add_assoc]

/-- The loop over the indices in order, with the sum as its accumulator. -/
theorem foldl_range_add (d : Nat → UInt8) (n : Nat) :
    (List.range n).foldl (fun sum i => sum + d i) 0 = byteSum d n := by
  induction n with
  | zero => rfl
  | succ n ih => rw [List.range_succ, List.foldl_append, ih, List.foldl_cons, List.foldl_nil,
      byteSum_succ]

/-- A sum is 255 exactly when its last byte is the complement of the sum before it. -/
theorem byteSum_succ_eq_iff (d : Nat → UInt8) (n : Nat) :
    byteSum d (n + 1) = 0xff ↔ d n = 0xff - byteSum d n := by
  rw [byteSum_succ]
  grind

/-- Closing a sum with its complement to 255 makes it 255. -/
theorem byteSum_complement {d : Nat → UInt8} {n : Nat} (h : d n = 0xff - byteSum d n) :
    byteSum d (n + 1) = 0xff :=
  (byteSum_succ_eq_iff d n).mpr h

/-- Two byte strings that agree but for one index have equal sums only if they agree there. -/
theorem eq_of_byteSum_eq {d d' : Nat → UInt8} {n j : Nat} (hj : j < n)
    (h : ∀ i < n, i ≠ j → d i = d' i) (hsum : byteSum d n = byteSum d' n) : d j = d' j := by
  induction n with
  | zero => omega
  | succ n ih =>
    rw [byteSum_succ, byteSum_succ] at hsum
    by_cases hlast : j = n
    · subst hlast
      rw [byteSum_congr fun i hi => h i (by omega) (by omega)] at hsum
      exact (UInt8.add_right_inj _).mp hsum
    · rw [h n (by omega) (by omega)] at hsum
      exact ih (by omega) (fun i hi => h i (by omega)) ((UInt8.add_left_inj _).mp hsum)

end BleCar.Lib.ByteSum
