import Mathlib.Data.List.Range
import Mathlib.Order.Interval.Set.UnorderedInterval

/-!
# Sequences that approach a target

`Approaches t l` says that every element of `l` lies between its predecessor and `t`.
Such a sequence is monotone towards `t` and stays between its first element and `t`,
from either side; the condition is local, so it is checked one step at a time.
-/

namespace BleCar.Lib.Approach

variable {α : Type*} [LinearOrder α]

def Approaches (t : α) (l : List α) : Prop := l.IsChain fun a b => b ∈ Set.uIcc a t

/-- `start :: l` moves monotonically towards `target`, and `l` stays between the two. -/
structure RampsTo (start target : α) (l : List α) : Prop where
  rising : start ≤ target → (start :: l).Pairwise (· ≤ ·)
  falling : target ≤ start → (start :: l).Pairwise (· ≥ ·)
  inside : ∀ v ∈ l, v ∈ Set.uIcc start target

variable {t : α}

theorem Approaches.rampsTo {start : α} {l : List α} (h : Approaches t (start :: l)) :
    RampsTo start t l := by
  induction l generalizing start with
  | nil => exact ⟨by simp, by simp, by simp⟩
  | cons a l ih =>
    obtain ⟨ha, hl⟩ := List.isChain_cons_cons.mp h
    have hrest : RampsTo a t l := ih hl
    refine ⟨fun hle => ?_, fun hge => ?_, fun v hv => ?_⟩
    · rw [Set.uIcc_of_le hle] at ha
      have htail := List.isChain_iff_pairwise.mpr (hrest.rising ha.2)
      exact List.isChain_iff_pairwise.mp (List.isChain_cons_cons.mpr ⟨ha.1, htail⟩)
    · rw [Set.uIcc_of_ge hge] at ha
      have htail := List.isChain_iff_pairwise.mpr (hrest.falling ha.1)
      exact List.isChain_iff_pairwise.mp (List.isChain_cons_cons.mpr ⟨ha.2, htail⟩)
    · rcases List.mem_cons.mp hv with rfl | hv
      · exact ha
      · exact Set.uIcc_subset_uIcc_right ha (hrest.inside v hv)

/-- The values of a function that moves towards `t` at each of the first `n` steps. -/
theorem approaches_range {x : Nat → α} {n : Nat} (h : ∀ k < n, x (k + 1) ∈ Set.uIcc (x k) t) :
    Approaches t ((List.range (n + 1)).map x) := by
  rw [Approaches, List.isChain_map]
  exact (List.isChain_range_succ _ n).mpr h

/-- Arriving at the target is always an approach. -/
theorem Approaches.concat {l : List α} (h : Approaches t l) : Approaches t (l ++ [t]) := by
  refine List.IsChain.append h (List.isChain_singleton t) fun a _ b hb => ?_
  obtain rfl : t = b := by simpa using hb
  exact Set.right_mem_uIcc

end BleCar.Lib.Approach
