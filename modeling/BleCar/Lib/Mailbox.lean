import Mathlib.Data.List.Basic
import BleCar.Lib.Runs

/-!
# A mailbox with one place

`put` overwrites what lies in the place, `take` empties it and `discard` throws it away.
The history of what was offered and of what was taken is part of the state. In every run
the letters taken are offered ones, each at most once and in order; none is lost by
operations that put only into the empty place and discard nothing.
-/

namespace BleCar.Lib.Mailbox

open BleCar.Lib.Runs

structure Box (α : Type*) where
  offered : List α
  slot : Option α
  taken : List α

inductive Op (α : Type*) where
  | put (a : α)
  | take
  | discard

variable {α : Type*}

def empty : Box α := ⟨[], none, []⟩

/-- Nothing can be taken from the empty place. -/
def step (m : Box α) : Op α → Option (Box α)
  | .put a => some { m with offered := m.offered ++ [a], slot := some a }
  | .take => m.slot.map fun a => { m with slot := none, taken := m.taken ++ [a] }
  | .discard => some { m with slot := none }

/-- The letters taken, and then the one in the place, are offered ones in order. -/
def Ordered (m : Box α) : Prop := (m.taken ++ m.slot.toList).Sublist m.offered

/-- Every letter offered has been taken or lies in the place. -/
def Lossless (m : Box α) : Prop := m.taken ++ m.slot.toList = m.offered

/-- The operations that lose nothing. -/
def Careful (m : Box α) : Op α → Prop
  | .put _ => m.slot = none
  | .take => True
  | .discard => m.slot = none

theorem Ordered.taken {m : Box α} (h : Ordered m) : m.taken.Sublist m.offered :=
  (List.sublist_append_left _ _).trans h

theorem Lossless.taken {m : Box α} (h : Lossless m) (hs : m.slot = none) :
    m.taken = m.offered := by
  rw [← h, hs]
  simp

theorem step_ordered (m : Box α) (o : Op α) (n : Box α) (h : Ordered m)
    (hs : step m o = some n) : Ordered n := by
  cases o with
  | put a =>
    obtain rfl := Option.some.inj hs
    exact h.taken.append (List.Sublist.refl [a])
  | take =>
    obtain ⟨a, ha, rfl⟩ := Option.map_eq_some_iff.mp hs
    rw [Ordered, ha] at h
    simpa [Ordered] using h
  | discard =>
    obtain rfl := Option.some.inj hs
    simpa [Ordered] using h.taken

theorem step_lossless (m : Box α) (o : Op α) (n : Box α) (h : Lossless m)
    (hc : Careful m o) (hs : step m o = some n) : Lossless n := by
  cases o with
  | put a =>
    obtain rfl := Option.some.inj hs
    change m.slot = none at hc
    rw [Lossless, hc] at h
    simpa [Lossless] using h
  | take =>
    obtain ⟨a, ha, rfl⟩ := Option.map_eq_some_iff.mp hs
    rw [Lossless, ha] at h
    simpa [Lossless] using h
  | discard =>
    obtain rfl := Option.some.inj hs
    change m.slot = none at hc
    rw [Lossless, hc] at h
    simpa [Lossless] using h

theorem empty_ordered : Ordered (empty : Box α) := List.Sublist.refl []

theorem empty_lossless : Lossless (empty : Box α) := rfl

/-- No letter is taken that was not offered, none twice, and none out of order. -/
theorem run_ordered {os : List (Op α)} {m : Box α} (h : run step empty os = some m) :
    Ordered m :=
  last_of_step step_ordered empty_ordered h

end BleCar.Lib.Mailbox
