import Mathlib.Data.List.Basic
import BleCar.Lib.Runs

/-!
# A line that may lose

A line moves the letters of what it is offered one by one. What is under way can be cut
off, and an offer made while something is under way can be lost and may garble it. What
came out and is under way is what was offered exactly when none of this happened.
-/

namespace BleCar.Lib.Line

open BleCar.Lib.Runs

structure State (α : Type*) where
  out : List α
  pending : List α
  offered : List α

inductive Op (α : Type*) where
  | offer (f : List α)
  | lose (f garbled : List α)
  | move
  | cut

variable {α : Type*}

def empty : State α := ⟨[], [], []⟩

def step (l : State α) : Op α → Option (State α)
  | .offer f =>
    if l.pending.length = 0 then some { l with pending := f, offered := l.offered ++ f } else none
  | .lose f garbled =>
    if garbled.length = l.pending.length ∧ f ≠ [] then
      some { l with pending := garbled, offered := l.offered ++ f }
    else none
  | .move =>
    match l.pending with
    | [] => none
    | x :: xs => some { l with out := l.out ++ [x], pending := xs }
  | .cut => some { l with pending := [] }

/-- All that was offered came out or is under way, and nothing else. -/
def Whole (l : State α) : Prop := l.out ++ l.pending = l.offered

/-- The operations that do no harm. -/
def Intact (l : State α) : Op α → Prop
  | .lose _ _ => False
  | .cut => l.pending = []
  | _ => True

/-- Letters are lost, never made: where the numbers agree, so do the letters. -/
structure Bounded (l : State α) : Prop where
  le : l.out.length + l.pending.length ≤ l.offered.length
  exact : l.out.length + l.pending.length = l.offered.length → Whole l

theorem empty_bounded : Bounded (empty : State α) := ⟨Nat.le_refl _, fun _ => rfl⟩

theorem Bounded.whole_iff {l : State α} (h : Bounded l) :
    Whole l ↔ l.out.length + l.pending.length = l.offered.length :=
  ⟨fun hw => by rw [← List.length_append, hw], h.exact⟩

/-- One operation: the bound stays, and the line stays whole exactly if it does no harm. -/
theorem step_whole {l m : State α} {o : Op α} (h : Bounded l) (hs : step l o = some m) :
    Bounded m ∧ (Whole m ↔ Whole l ∧ Intact l o) := by
  have hle := h.le
  have hiff := h.whole_iff
  cases o with
  | offer f =>
    simp only [step] at hs
    split at hs
    case isFalse => cases hs
    case isTrue hp =>
      obtain rfl := Option.some.inj hs
      have hnil : l.pending = [] := List.length_eq_zero_iff.mp hp
      have hwhole : Whole { l with pending := f, offered := l.offered ++ f } ↔ Whole l := by
        simp [Whole, hnil]
      refine ⟨⟨by simp; omega, fun heq => hwhole.mpr (h.exact ?_)⟩, by simp [hwhole, Intact]⟩
      simp only [List.length_append] at heq
      omega
  | lose f garbled =>
    simp only [step] at hs
    split at hs
    case isFalse => cases hs
    case isTrue hg =>
      obtain rfl := Option.some.inj hs
      have hf : 0 < f.length := List.length_pos_iff.mpr hg.2
      have hb : Bounded { l with pending := garbled, offered := l.offered ++ f } := by
        refine ⟨by simp; omega, fun heq => ?_⟩
        simp only [List.length_append] at heq
        omega
      refine ⟨hb, ?_⟩
      simp only [hb.whole_iff, Intact, and_false, iff_false, List.length_append]
      omega
  | move =>
    simp only [step] at hs
    split at hs
    case h_1 => cases hs
    case h_2 x xs hp =>
      obtain rfl := Option.some.inj hs
      have hwhole : Whole { l with out := l.out ++ [x], pending := xs } ↔ Whole l := by
        simp [Whole, hp]
      refine ⟨⟨?_, fun heq => hwhole.mpr (h.exact ?_)⟩, by simp [hwhole, Intact]⟩
      · simp [hp] at hle ⊢; omega
      · simp [hp] at heq ⊢; omega
  | cut =>
    obtain rfl := Option.some.inj hs
    have hkey : l.out.length = l.offered.length → Whole l ∧ l.pending = [] := by
      intro heq
      have hnil : l.pending = [] := List.length_eq_zero_iff.mp (by omega)
      exact ⟨h.exact (by rw [hnil]; simpa using heq), hnil⟩
    have hcut : Whole l ∧ l.pending = [] → Whole { l with pending := [] } := by
      rintro ⟨hw, hnil⟩
      rw [Whole, hnil] at hw
      exact hw
    refine ⟨⟨by simp; omega, fun heq => hcut (hkey (by simpa using heq))⟩, ?_, hcut⟩
    exact fun hw => hkey (by rw [← show l.out ++ [] = l.offered from hw, List.append_nil])

/-- A run is whole at its end exactly when every operation did no harm. -/
theorem run_whole_iff {os : List (Op α)} {l : State α} (h : run step empty os = some l) :
    Whole l ↔ Along step Intact empty os :=
  last_iff_along (I := Bounded) (fun _ _ _ hb hs => (step_whole hb hs).1)
    (fun _ _ _ hb hs => (step_whole hb hs).2) empty_bounded rfl h

end BleCar.Lib.Line
