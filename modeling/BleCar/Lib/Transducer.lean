import Mathlib.Data.List.Induction
import Mathlib.Data.List.Flatten

/-!
# Machines that answer

A step takes an input to a new state and some outputs. A device that decodes a stream is
understood block by block: between two blocks it rests in states with a property `I`, and
inside a block it is silent until the block is complete.
-/

namespace BleCar.Lib.Transducer

variable {σ ι ο : Type*}

/-- The state after the inputs of a list. -/
def after (step : σ → ι → σ × List ο) : σ → List ι → σ
  | s, [] => s
  | s, x :: xs => after step (step s x).1 xs

/-- All outputs on the inputs of a list, in order. -/
def outputs (step : σ → ι → σ × List ο) : σ → List ι → List ο
  | _, [] => []
  | s, x :: xs => (step s x).2 ++ outputs step (step s x).1 xs

section

variable (step : σ → ι → σ × List ο)

@[simp] theorem after_nil (s : σ) : after step s [] = s := rfl
@[simp] theorem outputs_nil (s : σ) : outputs step s [] = [] := rfl

theorem after_cons (s : σ) (x : ι) (xs : List ι) :
    after step s (x :: xs) = after step (step s x).1 xs := rfl

theorem outputs_cons (s : σ) (x : ι) (xs : List ι) :
    outputs step s (x :: xs) = (step s x).2 ++ outputs step (step s x).1 xs := rfl

@[simp] theorem after_singleton (s : σ) (x : ι) : after step s [x] = (step s x).1 := rfl

@[simp] theorem outputs_singleton (s : σ) (x : ι) : outputs step s [x] = (step s x).2 :=
  List.append_nil _

theorem after_append (s : σ) (xs ys : List ι) :
    after step s (xs ++ ys) = after step (after step s xs) ys := by
  induction xs generalizing s with
  | nil => rfl
  | cons x xs ih => exact ih (step s x).1

theorem outputs_append (s : σ) (xs ys : List ι) :
    outputs step s (xs ++ ys) = outputs step s xs ++ outputs step (after step s xs) ys := by
  induction xs generalizing s with
  | nil => rfl
  | cons x xs ih =>
    rw [List.cons_append, outputs_cons, outputs_cons, ih, List.append_assoc]
    rfl

end

section Pipes

variable {τ ρ : Type*}

/-- Two machines, the second of which takes what the first puts out. -/
def pipe (first : σ → ι → σ × List ο) (second : τ → ο → τ × List ρ) (s : σ × τ) (x : ι) :
    (σ × τ) × List ρ :=
  (((first s.1 x).1, after second s.2 (first s.1 x).2), outputs second s.2 (first s.1 x).2)

variable (first : σ → ι → σ × List ο) (second : τ → ο → τ × List ρ)

theorem after_pipe (s : σ × τ) (xs : List ι) :
    after (pipe first second) s xs =
      (after first s.1 xs, after second s.2 (outputs first s.1 xs)) := by
  induction xs generalizing s with
  | nil => rfl
  | cons x xs ih =>
    rw [after_cons, ih, outputs_cons, after_append]
    rfl

theorem outputs_pipe (s : σ × τ) (xs : List ι) :
    outputs (pipe first second) s xs = outputs second s.2 (outputs first s.1 xs) := by
  induction xs generalizing s with
  | nil => rfl
  | cons x xs ih =>
    rw [outputs_cons, ih, outputs_cons, outputs_append]
    rfl

end Pipes

section Rules

variable {step : σ → ι → σ × List ο}

/-- A property that every step keeps is kept by every list of inputs. -/
theorem after_of_step {I : σ → Prop} (h : ∀ s x, I s → I (step s x).1) {s : σ} (hs : I s)
    (xs : List ι) : I (after step s xs) := by
  induction xs generalizing s with
  | nil => exact hs
  | cons x xs ih => exact ih (h s x hs)

/-- A relation between the inputs so far, the outputs so far and the state, kept by every step
that meets `C`, holds after every list of inputs along which `C` is met. -/
theorem history_of_step {I : List ι → List ο → σ → Prop} {C : σ → ι → Prop} {s : σ}
    (h : ∀ xs os t x, C t x → I xs os t → I (xs ++ [x]) (os ++ (step t x).2) (step t x).1)
    (hs : I [] [] s) (xs : List ι)
    (hC : ∀ pre x post, xs = pre ++ x :: post → C (after step s pre) x) :
    I xs (outputs step s xs) (after step s xs) := by
  induction xs using List.reverseRecOn with
  | nil => exact hs
  | append_singleton xs x ih =>
    rw [after_append, outputs_append, after_singleton, outputs_singleton]
    refine h _ _ _ x (hC xs x [] rfl) (ih fun pre y post heq => ?_)
    exact hC pre y (post ++ [x]) (by rw [heq, List.append_assoc, List.cons_append])

/-- Progress without output: `I k` holds when `k` inputs of the list have been taken. -/
theorem silent (step : σ → ι → σ × List ο) {I : Nat → σ → Prop} (xs : List ι)
    (h : ∀ k (hk : k < xs.length) s, I k s → I (k + 1) (step s xs[k]).1 ∧ (step s xs[k]).2 = [])
    {s : σ} (hs : I 0 s) : I xs.length (after step s xs) ∧ outputs step s xs = [] := by
  induction xs using List.reverseRecOn with
  | nil => exact ⟨hs, rfl⟩
  | append_singleton xs x ih =>
    obtain ⟨hI, hout⟩ := ih fun k hk t ht => by
      have hstep := h k (by simp; omega) t ht
      rwa [List.getElem_append_left hk] at hstep
    have hlast := h xs.length (by simp) (after step s xs) hI
    rw [List.getElem_concat_length rfl] at hlast
    rw [after_append, outputs_append, hout, after_singleton, outputs_singleton, hlast.2,
      List.length_append, List.length_singleton]
    exact ⟨hlast.1, rfl⟩

/-- Block by block: if the inputs of every block are answered by `out` between states with
`I`, so are those of all blocks in a row. -/
theorem flatMap_blocks {β : Type*} {I : σ → Prop} {block : β → List ι} {out : β → List ο}
    {bs : List β}
    (h : ∀ b ∈ bs, ∀ s, I s → I (after step s (block b)) ∧ outputs step s (block b) = out b)
    {s : σ} (hs : I s) :
    I (after step s (bs.flatMap block)) ∧ outputs step s (bs.flatMap block) = bs.flatMap out := by
  induction bs generalizing s with
  | nil => exact ⟨hs, rfl⟩
  | cons b bs ih =>
    obtain ⟨hI, hout⟩ := h b List.mem_cons_self s hs
    obtain ⟨hI', hout'⟩ := ih (fun b' hb' => h b' (List.mem_cons_of_mem _ hb')) hI
    rw [List.flatMap_cons, after_append, outputs_append, hout, hout', List.flatMap_cons]
    exact ⟨hI', rfl⟩

/-- The same where the blocks are lists of inputs. -/
theorem blocks {I : σ → Prop} {out : List ι → List ο} {bs : List (List ι)}
    (h : ∀ b ∈ bs, ∀ s, I s → I (after step s b) ∧ outputs step s b = out b) {s : σ} (hs : I s) :
    I (after step s bs.flatten) ∧ outputs step s bs.flatten = bs.flatMap out := by
  rw [← List.flatMap_id]
  exact flatMap_blocks h hs

/-- A block entered in its middle: if what remains of any block leads back to `I`, so does
what remains of the concatenation. -/
theorem after_drop {I : σ → Prop} {bs : List (List ι)}
    (h : ∀ b ∈ bs, ∀ k s, I s → I (after step s (b.drop k))) {s : σ} (hs : I s) (n : Nat) :
    I (after step s (bs.flatten.drop n)) := by
  induction bs generalizing s n with
  | nil => simpa using hs
  | cons b bs ih =>
    rw [List.flatten_cons, List.drop_append, after_append]
    exact ih (fun b' hb' => h b' (List.mem_cons_of_mem _ hb')) (h b List.mem_cons_self n s hs) _

end Rules

section Stops

variable (stops : σ → Prop) (step : σ → ι → σ × List ο)

/-- The outputs of a machine that takes no input in a state with `stops`, and none afterwards. -/
def outputsUntil [DecidablePred stops] : σ → List ι → List ο
  | _, [] => []
  | s, x :: xs => if stops s then [] else (step s x).2 ++ outputsUntil (step s x).1 xs

/-- No input of the list finds the machine in a state with `stops`. -/
def Passes : σ → List ι → Prop
  | _, [] => True
  | s, x :: xs => ¬ stops s ∧ Passes (step s x).1 xs

variable {stops step}

theorem outputsUntil_of_passes [DecidablePred stops] {s : σ} {xs : List ι}
    (h : Passes stops step s xs) : outputsUntil stops step s xs = outputs step s xs := by
  induction xs generalizing s with
  | nil => rfl
  | cons x xs ih => rw [outputsUntil, if_neg h.1, ih h.2, outputs_cons]

theorem outputsUntil_of_stops [DecidablePred stops] {s : σ} (h : stops s) (xs : List ι) :
    outputsUntil stops step s xs = [] := by
  cases xs with
  | nil => rfl
  | cons x xs => rw [outputsUntil, if_pos h]

theorem passes_append {s : σ} {xs ys : List ι} (hx : Passes stops step s xs)
    (hy : Passes stops step (after step s xs) ys) : Passes stops step s (xs ++ ys) := by
  induction xs generalizing s with
  | nil => exact hy
  | cons x xs ih => exact ⟨hx.1, ih hx.2 hy⟩

/-- A property without stops that the inputs with `C` keep. -/
theorem passes_of_step {I : σ → Prop} {C : ι → Prop} (hI : ∀ s, I s → ¬ stops s)
    (h : ∀ s x, C x → I s → I (step s x).1) {s : σ} (hs : I s) {xs : List ι}
    (hC : ∀ x ∈ xs, C x) : Passes stops step s xs ∧ I (after step s xs) := by
  induction xs generalizing s with
  | nil => exact ⟨trivial, hs⟩
  | cons x xs ih =>
    obtain ⟨hpass, hlast⟩ := ih (h s x (hC x List.mem_cons_self) hs)
      fun y hy => hC y (List.mem_cons_of_mem _ hy)
    exact ⟨⟨hI s hs, hpass⟩, hlast⟩

/-- Progress without stops: `I k` holds when `k` inputs of the list have been taken. -/
theorem passes_upto {I : Nat → σ → Prop} (hI : ∀ k s, I k s → ¬ stops s) (xs : List ι)
    (h : ∀ k (hk : k + 1 < xs.length) s, I k s → I (k + 1) (step s xs[k]).1) {s : σ}
    (hs : I 0 s) : Passes stops step s xs := by
  induction xs generalizing I s with
  | nil => trivial
  | cons x xs ih =>
    refine ⟨hI 0 s hs, ?_⟩
    cases xs with
    | nil => trivial
    | cons y ys =>
      refine ih (I := fun k => I (k + 1)) (fun k => hI (k + 1)) (fun k hk t ht => ?_) ?_
      · exact h (k + 1) (Nat.succ_lt_succ hk) t ht
      · exact h 0 (by simp) s hs

/-- Where more inputs can be taken, the machine has not stopped. -/
theorem Passes.go_on {s : σ} {xs ys : List ι} (h : Passes stops step s (xs ++ ys)) (hne : ys ≠ []) :
    ¬ stops (after step s xs) := by
  induction xs generalizing s with
  | nil =>
    cases ys with
    | nil => exact absurd rfl hne
    | cons y ys => exact h.1
  | cons x xs ih => exact ih h.2

/-- The same block by block. -/
theorem passes_blocks {I : σ → Prop} {bs : List (List ι)}
    (h : ∀ b ∈ bs, ∀ s, I s → Passes stops step s b ∧ I (after step s b)) {s : σ} (hs : I s) :
    Passes stops step s bs.flatten := by
  induction bs generalizing s with
  | nil => trivial
  | cons b bs ih =>
    obtain ⟨hpass, hlast⟩ := h b List.mem_cons_self s hs
    exact passes_append hpass (ih (fun b' hb' => h b' (List.mem_cons_of_mem _ hb')) hlast)

end Stops

end BleCar.Lib.Transducer
