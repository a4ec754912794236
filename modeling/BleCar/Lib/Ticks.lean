import Mathlib.Logic.Function.Iterate
import BleCar.Lib.WhileLoop

/-!
# Loops that count their cost

`ticked k f` runs `f` and adds `k` to a counter beside the state. Repeating it does to the
state what repeating `f` does, and the counter tells how often.
-/

namespace BleCar.Lib.Ticks

open BleCar.Lib.WhileLoop

variable {σ α : Type*}

def ticked (k : Nat) (f : σ → σ) (p : σ × Nat) : σ × Nat := (f p.1, p.2 + k)

theorem ticked_iterate (k : Nat) (f : σ → σ) (n : Nat) (p : σ × Nat) :
    (ticked k f)^[n] p = (f^[n] p.1, p.2 + n * k) := by
  induction n generalizing p with
  | zero => simp
  | succ n ih =>
    rw [Function.iterate_succ_apply, Function.iterate_succ_apply, ih, ticked, Nat.succ_mul]
    congr 1
    omega

theorem ticked_foldl (k : Nat) (f : σ → α → σ) (l : List α) (p : σ × Nat) :
    l.foldl (fun p a => ticked k (fun s => f s a) p) p = (l.foldl f p.1, p.2 + l.length * k) := by
  induction l generalizing p with
  | nil => simp
  | cons a l ih =>
    rw [List.foldl_cons, List.foldl_cons, ih, ticked, List.length_cons, Nat.succ_mul]
    congr 1
    omega

section

variable {c : σ → Bool} {f : σ → σ}

/-- Without its counter the loop is the loop. -/
theorem ticked_whileLoop (k n : Nat) (p : σ × Nat) :
    (whileLoop (fun q => c q.1) (ticked k f) n p).map Prod.fst = whileLoop c f n p.1 := by
  induction n generalizing p with
  | zero =>
    simp only [whileLoop]
    split <;> rfl
  | succ n ih =>
    simp only [whileLoop]
    split
    · exact ih _
    · rfl

/-- A counter lowered by `d` at a time reaches 0 in as many iterations as `d` goes into it,
rounded up. -/
theorem ticked_countdown {I : σ → Prop} {v : σ → Nat} {d : Nat} (hd : 0 < d)
    (hc : ∀ s, c s = decide (0 < v s))
    (hI : ∀ s, I s → c s = true → I (f s) ∧ v (f s) = v s - d) {k n : Nat} {p q : σ × Nat}
    (hp : I p.1) (h : whileLoop (fun q => c q.1) (ticked k f) n p = some q) :
    q.2 = p.2 + (v p.1 + (d - 1)) / d * k := by
  have hdone : ∀ p : σ × Nat, c p.1 = false → (v p.1 + (d - 1)) / d = 0 := by
    intro p hcp
    have hv : ¬ 0 < v p.1 := of_decide_eq_false ((hc p.1).symm.trans hcp)
    exact Nat.div_eq_of_lt (by omega)
  induction n generalizing p with
  | zero =>
    cases hcp : c p.1 with
    | false =>
      rw [whileLoop_done (c := fun q : σ × Nat => c q.1) hcp] at h
      obtain rfl := Option.some.inj h
      rw [hdone p hcp, Nat.zero_mul, Nat.add_zero]
    | true => simp [whileLoop, hcp] at h
  | succ n ih =>
    cases hcp : c p.1 with
    | false =>
      rw [whileLoop_done (c := fun q : σ × Nat => c q.1) hcp] at h
      obtain rfl := Option.some.inj h
      rw [hdone p hcp, Nat.zero_mul, Nat.add_zero]
    | true =>
      have hv : 0 < v p.1 := of_decide_eq_true ((hc p.1).symm.trans hcp)
      obtain ⟨hnext, hlower⟩ := hI p.1 hp hcp
      rw [whileLoop_step (c := fun q : σ × Nat => c q.1) hcp] at h
      have hrounds : (v p.1 + (d - 1)) / d = (v p.1 - d + (d - 1)) / d + 1 := by
        by_cases hle : d ≤ v p.1
        · rw [← Nat.add_div_right _ hd]
          congr 1
          omega
        · rw [Nat.div_eq_of_lt (show v p.1 - d + (d - 1) < d by omega)]
          exact Nat.div_eq_of_lt_le (by omega) (by omega)
      rw [ih hnext h, hrounds, Nat.succ_mul]
      simp only [ticked, hlower]
      omega

end

end BleCar.Lib.Ticks
