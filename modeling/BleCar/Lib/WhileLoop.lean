import Mathlib.Order.Basic

/-!
# While loops under a bound on their iterations

`whileLoop c f n s` runs `while (c) f` from `s` and gives up, with `none`, when the
test still holds after `n` iterations. A result does not depend on the bound. A
loop that lowers a counter by a fixed amount ends within `n` iterations exactly when
`n` of them cover the counter, so that the counter is a bound that loses nothing.
`Visits c f s t` says that the loop from `s` evaluates its test in `t`, whether or not
it ends.
-/

namespace BleCar.Lib.WhileLoop

variable {σ : Type*}

def whileLoop (c : σ → Bool) (f : σ → σ) : Nat → σ → Option σ
  | 0, s => if c s then none else some s
  | n + 1, s => if c s then whileLoop c f n (f s) else some s

section

variable {c : σ → Bool} {f : σ → σ}

theorem whileLoop_done {s : σ} (h : c s = false) (n : Nat) : whileLoop c f n s = some s := by
  cases n <;> simp [whileLoop, h]

theorem whileLoop_step {s : σ} (h : c s = true) (n : Nat) :
    whileLoop c f (n + 1) s = whileLoop c f n (f s) := by
  simp [whileLoop, h]

/-- The result does not change when more iterations are allowed. -/
theorem whileLoop_stable {n m : Nat} {s t : σ} (h : whileLoop c f n s = some t) (hle : n ≤ m) :
    whileLoop c f m s = some t := by
  induction n generalizing m s with
  | zero =>
    cases hc : c s with
    | false => rwa [whileLoop_done hc] at h ⊢
    | true => simp [whileLoop, hc] at h
  | succ n ih =>
    cases hc : c s with
    | false => rwa [whileLoop_done hc] at h ⊢
    | true =>
      obtain ⟨m, rfl⟩ := Nat.exists_eq_add_of_le hle
      rw [whileLoop_step hc] at h
      rw [show n + 1 + m = (n + m) + 1 by omega, whileLoop_step hc]
      exact ih h (by omega)

/-- The invariant rule: at the exit the invariant holds and the test is false. -/
theorem whileLoop_invariant {I : σ → Prop} (hI : ∀ s, I s → c s = true → I (f s))
    {n : Nat} {s t : σ} (hs : I s) (h : whileLoop c f n s = some t) : I t ∧ c t = false := by
  induction n generalizing s with
  | zero =>
    cases hc : c s with
    | false =>
      rw [whileLoop_done hc] at h
      obtain rfl := Option.some.inj h
      exact ⟨hs, hc⟩
    | true => simp [whileLoop, hc] at h
  | succ n ih =>
    cases hc : c s with
    | false =>
      rw [whileLoop_done hc] at h
      obtain rfl := Option.some.inj h
      exact ⟨hs, hc⟩
    | true =>
      rw [whileLoop_step hc] at h
      exact ih (hI s hs hc) h

/-- The countdown rule: the loop tests a counter that every iteration lowers by `k`, down
to 0 at most. -/
theorem whileLoop_countdown {I : σ → Prop} {v : σ → Nat} {k : Nat}
    (hc : ∀ s, c s = decide (0 < v s))
    (hI : ∀ s, I s → c s = true → I (f s) ∧ v (f s) = v s - k)
    {s : σ} (hs : I s) (n : Nat) :
    (∃ t, whileLoop c f n s = some t) ↔ v s ≤ n * k := by
  induction n generalizing s with
  | zero =>
    simp only [whileLoop, hc]
    by_cases hv : v s = 0
    · simp [hv]
    · simp [hv, Nat.pos_of_ne_zero hv]
  | succ n ih =>
    cases hcs : c s with
    | false =>
      have hv : ¬ 0 < v s := of_decide_eq_false ((hc s).symm.trans hcs)
      have hzero : v s = 0 := by omega
      simp [whileLoop_done hcs, hzero]
    | true =>
      obtain ⟨hnext, hlower⟩ := hI s hs hcs
      rw [whileLoop_step hcs, ih hnext, hlower, Nat.sub_le_iff_le_add, Nat.succ_mul]

/-- A countdown that ends within any number of iterations ends within as many as the counter
says, with the same result. -/
theorem whileLoop_countdown_bound {I : σ → Prop} {v : σ → Nat} {k : Nat}
    (hc : ∀ s, c s = decide (0 < v s))
    (hI : ∀ s, I s → c s = true → I (f s) ∧ v (f s) = v s - k)
    {s t : σ} (hs : I s) {n : Nat} (ht : whileLoop c f n s = some t) :
    whileLoop c f (v s) s = some t := by
  have hcover : v s ≤ v s * k := by
    have hn := (whileLoop_countdown hc hI hs n).mp ⟨t, ht⟩
    rcases Nat.eq_zero_or_pos k with rfl | hk
    · omega
    · exact Nat.le_mul_of_pos_right _ hk
  obtain ⟨u, hu⟩ := (whileLoop_countdown hc hI hs (v s)).mpr hcover
  have htu : some t = some u := by
    rcases Nat.le_total n (v s) with hle | hle
    · exact (whileLoop_stable ht hle).symm.trans hu
    · exact ht.symm.trans (whileLoop_stable hu hle)
  exact hu.trans htu.symm

end

/-- The states in which a loop evaluates its test. -/
inductive Visits (c : σ → Bool) (f : σ → σ) (s : σ) : σ → Prop
  | entry : Visits c f s s
  | next {t : σ} : Visits c f s t → c t = true → Visits c f s (f t)

section

variable {c : σ → Bool} {f : σ → σ}

theorem Visits.invariant {I : σ → Prop} (hI : ∀ s, I s → c s = true → I (f s)) {s t : σ}
    (hs : I s) (h : Visits c f s t) : I t := by
  induction h with
  | entry => exact hs
  | next _ hc ih => exact hI _ ih hc

/-- A loop that goes on from a state it visits has the same result. -/
theorem Visits.result {s t u : σ} (h : Visits c f s t) {n : Nat}
    (hu : whileLoop c f n t = some u) : ∃ m, whileLoop c f m s = some u := by
  induction h generalizing n with
  | entry => exact ⟨n, hu⟩
  | next _ hc ih => exact ih (n := n + 1) ((whileLoop_step hc n).trans hu)

/-- The result of a loop is the state it visits last. -/
theorem whileLoop_result_iff {s t : σ} :
    (∃ n, whileLoop c f n s = some t) ↔ Visits c f s t ∧ c t = false := by
  constructor
  · rintro ⟨n, hn⟩
    exact whileLoop_invariant (I := Visits c f s) (fun _ hv hc => hv.next hc) .entry hn
  · rintro ⟨hv, hc⟩
    exact hv.result (whileLoop_done hc 0)

end

end BleCar.Lib.WhileLoop
