import Mathlib.Data.List.Basic

/-!
# Runs of a partial step function

An event may be refused in a state, so `step : σ → ε → Option σ`. A run is a list
of events. `Always` speaks of every state a run visits and `Along` of every
state-event pair it takes, refused events included. The rules below turn one
statement about a single step into the statement about all runs.
-/

namespace BleCar.Lib.Runs

variable {σ ε : Type*}

/-- The state after the events of `es`, or `none` at the first refused event. -/
def run (step : σ → ε → Option σ) : σ → List ε → Option σ
  | s, [] => some s
  | s, e :: es => (step s e).bind fun t => run step t es

/-- Every state visited satisfies `Q`, the first and the last included. -/
def Always (step : σ → ε → Option σ) (Q : σ → Prop) : σ → List ε → Prop
  | s, [] => Q s
  | s, e :: es => Q s ∧ ∀ t, step s e = some t → Always step Q t es

/-- Every event taken satisfies `P` in the state it is taken in. -/
def Along (step : σ → ε → Option σ) (P : σ → ε → Prop) : σ → List ε → Prop
  | _, [] => True
  | s, e :: es => P s e ∧ ∀ t, step s e = some t → Along step P t es

instance decidableAlong (step : σ → ε → Option σ) (P : σ → ε → Prop)
    [∀ s e, Decidable (P s e)] : ∀ s es, Decidable (Along step P s es)
  | _, [] => isTrue trivial
  | s, e :: es =>
    match h : step s e with
    | none => decidable_of_iff (P s e) ⟨fun hp => ⟨hp, by simp [h]⟩, fun ha => ha.1⟩
    | some t =>
      have := decidableAlong step P t es
      decidable_of_iff (P s e ∧ Along step P t es) (by simp [Along, h])

section Equations

variable (step : σ → ε → Option σ)

@[simp] theorem run_nil (s : σ) : run step s [] = some s := rfl

theorem run_cons (s : σ) (e : ε) (es : List ε) :
    run step s (e :: es) = (step s e).bind fun t => run step t es := rfl

@[simp] theorem run_singleton (s : σ) (e : ε) : run step s [e] = step s e := by
  rw [run_cons]
  cases step s e <;> rfl

theorem run_cons_of_step {s t : σ} {e : ε} (h : step s e = some t) (es : List ε) :
    run step s (e :: es) = run step t es := by
  rw [run_cons, h]
  rfl

theorem run_append (s : σ) (es fs : List ε) :
    run step s (es ++ fs) = (run step s es).bind fun t => run step t fs := by
  induction es generalizing s with
  | nil => rfl
  | cons e es ih =>
    rw [List.cons_append, run_cons, run_cons]
    cases step s e with
    | none => rfl
    | some t => exact ih t

theorem run_append_of_run {s t : σ} {es : List ε} (h : run step s es = some t) (fs : List ε) :
    run step s (es ++ fs) = run step t fs := by
  rw [run_append, h]
  rfl

/-- A run of a list that starts with `e` passes through the state after `e`. -/
theorem run_cons_inv {s u : σ} {e : ε} {es : List ε} (h : run step s (e :: es) = some u) :
    ∃ t, step s e = some t ∧ run step t es = some u :=
  Option.bind_eq_some_iff.mp h

theorem along_append (P : σ → ε → Prop) (s : σ) (es fs : List ε) :
    Along step P s (es ++ fs) ↔
      Along step P s es ∧ ∀ t, run step s es = some t → Along step P t fs := by
  induction es generalizing s with
  | nil => simp [Along]
  | cons e es ih =>
    simp only [List.cons_append, Along, ih, and_assoc]
    constructor
    · rintro ⟨hp, h⟩
      refine ⟨hp, fun t ht => (h t ht).1, fun u hu => ?_⟩
      obtain ⟨t, ht, hr⟩ := run_cons_inv step hu
      exact (h t ht).2 u hr
    · rintro ⟨hp, ha, hf⟩
      refine ⟨hp, fun t ht => ⟨ha t ht, fun u hu => hf u ?_⟩⟩
      rw [run_cons_of_step step ht]
      exact hu

/-- The events of a run were possible where they were taken. -/
theorem along_of_run {s t : σ} {es : List ε} (h : run step s es = some t) :
    Along step (fun s e => ∃ t, step s e = some t) s es := by
  induction es generalizing s with
  | nil => trivial
  | cons e es ih =>
    obtain ⟨m, hm, hr⟩ := run_cons_inv step h
    refine ⟨⟨m, hm⟩, fun u hu => ?_⟩
    rw [hm] at hu
    exact ih (Option.some.inj hu ▸ hr)

theorem along_true (s : σ) (es : List ε) : Along step (fun _ _ => True) s es := by
  induction es generalizing s with
  | nil => trivial
  | cons e es ih => exact ⟨trivial, fun t _ => ih t⟩

/-- What is true of all events of the list can be asked of each step. -/
theorem along_and_of_forall {P : σ → ε → Prop} {C : ε → Prop} {s : σ} {es : List ε}
    (h : Along step P s es) (hC : ∀ e ∈ es, C e) :
    Along step (fun s e => P s e ∧ C e) s es := by
  induction es generalizing s with
  | nil => trivial
  | cons e es ih =>
    refine ⟨⟨h.1, hC e List.mem_cons_self⟩, fun t ht => ih (h.2 t ht) fun e' he' => ?_⟩
    exact hC e' (List.mem_cons_of_mem _ he')

theorem along_mono {P P' : σ → ε → Prop} (h : ∀ s e, P s e → P' s e) {s : σ} {es : List ε}
    (ha : Along step P s es) : Along step P' s es := by
  induction es generalizing s with
  | nil => trivial
  | cons e es ih => exact ⟨h s e ha.1, fun t ht => ih (ha.2 t ht)⟩

theorem always_mono {Q Q' : σ → Prop} (h : ∀ s, Q s → Q' s) (s : σ) (es : List ε) :
    Always step Q s es → Always step Q' s es := by
  induction es generalizing s with
  | nil => exact h s
  | cons e es ih => exact fun ⟨hq, ht⟩ => ⟨h s hq, fun t hs => ih t (ht t hs)⟩

theorem always_head {Q : σ → Prop} {s : σ} {es : List ε} (h : Always step Q s es) : Q s := by
  cases es with
  | nil => exact h
  | cons e es => exact h.1

theorem always_last {Q : σ → Prop} {s t : σ} {es : List ε} (h : Always step Q s es)
    (hr : run step s es = some t) : Q t := by
  induction es generalizing s with
  | nil => exact Option.some.inj hr ▸ h
  | cons e es ih =>
    obtain ⟨m, hm, hr⟩ := run_cons_inv step hr
    exact ih (h.2 m hm) hr

end Equations

section Rules

variable {step : σ → ε → Option σ} {I Q : σ → Prop} {P : σ → ε → Prop}

/-- The invariant rule under a condition on the steps: what one step preserves
where `P` holds, every run whose steps meet `P` preserves. -/
theorem always_of_along (hstep : ∀ s e t, I s → P s e → step s e = some t → I t)
    {s : σ} (hs : I s) (es : List ε) (ha : Along step P s es) : Always step I s es := by
  induction es generalizing s with
  | nil => exact hs
  | cons e es ih =>
    exact ⟨hs, fun t ht => ih (hstep s e t hs ha.1 ht) (ha.2 t ht)⟩

/-- Under an invariant, conditions that agree on each step agree along every run. -/
theorem along_congr {P' : σ → ε → Prop} (hstep : ∀ s e t, I s → step s e = some t → I t)
    (hiff : ∀ s e, I s → (P s e ↔ P' s e)) {s : σ} (hs : I s) (es : List ε) :
    Along step P s es ↔ Along step P' s es := by
  induction es generalizing s with
  | nil => exact Iff.rfl
  | cons e es ih =>
    apply and_congr (hiff s e hs)
    exact forall_congr' fun t => forall_congr' fun ht => ih (hstep s e t hs ht)

/-- The invariant rule. -/
theorem last_of_step (hstep : ∀ s e t, I s → step s e = some t → I t)
    {s t : σ} (hs : I s) {es : List ε} (hr : run step s es = some t) : I t := by
  induction es generalizing s with
  | nil => exact Option.some.inj hr ▸ hs
  | cons e es ih =>
    obtain ⟨m, hm, hr⟩ := run_cons_inv step hr
    exact ih (hstep s e m hs hm) hr

/-- Progress: where an invariant forbids refusal, every event list can be run. -/
theorem exists_run (hstep : ∀ s e t, I s → step s e = some t → I t)
    (hgo : ∀ s e, I s → ∃ t, step s e = some t) {s : σ} (hs : I s) (es : List ε) :
    ∃ t, run step s es = some t := by
  induction es generalizing s with
  | nil => exact ⟨s, rfl⟩
  | cons e es ih =>
    obtain ⟨t, ht⟩ := hgo s e hs
    rw [run_cons_of_step step ht]
    exact ih (hstep s e t hs ht)

/-- An event that lowers a measure can be repeated until the measure is 0. -/
theorem run_descends {v : σ → Nat} {e : ε}
    (hgo : ∀ s, I s → v s ≠ 0 → ∃ t, step s e = some t ∧ I t ∧ v t < v s) {s : σ} (hs : I s) :
    ∃ n ≤ v s, ∃ t, run step s (List.replicate n e) = some t ∧ I t ∧ v t = 0 := by
  induction hv : v s using Nat.strongRecOn generalizing s with
  | ind k ih =>
    subst hv
    by_cases hz : v s = 0
    · exact ⟨0, Nat.zero_le _, s, rfl, hs, hz⟩
    obtain ⟨m, hm, hIm, hlt⟩ := hgo s hs hz
    obtain ⟨n, hn, t, ht, hend⟩ := ih (v m) hlt hIm rfl
    refine ⟨n + 1, by omega, t, ?_, hend⟩
    rw [List.replicate_succ, run_cons_of_step step hm]
    exact ht

/-- Under an invariant `I`, if a step keeps `Q` exactly when it meets `P`, and `Q`
once lost stays lost, then `Q` at the end says that every step met `P`. -/
theorem last_iff_along (hstep : ∀ s e t, I s → step s e = some t → I t)
    (hiff : ∀ s e t, I s → step s e = some t → (Q t ↔ Q s ∧ P s e))
    {s t : σ} (hs : I s) (hq : Q s) {es : List ε} (hr : run step s es = some t) :
    Q t ↔ Along step P s es := by
  have key : ∀ (es : List ε) (s : σ), I s → run step s es = some t →
      (Q t ↔ Q s ∧ Along step P s es) := by
    intro es
    induction es with
    | nil =>
      intro s _ hr
      obtain rfl := Option.some.inj hr
      simp [Along]
    | cons e es ih =>
      intro s hs hr
      obtain ⟨m, hm, hr⟩ := run_cons_inv step hr
      rw [ih m (hstep s e m hs hm) hr, hiff s e m hs hm, and_assoc]
      simp [Along, hm]
  rw [key es s hs hr]
  exact ⟨fun h => h.2, fun h => ⟨hq, h⟩⟩

/-- For the events `A` admits: if from a state of the invariant `I` a step can be made
that obeys `L` and lands in `Q` exactly when it meets `P`, and then back in `I`, then
`L` holds of every step and `Q` throughout exactly when every step met `P`. -/
theorem along_always_iff_along {A L : σ → ε → Prop} (hI : ∀ s, I s → Q s)
    (hstep : ∀ s e, I s → A s e →
      ∃ t, step s e = some t ∧ (L s e ∧ Q t ↔ P s e) ∧ (P s e → I t))
    {s : σ} (hs : I s) {es : List ε} (ha : Along step A s es) :
    Along step L s es ∧ Always step Q s es ↔ Along step P s es := by
  induction es generalizing s with
  | nil => exact ⟨fun _ => trivial, fun _ => ⟨trivial, hI s hs⟩⟩
  | cons e es ih =>
    obtain ⟨m, hm, hiff, hIm⟩ := hstep s e hs ha.1
    have hA := ha.2 m hm
    simp only [Always, Along, hm, Option.some.injEq, forall_eq']
    constructor
    · rintro ⟨⟨hl, hL⟩, -, hQ⟩
      have hp := hiff.mp ⟨hl, always_head step hQ⟩
      exact ⟨hp, (ih (hIm hp) hA).mp ⟨hL, hQ⟩⟩
    · rintro ⟨hp, hP⟩
      obtain ⟨hL, hQ⟩ := (ih (hIm hp) hA).mpr hP
      exact ⟨⟨(hiff.mpr hp).1, hL⟩, hI s hs, hQ⟩

/-- The same without a law for the steps. -/
theorem always_iff_along {A : σ → ε → Prop} (hI : ∀ s, I s → Q s)
    (hstep : ∀ s e, I s → A s e → ∃ t, step s e = some t ∧ (Q t ↔ P s e) ∧ (P s e → I t))
    {s : σ} (hs : I s) {es : List ε} (ha : Along step A s es) :
    Always step Q s es ↔ Along step P s es := by
  have hiff := along_always_iff_along (L := fun _ _ => True) hI
    (fun s e hs he => by simpa only [true_and] using hstep s e hs he) hs ha
  rw [← hiff]
  exact ⟨fun h => ⟨along_true step s es, h⟩, fun h => h.2⟩

end Rules

section Histories

variable {α : Type*}

/-- What `note` says of the events taken, in order. -/
def noted (step : σ → ε → Option σ) (note : σ → ε → List α) : σ → List ε → List α
  | _, [] => []
  | s, e :: es => note s e ++ (step s e).elim [] fun t => noted step note t es

variable {step : σ → ε → Option σ} {note : σ → ε → List α}

/-- The invariant rule for a state and the history so far. -/
theorem noted_of_step {I : σ → List α → Prop}
    (hstep : ∀ s l e t, I s l → step s e = some t → I t (l ++ note s e))
    {s t : σ} {l : List α} (hs : I s l) {es : List ε} (hr : run step s es = some t) :
    I t (l ++ noted step note s es) := by
  induction es generalizing s l with
  | nil =>
    obtain rfl := Option.some.inj hr
    rwa [noted, List.append_nil]
  | cons e es ih =>
    obtain ⟨m, hm, hr⟩ := run_cons_inv step hr
    have hend := ih (hstep s l e m hs hm) hr
    rwa [noted, hm, Option.elim_some, ← List.append_assoc]

end Histories

section Simulation

variable {α ω : Type*} {step : σ → ε → Option σ} {stepA : α → ω → Option α}
  {R : σ → α → Prop} {P : σ → ε → Prop} {PA : α → ω → Prop}

/-- Forward simulation: if each step meeting `P` is matched by some abstract steps meeting
`PA`, then so is each run. -/
theorem simulation
    (hsim : ∀ s e t a, R s a → P s e → step s e = some t →
      ∃ os b, run stepA a os = some b ∧ Along stepA PA a os ∧ R t b)
    {s t : σ} {a : α} (hR : R s a) {es : List ε} (ha : Along step P s es)
    (hr : run step s es = some t) :
    ∃ os b, run stepA a os = some b ∧ Along stepA PA a os ∧ R t b := by
  induction es generalizing s a with
  | nil => exact ⟨[], a, rfl, trivial, Option.some.inj hr ▸ hR⟩
  | cons e es ih =>
    obtain ⟨m, hm, hr⟩ := run_cons_inv step hr
    obtain ⟨os, b, hos, halong, hRm⟩ := hsim s e m a hR ha.1 hm
    obtain ⟨os', c, hos', halong', hRt⟩ := ih hRm (ha.2 m hm) hr
    refine ⟨os ++ os', c, ?_, (along_append stepA PA a os os').mpr ⟨halong, fun u hu => ?_⟩, hRt⟩
    · rw [run_append_of_run stepA hos]
      exact hos'
    · rw [hos] at hu
      exact Option.some.inj hu ▸ halong'

/-- Refinement: if each step meeting `P` is matched by some abstract steps, then so is
each run. -/
theorem refinement
    (hsim : ∀ s e t a, R s a → P s e → step s e = some t →
      ∃ os b, run stepA a os = some b ∧ R t b)
    {s t : σ} {a : α} (hR : R s a) {es : List ε} (ha : Along step P s es)
    (hr : run step s es = some t) : ∃ os b, run stepA a os = some b ∧ R t b := by
  have htrue : ∀ s e t a, R s a → P s e → step s e = some t →
      ∃ os b, run stepA a os = some b ∧ Along stepA (fun _ _ => True) a os ∧ R t b := by
    intro s e t a hR hp hs
    obtain ⟨os, b, hos, hRt⟩ := hsim s e t a hR hp hs
    exact ⟨os, b, hos, along_true stepA a os, hRt⟩
  obtain ⟨os, b, hos, -, hRt⟩ := simulation htrue hR ha hr
  exact ⟨os, b, hos, hRt⟩

/-- Forward simulation of a condition: if each step is matched by abstract steps that meet
`PA` exactly when the step meets `P`, then so is each run. -/
theorem simulation_iff
    (hsim : ∀ s e t a, R s a → step s e = some t →
      ∃ os b, run stepA a os = some b ∧ (P s e ↔ Along stepA PA a os) ∧ R t b)
    {s t : σ} {a : α} (hR : R s a) {es : List ε} (hr : run step s es = some t) :
    ∃ os b, run stepA a os = some b ∧ (Along step P s es ↔ Along stepA PA a os) ∧ R t b := by
  induction es generalizing s a with
  | nil => exact ⟨[], a, rfl, Iff.rfl, Option.some.inj hr ▸ hR⟩
  | cons e es ih =>
    obtain ⟨m, hm, hr⟩ := run_cons_inv step hr
    obtain ⟨os, b, hos, hiff, hRm⟩ := hsim s e m a hR hm
    obtain ⟨os', c, hos', hiff', hRt⟩ := ih hRm hr
    refine ⟨os ++ os', c, (run_append_of_run stepA hos _).trans hos', ?_, hRt⟩
    simp only [along_append, Along, hm, hos, hiff, hiff', Option.some.injEq, forall_eq']

end Simulation

end BleCar.Lib.Runs
