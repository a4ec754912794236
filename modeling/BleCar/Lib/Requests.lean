import Mathlib.Data.List.Nodup
import Mathlib.Data.List.Perm.Basic

/-!
# A service that answers later

Requests are numbered, carried out in the order in which they are made, and each is
reported once, at any time after it has been carried out. No two requests that are owed a
report have the same number, so that a report settles one request and no other.
-/

namespace BleCar.Lib.Requests

/-- `queue` is still to be carried out; `reports` has been, and waits to be reported. -/
structure Service (ω ρ : Type*) where
  next : Nat
  queue : List (Nat × ω)
  reports : List ((Nat × ω) × ρ)
  below : ∀ t ∈ queue ++ reports.map Prod.fst, t.1 < next
  nodup : ((queue ++ reports.map Prod.fst).map Prod.fst).Nodup

namespace Service

variable {ω ρ : Type*}

def empty : Service ω ρ := ⟨0, [], [], by simp, by simp⟩

/-- The requests that are owed a report. -/
def owed (s : Service ω ρ) : List (Nat × ω) := s.queue ++ s.reports.map Prod.fst

/-- The report on request `n` is still to come. -/
def Outstanding (s : Service ω ρ) (n : Nat) : Prop := n ∈ s.owed.map Prod.fst

instance (s : Service ω ρ) (n : Nat) : Decidable (s.Outstanding n) :=
  inferInstanceAs (Decidable (_ ∈ _))

def submit (s : Service ω ρ) (o : ω) : Service ω ρ where
  next := s.next + 1
  queue := s.queue ++ [(s.next, o)]
  reports := s.reports
  below := by
    intro t ht
    have hmem : t ∈ s.owed ∨ t = (s.next, o) := by
      simp only [List.mem_append, List.mem_singleton] at ht
      rw [owed, List.mem_append]
      tauto
    rcases hmem with hmem | rfl
    · exact Nat.lt_succ_of_lt (s.below t hmem)
    · exact Nat.lt_succ_self _
  nodup := by
    have hfresh : s.next ∉ s.owed.map Prod.fst := by
      intro hmem
      obtain ⟨t, ht, heq⟩ := List.mem_map.mp hmem
      exact absurd (s.below t ht) (by omega)
    have hperm : (s.queue ++ [(s.next, o)] ++ s.reports.map Prod.fst).Perm
        ((s.next, o) :: s.owed) := by
      rw [List.append_assoc]
      exact List.perm_middle
    exact (hperm.map Prod.fst).nodup_iff.mpr (List.nodup_cons.mpr ⟨hfresh, s.nodup⟩)

/-- The first request in the queue is carried out, with the result `r`. -/
def complete (s : Service ω ρ) (r : ρ) : Option (ω × Service ω ρ) :=
  match h : s.queue with
  | [] => none
  | t :: queue =>
    have hperm : (queue ++ (s.reports ++ [(t, r)]).map Prod.fst).Perm s.owed := by
      rw [owed, h, List.map_append, ← List.append_assoc]
      exact List.perm_append_singleton t _
    some (t.2, {
      next := s.next
      queue := queue
      reports := s.reports ++ [(t, r)]
      below := fun u hu => s.below u (hperm.subset hu)
      nodup := (hperm.map Prod.fst).nodup_iff.mpr s.nodup })

/-- The report at place `i` is made. -/
def report (s : Service ω ρ) (i : Nat) : Option (((Nat × ω) × ρ) × Service ω ρ) :=
  if h : i < s.reports.length then
    have hsub : (s.queue ++ (s.reports.eraseIdx i).map Prod.fst).Sublist s.owed :=
      (List.Sublist.refl _).append ((List.eraseIdx_sublist _ _).map _)
    some (s.reports[i], {
      next := s.next
      queue := s.queue
      reports := s.reports.eraseIdx i
      below := fun u hu => s.below u (hsub.subset hu)
      nodup := s.nodup.sublist (hsub.map _) })
  else none

section

variable {s u : Service ω ρ}

@[simp] theorem submit_queue (o : ω) : (s.submit o).queue = s.queue ++ [(s.next, o)] := rfl

theorem submit_owed (o : ω) : (s.next, o) ∈ (s.submit o).owed := by
  simp [owed]

theorem complete_inv {r : ρ} {o : ω} (h : s.complete r = some (o, u)) :
    ∃ n, s.queue = (n, o) :: u.queue ∧ u.reports = s.reports ++ [((n, o), r)] := by
  unfold complete at h
  split at h
  case h_1 => cases h
  case h_2 t queue hq =>
    obtain ⟨rfl, rfl⟩ := Prod.mk.inj (Option.some.inj h)
    exact ⟨t.1, hq, rfl⟩

/-- The first request of a queue can be carried out. -/
theorem complete_of_queue {n : Nat} {o : ω} {queue : List (Nat × ω)} (h : s.queue = (n, o) :: queue)
    (r : ρ) : ∃ u, s.complete r = some (o, u) ∧ u.queue = queue ∧
      u.reports = s.reports ++ [((n, o), r)] := by
  unfold complete
  split
  case h_1 hnil =>
    rw [hnil] at h
    cases h
  case h_2 t rest hq =>
    obtain ⟨rfl, rfl⟩ := List.cons.inj (hq.symm.trans h)
    exact ⟨_, rfl, rfl, rfl⟩

/-- What has been carried out can be reported. -/
theorem report_of_get {i : Nat} {x : (Nat × ω) × ρ} (h : s.reports[i]? = some x) :
    ∃ u, s.report i = some (x, u) := by
  obtain ⟨hi, rfl⟩ := List.getElem?_eq_some_iff.mp h
  unfold report
  rw [dif_pos hi]
  exact ⟨_, rfl⟩

theorem report_inv {i : Nat} {x : (Nat × ω) × ρ} (h : s.report i = some (x, u)) :
    u.queue = s.queue ∧ (x :: u.reports).Perm s.reports := by
  unfold report at h
  split at h
  case isFalse => cases h
  case isTrue hi =>
    obtain ⟨rfl, rfl⟩ := Prod.mk.inj (Option.some.inj h)
    exact ⟨rfl, List.getElem_cons_eraseIdx_perm hi⟩

theorem report_get {i : Nat} {x : (Nat × ω) × ρ} (h : s.report i = some (x, u)) :
    s.reports[i]? = some x := by
  unfold report at h
  split at h
  case isFalse => cases h
  case isTrue hi =>
    obtain ⟨rfl, -⟩ := Prod.mk.inj (Option.some.inj h)
    exact List.getElem?_eq_getElem hi

/-- Carrying a request out settles nothing. -/
theorem complete_owed {r : ρ} {o : ω} (h : s.complete r = some (o, u)) : u.owed.Perm s.owed := by
  obtain ⟨n, hq, hr⟩ := complete_inv h
  rw [owed, owed, hq, hr, List.map_append, ← List.append_assoc]
  exact List.perm_append_singleton _ _

/-- A report settles the request it is about. -/
theorem report_owed {i : Nat} {x : (Nat × ω) × ρ} (h : s.report i = some (x, u)) :
    (x.1 :: u.owed).Perm s.owed := by
  obtain ⟨hq, hr⟩ := report_inv h
  rw [owed, owed, hq]
  exact List.perm_middle.symm.trans ((hr.map Prod.fst).append_left s.queue)

/-- A number stands for one request. -/
theorem owed_inj {n : Nat} {o o' : ω} (h : (n, o) ∈ s.owed) (h' : (n, o') ∈ s.owed) : o = o' :=
  (Prod.mk.inj (List.inj_on_of_nodup_map s.nodup h h' rfl)).2

theorem report_settles {i : Nat} {x : (Nat × ω) × ρ} (h : s.report i = some (x, u)) :
    ¬ u.Outstanding x.1.1 := by
  have hnodup := ((report_owed h).map Prod.fst).nodup_iff.mpr s.nodup
  exact (List.nodup_cons.mp hnodup).1

/-- Every other request stays owed its report. -/
theorem report_keeps {i n : Nat} {x : (Nat × ω) × ρ} {o : ω} (h : s.report i = some (x, u))
    (hn : n ≠ x.1.1) (ho : (n, o) ∈ s.owed) : (n, o) ∈ u.owed := by
  rcases List.mem_cons.mp ((report_owed h).symm.subset ho) with heq | hmem
  · exact absurd (congrArg Prod.fst heq) hn
  · exact hmem

theorem outstanding_of_owed {n : Nat} {o : ω} (h : (n, o) ∈ s.owed) : s.Outstanding n :=
  List.mem_map_of_mem h

end

end Service

end BleCar.Lib.Requests
