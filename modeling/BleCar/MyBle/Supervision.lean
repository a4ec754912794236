import BleCar.MyBle.Link

/-!
# Disconnecting an idle link

`my_timeout_handler` counts the ticks of a link on which the peer sends nothing and
requests a disconnect at the thirtieth. It then clears counter and flag whatever the
request returned: after a request that failed the link stays up unsupervised.
-/

namespace BleCar.MyBle.Supervision

open BleCar.Lib.Runs
open BleCar.MyBle.Link

structure Watch where
  app : App
  /-- history: the ticks since the latest of connection, received data and request -/
  since : Nat
  /-- history: a request on this link has succeeded -/
  succeeded : Bool

def boot : Watch := ⟨Link.boot, 0, false⟩

/-- A tick at which a disconnect is requested. -/
def requests (s : App) : Bool := (myTimeoutHandler s).2

def since (w : Watch) : Event → Nat
  | .connected _ _ => 0
  | .write .rxValue _ => 0
  | .tick _ => if requests w.app then 0 else w.since + 1
  | _ => w.since

def succeeded (w : Watch) : Event → Bool
  | .connected _ _ => false
  | .tick code => if requests w.app ∧ code = nrfSuccess then true else w.succeeded
  | _ => w.succeeded

def step (w : Watch) (e : Event) : Option Watch :=
  (Link.step w.app e).map fun t => ⟨t, since w e, succeeded w e⟩

/-- A disconnect is requested exactly at the thirtieth tick in a row without data. -/
def Lawful (w : Watch) : Event → Prop
  | .tick _ => requests w.app = true ↔ w.app.sd.up = true ∧ w.since + 1 = 30
  | _ => True

/-- A link without a successful request is supervised. -/
def Supervised (w : Watch) : Prop :=
  w.app.sd.up = true → w.succeeded = false → w.app.gAppConnectFlag = 1

/-- At every thirtieth tick the request is the first to succeed on its link. -/
def Granted (w : Watch) : Event → Prop
  | .tick code => w.app.sd.up = true → w.since + 1 = 30 → w.succeeded = false ∧ code = nrfSuccess
  | _ => True

/-- Counting, or waiting for the end of the link. -/
inductive Phase (w : Watch) : Prop where
  | down (hup : w.app.sd.up = false) (hf : w.app.gAppConnectFlag = 0)
  | counting (hup : w.app.sd.up = true) (hf : w.app.gAppConnectFlag = 1)
      (hc : w.app.gAppConnectTimeCount.toNat = w.since) (h30 : w.since < 30)
      (hs : w.succeeded = false)
  | leaving (hup : w.app.sd.up = true) (hf : w.app.gAppConnectFlag = 0) (h30 : w.since < 30)
      (hs : w.succeeded = true)

theorem boot_phase : Phase boot := .down rfl rfl

theorem Phase.supervised {w : Watch} (h : Phase w) : Supervised w := by
  intro hup hs
  cases h with
  | down hdown => rw [hdown] at hup; cases hup
  | counting _ hf => exact hf
  | leaving _ _ _ hs' => rw [hs'] at hs; cases hs

/-! ## The timer -/

section

variable {s : App}

theorem timeout_off (hf : s.gAppConnectFlag = 0) :
    myTimeoutHandler s = ({ s with gAppConnectTimeCount := 0 }, false) := by
  rw [myTimeoutHandler, if_neg (by rw [hf]; decide)]

theorem timeout_count (hf : s.gAppConnectFlag = 1) (h : s.gAppConnectTimeCount.toNat + 1 < 30) :
    myTimeoutHandler s =
      ({ s with gAppConnectTimeCount := s.gAppConnectTimeCount + 1 }, false) := by
  have hlt : ¬ s.gAppConnectTimeCount + 1 ≥ 30 := by
    rw [ge_iff_le, UInt8.le_iff_toNat_le, UInt8.toNat_add]
    simp
    omega
  exact (if_pos hf).trans (if_neg hlt)

theorem timeout_request (hf : s.gAppConnectFlag = 1) (h : s.gAppConnectTimeCount.toNat + 1 = 30) :
    myTimeoutHandler s = ({ s with gAppConnectTimeCount := 0, gAppConnectFlag := 0 }, true) := by
  have hge : s.gAppConnectTimeCount + 1 ≥ 30 := by
    rw [ge_iff_le, UInt8.le_iff_toNat_le, UInt8.toNat_add]
    simp
    omega
  have hreq : ∀ count, myBleDisconnect { s with gAppConnectTimeCount := count } = true := by
    intro count
    simp [myBleDisconnect, hf]
  refine ((if_pos hf).trans (if_pos hge)).trans ?_
  rw [hreq]

end

/-! ## One tick -/

section

variable {w : Watch} {code : UInt32}

/-- The tick before the thirtieth asks for nothing. -/
theorem tick_undue (hreq : requests w.app = false)
    (hdue : ¬ (w.app.sd.up = true ∧ w.since + 1 = 30)) :
    Lawful w (.tick code) ∧ Granted w (.tick code) := by
  constructor
  · exact iff_of_false (by rw [hreq]; decide) hdue
  · exact fun hup h30 => absurd ⟨hup, h30⟩ hdue

/-- A tick that obeys the law, is granted and leads to a phase. -/
theorem tick_kept {t : Watch} (h : Lawful w (.tick code) ∧ Granted w (.tick code)) (ht : Phase t) :
    (Lawful w (.tick code) ∧ Supervised t ↔ Granted w (.tick code)) ∧
      (Granted w (.tick code) → Phase t) :=
  ⟨iff_of_true ⟨h.1, ht.supervised⟩ h.2, fun _ => ht⟩

/-- A tick that is not granted breaks the law, or leaves the link unsupervised. -/
theorem tick_lost {t : Watch} (hg : ¬ Granted w (.tick code))
    (h : ¬ (Lawful w (.tick code) ∧ Supervised t)) :
    (Lawful w (.tick code) ∧ Supervised t ↔ Granted w (.tick code)) ∧
      (Granted w (.tick code) → Phase t) :=
  ⟨iff_of_false h hg, fun hgranted => absurd hgranted hg⟩

theorem tick_supervised (h : Phase w) (code : UInt32) :
    (Lawful w (.tick code) ∧
        Supervised ⟨(myTimeoutHandler w.app).1, since w (.tick code), succeeded w (.tick code)⟩ ↔
      Granted w (.tick code)) ∧
    (Granted w (.tick code) →
      Phase ⟨(myTimeoutHandler w.app).1, since w (.tick code), succeeded w (.tick code)⟩) := by
  cases h with
  | down hup hf =>
    have hreq : requests w.app = false := by rw [requests, timeout_off hf]
    rw [timeout_off hf]
    exact tick_kept (tick_undue hreq (by rw [hup]; simp)) (.down hup hf)
  | counting hup hf hc h30 hs =>
    by_cases hdue : w.since + 1 = 30
    · have hreq : requests w.app = true := by rw [requests, timeout_request hf (by omega)]
      have hlaw : Lawful w (.tick code) := iff_of_true hreq ⟨hup, hdue⟩
      rw [timeout_request hf (by omega)]
      by_cases hcode : code = nrfSuccess
      · have hsucc : succeeded w (.tick code) = true := by simp [succeeded, hreq, hcode]
        exact tick_kept ⟨hlaw, fun _ _ => ⟨hs, hcode⟩⟩
          (.leaving hup rfl (by simp [since, hreq]) hsucc)
      · -- the request fails and the flag is down all the same
        have hfail : succeeded w (.tick code) = false := by simp [succeeded, hcode, hs]
        refine tick_lost (fun hg => hcode (hg hup hdue).2) fun hq => ?_
        exact absurd (show (0 : UInt8) = 1 from hq.2 hup hfail) (by decide)
    · have hreq : requests w.app = false := by rw [requests, timeout_count hf (by omega)]
      have hcount : (w.app.gAppConnectTimeCount + 1).toNat = w.since + 1 := by
        rw [UInt8.toNat_add, hc, show (1 : UInt8).toNat = 1 from rfl]
        omega
      have hsince : since w (.tick code) = w.since + 1 := by simp [since, hreq]
      rw [timeout_count hf (by omega), hsince]
      refine tick_kept (tick_undue hreq fun hd => hdue hd.2) (.counting hup hf hcount ?_ ?_)
      · change w.since + 1 < 30
        omega
      · simp [succeeded, hreq, hs]
  | leaving hup hf h30 hs =>
    have hreq : requests w.app = false := by rw [requests, timeout_off hf]
    have hsucc : succeeded w (.tick code) = true := by simp [succeeded, hreq, hs]
    rw [timeout_off hf]
    by_cases hdue : w.since + 1 = 30
    · -- the link was to end before its next request was due
      refine tick_lost (fun hg => ?_) fun hq => ?_
      · have hno := (hg hup hdue).1
        rw [hs] at hno; cases hno
      · have hlaw := hq.1.mpr ⟨hup, hdue⟩
        rw [hreq] at hlaw; cases hlaw
    · refine tick_kept (tick_undue hreq fun hd => hdue hd.2) (.leaving hup hf ?_ hsucc)
      simp only [since, hreq, Bool.false_eq_true, if_false]
      omega

end

/-- Every other event keeps the phase, or starts or ends a link. -/
theorem stepped_phase {w : Watch} {e : Event} {t : App} (h : Phase w) (hs : Stepped w.app e t)
    (he : ∀ code, e ≠ .tick code) : Phase ⟨t, since w e, succeeded w e⟩ := by
  have hkeep : t.sd.up = w.app.sd.up → t.gAppConnectFlag = w.app.gAppConnectFlag →
      t.gAppConnectTimeCount = w.app.gAppConnectTimeCount → since w e = w.since →
      succeeded w e = w.succeeded → Phase ⟨t, since w e, succeeded w e⟩ := by
    intro hu hf hc hsi hsu
    cases h with
    | down hup hflag => exact .down (hu.trans hup) (hf.trans hflag)
    | counting hup hflag hcount h30 hno =>
      exact .counting (hu.trans hup) (hf.trans hflag) (by rw [hsi]; exact hc ▸ hcount)
        (by rw [hsi]; exact h30) (hsu.trans hno)
    | leaving hup hflag h30 hyes =>
      exact .leaving (hu.trans hup) (hf.trans hflag) (by rw [hsi]; exact h30) (hsu.trans hyes)
  cases hs with
  | linked hup => exact .counting rfl rfl rfl (show 0 < 30 by decide) rfl
  | unlinked hup => exact .down rfl rfl
  | cccd hup data hlen =>
    refine hkeep ?_ ?_ ?_ rfl rfl
    all_goals
      rw [onWrite, if_pos ⟨rfl, hlen⟩]
      split <;> rfl
  | data hup data =>
    cases h with
    | down hdown => rw [hdown] at hup; cases hup
    | counting _ hf _ _ hno => exact .counting hup hf rfl (by simp [since]) hno
    | leaving _ hf _ hyes => exact .leaving hup hf (by simp [since]) hyes
  | ignored hup data => exact hkeep rfl rfl rfl rfl rfl
  | attrs hup e hcase =>
    rcases hcase with rfl | rfl
    · exact hkeep rfl rfl rfl rfl rfl
    · exact hkeep rfl rfl rfl rfl rfl
  | ticked code => exact absurd rfl (he code)
  | reset e hr => exact .down rfl rfl

/-- For every run: each request comes at the thirtieth tick without data and at no other,
and a link is supervised until a request succeeds, exactly if every request succeeds and
ends its link before the next thirty ticks. -/
theorem supervision_exact_iff (es : List Event) (u : Watch) (h : run step boot es = some u) :
    Along step Lawful boot es ∧ Always step Supervised boot es ↔ Along step Granted boot es := by
  refine along_always_iff_along (I := Phase) (fun _ hw => hw.supervised) ?_ boot_phase
    (along_of_run step h)
  rintro w e hw ⟨v, hv⟩
  refine ⟨v, hv, ?_⟩
  obtain ⟨t, ht, rfl⟩ := Option.map_eq_some_iff.mp hv
  by_cases htick : ∃ code, e = .tick code
  · obtain ⟨code, rfl⟩ := htick
    obtain rfl := Option.some.inj ht
    exact tick_supervised hw code
  · have hphase := stepped_phase hw (step_stepped ht) fun code heq => htick ⟨code, heq⟩
    have hfree : Lawful w e ∧ Granted w e := by
      cases e with
      | tick code => exact absurd ⟨code, rfl⟩ htick
      | _ => exact ⟨trivial, trivial⟩
    exact ⟨⟨fun _ => hfree.2, fun _ => ⟨hfree.1, hphase.supervised⟩⟩, fun _ => hphase⟩

/-- A link on which nothing is received, and thirty ticks; the request returns `code`. -/
def silence (code : UInt32) : List Event := .connected 0 0 :: List.replicate 30 (.tick code)

theorem supervision_exact_iff_granted :
    Along step Lawful boot (silence 0) ∧ Always step Supervised boot (silence 0) ↔
      Along step Granted boot (silence 0) :=
  supervision_exact_iff (silence 0) _ rfl

/-- A request that fails ends the supervision of a link that stays up. -/
theorem failed_request_unsupervised :
    ¬ ∀ (es : List Event) (u : Watch), run step boot es = some u → Supervised u := by
  intro h
  have hu := h (silence 8) _ rfl
  exact absurd (hu (by decide) (by decide)) (by decide)

end BleCar.MyBle.Supervision
