import BleCar.MyBle.Flash

/-!
# One record in flash

`my_flash_init` leaves the record it writes in the queue of FDS. A later
`my_fds_once_write` finds the record, and updates it, once that write has been carried
out. A search that comes before it finds nothing and writes a second record.
-/

namespace BleCar.MyBle.Storage

open BleCar.Lib.Runs
open BleCar.Lib.Requests
open BleCar.MyBle.Link (nrfSuccess)
open BleCar.MyBle.Flash

structure Store where
  app : App
  /-- history: `m_dummy_cfg` as `my_fds_once_write` was last called -/
  atCall : Configuration
  /-- history: the last step was a return of `fds_once_storage` from its wait -/
  returned : Bool

def boot (flash : List Record) : Store :=
  ⟨Flash.boot flash, (Flash.boot flash).mDummyCfg, false⟩

/-- The waits `fds_once_storage` returns from. -/
def inWait : Pos → Bool
  | .waitForFdsUpdate _ => true
  | .waitForFdsWrite _ => true
  | _ => false

def atCall (w : Store) (t : App) : Event → Configuration
  | .fdsOnceStorage _ _ _ => t.mDummyCfg
  | _ => w.atCall

def step (w : Store) (e : Event) : Option Store :=
  (Flash.step w.app e).map fun t => ⟨t, atCall w t e, inWait w.app.pos && t.pos = .idle⟩

/-- After a return, one valid record is the configuration, as it was at the call. -/
def Stored (w : Store) : Prop :=
  w.returned = true → ∃ r, w.app.flash.filter isConfig = [r] ∧ r.data = w.atCall

/-- Every operation that is carried out succeeds. -/
def Succeeds : Event → Prop
  | .failed _ _ => False
  | _ => True

/-- The record is not looked for while its write is in the queue. -/
def Settled (w : Store) : Event → Prop
  | .main _ => w.app.pos = .fdsRecordFind → ∀ t ∈ w.app.fds.queue, t.2.evtId ≠ .write
  | _ => True

instance decidableSucceeds : ∀ e, Decidable (Succeeds e)
  | .failed _ _ => isFalse id
  | .main _ | .fdsOnceStorage _ _ _ | .done _ | .signal _ => isTrue trivial

instance decidableSettled (w : Store) : ∀ e, Decidable (Settled w e)
  | .main _ => inferInstanceAs (Decidable (_ → _))
  | .fdsOnceStorage _ _ _ | .done _ | .failed _ _ | .signal _ => isTrue trivial

/-! ## Where the record is -/

/-- The completions of a kind that have not been signalled. -/
def owes (s : App) (id : EvtId) : Nat := (s.fds.reports.map fun x => x.1.2.evtId).count id

/-- The flash holds one record, the configuration. -/
def One (s : App) (P : Record → Prop) : Prop := ∃ r, s.flash = [r] ∧ isConfig r = true ∧ P r

def AtMostOne (s : App) : Prop := s.flash = [] ∨ One s fun _ => True

/-- The record that is about to be updated. -/
def Named (s : App) : Prop :=
  s.mFdsUpdateFlag = false ∧ One s fun r => r.recordId = s.desc

/-- With nothing in the queue: what the flash holds at each place of the program. -/
def Calm (s : App) : Pos → Prop
  | .waitForFdsReady | .readWaitForFdsReady | .readFdsStat | .readFdsRecordFind =>
    AtMostOne s
  | .readFdsRecordOpen | .readFdsRecordClose | .idle | .fdsStat | .fdsRecordFind =>
    One s fun _ => True
  | .readFdsRecordWrite => s.flash = []
  | .fdsRecordUpdate => One s fun r => r.recordId = s.desc
  | .fdsGc | .waitForFdsGc _ | .fdsRecordUpdateAgain => Named s
  | .waitForFdsUpdate _ => One s fun r => r.data = s.mDummyCfg
  | .fdsInit | .fdsRecordWrite | .waitForFdsWrite _ => False

/-- Where the program is, what is in the queue and which events are to come. -/
inductive Phase (s : App) : Prop
  | booting (hpos : s.pos = .fdsInit) (hqueue : s.fds.queue = []) (hreports : s.fds.reports = [])
    (hflag : s.mFdsInitializedFalg = false) (hflash : AtMostOne s)
  | starting (n : Nat) (hpos : s.pos = .waitForFdsReady) (hqueue : s.fds.queue = [(n, .init)])
    (hreports : s.fds.reports = []) (hflag : s.mFdsInitializedFalg = false)
    (hflash : AtMostOne s)
  | calm (hqueue : s.fds.queue = []) (hupdate : owes s .update = 0) (hgc : owes s .gc = 0)
    (hflash : Calm s s.pos)
  | pending (n : Nat) (recordId : UInt32)
    (hpos : s.pos = .idle ∨ s.pos = .fdsStat ∨ s.pos = .fdsRecordFind)
    (hqueue : s.fds.queue = [(n, .write recordId)]) (hupdate : owes s .update = 0)
    (hgc : owes s .gc = 0) (hflash : s.flash = [])
  | collecting (op : Nat) (hpos : s.pos = .waitForFdsGc op) (hflag : s.mFdsGcFlag = false)
    (hfds : (∃ n, s.fds.queue = [(n, .gc)]) ∧ owes s .gc = 0 ∨
      s.fds.queue = [] ∧ owes s .gc = 1)
    (hupdate : owes s .update = 0) (hflash : Named s)
  | updating (op : Nat) (hpos : s.pos = .waitForFdsUpdate op) (hflag : s.mFdsUpdateFlag = false)
    (hfds : (∃ n recordId recordToDelete,
        s.fds.queue = [(n, .update recordId recordToDelete)] ∧
          One s fun r => r.recordId = recordToDelete) ∧ owes s .update = 0 ∨
      (s.fds.queue = [] ∧ One s fun r => r.data = s.mDummyCfg) ∧ owes s .update = 1)
    (hgc : owes s .gc = 0)

theorem One.weaken {s t : App} {P Q : Record → Prop} (h : One s P) (hflash : t.flash = s.flash)
    (hPQ : ∀ r, P r → Q r) : One t Q := by
  obtain ⟨r, hr, hc, hp⟩ := h
  exact ⟨r, hflash.trans hr, hc, hPQ r hp⟩

theorem One.atMostOne {s : App} {P : Record → Prop} (h : One s P) : AtMostOne s :=
  .inr (h.weaken rfl fun _ _ => trivial)

theorem Calm.atMostOne {s : App} (h : Calm s s.pos) : AtMostOne s := by
  cases hpos : s.pos <;> rw [hpos] at h <;>
    first | exact h | exact One.atMostOne h | exact .inl h | exact h.2.atMostOne | exact h.elim

theorem Phase.atMostOne {s : App} (h : Phase s) : AtMostOne s := by
  cases h with
  | booting _ _ _ _ hflash => exact hflash
  | starting _ _ _ _ _ hflash => exact hflash
  | calm _ _ _ hflash => exact hflash.atMostOne
  | pending _ _ _ _ _ _ hflash => exact .inl hflash
  | collecting _ _ _ _ _ hflash => exact hflash.2.atMostOne
  | updating _ _ _ hfds =>
    rcases hfds with ⟨⟨_, _, _, _, hflash⟩, -⟩ | ⟨⟨-, hflash⟩, -⟩
    · exact hflash.atMostOne
    · exact hflash.atMostOne

theorem AtMostOne.boot {s : App} (h : AtMostOne s) : Phase (Flash.boot s.flash) :=
  .booting rfl rfl rfl rfl h

theorem Phase.checked {s : App} (h : Phase s) (code : UInt32) : Phase (appErrorCheck code s) := by
  unfold appErrorCheck
  split
  · exact h
  · exact h.atMostOne.boot

/-! ## The program -/

theorem One.find {s : App} {P : Record → Prop} (h : One s P) :
    ∃ r, fdsRecordFind s.flash = some r ∧ s.flash = [r] ∧ isConfig r = true := by
  obtain ⟨r, hr, hc, -⟩ := h
  refine ⟨r, ?_, hr, hc⟩
  rw [fdsRecordFind, hr]
  exact List.find?_cons_of_pos hc

theorem fdsRecordFind_nil {flash : List Record} (h : flash = []) : fdsRecordFind flash = none := by
  rw [h]
  rfl

theorem calm_main {s t : App} {code : UInt32} (hqueue : s.fds.queue = [])
    (hupdate : owes s .update = 0) (hgc : owes s .gc = 0) (hflash : Calm s s.pos)
    (h : mainStep code s = some t) : Phase t := by
  have hsubmit : ∀ o, (s.fds.submit o).queue = [(s.fds.next, o)] := by
    intro o
    rw [Service.submit_queue, hqueue, List.nil_append]
  cases hpos : s.pos <;> rw [hpos] at hflash
  case fdsInit | fdsRecordWrite | waitForFdsWrite => exact hflash.elim
  case idle =>
    rw [mainStep, hpos] at h
    cases h
  case waitForFdsReady | readWaitForFdsReady | waitForFdsGc =>
    rw [mainStep, hpos] at h
    obtain rfl := Option.some.inj h
    unfold waitFor
    split
    · exact .calm hqueue hupdate hgc hflash
    · exact .calm hqueue hupdate hgc (hpos ▸ hflash)
  case waitForFdsUpdate =>
    rw [mainStep, hpos] at h
    obtain rfl := Option.some.inj h
    unfold waitFor
    split
    · exact .calm hqueue hupdate hgc (hflash.weaken rfl fun _ _ => trivial)
    · exact .calm hqueue hupdate hgc (hpos ▸ hflash)
  case readFdsStat | readFdsRecordClose | fdsStat =>
    rw [mainStep, hpos] at h
    obtain rfl := Option.some.inj h
    apply Phase.checked
    exact .calm hqueue hupdate hgc hflash
  case readFdsRecordFind =>
    rw [mainStep, hpos] at h
    rcases hflash with hnone | hone
    · rw [fdsRecordFind_nil hnone] at h
      obtain rfl := Option.some.inj h
      exact .calm hqueue hupdate hgc hnone
    · obtain ⟨r, hr, -⟩ := hone.find
      rw [hr] at h
      obtain rfl := Option.some.inj h
      exact .calm hqueue hupdate hgc hone
  case readFdsRecordOpen =>
    simp only [mainStep, hpos] at h
    split at h
    · obtain ⟨config, -, rfl⟩ := Option.map_eq_some_iff.mp h
      exact .calm hqueue hupdate hgc hflash
    · obtain rfl := Option.some.inj h
      exact (One.atMostOne hflash).boot
  case readFdsRecordWrite =>
    rw [mainStep, hpos] at h
    obtain rfl := Option.some.inj h
    apply Phase.checked
    exact .pending _ _ (.inl rfl) (hsubmit _) hupdate hgc hflash
  case fdsRecordFind =>
    obtain ⟨r, hr, hone, hc⟩ := hflash.find
    rw [mainStep, hpos, hr] at h
    obtain rfl := Option.some.inj h
    exact .calm hqueue hupdate hgc ⟨r, hone, hc, rfl⟩
  case fdsRecordUpdate =>
    simp only [mainStep, hpos] at h
    split at h
    all_goals obtain rfl := Option.some.inj h
    · exact .updating _ rfl rfl (.inl ⟨⟨_, _, _, hsubmit _, hflash⟩, hupdate⟩) hgc
    · exact .calm hqueue hupdate hgc ⟨rfl, hflash⟩
  case fdsGc =>
    rw [mainStep, hpos] at h
    obtain rfl := Option.some.inj h
    apply Phase.checked
    exact .collecting _ rfl rfl (.inl ⟨⟨_, hsubmit _⟩, hgc⟩) hupdate hflash
  case fdsRecordUpdateAgain =>
    simp only [mainStep, hpos] at h
    split at h
    all_goals obtain rfl := Option.some.inj h
    · exact .updating _ rfl hflash.1 (.inl ⟨⟨_, _, _, hsubmit _, hflash.2⟩, hupdate⟩) hgc
    · exact .calm hqueue hupdate hgc (hflash.2.weaken rfl fun _ _ => trivial)

/-- A step of the program. The record is found, or nothing is looked for. -/
theorem phase_main {s t : App} {code : UInt32} (hs : Phase s) (h : mainStep code s = some t)
    (hsettled : s.pos = .fdsRecordFind → ∀ t ∈ s.fds.queue, t.2.evtId ≠ .write) : Phase t := by
  cases hs with
  | booting hpos hqueue hreports hflag hflash =>
    rw [mainStep, hpos] at h
    obtain rfl := Option.some.inj h
    have hsubmit : (s.fds.submit .init).queue = [(s.fds.next, .init)] := by
      rw [Service.submit_queue, hqueue, List.nil_append]
    apply Phase.checked
    exact .starting _ rfl hsubmit hreports hflag hflash
  | starting n hpos hqueue hreports hflag hflash =>
    rw [mainStep, hpos, hflag] at h
    obtain rfl := Option.some.inj h
    exact .starting n hpos hqueue hreports hflag hflash
  | calm hqueue hupdate hgc hflash => exact calm_main hqueue hupdate hgc hflash h
  | pending n recordId hpos hqueue hupdate hgc hflash =>
    rcases hpos with hpos | hpos | hpos
    · rw [mainStep, hpos] at h
      cases h
    · rw [mainStep, hpos] at h
      obtain rfl := Option.some.inj h
      apply Phase.checked
      exact .pending n recordId (.inr (.inr rfl)) hqueue hupdate hgc hflash
    · -- the search would miss the record
      refine absurd rfl (hsettled hpos (n, .write recordId) ?_)
      rw [hqueue]
      exact List.mem_singleton_self _
  | collecting op hpos hflag hfds hupdate hflash =>
    rw [mainStep, hpos, hflag] at h
    obtain rfl := Option.some.inj h
    exact .collecting op hpos hflag hfds hupdate hflash
  | updating op hpos hflag hfds hgc =>
    rw [mainStep, hpos, hflag] at h
    obtain rfl := Option.some.inj h
    exact .updating op hpos hflag hfds hgc

/-- `fds_once_storage` is called. -/
theorem Phase.called {s : App} (h : Phase s) (hpos : s.pos = .idle) (flag : UInt8)
    (sensorBleCode sensorPassword : Vector UInt8 16) :
    Phase (fdsOnceStorage flag sensorBleCode sensorPassword s) := by
  have hcfg : ∀ cfg, Phase { s with pos := .fdsStat, mDummyCfg := cfg } := by
    intro cfg
    cases h with
    | booting hboot | starting _ hboot | collecting _ hboot | updating _ hboot =>
      rw [hpos] at hboot
      cases hboot
    | calm hqueue hupdate hgc hflash =>
      rw [hpos] at hflash
      exact .calm hqueue hupdate hgc hflash
    | pending n recordId _ hqueue hupdate hgc hflash =>
      exact .pending n recordId (.inr (.inl rfl)) hqueue hupdate hgc hflash
  unfold fdsOnceStorage
  split
  · exact hcfg _
  · exact hcfg s.mDummyCfg

/-! ## FDS -/

section

variable {s : App} {fds : Service Op UInt32}

/-- A completed operation is owed one event of its kind more. -/
theorem complete_owes {r : UInt32} {o : Op} (h : s.fds.complete r = some (o, fds))
    (flash : List Record) (id : EvtId) :
    owes { s with fds := fds, flash := flash } id = owes s id + if o.evtId = id then 1 else 0 := by
  obtain ⟨n, -, hr⟩ := Service.complete_inv h
  simp only [owes, hr, List.map_append, List.count_append, List.map_singleton,
    List.count_singleton, beq_iff_eq]

/-- A signalled event is owed no more. -/
theorem report_owes {i : Nat} {x : (Nat × Op) × UInt32} (h : s.fds.report i = some (x, fds))
    (id : EvtId) :
    owes s id = owes { s with fds := fds } id + if x.1.2.evtId = id then 1 else 0 := by
  obtain ⟨-, hr⟩ := Service.report_inv h
  have hcount := (hr.map fun x => x.1.2.evtId).count_eq id
  rw [List.map_cons, List.count_cons] at hcount
  simpa only [owes, beq_iff_eq] using hcount.symm

end

/-- A record written to empty flash is the only one. -/
theorem writeExecute_one {s : App} (recordId : UInt32) (place : Nat) (cfg : Configuration)
    (h : s.flash = []) :
    One { s with flash := writeExecute recordId place cfg s.flash } fun r => r.data = cfg := by
  refine ⟨⟨recordId, configFile, configRecKey, cfg⟩, ?_, by simp [isConfig], rfl⟩
  simp [writeExecute, h]

/-- An operation is carried out, with success. -/
theorem phase_done {s : App} {op : Op} {fds : Service Op UInt32} {place : Nat}
    {flash : List Record} (hs : Phase s) (hc : s.fds.complete nrfSuccess = some (op, fds))
    (hx : execute place s.mDummyCfg s.flash op = some flash) :
    Phase { s with fds := fds, flash := flash } := by
  have howes := complete_owes hc flash
  obtain ⟨m, hm, hreports⟩ := Service.complete_inv hc
  have hidle : s.fds.queue ≠ [] := by simp [hm]
  cases hs with
  | booting _ hqueue => exact absurd hqueue hidle
  | calm hqueue => exact absurd hqueue hidle
  | starting n hpos hqueue hnone hflag hflash =>
    obtain ⟨h1, h2⟩ := List.cons.inj (hm.symm.trans hqueue)
    obtain ⟨rfl, rfl⟩ := Prod.mk.inj h1
    obtain rfl := Option.some.inj hx
    refine .calm h2 ?_ ?_ ?_
    · rw [howes]
      simp [owes, hnone, Op.evtId]
    · rw [howes]
      simp [owes, hnone, Op.evtId]
    · rw [hpos]
      exact hflash
  | pending n recordId hpos hqueue hupdate hgc hflash =>
    obtain ⟨h1, h2⟩ := List.cons.inj (hm.symm.trans hqueue)
    obtain ⟨rfl, rfl⟩ := Prod.mk.inj h1
    obtain rfl := Option.some.inj hx
    have hone := writeExecute_one recordId place s.mDummyCfg hflash
    refine .calm h2 ?_ ?_ ?_
    · rw [howes, hupdate]
      rfl
    · rw [howes, hgc]
      rfl
    · rcases hpos with hpos | hpos | hpos
      all_goals
        rw [hpos]
        exact hone.weaken rfl fun _ _ => trivial
  | collecting n hpos hflag hfds hupdate hflash =>
    rcases hfds with ⟨⟨n, hqueue⟩, hgc⟩ | ⟨hqueue, -⟩
    case inr => exact absurd hqueue hidle
    obtain ⟨h1, h2⟩ := List.cons.inj (hm.symm.trans hqueue)
    obtain ⟨rfl, rfl⟩ := Prod.mk.inj h1
    obtain rfl := Option.some.inj hx
    refine .collecting _ hpos hflag (.inr ⟨h2, ?_⟩) ?_ hflash
    · rw [howes, hgc]
      rfl
    · rw [howes, hupdate]
      rfl
  | updating n hpos hflag hfds hgc =>
    rcases hfds with ⟨⟨n, recordId, recordToDelete, hqueue, hflash⟩, hupdate⟩ | ⟨⟨hqueue, -⟩, -⟩
    case inr => exact absurd hqueue hidle
    obtain ⟨h1, h2⟩ := List.cons.inj (hm.symm.trans hqueue)
    obtain ⟨rfl, rfl⟩ := Prod.mk.inj h1
    obtain ⟨r, hr, -, rfl⟩ := hflash
    simp only [execute, hr, List.any_cons, decide_true, Bool.true_or, if_true,
      List.eraseP_cons_of_pos, Option.some.injEq] at hx
    subst hx
    have hone := writeExecute_one recordId place s.mDummyCfg (s := { s with flash := [] }) rfl
    refine .updating _ hpos hflag (.inr ⟨⟨h2, hone⟩, ?_⟩) ?_
    · rw [howes, hupdate]
      rfl
    · rw [howes, hgc]
      rfl

/-- A flag goes up for its own event only. -/
theorem fdsEvtHandler_flags (id : EvtId) (result : UInt32) (s : App) :
    ∃ initialized update write gc,
      fdsEvtHandler id result s =
        { s with
          mFdsInitializedFalg := initialized
          mFdsUpdateFlag := update
          mFdsWriteFlag := write
          mFdsGcFlag := gc } ∧
      (id ≠ .update → update = s.mFdsUpdateFlag) ∧ (id ≠ .gc → gc = s.mFdsGcFlag) := by
  by_cases hr : result = nrfSuccess
  case neg =>
    rw [fdsEvtHandler_failed hr]
    exact ⟨_, _, _, _, rfl, fun _ => rfl, fun _ => rfl⟩
  subst hr
  cases id with
  | update => exact ⟨_, _, _, _, rfl, fun h => absurd rfl h, fun _ => rfl⟩
  | gc => exact ⟨_, _, _, _, rfl, fun _ => rfl, fun h => absurd rfl h⟩
  | _ => exact ⟨_, _, _, _, rfl, fun _ => rfl, fun _ => rfl⟩

theorem Calm.congr {s t : App} {p : Pos} (h : Calm s p) (hflash : t.flash = s.flash)
    (hdesc : t.desc = s.desc) (hcfg : t.mDummyCfg = s.mDummyCfg)
    (hflag : t.mFdsUpdateFlag = s.mFdsUpdateFlag) : Calm t p := by
  cases p <;> first
    | exact h.elim
    | simpa only [Calm, AtMostOne, One, Named, hflash, hdesc, hcfg, hflag] using h

/-- A completion is signalled. -/
theorem phase_signal {s : App} {i : Nat} {x : (Nat × Op) × UInt32} {fds : Service Op UInt32}
    (hs : Phase s) (h : s.fds.report i = some (x, fds)) :
    Phase (fdsEvtHandler x.1.2.evtId x.2 { s with fds := fds }) := by
  have howes := report_owes h
  obtain ⟨hq, hperm⟩ := Service.report_inv h
  have hsome : s.fds.reports ≠ [] := by
    intro hnil
    rw [hnil] at hperm
    exact absurd hperm.length_eq (by simp)
  obtain ⟨initialized, update, write, gc, heq, hu, hg⟩ :=
    fdsEvtHandler_flags x.1.2.evtId x.2 { s with fds := fds }
  have hfree : ∀ id, owes s id = 0 → x.1.2.evtId ≠ id ∧ owes { s with fds := fds } id = 0 := by
    intro id hzero
    have hsum := howes id
    split at hsum
    · omega
    · exact ⟨‹_›, by omega⟩
  rw [heq]
  cases hs with
  | booting _ _ hreports => exact absurd hreports hsome
  | starting _ _ _ hreports => exact absurd hreports hsome
  | calm hqueue hupdate hgc hflash =>
    obtain ⟨hne, hupdate⟩ := hfree .update hupdate
    exact .calm (hq.trans hqueue) hupdate (hfree .gc hgc).2
      (hflash.congr rfl rfl rfl (hu hne))
  | pending n recordId hpos hqueue hupdate hgc hflash =>
    exact .pending n recordId hpos (hq.trans hqueue) (hfree .update hupdate).2 (hfree .gc hgc).2
      hflash
  | collecting op hpos hflag hfds hupdate hflash =>
    obtain ⟨hne, hupdate⟩ := hfree .update hupdate
    have hnamed : Named { s with
        fds := fds
        mFdsInitializedFalg := initialized
        mFdsUpdateFlag := update
        mFdsWriteFlag := write
        mFdsGcFlag := gc } := ⟨(hu hne).trans hflash.1, hflash.2⟩
    rcases hfds with ⟨⟨n, hqueue⟩, hgc⟩ | ⟨hqueue, hgc⟩
    · obtain ⟨hne', hgc⟩ := hfree .gc hgc
      exact .collecting op hpos ((hg hne').trans hflag) (.inl ⟨⟨n, hq.trans hqueue⟩, hgc⟩) hupdate
        hnamed
    · have hsum := howes .gc
      split at hsum
      case isTrue =>
        refine .calm (hq.trans hqueue) hupdate ?_ ?_
        · change owes { s with fds := fds } .gc = 0
          omega
        · change Calm _ s.pos
          rw [hpos]
          exact hnamed
      case isFalse hne' =>
        refine .collecting op hpos ((hg hne').trans hflag) (.inr ⟨hq.trans hqueue, ?_⟩) hupdate
          hnamed
        change owes { s with fds := fds } .gc = 1
        omega
  | updating op hpos hflag hfds hgc =>
    obtain ⟨-, hgc⟩ := hfree .gc hgc
    rcases hfds with ⟨⟨n, recordId, recordToDelete, hqueue, hflash⟩, hupdate⟩ |
      ⟨⟨hqueue, hflash⟩, hupdate⟩
    · obtain ⟨hne, hupdate⟩ := hfree .update hupdate
      exact .updating op hpos ((hu hne).trans hflag)
        (.inl ⟨⟨n, recordId, recordToDelete, hq.trans hqueue, hflash⟩, hupdate⟩) hgc
    · have hsum := howes .update
      split at hsum
      case isTrue =>
        refine .calm (hq.trans hqueue) ?_ hgc ?_
        · change owes { s with fds := fds } .update = 0
          omega
        · change Calm _ s.pos
          rw [hpos]
          exact hflash
      case isFalse hne =>
        refine .updating op hpos ((hu hne).trans hflag) (.inr ⟨⟨hq.trans hqueue, hflash⟩, ?_⟩) hgc
        change owes { s with fds := fds } .update = 1
        omega

/-! ## The whole run -/

theorem phase_step {s t : App} {e : Event} (hs : Phase s) (h : Flash.step s e = some t)
    (hok : Succeeds e)
    (hsettled : ∀ code, e = .main code →
      s.pos = .fdsRecordFind → ∀ t ∈ s.fds.queue, t.2.evtId ≠ .write) : Phase t := by
  cases e with
  | main code => exact phase_main hs h (hsettled code rfl)
  | fdsOnceStorage flag sensorBleCode sensorPassword =>
    obtain ⟨hpos, rfl⟩ := call_cases h
    exact hs.called hpos flag sensorBleCode sensorPassword
  | done place =>
    obtain ⟨op, fds, flash, hc, hx, rfl⟩ := done_cases h
    exact phase_done hs hc hx
  | failed result flash => exact hok.elim
  | signal i =>
    obtain ⟨x, fds, hx, rfl⟩ := signal_cases h
    exact phase_signal hs hx

/-- Inside `fds_once_storage`. -/
def InCall : Pos → Prop
  | .fdsStat | .fdsRecordFind | .fdsRecordUpdate | .waitForFdsUpdate _ | .fdsGc | .waitForFdsGc _
  | .fdsRecordUpdateAgain | .fdsRecordWrite | .waitForFdsWrite _ => True
  | _ => False

theorem inCall_of_inWait {p : Pos} (h : inWait p = true) : InCall p := by
  cases p with
  | waitForFdsUpdate op => trivial
  | waitForFdsWrite op => trivial
  | _ => cases h

theorem appErrorCheck_inCall {t : App} {code : UInt32} (h : InCall (appErrorCheck code t).pos) :
    InCall t.pos ∧ appErrorCheck code t = t := by
  unfold appErrorCheck at h ⊢
  split at h
  · exact ⟨h, if_pos ‹_›⟩
  · exact h.elim

/-- A step that ends inside a call starts inside it, and leaves `m_dummy_cfg` as it is. -/
theorem mainStep_cfg {s t : App} {code : UInt32} (h : mainStep code s = some t)
    (ht : InCall t.pos) : InCall s.pos ∧ t.mDummyCfg = s.mDummyCfg := by
  cases hpos : s.pos with
  | idle =>
    rw [mainStep, hpos] at h
    cases h
  | fdsInit | readFdsStat | readFdsRecordClose | readFdsRecordWrite =>
    rw [mainStep, hpos] at h
    obtain rfl := Option.some.inj h
    exact (appErrorCheck_inCall ht).1.elim
  | waitForFdsReady | readWaitForFdsReady =>
    rw [mainStep, hpos] at h
    obtain rfl := Option.some.inj h
    unfold waitFor at ht
    split at ht
    · exact ht.elim
    · rw [hpos] at ht
      exact ht.elim
  | readFdsRecordFind =>
    simp only [mainStep, hpos] at h
    split at h
    all_goals
      obtain rfl := Option.some.inj h
      exact ht.elim
  | readFdsRecordOpen =>
    simp only [mainStep, hpos] at h
    split at h
    · obtain ⟨config, -, rfl⟩ := Option.map_eq_some_iff.mp h
      exact ht.elim
    · obtain rfl := Option.some.inj h
      exact ht.elim
  | fdsStat | fdsGc =>
    rw [mainStep, hpos] at h
    obtain rfl := Option.some.inj h
    obtain ⟨-, heq⟩ := appErrorCheck_inCall ht
    rw [heq]
    exact ⟨trivial, rfl⟩
  | fdsRecordFind | fdsRecordUpdate | fdsRecordUpdateAgain | fdsRecordWrite =>
    simp only [mainStep, hpos] at h
    split at h
    all_goals
      obtain rfl := Option.some.inj h
      exact ⟨trivial, rfl⟩
  | waitForFdsUpdate | waitForFdsGc | waitForFdsWrite =>
    rw [mainStep, hpos] at h
    obtain rfl := Option.some.inj h
    refine ⟨trivial, ?_⟩
    unfold waitFor
    split <;> rfl

/-- A wait of `fds_once_storage` ends with the configuration in the record. -/
theorem Phase.returns {s t : App} {code : UInt32} (hs : Phase s) (h : mainStep code s = some t)
    (hwait : inWait s.pos = true) (ht : t.pos = .idle) : One t fun r => r.data = s.mDummyCfg := by
  cases hs with
  | booting hpos | starting _ hpos | collecting _ hpos =>
    rw [hpos] at hwait
    cases hwait
  | pending n recordId hpos =>
    rcases hpos with hpos | hpos | hpos <;> rw [hpos] at hwait <;> cases hwait
  | updating op hpos hflag =>
    rw [mainStep, hpos, hflag] at h
    obtain rfl := Option.some.inj h
    exact absurd (hpos.symm.trans ht) (by simp)
  | calm hqueue hupdate hgc hflash =>
    cases hpos : s.pos with
    | waitForFdsUpdate op =>
      rw [hpos] at hflash
      rw [mainStep, hpos] at h
      obtain rfl := Option.some.inj h
      unfold waitFor at ht ⊢
      split
      · exact hflash
      · exact hflash
    | waitForFdsWrite op =>
      rw [hpos] at hflash
      exact hflash.elim
    | _ =>
      rw [hpos] at hwait
      cases hwait

structure Kept (w : Store) : Prop where
  phase : Phase w.app
  cfg : InCall w.app.pos → w.app.mDummyCfg = w.atCall
  stored : Stored w

theorem boot_kept {flash : List Record}
    (h : flash = [] ∨ ∃ r, flash = [r] ∧ isConfig r = true) : Kept (boot flash) := by
  refine ⟨AtMostOne.boot (s := Flash.boot flash) ?_, fun hcall => hcall.elim, fun hr => ?_⟩
  · rcases h with h | ⟨r, hr, hc⟩
    · exact .inl h
    · exact .inr ⟨r, hr, hc, trivial⟩
  · cases hr

theorem kept_step {w v : Store} {e : Event} (hw : Kept w) (hsettled : Settled w e)
    (hok : Succeeds e) (h : step w e = some v) : Kept v := by
  obtain ⟨t, ht, rfl⟩ := Option.map_eq_some_iff.mp h
  have hphase : Phase t := by
    apply phase_step hw.phase ht hok
    rintro code rfl
    exact hsettled
  have hfree : t.pos = w.app.pos → ¬ (inWait w.app.pos && t.pos = .idle) = true := by
    intro hpos hr
    rw [hpos] at hr
    obtain ⟨hwait, hidle⟩ := Bool.and_eq_true_iff.mp hr
    rw [of_decide_eq_true hidle] at hwait
    cases hwait
  cases e with
  | main code =>
    have hcfg := mainStep_cfg ht
    refine ⟨hphase, fun hcall => ?_, fun hr => ?_⟩
    · obtain ⟨hcall', heq⟩ := hcfg hcall
      exact heq.trans (hw.cfg hcall')
    · obtain ⟨hwait, hidle⟩ := Bool.and_eq_true_iff.mp hr
      obtain ⟨r, hflash, hc, hdata⟩ := hw.phase.returns ht hwait (of_decide_eq_true hidle)
      refine ⟨r, ?_, hdata.trans (hw.cfg (inCall_of_inWait hwait))⟩
      rw [hflash]
      exact List.filter_cons_of_pos hc
  | fdsOnceStorage flag sensorBleCode sensorPassword =>
    obtain ⟨hpos, rfl⟩ := call_cases ht
    refine ⟨hphase, fun _ => rfl, fun hr => ?_⟩
    rw [hpos] at hr
    cases hr
  | done place =>
    obtain ⟨op, fds, flash, -, -, rfl⟩ := done_cases ht
    exact ⟨hphase, hw.cfg, fun hr => absurd hr (hfree rfl)⟩
  | failed result flash => exact hok.elim
  | signal i =>
    obtain ⟨x, fds, -, rfl⟩ := signal_cases ht
    refine ⟨hphase, fun hcall => ?_, fun hr => absurd hr (hfree fdsEvtHandler_pos)⟩
    rw [fdsEvtHandler_pos] at hcall
    exact fdsEvtHandler_mDummyCfg.trans (hw.cfg hcall)

theorem kept_run {flash : List Record} (hflash : flash = [] ∨ ∃ r, flash = [r] ∧ isConfig r = true)
    {es : List Event} (hok : ∀ e ∈ es, Succeeds e) (h : Along step Settled (boot flash) es) :
    Always step Kept (boot flash) es := by
  refine always_of_along ?_ (boot_kept hflash) es (along_and_of_forall step h hok)
  rintro w e v hw ⟨hsettled, hsucc⟩ hstep
  exact kept_step hw hsettled hsucc hstep

/-- For every run from empty flash or one configuration record, in which every operation that is
carried out succeeds and the record is not looked for while its write is in the queue: whenever
`fds_once_storage` returns from its wait, flash holds one configuration record, and it is
`m_dummy_cfg` as it was at the call. -/
theorem store_holds_one (flash : List Record)
    (hflash : flash = [] ∨ ∃ r, flash = [r] ∧ isConfig r = true) (es : List Event)
    (hok : ∀ e ∈ es, Succeeds e) (h : Along step Settled (boot flash) es) :
    Always step Stored (boot flash) es :=
  always_mono step (fun _ hw => Kept.stored hw) _ _ (kept_run hflash hok h)

theorem store_holds_one_updated :
    Always step Stored (boot []) (flashInit ++ [.done 0, .signal 0] ++ storeFirst ++
      [.done 0, .signal 0, .main 0]) :=
  store_holds_one [] (.inl rfl) _ (by decide) (by decide)

theorem step_of_app {w : Store} {e : Event} {t : App} (h : Flash.step w.app e = some t) :
    step w e = some ⟨t, atCall w t e, inWait w.app.pos && t.pos = .idle⟩ := by
  rw [step, h]
  rfl

section

variable {s : App}

theorem done_write {n : Nat} {recordId : UInt32} {queue : List (Nat × Op)}
    (h : s.fds.queue = (n, .write recordId) :: queue) (place : Nat) :
    ∃ fds, Flash.step s (.done place) = some
        { s with fds := fds, flash := writeExecute recordId place s.mDummyCfg s.flash } ∧
      fds.queue = queue ∧
      fds.reports = s.fds.reports ++ [((n, .write recordId), nrfSuccess)] := by
  obtain ⟨fds, hc, hq, hr⟩ := Service.complete_of_queue h nrfSuccess
  refine ⟨fds, ?_, hq, hr⟩
  rw [Flash.step, hc]
  rfl

theorem signal_write {i n : Nat} {recordId : UInt32}
    (h : s.fds.reports[i]? = some ((n, .write recordId), nrfSuccess)) :
    ∃ fds, Flash.step s (.signal i) = some { s with fds := fds, mFdsWriteFlag := true } := by
  obtain ⟨fds, hr⟩ := Service.report_of_get h
  refine ⟨fds, ?_⟩
  rw [Flash.step, hr]
  rfl

end

/-- The condition is needed: a search that comes while the write is in the queue writes a second
record, and the event of the first write can end its wait behind both writes. -/
theorem early_search_doubles {flash : List Record}
    (hflash : flash = [] ∨ ∃ r, flash = [r] ∧ isConfig r = true) {es : List Event}
    (hok : ∀ e ∈ es, Succeeds e) (h : Along step Settled (boot flash) es) {w : Store}
    (hw : run step (boot flash) es = some w) (hpos : w.app.pos = .fdsRecordFind)
    (hearly : ∃ t ∈ w.app.fds.queue, t.2.evtId = .write) :
    ∃ more v, (∀ e ∈ more, Succeeds e) ∧ run step w more = some v ∧ ¬ Stored v := by
  have hphase := (always_last step (kept_run hflash hok h) hw).phase
  obtain ⟨n, recordId, hqueue, hnone⟩ : ∃ n recordId,
      w.app.fds.queue = [(n, .write recordId)] ∧ w.app.flash = [] := by
    obtain ⟨t, ht, -⟩ := hearly
    cases hphase with
    | booting _ hq | calm hq =>
      rw [hq] at ht
      cases ht
    | starting _ hp | collecting _ hp | updating _ hp =>
      rw [hpos] at hp
      cases hp
    | pending n recordId _ hq _ _ hnone => exact ⟨n, recordId, hq, hnone⟩
  -- the search and the second write
  let s1 : App := { w.app with pos := .fdsRecordWrite }
  have h1 : Flash.step w.app (.main 0) = some s1 := by
    rw [Flash.step, mainStep, hpos, fdsRecordFind_nil hnone]
  let s2 : App := { writeEnqueue .write { s1 with mFdsWriteFlag := false } with
    pos := .waitForFdsWrite s1.fds.next }
  have h2 : Flash.step s1 (.main 0) = some s2 := rfl
  have hq2 : s2.fds.queue =
      (n, .write recordId) :: [(s1.fds.next, .write (s1.mLatestRecId + 1))] := by
    change w.app.fds.queue ++ _ = _
    rw [hqueue]
    rfl
  -- both writes are carried out
  obtain ⟨fds3, h3, hq3, hr3⟩ := done_write hq2 0
  obtain ⟨fds4, h4, -, hr4⟩ := done_write
    (s := { s2 with fds := fds3, flash := writeExecute recordId 0 s2.mDummyCfg s2.flash }) hq3 0
  -- the first is signalled, and the wait for the second ends
  let written : List Record := writeExecute (s1.mLatestRecId + 1) 0 s2.mDummyCfg
    (writeExecute recordId 0 s2.mDummyCfg s2.flash)
  have hget : fds4.reports[s2.fds.reports.length]? = some ((n, .write recordId), nrfSuccess) := by
    rw [hr4, hr3]
    simp
  obtain ⟨fds5, h5⟩ := signal_write (s := { s2 with fds := fds4, flash := written }) hget
  let s6 : App := { s2 with pos := .idle, fds := fds5, flash := written, mFdsWriteFlag := true }
  refine ⟨[.main 0, .main 0, .done 0, .done 0, .signal s2.fds.reports.length, .main 0],
    ⟨s6, w.atCall, true⟩, by simp [Succeeds], ?_, fun hstored => ?_⟩
  · rw [run_cons_of_step step (step_of_app h1), run_cons_of_step step (step_of_app h2),
      run_cons_of_step step (step_of_app h3), run_cons_of_step step (step_of_app h4),
      run_cons_of_step step (step_of_app h5), run_singleton]
    exact step_of_app rfl
  · obtain ⟨r, hr, -⟩ := hstored rfl
    have htwo := (congrArg List.length hr).trans List.length_singleton
    simp [s6, written, writeExecute, isConfig] at htwo

/-- The first call comes before the write of `my_flash_init` has been carried out, and writes
again: it returns on the event of the first write, with two records in flash. -/
theorem early_call_doubles :
    ¬ ∀ (flash : List Record) (es : List Event) (w : Store),
      (flash = [] ∨ ∃ r, flash = [r] ∧ isConfig r = true) → (∀ e ∈ es, Succeeds e) →
      run step (boot flash) es = some w → Stored w := by
  intro h
  have hw := h [] (flashInit ++ storeFirst ++ [.done 0, .done 0, .signal 0, .main 0]) _ (.inl rfl)
    (by decide) rfl
  obtain ⟨r, hr, -⟩ := hw (by decide)
  exact absurd ((congrArg List.length hr).trans List.length_singleton) (by decide)

end BleCar.MyBle.Storage
