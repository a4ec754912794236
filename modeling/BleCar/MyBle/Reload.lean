import BleCar.MyBle.Storage

/-!
# The configuration after a reset

The chip may lose power between any two steps, and `APP_ERROR_CHECK` resets it. What is left
is the flash, from which `my_flash_init` reads `m_dummy_cfg` back. A record is found once its
header is complete, so a write is carried out as a whole; an update invalidates the old record
in a step of its own, after the new one is written.
-/

namespace BleCar.MyBle.Reload

open BleCar.Lib.Runs
open BleCar.Lib.Requests
open BleCar.MyBle.Link (nrfSuccess)
open BleCar.MyBle.Flash hiding step boot
open BleCar.MyBle.Storage hiding step

inductive Event where
  | program (e : Flash.Event)
  | reset
  /-- a reset within an update: the new record stands at `place`, the old one is still valid -/
  | cut (place : Nat)

/-- `boot`, with the history of the calls. -/
def restart (w : Store) (flash : List Record) : Store :=
  { app := Flash.boot flash, atCall := w.atCall, returned := false }

def step (w : Store) : Event → Option Store
  | .program e => Storage.step w e
  | .reset => some (restart w w.app.flash)
  | .cut place =>
    match w.app.fds.queue with
    | (_, .update recordId recordToDelete) :: _ =>
      if w.app.flash.any (fun r => r.recordId = recordToDelete) then
        some (restart w (writeExecute recordId place w.app.mDummyCfg w.app.flash))
      else none
    | _ => none

theorem cut_cases {w v : Store} {place : Nat} (h : step w (.cut place) = some v) :
    ∃ n recordId recordToDelete queue,
      w.app.fds.queue = (n, .update recordId recordToDelete) :: queue ∧
      v = restart w (writeExecute recordId place w.app.mDummyCfg w.app.flash) := by
  simp only [step] at h
  split at h
  case h_1 n recordId recordToDelete queue hqueue =>
    obtain ⟨-, h⟩ := Option.ite_none_right_eq_some.mp h
    exact ⟨n, recordId, recordToDelete, queue, hqueue, (Option.some.inj h).symm⟩
  case h_2 => cases h

/-- Every operation that is carried out succeeds, and no update is cut off. -/
def Undamaged : Event → Prop
  | .program e => Succeeds e
  | .reset => True
  | .cut _ => False

/-- `Settled`, which asks nothing of a reset. -/
def SettledOrReset (w : Store) : Event → Prop
  | .program e => Settled w e
  | .reset | .cut _ => True

instance : ∀ e, Decidable (Undamaged e)
  | .program e => inferInstanceAs (Decidable (Succeeds e))
  | .reset => isTrue trivial
  | .cut _ => isFalse id

instance (w : Store) : ∀ e, Decidable (SettledOrReset w e)
  | .program e => inferInstanceAs (Decidable (Settled w e))
  | .reset | .cut _ => isTrue trivial

/-- No storing, and no operation that fails. -/
def Reading : Event → Prop
  | .program (.fdsOnceStorage _ _ _) => False
  | .program (.failed _ _) => False
  | _ => True

instance : ∀ e, Decidable (Reading e)
  | .program (.fdsOnceStorage _ _ _) | .program (.failed _ _) => isFalse id
  | .program (.main _) | .program (.done _) | .program (.signal _) | .reset | .cut _ =>
    isTrue trivial

/-! ## Storing -/

/-- After a return `m_dummy_cfg` is as it was at the call. -/
structure Intact (w : Store) : Prop extends Kept w where
  cfgReturned : w.returned = true → w.app.mDummyCfg = w.atCall

/-- A step from a wait to `idle` changes the position only. -/
theorem mainStep_returns {s t : App} {code : UInt32} (h : mainStep code s = some t)
    (hwait : inWait s.pos = true) : t.mDummyCfg = s.mDummyCfg := by
  cases hpos : s.pos with
  | waitForFdsUpdate op | waitForFdsWrite op =>
    rw [mainStep, hpos] at h
    obtain rfl := Option.some.inj h
    unfold waitFor
    split <;> rfl
  | _ =>
    rw [hpos] at hwait
    cases hwait

theorem Intact.event {w v : Store} {e : Flash.Event} (hw : Intact w) (hsettled : Settled w e)
    (hok : Succeeds e) (h : Storage.step w e = some v) : Intact v := by
  refine ⟨kept_step hw.toKept hsettled hok h, fun hr => ?_⟩
  obtain ⟨t, ht, rfl⟩ := Option.map_eq_some_iff.mp h
  obtain ⟨hwait, -⟩ := Bool.and_eq_true_iff.mp hr
  have hcfg := hw.cfg (inCall_of_inWait hwait)
  cases e with
  | main code => exact (mainStep_returns ht hwait).trans hcfg
  | fdsOnceStorage flag sensorBleCode sensorPassword => rfl
  | done place =>
    obtain ⟨op, fds, flash, -, -, rfl⟩ := done_cases ht
    exact hcfg
  | failed result flash => exact hok.elim
  | signal i =>
    obtain ⟨x, fds, -, rfl⟩ := signal_cases ht
    exact fdsEvtHandler_mDummyCfg.trans hcfg

theorem Intact.reset {w : Store} (hw : Intact w) : Intact (restart w w.app.flash) :=
  ⟨⟨hw.phase.atMostOne.boot, fun hcall => hcall.elim, fun hr => by cases hr⟩,
    fun hr => by cases hr⟩

theorem run_intact {flash : List Record}
    (hflash : flash = [] ∨ ∃ r, flash = [r] ∧ isConfig r = true) {es : List Event}
    (hok : ∀ e ∈ es, Undamaged e) (h : Along step SettledOrReset (boot flash) es) :
    Always step Intact (boot flash) es := by
  refine always_of_along ?_ ⟨boot_kept hflash, fun hr => by cases hr⟩ es
    (along_and_of_forall step h hok)
  rintro w (e | _ | place) v hw ⟨hsettled, hsucc⟩ hstep
  · exact hw.event hsettled hsucc hstep
  · exact Option.some.inj hstep ▸ hw.reset
  · exact hsucc.elim

/-! ## Reading back -/

/-- What `my_flash_init` knows of the record `r` at each place of it. -/
def Known (r : Record) (s : App) : Pos → Prop
  | .fdsInit | .waitForFdsReady | .readWaitForFdsReady | .readFdsStat | .readFdsRecordFind => True
  | .readFdsRecordOpen => s.desc = r.recordId
  | .readFdsRecordClose | .idle => s.mDummyCfg = r.data
  | _ => False

/-- Where `my_flash_init` stands between `fds_init` and its return, with the one record `r`
in flash and nothing but `fds_init` in the queue. -/
structure Reads (r : Record) (s : App) : Prop where
  flash : s.flash = [r]
  config : isConfig r = true
  queue : ∀ t ∈ s.fds.queue, t.2 = .init
  known : Known r s s.pos

section

variable {r : Record} {s t : App}

theorem reads_boot (hc : isConfig r = true) : Reads r (Flash.boot [r]) :=
  ⟨rfl, hc, fun _ h => absurd h List.not_mem_nil, trivial⟩

theorem Reads.reset (h : Reads r s) : Reads r (Flash.boot s.flash) := by
  rw [h.flash]
  exact reads_boot h.config

theorem Reads.checked (h : Reads r s) (ht : Reads r t) (hflash : t.flash = s.flash)
    (code : UInt32) : Reads r (appErrorCheck code t) := by
  unfold appErrorCheck
  split
  · exact ht
  · exact hflash ▸ h.reset

/-- From one call or wait to the next, refused calls included. -/
theorem Reads.main (h : Reads r s) {code : UInt32} (ht : mainStep code s = some t) :
    Reads r t := by
  have hknown := h.known
  cases hpos : s.pos <;> rw [hpos] at hknown <;> simp only [mainStep, hpos] at ht
  case fdsInit =>
    obtain rfl := Option.some.inj ht
    refine h.checked ?_ ?_ code
    case refine_2 => rfl
    refine ⟨h.flash, h.config, fun t hmem => ?_, trivial⟩
    rcases List.mem_append.mp hmem with hmem | hmem
    · exact h.queue t hmem
    · rw [List.mem_singleton.mp hmem]
  case waitForFdsReady =>
    obtain rfl := Option.some.inj ht
    unfold waitFor
    split
    · exact ⟨h.flash, h.config, h.queue, trivial⟩
    · exact h
  case readWaitForFdsReady =>
    obtain rfl := Option.some.inj ht
    unfold waitFor
    split
    · exact ⟨h.flash, h.config, h.queue, trivial⟩
    · exact h
  case readFdsStat =>
    obtain rfl := Option.some.inj ht
    refine h.checked ?_ ?_ code
    · exact ⟨h.flash, h.config, h.queue, trivial⟩
    · rfl
  case readFdsRecordFind =>
    have hfind : fdsRecordFind s.flash = some r := by
      rw [fdsRecordFind, h.flash]
      exact List.find?_cons_of_pos h.config
    rw [hfind] at ht
    obtain rfl := Option.some.inj ht
    exact ⟨h.flash, h.config, h.queue, rfl⟩
  case readFdsRecordOpen =>
    split at ht
    case isTrue =>
      have hopen : s.flash.find? (fun c => c.recordId = s.desc) = some r := by
        rw [h.flash]
        exact List.find?_cons_of_pos (decide_eq_true hknown.symm)
      rw [hopen] at ht
      obtain rfl := Option.some.inj ht
      exact ⟨h.flash, h.config, h.queue, rfl⟩
    case isFalse =>
      obtain rfl := Option.some.inj ht
      exact h.reset
  case readFdsRecordClose =>
    obtain rfl := Option.some.inj ht
    refine h.checked ?_ ?_ code
    · exact ⟨h.flash, h.config, h.queue, hknown⟩
    · rfl
  case idle => cases ht
  all_goals exact hknown.elim

theorem Reads.event (h : Reads r s) {e : Flash.Event} (hreading : Reading (.program e))
    (ht : Flash.step s e = some t) : Reads r t := by
  cases e with
  | main code => exact h.main ht
  | fdsOnceStorage flag sensorBleCode sensorPassword => exact hreading.elim
  | failed result flash => exact hreading.elim
  | done place =>
    obtain ⟨op, fds, flash, hc, hx, rfl⟩ := done_cases ht
    obtain ⟨n, hqueue, -⟩ := Service.complete_inv hc
    have hop : op = .init := h.queue (n, op) (hqueue ▸ List.mem_cons_self)
    rw [hop] at hx
    obtain rfl := Option.some.inj hx
    exact ⟨h.flash, h.config, fun t hmem => h.queue t (hqueue ▸ List.mem_cons_of_mem _ hmem),
      h.known⟩
  | signal i =>
    obtain ⟨x, fds, hx, rfl⟩ := signal_cases ht
    obtain ⟨initialized, update, write, gc, heq, -, -⟩ :=
      fdsEvtHandler_flags x.1.2.evtId x.2 { s with fds := fds }
    rw [heq]
    exact ⟨h.flash, h.config, fun t hmem => h.queue t ((Service.report_inv hx).1 ▸ hmem), h.known⟩

end

theorem step_reads {r : Record} {w v : Store} {e : Event} (hw : Reads r w.app)
    (hreading : Reading e) (h : step w e = some v) : Reads r v.app := by
  cases e with
  | program e =>
    obtain ⟨t, ht, rfl⟩ := Option.map_eq_some_iff.mp h
    exact hw.event hreading ht
  | reset =>
    obtain rfl := Option.some.inj h
    exact hw.reset
  | cut place =>
    obtain ⟨n, recordId, recordToDelete, queue, hqueue, -⟩ := cut_cases h
    have hinit := hw.queue (n, .update recordId recordToDelete) (hqueue ▸ List.mem_cons_self)
    cases hinit

/-- What a return leaves is ready to be read back. -/
theorem Intact.reads {w : Store} (hw : Intact w) (hret : w.returned = true)
    (hidle : w.app.pos = .idle) : ∃ r, r.data = w.atCall ∧ Reads r w.app := by
  obtain ⟨r, hfilter, hdata⟩ := hw.stored hret
  have hmem : r ∈ w.app.flash.filter isConfig := hfilter ▸ List.mem_singleton_self r
  obtain ⟨hr, hc⟩ := List.mem_filter.mp hmem
  have hone : w.app.flash = [r] ∧ w.app.fds.queue = [] := by
    cases hw.phase with
    | calm hqueue _ _ hflash =>
      rw [hidle] at hflash
      obtain ⟨r', hr', -, -⟩ := hflash
      rw [hr', List.mem_singleton] at hr
      exact ⟨by rw [hr', hr], hqueue⟩
    | pending _ _ _ _ _ _ hflash =>
      rw [hflash] at hr
      cases hr
    | booting hpos | starting _ hpos | collecting _ hpos | updating _ hpos =>
      rw [hidle] at hpos
      cases hpos
  refine ⟨r, hdata, hone.1, hc, fun t ht => ?_, ?_⟩
  · rw [hone.2] at ht
    cases ht
  · rw [hidle]
    exact (hw.cfgReturned hret).trans hdata.symm

/-- A return is to `idle`. -/
theorem step_returned {w v : Store} {e : Event} (h : step w e = some v)
    (hret : v.returned = true) : v.app.pos = .idle := by
  cases e with
  | program e =>
    obtain ⟨t, -, rfl⟩ := Option.map_eq_some_iff.mp h
    exact of_decide_eq_true (Bool.and_eq_true_iff.mp hret).2
  | reset =>
    obtain rfl := Option.some.inj h
    cases hret
  | cut place =>
    obtain ⟨_, _, _, _, -, rfl⟩ := cut_cases h
    cases hret

theorem run_returned {flash : List Record} {es : List Event} {w : Store}
    (h : run step (boot flash) es = some w) (hret : w.returned = true) : w.app.pos = .idle :=
  last_of_step (I := fun w => w.returned = true → w.app.pos = .idle)
    (fun _ _ _ _ hs => step_returned hs) (fun hr => by cases hr) h hret

/-- The configuration survives: once `fds_once_storage` has returned from its wait, then until
the next call of it, through any number of resets, flash holds the one record with the
configuration of the call, and whenever `my_flash_init` has returned, `m_dummy_cfg` is that
configuration. Resets may have come at any time before, too, but for those that cut off an
update. -/
theorem survives {flash : List Record} (hflash : flash = [] ∨ ∃ r, flash = [r] ∧ isConfig r = true)
    {es fs : List Event} (hok : ∀ e ∈ es, Undamaged e)
    (h : Along step SettledOrReset (boot flash) es) {w v : Store}
    (hw : run step (boot flash) es = some w) (hret : w.returned = true)
    (hfs : ∀ e ∈ fs, Reading e) (hv : run step w fs = some v) :
    ∃ r, v.app.flash = [r] ∧ isConfig r = true ∧ r.data = w.atCall ∧
      (v.app.pos = .idle → v.app.mDummyCfg = w.atCall) := by
  have hintact := always_last step (run_intact hflash hok h) hw
  obtain ⟨r, hdata, hreads⟩ := hintact.reads hret (run_returned hw hret)
  have hend : Reads r v.app := always_last step (always_of_along
    (fun _ _ _ hs hp hstep => step_reads hs hp.2 hstep) hreads fs
    (along_and_of_forall step (along_true step w fs) hfs)) hv
  refine ⟨r, hend.flash, hend.config, hdata, fun hidle => ?_⟩
  have hknown := hend.known
  rw [hidle] at hknown
  exact Eq.trans hknown hdata

/-- `fds_once_storage(WRITE_ID_CONFIG_INFO)` with a name and a password of one letter each, up to
its wait. -/
def calling (name password : UInt8) : List Event :=
  [.program (.fdsOnceStorage 1 (.replicate 16 name) (.replicate 16 password)),
    .program (.main 0), .program (.main 0), .program (.main 0)]

/-- The return from the wait. -/
def returning (place : Nat) : List Event :=
  [.program (.done place), .program (.signal 0), .program (.main 0)]

/-- A reset within `my_flash_init`, then storing a name and a password. -/
def storing : List Event :=
  [.program (.main 0), .reset] ++ flashInit.map .program ++
    [.program (.done 0), .program (.signal 0)] ++ calling 0x41 0x31 ++ returning 0

/-- `my_flash_init` with the record in flash. -/
def reloading : List Event :=
  [.program (.main 0), .program (.done 0), .program (.signal 0)] ++
    .replicate 6 (.program (.main 0))

theorem survives_stored : ∃ w v, run step (boot []) storing = some w ∧
    run step w (.reset :: reloading) = some v ∧ v.app.pos = .idle ∧
    ∃ r, v.app.flash = [r] ∧ isConfig r = true ∧ r.data = w.atCall ∧
      (v.app.pos = .idle → v.app.mDummyCfg = w.atCall) := by
  have hend : ∃ w ∈ run step (boot []) storing, w.returned = true ∧
      ∃ v ∈ run step w (.reset :: reloading), v.app.pos = .idle := by decide +kernel
  obtain ⟨w, hw, hret, v, hv, hidle⟩ := hend
  exact ⟨w, v, hw, hv, hidle,
    survives (.inl rfl) (by decide) (by decide +kernel) hw hret (by decide) hv⟩

/-- An update that was cut off leaves two records. The next one replaces the first of them, and
the other is read back. -/
theorem cut_reverts : ∃ w v,
    run step (boot []) (storing ++ calling 0x42 0x32 ++ [.cut 1] ++ reloading ++
      calling 0x43 0x33 ++ returning 1) = some w ∧ w.returned = true ∧
    run step w (.reset :: reloading) = some v ∧ v.app.pos = .idle ∧
    v.app.mDummyCfg ≠ w.atCall := by
  have hend : ∃ w ∈ run step (boot []) (storing ++ calling 0x42 0x32 ++ [.cut 1] ++ reloading ++
      calling 0x43 0x33 ++ returning 1), w.returned = true ∧
      ∃ v ∈ run step w (.reset :: reloading), v.app.pos = .idle ∧
        v.app.mDummyCfg ≠ w.atCall := by decide +kernel
  obtain ⟨w, hw, hret, v, hv, hidle⟩ := hend
  exact ⟨w, v, hw, hret, hv, hidle⟩

end BleCar.MyBle.Reload
