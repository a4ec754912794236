import BleCar.MyBle.Flash

/-!
# Waiting for the flash

A wait of `my_fds.c` ends when its flag is up, and only a successful event raises a flag.
The event an operation is answered with may report an error; the wait for it then has
nothing left to come.
-/

namespace BleCar.MyBle.Waits

open BleCar.Lib.Runs
open BleCar.Lib.Requests
open BleCar.MyBle.Link (nrfSuccess)
open BleCar.MyBle.Flash

/-- The operation a wait is for, and the event that ends it. -/
def waits : Pos → Option (Nat × EvtId)
  | .waitForFdsUpdate op => some (op, .update)
  | .waitForFdsWrite op => some (op, .write)
  | .waitForFdsGc op => some (op, .gc)
  | _ => none

/-- The flag an event raises, if it has one. -/
def flag (s : App) : EvtId → Bool
  | .init => s.mFdsInitializedFalg
  | .write => s.mFdsWriteFlag
  | .update => s.mFdsUpdateFlag
  | .gc => s.mFdsGcFlag
  | .delRecord => false
  | .delFile => false

/-- Inside a wait, the event of its operation is still to come or the flag is up. -/
def NeverStuck (s : App) : Prop :=
  ∀ op id, waits s.pos = some (op, id) → s.fds.Outstanding op ∨ flag s id = true

/-- An event that a wait is for comes with a success, or when the flag is up already. -/
def Heard (s : App) : Event → Prop
  | .signal i => ∀ x ∈ s.fds.reports[i]?, ∀ id,
      waits s.pos = some (x.1.1, id) → flag s id = false → x.2 = nrfSuccess
  | _ => True

/-- The operation still to come is of the kind whose event ends the wait. -/
def Awaits (s : App) : Prop :=
  ∀ op id, waits s.pos = some (op, id) →
    (∃ o, (op, o) ∈ s.fds.owed ∧ o.evtId = id) ∨ flag s id = true

theorem Awaits.neverStuck {s : App} (h : Awaits s) : NeverStuck s := by
  intro op id hw
  rcases h op id hw with ⟨o, ho, -⟩ | hf
  · exact .inl (Service.outstanding_of_owed ho)
  · exact .inr hf

theorem awaits_of_waits_none {s : App} (h : waits s.pos = none) : Awaits s := by
  intro op id hw
  rw [h] at hw
  cases hw

/-- What a step of the program can do about waits. -/
inductive MainStepped (s t : App) : Prop
  | free (h : waits t.pos = none)
  | same (h : t = s)
  | submitted (o : Op) (hpos : waits t.pos = some (s.fds.next, o.evtId))
    (hfds : t.fds = s.fds.submit o)

theorem appErrorCheck_free {code : UInt32} {t : App} (h : waits t.pos = none) :
    waits (appErrorCheck code t).pos = none := by
  unfold appErrorCheck
  split
  · exact h
  · rfl

theorem waitFor_stepped (s : App) (flag : Bool) {next : Pos} (h : waits next = none) :
    MainStepped s (waitFor flag next s) := by
  cases flag with
  | true => exact .free h
  | false => exact .same rfl

theorem mainStep_stepped {s t : App} {code : UInt32} (h : mainStep code s = some t) :
    MainStepped s t := by
  cases hpos : s.pos with
  | idle =>
    rw [mainStep, hpos] at h
    cases h
  | fdsInit | readFdsStat | readFdsRecordClose | readFdsRecordWrite | fdsStat =>
    rw [mainStep, hpos] at h
    obtain rfl := Option.some.inj h
    exact .free (appErrorCheck_free rfl)
  | waitForFdsReady | readWaitForFdsReady | waitForFdsUpdate | waitForFdsGc | waitForFdsWrite =>
    rw [mainStep, hpos] at h
    obtain rfl := Option.some.inj h
    exact waitFor_stepped s _ rfl
  | readFdsRecordFind | fdsRecordFind =>
    simp only [mainStep, hpos] at h
    split at h
    all_goals
      obtain rfl := Option.some.inj h
      exact .free rfl
  | readFdsRecordOpen =>
    simp only [mainStep, hpos] at h
    split at h
    · obtain ⟨config, -, rfl⟩ := Option.map_eq_some_iff.mp h
      exact .free rfl
    · obtain rfl := Option.some.inj h
      exact .free rfl
  | fdsRecordUpdate | fdsRecordUpdateAgain =>
    simp only [mainStep, hpos] at h
    split at h
    all_goals obtain rfl := Option.some.inj h
    · exact .submitted (.update (s.mLatestRecId + 1) s.desc) rfl rfl
    · exact .free rfl
  | fdsGc =>
    rw [mainStep, hpos] at h
    obtain rfl := Option.some.inj h
    unfold appErrorCheck
    split
    · exact .submitted .gc rfl rfl
    · exact .free rfl
  | fdsRecordWrite =>
    simp only [mainStep, hpos] at h
    split at h
    all_goals obtain rfl := Option.some.inj h
    · exact .submitted (.write (s.mLatestRecId + 1)) rfl rfl
    · exact .free rfl

theorem MainStepped.awaits {s t : App} (h : MainStepped s t) (hs : Awaits s) : Awaits t := by
  cases h with
  | free h => exact awaits_of_waits_none h
  | same h => exact h ▸ hs
  | submitted o hpos hfds =>
    intro op id hw
    obtain ⟨rfl, rfl⟩ := Prod.mk.inj (Option.some.inj (hpos.symm.trans hw))
    exact .inl ⟨o, hfds ▸ Service.submit_owed o, rfl⟩

/-- An operation that has been carried out is still owed its event. -/
theorem awaits_complete {s : App} {r : UInt32} {o : Op} {fds : Service Op UInt32}
    {flash : List Record} (h : s.fds.complete r = some (o, fds)) (hs : Awaits s) :
    Awaits { s with fds := fds, flash := flash } := by
  intro op id hw
  rcases hs op id hw with ⟨o', ho', hid⟩ | hf
  · exact .inl ⟨o', (Service.complete_owed h).symm.subset ho', hid⟩
  · exact .inr hf

section

variable {s : App} {id : EvtId} {result : UInt32}

/-- The handler lowers no flag. -/
theorem fdsEvtHandler_keeps {id' : EvtId} (h : flag s id' = true) :
    flag (fdsEvtHandler id result s) id' = true := by
  by_cases hr : result = nrfSuccess
  case neg =>
    rw [fdsEvtHandler_failed hr]
    exact h
  subst hr
  cases id <;> first | exact h | (cases id' <;> first | exact h | rfl)

/-- A successful event raises the flag of its kind. -/
theorem fdsEvtHandler_raises {o : Op} :
    flag (fdsEvtHandler o.evtId nrfSuccess s) o.evtId = true := by
  cases o <;> rfl

end

/-- The events other than `signal` leave no wait without an event to come. -/
theorem step_awaits {s t : App} {e : Event} (h : step s e = some t) (hs : Awaits s)
    (he : ∀ i, e ≠ .signal i) : Awaits t := by
  cases e with
  | main code => exact (mainStep_stepped h).awaits hs
  | fdsOnceStorage flag sensorBleCode sensorPassword =>
    obtain ⟨-, rfl⟩ := call_cases h
    apply awaits_of_waits_none
    unfold fdsOnceStorage
    split <;> rfl
  | done place =>
    obtain ⟨op, fds, flash, hc, -, rfl⟩ := done_cases h
    exact awaits_complete hc hs
  | failed result flash =>
    obtain ⟨op, fds, hc, rfl⟩ := failed_cases h
    exact awaits_complete hc hs
  | signal i => exact absurd rfl (he i)

/-- One event signalled: the wait is stuck after it exactly if it was the event waited for, came
with an error and found the flag down. -/
theorem signal_neverStuck {s : App} {i : Nat} {x : (Nat × Op) × UInt32} {fds : Service Op UInt32}
    (h : s.fds.report i = some (x, fds)) (hs : Awaits s) :
    (NeverStuck (fdsEvtHandler x.1.2.evtId x.2 { s with fds := fds }) ↔ Heard s (.signal i)) ∧
      (Heard s (.signal i) → Awaits (fdsEvtHandler x.1.2.evtId x.2 { s with fds := fds })) := by
  have hx : s.fds.reports[i]? = some x := Service.report_get h
  have hmem : x.1 ∈ s.fds.owed := (Service.report_owed h).subset List.mem_cons_self
  have hback : Heard s (.signal i) →
      Awaits (fdsEvtHandler x.1.2.evtId x.2 { s with fds := fds }) := by
    intro hheard op id hw
    rw [fdsEvtHandler_pos] at hw
    rcases hs op id hw with ⟨o, ho, hid⟩ | hf
    case inr => exact .inr (fdsEvtHandler_keeps hf)
    by_cases hop : op = x.1.1
    case neg =>
      rw [fdsEvtHandler_fds]
      exact .inl ⟨o, Service.report_keeps h hop ho, hid⟩
    subst hop
    obtain rfl : o = x.1.2 := Service.owed_inj ho hmem
    right
    cases hf : flag s id with
    | true => exact fdsEvtHandler_keeps hf
    | false =>
      rw [hheard x hx id hw hf, ← hid]
      exact fdsEvtHandler_raises
  refine ⟨⟨fun hnever y hy id hw hf => ?_, fun hheard => (hback hheard).neverStuck⟩, hback⟩
  obtain rfl : x = y := Option.some.inj (hx.symm.trans hy)
  by_contra hne
  rw [fdsEvtHandler_failed hne] at hnever
  rcases hnever _ id hw with hout | hup
  · exact Service.report_settles h hout
  · exact absurd (hf.symm.trans hup) (by decide)

/-- For every run, from any flash: no wait is ever stuck exactly if the event it waits for never
reports an error to a flag that is down. -/
theorem never_stuck_iff (flash : List Record) (es : List Event) (t : App)
    (h : run step (boot flash) es = some t) :
    Always step NeverStuck (boot flash) es ↔ Along step Heard (boot flash) es := by
  refine always_iff_along (I := Awaits) (fun s hs => hs.neverStuck) ?_
    (awaits_of_waits_none rfl) (along_of_run step h)
  rintro s e hs ⟨u, hu⟩
  refine ⟨u, hu, ?_⟩
  by_cases hsig : ∃ i, e = .signal i
  · obtain ⟨i, rfl⟩ := hsig
    obtain ⟨x, fds, hx, rfl⟩ := signal_cases hu
    exact signal_neverStuck hx hs
  · have hawaits := step_awaits hu hs fun i heq => hsig ⟨i, heq⟩
    have hheard : Heard s e := by
      cases e with
      | signal i => exact absurd ⟨i, rfl⟩ hsig
      | _ => trivial
    exact ⟨iff_of_true hawaits.neverStuck hheard, fun _ => hawaits⟩

/-- The first write fails, and then the second with the given result. -/
def writesAnswered (answer : Event) : List Event :=
  flashInit ++ [.failed 0x8600 [], .signal 0] ++ storeFirst ++ [answer, .signal 0]

theorem never_stuck_iff_done :
    Always step NeverStuck (boot []) (writesAnswered (.done 0)) ↔
      Along step Heard (boot []) (writesAnswered (.done 0)) :=
  never_stuck_iff [] (writesAnswered (.done 0)) _ rfl

/-- A write that times out is waited for without end. -/
theorem failed_write_stuck :
    ¬ ∀ (flash : List Record) (es : List Event) (t : App),
      run step (boot flash) es = some t → NeverStuck t := by
  intro h
  have ht := h [] (writesAnswered (.failed 0x8600 [])) _ rfl
  rcases ht 2 .write rfl with hout | hup
  · exact absurd hout (by decide)
  · cases hup

end BleCar.MyBle.Waits
