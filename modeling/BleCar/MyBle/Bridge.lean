import BleCar.MyBle.Link
import BleCar.MyBle.Decoding

/-!
# Forwarding UART frames to the peer

`uart_event_handle` calls `my_uart_ble_send` inside the UART interrupt, which the events of
the SoftDevice preempt. One iteration of the retry loop is two steps: the checks of
`ble_uarts_data_send`, and the answer of `sd_ble_gatts_hvx`. While the loop runs no byte of
the UART is handled.
-/

namespace BleCar.MyBle.Bridge

open BleCar.Lib.Runs
open BleCar.Lib.Transducer
open BleCar.Protocol.Frames
open BleCar.MyBle.Uart hiding boot
open BleCar.MyBle.Decoding
open BleCar.MyBle.Link hiding boot step

/-- `NRF_SDH_BLE_GATT_MAX_MTU_SIZE - OPCODE_LENGTH - HANDLE_LENGTH`. -/
def bleUartsMaxDataLen : Nat := 247 - 1 - 2

/-- Where `my_uart_ble_send` is, with its arguments. -/
inductive Sending where
  | idle
  | check (data : List UInt8) (connHandle : UInt16)
  | hvx (data : List UInt8) (connHandle : UInt16)

structure Chip where
  app : App
  uart : Parser
  sending : Sending
  /-- history: `my_uart_ble_send` has reached `APP_ERROR_CHECK` with an error code -/
  faulted : Bool

def boot : Chip := ⟨Link.boot, Uart.boot, .idle, false⟩

inductive Event where
  | ble (e : Link.Event)
  | byte (d : DataReady)
  | attempt
  | answer (code : UInt32)

instance (e : Link.Event) : Decidable (Refused e) := by
  cases e <;> unfold Refused <;> infer_instance

/-- The codes `sd_ble_gatts_hvx` may answer. -/
def Allowed (s : App) (code : UInt32) : Prop :=
  code = nrfSuccess ∨ code = nrfErrorResources ∨ code = nrfErrorInvalidState ∨
    (code = bleErrorGattsSysAttrMissing ∧ s.sd.up = true ∧ s.sd.sysAttrSet = false)

instance (s : App) (code : UInt32) : Decidable (Allowed s code) :=
  inferInstanceAs (Decidable (_ ∨ _))

/-- `ble_uarts_data_send` up to the call of `sd_ble_gatts_hvx`: the code it returns, if it
does not get there. -/
def bleUartsDataSend (data : List UInt8) (connHandle : UInt16) (s : App) : Option UInt32 :=
  if blcmLinkCtxGet connHandle s ≠ nrfSuccess then some (blcmLinkCtxGet connHandle s)
  else if connHandle = bleConnHandleInvalid then some nrfErrorNotFound
  else if ¬ s.isNotificationEnabled then some nrfErrorInvalidState
  else if data.length > bleUartsMaxDataLen then some nrfErrorInvalidParam
  else none

/-- The rest of the loop body of `my_uart_ble_send`, once the code is known. -/
def returned (data : List UInt8) (connHandle : UInt16) (code : UInt32) (s : Chip) : Chip :=
  if code ≠ nrfErrorInvalidState ∧ code ≠ nrfErrorResources ∧ code ≠ nrfErrorNotFound ∧
      code ≠ nrfSuccess then { boot with faulted := true }
  else if code = nrfErrorResources then { s with sending := .check data connHandle }
  else { s with sending := .idle }

/-- `APP_UART_DATA_READY`; a complete frame is sent on the handle of this moment. -/
def byte (d : DataReady) (s : Chip) : Chip :=
  let out := uartEventHandle s.uart d
  { s with
    uart := out.1
    sending := match out.2 with
      | [] => .idle
      | data :: _ => .check data s.app.mConnHandle }

def step (s : Chip) : Event → Option Chip
  | .ble e => (Link.step s.app e).map fun app =>
      if Refused e then { boot with faulted := s.faulted } else { s with app }
  | .byte d =>
    match s.sending with
    | .idle => some (byte d s)
    | _ => none
  | .attempt =>
    match s.sending with
    | .check data connHandle =>
      match bleUartsDataSend data connHandle s.app with
      | some code => some (returned data connHandle code s)
      | none => some { s with sending := .hvx data connHandle }
    | _ => none
  | .answer code =>
    match s.sending with
    | .hvx data connHandle =>
      if Allowed s.app code then some (returned data connHandle code s) else none
    | _ => none

/-- The frame fits where the notification would be made, and a link on which it is made
has its system attributes. -/
def Fits (s : Chip) : Event → Prop
  | .attempt =>
    match s.sending with
    | .check data connHandle => blcmLinkCtxGet connHandle s.app = nrfSuccess →
        s.app.isNotificationEnabled = true → data.length ≤ bleUartsMaxDataLen
    | _ => True
  | .answer _ => s.app.sd.up = true → s.app.sd.sysAttrSet = true
  | _ => True

instance (s : Chip) (e : Event) : Decidable (Fits s e) := by
  cases e
  case attempt =>
    unfold Fits
    cases s.sending <;> infer_instance
  all_goals
    unfold Fits
    infer_instance

/-! ## The codes -/

theorem blcmLinkCtxGet_cases (connHandle : UInt16) (s : App) :
    blcmLinkCtxGet connHandle s = nrfErrorNotFound ∨
      (blcmLinkCtxGet connHandle s = nrfSuccess ∧ connHandle = 0) := by
  unfold blcmLinkCtxGet
  by_cases h : connHandle = 0 ∧ s.valid
  · refine .inr ⟨?_, h.1⟩
    rw [if_neg (not_not.mpr h), h.1, if_neg (by decide)]
  · exact .inl (if_pos h)

/-- The codes the loop lives with. -/
theorem returned_faulted {data : List UInt8} {connHandle : UInt16} {code : UInt32} (s : Chip)
    (h : code = nrfErrorInvalidState ∨ code = nrfErrorResources ∨ code = nrfErrorNotFound ∨
      code = nrfSuccess) : (returned data connHandle code s).faulted = s.faulted := by
  unfold returned
  rw [if_neg (by tauto)]
  split <;> rfl

theorem returned_fault {data : List UInt8} {connHandle : UInt16} {code : UInt32} (s : Chip)
    (h : code = nrfErrorInvalidParam ∨ code = bleErrorGattsSysAttrMissing) :
    (returned data connHandle code s).faulted = true := by
  unfold returned
  rcases h with rfl | rfl
  · rw [if_pos (by decide)]
  · rw [if_pos (by decide)]

/-- The checks fail with a harmless code, or with the length of the frame. -/
theorem bleUartsDataSend_cases {data : List UInt8} {connHandle : UInt16} {s : App} {code : UInt32}
    (h : bleUartsDataSend data connHandle s = some code) :
    (code = nrfErrorNotFound ∨ code = nrfErrorInvalidState) ∨
      (code = nrfErrorInvalidParam ∧ blcmLinkCtxGet connHandle s = nrfSuccess ∧
        s.isNotificationEnabled = true ∧ data.length > bleUartsMaxDataLen) := by
  unfold bleUartsDataSend at h
  split_ifs at h with hctx hinv hflag hlen
  · rcases blcmLinkCtxGet_cases connHandle s with hc | ⟨hc, -⟩
    · exact .inl (.inl (Option.some.inj h ▸ hc))
    · exact absurd hc hctx
  · exact .inl (.inl (Option.some.inj h).symm)
  · exact .inr ⟨(Option.some.inj h).symm, not_not.mp hctx, hflag, hlen⟩
  · exact .inl (.inr (Option.some.inj h).symm)

/-! ## Faults -/

section

variable {s t : Chip}

/-- Everything an attempt can do. -/
theorem attempt_cases (h : step s .attempt = some t) :
    ∃ data connHandle, s.sending = .check data connHandle ∧
      ((∃ code, bleUartsDataSend data connHandle s.app = some code ∧
          t = returned data connHandle code s) ∨
        t = { s with sending := .hvx data connHandle }) := by
  cases hsend : s.sending with
  | idle =>
    simp only [step, hsend] at h
    cases h
  | check data connHandle =>
    refine ⟨data, connHandle, rfl, ?_⟩
    simp only [step, hsend] at h
    cases hcode : bleUartsDataSend data connHandle s.app with
    | some code =>
      simp only [hcode] at h
      exact .inl ⟨code, rfl, (Option.some.inj h).symm⟩
    | none =>
      simp only [hcode] at h
      exact .inr (Option.some.inj h).symm
  | hvx data connHandle =>
    simp only [step, hsend] at h
    cases h

theorem answer_cases {code : UInt32} (h : step s (.answer code) = some t) :
    ∃ data connHandle, s.sending = .hvx data connHandle ∧ Allowed s.app code ∧
      t = returned data connHandle code s := by
  cases hsend : s.sending with
  | idle =>
    simp only [step, hsend] at h
    cases h
  | check data connHandle =>
    simp only [step, hsend] at h
    cases h
  | hvx data connHandle =>
    simp only [step, hsend] at h
    obtain ⟨hallowed, ht⟩ := Option.ite_none_right_eq_some.mp h
    exact ⟨data, connHandle, rfl, hallowed, (Option.some.inj ht).symm⟩

end

/-- A step that fits does not fault. -/
theorem step_fits (s : Chip) (e : Event) (t : Chip) (h : s.faulted = false) (hf : Fits s e)
    (hs : step s e = some t) : t.faulted = false := by
  cases e with
  | ble e =>
    obtain ⟨app, -, rfl⟩ := Option.map_eq_some_iff.mp hs
    split <;> exact h
  | byte d =>
    simp only [step] at hs
    split at hs
    · exact Option.some.inj hs ▸ h
    · cases hs
  | attempt =>
    obtain ⟨data, connHandle, hsend, ⟨code, hcode, rfl⟩ | rfl⟩ := attempt_cases hs
    · rcases bleUartsDataSend_cases hcode with hc | ⟨-, hctx, hflag, hlen⟩
      · rw [returned_faulted s (by tauto), h]
      · simp only [Fits, hsend] at hf
        exact absurd (hf hctx hflag) (Nat.not_le.mpr hlen)
    · exact h
  | answer code =>
    obtain ⟨data, connHandle, hsend, hallowed, rfl⟩ := answer_cases hs
    rcases hallowed with hc | hc | hc | ⟨-, hup, hattr⟩
    · rw [returned_faulted s (by tauto), h]
    · rw [returned_faulted s (by tauto), h]
    · rw [returned_faulted s (by tauto), h]
    · rw [hf hup] at hattr; cases hattr

/-- An attempt with a frame that is too long. -/
theorem attempt_misfit {s : Chip} {data : List UInt8} {connHandle : UInt16}
    (hsend : s.sending = .check data connHandle)
    (hctx : blcmLinkCtxGet connHandle s.app = nrfSuccess)
    (hflag : s.app.isNotificationEnabled = true) (hlen : bleUartsMaxDataLen < data.length) :
    ∃ t, step s .attempt = some t ∧ t.faulted = true := by
  have hzero : connHandle = 0 := by
    rcases blcmLinkCtxGet_cases connHandle s.app with hc | ⟨-, hz⟩
    · rw [hc] at hctx
      exact absurd hctx (by decide)
    · exact hz
  have hcode : bleUartsDataSend data connHandle s.app = some nrfErrorInvalidParam := by
    rw [bleUartsDataSend, if_neg (not_not.mpr hctx), if_neg (by rw [hzero]; decide),
      if_neg (not_not.mpr hflag), if_pos hlen]
  refine ⟨returned data connHandle nrfErrorInvalidParam s, ?_, returned_fault s (.inl rfl)⟩
  simp only [step, hsend, hcode]

/-- A step that does not fit faults, or does so with another answer the SoftDevice may
give. -/
theorem step_misfit {s t : Chip} {e : Event} (hf : ¬ Fits s e) (hs : step s e = some t) :
    ∃ e' t', (e' = e ∨ ∃ code code', e = .answer code ∧ e' = .answer code') ∧
      step s e' = some t' ∧ t'.faulted = true := by
  cases e with
  | ble e => exact absurd trivial hf
  | byte d => exact absurd trivial hf
  | attempt =>
    obtain ⟨data, connHandle, hsend, -⟩ := attempt_cases hs
    simp only [Fits, hsend, not_forall, Nat.not_le] at hf
    obtain ⟨hctx, hflag, hlen⟩ := hf
    obtain ⟨t', ht', hfault⟩ := attempt_misfit hsend hctx hflag hlen
    exact ⟨.attempt, t', .inl rfl, ht', hfault⟩
  | answer code =>
    obtain ⟨data, connHandle, hsend, -⟩ := answer_cases hs
    simp only [Fits, not_forall, Bool.not_eq_true] at hf
    obtain ⟨hup, hattr⟩ := hf
    refine ⟨.answer bleErrorGattsSysAttrMissing,
      returned data connHandle bleErrorGattsSysAttrMissing s, .inr ⟨code, _, rfl, rfl⟩, ?_,
      returned_fault s (.inr rfl)⟩
    simp only [step, hsend]
    rw [if_pos (.inr (.inr (.inr ⟨rfl, hup, hattr⟩)))]

/-! ## Frames on the wire -/

/-- Bytes that complete no frame. -/
theorem run_silent {xs : List DataReady} {s : Chip} (hs : s.sending = .idle)
    (h : outputs uartEventHandle s.uart xs = []) :
    run step s (xs.map .byte) = some { s with uart := after uartEventHandle s.uart xs } := by
  induction xs generalizing s with
  | nil => rfl
  | cons x xs ih =>
    obtain ⟨hx, hxs⟩ := List.append_eq_nil_iff.mp h
    have hstep : step s (.byte x) = some { s with uart := (uartEventHandle s.uart x).1 } := by
      simp only [step, hs, byte, hx]
    rw [List.map_cons, run_cons_of_step step hstep,
      ih (s := { s with uart := (uartEventHandle s.uart x).1 }) hs hxs]
    rfl

/-- A frame on the wire starts one `my_uart_ble_send`, with the frame as it is. -/
theorem run_frame {es : List DataReady} {s : Chip} (hs : s.sending = .idle) (hidle : Idle s.uart)
    (hw : WellFormed (bytes es)) (h5 : 5 ≤ es.length) :
    ∃ u, run step s (es.map .byte) =
      some { s with uart := u, sending := .check (bytes es) s.app.mConnHandle } ∧ Idle u := by
  obtain rfl | ⟨xs, x, rfl⟩ := List.eq_nil_or_concat' es
  · exact absurd h5 (by decide)
  rw [List.length_append, List.length_singleton] at h5
  obtain ⟨hout, hu, hsent⟩ := frame_split hw (by omega) hidle
  refine ⟨_, ?_, hu⟩
  rw [List.map_append, run_append_of_run step (run_silent hs hout)]
  simp only [List.map_cons, List.map_nil, run_singleton, step, hs, byte, hsent]

/-- A frame of more than 244 bytes resets the chip when notifications are on. -/
theorem long_frame_faults {es : List DataReady} {s : Chip} (hs : s.sending = .idle)
    (hidle : Idle s.uart) (hctx : s.app.valid = true) (hhandle : s.app.mConnHandle = 0)
    (hflag : s.app.isNotificationEnabled = true) (hw : WellFormed (bytes es))
    (hlen : bleUartsMaxDataLen < es.length) :
    ∃ t, run step s (es.map .byte ++ [.attempt]) = some t ∧ t.faulted = true := by
  have h5 : 5 ≤ es.length := Nat.le_trans (by decide) hlen
  obtain ⟨u, hrun, -⟩ := run_frame hs hidle hw h5
  obtain ⟨t, ht, hfault⟩ := attempt_misfit
    (s := { s with uart := u, sending := .check (bytes es) s.app.mConnHandle }) rfl
    (by simp [blcmLinkCtxGet, hhandle, hctx]) hflag (by simpa [bytes] using hlen)
  exact ⟨t, by rw [run_append_of_run step hrun, run_singleton, ht], hfault⟩

/-- In every run whose attempts fit, `my_uart_ble_send` never faults; after any run, an
attempt that does not fit faults with an answer the SoftDevice may give. -/
theorem uart_never_faults (es : List Event) (s : Chip) (h : run step boot es = some s) :
    (Along step Fits boot es → Always step (fun s => s.faulted = false) boot es) ∧
      ∀ (e : Event) (t : Chip), ¬ Fits s e → step s e = some t →
        ∃ fs u, (fs = es ++ [e] ∨ ∃ code code', e = .answer code ∧ fs = es ++ [.answer code']) ∧
          run step boot fs = some u ∧ u.faulted = true := by
  refine ⟨fun ha => always_of_along step_fits rfl es ha, fun e t hf hs => ?_⟩
  obtain ⟨e', u, he, hu, hfault⟩ := step_misfit hf hs
  refine ⟨es ++ [e'], u, ?_, ?_, hfault⟩
  · rcases he with rfl | ⟨code, code', rfl, rfl⟩
    · exact .inl rfl
    · exact .inr ⟨code, code', rfl, rfl⟩
  · rw [run_append_of_run step h, run_singleton, hu]

/-- A peer that turns notifications on, and a reply to it. -/
def subscribed : List Event :=
  [.ble (.connected 0 0), .ble (.sysAttrMissing 0), .ble (.write .txCccd [1, 0])]

def reply : List Event :=
  [0xAA, 0xAA, 0x05, 0xA6, 0x59].map fun b => .byte ⟨b, fun _ => 0⟩

theorem uart_never_faults_reply :
    Always step (fun s => s.faulted = false) boot (subscribed ++ reply ++ [.attempt, .answer 0]) :=
  (uart_never_faults _ _ rfl).1 (by decide)

/-- The next peer has not asked for notifications: the attempt made for it resets the chip. -/
theorem stale_flag_faults :
    ¬ ∀ (es : List Event) (s : Chip), run step boot es = some s → s.faulted = false := by
  intro h
  have hs := h (subscribed ++ [.ble .disconnected, .ble (.connected 0 0)] ++ reply ++
    [.attempt, .answer bleErrorGattsSysAttrMissing]) _ rfl
  exact absurd hs (by decide)

end BleCar.MyBle.Bridge
