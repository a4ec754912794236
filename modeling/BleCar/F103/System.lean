import BleCar.F103.Firmware
import BleCar.Protocol.Statements

/-!
# The F103 firmware, statement by statement

The receive DMA channel, the IDLE interrupt, the transmit DMA channel and the statements
of the main loop, in any order. The statements of `my_motor_control_protocol_analysis` and
of `control_protocol_analysis` are steps of their own; the checksum and
`my_motor_control_task` are one step each: while the motors ramp, the main loop takes no step
and the other actors do. A checksum over more bytes than the chip has RAM is no step: it
ends in `HardFault_Handler`, which never returns. The prints leave no trace. The history
fields record what the results about the receive path speak of.
-/

namespace BleCar.F103.System

open BleCar.Lib.Runs
open BleCar.Motion.Routines
open BleCar.Protocol.Frames
open BleCar.Protocol.Control hiding controlProtocolAnalysis
open BleCar.Protocol.Buffer
open BleCar.F103.Firmware

/-- The statement the main loop executes next. -/
inductive MainPos where
  | flagTest
  | headerTest
  | clearFlag
  | readLen
  | checkSum (myCalLen : UInt8)
  | checkError
  /-- the call of `control_protocol_analysis`, up to its `switch` -/
  | control (myCalLen : UInt8)
  | command (p : ControlPos)
  | task
  deriving DecidableEq

/-- The transmit side of `huart3`. `busy` stands for `HAL_UART_STATE_BUSY_TX`; the channel
has moved `pos` of `size` bytes. -/
structure Tx where
  tempTxbuf : List UInt8
  busy : Bool
  dmat : Bool
  pos : Nat
  size : Nat

def Tx.boot : Tx := ⟨[], false, false, 0, 0⟩

/-- `my_uart3_tx_to_BLE` rebuilds `temp_txbuf` and then calls `HAL_UART_Transmit_DMA`, whose
`HAL_BUSY` it ignores. -/
def transmitDMA (frame : List UInt8) (tx : Tx) : Tx :=
  let tx := { tx with tempTxbuf := frame }
  if tx.busy then tx else { tx with busy := true, dmat := true, pos := 0, size := frame.length }

/-- The transmit half of `HAL_UART_DMAStop`. -/
def dmaStop (tx : Tx) : Tx :=
  if tx.busy ∧ tx.dmat then { tx with busy := false, dmat := false } else tx

/-- One call of `control_protocol_analysis`: `rx_buffer[0 .. my_cal_len)` on its entry, the
bytes it has read so far, and those summed before, each with its index. -/
structure Entry where
  bytes : List UInt8
  reads : List (Nat × UInt8)
  summed : List (Nat × UInt8)

structure Sys where
  mcu : Mcu
  /-- the bytes received since the DMA channel was armed -/
  incoming : List UInt8
  pos : MainPos
  tx : Tx
  wire : List UInt8
  /-- history: the bursts ended by IDLE -/
  terminated : List (List UInt8)
  /-- history: what `my_check_code_analysis` summed last -/
  summed : List (Nat × UInt8)
  /-- history: the calls of `control_protocol_analysis` -/
  entered : List Entry

def boot : Sys := ⟨Firmware.boot, [], .flagTest, Tx.boot, [], [], [], []⟩

inductive Event where
  | rxByte (b : UInt8)
  | idle
  | main (y : Stray)
  | txByte
  | dmaComplete
  | txDone

def Sys.withRx (s : Sys) (rx : Rx) : Sys := { s with mcu := { s.mcu with rx } }

def rxByte (b : UInt8) (s : Sys) : Sys :=
  { s.withRx { s.mcu.rx with rxBuffer := dmaStore s.incoming.length b s.mcu.rx.rxBuffer } with
    incoming := s.incoming ++ [b] }

/-- `USART3_IRQHandler` on IDLE, which the line raises only after a byte. -/
def idle (s : Sys) : Option Sys :=
  if s.incoming = [] then none
  else some { s.withRx (usartIrq s.incoming.length s.mcu.rx) with
    incoming := []
    tx := dmaStop s.tx
    terminated := s.terminated ++ [s.incoming] }

def send (s : Sys) (frame : List UInt8) : Sys :=
  { s with
    mcu := { s.mcu with sent := s.mcu.sent ++ [frame] }
    tx := transmitDMA frame s.tx }

/-- `rx_buffer[i .. i+n)` with the indices. -/
def readFrom (y : Stray) (r : Rx) (i n : Nat) : List (Nat × UInt8) :=
  (List.range n).map fun k => (i + k, rxRead y r (i + k))

/-- The 20 KB of RAM. -/
def ramSize : Nat := 0x5000

/-- The sum cannot end inside the RAM. -/
def SumFaults (myCalLen : UInt8) : Prop := ramSize < sumLen myCalLen

instance (myCalLen : UInt8) : Decidable (SumFaults myCalLen) :=
  inferInstanceAs (Decidable (_ < _))

/-- The record of a call of `control_protocol_analysis(rx_buffer, my_cal_len)`. -/
def entry (y : Stray) (myCalLen : UInt8) (s : Sys) : Entry where
  bytes := (List.range myCalLen.toNat).map (rxRead y s.mcu.rx)
  reads := []
  summed := s.summed

/-- The call under way, which is the last, has read `rs`. -/
def noteReads (rs : List (Nat × UInt8)) : List Entry → List Entry
  | [] => []
  | [en] => [{ en with reads := en.reads ++ rs }]
  | en :: ens => en :: noteReads rs ens

def controlStatement (y : Stray) (p : ControlPos) (s : Sys) : Outcome :=
  controlStep myTurnLeft myTurnRight y s.mcu.globals (rxRead y s.mcu.rx) p

/-- The statement at `p` of `control_protocol_analysis`. -/
def execute (y : Stray) (p : ControlPos) (s : Sys) : Sys :=
  let out := controlStatement y p s
  out.sent.foldl send { s with
    mcu := { s.mcu with globals := out.globals }
    entered := noteReads (p.reads.map fun i => (i, rxRead y s.mcu.rx i)) s.entered
    pos := out.next.elim .task .command }

/-- The next statement of the main loop; `none` when the checksum faults or the task never
returns. -/
def mainStep (y : Stray) (s : Sys) : Option Sys :=
  match s.pos with
  | .flagTest => some { s with pos := if s.mcu.rx.recvEndFlag ≠ true then .task else .headerTest }
  | .headerTest => some { s with pos := if headerOk y s.mcu.rx then .clearFlag else .task }
  | .clearFlag => some { s.withRx { s.mcu.rx with recvEndFlag := false } with pos := .readLen }
  | .readLen => some { s with pos := .checkSum s.mcu.rx.rxLen }
  | .checkSum myCalLen =>
    if SumFaults myCalLen then none
    else some { s with
      summed := readFrom y s.mcu.rx 3 (sumLen myCalLen)
      pos := if checkCode (rxRead y s.mcu.rx) myCalLen ≠ 0 then .checkError
        else .control myCalLen }
  | .checkError => some { send s (myUart3TxToBLE y s.mcu.globals 0xA6 0) with pos := .task }
  | .control myCalLen =>
    some (execute y .switch { s with entered := s.entered ++ [entry y myCalLen s] })
  | .command p => some (execute y p s)
  | .task => (myMotorControlTask board y s.mcu.globals s.mcu.drive).map fun out =>
      { s with mcu := { s.mcu with globals := out.1, drive := out.2 }, pos := .flagTest }

/-- The channel moves one byte of `temp_txbuf`, which is zero behind the frame. -/
def txByte (s : Sys) : Option Sys :=
  if s.tx.dmat ∧ s.tx.pos < s.tx.size then
    some { s with
      wire := s.wire ++ [s.tx.tempTxbuf.getD s.tx.pos 0]
      tx := { s.tx with pos := s.tx.pos + 1 } }
  else none

/-- `UART_DMATransmitCplt`, after the last byte. -/
def dmaComplete (s : Sys) : Option Sys :=
  if s.tx.dmat ∧ s.tx.pos = s.tx.size then some { s with tx := { s.tx with dmat := false } }
  else none

/-- `UART_EndTransmit_IT`, once the channel is off. -/
def txDone (s : Sys) : Option Sys :=
  if s.tx.busy ∧ ¬ s.tx.dmat then some { s with tx := { s.tx with busy := false } } else none

def step (s : Sys) : Event → Option Sys
  | .rxByte b => some (rxByte b s)
  | .idle => idle s
  | .main y => mainStep y s
  | .txByte => txByte s
  | .dmaComplete => dmaComplete s
  | .txDone => txDone s

/-! ## The model of one burst at a time is this one without interruptions -/

section

variable {s : Sys}

theorem foldl_send (fs : List (List UInt8)) (s : Sys) :
    fs.foldl send s = { s with
      mcu := { s.mcu with sent := s.mcu.sent ++ fs }
      tx := fs.foldl (fun tx f => transmitDMA f tx) s.tx } := by
  induction fs generalizing s with
  | nil => simp
  | cons f fs ih => rw [List.foldl_cons, ih]; simp [send]

theorem execute_eq (y : Stray) (p : ControlPos) (s : Sys) :
    execute y p s = { s with
      mcu := { s.mcu with
        globals := (controlStatement y p s).globals
        sent := s.mcu.sent ++ (controlStatement y p s).sent }
      tx := (controlStatement y p s).sent.foldl (fun tx f => transmitDMA f tx) s.tx
      entered := noteReads (p.reads.map fun i => (i, rxRead y s.mcu.rx i)) s.entered
      pos := (controlStatement y p s).next.elim .task .command } :=
  foldl_send _ _

/-- Behind a statement of the call comes the next, or the task. -/
theorem elim_next (o : Option ControlPos) : o.elim MainPos.task .command = .task ∨
    ∃ q, o = some q ∧ o.elim MainPos.task .command = .command q := by
  cases o with
  | none => exact .inl rfl
  | some q => exact .inr ⟨q, rfl, rfl⟩

@[simp] theorem noteReads_concat (rs : List (Nat × UInt8)) (ens : List Entry) (en : Entry) :
    noteReads rs (ens ++ [en]) = ens ++ [{ en with reads := en.reads ++ rs }] := by
  induction ens with
  | nil => rfl
  | cons e ens ih =>
    cases ens with
    | nil => rfl
    | cons e' ens => exact congrArg (e :: ·) ih

theorem noteReads_bytes (rs : List (Nat × UInt8)) (ens : List Entry) :
    (noteReads rs ens).map Entry.bytes = ens.map Entry.bytes := by
  rcases List.eq_nil_or_concat ens with rfl | ⟨ens, en, rfl⟩
  · rfl
  · rw [List.concat_eq_append, noteReads_concat]
    simp

/-- A sum over the bytes behind a header stays in the buffer, one over fewer leaves the RAM. -/
theorem sumFaults_iff (n : UInt8) : SumFaults n ↔ n.toNat < 3 := by
  have hlt := n.toNat_lt
  rw [SumFaults, ramSize, sumLen_toNat]
  split <;> omega

theorem mainStep_checkSum {y : Stray} {n : UInt8} (hpos : s.pos = .checkSum n)
    (hn : ¬ SumFaults n) :
    mainStep y s = some { s with
      summed := readFrom y s.mcu.rx 3 (sumLen n)
      pos := if checkCode (rxRead y s.mcu.rx) n ≠ 0 then .checkError else .control n } := by
  simp only [mainStep, hpos, if_neg hn]

/-- Everything a statement of the main loop can do. -/
inductive Stepped (y : Stray) (s : Sys) : Sys → Prop
  | flagTest (hpos : s.pos = .flagTest) :
    Stepped y s { s with pos := if s.mcu.rx.recvEndFlag ≠ true then .task else .headerTest }
  | headerTest (hpos : s.pos = .headerTest) :
    Stepped y s { s with pos := if headerOk y s.mcu.rx then .clearFlag else .task }
  | clearFlag (hpos : s.pos = .clearFlag) :
    Stepped y s { s.withRx { s.mcu.rx with recvEndFlag := false } with pos := .readLen }
  | readLen (hpos : s.pos = .readLen) : Stepped y s { s with pos := .checkSum s.mcu.rx.rxLen }
  | checkSum (n : UInt8) (hpos : s.pos = .checkSum n) (hn : ¬ SumFaults n) :
    Stepped y s { s with
      summed := readFrom y s.mcu.rx 3 (sumLen n)
      pos := if checkCode (rxRead y s.mcu.rx) n ≠ 0 then .checkError else .control n }
  | checkError (hpos : s.pos = .checkError) :
    Stepped y s { send s (myUart3TxToBLE y s.mcu.globals 0xA6 0) with pos := .task }
  | control (n : UInt8) (hpos : s.pos = .control n) :
    Stepped y s (execute y .switch { s with entered := s.entered ++ [entry y n s] })
  | command (p : ControlPos) (hpos : s.pos = .command p) : Stepped y s (execute y p s)
  | task (out : Globals × Motion.Hardware.Drive) (hpos : s.pos = .task)
    (hout : myMotorControlTask board y s.mcu.globals s.mcu.drive = some out) :
    Stepped y s { s with mcu := { s.mcu with globals := out.1, drive := out.2 }, pos := .flagTest }

theorem mainStep_stepped {t : Sys} {y : Stray} (h : mainStep y s = some t) : Stepped y s t := by
  unfold mainStep at h
  split at h
  case h_1 hpos => exact Option.some.inj h ▸ .flagTest hpos
  case h_2 hpos => exact Option.some.inj h ▸ .headerTest hpos
  case h_3 hpos => exact Option.some.inj h ▸ .clearFlag hpos
  case h_4 hpos => exact Option.some.inj h ▸ .readLen hpos
  case h_5 n hpos =>
    split at h
    case isTrue => cases h
    case isFalse hn => exact Option.some.inj h ▸ .checkSum n hpos hn
  case h_6 hpos => exact Option.some.inj h ▸ .checkError hpos
  case h_7 n hpos => exact Option.some.inj h ▸ .control n hpos
  case h_8 p hpos => exact Option.some.inj h ▸ .command p hpos
  case h_9 hpos =>
    obtain ⟨out, hout, rfl⟩ := Option.map_eq_some_iff.mp h
    exact .task out hpos hout

/-- The main loop leaves the receive side to the interrupts. -/
theorem main_incoming {t : Sys} {y : Stray} (h : mainStep y s = some t) :
    t.incoming = s.incoming ∧ t.terminated = s.terminated := by
  cases mainStep_stepped h with
  | control n hpos =>
    rw [execute_eq]
    exact ⟨rfl, rfl⟩
  | command p hpos =>
    rw [execute_eq]
    exact ⟨rfl, rfl⟩
  | _ => exact ⟨rfl, rfl⟩

/-- A step is a statement of the main loop or leaves what only the main loop writes. -/
theorem step_cases {e : Event} {t : Sys} (h : step s e = some t) :
    (∃ y, e = .main y ∧ mainStep y s = some t) ∨
      (t.pos = s.pos ∧ t.mcu.globals = s.mcu.globals ∧ t.mcu.drive = s.mcu.drive) := by
  cases e with
  | main y => exact .inl ⟨y, rfl, h⟩
  | rxByte b =>
    obtain rfl := Option.some.inj h
    exact .inr ⟨rfl, rfl, rfl⟩
  | idle =>
    simp only [step, idle] at h
    split at h <;> cases h
    exact .inr ⟨rfl, rfl, rfl⟩
  | txByte =>
    simp only [step, txByte] at h
    split at h <;> cases h
    exact .inr ⟨rfl, rfl, rfl⟩
  | dmaComplete =>
    simp only [step, dmaComplete] at h
    split at h <;> cases h
    exact .inr ⟨rfl, rfl, rfl⟩
  | txDone =>
    simp only [step, txDone] at h
    split at h <;> cases h
    exact .inr ⟨rfl, rfl, rfl⟩

/-- The events of a burst that arrives without interruption. -/
def arrival (b : List UInt8) : List Event := b.map .rxByte ++ [.idle]

theorem run_rxBytes (b : List UInt8) (base : Fin 256 → UInt8)
    (h : s.mcu.rx.rxBuffer = dmaFill s.incoming base) :
    run step s (b.map .rxByte) = some
      { s.withRx { s.mcu.rx with rxBuffer := dmaFill (s.incoming ++ b) base } with
        incoming := s.incoming ++ b } := by
  induction b generalizing s with
  | nil => simp [Sys.withRx, ← h]
  | cons x b ih =>
    have hx : (rxByte x s).mcu.rx.rxBuffer = dmaFill (rxByte x s).incoming base := by
      simp only [rxByte, Sys.withRx]
      rw [h, dmaStore_dmaFill]
    rw [List.map_cons, run_cons_of_step step (show step s (.rxByte x) = some (rxByte x s) from rfl),
      ih hx]
    simp [rxByte, Sys.withRx]

/-- An uninterrupted burst is one `receive`. -/
theorem run_arrival {b : List UInt8} (hb : b ≠ []) (h : s.incoming = []) :
    run step s (arrival b) = some
      { s with
        mcu := s.mcu.after b
        tx := dmaStop s.tx
        terminated := s.terminated ++ [b] } := by
  have hbytes := run_rxBytes b s.mcu.rx.rxBuffer (by rw [h, dmaFill_nil])
  rw [h, List.nil_append] at hbytes
  rw [arrival, run_append_of_run step hbytes]
  simp [run_cons, step, idle, hb, Sys.withRx, Mcu.after, receive, usartIrq, h]

theorem run_main {s t : Sys} {y : Stray} (h : mainStep y s = some t) (n : Nat) :
    run step s (List.replicate (n + 1) (.main y)) = run step t (List.replicate n (.main y)) :=
  run_cons_of_step step (show step s (.main y) = some t from h) _

/-- `s` with the flag of the burst in hand cleared and its length read. -/
def lenRead (s : Sys) : Sys :=
  { s.withRx { s.mcu.rx with recvEndFlag := false } with pos := .checkSum s.mcu.rx.rxLen }

/-- A call of `control_protocol_analysis` does undisturbed what is left of it. -/
theorem run_execute (y : Stray) (p : ControlPos) (s : Sys) :
    ∃ n < p.rank, ∃ t, run step (execute y p s) (List.replicate n (.main y)) = some t ∧
      t.pos = .task ∧ t.incoming = s.incoming ∧ t.mcu = { s.mcu with
        globals := (finish myTurnLeft myTurnRight y s.mcu.globals (rxRead y s.mcu.rx) p).1
        sent := s.mcu.sent ++
          (finish myTurnLeft myTurnRight y s.mcu.globals (rxRead y s.mcu.rx) p).2 } := by
  induction hrank : p.rank using Nat.strongRecOn generalizing p s with
  | ind r ih =>
    subst hrank
    have hexec := execute_eq y p s
    cases hq : (controlStatement y p s).next with
    | none =>
      refine ⟨0, rank_pos p, execute y p s, rfl, ?_, ?_, ?_⟩ <;> rw [hexec]
      · rw [hq]
        rfl
      · rw [finish_last hq]
        rfl
    | some q =>
      have hpos : (execute y p s).pos = .command q := by rw [hexec, hq]; rfl
      obtain ⟨n, hn, t, hrun, htask, hin, hmcu⟩ :=
        ih q.rank (controlStep_rank hq) q (execute y p s) rfl
      refine ⟨n + 1, (Nat.succ_le_of_lt hn).trans_lt (controlStep_rank hq), t, ?_, htask,
        by rw [hin, hexec], ?_⟩
      · rw [run_main (t := execute y q (execute y p s)) (by simp only [mainStep, hpos])]
        exact hrun
      · have hsent : (controlStatement y p s).sent = [] := controlStep_sent hq
        have hfinish : finish myTurnLeft myTurnRight y (controlStatement y p s).globals
            (rxRead y s.mcu.rx) q = finish myTurnLeft myTurnRight y s.mcu.globals
              (rxRead y s.mcu.rx) p := finish_next hq
        rw [hmcu, hexec, hsent, List.append_nil, hfinish]

/-- The parser behind its header test: the checksum decides. -/
theorem run_checkSum {y : Stray} {n : UInt8} (hpos : s.pos = .checkSum n) (hn : ¬ SumFaults n) :
    ∃ k t, run step s (List.replicate k (.main y)) = some t ∧ t.pos = .task ∧
      t.incoming = s.incoming ∧ t.mcu =
        if checkCode (rxRead y s.mcu.rx) n ≠ 0 then
          { s.mcu with sent := s.mcu.sent ++ [myUart3TxToBLE y s.mcu.globals 0xA6 0] }
        else { s.mcu with
          globals := (controlProtocolAnalysis y s.mcu.globals (rxRead y s.mcu.rx)).1
          sent := s.mcu.sent ++
            (controlProtocolAnalysis y s.mcu.globals (rxRead y s.mcu.rx)).2 } := by
  have hsum := mainStep_checkSum (y := y) hpos hn
  by_cases hc : checkCode (rxRead y s.mcu.rx) n ≠ 0
  · simp only [if_pos hc] at hsum ⊢
    let u : Sys := { s with summed := readFrom y s.mcu.rx 3 (sumLen n), pos := .checkError }
    exact ⟨2, { send u (myUart3TxToBLE y s.mcu.globals 0xA6 0) with pos := .task },
      (run_main hsum 1).trans (run_main rfl 0), rfl, rfl, rfl⟩
  · simp only [if_neg hc] at hsum ⊢
    obtain ⟨k, -, t, hrun, htask, hin, hmcu⟩ := run_execute y .switch { s with
      summed := readFrom y s.mcu.rx 3 (sumLen n)
      pos := .control n
      entered := s.entered ++
        [entry y n { s with summed := readFrom y s.mcu.rx 3 (sumLen n), pos := .control n }] }
    exact ⟨k + 2, t, (run_main hsum (k + 1)).trans ((run_main rfl k).trans hrun), htask, hin, hmcu⟩

/-- An uninterrupted pass through the parser is one `my_motor_control_protocol_analysis`. -/
theorem run_analysis {y : Stray} (hpos : s.pos = .flagTest) (hlen : ¬ SumFaults s.mcu.rx.rxLen) :
    ∃ n t, run step s (List.replicate n (.main y)) = some t ∧ t.pos = .task ∧
      t.mcu = myMotorControlProtocolAnalysis y s.mcu ∧ t.incoming = s.incoming := by
  by_cases hf : s.mcu.rx.recvEndFlag = true
  case neg =>
    refine ⟨1, { s with pos := .task }, ?_, rfl, (if_pos hf).symm, rfl⟩
    rw [run_main (t := { s with pos := .task }) (by simp [mainStep, hpos, hf])]
    rfl
  have h1 : mainStep y s = some { s with pos := .headerTest } := by simp [mainStep, hpos, hf]
  by_cases hh : headerOk y s.mcu.rx
  · have h2 : mainStep y { s with pos := .headerTest } = some { s with pos := .clearFlag } := by
      simp [mainStep, hh]
    obtain ⟨k, t, hrun, htask, hin, hmcu⟩ := run_checkSum (y := y) (s := lenRead s) rfl hlen
    refine ⟨k + 4, t, ?_, htask, ?_, hin⟩
    · rw [run_main h1, run_main h2, run_main (y := y) (t := { s.withRx
        { s.mcu.rx with recvEndFlag := false } with pos := .readLen }) rfl, run_main rfl]
      exact hrun
    · rw [hmcu, analysis_header y s.mcu hf hh]
      rfl
  · have h2 : mainStep y { s with pos := .headerTest } = some { s with pos := .task } := by
      simp [mainStep, hh]
    refine ⟨2, { s with pos := .task }, ?_, rfl, ?_, rfl⟩
    · rw [run_main h1, run_main h2]
      rfl
    · rw [analysis_ignored y s.mcu fun h => hh h.2]

/-- An uninterrupted pass of the main loop is one `mainLoop`. -/
theorem run_mainLoop {y : Stray} {m : Mcu} (hpos : s.pos = .flagTest)
    (hlen : ¬ SumFaults s.mcu.rx.rxLen) (h : mainLoop y s.mcu = some m) :
    ∃ n t, run step s (List.replicate n (.main y)) = some t ∧ t.pos = .flagTest ∧ t.mcu = m ∧
      t.incoming = s.incoming := by
  obtain ⟨n, t, hrun, htask, hmcu, hin⟩ := run_analysis (y := y) hpos hlen
  simp only [mainLoop, ← hmcu] at h
  obtain ⟨out, hout, rfl⟩ := Option.map_eq_some_iff.mp h
  refine ⟨n + 1, { t with
    mcu := { t.mcu with globals := out.1, drive := out.2 }, pos := .flagTest }, ?_, rfl, rfl, hin⟩
  rw [List.replicate_add, run_append_of_run step hrun, run_main (t := { t with
    mcu := { t.mcu with globals := out.1, drive := out.2 }, pos := .flagTest })]
  · rfl
  · simp only [mainStep, htask, hout, Option.map_some]

end

/-- At the loop head, with no byte of a burst under way. -/
structure AtHead (m : Mcu) (s : Sys) : Prop where
  mcu : s.mcu = m
  pos : s.pos = .flagTest
  incoming : s.incoming = []

/-- The checksum of a burst of 3 to 255 bytes ends. -/
theorem not_sumFaults_receive {b : List UInt8} (h3 : 3 ≤ b.length) (h255 : b.length ≤ 255)
    (r : Rx) : ¬ SumFaults (receive b r).rxLen := by
  rw [sumFaults_iff, show (receive b r).rxLen = idleLen b.length from rfl,
    idleLen_toNat (by omega) h255]
  omega

/-- One `Firmware.step` is a burst without interruption and an uninterrupted pass. -/
theorem step_delivered {m n : Mcu} {s : Sys} {b : Burst} (h : AtHead m s)
    (h3 : 3 ≤ b.bytes.length) (h255 : b.bytes.length ≤ 255) (hstep : Firmware.step m b = some n) :
    ∃ k t, run step s (arrival b.bytes ++ List.replicate k (.main b.stray)) = some t ∧
      AtHead n t := by
  have hne : b.bytes ≠ [] := List.ne_nil_of_length_pos (by omega)
  have harr := run_arrival hne h.incoming
  rw [Firmware.step, ← h.mcu] at hstep
  obtain ⟨k, t, ht, hpos, hmcu, hin⟩ := run_mainLoop (s := { s with
    mcu := s.mcu.after b.bytes
    tx := dmaStop s.tx
    terminated := s.terminated ++ [b.bytes] }) h.pos (not_sumFaults_receive h3 h255 s.mcu.rx) hstep
  refine ⟨k, t, ?_, hmcu, hpos, hin.trans h.incoming⟩
  rw [run_append_of_run step harr]
  exact ht

/-- Every run of `Firmware.step` over bursts of 3 to 255 bytes is a run of the system. -/
theorem run_refined {m n : Mcu} {s : Sys} (h : AtHead m s) {bs : List Burst}
    (hb : ∀ b ∈ bs, 3 ≤ b.bytes.length ∧ b.bytes.length ≤ 255)
    (hr : run Firmware.step m bs = some n) :
    ∃ es t, run step s es = some t ∧ AtHead n t := by
  have ha := along_and_of_forall Firmware.step (along_true Firmware.step m bs) hb
  refine refinement (fun s b t a hR hlen hstep => ?_) h ha hr
  obtain ⟨k, u, hu, hhead⟩ := step_delivered hR hlen.2.1 hlen.2.2 hstep
  exact ⟨_, u, hu, hhead⟩

end BleCar.F103.System
