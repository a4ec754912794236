import BleCar.L151.Firmware

/-!
# The L151 firmware, statement by statement

The receive DMA channel, the IDLE interrupt of `huart1` and the statements of the main
loop, in any order. A call of `control_protocol_analysis` and one of
`my_motor_control_task` are one step each. The transmit channel, which nothing on the
receive side reads, is left out.
-/

namespace BleCar.L151.System

open BleCar.Lib.Runs
open BleCar.Motion.Routines
open BleCar.Protocol.Frames
open BleCar.Protocol.Control hiding controlProtocolAnalysis
open BleCar.Protocol.Buffer
open BleCar.L151.Firmware hiding step boot

/-- The statement the main loop executes next. -/
inductive MainPos where
  | flagTest
  | headerTest
  | badLen
  | badClear
  | clearFlag
  | readLen
  | zeroLen (myCalLen : UInt8)
  | copy (myCalLen : UInt8)
  | clear (myCalLen : UInt8)
  | print (myCalLen : UInt8)
  | checkSum (myCalLen : UInt8)
  | checkError
  | control
  | task
  deriving DecidableEq

structure Sys where
  mcu : Mcu
  /-- the bytes received since the DMA channel was armed -/
  incoming : List UInt8
  pos : MainPos
  tempBuf : Fin 256 → UInt8
  /-- history: the last IDLE came before the buffer was full, and the main loop has not
  zeroed `rx_len` since -/
  lengthStands : Bool

def boot : Sys := ⟨Firmware.boot, [], .flagTest, fun _ => 0, false⟩

inductive Event where
  | rxByte (b : UInt8)
  | idle
  | main (y : Stray)

def Sys.withRx (s : Sys) (rx : Rx) : Sys := { s with mcu := { s.mcu with rx } }

def rxByte (b : UInt8) (s : Sys) : Sys :=
  { s.withRx { s.mcu.rx with rxBuffer := dmaStore s.incoming.length b s.mcu.rx.rxBuffer } with
    incoming := s.incoming ++ [b] }

/-- `USART1_IRQHandler` on IDLE, which the line raises only after a byte. -/
def idle (s : Sys) : Option Sys :=
  if s.incoming = [] then none
  else some { s.withRx (usartIrq s.incoming.length s.mcu.rx) with
    incoming := []
    lengthStands := decide (s.incoming.length < 256) }

/-- `memcpy(temp_buf, rx_buffer, my_cal_len)` into the zeroed `temp_buf`. -/
def copyBuf (r : Rx) (myCalLen : UInt8) : Fin 256 → UInt8 :=
  fun i => if i.val < myCalLen.toNat then r.rxBuffer i else 0

/-- `temp_buf[i]`. -/
def tempRead (y : Stray) (tempBuf : Fin 256 → UInt8) (i : Nat) : UInt8 :=
  if h : i < 256 then tempBuf ⟨i, h⟩ else y.temp (i - 256)

/-- The next statement of the main loop; `none` when the controller resets and when the
task never returns. -/
def mainStep (y : Stray) (s : Sys) : Option Sys :=
  match s.pos with
  | .flagTest => some { s with pos := if s.mcu.rx.recvEndFlag ≠ true then .task else .headerTest }
  | .headerTest => some { s with pos := if headerOk y s.mcu.rx then .clearFlag else .badLen }
  | .badLen => some { s.withRx { s.mcu.rx with rxLen := 0 } with
      lengthStands := false
      pos := .badClear }
  | .badClear => some { s.withRx { s.mcu.rx with
      rxBuffer := clearFirst s.mcu.rx.rxLen.toNat s.mcu.rx.rxBuffer } with pos := .task }
  | .clearFlag => some { s.withRx { s.mcu.rx with recvEndFlag := false } with pos := .readLen }
  | .readLen => some { s with pos := .zeroLen s.mcu.rx.rxLen }
  | .zeroLen myCalLen => some { s.withRx { s.mcu.rx with rxLen := 0 } with
      lengthStands := false
      pos := .copy myCalLen }
  | .copy myCalLen => some { s with tempBuf := copyBuf s.mcu.rx myCalLen, pos := .clear myCalLen }
  -- `rx_len` is read again here, and IDLE may have set it since
  | .clear myCalLen => some { s.withRx { s.mcu.rx with
      rxBuffer := clearFirst s.mcu.rx.rxLen.toNat s.mcu.rx.rxBuffer } with pos := .print myCalLen }
  | .print myCalLen =>
    (printArrayHex myCalLen.toUInt16).map fun _ => { s with pos := .checkSum myCalLen }
  | .checkSum myCalLen => some { s with
      pos := if checkCode (tempRead y s.tempBuf) myCalLen ≠ 0 then .checkError else .control }
  | .checkError => some { s with
      mcu := { s.mcu with sent := s.mcu.sent ++ [myUart3TxToBLE y s.mcu.globals 0xA6 0] }
      pos := .task }
  | .control =>
    let out := controlProtocolAnalysis y s.mcu.globals (tempRead y s.tempBuf)
    some { s with
      mcu := { s.mcu with globals := out.1, sent := s.mcu.sent ++ out.2 }
      pos := .task }
  | .task => (myMotorControlTask board y s.mcu.globals s.mcu.drive).map fun out =>
      { s with mcu := { s.mcu with globals := out.1, drive := out.2 }, pos := .flagTest }

def step (s : Sys) : Event → Option Sys
  | .rxByte b => some (rxByte b s)
  | .idle => idle s
  | .main y => mainStep y s

/-- The events of a burst that arrives without interruption. -/
def arrival (b : List UInt8) : List Event := b.map .rxByte ++ [.idle]

/-- Statements of the main loop that meet the same stray values. -/
def mains (n : Nat) (y : Stray) : List Event := List.replicate n (.main y)

/-! ## The model of one burst at a time is this one without interruptions -/

section

variable {s t : Sys} {y : Stray}

theorem printArrayHex_eq (n : UInt8) :
    printArrayHex n.toUInt16 = if n = 0 then none else some () := by
  have hz : n.toUInt16 = 0 ↔ n = 0 := by
    refine ⟨fun h => UInt8.toNat.inj ?_, fun h => by rw [h]; rfl⟩
    rw [← UInt8.toNat_toUInt16, h]
    rfl
  simp only [printArrayHex, hz]

/-- `print_array_hex` is where the controller resets, and it does on length 0 only. -/
theorem mainStep_print {n : UInt8} (hpos : s.pos = .print n) :
    mainStep y s = if n = 0 then none else some { s with pos := .checkSum n } := by
  simp only [mainStep, hpos, printArrayHex_eq]
  split <;> rfl

theorem tempRead_copyBuf (y : Stray) (r : Rx) (myCalLen : UInt8) :
    tempRead y (copyBuf r myCalLen) = Firmware.tempBuf y r myCalLen := by
  funext i
  unfold tempRead Firmware.tempBuf copyBuf rxRead
  by_cases h : i < 256
  · simp [h]
  · simp [h]

theorem run_mains (h : mainStep y s = some t) (n : Nat) :
    run step s (mains (n + 1) y) = run step t (mains n y) :=
  run_cons_of_step step (show step s (.main y) = some t from h) _

theorem mains_add (m n : Nat) : mains (m + n) y = mains m y ++ mains n y :=
  List.replicate_add ..

/-- The state in which `print_array_hex` is called, if nothing intervenes from the reading
of `rx_len` on. -/
def printing (s : Sys) : Sys :=
  { s.withRx { s.mcu.rx with rxBuffer := clearFirst 0 s.mcu.rx.rxBuffer, rxLen := 0 } with
    tempBuf := copyBuf { s.mcu.rx with rxLen := 0 } s.mcu.rx.rxLen
    lengthStands := false
    pos := .print s.mcu.rx.rxLen }

theorem run_readLen (hpos : s.pos = .readLen) : run step s (mains 4 y) = some (printing s) := by
  obtain ⟨mcu, incoming, pos, tempBuf, lengthStands⟩ := s
  obtain rfl : pos = .readLen := hpos
  rfl

/-- `s` with the flag of the burst in hand cleared. -/
def flagCleared (s : Sys) : Sys :=
  { s.withRx { s.mcu.rx with recvEndFlag := false } with pos := .readLen }

theorem run_clearFlag (hpos : s.pos = .clearFlag) :
    run step s (mains 5 y) = some (printing (flagCleared s)) := by
  rw [run_mains (t := flagCleared s) (by simp only [mainStep, hpos, flagCleared])]
  exact run_readLen rfl

/-- A bad header costs two more statements. -/
theorem run_badLen (hpos : s.pos = .badLen) : run step s (mains 2 y) = some
    { s.withRx { s.mcu.rx with rxBuffer := clearFirst 0 s.mcu.rx.rxBuffer, rxLen := 0 } with
      lengthStands := false
      pos := .task } := by
  obtain ⟨mcu, incoming, pos, tempBuf, lengthStands⟩ := s
  obtain rfl : pos = .badLen := hpos
  rfl

/-- What follows `print_array_hex`. -/
def concluded (y : Stray) (myCalLen : UInt8) (s : Sys) : Sys :=
  if checkCode (tempRead y s.tempBuf) myCalLen ≠ 0 then
    { s with
      mcu := { s.mcu with sent := s.mcu.sent ++ [myUart3TxToBLE y s.mcu.globals 0xA6 0] }
      pos := .task }
  else
    { s with
      mcu := { s.mcu with
        globals := (controlProtocolAnalysis y s.mcu.globals (tempRead y s.tempBuf)).1
        sent := s.mcu.sent ++ (controlProtocolAnalysis y s.mcu.globals (tempRead y s.tempBuf)).2 }
      pos := .task }

theorem run_print {n : UInt8} (hpos : s.pos = .print n) (hn : n ≠ 0) :
    run step s (mains 3 y) = some (concluded y n s) := by
  rw [run_mains (t := { s with pos := .checkSum n }) (by rw [mainStep_print hpos, if_neg hn])]
  unfold concluded
  by_cases hc : checkCode (tempRead y s.tempBuf) n = 0
  · rw [run_mains (t := { s with pos := .control }) (by simp [mainStep, hc]), if_neg (by simp [hc])]
    rfl
  · rw [run_mains (t := { s with pos := .checkError }) (by simp [mainStep, hc]), if_pos hc]
    rfl

/-- The parser on a header: the call of `print_array_hex` decides. -/
theorem analysis_printing (hf : s.mcu.rx.recvEndFlag = true) (hh : headerOk y s.mcu.rx) :
    myMotorControlProtocolAnalysis y s.mcu = if s.mcu.rx.rxLen = 0 then none
      else some (concluded y s.mcu.rx.rxLen (printing (flagCleared s))).mcu := by
  have hgo : ¬ (rxRead y s.mcu.rx 0 ≠ 0xAA ∨ rxRead y s.mcu.rx 1 ≠ 0xAA) := by simp [hh.1, hh.2]
  unfold myMotorControlProtocolAnalysis
  rw [if_neg (not_not.mpr hf), if_neg hgo]
  by_cases hlen : s.mcu.rx.rxLen = 0
  · simp only [printArrayHex_eq, hlen, if_true, Option.map_none]
  · simp only [printArrayHex_eq, hlen, if_false, Option.map_some, concluded, printing, flagCleared,
      tempRead_copyBuf, Sys.withRx]
    split <;> rfl

/-- An uninterrupted pass through the parser is one `my_motor_control_protocol_analysis`. -/
theorem run_analysis (hpos : s.pos = .flagTest) {m : Mcu}
    (h : myMotorControlProtocolAnalysis y s.mcu = some m) :
    ∃ n t, run step s (mains n y) = some t ∧ t.pos = .task ∧ t.mcu = m ∧
      t.incoming = s.incoming := by
  by_cases hf : s.mcu.rx.recvEndFlag = true
  case neg =>
    refine ⟨1, { s with pos := .task }, ?_, rfl,
      Option.some.inj ((if_pos hf).symm.trans h), rfl⟩
    rw [run_mains (t := { s with pos := .task }) (by simp [mainStep, hpos, hf])]
    rfl
  have h1 : mainStep y s = some { s with pos := .headerTest } := by simp [mainStep, hpos, hf]
  by_cases hh : headerOk y s.mcu.rx
  · have h2 : mainStep y { s with pos := .headerTest } = some { s with pos := .clearFlag } := by
      simp [mainStep, hh]
    rw [analysis_printing hf hh] at h
    split at h
    case isTrue => cases h
    case isFalse hlen =>
      refine ⟨10, _, ?_, ?_, Option.some.inj h, ?_⟩
      · rw [run_mains h1, run_mains h2, mains_add 5 3, run_append_of_run step (run_clearFlag rfl)]
        exact run_print rfl hlen
      · unfold concluded
        split <;> rfl
      · unfold concluded
        split <;> rfl
  · have h2 : mainStep y { s with pos := .headerTest } = some { s with pos := .badLen } := by
      simp [mainStep, hh]
    refine ⟨4, _, (run_mains h1 3).trans ((run_mains h2 2).trans (run_badLen rfl)), rfl, ?_, rfl⟩
    · rw [headerOk, not_and_or] at hh
      exact Option.some.inj (((if_neg (not_not.mpr hf)).trans (if_pos hh)).symm.trans h)

theorem run_rxBytes (b : List UInt8) (base : Fin 256 → UInt8)
    (h : s.mcu.rx.rxBuffer = dmaFill s.incoming base) :
    run step s (b.map .rxByte) = some
      { s.withRx { s.mcu.rx with rxBuffer := dmaFill (s.incoming ++ b) base } with
        incoming := s.incoming ++ b } := by
  induction b generalizing s with
  | nil => simp [Sys.withRx, ← h]
  | cons x b ih =>
    have hx : (rxByte x s).mcu.rx.rxBuffer = dmaFill (rxByte x s).incoming base := by
      simp only [rxByte, Sys.withRx]
      rw [h, dmaStore_dmaFill]
    rw [List.map_cons, run_cons_of_step step (show step s (.rxByte x) = some (rxByte x s) from rfl),
      ih hx]
    simp [rxByte, Sys.withRx]

/-- An uninterrupted burst is one `receive`. -/
theorem run_arrival {b : List UInt8} (hb : b ≠ []) (h : s.incoming = []) :
    run step s (arrival b) = some
      { s with mcu := s.mcu.after b, lengthStands := decide (b.length < 256) } := by
  have hbytes := run_rxBytes b s.mcu.rx.rxBuffer (by rw [h, dmaFill_nil])
  rw [h, List.nil_append] at hbytes
  rw [arrival, run_append_of_run step hbytes]
  simp [run_cons, step, idle, hb, Sys.withRx, Mcu.after, receive, usartIrq, h]

/-- An uninterrupted pass of the main loop is one `mainLoop`. -/
theorem run_mainLoop {m : Mcu} (hpos : s.pos = .flagTest) (h : mainLoop y s.mcu = some m) :
    ∃ n t, run step s (mains n y) = some t ∧ t.pos = .flagTest ∧ t.mcu = m ∧
      t.incoming = s.incoming := by
  obtain ⟨k, hk, h⟩ := Option.bind_eq_some_iff.mp h
  obtain ⟨n, t, hrun, htask, rfl, hin⟩ := run_analysis hpos hk
  obtain ⟨out, hout, rfl⟩ := Option.map_eq_some_iff.mp h
  refine ⟨n + 1, { t with
    mcu := { t.mcu with globals := out.1, drive := out.2 }, pos := .flagTest }, ?_, rfl, rfl, hin⟩
  rw [mains_add, run_append_of_run step hrun]
  simp only [mains, List.replicate_one, run_singleton, step, mainStep, htask, hout, Option.map_some]

end

/-- At the loop head, with no byte of a burst under way. -/
structure AtHead (m : Mcu) (s : Sys) : Prop where
  mcu : s.mcu = m
  pos : s.pos = .flagTest
  incoming : s.incoming = []

/-- One `Firmware.step` is a burst without interruption and an uninterrupted pass. -/
theorem step_refined {m n : Mcu} {s : Sys} {b : Burst} (h : AtHead m s) (hb : b.bytes ≠ [])
    (hstep : Firmware.step m b = some n) : ∃ es t, run step s es = some t ∧ AtHead n t := by
  have harr := run_arrival hb h.incoming
  rw [Firmware.step, ← h.mcu] at hstep
  obtain ⟨k, t, ht, hpos, hmcu, hin⟩ := run_mainLoop (s := { s with
    mcu := s.mcu.after b.bytes, lengthStands := decide (b.bytes.length < 256) }) h.pos hstep
  exact ⟨arrival b.bytes ++ mains k b.stray, t, (run_append_of_run step harr _).trans ht, hmcu,
    hpos, hin.trans h.incoming⟩

/-- Every run of `Firmware.step` over non-empty bursts is a run of the system. -/
theorem run_refined {m n : Mcu} {s : Sys} (h : AtHead m s) {bs : List Burst}
    (hb : Along Firmware.step (fun _ b => b.bytes ≠ []) m bs)
    (hr : run Firmware.step m bs = some n) :
    ∃ es t, run step s es = some t ∧ AtHead n t :=
  refinement (fun _ _ _ _ hR hne hstep => step_refined hR hne hstep) h hb hr

end BleCar.L151.System
