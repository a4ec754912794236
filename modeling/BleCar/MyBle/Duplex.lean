import BleCar.MyBle.Relay

/-!
# Both directions of the UART

Each byte received is a transfer of its own: the interrupt of the UARTE driver puts the byte
into the receive FIFO of `app_uart_fifo.c`, calls `uart_event_handle` and starts the next
transfer. It comes in any order with the writes of the phone, the puts of
`uarts_data_handler` and the TX-done interrupt. A line error, an overrun among them, resets
the chip, and so does every code that `APP_ERROR_CHECK` refuses. A checksum that leaves the RAM
hangs it until the watchdog does.
-/

namespace BleCar.MyBle.Duplex

open BleCar.Lib.Runs
open BleCar.Lib.Transducer
open BleCar.MyBle.Link (nrfSuccess nrfErrorBusy nrfErrorNoMem)
open BleCar.MyBle.Uart hiding boot appUartGet
open BleCar.MyBle.Relay hiding boot step Event Room Chip

/-! ## Receiving -/

/-- The receiving half of `uarte_control_block_t`. -/
structure ControlBlock where
  rxBufferLength : Nat
  rxSecondaryBufferLength : Nat

/-- `nrfx_uarte_rx` with `rx_buffer` and a length of 1. -/
def nrfxUarteRx (cb : ControlBlock) : UInt32 × ControlBlock :=
  if cb.rxBufferLength ≠ 0 then
    if cb.rxSecondaryBufferLength ≠ 0 then (nrfErrorBusy, cb)
    else (nrfSuccess, { cb with rxSecondaryBufferLength := 1 })
  else (nrfSuccess, { rxBufferLength := 1, rxSecondaryBufferLength := 0 })

structure Receiver where
  cb : ControlBlock
  mRxFifo : AppFifo
  mRxOvf : Bool
  parser : Parser
  /-- history: the bytes of the transfers that have ended -/
  received : List DataReady
  /-- history: the frames `my_uart_ble_send` was called with -/
  sent : List (List UInt8)

/-- `app_uart_init`, with the variables of `uart_event_handle`. -/
def appUartInit : Receiver where
  cb := (nrfxUarteRx ⟨0, 0⟩).2
  mRxFifo := ⟨fun _ => 0, 0, 0⟩
  mRxOvf := false
  parser := Uart.boot
  received := []
  sent := []

/-- The byte got, or `none` for `NRF_ERROR_NOT_FOUND`. Without a result the chip is reset. -/
def appUartGet (s : Receiver) : Option (Option UInt8 × Receiver) :=
  let (byte, mRxFifo) :=
    match appFifoGet s.mRxFifo with
    | some (byte, mRxFifo) => (some byte, mRxFifo)
    | none => (none, s.mRxFifo)
  let s := { s with mRxFifo }
  if s.mRxOvf then
    let (uartErrCode, cb) := nrfxUarteRx s.cb
    if uartErrCode = nrfSuccess then some (byte, { s with mRxOvf := false, cb }) else none
  else some (byte, s)

/-- `APP_UART_DATA_READY`. Where no byte is got, `data_array[index]` stays as it is. -/
def dataReady (outside : Nat → UInt8) (s : Receiver) : Option Receiver :=
  (appUartGet s).bind fun (byte, s) =>
    let byte := byte.getD (arrayRead outside s.parser.dataArray s.parser.index.toNat)
    if Faults s.parser then none
    else
      let (parser, frames) := uartEventHandle s.parser ⟨byte, outside⟩
      some { s with parser, sent := s.sent ++ frames }

/-- `NRF_DRV_UART_EVT_RX_DONE` with a byte. `APP_UART_FIFO_ERROR` resets the chip. -/
def rxDone (e : DataReady) (s : Receiver) : Option Receiver :=
  let (errCode, mRxFifo) := appFifoPut e.byte s.mRxFifo
  let s := { s with mRxFifo }
  let handled :=
    if errCode ≠ nrfSuccess then none
    else if fifoLength s.mRxFifo ≠ 0 then dataReady e.outside s
    else some s
  handled.map fun s =>
    if fifoLength s.mRxFifo ≤ bufSizeMask then { s with cb := (nrfxUarteRx s.cb).2 }
    else { s with mRxOvf := true }

/-- `NRF_UARTE_EVENT_ENDRX` of a transfer of one byte. -/
def endRx (e : DataReady) (s : Receiver) : Option Receiver :=
  let s := { s with received := s.received ++ [e] }
  if s.cb.rxSecondaryBufferLength ≠ 0 then
    rxDone e { s with cb := ⟨s.cb.rxSecondaryBufferLength, 0⟩ }
  else rxDone e { s with cb := { s.cb with rxBufferLength := 0 } }

/-- `NRF_UARTE_EVENT_RXTO` without a byte: `app_uart_fifo.c` starts a new transfer. -/
def rxTo (s : Receiver) : Receiver :=
  if s.cb.rxBufferLength ≠ 0 then { s with cb := (nrfxUarteRx ⟨0, 0⟩).2 } else s

/-! ## The chip -/

structure Chip where
  receiver : Receiver
  relay : Relay.Chip
  /-- history: how often the chip has been reset -/
  resets : Nat

def boot : Chip := ⟨appUartInit, Relay.boot, 0⟩

def reset (s : Chip) : Chip := { boot with resets := s.resets + 1 }

inductive Event where
  | endRx (e : DataReady)
  | rxTo
  /-- `NRF_UARTE_EVENT_ERROR`, which ends in `APP_UART_COMMUNICATION_ERROR` -/
  | error
  | relay (e : Relay.Event)

def step (s : Chip) : Event → Option Chip
  | .endRx e =>
    if s.receiver.cb.rxBufferLength ≠ 0 then
      match endRx e s.receiver with
      | some receiver => some { s with receiver }
      | none => some (reset s)
    else none
  | .rxTo => some { s with receiver := rxTo s.receiver }
  | .error => some (reset s)
  | .relay e =>
    (Relay.step s.relay e).map fun relay =>
      if relay.faulted then reset s else { s with relay }

/-- No line error, no byte that makes the checksum leave the RAM, and the transmit FIFO has room
where a byte is put. -/
def Harmless (s : Chip) : Event → Prop
  | .endRx _ => ¬ Faults s.receiver.parser
  | .error => False
  | .relay e => Relay.Room s.relay e
  | .rxTo => True

instance (s : Chip) : ∀ e, Decidable (Harmless s e)
  | .endRx _ => inferInstanceAs (Decidable (¬ _))
  | .error => isFalse id
  | .relay e => inferInstanceAs (Decidable (Relay.Room s.relay e))
  | .rxTo => isTrue trivial

/-- The events of a run that reset the chip. -/
def damage (s : Chip) (e : Event) : List Event := if Harmless s e then [] else [e]

/-! ## The receiver is transparent -/

/-- A transfer is under way and the FIFO is empty. The bytes received since the chip started
have gone through `uart_event_handle`, each once and in order. -/
structure Listening (r : Receiver) : Prop where
  armed : r.cb = ⟨1, 0⟩
  empty : fifoLength r.mRxFifo = 0
  noOvf : r.mRxOvf = false
  parser : r.parser = after uartEventHandle Uart.boot r.received
  sent : r.sent = outputs uartEventHandle Uart.boot r.received

theorem appUartInit_listening : Listening appUartInit := ⟨rfl, rfl, rfl, rfl, rfl⟩

/-- A byte put into an empty FIFO is the one got. -/
theorem appFifo_transfer {f : AppFifo} (h : fifoLength f = 0) (byte : UInt8) :
    ∃ g k, appFifoPut byte f = (nrfSuccess, g) ∧ fifoLength g ≠ 0 ∧
      appFifoGet g = some (byte, k) ∧ fifoLength k = 0 := by
  have hlen : Lib.Ring.length (ring f) = 0 := by
    rw [length_ring, h]
    rfl
  obtain ⟨g, hput, hg⟩ := appFifoPut_ring byte (f := f) (by rw [h]; decide)
  have hone : Lib.Ring.length (ring g) = 1 := by
    rw [hg, Lib.Ring.length_put 256 (by omega), hlen]
  have hne : fifoLength g ≠ 0 := by
    intro hzero
    rw [length_ring, hzero] at hone
    cases hone
  obtain ⟨k, hget, hk⟩ := appFifoGet_ring hne
  have hcontents : Lib.Ring.contents 256 (ring g) = [byte] := by
    rw [hg, Lib.Ring.contents_put dvd_cap (by omega) (by decide),
      List.length_eq_zero_iff.mp ((Lib.Ring.length_contents 256 (ring f)).trans hlen)]
    rfl
  have hpeek : Lib.Ring.peek 256 (ring g) = byte := by
    rw [Lib.Ring.contents_drop dvd_cap (by omega)] at hcontents
    exact (List.cons.inj hcontents).1
  refine ⟨g, k, hput, hne, hpeek ▸ hget, length_eq_zero ?_⟩
  rw [← length_ring, hk, Lib.Ring.length_drop (by omega), hone]

section

variable {r : Receiver}

/-- What is left of `endRx` for a receiver that waits for a byte. -/
theorem endRx_eq (h : Listening r) (e : DataReady) : ∃ k, fifoLength k = 0 ∧
    endRx e r = if Faults r.parser then none else
      some { r with
        received := r.received ++ [e]
        mRxFifo := k
        parser := (uartEventHandle r.parser e).1
        sent := r.sent ++ (uartEventHandle r.parser e).2 } := by
  obtain ⟨g, k, hput, hne, hget, hempty⟩ := appFifo_transfer h.empty e.byte
  have hend : endRx e r = rxDone e
      { r with received := r.received ++ [e], cb := ⟨0, 0⟩ } := by
    simp only [endRx, h.armed, ne_eq, not_true_eq_false, if_false]
  have hready : dataReady e.outside
      { r with received := r.received ++ [e], cb := ⟨0, 0⟩, mRxFifo := g } =
        if Faults r.parser then none else
          some { r with
            received := r.received ++ [e]
            cb := ⟨0, 0⟩
            mRxFifo := k
            parser := (uartEventHandle r.parser e).1
            sent := r.sent ++ (uartEventHandle r.parser e).2 } := by
    simp [dataReady, appUartGet, hget, h.noOvf]
  have hroom : fifoLength k ≤ bufSizeMask := by rw [hempty]; decide
  refine ⟨k, hempty, ?_⟩
  rw [hend]
  simp only [rxDone, hput, ne_eq, not_true_eq_false, if_false, hne, not_false_eq_true, if_true,
    hready]
  split
  case isTrue => rfl
  case isFalse => simp [hroom, nrfxUarteRx, h.armed]

theorem endRx_listening (h : Listening r) {e : DataReady} (hok : ¬ Faults r.parser) :
    ∃ t, endRx e r = some t ∧ t.received = r.received ++ [e] ∧ Listening t := by
  obtain ⟨k, hempty, hend⟩ := endRx_eq h e
  rw [if_neg hok] at hend
  refine ⟨_, hend, rfl, ⟨h.armed, hempty, h.noOvf, ?_, ?_⟩⟩
  · rw [after_append, ← h.parser]
    rfl
  · rw [outputs_append, ← h.parser, ← h.sent, outputs_singleton]

theorem endRx_faults (h : Listening r) {e : DataReady} (hf : Faults r.parser) :
    endRx e r = none := by
  obtain ⟨k, -, hend⟩ := endRx_eq h e
  rw [hend, if_pos hf]

end

theorem rxTo_eq {r : Receiver} (h : Listening r) : rxTo r = r := by
  have hcb : (nrfxUarteRx ⟨0, 0⟩).2 = r.cb := h.armed.symm
  unfold rxTo
  split
  · rw [hcb]
  · rfl

/-! ## Both directions -/

/-- What both directions have done since the chip started. -/
structure Open (s : Chip) : Prop where
  listening : Listening s.receiver
  loaded : Loaded s.relay

theorem boot_open : Open boot := ⟨appUartInit_listening, boot_loaded⟩

theorem reset_open (s : Chip) : Open (reset s) := ⟨appUartInit_listening, boot_loaded⟩

/-- The next byte can always come. It reaches the parser, or makes it fault. -/
theorem receives {s : Chip} (h : Open s) (e : DataReady) :
    if Faults s.receiver.parser then step s (.endRx e) = some (reset s)
    else ∃ t, step s (.endRx e) = some t ∧ t.receiver.received = s.receiver.received ++ [e] ∧
      t.relay = s.relay ∧ t.resets = s.resets ∧ Open t := by
  have harmed : s.receiver.cb.rxBufferLength ≠ 0 := by
    rw [h.listening.armed]
    decide
  split
  case isTrue hf => simp only [step, if_pos harmed, endRx_faults h.listening hf]
  case isFalse hok =>
    obtain ⟨r, hr, hreceived, hlistening⟩ := endRx_listening h.listening (e := e) hok
    refine ⟨{ s with receiver := r }, ?_, hreceived, rfl, rfl, hlistening, h.loaded⟩
    simp only [step, if_pos harmed, hr]

/-- The put of a byte that finds the FIFO full. -/
theorem put_refused {s : Relay.Chip} {byte : UInt8} {rest : List UInt8}
    (hp : s.pending = byte :: rest) (hfull : ¬ (fifoLength s.uart.mTxFifo).toNat < 256) :
    Relay.step s .put = some { Relay.boot with faulted := true } := by
  have hput : appUartPut byte s.uart = (nrfErrorNoMem, s.uart) := by
    simp [appUartPut, appFifoPut_full hfull, nrfErrorNoMem, nrfSuccess]
  simp [Relay.step, hp, hput, nrfErrorNoMem, nrfSuccess, nrfErrorBusy]

/-- A relay event does not reach the receiver, unless it resets the chip. -/
theorem relay_open {s t : Chip} {e : Relay.Event} (hs : Open s)
    (ht : step s (.relay e) = some t) :
    if Relay.Room s.relay e then ∃ relay, t = { s with relay } ∧ Loaded relay
    else t = reset s := by
  obtain ⟨relay, hrelay, rfl⟩ := Option.map_eq_some_iff.mp ht
  split
  case isTrue hroom =>
    obtain ⟨u, hu, -, hloaded⟩ := step_lossless hs.loaded ⟨relay, hrelay⟩
    obtain rfl : relay = u := Option.some.inj (hrelay.symm.trans hu)
    have hok : relay.faulted = false := (hloaded hroom).lossless.1
    exact ⟨relay, by simp [hok], hloaded hroom⟩
  case isFalse hfull =>
    cases e with
    | write data => exact absurd trivial hfull
    | txDone => exact absurd trivial hfull
    | put =>
      cases hp : s.relay.pending with
      | nil => simp [Relay.step, hp] at hrelay
      | cons byte rest =>
        rw [put_refused hp hfull] at hrelay
        obtain rfl := Option.some.inj hrelay
        rfl

/-- Either nothing is lost in either direction, or the chip starts again. -/
theorem step_open {s t : Chip} {e : Event} (hs : Open s) (h : step s e = some t) :
    Open t ∧ t.resets = s.resets + (damage s e).length := by
  cases e with
  | endRx e =>
    have hreceives := receives hs e
    by_cases hok : Faults s.receiver.parser
    · rw [if_pos hok] at hreceives
      obtain rfl : t = reset s := Option.some.inj (h.symm.trans hreceives)
      rw [damage, if_neg (show ¬ Harmless s (.endRx e) from not_not.mpr hok)]
      exact ⟨reset_open s, rfl⟩
    · rw [if_neg hok] at hreceives
      obtain ⟨u, hu, -, -, hresets, hopen⟩ := hreceives
      obtain rfl : t = u := Option.some.inj (h.symm.trans hu)
      rw [damage, if_pos (show Harmless s (.endRx e) from hok)]
      exact ⟨hopen, hresets⟩
  | rxTo =>
    obtain rfl := Option.some.inj h
    rw [rxTo_eq hs.listening]
    exact ⟨hs, rfl⟩
  | error =>
    obtain rfl := Option.some.inj h
    exact ⟨reset_open s, rfl⟩
  | relay e =>
    have hrelay := relay_open hs h
    by_cases hroom : Relay.Room s.relay e
    · rw [if_pos hroom] at hrelay
      obtain ⟨relay, rfl, hloaded⟩ := hrelay
      rw [damage, if_pos (show Harmless s (.relay e) from hroom)]
      exact ⟨⟨hs.listening, hloaded⟩, rfl⟩
    · rw [if_neg hroom] at hrelay
      rw [hrelay, damage, if_neg (show ¬ Harmless s (.relay e) from hroom)]
      exact ⟨reset_open s, rfl⟩

theorem run_open {es : List Event} {s : Chip} (h : run step boot es = some s) :
    Open s ∧ s.resets = (noted step damage boot es).length := by
  refine noted_of_step (I := fun s l => Open s ∧ s.resets = l.length) ?_
    (l := []) ⟨boot_open, rfl⟩ h
  rintro s l e t ⟨hopen, hresets⟩ ht
  obtain ⟨hopen', hresets'⟩ := step_open hopen ht
  exact ⟨hopen', by rw [hresets', hresets, List.length_append]⟩

/-- A line error, then a header with the length 0 and the byte behind it, then a reply that comes
while two bytes are relayed. -/
def crossing : List Event :=
  [.endRx ⟨0xAA, fun _ => 0⟩, .error, .endRx ⟨0xAA, fun _ => 0⟩, .endRx ⟨0xAA, fun _ => 0⟩,
    .endRx ⟨0x00, fun _ => 0⟩, .endRx ⟨0x00, fun _ => 0⟩, .relay (.write [0x01, 0x02]),
    .endRx ⟨0xAA, fun _ => 0⟩, .relay .put, .endRx ⟨0xAA, fun _ => 0⟩,
    .endRx ⟨0x06, fun _ => 0⟩, .relay .put, .endRx ⟨0xA5, fun _ => 0⟩, .relay .txDone, .rxTo,
    .endRx ⟨0x00, fun _ => 0⟩, .relay .txDone, .endRx ⟨0x5A, fun _ => 0⟩]

end BleCar.MyBle.Duplex
