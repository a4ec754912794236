import BleCar.F103.Answers
import BleCar.F103.Replies
import BleCar.F103.Serial
import BleCar.F103.Transmit
import BleCar.MyBle.Relay
import BleCar.Obedience

/-!
# The phone, the BLE chip and the car

The two chips joined by their UARTs. What the peer writes goes through
`uarts_data_handler` and the transmit FIFO of the BLE chip to the DMA channel of the F103,
and the replies of the F103 go through `uart_event_handle` and `my_uart_ble_send` to the
peer. Every step is one of `BleCar.MyBle.Relay`, `BleCar.MyBle.Bridge` or
`BleCar.F103.System`, or one on each side of a wire. A byte arrives as it was sent if both
UARTs run at one speed, which the results below assume: as configured here they do not.
-/

namespace BleCar.Exchange

open BleCar.Lib.Runs
open BleCar.Lib.Transducer
open BleCar.Motion.Routines (Stray)
open BleCar.Motion.Driving (Car)
open BleCar.Protocol.Frames (TableFrame WellFormed sound_four)
open BleCar.Protocol.Buffer
open BleCar.MyBle
open BleCar.MyBle.Link (Refused nrfSuccess nrfErrorResources)
open BleCar.MyBle.Uart (DataReady uartEventHandle Idle boot_idle handle_eq)
open BleCar.MyBle.Decoding
open BleCar.MyBle.Bridge (Sending bleUartsDataSend)
open BleCar.F103
open BleCar.F103.Answers (Answered run_answered)
open BleCar.F103.Receive (Occupied)
open BleCar.F103.Serial (Calm)
open BleCar.F103.Transmit (Undisturbed unsent)
open BleCar.Obedience (Drives Parsed obeyed f103_run f103_boot)

/-- The speeds the two UARTs are set to. -/
structure Line where
  ble : Nat
  car : Nat

/-- `uart_config` of the BLE chip, and `MX_USART3_UART_Init` of the F103. -/
def configured : Line := ⟨115200, 9600⟩

/-- At different speeds a byte can arrive as any other. -/
def Line.Carries (l : Line) (sent received : UInt8) : Prop := l.ble = l.car → received = sent

instance (l : Line) (sent received : UInt8) : Decidable (l.Carries sent received) :=
  inferInstanceAs (Decidable (_ → _))

structure World where
  /-- the transmit side of the BLE chip's UART -/
  relay : Relay.Chip
  /-- its link and the receive side of its UART -/
  bridge : Bridge.Chip
  car : System.Sys
  /-- history: the payloads written to the RX characteristic -/
  writes : List (List UInt8)
  /-- history: the notifications the SoftDevice has taken -/
  notified : List (List UInt8)

def boot : World := ⟨Relay.boot, Bridge.boot, System.boot, [], []⟩

inductive Event where
  | ble (e : Link.Event)
  /-- one iteration of the loop of `uarts_data_handler` -/
  | put
  /-- a byte from the BLE chip, as it arrives at the car -/
  | down (received : UInt8)
  | idle
  | main (y : Stray)
  /-- a byte from the car, as it arrives at the BLE chip -/
  | up (received : DataReady)
  | dmaComplete
  | txDone
  | attempt
  | answer (code : UInt32)

/-- `APP_ERROR_CHECK` resets the BLE chip, and not the car. -/
def reset (w : World) : World := { w with relay := Relay.boot, bridge := Bridge.boot }

/-- A write to the RX characteristic starts the loop of `uarts_data_handler`. No event of
the SoftDevice is handled before the loop has ended. -/
def ble (e : Link.Event) (w : World) : Option World :=
  if w.relay.pending = [] then
    (Bridge.step w.bridge (.ble e)).bind fun bridge =>
      if Refused e then some (reset w)
      else match e with
        | .write .rxValue data =>
          (Relay.step w.relay (.write data)).map fun relay =>
            { w with relay, bridge, writes := w.writes ++ [data] }
        | _ => some { w with bridge }
  else none

def put (w : World) : Option World :=
  (Relay.step w.relay .put).map fun relay =>
    if relay.faulted then reset w else { w with relay }

/-- The TX-done interrupt of the BLE chip, and the byte in the car's DMA channel. -/
def down (l : Line) (received : UInt8) (w : World) : Option World :=
  if l.Carries w.relay.uart.txBuffer received then
    (Relay.step w.relay .txDone).map fun relay =>
      { w with relay, car := System.rxByte received w.car }
  else none

/-- The byte `txByte` moves. -/
def moved (s : System.Sys) : UInt8 := s.tx.tempTxbuf.getD s.tx.pos 0

/-- The transmit channel of the car, and `APP_UART_DATA_READY`; while `my_uart_ble_send`
runs, no byte is handled, and none that makes the BLE chip fault ever is. -/
def up (l : Line) (received : DataReady) (w : World) : Option World :=
  if l.Carries (moved w.car) received.byte ∧ ¬ Uart.Faults w.bridge.uart then
    (System.txByte w.car).bind fun car =>
      (Bridge.step w.bridge (.byte received)).map fun bridge => { w with car, bridge }
  else none

/-- The frame `my_uart_ble_send` has in hand. -/
def inFlight : Sending → List (List UInt8)
  | .idle => []
  | .check data _ => [data]
  | .hvx data _ => [data]

def send (e : Bridge.Event) (taken : List (List UInt8)) (w : World) : Option World :=
  (Bridge.step w.bridge e).map fun bridge =>
    if bridge.faulted then reset w else { w with bridge, notified := w.notified ++ taken }

def car (e : System.Event) (w : World) : Option World :=
  (System.step w.car e).map fun car => { w with car }

def step (l : Line) (w : World) : Event → Option World
  | .ble e => ble e w
  | .put => put w
  | .down received => down l received w
  | .idle => car .idle w
  | .main y => car (.main y) w
  | .up received => up l received w
  | .dmaComplete => car .dmaComplete w
  | .txDone => car .txDone w
  | .attempt => send .attempt [] w
  | .answer code =>
    send (.answer code) (if code = nrfSuccess then inFlight w.bridge.sending else []) w

/-- The FIFO has room, the car's buffer is free where a byte or IDLE comes, its replies
find the transmitter ready and are not cut off, and the peer takes every notification. -/
def Orderly (w : World) : Event → Prop
  | .ble e => ¬ Refused e
  | .put => Relay.Room w.relay .put
  | .down _ => ¬ Occupied w.car
  | .idle => ¬ Occupied w.car ∧ unsent w.car.tx = []
  | .main y => Undisturbed w.car (.main y)
  | .attempt =>
    match w.bridge.sending with
    | .check data connHandle => bleUartsDataSend data connHandle w.bridge.app = none
    | _ => True
  | .answer code => code = nrfSuccess ∨ code = nrfErrorResources
  | _ => True

instance (s : System.Sys) : ∀ e, Decidable (Undisturbed s e)
  | .main y => inferInstanceAs (Decidable (Transmit.replies y s ≠ [] → s.tx.busy = false))
  | .idle => inferInstanceAs (Decidable (unsent s.tx = []))
  | .rxByte _ | .txByte | .dmaComplete | .txDone => isTrue trivial

instance (w : World) (e : Event) : Decidable (Orderly w e) := by
  cases e
  case attempt =>
    unfold Orderly
    cases w.bridge.sending <;> infer_instance
  all_goals
    unfold Orderly
    infer_instance

/-- IDLE comes only when the BLE chip has transmitted all it was given, and a write only
when the car has seen IDLE after the one before. -/
def Framed (w : World) : Event → Prop
  | .ble (.write .rxValue data) =>
    data ≠ [] ∧ w.relay.uart.txInProgress = false ∧ w.car.incoming = []
  | .idle => w.relay.uart.txInProgress = false ∧ w.relay.pending = []
  | _ => True

instance (w : World) (e : Event) : Decidable (Framed w e) := by
  unfold Framed
  split <;> infer_instance

/-- Nothing is under way. -/
structure AtRest (w : World) : Prop where
  pending : w.relay.pending = []
  uart : w.relay.uart.txInProgress = false
  incoming : w.car.incoming = []
  pos : w.car.pos = .flagTest
  flag : w.car.mcu.rx.recvEndFlag = false
  unsent : unsent w.car.tx = []
  sending : inFlight w.bridge.sending = []

instance (w : World) : Decidable (AtRest w) :=
  decidable_of_iff (w.relay.pending = [] ∧ w.relay.uart.txInProgress = false ∧
      w.car.incoming = [] ∧ w.car.pos = .flagTest ∧ w.car.mcu.rx.recvEndFlag = false ∧
      unsent w.car.tx = [] ∧ inFlight w.bridge.sending = [])
    ⟨fun ⟨hp, hu, hi, hpos, hf, ht, hs⟩ => ⟨hp, hu, hi, hpos, hf, ht, hs⟩,
      fun ⟨hp, hu, hi, hpos, hf, ht, hs⟩ => ⟨hp, hu, hi, hpos, hf, ht, hs⟩⟩

variable {l : Line} {w v : World}

/-! ## The car on its own -/

/-- What `Serial` and `Transmit` ask of the steps of the car. -/
def Served (s : System.Sys) (e : System.Event) : Prop := Calm s e ∧ Undisturbed s e

theorem car_served {e : System.Event} (h : car e w = some v) (hs : Served w.car e) :
    ∃ os b, run System.step w.car os = some b ∧ Along System.step Served w.car os ∧ v.car = b := by
  obtain ⟨s, hstep, rfl⟩ := Option.map_eq_some_iff.mp h
  exact ⟨[e], s, (run_singleton _ _ _).trans hstep, ⟨hs, fun _ _ => trivial⟩, rfl⟩

/-- The BLE chip leaves the car alone. -/
theorem unserved (h : v.car = w.car) :
    ∃ os b, run System.step w.car os = some b ∧ Along System.step Served w.car os ∧ v.car = b :=
  ⟨[], w.car, rfl, trivial, h⟩

/-- An orderly step is a served step of the car or none. -/
theorem step_car {e : Event} (ho : Orderly w e) (h : step l w e = some v) :
    ∃ os b, run System.step w.car os = some b ∧ Along System.step Served w.car os ∧
      v.car = b := by
  cases e with
  | idle => exact car_served h ho
  | main y => exact car_served h ⟨trivial, ho⟩
  | dmaComplete => exact car_served h ⟨trivial, trivial⟩
  | txDone => exact car_served h ⟨trivial, trivial⟩
  | down received =>
    obtain ⟨-, h⟩ := Option.ite_none_right_eq_some.mp h
    obtain ⟨relay, -, rfl⟩ := Option.map_eq_some_iff.mp h
    exact ⟨[.rxByte received], _, rfl, ⟨⟨ho, trivial⟩, fun _ _ => trivial⟩, rfl⟩
  | up received =>
    obtain ⟨-, h⟩ := Option.ite_none_right_eq_some.mp h
    obtain ⟨s, hs, h⟩ := Option.bind_eq_some_iff.mp h
    obtain ⟨bridge, -, rfl⟩ := Option.map_eq_some_iff.mp h
    exact ⟨[.txByte], s, (run_singleton _ _ _).trans hs,
      ⟨⟨trivial, trivial⟩, fun _ _ => trivial⟩, rfl⟩
  | ble e =>
    obtain ⟨-, h⟩ := Option.ite_none_right_eq_some.mp h
    obtain ⟨bridge, -, h⟩ := Option.bind_eq_some_iff.mp h
    rw [if_neg ho] at h
    split at h
    · obtain ⟨relay, -, rfl⟩ := Option.map_eq_some_iff.mp h
      exact unserved rfl
    · exact unserved (Option.some.inj h ▸ rfl)
  | put =>
    obtain ⟨relay, -, rfl⟩ := Option.map_eq_some_iff.mp h
    exact unserved (by split <;> rfl)
  | attempt =>
    obtain ⟨bridge, -, rfl⟩ := Option.map_eq_some_iff.mp h
    exact unserved (by split <;> rfl)
  | answer code =>
    obtain ⟨bridge, -, rfl⟩ := Option.map_eq_some_iff.mp h
    exact unserved (by split <;> rfl)

/-- Every orderly run contains a run of the car in which all steps are served. -/
theorem run_car {es : List Event} (hr : run (step l) boot es = some w)
    (ha : Along (step l) Orderly boot es) :
    ∃ os, run System.step System.boot os = some w.car ∧
      Along System.step Served System.boot os := by
  obtain ⟨os, s, hos, hserved, hs⟩ := simulation (R := fun w s => w.car = s)
    (fun _ _ _ _ hR ho hstep => hR ▸ step_car ho hstep) rfl ha hr
  exact ⟨os, hs ▸ hos, hserved⟩

/-! ## The bytes on the two wires -/

/-- The BLE chip has parsed all that was on the wire: what came out was taken by the
SoftDevice, or is in flight. -/
def Heard (bridge : Bridge.Chip) (wire : List UInt8) (notified : List (List UInt8)) : Prop :=
  ∃ ds, bytes ds = wire ∧ bridge.uart = after uartEventHandle Uart.boot ds ∧
    outputs uartEventHandle Uart.boot ds = notified ++ inFlight bridge.sending

structure Linked (w : World) : Prop where
  loaded : Relay.Loaded w.relay
  written : w.relay.written = w.writes.flatten
  received : w.car.terminated.flatten ++ w.car.incoming = w.relay.uart.out
  running : w.bridge.faulted = false
  heard : Heard w.bridge w.car.wire w.notified

theorem boot_linked : Linked boot := ⟨Relay.boot_loaded, rfl, rfl, rfl, [], rfl, rfl, rfl⟩

/-- A byte hands on at most one frame. -/
theorem handle_frames (s : Uart.Parser) (d : DataReady) :
    (uartEventHandle s d).2 = [] ∨ ∃ f, (uartEventHandle s d).2 = [f] := by
  rw [handle_eq]
  split_ifs <;> first | exact .inl rfl | exact .inr ⟨_, rfl⟩

theorem Heard.congr {b b' : Bridge.Chip} {wire : List UInt8}
    {notified notified' : List (List UInt8)} (h : Heard b wire notified) (huart : b'.uart = b.uart)
    (hout : notified' ++ inFlight b'.sending = notified ++ inFlight b.sending) :
    Heard b' wire notified' := by
  obtain ⟨ds, hds, hu, ho⟩ := h
  exact ⟨ds, hds, huart.trans hu, ho.trans hout.symm⟩

/-- One more byte. -/
theorem Heard.byte {b b' : Bridge.Chip} {wire : List UInt8} {notified : List (List UInt8)}
    (h : Heard b wire notified) {d : DataReady} (hb : Bridge.step b (.byte d) = some b') :
    Heard b' (wire ++ [d.byte]) notified ∧ b'.faulted = b.faulted := by
  obtain ⟨ds, hds, hu, ho⟩ := h
  simp only [Bridge.step] at hb
  split at hb
  case h_2 => cases hb
  case h_1 hsend =>
    obtain rfl := Option.some.inj hb
    rw [hsend] at ho
    refine ⟨⟨ds ++ [d], ?_, ?_, ?_⟩, rfl⟩
    · simp only [bytes, List.map_append, ← hds, List.map_cons, List.map_nil]
    · rw [after_append, after_singleton, ← hu]
      rfl
    · rw [outputs_append, outputs_singleton, ho, ← hu, inFlight, List.append_nil]
      congr 1
      simp only [Bridge.byte]
      rcases handle_frames b.uart d with hnone | ⟨f, hone⟩
      · rw [hnone]
        rfl
      · rw [hone]
        rfl

/-! ## What each step does to the wires -/

/-- Putting a byte transmits nothing yet. -/
theorem appUartPut_out (byte : UInt8) (u : Relay.AppUart) :
    (Relay.appUartPut byte u).2.out = u.out := by
  unfold Relay.appUartPut
  dsimp only
  split
  · split
    · unfold Relay.nrfDrvUartTx
      split <;> rfl
    · rfl
  · rfl

theorem put_out {r r' : Relay.Chip} (h : Relay.step r .put = some r') (hf : r'.faulted = false) :
    r'.uart.out = r.uart.out ∧ r'.written = r.written := by
  simp only [Relay.step] at h
  split at h
  case h_1 => cases h
  case h_2 byte rest hp =>
    split_ifs at h with hcode hbusy
    · obtain rfl := Option.some.inj h
      cases hf
    · obtain rfl := Option.some.inj h
      exact ⟨appUartPut_out byte r.uart, rfl⟩
    · obtain rfl := Option.some.inj h
      exact ⟨appUartPut_out byte r.uart, rfl⟩

theorem txDone_out (u : Relay.AppUart) : (Relay.txDone u).out = u.out ++ [u.txBuffer] := by
  unfold Relay.txDone
  dsimp only
  split
  · unfold Relay.nrfDrvUartTx
    split <;> rfl
  · rfl

theorem Linked.put (h : Linked w) (ho : Orderly w .put) (hs : put w = some v) : Linked v := by
  obtain ⟨relay, hr, rfl⟩ := Option.map_eq_some_iff.mp hs
  obtain ⟨r, hr', -, hl⟩ := Relay.step_lossless h.loaded ⟨relay, hr⟩
  rw [hr] at hr'
  obtain rfl := Option.some.inj hr'
  have hloaded := hl ho
  have hf := hloaded.lossless.1
  rw [if_neg (by simp [hf])]
  obtain ⟨hout, hwritten⟩ := put_out hr hf
  exact ⟨hloaded, hwritten.trans h.written, h.received.trans hout.symm, h.running, h.heard⟩

theorem Linked.down (h : Linked w) (hl : l.ble = l.car) {received : UInt8}
    (hs : down l received w = some v) : Linked v := by
  obtain ⟨hcarries, hs⟩ := Option.ite_none_right_eq_some.mp hs
  obtain rfl := hcarries hl
  obtain ⟨relay, hr, rfl⟩ := Option.map_eq_some_iff.mp hs
  obtain ⟨r, hr', -, hl⟩ := Relay.step_lossless h.loaded ⟨relay, hr⟩
  rw [hr] at hr'
  obtain rfl := Option.some.inj hr'
  obtain ⟨-, heq⟩ := Option.ite_none_right_eq_some.mp hr
  refine ⟨hl trivial, ?_, ?_, h.running, h.heard⟩ <;> rw [← Option.some.inj heq]
  · exact h.written
  simp only [txDone_out, ← h.received, System.rxByte, System.Sys.withRx, List.append_assoc]

/-- The peer's writes; the other events are not for the UARTs. -/
theorem Linked.ble (h : Linked w) {e : Link.Event} (ho : ¬ Refused e) (hs : ble e w = some v) :
    Linked v := by
  obtain ⟨-, hs⟩ := Option.ite_none_right_eq_some.mp hs
  obtain ⟨bridge, hb, hs⟩ := Option.bind_eq_some_iff.mp hs
  rw [if_neg ho] at hs
  obtain ⟨app, -, heq⟩ := Option.map_eq_some_iff.mp hb
  rw [if_neg ho] at heq
  subst heq
  split at hs
  · obtain ⟨relay, hr, rfl⟩ := Option.map_eq_some_iff.mp hs
    obtain ⟨r, hr', -, hl⟩ := Relay.step_lossless h.loaded ⟨relay, hr⟩
    rw [hr] at hr'
    obtain rfl := Option.some.inj hr'
    obtain ⟨-, heq⟩ := Option.ite_none_right_eq_some.mp hr
    refine ⟨hl trivial, ?_, ?_, h.running, h.heard.congr rfl rfl⟩ <;>
      rw [← Option.some.inj heq]
    · simp [h.written]
    · exact h.received
  · obtain rfl := Option.some.inj hs
    exact ⟨h.loaded, h.written, h.received, h.running, h.heard.congr rfl rfl⟩

theorem Linked.up (h : Linked w) (hl : l.ble = l.car) {received : DataReady}
    (hs : up l received w = some v) : Linked v := by
  obtain ⟨⟨hcarries, -⟩, hs⟩ := Option.ite_none_right_eq_some.mp hs
  obtain ⟨s, hcar, hs⟩ := Option.bind_eq_some_iff.mp hs
  obtain ⟨bridge, hb, rfl⟩ := Option.map_eq_some_iff.mp hs
  obtain ⟨-, heq⟩ := Option.ite_none_right_eq_some.mp hcar
  obtain rfl := Option.some.inj heq
  obtain ⟨hheard, hf⟩ := h.heard.byte hb
  rw [hcarries hl] at hheard
  exact ⟨h.loaded, h.written, h.received, hf.trans h.running, hheard⟩

/-- A step of the car that touches neither wire. -/
theorem Linked.withCar (h : Linked w) {s : System.Sys}
    (hin : s.terminated.flatten ++ s.incoming = w.car.terminated.flatten ++ w.car.incoming)
    (hwire : s.wire = w.car.wire) : Linked { w with car := s } :=
  ⟨h.loaded, h.written, hin.trans h.received, h.running, hwire ▸ h.heard⟩

theorem Linked.idle (h : Linked w) (hs : car .idle w = some v) : Linked v := by
  obtain ⟨s, hstep, rfl⟩ := Option.map_eq_some_iff.mp hs
  obtain ⟨-, heq⟩ := Option.ite_none_left_eq_some.mp hstep
  obtain rfl := Option.some.inj heq
  exact h.withCar (by simp) rfl

theorem Linked.main (h : Linked w) {y : Stray} (hs : car (.main y) w = some v) : Linked v := by
  obtain ⟨s, hstep, rfl⟩ := Option.map_eq_some_iff.mp hs
  obtain ⟨hin, hterm⟩ := System.main_incoming hstep
  exact h.withCar (by rw [hin, hterm]) (Transmit.main_transmit hstep).1

/-- A notification that could be made is in flight until it is taken. -/
theorem Linked.attempt (h : Linked w) (ho : Orderly w .attempt)
    (hs : step l w .attempt = some v) : Linked v := by
  obtain ⟨bridge, hb, rfl⟩ := Option.map_eq_some_iff.mp hs
  obtain ⟨data, connHandle, hsend, ⟨code, hcode, -⟩ | rfl⟩ := Bridge.attempt_cases hb
  · simp only [Orderly, hsend] at ho
    rw [ho] at hcode
    cases hcode
  · rw [if_neg (by simp [h.running])]
    refine ⟨h.loaded, h.written, h.received, h.running, h.heard.congr rfl ?_⟩
    rw [hsend, List.append_nil]
    rfl

theorem Linked.answer (h : Linked w) {code : UInt32} (ho : Orderly w (.answer code))
    (hs : step l w (.answer code) = some v) : Linked v := by
  obtain ⟨bridge, hb, rfl⟩ := Option.map_eq_some_iff.mp hs
  obtain ⟨data, connHandle, hsend, -, rfl⟩ := Bridge.answer_cases hb
  have hf : (Bridge.returned data connHandle code w.bridge).faulted = false :=
    (Bridge.returned_faulted w.bridge (by rcases ho with hc | hc <;> tauto)).trans h.running
  rw [if_neg (by simp [hf])]
  rcases ho with rfl | rfl
  · refine ⟨h.loaded, h.written, h.received, hf, h.heard.congr rfl ?_⟩
    rw [if_pos rfl, hsend]
    exact List.append_nil _
  · refine ⟨h.loaded, h.written, h.received, hf, h.heard.congr rfl ?_⟩
    rw [hsend]
    exact congrArg (· ++ _) (List.append_nil _)

theorem step_linked (hl : l.ble = l.car) (w : World) (e : Event) (v : World) (h : Linked w)
    (ho : Orderly w e) (hs : step l w e = some v) : Linked v := by
  cases e with
  | ble e => exact h.ble ho hs
  | put => exact h.put ho hs
  | down received => exact h.down hl hs
  | idle => exact h.idle hs
  | main y => exact h.main hs
  | up received => exact h.up hl hs
  | attempt => exact h.attempt ho hs
  | answer code => exact h.answer ho hs
  | dmaComplete =>
    obtain ⟨s, hstep, rfl⟩ := Option.map_eq_some_iff.mp hs
    obtain ⟨-, heq⟩ := Option.ite_none_right_eq_some.mp hstep
    obtain rfl := Option.some.inj heq
    exact h.withCar rfl rfl
  | txDone =>
    obtain ⟨s, hstep, rfl⟩ := Option.map_eq_some_iff.mp hs
    obtain ⟨-, heq⟩ := Option.ite_none_right_eq_some.mp hstep
    obtain rfl := Option.some.inj heq
    exact h.withCar rfl rfl

theorem run_linked (hl : l.ble = l.car) {es : List Event} (hr : run (step l) boot es = some w)
    (ha : Along (step l) Orderly boot es) : Linked w :=
  always_last (step l) (always_of_along (step_linked hl) boot_linked es ha) hr

/-! ## At rest -/

/-- Bytes that make up a row of frames come in one block a frame. -/
theorem bytes_flatten {fs : List (List UInt8)} {ds : List DataReady} (h : bytes ds = fs.flatten) :
    ∃ dss : List (List DataReady), ds = dss.flatten ∧ dss.map bytes = fs := by
  induction fs generalizing ds with
  | nil => exact ⟨[], List.map_eq_nil_iff.mp h, rfl⟩
  | cons f fs ih =>
    obtain ⟨d, ds', rfl, hd, hds⟩ := List.map_eq_append_iff.mp h
    obtain ⟨dss, rfl, hdss⟩ := ih hds
    exact ⟨d :: dss, rfl, by rw [List.map_cons, hdss]; exact congrArg (· :: _) hd⟩

/-- Whole frames on the wire are what was taken, once nothing is in flight. -/
theorem Heard.frames {bridge : Bridge.Chip} {fs notified : List (List UInt8)}
    (h : Heard bridge fs.flatten notified) (hfs : ∀ f ∈ fs, Decodable f)
    (hidle : inFlight bridge.sending = []) : notified = fs := by
  obtain ⟨ds, hds, -, hout⟩ := h
  obtain ⟨dss, rfl, rfl⟩ := bytes_flatten hds
  rw [(blocks (fun d hd s hs => (hfs _ (List.mem_map_of_mem hd)).decoded hs) boot_idle).2, hidle,
    List.append_nil] at hout
  rw [← hout, List.map_eq_flatMap]

/-- At one speed the last exception is none: no byte of the car makes the BLE chip fault. -/
theorem up_not_faults (hl : l.ble = l.car) {es : List Event} (hr : run (step l) boot es = some w)
    (ha : Along (step l) Orderly boot es) (hun : unsent w.car.tx ≠ []) :
    ¬ Uart.Faults w.bridge.uart := by
  obtain ⟨os, hos, hserved⟩ := run_car hr ha
  obtain ⟨ls, _, hls, hiff, hw⟩ := Transmit.run_wired hos
  have hwhole := (BleCar.Lib.Line.run_whole_iff hls).mpr
    (hiff.mp (along_mono _ (fun _ _ h => h.2) hserved))
  rw [BleCar.Lib.Line.Whole, hw.out, hw.pending, hw.offered] at hwhole
  obtain ⟨ds, hds, huart, -⟩ := (run_linked hl hr ha).heard
  obtain ⟨dss, hdss, hmap⟩ : ∃ dss : List (List DataReady),
      ds ++ received (unsent w.car.tx) = dss.flatten ∧ dss.map bytes = w.car.mcu.sent := by
    refine bytes_flatten ?_
    rw [← hwhole, ← hds, bytes, List.map_append, ← bytes, ← bytes, bytes_received]
  have hpasses : Passes Uart.Faults uartEventHandle Uart.boot
      (ds ++ received (unsent w.car.tx)) := by
    rw [hdss]
    refine passes_blocks (I := Idle) (fun d hd s hs => ?_) boot_idle
    have hwf : WellFormed (bytes d) := hw.frames _ (hmap ▸ List.mem_map_of_mem hd)
    have h4 : 4 ≤ d.length := by
      have hlen := sound_four hwf.sound
      rwa [bytes, List.length_map] at hlen
    exact ⟨frame_passes hwf h4 hs, (frame_decoded hwf h4 hs).1⟩
  rw [huart]
  exact hpasses.go_on (by simpa [received] using hun)

theorem sent_decodable {bs : List Burst} {m : Mcu}
    (h : run Firmware.step Firmware.boot bs = some m) : ∀ f ∈ m.sent, Decodable f := by
  intro f hf
  obtain ⟨y, g, ID, ret, -, hID, -, rfl⟩ := (Replies.run_replies h).2 f hf
  exact reply_decodable y g hID ret

/-- What is left behind once nothing is under way. -/
structure Settled (w : World) (bs : List Burst) (m : Mcu) : Prop where
  run : run Firmware.step Firmware.boot bs = some m
  bursts : bs.map Burst.bytes = w.car.terminated
  notified : m.sent = w.notified
  globals : m.globals = w.car.mcu.globals
  drive : m.drive = w.car.mcu.drive

theorem settled (hl : l.ble = l.car) {es : List Event} (hr : run (step l) boot es = some w)
    (ha : Along (step l) Orderly boot es) (hrest : AtRest w) : ∃ bs m, Settled w bs m := by
  obtain ⟨os, hos, hserved⟩ := run_car hr ha
  have hcalm := Serial.run_serialised hos (along_mono _ (fun _ _ h => h.1) hserved)
  obtain ⟨bs, m, hm, hbs, hglobals, hdrive, hsent⟩ := hcalm.atHead hrest.pos hrest.flag
  obtain ⟨ls, _, hls, hiff, hw⟩ := Transmit.run_wired hos
  have hwhole := (BleCar.Lib.Line.run_whole_iff hls).mpr
    (hiff.mp (along_mono _ (fun _ _ h => h.2) hserved))
  have hwire : w.car.wire = m.sent.flatten := by
    rw [BleCar.Lib.Line.Whole, hw.out, hw.pending, hw.offered, hrest.unsent,
      List.append_nil] at hwhole
    rw [hwhole, hsent]
  have hheard := (run_linked hl hr ha).heard
  rw [hwire] at hheard
  exact ⟨bs, m, hm, hbs, (hheard.frames (sent_decodable hm) hrest.sending).symm, hglobals, hdrive⟩

/-- At rest the car has seen every byte the peer wrote. -/
theorem Linked.terminated (h : Linked w) (hrest : AtRest w) :
    w.car.terminated.flatten = w.writes.flatten := by
  rw [← h.written, ← h.loaded.transmitted hrest.uart hrest.pending, ← h.received, hrest.incoming,
    List.append_nil]

/-- The peer, the BLE chip and the car in any order of steps, with both UARTs at one speed:
after an orderly run, once nothing is under way, the car stands where it would stand had it
handled, one after the other, bursts that together are the bytes the peer wrote; and the peer
was notified of exactly the replies to them, each as one frame. -/
theorem exchange (hl : l.ble = l.car) {es : List Event} {w : World}
    (hr : run (step l) boot es = some w) (ha : Along (step l) Orderly boot es) (hrest : AtRest w) :
    ∃ bs m, run Firmware.step Firmware.boot bs = some m ∧
      (bs.map Burst.bytes).flatten = w.writes.flatten ∧ m.sent = w.notified ∧
      m.globals = w.car.mcu.globals ∧ m.drive = w.car.mcu.drive := by
  obtain ⟨bs, m, h⟩ := settled hl hr ha hrest
  refine ⟨bs, m, h.run, ?_, h.notified, h.globals, h.drive⟩
  rw [h.bursts]
  exact (run_linked hl hr ha).terminated hrest

/-- Both UARTs at the speed of the BLE chip. -/
def fast : Line := ⟨115200, 115200⟩

/-- The car's answer to a query after reset. -/
def report : List UInt8 := [0xAA, 0xAA, 0x09, 0xA4, 0x00, 0x00, 0x00, 0x00, 0x5B]

/-- A peer that turns notifications on and asks for a report; its bytes go out while the
later ones are still put, and the reply goes back. -/
def reportExchange : List Event :=
  [.ble (.connected 0 0), .ble (.sysAttrMissing 0), .ble (.write .txCccd [1, 0]),
    .ble (.write .rxValue [0xAA, 0xAA, 0x05, 0xA4, 0x5B]),
    .put, .put, .down 0xAA, .put, .put, .put, .down 0xAA, .down 0x05, .main Stray.blank,
    .down 0xA4, .down 0x5B, .idle] ++
  List.replicate 9 (.main Stray.blank) ++ report.map (fun b => .up ⟨b, fun _ => 0⟩) ++
  [.dmaComplete, .txDone, .attempt, .answer 0]

theorem reportExchange_end : ∃ w ∈ run (step fast) boot reportExchange, AtRest w ∧
    w.notified = [report] := by
  decide +kernel

theorem exchange_report : ∃ w, run (step fast) boot reportExchange = some w ∧
    ∃ bs m, run Firmware.step Firmware.boot bs = some m ∧
      (bs.map Burst.bytes).flatten = w.writes.flatten ∧ m.sent = w.notified ∧
      m.globals = w.car.mcu.globals ∧ m.drive = w.car.mcu.drive := by
  obtain ⟨w, hw, hrest, -⟩ := reportExchange_end
  exact ⟨w, hw, exchange rfl hw (by decide +kernel) hrest⟩

/-- A query that reaches the car as an unknown command. -/
def alteredExchange : List Event :=
  [.ble (.connected 0 0), .ble (.sysAttrMissing 0),
    .ble (.write .rxValue [0xAA, 0xAA, 0x05, 0xA4, 0x5B]), .put, .put, .put, .put, .put,
    .down 0xAA, .down 0xAA, .down 0x05, .down 0xFF, .down 0x00, .idle] ++
  List.replicate 7 (.main Stray.blank)

/-- At the speeds configured here the car can handle bytes that nobody wrote. -/
theorem configured_alters :
    ¬ ∀ es w, run (step configured) boot es = some w → Along (step configured) Orderly boot es →
      AtRest w → w.car.terminated.flatten = w.writes.flatten := by
  intro h
  have hend : ∃ w ∈ run (step configured) boot alteredExchange, AtRest w ∧
      w.car.terminated.flatten ≠ w.writes.flatten := by decide +kernel
  obtain ⟨w, hw, hrest, hne⟩ := hend
  exact hne (h _ w hw (by decide +kernel) hrest)

/-! ## Every write is a burst -/

/-- The bursts the car has taken are the payloads written, but perhaps for the last. -/
def InOrder (w : World) : Prop :=
  w.writes = w.car.terminated ∨ ∃ d, d ≠ [] ∧ w.writes = w.car.terminated ++ [d]

theorem InOrder.congr (h : InOrder w) (hwrites : v.writes = w.writes)
    (hterm : v.car.terminated = w.car.terminated) : InOrder v := by
  rw [InOrder, hwrites, hterm]
  exact h

/-- With nothing on its way down the car has all that was written. -/
theorem InOrder.arrived (h : InOrder w) (hl : Linked w) (hpending : w.relay.pending = [])
    (huart : w.relay.uart.txInProgress = false) (d : List UInt8) (hd : d = w.car.incoming) :
    w.writes = w.car.terminated ∧ d = [] ∨ d ≠ [] ∧ w.writes = w.car.terminated ++ [d] := by
  have hall := hl.received
  rw [hl.loaded.transmitted huart hpending, hl.written] at hall
  rcases h with h | ⟨d', hd', h⟩
  · rw [h, List.append_right_eq_self] at hall
    exact .inl ⟨h, hd.trans hall⟩
  · rw [h, List.flatten_append, List.append_cancel_left_eq, List.flatten_singleton] at hall
    obtain rfl : d = d' := hd.trans hall
    exact .inr ⟨hd', h⟩

theorem InOrder.ble (h : InOrder w) (hl : Linked w) {e : Link.Event} (ho : ¬ Refused e)
    (hf : Framed w (.ble e)) (hs : ble e w = some v) : InOrder v := by
  obtain ⟨hpending, hs⟩ := Option.ite_none_right_eq_some.mp hs
  obtain ⟨bridge, -, hs⟩ := Option.bind_eq_some_iff.mp hs
  rw [if_neg ho] at hs
  split at hs
  case h_1 =>
    obtain ⟨relay, -, rfl⟩ := Option.map_eq_some_iff.mp hs
    obtain ⟨hne, huart, hin⟩ := hf
    obtain ⟨hall, -⟩ | ⟨hbad, -⟩ := h.arrived hl hpending huart [] hin.symm
    · exact .inr ⟨_, hne, by rw [hall]⟩
    · exact absurd rfl hbad
  case h_2 => exact Option.some.inj hs ▸ h

theorem InOrder.idle (h : InOrder w) (hl : Linked w) (hf : Framed w .idle)
    (hs : car .idle w = some v) : InOrder v := by
  obtain ⟨s, hstep, rfl⟩ := Option.map_eq_some_iff.mp hs
  obtain ⟨hne, heq⟩ := Option.ite_none_left_eq_some.mp hstep
  obtain rfl := Option.some.inj heq
  obtain ⟨-, hnil⟩ | ⟨-, hall⟩ := h.arrived hl hf.2 hf.1 _ rfl
  · exact absurd hnil hne
  · exact .inl hall

theorem step_inOrder {e : Event} (h : InOrder w) (hl : Linked w) (ho : Orderly w e)
    (hf : Framed w e) (hs : step l w e = some v) : InOrder v := by
  cases e with
  | ble e => exact h.ble hl ho hf hs
  | idle => exact h.idle hl hf hs
  | main y =>
    obtain ⟨s, hstep, rfl⟩ := Option.map_eq_some_iff.mp hs
    exact h.congr rfl (System.main_incoming hstep).2
  | dmaComplete | txDone =>
    obtain ⟨s, hstep, rfl⟩ := Option.map_eq_some_iff.mp hs
    obtain ⟨-, heq⟩ := Option.ite_none_right_eq_some.mp hstep
    exact Option.some.inj heq ▸ h
  | up received =>
    obtain ⟨-, hs⟩ := Option.ite_none_right_eq_some.mp hs
    obtain ⟨s, hcar, hs⟩ := Option.bind_eq_some_iff.mp hs
    obtain ⟨bridge, -, rfl⟩ := Option.map_eq_some_iff.mp hs
    obtain ⟨-, heq⟩ := Option.ite_none_right_eq_some.mp hcar
    exact Option.some.inj heq ▸ h
  | down received =>
    obtain ⟨-, hs⟩ := Option.ite_none_right_eq_some.mp hs
    obtain ⟨relay, -, rfl⟩ := Option.map_eq_some_iff.mp hs
    exact h
  | put =>
    obtain ⟨relay, -, rfl⟩ := Option.map_eq_some_iff.mp hs
    exact h.congr (by split <;> rfl) (by split <;> rfl)
  | attempt | answer code =>
    obtain ⟨bridge, -, rfl⟩ := Option.map_eq_some_iff.mp hs
    exact h.congr (by split <;> rfl) (by split <;> rfl)

/-- At rest after a framed run every write has become one burst. -/
theorem run_framed (hl : l.ble = l.car) {es : List Event} (hr : run (step l) boot es = some w)
    (ha : Along (step l) (fun w e => Orderly w e ∧ Framed w e) boot es) (hrest : AtRest w) :
    w.writes = w.car.terminated := by
  have hkeep : ∀ w e v, Linked w ∧ InOrder w → Orderly w e ∧ Framed w e →
      step l w e = some v → Linked v ∧ InOrder v := fun w e v h ho hs =>
    ⟨step_linked hl w e v h.1 ho.1 hs, step_inOrder h.2 h.1 ho.1 ho.2 hs⟩
  obtain ⟨hlinked, hin⟩ := always_last (step l)
    (always_of_along hkeep ⟨boot_linked, .inl rfl⟩ es ha) hr
  obtain ⟨hall, -⟩ | ⟨hbad, -⟩ :=
    hin.arrived hlinked hrest.pending hrest.uart [] hrest.incoming.symm
  · exact hall
  · exact absurd rfl hbad

/-- When moreover IDLE ends each write and each write is a frame of the protocol table, then
at rest the car is one that has obeyed the writes in order, with A2 for left and A3 for
right, and the peer holds the answer to each of them, in order. -/
theorem commands_obeyed (hl : l.ble = l.car) {es : List Event} {w : World}
    (hr : run (step l) boot es = some w)
    (ha : Along (step l) (fun w e => Orderly w e ∧ Framed w e) boot es) (hrest : AtRest w)
    (hw : ∀ f ∈ w.writes, TableFrame f) :
    Drives Firmware.board (obeyed .left .right w.writes Car.boot) w.car.mcu ∧
      List.Forall₂ Answered w.writes w.notified := by
  obtain ⟨bs, m, h⟩ := settled hl hr (along_mono _ (fun _ _ h => h.1) ha) hrest
  have hbursts : bs.map Burst.bytes = w.writes := h.bursts.trans (run_framed hl hr ha hrest).symm
  have hframes : ∀ b ∈ bs, TableFrame b.bytes := fun b hb =>
    hw _ (hbursts ▸ List.mem_map_of_mem hb)
  constructor
  · have hparsed : ∀ b ∈ bs, Parsed b := fun b hb => by
      have hlen := (hframes b hb).length_range
      exact ⟨by omega, by omega⟩
    obtain ⟨t, ht, hdrives⟩ := f103_run hparsed f103_boot
    rw [h.run] at ht
    obtain rfl := Option.some.inj ht
    rw [hbursts] at hdrives
    exact ⟨h.globals ▸ hdrives.idle, h.globals ▸ h.drive ▸ hdrives.shows⟩
  · obtain ⟨rs, hrs, hall⟩ := run_answered hframes h.run
    rw [hbursts] at hall
    rw [h.notified, show Firmware.boot.sent = [] from rfl, List.nil_append] at hrs
    exact hrs ▸ hall

theorem commands_obeyed_report : ∃ w, run (step fast) boot reportExchange = some w ∧
    Drives Firmware.board (obeyed .left .right w.writes Car.boot) w.car.mcu ∧
      List.Forall₂ Answered w.writes w.notified := by
  have hend : ∃ w ∈ run (step fast) boot reportExchange, AtRest w ∧
      ∀ f ∈ w.writes, TableFrame f := by decide +kernel
  obtain ⟨w, hw, hrest, hframes⟩ := hend
  exact ⟨w, hw, commands_obeyed rfl hw (by decide +kernel) hrest hframes⟩

end BleCar.Exchange
