import Mathlib.Data.List.GetD
import BleCar.Protocol.Control

/-!
# The receive buffer and the state of a motor controller

Both firmwares receive by DMA into `rx_buffer` and learn the length of a burst in the
IDLE interrupt. Reads past the 256 bytes of the buffer find stray bytes; where they leave
the RAM the chip faults, which `BleCar.F103.System` models.
-/

namespace BleCar.Protocol.Buffer

open BleCar.Motion.Hardware
open BleCar.Motion.Routines
open BleCar.Protocol.Frames

structure Rx where
  rxBuffer : Fin 256 → UInt8
  rxLen : UInt8
  recvEndFlag : Bool

def Rx.boot : Rx := ⟨fun _ => 0, 0, false⟩

/-- `rx_buffer[i]`. -/
def rxRead (y : Stray) (r : Rx) (i : Nat) : UInt8 :=
  if h : i < 256 then r.rxBuffer ⟨i, h⟩ else y.rx (i - 256)

/-- Inside the buffer nothing is stray. -/
theorem rxRead_inside (y y' : Stray) (r : Rx) {i : Nat} (hi : i < 256) :
    rxRead y r i = rxRead y' r i := by
  rw [rxRead, rxRead, dif_pos hi, dif_pos hi]

/-- `MAXSIZE - temp`, where `temp` is the 8-bit copy of the DMA counter after `received`
bytes; the counter stays at 0 once the buffer is full. -/
def idleLen (received : Nat) : UInt8 :=
  let temp := UInt8.ofNat (256 - received)
  UInt8.ofNat (256 - temp.toNat)

/-- The part of the USART interrupt that handles IDLE, after `received` bytes. -/
def usartIrq (received : Nat) (r : Rx) : Rx :=
  { r with recvEndFlag := true, rxLen := idleLen received }

/-- The buffer after the DMA channel has stored the bytes of `b` from its start. -/
def dmaFill (b : List UInt8) (buffer : Fin 256 → UInt8) : Fin 256 → UInt8 :=
  fun i => b.getD i (buffer i)

/-- The DMA channel stores the byte that follows `n` others; a full buffer takes none. -/
def dmaStore (n : Nat) (b : UInt8) (buffer : Fin 256 → UInt8) : Fin 256 → UInt8 :=
  fun i => if i.val = n then b else buffer i

/-- One burst: its bytes, then IDLE. -/
def receive (b : List UInt8) (r : Rx) : Rx :=
  usartIrq b.length { r with rxBuffer := dmaFill b r.rxBuffer }

/-- `rx_buffer` starts with the header. -/
def headerOk (y : Stray) (r : Rx) : Prop := rxRead y r 0 = 0xAA ∧ rxRead y r 1 = 0xAA

instance (y : Stray) (r : Rx) : Decidable (headerOk y r) :=
  inferInstanceAs (Decidable (_ ∧ _))

/-- The header is inside the buffer. -/
theorem headerOk_stray (y y' : Stray) (r : Rx) : headerOk y r ↔ headerOk y' r := by
  rw [headerOk, headerOk, rxRead_inside y y' r (by decide), rxRead_inside y y' r (by decide)]

structure Mcu where
  rx : Rx
  globals : Globals
  drive : Drive
  /-- the frames handed to `HAL_UART_Transmit_DMA` -/
  sent : List (List UInt8)

/-- A burst together with the stray values met while it is handled. -/
structure Burst where
  bytes : List UInt8
  stray : Stray

/-- The controller after the burst `b` has arrived. -/
def Mcu.after (s : Mcu) (b : List UInt8) : Mcu := { s with rx := receive b s.rx }

section

variable (s : Mcu)

@[simp] theorem after_globals (b : List UInt8) : (s.after b).globals = s.globals := rfl
@[simp] theorem after_drive (b : List UInt8) : (s.after b).drive = s.drive := rfl
@[simp] theorem after_sent (b : List UInt8) : (s.after b).sent = s.sent := rfl
@[simp] theorem after_rx (b : List UInt8) : (s.after b).rx = receive b s.rx := rfl

end

theorem idleLen_toNat {n : Nat} (h1 : 1 ≤ n) (h : n ≤ 255) : (idleLen n).toNat = n := by
  simp only [idleLen, UInt8.toNat_ofNat']
  omega

theorem idleLen_full {n : Nat} (h : 256 ≤ n) : idleLen n = 0 := by
  rw [idleLen, Nat.sub_eq_zero_of_le h]
  rfl

theorem dmaFill_of_lt {b : List UInt8} {i : Fin 256} (hi : i.val < b.length)
    (buffer : Fin 256 → UInt8) : dmaFill b buffer i = bytesAt b i.val := by
  rw [dmaFill, bytesAt, List.getD_eq_getElem _ _ hi, List.getD_eq_getElem _ _ hi]

theorem rxRead_receive {b : List UInt8} {i : Nat} (hi : i < b.length) (h : i < 256) (y : Stray)
    (r : Rx) : rxRead y (receive b r) i = bytesAt b i := by
  rw [rxRead, dif_pos h]
  exact dmaFill_of_lt (i := ⟨i, h⟩) hi r.rxBuffer

theorem headerOk_receive (y : Stray) {b : List UInt8} (h2 : 2 ≤ b.length) (r : Rx) :
    headerOk y (receive b r) ↔ bytesAt b 0 = 0xAA ∧ bytesAt b 1 = 0xAA := by
  rw [headerOk, rxRead_receive (by omega) (by omega), rxRead_receive (by omega) (by omega)]

/-- Storing one more byte fills the buffer with one more byte. -/
theorem dmaStore_dmaFill (bs : List UInt8) (b : UInt8) (buffer : Fin 256 → UInt8) :
    dmaStore bs.length b (dmaFill bs buffer) = dmaFill (bs ++ [b]) buffer := by
  funext i
  unfold dmaStore dmaFill
  by_cases hi : i.val = bs.length
  · rw [if_pos hi, hi, List.getD_append_right _ _ _ _ (le_refl _)]
    simp
  · rw [if_neg hi]
    by_cases hlt : i.val < bs.length
    · rw [List.getD_append _ _ _ _ hlt]
    · rw [List.getD_eq_default _ _ (by omega), List.getD_eq_default _ _ (by simp; omega)]

theorem dmaFill_nil (buffer : Fin 256 → UInt8) : dmaFill [] buffer = buffer := rfl

end BleCar.Protocol.Buffer
