import Mathlib.Logic.Function.Basic
import BleCar.Lib.Transducer
import BleCar.Protocol.Frames

/-!
# The UART side of the BLE chip

`uart_event_handle` collects the replies of the motor controller byte by byte and hands
every frame with a right checksum to `my_uart_ble_send`. The buffer is never cleared; the
handler keeps its place in three 8-bit variables. `uartEventHandle` lets a checksum over any
number of bytes end; where it leaves the RAM (`Faults`), it does not.
-/

namespace BleCar.MyBle.Uart

open BleCar.Lib.ByteSum
open BleCar.Lib.Transducer
open BleCar.Protocol.Frames

/-- The static variables of `uart_event_handle`. -/
structure Parser where
  dataArray : Fin 1024 → UInt8
  index : UInt8
  receFlag : UInt8
  receLen : UInt8

def boot : Parser := ⟨fun _ => 0, 0, 0, 0⟩

/-- `APP_UART_DATA_READY`: the byte `app_uart_get` fetches, and what reads behind
`data_array` find while it is handled. -/
structure DataReady where
  byte : UInt8
  outside : Nat → UInt8

/-- `a[i]` for an array of `n` bytes. -/
def arrayRead {n : Nat} (outside : Nat → UInt8) (a : Fin n → UInt8) (i : Nat) : UInt8 :=
  if h : i < n then a ⟨i, h⟩ else outside (i - n)

/-- `a[0 .. len)`, as handed to a function with its length. -/
def arrayTake {n : Nat} (outside : Nat → UInt8) (a : Fin n → UInt8) (len : Nat) : List UInt8 :=
  (List.range len).map (arrayRead outside a)

/-- `app_uart_get(&data_array[index])`. -/
def appUartGet (byte : UInt8) (s : Parser) : Parser :=
  { s with dataArray := fun i => if i.val = s.index.toNat then byte else s.dataArray i }

/-- What `my_uart_ble_send` is called with. -/
def frame (s : Parser) (outside : Nat → UInt8) : List UInt8 :=
  arrayTake outside s.dataArray s.receLen.toNat

/-- The new state and the frames sent. -/
def uartEventHandle (s : Parser) (e : DataReady) : Parser × List (List UInt8) :=
  let s := appUartGet e.byte s
  let data := arrayRead e.outside s.dataArray
  if s.receFlag = 0 then
    if data s.index.toNat = 0xAA then
      ({ s with receFlag := s.receFlag + 1, index := s.index + 1 }, [])
    else ({ s with receFlag := 0, index := 0 }, [])
  else if s.receFlag = 1 then
    if data s.index.toNat = 0xAA then
      ({ s with receFlag := s.receFlag + 1, index := s.index + 1 }, [])
    else ({ s with receFlag := 0, index := 0 }, [])
  else if s.receFlag = 2 then
    ({ s with
        receFlag := s.receFlag + 1
        receLen := data s.index.toNat
        index := s.index + 1 }, [])
  else if s.receFlag = 3 then
    if s.receLen.toNat > s.index.toNat + 1 then ({ s with index := s.index + 1 }, [])
    else
      let ret := checkCode data s.receLen
      if ret ≠ 0 then ({ s with receFlag := 0, receLen := 0, index := 0 }, [])
      else ({ s with receFlag := 0, receLen := 0, index := 0 }, [frame s e.outside])
  else ({ s with receFlag := 0, index := 0 }, [])

/-! ## The end of the RAM -/

/-- The RAM of the chip that is not the SoftDevice's. -/
def ramSize : Nat := 0xD518

/-- The next byte has more bytes summed than there is RAM. The chip ends in
`HardFault_Handler`, until the watchdog resets it. -/
def Faults (s : Parser) : Prop :=
  s.receFlag = 3 ∧ ¬ s.receLen.toNat > s.index.toNat + 1 ∧ ramSize < sumLen s.receLen

instance : DecidablePred Faults := fun _ => inferInstanceAs (Decidable (_ ∧ _ ∧ _))

/-- A length byte below 3 is not behind a completed header. -/
def LongEnough (s : Parser) : Prop := s.receFlag = 3 → 3 ≤ s.receLen.toNat

instance (s : Parser) : Decidable (LongEnough s) := inferInstanceAs (Decidable (_ → _))

theorem LongEnough.not_faults {s : Parser} (h : LongEnough s) : ¬ Faults s := by
  rintro ⟨hflag, -, hram⟩
  have hlt := s.receLen.toNat_lt
  rw [ramSize, sumLen_toNat, if_pos (h hflag)] at hram
  omega

/-! ## Reading back -/

theorem arrayTake_eq {n : Nat} {outside : Nat → UInt8} {a : Fin n → UInt8} {f : List UInt8}
    (h : ∀ i < f.length, arrayRead outside a i = bytesAt f i) :
    arrayTake outside a f.length = f := by
  apply List.ext_getElem (by simp [arrayTake])
  intro i hi hf
  simp only [arrayTake, List.getElem_map, List.getElem_range]
  rw [h i hf, bytesAt, List.getD_eq_getElem]

section

variable (s : Parser) (e : DataReady)

@[simp] theorem appUartGet_index (b : UInt8) : (appUartGet b s).index = s.index := rfl
@[simp] theorem appUartGet_receFlag (b : UInt8) : (appUartGet b s).receFlag = s.receFlag := rfl
@[simp] theorem appUartGet_receLen (b : UInt8) : (appUartGet b s).receLen = s.receLen := rfl

theorem arrayRead_got (outside : Nat → UInt8) (b : UInt8) :
    arrayRead outside (appUartGet b s).dataArray s.index.toNat = b := by
  have hlt := s.index.toNat_lt
  rw [arrayRead, dif_pos (by omega)]
  exact if_pos rfl

theorem arrayRead_kept (outside : Nat → UInt8) (b : UInt8) {i : Nat} (hi : i ≠ s.index.toNat) :
    arrayRead outside (appUartGet b s).dataArray i = arrayRead outside s.dataArray i := by
  unfold arrayRead
  split
  · exact if_neg hi
  · rfl

end

/-! ## One byte -/

/-- Nothing of a frame has been seen. -/
structure Idle (s : Parser) : Prop where
  receFlag : s.receFlag = 0
  index : s.index = 0
  receLen : s.receLen = 0

theorem boot_idle : Idle boot := ⟨rfl, rfl, rfl⟩

section

variable {s : Parser} {e : DataReady}

theorem handle_eq (s : Parser) (e : DataReady) :
    uartEventHandle s e =
      if s.receFlag = 0 then
        if e.byte = 0xAA then
          ({ appUartGet e.byte s with receFlag := s.receFlag + 1, index := s.index + 1 }, [])
        else ({ appUartGet e.byte s with receFlag := 0, index := 0 }, [])
      else if s.receFlag = 1 then
        if e.byte = 0xAA then
          ({ appUartGet e.byte s with receFlag := s.receFlag + 1, index := s.index + 1 }, [])
        else ({ appUartGet e.byte s with receFlag := 0, index := 0 }, [])
      else if s.receFlag = 2 then
        ({ appUartGet e.byte s with
            receFlag := s.receFlag + 1
            receLen := e.byte
            index := s.index + 1 }, [])
      else if s.receFlag = 3 then
        if s.receLen.toNat > s.index.toNat + 1 then
          ({ appUartGet e.byte s with index := s.index + 1 }, [])
        else if checkCode (arrayRead e.outside (appUartGet e.byte s).dataArray) s.receLen ≠ 0 then
          ({ appUartGet e.byte s with receFlag := 0, receLen := 0, index := 0 }, [])
        else
          ({ appUartGet e.byte s with receFlag := 0, receLen := 0, index := 0 },
            [frame (appUartGet e.byte s) e.outside])
      else ({ appUartGet e.byte s with receFlag := 0, index := 0 }, []) := by
  have hgot := arrayRead_got s e.outside e.byte
  simp only [uartEventHandle, appUartGet_receFlag, appUartGet_index, appUartGet_receLen, hgot]
  rfl

theorem handle_idle (h : Idle s) (hb : e.byte ≠ 0xAA) :
    Idle (uartEventHandle s e).1 ∧ (uartEventHandle s e).2 = [] := by
  rw [handle_eq, if_pos h.receFlag, if_neg hb]
  exact ⟨⟨rfl, rfl, h.receLen⟩, rfl⟩

theorem handle_header0 (hf : s.receFlag = 0) (hb : e.byte = 0xAA) :
    uartEventHandle s e =
      ({ appUartGet e.byte s with receFlag := 1, index := s.index + 1 }, []) := by
  rw [handle_eq, if_pos hf, if_pos hb, hf]
  rfl

theorem handle_header1 (hf : s.receFlag = 1) (hb : e.byte = 0xAA) :
    uartEventHandle s e =
      ({ appUartGet e.byte s with receFlag := 2, index := s.index + 1 }, []) := by
  rw [handle_eq, hf, if_neg (by decide), if_pos rfl, if_pos hb]
  rfl

/-- A single 0xAA is forgotten. -/
theorem handle_noHeader1 (hf : s.receFlag = 1) (hl : s.receLen = 0) (hb : e.byte ≠ 0xAA) :
    Idle (uartEventHandle s e).1 ∧ (uartEventHandle s e).2 = [] := by
  rw [handle_eq, hf, if_neg (by decide), if_pos rfl, if_neg hb]
  exact ⟨⟨rfl, rfl, hl⟩, rfl⟩

theorem handle_length (hf : s.receFlag = 2) :
    uartEventHandle s e =
      ({ appUartGet e.byte s with
          receFlag := 3
          receLen := e.byte
          index := s.index + 1 }, []) := by
  rw [handle_eq, hf, if_neg (by decide), if_neg (by decide), if_pos rfl]
  rfl

theorem handle_more (hf : s.receFlag = 3) (hm : s.receLen.toNat > s.index.toNat + 1) :
    uartEventHandle s e = ({ appUartGet e.byte s with index := s.index + 1 }, []) := by
  rw [handle_eq, hf, if_neg (by decide), if_neg (by decide), if_neg (by decide), if_pos rfl,
    if_pos hm]

/-- The last byte: the frame goes out if its checksum is right. -/
theorem handle_last (hf : s.receFlag = 3) (hm : ¬ s.receLen.toNat > s.index.toNat + 1) :
    Idle (uartEventHandle s e).1 ∧ (uartEventHandle s e).2 =
      if checkCode (arrayRead e.outside (appUartGet e.byte s).dataArray) s.receLen = 0 then
        [frame (appUartGet e.byte s) e.outside]
      else [] := by
  rw [handle_eq, hf, if_neg (by decide), if_neg (by decide), if_neg (by decide), if_pos rfl,
    if_neg hm]
  by_cases hc : checkCode (arrayRead e.outside (appUartGet e.byte s).dataArray) s.receLen = 0
  · rw [if_neg (not_not.mpr hc), if_pos hc]
    exact ⟨⟨rfl, rfl, rfl⟩, rfl⟩
  · rw [if_pos hc, if_neg hc]
    exact ⟨⟨rfl, rfl, rfl⟩, rfl⟩

end

end BleCar.MyBle.Uart
