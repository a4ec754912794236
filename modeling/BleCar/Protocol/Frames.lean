import Mathlib.Data.List.GetD
import BleCar.Lib.ByteSum
import BleCar.Motion.Routines

/-!
# Checksums and reply frames

`my_check_code_calculate`, `my_check_code_analysis` and `my_uart3_tx_to_BLE` are the
same text in both motor firmwares. A pointer argument is the function from an index
to the byte read there.
-/

namespace BleCar.Protocol.Frames

open BleCar.Lib.ByteSum
open BleCar.Motion.Routines

def myCheckCodeCalculate (data : Nat → UInt8) (len : UInt16) : UInt8 :=
  0xff - byteSum data len.toNat

def myCheckCodeAnalysis (data : Nat → UInt8) (len : UInt16) : UInt8 :=
  if byteSum data len.toNat = 0xff then 0 else 2

/-- `my_check_code_analysis(&data[3], my_cal_len-3)`. -/
def checkCode (data : Nat → UInt8) (myCalLen : UInt8) : UInt8 :=
  myCheckCodeAnalysis (fun i => data (3 + i)) (UInt16.ofInt ((myCalLen.toNat : Int) - 3))

/-- The number of bytes that call sums. -/
def sumLen (myCalLen : UInt8) : Nat := (UInt16.ofInt ((myCalLen.toNat : Int) - 3)).toNat

/-- The bytes `my_uart3_tx_to_BLE` puts into `temp_txbuf` before the check code. -/
def replyBody (g : Globals) (ID ret : UInt8) : List UInt8 :=
  [0xAA, 0xAA] ++
    if ID = 0xA1 then [0x06, ID, ret]
    else if ID = 0xA2 then [0x06, ID, ret]
    else if ID = 0xA3 then [0x06, ID, ret]
    else if ID = 0xA4 then [0x09, ID, g.gMotorDirection, g.gMotorSpeedLevel,
      g.gMotorTurnDirection, g.gMotorTurnLevel]
    else if ID = 0xA5 then [0x06, ID, ret]
    else if ID = 0xA6 then [0x05, ID]
    else []

/-- `temp_txbuf[i]`: 20 bytes, cleared before they are filled. -/
def tempTxbuf (y : Stray) (bytes : List UInt8) (i : Nat) : UInt8 :=
  if i < 20 then bytes.getD i 0 else y.tx (i - 20)

/-- The frame handed to `HAL_UART_Transmit_DMA`. -/
def myUart3TxToBLE (y : Stray) (g : Globals) (ID ret : UInt8) : List UInt8 :=
  let body := replyBody g ID ret
  let tempData := myCheckCodeCalculate (fun i => tempTxbuf y body (3 + i))
    (UInt16.ofInt ((body.length : Int) + 1 - 4))
  body ++ [tempData]

theorem myCheckCodeAnalysis_eq_zero (data : Nat → UInt8) (len : UInt16) :
    myCheckCodeAnalysis data len = 0 ↔ byteSum data len.toNat = 0xff := by
  unfold myCheckCodeAnalysis
  split <;> simp_all

/-- Conversion of an `int` to `uint16_t`. -/
theorem ofInt_toNat (x : Int) : (UInt16.ofInt x).toNat = (x % 65536).toNat := by
  rw [UInt16.ofInt, UInt16.toNat_ofNat']
  omega

theorem sumLen_toNat (n : UInt8) :
    sumLen n = if 3 ≤ n.toNat then n.toNat - 3 else 65533 + n.toNat := by
  have hlt := n.toNat_lt
  rw [sumLen, ofInt_toNat]
  split <;> omega

/-- A pointer to the first byte of a list. -/
def bytesAt (f : List UInt8) (i : Nat) : UInt8 := f.getD i 0

/-- On a copy of `b` of its own length, from three bytes on, the check sums `b`. -/
theorem checkCode_eq_zero {data : Nat → UInt8} {b : List UInt8} {myCalLen : UInt8}
    (h3 : 3 ≤ b.length) (hlen : myCalLen.toNat = b.length)
    (h : ∀ i < b.length, data i = bytesAt b i) :
    checkCode data myCalLen = 0 ↔ byteSum (fun i => bytesAt b (3 + i)) (b.length - 3) = 0xff := by
  have hlt : myCalLen.toNat < 256 := myCalLen.toNat_lt
  have hn : (UInt16.ofInt ((myCalLen.toNat : Int) - 3)).toNat = b.length - 3 := by
    rw [ofInt_toNat]
    omega
  have hsum : byteSum (fun i => data (3 + i)) (b.length - 3) =
      byteSum (fun i => bytesAt b (3 + i)) (b.length - 3) :=
    byteSum_congr fun i hi => h _ (by omega)
  rw [checkCode, myCheckCodeAnalysis_eq_zero, hn, hsum]

/-- The shape of every frame of the protocol: header, its own length, and a checksum
over everything from the ID on. -/
structure WellFormed (f : List UInt8) : Prop where
  header0 : bytesAt f 0 = 0xAA
  header1 : bytesAt f 1 = 0xAA
  length : (bytesAt f 2).toNat = f.length
  checksum : byteSum (fun i => bytesAt f (3 + i)) (f.length - 3) = 0xff

instance (f : List UInt8) : Decidable (WellFormed f) :=
  decidable_of_iff (bytesAt f 0 = 0xAA ∧ bytesAt f 1 = 0xAA ∧ (bytesAt f 2).toNat = f.length ∧
      byteSum (fun i => bytesAt f (3 + i)) (f.length - 3) = 0xff)
    ⟨fun ⟨h0, h1, hl, hc⟩ => ⟨h0, h1, hl, hc⟩,
      fun h => ⟨h.header0, h.header1, h.length, h.checksum⟩⟩

/-- The length the protocol table gives for the frames of a command. -/
def tableLength (ID : UInt8) : Option Nat :=
  if ID = 0xA1 then some 7
  else if ID = 0xA2 ∨ ID = 0xA3 then some 6
  else if ID = 0xA4 then some 5
  else if ID = 0xA5 then some 6
  else none

/-- A frame of the protocol table, up to the values of its parameters. -/
def TableFrame (f : List UInt8) : Prop := WellFormed f ∧ tableLength (bytesAt f 3) = some f.length

instance (f : List UInt8) : Decidable (TableFrame f) := inferInstanceAs (Decidable (_ ∧ _))

theorem TableFrame.length_range {f : List UInt8} (h : TableFrame f) :
    5 ≤ f.length ∧ f.length ≤ 7 := by
  have hlen := h.2
  unfold tableLength at hlen
  split_ifs at hlen <;> simp at hlen <;> omega

/-- The header, and a byte sum of 0xFF from the ID to the end of the burst. -/
structure Sound (b : List UInt8) : Prop where
  header0 : bytesAt b 0 = 0xAA
  header1 : bytesAt b 1 = 0xAA
  checksum : byteSum (fun i => bytesAt b (3 + i)) (b.length - 3) = 0xff

instance (b : List UInt8) : Decidable (Sound b) :=
  decidable_of_iff (bytesAt b 0 = 0xAA ∧ bytesAt b 1 = 0xAA ∧
      byteSum (fun i => bytesAt b (3 + i)) (b.length - 3) = 0xff)
    ⟨fun ⟨h0, h1, hc⟩ => ⟨h0, h1, hc⟩, fun h => ⟨h.header0, h.header1, h.checksum⟩⟩

theorem WellFormed.sound {b : List UInt8} (h : WellFormed b) : Sound b :=
  ⟨h.header0, h.header1, h.checksum⟩

/-- The empty sum is not 0xFF, so a sound burst has an ID. -/
theorem sound_four {b : List UInt8} (hs : Sound b) : 4 ≤ b.length := by
  by_contra hlt
  have hz : b.length - 3 = 0 := by omega
  have hc := hs.checksum
  rw [hz, byteSum_zero] at hc
  exact absurd hc (by decide)

/-- The IDs `my_uart3_tx_to_BLE` is called with. -/
def IsReplyID (ID : UInt8) : Prop :=
  ID = 0xA1 ∨ ID = 0xA2 ∨ ID = 0xA3 ∨ ID = 0xA4 ∨ ID = 0xA5 ∨ ID = 0xA6

instance (ID : UInt8) : Decidable (IsReplyID ID) := inferInstanceAs (Decidable (_ ∨ _))

/-- Closing the bytes from index 3 on with their check code. -/
theorem wellFormed_closed {y : Stray} {body : List UInt8} (hlen : 4 ≤ body.length)
    (hshort : body.length < 20) (h0 : bytesAt body 0 = 0xAA) (h1 : bytesAt body 1 = 0xAA)
    (h2 : (bytesAt body 2).toNat = body.length + 1) :
    WellFormed (body ++ [myCheckCodeCalculate (fun i => tempTxbuf y body (3 + i))
      (UInt16.ofInt ((body.length : Int) + 1 - 4))]) := by
  have hget : ∀ c : UInt8, ∀ i < body.length, bytesAt (body ++ [c]) i = bytesAt body i :=
    fun c i hi => List.getD_append _ _ _ _ hi
  have hn : (UInt16.ofInt ((body.length : Int) + 1 - 4)).toNat = body.length - 3 := by
    rw [ofInt_toNat]
    omega
  refine ⟨?_, ?_, ?_, ?_⟩
  · rw [hget _ 0 (by omega), h0]
  · rw [hget _ 1 (by omega), h1]
  · rw [hget _ 2 (by omega), h2]
    simp
  · have hsucc : (body ++ [myCheckCodeCalculate (fun i => tempTxbuf y body (3 + i))
        (UInt16.ofInt ((body.length : Int) + 1 - 4))]).length - 3 = (body.length - 3) + 1 := by
      simp only [List.length_append, List.length_singleton]
      omega
    rw [hsucc]
    apply byteSum_complement
    have hsum : byteSum (fun i => tempTxbuf y body (3 + i)) (body.length - 3) =
        byteSum (fun i => bytesAt (body ++ [myCheckCodeCalculate
          (fun i => tempTxbuf y body (3 + i))
          (UInt16.ofInt ((body.length : Int) + 1 - 4))]) (3 + i)) (body.length - 3) := by
      apply byteSum_congr
      intro i hi
      rw [hget _ _ (by omega), tempTxbuf, if_pos (by omega)]
      rfl
    rw [show 3 + (body.length - 3) = body.length by omega, ← hsum]
    simp [bytesAt, myCheckCodeCalculate, hn]

/-- A reply is its body, closed by the complement of the sum from the ID on. -/
theorem myUart3TxToBLE_closed (y : Stray) (g : Globals) {ID : UInt8} (h : IsReplyID ID)
    (ret : UInt8) :
    myUart3TxToBLE y g ID ret = replyBody g ID ret ++
      [0xff - byteSum (fun i => bytesAt (replyBody g ID ret) (3 + i))
        ((replyBody g ID ret).length - 3)] := by
  have hlen : 4 ≤ (replyBody g ID ret).length ∧ (replyBody g ID ret).length ≤ 8 := by
    rcases h with rfl | rfl | rfl | rfl | rfl | rfl <;> simp [replyBody]
  have hn : (UInt16.ofInt (((replyBody g ID ret).length : Int) + 1 - 4)).toNat =
      (replyBody g ID ret).length - 3 := by
    rw [ofInt_toNat]
    omega
  have hsum : byteSum (fun i => tempTxbuf y (replyBody g ID ret) (3 + i))
      ((replyBody g ID ret).length - 3) =
        byteSum (fun i => bytesAt (replyBody g ID ret) (3 + i))
          ((replyBody g ID ret).length - 3) := by
    apply byteSum_congr
    intro i hi
    rw [tempTxbuf, if_pos (by omega), bytesAt]
  simp only [myUart3TxToBLE, myCheckCodeCalculate, hn, hsum]

/-- No reply depends on the bytes behind `temp_txbuf`. -/
theorem myUart3TxToBLE_stray (y y' : Stray) (g : Globals) {ID : UInt8} (h : IsReplyID ID)
    (ret : UInt8) : myUart3TxToBLE y g ID ret = myUart3TxToBLE y' g ID ret :=
  (myUart3TxToBLE_closed y g h ret).trans (myUart3TxToBLE_closed y' g h ret).symm

/-- Every reply is a well-formed frame of at least five bytes, whatever the globals. -/
theorem myUart3TxToBLE_wellFormed (y : Stray) (g : Globals) {ID : UInt8} (h : IsReplyID ID)
    (ret : UInt8) : WellFormed (myUart3TxToBLE y g ID ret) := by
  rcases h with rfl | rfl | rfl | rfl | rfl | rfl
  all_goals
    apply wellFormed_closed
    all_goals simp [replyBody, bytesAt]

end BleCar.Protocol.Frames
