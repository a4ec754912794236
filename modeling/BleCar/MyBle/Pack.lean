import BleCar.F103.Grammar
import BleCar.MyBle.Uart

/-!
# The frames the BLE chip packs

`my_com_recv_handler` answers a command of the app with `my_data_pack_app` and passes it
on to the motor controller with `my_dada_pack_mcu`. Both fill a static buffer. The first
closes its frame with a check code over everything from the ID on, the second leaves the
ID out, and it gives every command the length 6.
-/

namespace BleCar.MyBle.Pack

open BleCar.Lib.ByteSum
open BleCar.Lib.Transducer
open BleCar.Motion.Routines
open BleCar.Protocol.Frames
open BleCar.Protocol.Control
open BleCar.Protocol.Buffer
open BleCar.F103.Firmware
open BleCar.F103.Grammar
open BleCar.MyBle.Uart

/-- The static variables. `len` of `my_data_pack_app` is 0 at every entry. -/
structure Packer where
  txBufferMCU : Fin 100 → UInt8
  lenMCU : UInt16
  txBufferAPP : Fin 100 → UInt8

def Packer.boot : Packer := ⟨fun _ => 0, 0, fun _ => 0⟩

/-- A frame handed to `my_ble_send`, or one put to the UART byte by byte. -/
inductive Packed where
  | app (frame : List UInt8)
  | mcu (frame : List UInt8)
  deriving DecidableEq

/-- `a[i] = b`; a write outside the array leaves it as it is. -/
def arrayWrite {n : Nat} (a : Fin n → UInt8) (i : Int) (b : UInt8) : Fin n → UInt8 :=
  fun j => if (j.val : Int) = i then b else a j

variable (outside : Nat → UInt8)

def myDataPackApp (sendID : UInt8) (p : Packer) : Packer × List Packed :=
  let len : UInt16 := if sendID = 0xA1 ∨ sendID = 0xA2 ∨ sendID = 0xA3 ∨ sendID = 0xA4 ∨
    sendID = 0xA5 ∨ sendID = 0xA6 ∨ sendID = 0xB1 then 0x06 else 0
  let a := arrayWrite (arrayWrite p.txBufferAPP 0 0xAA) 1 0xAA
  let a := arrayWrite (arrayWrite a 2 len.toUInt8) 3 sendID
  let a := arrayWrite a ((len.toNat : Int) - 1) (myCheckCodeCalculate
    (fun i => arrayRead outside a (3 + i)) (UInt16.ofInt ((len.toNat : Int) - 4)))
  ({ p with txBufferAPP := fun _ => 0 }, [.app (arrayTake outside a len.toNat)])

def myDadaPackMcu (sendID : UInt8) (p : Packer) : Packer × List Packed :=
  let len : UInt16 := if sendID = 0xA1 ∨ sendID = 0xA2 ∨ sendID = 0xA3 ∨ sendID = 0xA4 ∨
    sendID = 0xA5 ∨ sendID = 0xA6 then 0x06 else p.lenMCU
  let a := arrayWrite (arrayWrite p.txBufferMCU 0 0xAA) 1 0xAA
  let a := arrayWrite (arrayWrite a 2 len.toUInt8) 3 sendID
  let a := arrayWrite a ((len.toNat : Int) - 1) (myCheckCodeCalculate
    (fun i => arrayRead outside a (4 + i)) (UInt16.ofInt ((len.toNat : Int) - 5)))
  ({ p with txBufferMCU := a, lenMCU := len }, [.mcu (arrayTake outside a len.toNat)])

/-- A command of the app: `data` points to its ID. -/
structure Command where
  data : Nat → UInt8
  outside : Nat → UInt8

/-- The branch of one command: the answer to the app, then the frame for the motors. -/
def answer (ID : UInt8) (p : Packer) : Packer × List Packed :=
  let app := myDataPackApp outside ID p
  let mcu := myDadaPackMcu outside ID app.1
  (mcu.1, app.2 ++ mcu.2)

def myComRecvHandler (p : Packer) (c : Command) : Packer × List Packed :=
  let commandID := c.data 0
  let p := { p with txBufferMCU := arrayWrite p.txBufferMCU 4 (c.data 1) }
  if commandID = 0xA1 then answer c.outside 0xA1 p
  else if commandID = 0xA2 then answer c.outside 0xA2 p
  else if commandID = 0xA3 then answer c.outside 0xA3 p
  else if commandID = 0xA4 then answer c.outside 0xA4 p
  else if commandID = 0xA5 then answer c.outside 0xA5 p
  else if commandID = 0xB1 then myDataPackApp c.outside 0xA5 p
  else (p, [])

/-- The IDs of the commands. -/
def IsCommandID (ID : UInt8) : Prop :=
  ID = 0xA1 ∨ ID = 0xA2 ∨ ID = 0xA3 ∨ ID = 0xA4 ∨ ID = 0xA5

instance (ID : UInt8) : Decidable (IsCommandID ID) := inferInstanceAs (Decidable (_ ∨ _))

/-! ## What is packed -/

section

variable {ID : UInt8} (p : Packer)

theorem myDadaPackMcu_known (h : IsCommandID ID) :
    (myDadaPackMcu outside ID p).2 =
      [.mcu [0xAA, 0xAA, 0x06, ID, p.txBufferMCU 4, 0xff - p.txBufferMCU 4]] := by
  have hlen : ID = 0xA1 ∨ ID = 0xA2 ∨ ID = 0xA3 ∨ ID = 0xA4 ∨ ID = 0xA5 ∨ ID = 0xA6 := by
    unfold IsCommandID at h
    tauto
  simp only [myDadaPackMcu, if_pos hlen]
  simp [arrayTake, List.range_succ, arrayRead, arrayWrite, myCheckCodeCalculate, byteSum]

theorem myDataPackApp_known (h : IsCommandID ID) :
    (myDataPackApp outside ID p).2 =
      [.app [0xAA, 0xAA, 0x06, ID, p.txBufferAPP 4, 0xff - (ID + p.txBufferAPP 4)]] := by
  have hlen : ID = 0xA1 ∨ ID = 0xA2 ∨ ID = 0xA3 ∨ ID = 0xA4 ∨ ID = 0xA5 ∨ ID = 0xA6 ∨
      ID = 0xB1 := by
    unfold IsCommandID at h
    tauto
  have htwo : (UInt16.ofInt 2).toNat = 2 := rfl
  simp only [myDataPackApp, if_pos hlen]
  simp [arrayTake, List.range_succ, arrayRead, arrayWrite, myCheckCodeCalculate, htwo, byteSum]

/-- The two frames of a command, after any others. -/
theorem myComRecvHandler_command {c : Command} (h : IsCommandID (c.data 0)) :
    (myComRecvHandler p c).2 =
      [.app [0xAA, 0xAA, 0x06, c.data 0, p.txBufferAPP 4, 0xff - (c.data 0 + p.txBufferAPP 4)],
        .mcu [0xAA, 0xAA, 0x06, c.data 0, c.data 1, 0xff - c.data 1]] := by
  have hanswer : (myComRecvHandler p c).2 = (answer c.outside (c.data 0)
      { p with txBufferMCU := arrayWrite p.txBufferMCU 4 (c.data 1) }).2 := by
    rcases h with h | h | h | h | h <;> simp [myComRecvHandler, h]
  rw [hanswer]
  simp only [answer]
  rw [myDataPackApp_known _ _ h, myDadaPackMcu_known _ _ h]
  rfl

end

/-- The frame for the app is closed from the ID on. -/
theorem app_wellFormed (ID q : UInt8) : WellFormed [0xAA, 0xAA, 0x06, ID, q, 0xff - (ID + q)] := by
  refine ⟨rfl, rfl, rfl, ?_⟩
  simp only [byteSum, bytesAt, List.length_cons, List.length_nil]
  grind

/-- The frame for the motors sums to the ID less one. -/
theorem mcu_refused (y : Stray) (r : Rx) {ID : UInt8} (hID : ID ≠ 0) (q : UInt8) :
    ¬ Dispatches y (receive [0xAA, 0xAA, 0x06, ID, q, 0xff - q] r) := by
  rw [dispatches_iff y (by simp) (by simp)]
  intro hs
  have hc := hs.checksum
  simp only [byteSum, bytesAt, List.length_cons, List.length_nil] at hc
  grind

/-- The motor controller takes `f` for a valid frame, in which every byte it reads comes
before the check code. -/
def Understood (y : Stray) (r : Rx) (f : List UInt8) : Prop :=
  Dispatches y (receive f r) ∧ ∀ i ∈ controlReads (bytesAt f), i + 1 < f.length

/-- After any commands, every command sends the app a well-formed frame and the motors one
they never understand. -/
theorem never_understood (hist : List Command) (c : Command) (h : IsCommandID (c.data 0)) :
    ∃ app mcu,
      (myComRecvHandler (after myComRecvHandler Packer.boot hist) c).2 = [.app app, .mcu mcu] ∧
        WellFormed app ∧ ∀ y r, ¬ Understood y r mcu := by
  have hne : c.data 0 ≠ 0 := by
    rcases h with h | h | h | h | h <;> rw [h] <;> decide
  exact ⟨_, _, myComRecvHandler_command _ h, app_wellFormed _ _,
    fun y r hu => mcu_refused y r hne _ hu.1⟩

/-- The command A1 with direction 1, the byte behind it 0. -/
def forward : Command := ⟨fun i => if i = 0 then 0xA1 else if i = 1 then 0x01 else 0, fun _ => 0⟩

theorem never_understood_forward :
    ∃ app mcu,
      (myComRecvHandler (after myComRecvHandler Packer.boot []) forward).2 = [.app app, .mcu mcu] ∧
        WellFormed app ∧ ∀ y r, ¬ Understood y r mcu :=
  never_understood [] forward (by decide)

/-- The first command after boot goes out as AA AA 06 A1 01 FE, whose check code leaves the
ID out. -/
theorem forward_refused :
    ¬ ∀ (hist : List Command) (c : Command), IsCommandID (c.data 0) →
      ∀ f, Packed.mcu f ∈ (myComRecvHandler (after myComRecvHandler Packer.boot hist) c).2 →
        ∀ y r, Understood y r f := by
  intro h
  have hf := h [] forward (by decide) [0xAA, 0xAA, 0x06, 0xA1, 0x01, 0xFE] (by decide)
    Stray.blank Rx.boot
  exact absurd hf.1 (by decide)

end BleCar.MyBle.Pack
