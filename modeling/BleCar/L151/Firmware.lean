import BleCar.Lib.Runs
import BleCar.Motion.TaskSpecs
import BleCar.Protocol.Buffer

/-!
# The L151 motor firmware, one burst at a time

`my_l151_motor`: its board, and a parser that works on a copy of the buffer. It zeroes
`rx_len` while it reads the buffer, and on a bad header too, where it keeps
`recv_end_flag`. A step has no result when the controller resets itself or when the
motors never stop. The checksum of a burst of one or two bytes ends in the model; on the chip
the sum leaves the RAM.
-/

namespace BleCar.L151.Firmware

open BleCar.Lib.ByteSum
open BleCar.Lib.Runs
open BleCar.Motion.Hardware
open BleCar.Motion.Routines
open BleCar.Protocol.Frames
open BleCar.Protocol.Control hiding controlProtocolAnalysis
open BleCar.Protocol.Buffer

/-- Motors 1 to 3 on channels 2 to 4; on the second direction pin set means forward.
Channel 4 is the front wheel. -/
def board : Board where
  chan
    | .m1 => .ch2
    | .m2 => .ch3
    | .m3 => .ch4
  dirLevel
    | .m1, direction =>
      if direction = myCarDirectionForward then .reset
      else if direction = myCarDirectionBackward then .set
      else .reset
    | .m2, direction =>
      if direction = myCarDirectionForward then .set
      else if direction = myCarDirectionBackward then .reset
      else .set
    | .m3, direction =>
      if direction = myCarDirectionForward then .reset
      else if direction = myCarDirectionBackward then .set
      else .reset
  roles turnDir currentCarDir :=
    if turnDir = myTurnLeft then
      if currentCarDir = myCarDirectionForward then ⟨.ch4, .ch2, .ch3⟩ else ⟨.ch4, .ch2, .ch3⟩
    else
      if currentCarDir = myCarDirectionForward then ⟨.ch4, .ch3, .ch2⟩ else ⟨.ch4, .ch2, .ch3⟩
  chan_injective := by intro a b h; cases a <;> cases b <;> simp_all
  dirLevel_other := by intro m dir h; cases m <;> simp [h]
  dirLevel_ne := by intro m; cases m <;> decide
  m1_backward := by decide
  front_ne_outer := by intro t c; split_ifs <;> decide
  front_ne_inner := by intro t c; split_ifs <;> decide
  outer_ne_inner := by intro t c; split_ifs <;> decide
  roles_cover := by intro t c m; cases m <;> split_ifs <;> decide

/-- `A2` turns right and `A3` left in this firmware. -/
def controlProtocolAnalysis (y : Stray) (g : Globals) (data : Nat → UInt8) :
    Globals × List (List UInt8) :=
  Protocol.Control.controlProtocolAnalysis myTurnRight myTurnLeft y g data

/-- `memset(rx_buffer, 0, n)`. -/
def clearFirst (n : Nat) (buffer : Fin 256 → UInt8) : Fin 256 → UInt8 :=
  fun i => if i.val < n then 0 else buffer i

/-- `temp_buf[i]` after the first `len` bytes of `rx_buffer` have been copied into it. -/
def tempBuf (y : Stray) (r : Rx) (len : UInt8) (i : Nat) : UInt8 :=
  if i < 256 then if i < len.toNat then rxRead y r i else 0 else y.temp (i - 256)

/-- `print_array_hex` on an array: length 0 executes `HAL_NVIC_SystemReset`. -/
def printArrayHex (length : UInt16) : Option Unit := if length = 0 then none else some ()

/-- `none` when the controller resets. -/
def myMotorControlProtocolAnalysis (y : Stray) (s : Mcu) : Option Mcu :=
  if s.rx.recvEndFlag ≠ true then some s
  else if rxRead y s.rx 0 ≠ 0xAA ∨ rxRead y s.rx 1 ≠ 0xAA then
    let rx := { s.rx with rxLen := 0 }
    some { s with rx := { rx with rxBuffer := clearFirst rx.rxLen.toNat rx.rxBuffer } }
  else
    let rx := { s.rx with recvEndFlag := false }
    let myCalLen := rx.rxLen
    let rx := { rx with rxLen := 0 }
    let data := tempBuf y rx myCalLen
    let rx := { rx with rxBuffer := clearFirst rx.rxLen.toNat rx.rxBuffer }
    (printArrayHex myCalLen.toUInt16).map fun _ =>
      let ret := checkCode data myCalLen
      if ret ≠ 0 then { s with rx, sent := s.sent ++ [myUart3TxToBLE y s.globals 0xA6 0] }
      else
        let out := controlProtocolAnalysis y s.globals data
        { s with rx, globals := out.1, sent := s.sent ++ out.2 }

/-- One pass of the main loop. -/
def mainLoop (y : Stray) (s : Mcu) : Option Mcu :=
  (myMotorControlProtocolAnalysis y s).bind fun s =>
    (myMotorControlTask board y s.globals s.drive).map fun out =>
      { s with globals := out.1, drive := out.2 }

/-- A burst arrives and the main loop makes one pass. -/
def step (s : Mcu) (e : Burst) : Option Mcu := mainLoop e.stray (s.after e.bytes)

/-- The registers after `MX_GPIO_Init` and `MX_TIM2_Init`: all direction pins set. -/
def bootActuators : Actuators := ⟨fun _ => 0, fun _ => .set⟩

def boot : Mcu := ⟨Rx.boot, Globals.boot, ⟨bootActuators, []⟩, []⟩

/-! ## What the parser makes of a burst -/

/-- The copy holds the burst and zeros behind it. -/
theorem tempBuf_receive (y : Stray) {b : List UInt8} (h1 : 1 ≤ b.length) (h : b.length ≤ 255)
    (r : Rx) {i : Nat} (hi : i < 256) :
    tempBuf y (receive b r) (receive b r).rxLen i = bytesAt b i := by
  have hlen : (receive b r).rxLen.toNat = b.length := idleLen_toNat h1 h
  rw [tempBuf, if_pos hi, hlen]
  split
  case isTrue hb => exact rxRead_receive hb hi y r
  case isFalse hb => exact (List.getD_eq_default _ _ (by omega)).symm

/-- Only the burst reaches `control_protocol_analysis`, never what is behind it. -/
theorem control_tempBuf (y : Stray) (g : Globals) {b : List UInt8} (h1 : 1 ≤ b.length)
    (h : b.length ≤ 255) (r : Rx) :
    controlProtocolAnalysis y g (tempBuf y (receive b r) (receive b r).rxLen) =
      controlProtocolAnalysis y g (bytesAt b) := by
  apply controlProtocolAnalysis_congr y g
  intro i hi
  apply tempBuf_receive y h1 h r
  have hle := controlReads_le hi
  omega

section

variable (y : Stray) (s : Mcu) {b : List UInt8}

theorem printArrayHex_receive (h1 : 1 ≤ b.length) (h : b.length ≤ 255) (r : Rx) :
    printArrayHex (receive b r).rxLen.toUInt16 = some () := by
  have hlen : (receive b r).rxLen.toNat = b.length := idleLen_toNat h1 h
  refine if_neg fun hz => ?_
  have hnat : (receive b r).rxLen.toUInt16.toNat = 0 := by rw [hz]; rfl
  rw [UInt8.toNat_toUInt16] at hnat
  omega

theorem analysis_badHeader (b : List UInt8) (h : ¬ headerOk y (receive b s.rx)) :
    ∃ rx, myMotorControlProtocolAnalysis y (s.after b) = some { s with rx } := by
  rw [headerOk, not_and_or] at h
  exact ⟨_, (if_neg (not_not.mpr rfl)).trans (if_pos h)⟩

/-- Behind the header, the rest of the parser runs on the copy. -/
theorem analysis_header (h1 : 1 ≤ b.length) (h : b.length ≤ 255)
    (hh : headerOk y (receive b s.rx)) :
    ∃ rx, myMotorControlProtocolAnalysis y (s.after b) = some
      (if checkCode (tempBuf y (receive b s.rx) (receive b s.rx).rxLen)
          (receive b s.rx).rxLen ≠ 0 then
        { s with rx, sent := s.sent ++ [myUart3TxToBLE y s.globals 0xA6 0] }
      else
        { s with
          rx
          globals := (controlProtocolAnalysis y s.globals (bytesAt b)).1
          sent := s.sent ++ (controlProtocolAnalysis y s.globals (bytesAt b)).2 }) := by
  have hgo : ¬ (rxRead y (receive b s.rx) 0 ≠ 0xAA ∨ rxRead y (receive b s.rx) 1 ≠ 0xAA) := by
    simp [hh.1, hh.2]
  rw [← control_tempBuf y s.globals h1 h s.rx]
  refine ⟨{ rxBuffer := clearFirst 0 (receive b s.rx).rxBuffer, rxLen := 0, recvEndFlag := false },
    (if_neg (not_not.mpr rfl)).trans ((if_neg hgo).trans ?_)⟩
  exact congrArg (Option.map _) (printArrayHex_receive h1 h s.rx)

theorem sound_iff (h3 : 3 ≤ b.length) (h : b.length ≤ 255) (r : Rx) :
    Sound b ↔ headerOk y (receive b r) ∧
      checkCode (tempBuf y (receive b r) (receive b r).rxLen) (receive b r).rxLen = 0 := by
  have hlen : (receive b r).rxLen.toNat = b.length := idleLen_toNat (by omega) h
  rw [headerOk_receive y (by omega), checkCode_eq_zero h3 hlen
    fun i hi => tempBuf_receive y (by omega) h r (by omega)]
  exact ⟨fun hs => ⟨⟨hs.header0, hs.header1⟩, hs.checksum⟩, fun ⟨⟨h0, h1⟩, hc⟩ => ⟨h0, h1, hc⟩⟩

/-- A sound burst is handed to `control_protocol_analysis`, byte for byte. -/
theorem analysis_sound (hs : Sound b) (h : b.length ≤ 255) :
    ∃ rx, myMotorControlProtocolAnalysis y (s.after b) = some
      { s with
        rx
        globals := (controlProtocolAnalysis y s.globals (bytesAt b)).1
        sent := s.sent ++ (controlProtocolAnalysis y s.globals (bytesAt b)).2 } := by
  have h4 := sound_four hs
  obtain ⟨hh, hc⟩ := (sound_iff y (by omega) h s.rx).mp hs
  obtain ⟨rx, hrx⟩ := analysis_header y s (by omega) h hh
  exact ⟨rx, hrx.trans (congrArg some (if_neg (not_not.mpr hc)))⟩

/-- Bursts of 1 to 255 bytes never reset the controller when each is handled before the
next arrives, and only sound ones reach the globals. -/
theorem analysis_globals (h1 : 1 ≤ b.length) (h : b.length ≤ 255) :
    ∃ t, myMotorControlProtocolAnalysis y (s.after b) = some t ∧ t.drive = s.drive ∧
      t.globals = if Sound b then (controlProtocolAnalysis y s.globals (bytesAt b)).1
        else s.globals := by
  by_cases hs : Sound b
  · obtain ⟨rx, hrx⟩ := analysis_sound y s hs h
    exact ⟨_, hrx, rfl, (if_pos hs).symm⟩
  · rw [if_neg hs]
    by_cases hh : headerOk y (receive b s.rx)
    · obtain ⟨rx, hrx⟩ := analysis_header y s h1 h hh
      refine ⟨_, hrx, by split <;> rfl, ?_⟩
      split
      case isTrue => rfl
      case isFalse hc =>
        -- a burst too short for an ID leaves a zero in its place
        have hid : bytesAt b 3 = 0 := by
          apply List.getD_eq_default
          by_contra hlt
          exact hs ((sound_iff y (by omega) h s.rx).mpr ⟨hh, not_not.mp hc⟩)
        rw [controlProtocolAnalysis, control_unknown]
        simp [UnknownID, hid]
    · obtain ⟨rx, hrx⟩ := analysis_badHeader y s b hh
      exact ⟨_, hrx, rfl, rfl⟩

/-- The step of a burst whose task ends. -/
theorem step_of_task {s : Mcu} {e : Burst} {g g' : Globals} {d : Drive}
    (h1 : 1 ≤ e.bytes.length) (h : e.bytes.length ≤ 255)
    (hg : (if Sound e.bytes then (controlProtocolAnalysis e.stray s.globals (bytesAt e.bytes)).1
      else s.globals) = g)
    (ht : myMotorControlTask board e.stray g s.drive = some (g', d)) :
    ∃ t, step s e = some t ∧ t.globals = g' ∧ t.drive = d := by
  obtain ⟨m, hm, hmd, hmg⟩ := analysis_globals e.stray s h1 h
  refine ⟨{ m with globals := g', drive := d }, ?_, rfl, rfl⟩
  rw [step, mainLoop, hm, Option.bind_some, hmg, hg, hmd, ht]
  rfl

end

end BleCar.L151.Firmware
