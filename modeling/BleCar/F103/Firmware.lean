import BleCar.Lib.Runs
import BleCar.Motion.TaskSpecs
import BleCar.Protocol.Buffer

/-!
# The F103 motor firmware, one burst at a time

`my_mcu`: the board of `motor.c`, the parser of `usart.c` and one pass of the main
loop. A run here hands every burst to one pass of the loop; bursts that arrive while
the loop is busy are the subject of `BleCar.F103.System`.
-/

namespace BleCar.F103.Firmware

open BleCar.Lib.Runs
open BleCar.Motion.Hardware
open BleCar.Motion.Routines
open BleCar.Protocol.Frames
open BleCar.Protocol.Control
open BleCar.Protocol.Buffer

/-- Motors 1 to 3 on channels 1 to 3; a set pin means backward. Channel 2 is the inner
rear wheel of every turn except a right turn forward. -/
def board : Board where
  chan
    | .m1 => .ch1
    | .m2 => .ch2
    | .m3 => .ch3
  dirLevel _ direction :=
    if direction = myCarDirectionForward then .reset
    else if direction = myCarDirectionBackward then .set
    else .reset
  roles turnDir currentCarDir :=
    if turnDir = myTurnLeft then
      if currentCarDir = myCarDirectionForward then ⟨.ch3, .ch1, .ch2⟩ else ⟨.ch3, .ch1, .ch2⟩
    else
      if currentCarDir = myCarDirectionForward then ⟨.ch3, .ch2, .ch1⟩ else ⟨.ch3, .ch1, .ch2⟩
  chan_injective := by intro a b h; cases a <;> cases b <;> simp_all
  dirLevel_other := by intro m dir h; simp [h]
  dirLevel_ne := by intro m; decide
  m1_backward := by decide
  front_ne_outer := by intro t c; split_ifs <;> decide
  front_ne_inner := by intro t c; split_ifs <;> decide
  outer_ne_inner := by intro t c; split_ifs <;> decide
  roles_cover := by intro t c m; cases m <;> split_ifs <;> decide

/-- `A2` turns left and `A3` right in this firmware. -/
def controlProtocolAnalysis (y : Stray) (g : Globals) (data : Nat → UInt8) :
    Globals × List (List UInt8) :=
  Protocol.Control.controlProtocolAnalysis myTurnLeft myTurnRight y g data

def myMotorControlProtocolAnalysis (y : Stray) (s : Mcu) : Mcu :=
  if s.rx.recvEndFlag ≠ true then s
  else if rxRead y s.rx 0 ≠ 0xAA ∨ rxRead y s.rx 1 ≠ 0xAA then s
  else
    let rx := { s.rx with recvEndFlag := false }
    let ret := checkCode (rxRead y rx) rx.rxLen
    if ret ≠ 0 then { s with rx, sent := s.sent ++ [myUart3TxToBLE y s.globals 0xA6 0] }
    else
      let out := controlProtocolAnalysis y s.globals (rxRead y rx)
      { s with rx, globals := out.1, sent := s.sent ++ out.2 }

/-- One pass of the main loop. -/
def mainLoop (y : Stray) (s : Mcu) : Option Mcu :=
  let s := myMotorControlProtocolAnalysis y s
  (myMotorControlTask board y s.globals s.drive).map fun out =>
    { s with globals := out.1, drive := out.2 }

/-- A burst arrives and the main loop makes one pass. -/
def step (s : Mcu) (e : Burst) : Option Mcu := mainLoop e.stray (s.after e.bytes)

/-- The registers after `MX_GPIO_Init` and `MX_TIM2_Init`. -/
def bootActuators : Actuators := ⟨fun _ => 0, fun _ => .reset⟩

def boot : Mcu := ⟨Rx.boot, Globals.boot, ⟨bootActuators, []⟩, []⟩

/-- The frame passed on to `control_protocol_analysis`, if any. -/
def Dispatches (y : Stray) (r : Rx) : Prop := headerOk y r ∧ checkCode (rxRead y r) r.rxLen = 0

instance (y : Stray) (r : Rx) : Decidable (Dispatches y r) :=
  inferInstanceAs (Decidable (_ ∧ _))

section

variable (y : Stray) (s : Mcu)

theorem analysis_drive : (myMotorControlProtocolAnalysis y s).drive = s.drive := by
  simp only [myMotorControlProtocolAnalysis]
  split_ifs <;> rfl

/-- Without a burst or without the header nothing happens. -/
theorem analysis_ignored (h : ¬ (s.rx.recvEndFlag = true ∧ headerOk y s.rx)) :
    myMotorControlProtocolAnalysis y s = s := by
  by_cases hf : s.rx.recvEndFlag = true
  · have hh : rxRead y s.rx 0 ≠ 0xAA ∨ rxRead y s.rx 1 ≠ 0xAA := by
      rw [← not_and_or]
      exact fun hok => h ⟨hf, hok⟩
    exact (if_neg (not_not.mpr hf)).trans (if_pos hh)
  · exact if_pos hf

/-- Past the header test the checksum decides. -/
theorem analysis_header (hf : s.rx.recvEndFlag = true) (hh : headerOk y s.rx) :
    myMotorControlProtocolAnalysis y s =
      if checkCode (rxRead y s.rx) s.rx.rxLen ≠ 0 then
        { s with
          rx := { s.rx with recvEndFlag := false }
          sent := s.sent ++ [myUart3TxToBLE y s.globals 0xA6 0] }
      else
        { s with
          rx := { s.rx with recvEndFlag := false }
          globals := (controlProtocolAnalysis y s.globals (rxRead y s.rx)).1
          sent := s.sent ++ (controlProtocolAnalysis y s.globals (rxRead y s.rx)).2 } := by
  have hgo : ¬ (rxRead y s.rx 0 ≠ 0xAA ∨ rxRead y s.rx 1 ≠ 0xAA) := by simp [hh.1, hh.2]
  exact (if_neg (not_not.mpr hf)).trans (if_neg hgo)

/-- A burst without the header is left in the buffer, flag and all. -/
theorem analysis_badHeader (b : List UInt8) (h : ¬ headerOk y (receive b s.rx)) :
    myMotorControlProtocolAnalysis y (s.after b) = s.after b :=
  analysis_ignored y (s.after b) fun hok => h hok.2

/-- A burst with a header and a wrong checksum is answered with A6. -/
theorem analysis_badSum (b : List UInt8) (h : headerOk y (receive b s.rx))
    (hc : checkCode (rxRead y (receive b s.rx)) (receive b s.rx).rxLen ≠ 0) :
    myMotorControlProtocolAnalysis y (s.after b) =
      { s with
        rx := { receive b s.rx with recvEndFlag := false }
        sent := s.sent ++ [myUart3TxToBLE y s.globals 0xA6 0] } :=
  (analysis_header y (s.after b) rfl h).trans (if_pos hc)

/-- A burst with a header and a right checksum goes to `control_protocol_analysis`. -/
theorem analysis_dispatches (b : List UInt8) (h : Dispatches y (receive b s.rx)) :
    myMotorControlProtocolAnalysis y (s.after b) =
      { s with
        rx := { receive b s.rx with recvEndFlag := false }
        globals := (controlProtocolAnalysis y s.globals (rxRead y (receive b s.rx))).1
        sent := s.sent ++ (controlProtocolAnalysis y s.globals (rxRead y (receive b s.rx))).2 } :=
  (analysis_header y (s.after b) rfl h.1).trans (if_neg (not_not.mpr h.2))

/-- What a burst does to the globals. -/
theorem analysis_globals (b : List UInt8) :
    (myMotorControlProtocolAnalysis y (s.after b)).globals =
      if Dispatches y (receive b s.rx) then
        (controlProtocolAnalysis y s.globals (rxRead y (receive b s.rx))).1
      else s.globals := by
  by_cases hd : Dispatches y (receive b s.rx)
  · rw [if_pos hd, analysis_dispatches y s b hd]
  · rw [if_neg hd]
    by_cases hh : headerOk y (receive b s.rx)
    · rw [analysis_badSum y s b hh fun hc => hd ⟨hh, hc⟩]
    · rw [analysis_badHeader y s b hh, after_globals]

/-- The step of a burst whose task ends. -/
theorem step_of_task {s : Mcu} {e : Burst} {g g' : Globals} {d : Drive}
    (hg : (myMotorControlProtocolAnalysis e.stray (s.after e.bytes)).globals = g)
    (h : myMotorControlTask board e.stray g s.drive = some (g', d)) :
    ∃ t, step s e = some t ∧ t.globals = g' ∧ t.drive = d := by
  subst hg
  refine ⟨{ myMotorControlProtocolAnalysis e.stray (s.after e.bytes) with
    globals := g', drive := d }, ?_, rfl, rfl⟩
  simp only [step, mainLoop, analysis_drive, after_drive]
  rw [h]
  rfl

end

end BleCar.F103.Firmware
