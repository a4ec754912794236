import BleCar.F103.Direction

/-!
# The replies of the motor controller

In every run the globals stay inside the protocol's ranges, and each frame sent is one of
`my_uart3_tx_to_BLE` for such globals. Behind its header no such frame holds the header
byte: this is what lets the other chip find the next frame again.
-/

namespace BleCar.F103.Replies

open BleCar.Lib.Runs
open BleCar.Lib.ByteSum
open BleCar.Motion.Routines
open BleCar.Protocol.Frames
open BleCar.Protocol.Control hiding controlProtocolAnalysis
open BleCar.Protocol.Buffer
open BleCar.F103.Firmware
open BleCar.F103.Direction

/-- The ranges of all four `g_Motor*` variables. -/
structure Shown (g : Globals) : Prop where
  range : InRange g
  turnDirection : g.gMotorTurnDirection ≤ 2

/-- A frame of `my_uart3_tx_to_BLE`, as its callers call it. -/
def Reply (f : List UInt8) : Prop :=
  ∃ (y : Stray) (g : Globals) (ID ret : UInt8),
    Shown g ∧ IsReplyID ID ∧ ret ≤ 1 ∧ f = myUart3TxToBLE y g ID ret

/-! ## Every frame sent is a reply -/

section

variable {g : Globals} {s t : Mcu}

theorem boot_shown : Shown Globals.boot := ⟨boot_inRange, by decide⟩

theorem Shown.sameMotor {g' : Globals} (h : Shown g) (hs : SameMotor g g') : Shown g' := by
  obtain ⟨⟨hd, hv, hl, hz⟩, ht⟩ := h
  obtain ⟨h1, h2, h3, h4⟩ := hs
  exact ⟨⟨h1 ▸ hd, h2 ▸ hv, h4 ▸ hl, h1 ▸ h2 ▸ hz⟩, h3 ▸ ht⟩

theorem control_shown (y : Stray) (h : Shown g) (data : Nat → UInt8) :
    Shown (controlProtocolAnalysis y g data).1 := by
  refine ⟨control_inRange y h.range data, ?_⟩
  have ht := h.turnDirection
  have hc : Commanded myTurnLeft myTurnRight y g data (controlProtocolAnalysis y g data) :=
    control_commanded _ _ y g data
  generalize controlProtocolAnalysis y g data = out at hc ⊢
  cases hc with
  | turn turn hturn =>
    rcases hturn with ⟨-, rfl⟩ | ⟨-, rfl⟩
    · exact show myTurnLeft ≤ 2 by decide
    · exact show myTurnRight ≤ 2 by decide
  | stop => exact show myTurnIdle ≤ 2 by decide
  | _ => exact ht

/-- The flag apart, a reply shows the globals the command leaves behind. -/
theorem control_reply (y : Stray) (h : Shown g) (data : Nat → UInt8) :
    ∀ f ∈ (controlProtocolAnalysis y g data).2, Reply f := by
  have hshown := control_shown y h data
  have hc : Commanded myTurnLeft myTurnRight y g data (controlProtocolAnalysis y g data) :=
    control_commanded _ _ y g data
  generalize controlProtocolAnalysis y g data = out at hc hshown ⊢
  have hreply : ∀ {g' : Globals} {ID ret : UInt8}, IsReplyID ID → ret ≤ 1 → SameMotor out.1 g' →
      ∀ f ∈ [myUart3TxToBLE y g' ID ret], Reply f := by
    intro g' ID ret hID hret hs f hf
    exact ⟨y, g', ID, ret, hshown.sameMotor hs, hID, hret, List.mem_singleton.mp hf⟩
  cases hc with
  | unknown => exact fun f hf => absurd hf List.not_mem_nil
  | _ => exact hreply (by decide) (by decide) ⟨rfl, rfl, rfl, rfl⟩

theorem analysis_replies (y : Stray) (h : Shown s.globals) (hs : ∀ f ∈ s.sent, Reply f) :
    Shown (myMotorControlProtocolAnalysis y s).globals ∧
      ∀ f ∈ (myMotorControlProtocolAnalysis y s).sent, Reply f := by
  by_cases hok : s.rx.recvEndFlag = true ∧ headerOk y s.rx
  · rw [analysis_header y s hok.1 hok.2]
    split
    · refine ⟨h, fun f hf => ?_⟩
      rcases List.mem_append.mp hf with hf | hf
      · exact hs f hf
      · exact ⟨y, s.globals, 0xA6, 0, h, by decide, by decide, List.mem_singleton.mp hf⟩
    · refine ⟨control_shown y h _, fun f hf => ?_⟩
      rcases List.mem_append.mp hf with hf | hf
      · exact hs f hf
      · exact control_reply y h _ f hf
  · rw [analysis_ignored y s hok]
    exact ⟨h, hs⟩

/-- The task clears the flag and leaves the other globals alone. -/
theorem task_sameMotor (B : Board) (y : Stray) {d d' : Motion.Hardware.Drive} {g' : Globals}
    (h : myMotorControlTask B y g d = some (g', d')) : SameMotor g g' := by
  unfold myMotorControlTask at h
  split at h
  · cases h
    exact SameMotor.withFlag g g.gControlMotorFlag
  · obtain ⟨_, -, h⟩ := Option.map_eq_some_iff.mp h
    cases h
    exact SameMotor.withFlag g .idle
  · cases h
    exact SameMotor.withFlag g .idle
  · obtain ⟨_, -, h⟩ := Option.map_eq_some_iff.mp h
    cases h
    exact SameMotor.withFlag g .idle

theorem step_replies (s : Mcu) (e : Burst) (t : Mcu)
    (h : Shown s.globals ∧ ∀ f ∈ s.sent, Reply f) (hstep : step s e = some t) :
    Shown t.globals ∧ ∀ f ∈ t.sent, Reply f := by
  obtain ⟨out, ht, rfl⟩ := Option.map_eq_some_iff.mp hstep
  obtain ⟨hg, hs⟩ := analysis_replies (s := s.after e.bytes) e.stray h.1 h.2
  exact ⟨hg.sameMotor (task_sameMotor board e.stray ht), hs⟩

/-- In every run the globals are in range and all that is sent are replies. -/
theorem run_replies {es : List Burst} (h : run step boot es = some s) :
    Shown s.globals ∧ ∀ f ∈ s.sent, Reply f :=
  last_of_step step_replies ⟨boot_shown, fun _ hf => absurd hf List.not_mem_nil⟩ h

end

/-! ## The bytes of a reply -/

/-- The sum of the four reported globals cannot complete a check code to the header byte. -/
theorem report_check {g : Globals} (h : Shown g) :
    0xff - (0xA4 + g.gMotorDirection + g.gMotorSpeedLevel + g.gMotorTurnDirection +
      g.gMotorTurnLevel) ≠ (0xAA : UInt8) := by
  have h1 := h.range.direction
  have h2 := h.range.speed
  have h3 := h.turnDirection
  have h4 := h.range.turnLevel
  grind

/-- Nor can a status. -/
theorem status_check {ID ret : UInt8} (hID : 0xA1 ≤ ID ∧ ID ≤ 0xA6) (hret : ret ≤ 1) :
    ret ≠ 0xAA ∧ ID ≠ 0xAA ∧ 0xff - (ID + ret) ≠ (0xAA : UInt8) ∧ 0xff - ID ≠ (0xAA : UInt8) := by
  obtain ⟨hlo, hhi⟩ := hID
  refine ⟨?_, ?_, ?_, ?_⟩ <;> grind

/-- A reply is a header and at least one byte, none of them a header byte. -/
theorem reply_header {f : List UInt8} (h : Reply f) :
    ∃ rest, f = 0xAA :: 0xAA :: rest ∧ rest ≠ [] ∧ 0xAA ∉ rest := by
  obtain ⟨y, g, ID, ret, hg, hID, hret, rfl⟩ := h
  rw [myUart3TxToBLE_closed y g hID]
  have hstatus : 0xA1 ≤ ID ∧ ID ≤ 0xA6 → _ := fun hr => status_check hr hret
  have hreport := report_check hg
  have h1 := hg.range.direction
  have h2 := hg.range.speed
  have h3 := hg.turnDirection
  have h4 := hg.range.turnLevel
  rcases hID with rfl | rfl | rfl | rfl | rfl | rfl
  all_goals
    have hst := hstatus (by decide)
    refine ⟨_, rfl, by simp, ?_⟩
    simp [replyBody, bytesAt, byteSum]
  all_goals grind

end BleCar.F103.Replies
