import BleCar.F103.Grouping
import BleCar.F103.Pairing

/-!
# A run of commands and its answers

A frame of the protocol table that comes alone is answered once, and the reply tells what
became of its parameters. A run of such frames is answered frame by frame.
-/

namespace BleCar.F103.Answers

open BleCar.Lib.Runs
open BleCar.Motion.Routines
open BleCar.Protocol.Frames
open BleCar.Protocol.Control hiding controlProtocolAnalysis
open BleCar.Protocol.Buffer
open BleCar.F103.Firmware

/-- `r` is the answer to the command `f`: a frame under the ID of `f`, or under that of A2
for an A3, with status 0 exactly if the parameters pass the range check. -/
structure Answered (f r : List UInt8) : Prop where
  wellFormed : WellFormed r
  id : bytesAt r 3 = if bytesAt f 3 = 0xA3 then 0xA2 else bytesAt f 3
  drive : bytesAt f 3 = 0xA1 → (bytesAt r 4 = 0 ↔ driveValid (bytesAt f) = true)
  turn : bytesAt f 3 = 0xA2 ∨ bytesAt f 3 = 0xA3 →
    (bytesAt r 4 = 0 ↔ turnValid (bytesAt f) = true)

/-- The frames with parameters are long enough for them. -/
theorem tableFrame_length {f : List UInt8} (h : TableFrame f) :
    (bytesAt f 3 = 0xA1 → f.length = 7) ∧
      (bytesAt f 3 = 0xA2 ∨ bytesAt f 3 = 0xA3 → f.length = 6) := by
  have hlen := h.2
  unfold tableLength at hlen
  constructor
  · intro h1
    rw [if_pos h1] at hlen
    exact (Option.some.inj hlen).symm
  · intro h23
    have hne : bytesAt f 3 ≠ 0xA1 := by rcases h23 with h | h <;> rw [h] <;> decide
    rw [if_neg hne, if_pos h23] at hlen
    exact (Option.some.inj hlen).symm

/-- What `control_protocol_analysis` sends are frames. -/
theorem control_wellFormed (y : Stray) (g : Globals) (data : Nat → UInt8) :
    ∀ r ∈ (controlProtocolAnalysis y g data).2, WellFormed r := by
  intro r hr
  rcases @control_answer myTurnLeft myTurnRight y g data with ⟨-, h⟩ | ⟨g', ID, ret, hID, h⟩ <;>
    rw [controlProtocolAnalysis, h] at hr
  · exact absurd hr List.not_mem_nil
  · exact List.mem_singleton.mp hr ▸ myUart3TxToBLE_wellFormed y g' hID ret

/-- One frame of the table: the parser reads it and nothing behind it. -/
theorem analysis_answered (y : Stray) (s : Mcu) {f : List UInt8} (h : TableFrame f) :
    ∃ r, (myMotorControlProtocolAnalysis y (s.after f)).sent = s.sent ++ [r] ∧ Answered f r := by
  obtain ⟨h4, h255⟩ := Grouping.wellFormed_length h.1
  obtain ⟨h7, h6⟩ := tableFrame_length h
  have hread : ∀ i < f.length, rxRead y (receive f s.rx) i = bytesAt f i :=
    fun i hi => rxRead_receive hi (by omega) y s.rx
  have h3 := hread 3 (by omega)
  have hknown : ¬ UnknownID (rxRead y (receive f s.rx)) := by
    rw [UnknownID, h3]
    exact (Grouping.TableFrame.command h).2
  obtain ⟨r, hr, hid, hstatus⟩ := Pairing.control_answered y s.globals hknown
  rw [analysis_dispatches y s f ((Grammar.dispatches_iff y (by omega) h255 s.rx).mpr h.1.sound), hr]
  refine ⟨r, rfl, control_wellFormed y _ _ r (hr ▸ List.mem_singleton_self r), h3 ▸ hid,
    fun h1 => ?_, fun h23 => ?_⟩
  · have hlen := h7 h1
    rw [hstatus (.inl (h3.trans h1)), Pairing.stores_drive y (h3.trans h1), driveValid, driveValid,
      hread 4 (by omega), hread 5 (by omega)]
  · have hlen := h6 h23
    rw [← h3] at h23
    rw [hstatus (.inr h23), Pairing.stores_turn y h23, turnValid, turnValid, hread 4 (by omega)]

/-- A run of frames of the table is answered frame by frame. -/
theorem run_answered {bs : List Burst} {s t : Mcu} (hbs : ∀ b ∈ bs, TableFrame b.bytes)
    (h : run step s bs = some t) :
    ∃ rs, t.sent = s.sent ++ rs ∧ List.Forall₂ Answered (bs.map Burst.bytes) rs := by
  induction bs generalizing s with
  | nil =>
    obtain rfl := Option.some.inj h
    exact ⟨[], (List.append_nil _).symm, .nil⟩
  | cons b bs ih =>
    obtain ⟨m, hm, hr⟩ := run_cons_inv step h
    obtain ⟨r, hsent, hb⟩ := analysis_answered b.stray s (hbs b List.mem_cons_self)
    obtain ⟨rs, hrs, hall⟩ := ih (fun b' hb' => hbs b' (List.mem_cons_of_mem _ hb')) hr
    refine ⟨r :: rs, ?_, .cons hb hall⟩
    rw [hrs, Grouping.step_sent hm, hsent, List.append_assoc]
    rfl

end BleCar.F103.Answers
