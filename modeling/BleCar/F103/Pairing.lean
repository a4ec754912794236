import BleCar.F103.System

/-!
# Requests and their replies

The remote application tells replies apart by their ID. Every branch of
`control_protocol_analysis` names the ID of its reply itself, and the branch of A3 names
that of A2. A burst too short for its checksum is not answered at all: the sum leaves the RAM.
-/

namespace BleCar.F103.Pairing

open BleCar.Motion.Routines
open BleCar.Protocol.Frames
open BleCar.Protocol.Control hiding controlProtocolAnalysis
open BleCar.Protocol.Buffer
open BleCar.F103.Firmware
open BleCar.F103.System (SumFaults sumFaults_iff)

/-- A burst with the header waits in `rx_buffer`. -/
def Pending (y : Stray) (s : Mcu) : Prop := s.rx.recvEndFlag = true ∧ headerOk y s.rx

instance (y : Stray) (s : Mcu) : Decidable (Pending y s) := inferInstanceAs (Decidable (_ ∧ _))

/-- The burst handled; `none` when its checksum ends in `HardFault_Handler`. -/
def handled (y : Stray) (s : Mcu) : Option Mcu :=
  if SumFaults s.rx.rxLen then none else some (myMotorControlProtocolAnalysis y s)

/-- The replies that handling the burst starts. -/
def started (y : Stray) (s : Mcu) : Option (List (List UInt8)) :=
  (handled y s).map fun t => t.sent.drop s.sent.length

/-- A1, A2 and A3 carry parameters. -/
def HasParameters (data : Nat → UInt8) : Prop := data 3 = 0xA1 ∨ data 3 = 0xA2 ∨ data 3 = 0xA3

instance (data : Nat → UInt8) : Decidable (HasParameters data) :=
  inferInstanceAs (Decidable (_ ∨ _))

/-- The variables of the command hold its parameters. -/
def Holds (data : Nat → UInt8) (g : Globals) : Prop :=
  if data 3 = 0xA1 then g.gMotorDirection = data 4 ∧ g.gMotorSpeedLevel = data 5
  else g.gMotorTurnLevel = data 4

/-- The command stores its parameters: whatever the variables were, they hold them afterwards. -/
def StoresParameters (y : Stray) (data : Nat → UInt8) : Prop :=
  ∀ g, Holds data (controlProtocolAnalysis y g data).1

/-- One reply to a wrong checksum and one to a command, under its own ID and with the status that
says whether the parameters were stored; none to anything else. -/
structure OwnReply (y : Stray) (s : Mcu) : Prop where
  wrong : checkCode (rxRead y s.rx) s.rx.rxLen ≠ 0 →
    ∃ f, started y s = some [f] ∧ bytesAt f 3 = 0xA6
  command : checkCode (rxRead y s.rx) s.rx.rxLen = 0 → ¬ UnknownID (rxRead y s.rx) →
    ∃ f, started y s = some [f] ∧ bytesAt f 3 = rxRead y s.rx 3 ∧
      (HasParameters (rxRead y s.rx) →
        (bytesAt f 4 = 0 ↔ StoresParameters y (rxRead y s.rx)))
  other : checkCode (rxRead y s.rx) s.rx.rxLen = 0 → UnknownID (rxRead y s.rx) →
    started y s = some []

/-! ## Replies -/

section

variable (y : Stray) (g : Globals)

/-- The ID of a reply is the one it is called with. -/
theorem reply_id {ID : UInt8} (h : IsReplyID ID) (ret : UInt8) :
    bytesAt (myUart3TxToBLE y g ID ret) 3 = ID := by
  rcases h with rfl | rfl | rfl | rfl | rfl | rfl <;> simp [myUart3TxToBLE, replyBody, bytesAt]

/-- So is the status of the replies to A1, A2 and A3. -/
theorem reply_status {ID : UInt8} (h : ID = 0xA1 ∨ ID = 0xA2) (ret : UInt8) :
    bytesAt (myUart3TxToBLE y g ID ret) 4 = ret := by
  rcases h with rfl | rfl <;> simp [myUart3TxToBLE, replyBody, bytesAt]

end

section

variable (y : Stray) {data : Nat → UInt8}

/-- A1 stores its parameters exactly when they pass the check. -/
theorem stores_drive (h : data 3 = 0xA1) : StoresParameters y data ↔ driveValid data = true := by
  constructor
  · intro hst
    by_contra hv
    have hbad := hst { Globals.boot with gMotorDirection := data 4 + 1 }
    rw [Holds, if_pos h, controlProtocolAnalysis,
      control_drive_refused y _ h (Bool.eq_false_iff.mpr hv)] at hbad
    have heq : data 4 + 1 = data 4 := hbad.1
    grind
  · intro hv g
    rw [Holds, if_pos h, controlProtocolAnalysis, control_drive y g h hv]
    exact ⟨rfl, rfl⟩

/-- So do A2 and A3. -/
theorem stores_turn (h : data 3 = 0xA2 ∨ data 3 = 0xA3) :
    StoresParameters y data ↔ turnValid data = true := by
  have hne : data 3 ≠ 0xA1 := by rcases h with h | h <;> rw [h] <;> decide
  have hturn : ∀ g, ∃ turn, controlProtocolAnalysis y g data = controlTurn turn y g data := by
    intro g
    rcases h with h | h
    · exact ⟨_, control_A2 y g h⟩
    · exact ⟨_, control_A3 y g h⟩
  constructor
  · intro hst
    by_contra hv
    have hbad := hst { Globals.boot with gMotorTurnLevel := data 4 + 1 }
    obtain ⟨turn, heq⟩ := hturn { Globals.boot with gMotorTurnLevel := data 4 + 1 }
    rw [Holds, if_neg hne, heq, controlTurn_refused y _ (Bool.eq_false_iff.mpr hv)] at hbad
    have hsame : data 4 + 1 = data 4 := hbad
    grind
  · intro hv g
    obtain ⟨turn, heq⟩ := hturn g
    rw [Holds, if_neg hne, heq, controlTurn_valid y g hv]

/-- Every command is answered once, A3 under the ID of A2, with the status of its parameters. -/
theorem control_answered (g : Globals) (h : ¬ UnknownID data) :
    ∃ f, (controlProtocolAnalysis y g data).2 = [f] ∧
      bytesAt f 3 = (if data 3 = 0xA3 then 0xA2 else data 3) ∧
      (HasParameters data → (bytesAt f 4 = 0 ↔ StoresParameters y data)) := by
  have hc : Commanded myTurnLeft myTurnRight y g data (controlProtocolAnalysis y g data) :=
    control_commanded _ _ y g data
  generalize controlProtocolAnalysis y g data = out at hc ⊢
  have hsetting : ∀ {g' : Globals} {ID ret : UInt8}, ID = 0xA1 ∨ ID = 0xA2 →
      ID = (if data 3 = 0xA3 then 0xA2 else data 3) → (ret = 0 ↔ StoresParameters y data) →
        ∃ f, [myUart3TxToBLE y g' ID ret] = [f] ∧
          bytesAt f 3 = (if data 3 = 0xA3 then 0xA2 else data 3) ∧
          (HasParameters data → (bytesAt f 4 = 0 ↔ StoresParameters y data)) := by
    intro g' ID ret hID heq hret
    refine ⟨_, rfl, ?_, fun _ => ?_⟩
    · rw [reply_id y g' (by rcases hID with rfl | rfl <;> decide), heq]
    · rw [reply_status y g' hID, hret]
  have hturn : data 3 = 0xA2 ∨ data 3 = 0xA3 →
      0xA2 = (if data 3 = 0xA3 then 0xA2 else data 3) := by
    rintro (h2 | h3)
    · rw [h2]
      rfl
    · rw [if_pos h3]
  cases hc with
  | drive h1 hv => exact hsetting (.inl rfl) (by rw [h1]; rfl) (by simp [stores_drive y h1, hv])
  | driveRefused h1 hv =>
    exact hsetting (.inl rfl) (by rw [h1]; rfl) (by simp [stores_drive y h1, hv])
  | turn turn h23 hv =>
    have hid := h23.imp And.left And.left
    exact hsetting (.inr rfl) (hturn hid) (by simp [stores_turn y hid, hv])
  | turnRefused hid hv => exact hsetting (.inr rfl) (hturn hid) (by simp [stores_turn y hid, hv])
  | report h4 =>
    refine ⟨_, rfl, ?_, fun hp => ?_⟩
    · rw [reply_id y _ (by decide), h4]
      rfl
    · simp [HasParameters, h4] at hp
  | stop h5 =>
    refine ⟨_, rfl, ?_, fun hp => ?_⟩
    · rw [reply_id y _ (by decide), h5]
      rfl
    · simp [HasParameters, h5] at hp
  | unknown hu => exact absurd hu h

end

/-! ## Bursts -/

section

variable {y : Stray} {s : Mcu}

theorem started_short (hn : SumFaults s.rx.rxLen) : started y s = none := by
  rw [started, handled, if_pos hn, Option.map_none]

theorem started_long (hn : ¬ SumFaults s.rx.rxLen) :
    started y s = some ((myMotorControlProtocolAnalysis y s).sent.drop s.sent.length) := by
  rw [started, handled, if_neg hn, Option.map_some]

theorem started_wrong (h : Pending y s) (hn : ¬ SumFaults s.rx.rxLen)
    (hc : checkCode (rxRead y s.rx) s.rx.rxLen ≠ 0) :
    started y s = some [myUart3TxToBLE y s.globals 0xA6 0] := by
  rw [started_long hn, analysis_header y s h.1 h.2, if_pos hc, List.drop_left]

theorem started_right (h : Pending y s) (hn : ¬ SumFaults s.rx.rxLen)
    (hc : checkCode (rxRead y s.rx) s.rx.rxLen = 0) :
    started y s = some (controlProtocolAnalysis y s.globals (rxRead y s.rx)).2 := by
  rw [started_long hn, analysis_header y s h.1 h.2, if_neg (not_not.mpr hc), List.drop_left]

/-- Whatever a burst asks for, its own reply is one that was started. -/
theorem OwnReply.long (h : OwnReply y s) : ¬ SumFaults s.rx.rxLen := by
  intro hn
  have hnone := started_short (y := y) hn
  by_cases hc : checkCode (rxRead y s.rx) s.rx.rxLen = 0
  · by_cases hk : UnknownID (rxRead y s.rx)
    · cases hnone.symm.trans (h.other hc hk)
    · obtain ⟨f, hf, -⟩ := h.command hc hk
      cases hnone.symm.trans hf
  · obtain ⟨f, hf, -⟩ := h.wrong hc
    cases hnone.symm.trans hf

end

/-- A pending burst gets its own reply exactly when it is long enough to be summed and is no A3
with a right checksum. -/
theorem own_reply_iff (y : Stray) (s : Mcu) (h : Pending y s) :
    OwnReply y s ↔ 3 ≤ s.rx.rxLen.toNat ∧
      (checkCode (rxRead y s.rx) s.rx.rxLen ≠ 0 ∨ rxRead y s.rx 3 ≠ 0xA3) := by
  constructor
  · intro ho
    have hn := ho.long
    refine ⟨not_lt.mp fun hlt => hn ((sumFaults_iff _).mpr hlt), ?_⟩
    by_contra hbad
    obtain ⟨hc, h3⟩ := not_or.mp hbad
    rw [not_not] at hc h3
    have hk : ¬ UnknownID (rxRead y s.rx) := fun hu => hu.2.2.1 h3
    obtain ⟨f, hf, hid, -⟩ := ho.command hc hk
    obtain ⟨f', hf', hid', -⟩ := control_answered y s.globals hk
    rw [started_right h hn hc, hf'] at hf
    cases hf
    rw [hid', if_pos h3, h3] at hid
    exact absurd hid (by decide)
  · rintro ⟨hlen, hok⟩
    have hn : ¬ SumFaults s.rx.rxLen := fun hs => absurd ((sumFaults_iff _).mp hs) (by omega)
    refine ⟨fun hc => ?_, fun hc hk => ?_, fun hc hu => ?_⟩
    · exact ⟨_, started_wrong h hn hc, reply_id y _ (by decide) 0⟩
    · obtain ⟨f, hf, hid, hst⟩ := control_answered y s.globals hk
      rw [if_neg (hok.resolve_left (not_not.mpr hc))] at hid
      exact ⟨f, (started_right h hn hc).trans (congrArg some hf), hid, hst⟩
    · rw [started_right h hn hc, controlProtocolAnalysis, control_unknown y _ hu]

/-- A mild turn with A2, and with A3. -/
def turnA2 : List UInt8 := [0xAA, 0xAA, 0x06, 0xA2, 0x01, 0x5C]
def turnA3 : List UInt8 := [0xAA, 0xAA, 0x06, 0xA3, 0x01, 0x5B]

theorem own_reply_iff_turn : OwnReply Stray.blank (boot.after turnA2) :=
  (own_reply_iff Stray.blank (boot.after turnA2) (by decide)).mpr ⟨by decide, .inr (by decide)⟩

theorem a3_answered_as_a2 :
    started Stray.blank (boot.after turnA3) = some [[0xAA, 0xAA, 0x06, 0xA2, 0x00, 0x5D]] ∧
      ¬ OwnReply Stray.blank (boot.after turnA3) := by
  have hstart : started Stray.blank (boot.after turnA3) =
      some [[0xAA, 0xAA, 0x06, 0xA2, 0x00, 0x5D]] := by decide
  refine ⟨hstart, fun ho => ?_⟩
  obtain ⟨f, hf, hid, -⟩ := ho.command (by decide) fun hu => hu.2.2.1 (by decide)
  rw [hstart] at hf
  cases hf
  exact absurd hid (by decide)

end BleCar.F103.Pairing
