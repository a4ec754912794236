import BleCar.F103.Firmware

/-!
# What the F103 parser accepts

The header and the byte sum decide whether a burst is dispatched, the ID and the range
checks what it does. The third byte is never read: a frame may be longer than the
table says, and its length byte may say anything.
-/

namespace BleCar.F103.Grammar

open BleCar.Lib.ByteSum
open BleCar.Motion.Routines
open BleCar.Protocol.Frames
open BleCar.Protocol.Control hiding controlProtocolAnalysis
open BleCar.Protocol.Buffer
open BleCar.F103.Firmware

/-- The frames of the protocol table. -/
def Documented (b : List UInt8) : Prop :=
  WellFormed b ∧
    ((bytesAt b 3 = 0xA1 ∧ b.length = 7 ∧ (1 ≤ bytesAt b 4 ∧ bytesAt b 4 ≤ 2) ∧
        1 ≤ bytesAt b 5 ∧ bytesAt b 5 ≤ 5) ∨
      ((bytesAt b 3 = 0xA2 ∨ bytesAt b 3 = 0xA3) ∧ b.length = 6 ∧
        1 ≤ bytesAt b 4 ∧ bytesAt b 4 ≤ 3) ∨
      (bytesAt b 3 = 0xA5 ∧ b.length = 6))

instance (b : List UInt8) : Decidable (Documented b) := inferInstanceAs (Decidable (_ ∧ _))

/-- The bursts whose parameters the parser stores. -/
def StoresBurst (b : List UInt8) : Prop :=
  (bytesAt b 3 = 0xA1 ∧ 7 ≤ b.length ∧ (1 ≤ bytesAt b 4 ∧ bytesAt b 4 ≤ 2) ∧ bytesAt b 5 ≤ 5) ∨
    ((bytesAt b 3 = 0xA2 ∨ bytesAt b 3 = 0xA3) ∧ 6 ≤ b.length ∧ bytesAt b 4 ≤ 3) ∨
    (bytesAt b 3 = 0xA5 ∧ 5 ≤ b.length)

/-- The burst was taken: its parameters are in the globals, the task is armed for it,
and a reply with status 0 is out. -/
structure Accepted (y : Stray) (b : List UInt8) (s t : Mcu) : Prop where
  reply : ∃ ID, t.sent = s.sent ++ [myUart3TxToBLE y t.globals ID 0]
  drive : bytesAt b 3 = 0xA1 → t.globals.gMotorDirection = bytesAt b 4 ∧
    t.globals.gMotorSpeedLevel = bytesAt b 5 ∧ t.globals.gControlMotorFlag = .direction
  turn : bytesAt b 3 = 0xA2 ∨ bytesAt b 3 = 0xA3 →
    t.globals.gMotorTurnLevel = bytesAt b 4 ∧ t.globals.gControlMotorFlag = .turn
  stop : bytesAt b 3 = 0xA5 → t.globals = { mySetCarStopFunc s.globals with
    gControlMotorFlag := .stop }

/-! ## The bytes the parser reads are those of the burst -/

variable (y : Stray) {b : List UInt8}

/-- From three bytes on, a burst is dispatched exactly when it is sound. -/
theorem dispatches_iff (h3 : 3 ≤ b.length) (h : b.length ≤ 255) (r : Rx) :
    Dispatches y (receive b r) ↔ Sound b := by
  have hlen : (receive b r).rxLen.toNat = b.length := idleLen_toNat (by omega) h
  rw [Dispatches, headerOk_receive y (by omega),
    checkCode_eq_zero h3 hlen fun i hi => rxRead_receive hi (by omega) y r]
  exact ⟨fun ⟨⟨h0, h1⟩, hc⟩ => ⟨h0, h1, hc⟩, fun hs => ⟨⟨hs.header0, hs.header1⟩, hs.checksum⟩⟩

/-! ## Short bursts -/

/-- In a burst of four bytes the ID is its own checksum, so it is no command. -/
theorem sound_five (hs : Sound b) (hid : bytesAt b 3 ≠ 0xff) :
    5 ≤ b.length := by
  by_contra hlt
  have hone : b.length - 3 = 1 := by
    have h4 := sound_four hs
    omega
  have hc := hs.checksum
  rw [hone, byteSum_succ, byteSum_zero, UInt8.zero_add] at hc
  exact hid hc

/-- In a burst of five bytes the first parameter is the checksum of the ID alone. -/
theorem sound_six (hs : Sound b) (h5 : 5 ≤ b.length)
    (hid : bytesAt b 3 + bytesAt b 4 ≠ 0xff) : 6 ≤ b.length := by
  by_contra hlt
  have htwo : b.length - 3 = 2 := by omega
  have hc := hs.checksum
  rw [htwo, byteSum_succ, byteSum_succ, byteSum_zero, UInt8.zero_add] at hc
  exact hid hc

theorem sound_seven (hs : Sound b) (h6 : 6 ≤ b.length)
    (hid : bytesAt b 3 + bytesAt b 4 + bytesAt b 5 ≠ 0xff) : 7 ≤ b.length := by
  by_contra hlt
  have hthree : b.length - 3 = 3 := by omega
  have hc := hs.checksum
  rw [hthree, byteSum_succ, byteSum_succ, byteSum_succ, byteSum_zero, UInt8.zero_add] at hc
  exact hid hc

/-- The bytes tested by the range checks belong to the burst, never to what an earlier
burst left behind it. -/
theorem stores_receive (hs : Sound b) (h3 : 3 ≤ b.length) (h : b.length ≤ 255) (r : Rx)
    (hst : Stores (rxRead y (receive b r))) : StoresBurst b := by
  have hread : ∀ i < b.length, rxRead y (receive b r) i = bytesAt b i :=
    fun i hi => rxRead_receive hi (by omega) y r
  have h4 := sound_four hs
  simp only [Stores, driveValid, turnValid, decide_eq_true_eq, Bool.decide_and, Bool.and_eq_true,
    hread 3 (by omega)] at hst
  rcases hst with ⟨hid, ⟨hlo, hhi⟩, hsp⟩ | ⟨hid, hl⟩ | hid
  · have h5 : 5 ≤ b.length := sound_five hs (by rw [hid]; decide)
    rw [hread 4 (by omega)] at hlo hhi
    have h6 : 6 ≤ b.length := by
      apply sound_six hs h5
      rw [hid]
      grind
    rw [hread 5 (by omega)] at hsp
    have h7 : 7 ≤ b.length := by
      apply sound_seven hs h6
      rw [hid]
      grind
    exact .inl ⟨hid, h7, ⟨hlo, hhi⟩, hsp⟩
  · have h5 : 5 ≤ b.length := sound_five hs (by rcases hid with h | h <;> rw [h] <;> decide)
    rw [hread 4 (by omega)] at hl
    have h6 : 6 ≤ b.length := by
      apply sound_six hs h5
      rcases hid with h | h <;> rw [h] <;> grind
    exact .inr (.inl ⟨hid, h6, hl⟩)
  · exact .inr (.inr ⟨hid, sound_five hs (by rw [hid]; decide)⟩)

theorem sound_of_documented (h : Documented b) : Sound b :=
  ⟨h.1.header0, h.1.header1, h.1.checksum⟩

theorem documented_length (h : Documented b) : 6 ≤ b.length ∧ b.length ≤ 7 := by
  obtain ⟨-, ⟨-, hl, -⟩ | ⟨-, hl, -⟩ | ⟨-, hl⟩⟩ := h <;> omega

theorem accepted_of_documented (h : Documented b) (s : Mcu) :
    Accepted y b s (myMotorControlProtocolAnalysis y (s.after b)) := by
  have hlen := documented_length h
  have hread : ∀ i < 6, rxRead y (receive b s.rx) i = bytesAt b i :=
    fun i hi => rxRead_receive (by omega) (by omega) y s.rx
  rw [analysis_dispatches y s b
    ((dispatches_iff y (by omega) (by omega) s.rx).mpr (sound_of_documented h))]
  generalize rxRead y (receive b s.rx) = data at hread
  have h3 := hread 3 (by omega)
  have h4 := hread 4 (by omega)
  have h5 := hread 5 (by omega)
  obtain ⟨-, ⟨hid, -, hdir, -, hsp⟩ | ⟨hid, -, -, hl⟩ | ⟨hid, -⟩⟩ := h
  · have hv : driveValid data = true := by simp [driveValid, h4, h5, hdir, hsp]
    rw [controlProtocolAnalysis, control_drive y _ (h3.trans hid) hv]
    exact ⟨⟨0xA1, rfl⟩, fun _ => ⟨h4, h5, rfl⟩, fun h => by simp [hid] at h, fun h => by
      simp [hid] at h⟩
  · have hv : turnValid data = true := by simp [turnValid, h4, hl]
    have hturn : ∀ turn, Accepted y b s
        { s with
          rx := { receive b s.rx with recvEndFlag := false }
          globals := (controlTurn turn y s.globals data).1
          sent := s.sent ++ (controlTurn turn y s.globals data).2 } := by
      intro turn
      rw [controlTurn_valid y _ hv]
      refine ⟨⟨0xA2, rfl⟩, fun h => ?_, fun _ => ⟨h4, rfl⟩, fun h => ?_⟩
      · rw [h] at hid; exact absurd hid (by decide)
      · rw [h] at hid; exact absurd hid (by decide)
    rw [controlProtocolAnalysis]
    rcases hid with hid | hid
    · rw [control_A2 y _ (h3.trans hid)]
      exact hturn _
    · rw [control_A3 y _ (h3.trans hid)]
      exact hturn _
  · rw [controlProtocolAnalysis, control_stop y _ (h3.trans hid)]
    refine ⟨⟨0xA5, rfl⟩, fun h => ?_, fun h => ?_, fun _ => rfl⟩
    · rw [h] at hid; exact absurd hid (by decide)
    · rcases h with h | h <;> rw [h] at hid <;> exact absurd hid (by decide)

/-- A `g_Motor*` variable changes only for a sound burst whose own bytes are an A1, A2,
A3 or A5 command in range, `g_ControlMotorFlag` only for a sound burst with one of these
IDs, and every frame of the protocol table is taken. -/
structure ParsesGrammar (y : Stray) (b : List UInt8) (s t : Mcu) : Prop where
  stores : ¬ SameMotor s.globals t.globals → Sound b ∧ StoresBurst b
  arms : t.globals.gControlMotorFlag ≠ s.globals.gControlMotorFlag →
    Sound b ∧ (bytesAt b 3 = 0xA1 ∨ bytesAt b 3 = 0xA2 ∨ bytesAt b 3 = 0xA3 ∨ bytesAt b 3 = 0xA5)
  takes : Documented b → Accepted y b s t

/-- A wrong length byte; a longer frame; speed 0; level 0; A5 without its parameter;
A2 out of range. -/
def undocumented : List (List UInt8) :=
  [[0xAA, 0xAA, 0x00, 0xA1, 0x01, 0x01, 0x5C], [0xAA, 0xAA, 0x08, 0xA1, 0x01, 0x01, 0x00, 0x5C],
    [0xAA, 0xAA, 0x07, 0xA1, 0x01, 0x00, 0x5D], [0xAA, 0xAA, 0x06, 0xA2, 0x00, 0x5D],
    [0xAA, 0xAA, 0x05, 0xA5, 0x5A], [0xAA, 0xAA, 0x06, 0xA2, 0x04, 0x59]]

theorem undocumented_taken : ∀ b ∈ undocumented, ¬ Documented b ∧
    (myMotorControlProtocolAnalysis Stray.blank (boot.after b)).globals ≠ boot.globals := by
  decide

end BleCar.F103.Grammar
