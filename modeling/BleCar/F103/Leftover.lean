import BleCar.F103.Firmware

/-!
# What earlier bursts left in the buffer does not matter

`rx_buffer` is never cleared, so behind the `rx_len` bytes of a burst lie those of longer
ones before it. Two controllers that differ only there take the same decision, because
the parser reads nothing that `my_check_code_analysis` has not summed.
-/

namespace BleCar.F103.Leftover

open BleCar.Lib.ByteSum
open BleCar.Motion.Routines
open BleCar.Protocol.Frames
open BleCar.Protocol.Control hiding controlProtocolAnalysis
open BleCar.Protocol.Buffer
open BleCar.F103.Firmware

/-- The same burst is in hand, over the same `g_Motor*` variables. Nothing is said about
the rest of the buffer, the drive, the frames sent before, or `g_ControlMotorFlag`. -/
structure SameBurst (s t : Mcu) : Prop where
  motor : SameMotor s.globals t.globals
  rxLen : t.rx.rxLen = s.rx.rxLen
  recvEndFlag : t.rx.recvEndFlag = s.rx.recvEndFlag
  bytes : ∀ i : Fin 256, i.val < s.rx.rxLen.toNat → t.rx.rxBuffer i = s.rx.rxBuffer i

/-- `s'` and `t'` come from `s` and `t` by the same effect: the `g_Motor*` variables and
the new replies agree, and so does `g_ControlMotorFlag` where it agreed before or was set. -/
structure SameEffect (s t s' t' : Mcu) : Prop where
  motor : SameMotor s'.globals t'.globals
  flag : t.globals.gControlMotorFlag = s.globals.gControlMotorFlag →
    t'.globals.gControlMotorFlag = s'.globals.gControlMotorFlag
  armed : s'.globals.gControlMotorFlag ≠ s.globals.gControlMotorFlag →
    t'.globals.gControlMotorFlag = s'.globals.gControlMotorFlag
  replies : ∃ fs, s'.sent = s.sent ++ fs ∧ t'.sent = t.sent ++ fs

/-- One burst received over two buffers. -/
theorem sameBurst_after {s t : Mcu} (h : SameMotor s.globals t.globals) {b : List UInt8}
    (h1 : 1 ≤ b.length) (h255 : b.length ≤ 255) : SameBurst (s.after b) (t.after b) := by
  refine ⟨h, rfl, rfl, fun i hi => ?_⟩
  have hlt : i.val < b.length := by
    have hlen : (receive b s.rx).rxLen.toNat = b.length := idleLen_toNat h1 h255
    rw [after_rx, hlen] at hi
    exact hi
  exact (dmaFill_of_lt hlt _).trans (dmaFill_of_lt hlt _).symm

variable {y y' : Stray} {s t : Mcu}

theorem SameBurst.refl_effect (h : SameBurst s t) : SameEffect s t s t :=
  ⟨h.motor, id, fun hne => absurd rfl hne, [], (List.append_nil _).symm, (List.append_nil _).symm⟩

theorem SameBurst.read (h : SameBurst s t) {i : Nat} (hi : i < s.rx.rxLen.toNat) :
    rxRead y' t.rx i = rxRead y s.rx i := by
  have hlt := s.rx.rxLen.toNat_lt
  rw [rxRead, rxRead, dif_pos (by omega), dif_pos (by omega)]
  exact h.bytes ⟨i, by omega⟩ hi

theorem SameBurst.header (h : SameBurst s t) (h4 : 4 ≤ s.rx.rxLen.toNat) :
    headerOk y' t.rx ↔ headerOk y s.rx := by
  rw [headerOk, headerOk, h.read (y := y) (i := 0) (by omega),
    h.read (y := y) (i := 1) (by omega)]

theorem SameBurst.check (h : SameBurst s t) (h4 : 4 ≤ s.rx.rxLen.toNat) :
    checkCode (rxRead y' t.rx) t.rx.rxLen = checkCode (rxRead y s.rx) s.rx.rxLen := by
  have hlt := s.rx.rxLen.toNat_lt
  rw [h.rxLen, checkCode, checkCode, myCheckCodeAnalysis, myCheckCodeAnalysis, ofInt_toNat]
  have hsum : byteSum (fun i => rxRead y' t.rx (3 + i))
      (((s.rx.rxLen.toNat : Int) - 3) % 65536).toNat =
      byteSum (fun i => rxRead y s.rx (3 + i)) (((s.rx.rxLen.toNat : Int) - 3) % 65536).toNat :=
    byteSum_congr fun i hi => h.read (by omega)
  rw [hsum]

/-- A right checksum has seen every byte the command reads. -/
theorem SameBurst.control (h : SameBurst s t) (h4 : 4 ≤ s.rx.rxLen.toNat)
    (hc : checkCode (rxRead y s.rx) s.rx.rxLen = 0) (g : Globals) :
    controlProtocolAnalysis y' g (rxRead y' t.rx) =
      controlProtocolAnalysis y g (rxRead y s.rx) := by
  have hlt := s.rx.rxLen.toNat_lt
  rw [checkCode, myCheckCodeAnalysis_eq_zero, ofInt_toNat] at hc
  refine (control_stray y' y g _).trans (controlProtocolAnalysis_congr y g fun i hi => ?_).symm
  have hrange := controlReads_summed hc hi
  exact (h.read (by omega)).symm

/-- `control_protocol_analysis` does not read `g_ControlMotorFlag`. -/
theorem control_sameMotor (y : Stray) {g g' : Globals} (h : SameMotor g g')
    (data : Nat → UInt8) :
    (controlProtocolAnalysis y g' data).2 = (controlProtocolAnalysis y g data).2 ∧
      SameMotor (controlProtocolAnalysis y g data).1 (controlProtocolAnalysis y g' data).1 ∧
      (Arms data → (controlProtocolAnalysis y g' data).1.gControlMotorFlag =
        (controlProtocolAnalysis y g data).1.gControlMotorFlag) := by
  obtain ⟨dir, speed, turnDir, turn, flag⟩ := g
  obtain ⟨dir', speed', turnDir', turn', flag'⟩ := g'
  obtain ⟨rfl, rfl, rfl, rfl⟩ := h
  simp only [controlProtocolAnalysis, Protocol.Control.controlProtocolAnalysis, controlTurn, Arms]
  split_ifs <;> refine ⟨rfl, ⟨rfl, rfl, rfl, rfl⟩, fun h => ?_⟩ <;> simp_all

/-- What the parser makes of a burst of four bytes or more does not depend on what the
buffer holds behind it. -/
theorem leftover_irrelevant (y y' : Stray) (s t : Mcu) (h : SameBurst s t)
    (h4 : 4 ≤ s.rx.rxLen.toNat) :
    SameEffect s t (myMotorControlProtocolAnalysis y s) (myMotorControlProtocolAnalysis y' t) := by
  by_cases hok : s.rx.recvEndFlag = true ∧ headerOk y s.rx
  case neg =>
    have hok' : ¬ (t.rx.recvEndFlag = true ∧ headerOk y' t.rx) := by
      rw [h.recvEndFlag, h.header (y := y) h4]
      exact hok
    rw [analysis_ignored y s hok, analysis_ignored y' t hok']
    exact h.refl_effect
  obtain ⟨hf, hh⟩ := hok
  rw [analysis_header y s hf hh, analysis_header y' t (h.recvEndFlag.trans hf)
    ((h.header h4).mpr hh), h.check (y := y) h4]
  by_cases hc : checkCode (rxRead y s.rx) s.rx.rxLen = 0
  · rw [if_neg (not_not.mpr hc), if_neg (not_not.mpr hc), h.control h4 hc]
    obtain ⟨hsent, hmotor, harmed⟩ := control_sameMotor y h.motor (rxRead y s.rx)
    by_cases ha : Arms (rxRead y s.rx)
    · exact ⟨hmotor, fun _ => harmed ha, fun _ => harmed ha, _, rfl, by rw [← hsent]⟩
    · have hkeep : ∀ g, (controlProtocolAnalysis y g (rxRead y s.rx)).1 = g :=
        fun g => control_arms y g ha
      refine ⟨hmotor, fun heq => ?_, fun hne => absurd ?_ hne, _, rfl, by rw [← hsent]⟩
      · simpa only [hkeep] using heq
      · simp only [hkeep]
  · rw [if_pos hc, if_pos hc]
    have hreply : myUart3TxToBLE y' t.globals 0xA6 0 = myUart3TxToBLE y s.globals 0xA6 0 :=
      myUart3TxToBLE_stray y' y s.globals (by decide) 0
    exact ⟨h.motor, id, fun hne => absurd rfl hne, _, rfl, by rw [hreply]⟩

/-- A report asked for over an empty buffer and over a longer command. -/
theorem leftover_irrelevant_report :
    let s := boot.after [0xAA, 0xAA, 0x05, 0xA4, 0x5B]
    let t := (boot.after [0xAA, 0xAA, 0x07, 0xA1, 0x01, 0x03, 0x5A]).after
      [0xAA, 0xAA, 0x05, 0xA4, 0x5B]
    SameEffect s t (myMotorControlProtocolAnalysis Stray.blank s)
      (myMotorControlProtocolAnalysis Stray.blank t) :=
  leftover_irrelevant Stray.blank Stray.blank _ _
    (sameBurst_after (SameMotor.withFlag Globals.boot .idle) (by decide) (by decide)) (by decide)

end BleCar.F103.Leftover
