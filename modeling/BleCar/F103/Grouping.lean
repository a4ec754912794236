import BleCar.F103.Direction
import BleCar.F103.Grammar

/-!
# Several frames in one burst

The relay on the other chip keeps no message boundaries, so one IDLE can end several
frames. The parser takes every burst for one frame, with one checksum from the fourth byte
to its end: the frames behind the first are part of that frame's checksum and are never
looked at again.
-/

namespace BleCar.F103.Grouping

open BleCar.Lib.Runs
open BleCar.Lib.ByteSum
open BleCar.Motion.Routines
open BleCar.Protocol.Frames
open BleCar.Protocol.Control hiding controlProtocolAnalysis
open BleCar.Protocol.Buffer
open BleCar.F103.Firmware
open BleCar.F103.Direction
open BleCar.F103.Grammar

/-- A well-formed frame of one of the commands, with any parameters. -/
def CommandFrame (f : List UInt8) : Prop := WellFormed f ∧ ¬ UnknownID (bytesAt f)

instance (data : Nat → UInt8) : Decidable (UnknownID data) := inferInstanceAs (Decidable (_ ∧ _))

instance (f : List UInt8) : Decidable (CommandFrame f) := inferInstanceAs (Decidable (_ ∧ _))

theorem TableFrame.command {f : List UInt8} (h : TableFrame f) : CommandFrame f := by
  refine ⟨h.1, fun ⟨h1, h2, h3, h4, h5⟩ => ?_⟩
  have hlen := h.2
  simp [tableLength, h1, h2, h3, h4, h5] at hlen

/-- The frames of `g` arrive in the one burst `b`; alone, a frame meets the same stray values. -/
def Carries (b : Burst) (g : List Burst) : Prop :=
  b.bytes = (g.map Burst.bytes).flatten ∧ ∀ f, g = [f] → b = f

/-- What the header, the length byte and the checked bytes of further frames add to the
checksum of the first. -/
def extraSum : List (List UInt8) → UInt8
  | [] => 0
  | f :: fs => 0x53 + bytesAt f 2 + extraSum fs

/-! ## The checksum of a group -/

theorem wellFormed_length {f : List UInt8} (h : WellFormed f) : 4 ≤ f.length ∧ f.length ≤ 255 := by
  have hlt := (bytesAt f 2).toNat_lt
  have hlen := h.length
  have h4 := sound_four h.sound
  omega

/-- All bytes of a frame, header and length byte included. -/
theorem byteSum_frame {f : List UInt8} (h : WellFormed f) :
    byteSum (bytesAt f) f.length = 0x53 + bytesAt f 2 := by
  obtain ⟨h4, -⟩ := wellFormed_length h
  have hcut := byteSum_add (bytesAt f) 3 (f.length - 3)
  rw [show 3 + (f.length - 3) = f.length by omega, h.checksum] at hcut
  rw [hcut, byteSum_succ, byteSum_succ, byteSum_succ, byteSum_zero, h.header0, h.header1]
  grind

theorem bytesAt_append_left {a b : List UInt8} {i : Nat} (hi : i < a.length) :
    bytesAt (a ++ b) i = bytesAt a i := List.getD_append _ _ _ _ hi

theorem bytesAt_append_right (a b : List UInt8) (i : Nat) :
    bytesAt (a ++ b) (a.length + i) = bytesAt b i := by
  rw [bytesAt, List.getD_append_right _ _ _ _ (by omega), Nat.add_sub_cancel_left]
  rfl

theorem byteSum_flatten {fs : List (List UInt8)} (h : ∀ f ∈ fs, WellFormed f) :
    byteSum (bytesAt fs.flatten) fs.flatten.length = extraSum fs := by
  induction fs with
  | nil => rfl
  | cons f fs ih =>
    rw [List.flatten_cons, List.length_append, byteSum_add,
      byteSum_congr fun i hi => bytesAt_append_left hi,
      byteSum_frame (h f List.mem_cons_self)]
    simp only [bytesAt_append_right]
    rw [ih fun f' hf => h f' (List.mem_cons_of_mem _ hf)]
    rfl

/-- The checksum of a group is that of its first frame and the extra of the others. -/
theorem byteSum_group {f : List UInt8} {fs : List (List UInt8)}
    (h : ∀ f' ∈ f :: fs, WellFormed f') :
    byteSum (fun i => bytesAt (f :: fs).flatten (3 + i)) ((f :: fs).flatten.length - 3) =
      0xff + extraSum fs := by
  have hf := h f List.mem_cons_self
  obtain ⟨h4, -⟩ := wellFormed_length hf
  have hlen : (f :: fs).flatten.length - 3 = (f.length - 3) + fs.flatten.length := by
    rw [List.flatten_cons, List.length_append]
    omega
  rw [hlen, byteSum_add, List.flatten_cons]
  have hfirst : byteSum (fun i => bytesAt (f ++ fs.flatten) (3 + i)) (f.length - 3) = 0xff := by
    rw [byteSum_congr fun i hi => bytesAt_append_left (by omega), hf.checksum]
  have hrest : ∀ i, bytesAt (f ++ fs.flatten) (3 + (f.length - 3 + i)) = bytesAt fs.flatten i := by
    intro i
    rw [show 3 + (f.length - 3 + i) = f.length + i by omega, bytesAt_append_right]
  simp only [hfirst, hrest]
  rw [byteSum_flatten fun f' hf' => h f' (List.mem_cons_of_mem _ hf')]

theorem sound_group {f : List UInt8} {fs : List (List UInt8)} (h : ∀ f' ∈ f :: fs, WellFormed f') :
    Sound (f :: fs).flatten ↔ extraSum fs = 0 := by
  have hf := h f List.mem_cons_self
  obtain ⟨h4, -⟩ := wellFormed_length hf
  have hsum := byteSum_group h
  constructor
  · intro hs
    rw [hs.checksum] at hsum
    grind
  · intro hz
    rw [hz] at hsum
    refine ⟨?_, ?_, hsum⟩
    · rw [List.flatten_cons, bytesAt_append_left (by omega), hf.header0]
    · rw [List.flatten_cons, bytesAt_append_left (by omega), hf.header1]

/-! ## One burst is one frame -/

section

variable (y : Stray) (s : Mcu)

/-- A burst is answered at most once. -/
theorem analysis_sent_le : ∃ fs, (myMotorControlProtocolAnalysis y s).sent = s.sent ++ fs ∧
    fs.length ≤ 1 := by
  by_cases hok : s.rx.recvEndFlag = true ∧ headerOk y s.rx
  · rw [analysis_header y s hok.1 hok.2]
    split
    · exact ⟨_, rfl, Nat.le_refl _⟩
    · refine ⟨_, rfl, ?_⟩
      rcases @control_answer myTurnLeft myTurnRight y s.globals (rxRead y s.rx) with
        ⟨-, h⟩ | ⟨g', ID, ret, -, h⟩
      · rw [controlProtocolAnalysis, h]
        exact Nat.zero_le _
      · rw [controlProtocolAnalysis, h]
        exact Nat.le_refl _
  · rw [analysis_ignored y s hok]
    exact ⟨[], (List.append_nil _).symm, Nat.zero_le _⟩

/-- A frame alone is answered once. -/
theorem analysis_command {f : List UInt8} (h : CommandFrame f) :
    ∃ fs, (myMotorControlProtocolAnalysis y (s.after f)).sent = s.sent ++ fs ∧ fs.length = 1 := by
  obtain ⟨h4, h255⟩ := wellFormed_length h.1
  rw [analysis_dispatches y s f ((dispatches_iff y (by omega) h255 s.rx).mpr h.1.sound)]
  refine ⟨_, rfl, control_answers y s.globals fun hu => h.2 ?_⟩
  rw [UnknownID, rxRead_receive (by omega) (by omega)] at hu
  exact hu

/-- What becomes of the frames `f :: fs` of one burst: `f` is executed as if it had come
alone, or nothing is executed and A6 is the answer. -/
structure TakenAsOne (f : List UInt8) (fs : List (List UInt8)) : Prop where
  first : extraSum fs = 0 →
    (myMotorControlProtocolAnalysis y (s.after (f :: fs).flatten)).globals =
        (myMotorControlProtocolAnalysis y (s.after f)).globals ∧
      (myMotorControlProtocolAnalysis y (s.after (f :: fs).flatten)).sent =
        (myMotorControlProtocolAnalysis y (s.after f)).sent
  refused : extraSum fs ≠ 0 →
    (myMotorControlProtocolAnalysis y (s.after (f :: fs).flatten)).globals = s.globals ∧
      (myMotorControlProtocolAnalysis y (s.after (f :: fs).flatten)).sent =
        s.sent ++ [myUart3TxToBLE y s.globals 0xA6 0]

theorem takenAsOne {f : List UInt8} {fs : List (List UInt8)} (h : ∀ f' ∈ f :: fs, WellFormed f')
    (h255 : (f :: fs).flatten.length ≤ 255) : TakenAsOne y s f fs := by
  have hf := h f List.mem_cons_self
  obtain ⟨h4, hf255⟩ := wellFormed_length hf
  have hlen : f.length ≤ (f :: fs).flatten.length := by simp
  have hiff := (dispatches_iff y (by omega) h255 s.rx).trans (sound_group h)
  refine ⟨fun hz => ?_, fun hne => ?_⟩
  · have hread : ∀ i < f.length, rxRead y (receive f s.rx) i =
        rxRead y (receive (f :: fs).flatten s.rx) i := by
      intro i hi
      rw [rxRead_receive hi (by omega), rxRead_receive (by omega) (by omega), List.flatten_cons,
        bytesAt_append_left hi]
    have hd := (dispatches_iff y (by omega) hf255 s.rx).mpr hf.sound
    have hsum : byteSum (fun i => rxRead y (receive f s.rx) (3 + i)) (f.length - 3) = 0xff := by
      rw [byteSum_congr fun i hi => rxRead_receive (by omega) (by omega) y s.rx, hf.checksum]
    have hsame : controlProtocolAnalysis y s.globals (rxRead y (receive f s.rx)) =
        controlProtocolAnalysis y s.globals (rxRead y (receive (f :: fs).flatten s.rx)) := by
      refine controlProtocolAnalysis_congr y s.globals fun i hi => hread i ?_
      have hrange := controlReads_summed hsum hi
      omega
    rw [analysis_dispatches y s _ (hiff.mpr hz), analysis_dispatches y s f hd, hsame]
    exact ⟨rfl, rfl⟩
  · have hd : ¬ Dispatches y (receive (f :: fs).flatten s.rx) := fun hd => hne (hiff.mp hd)
    have hh : headerOk y (receive (f :: fs).flatten s.rx) := by
      rw [headerOk_receive y (by omega), List.flatten_cons, bytesAt_append_left (by omega),
        bytesAt_append_left (by omega)]
      exact ⟨hf.header0, hf.header1⟩
    rw [analysis_badSum y s _ hh fun hc => hd ⟨hh, hc⟩]
    exact ⟨rfl, rfl⟩

end

/-! ## Whole runs -/

section

variable {s t : Mcu}

theorem step_sent {e : Burst} (h : step s e = some t) :
    t.sent = (myMotorControlProtocolAnalysis e.stray (s.after e.bytes)).sent := by
  obtain ⟨out, -, rfl⟩ := Option.map_eq_some_iff.mp h
  rfl

/-- As many answers as bursts, at most. -/
theorem run_answers_le {bs : List Burst} (h : run step s bs = some t) :
    t.sent.length ≤ s.sent.length + bs.length := by
  induction bs generalizing s with
  | nil =>
    obtain rfl := Option.some.inj h
    exact Nat.le_refl _
  | cons b bs ih =>
    obtain ⟨m, hm, hr⟩ := run_cons_inv step h
    obtain ⟨fs, hfs, hle⟩ := analysis_sent_le b.stray (s.after b.bytes)
    have hlen := ih hr
    rw [step_sent hm, hfs, List.length_append, after_sent] at hlen
    rw [List.length_cons]
    omega

/-- Frames that come alone are answered one by one. -/
theorem run_answers {fs : List Burst} (hf : ∀ f ∈ fs, CommandFrame f.bytes)
    (h : run step s fs = some t) : t.sent.length = s.sent.length + fs.length := by
  induction fs generalizing s with
  | nil =>
    obtain rfl := Option.some.inj h
    rfl
  | cons f fs ih =>
    obtain ⟨m, hm, hr⟩ := run_cons_inv step h
    obtain ⟨rs, hrs, hone⟩ := analysis_command f.stray s (hf f List.mem_cons_self)
    have hlen := ih (fun f' hf' => hf f' (List.mem_cons_of_mem _ hf')) hr
    rw [step_sent hm, hrs, List.length_append] at hlen
    rw [List.length_cons]
    omega

end

/-- No group holds more than one frame. -/
def Singletons (gs : List (List Burst)) : Prop := ∀ g ∈ gs, g.length = 1

theorem flatten_length {gs : List (List Burst)} (h : ∀ g ∈ gs, g ≠ []) :
    gs.length ≤ gs.flatten.length ∧ (gs.flatten.length = gs.length → Singletons gs) := by
  induction gs with
  | nil => exact ⟨Nat.le_refl _, fun _ g hg => absurd hg List.not_mem_nil⟩
  | cons g gs ih =>
    obtain ⟨hle, hone⟩ := ih fun g' hg' => h g' (List.mem_cons_of_mem _ hg')
    have hpos : 0 < g.length := List.length_pos_iff.mpr (h g List.mem_cons_self)
    rw [List.flatten_cons, List.length_append, List.length_cons]
    refine ⟨by omega, fun heq g' hg' => ?_⟩
    rcases List.mem_cons.mp hg' with rfl | hmem
    · omega
    · exact hone (by omega) g' hmem

theorem carries_singletons {bs : List Burst} {gs : List (List Burst)}
    (h : List.Forall₂ Carries bs gs) (hone : Singletons gs) : bs = gs.flatten := by
  induction h with
  | nil => rfl
  | @cons b g bs gs hb _ ih =>
    obtain ⟨f, rfl⟩ := List.length_eq_one_iff.mp (hone g List.mem_cons_self)
    rw [hb.2 f rfl, ih fun g' hg' => hone g' (List.mem_cons_of_mem _ hg')]
    rfl

/-- From every loop head, for every grouping of command frames into bursts: a burst is taken
as one frame, and the run answers as if each frame had come alone exactly when each did. -/
theorem burst_is_frame (es : List Burst) (s : Mcu) (hs : run step boot es = some s)
    (bs : List Burst) (gs : List (List Burst)) (hbs : List.Forall₂ Carries bs gs)
    (hne : ∀ g ∈ gs, g ≠ []) (hgs : ∀ f ∈ gs.flatten, CommandFrame f.bytes) :
    (∀ (y : Stray) (u : Mcu) (f : List UInt8) (fs : List (List UInt8)),
      (∀ f' ∈ f :: fs, CommandFrame f') → (f :: fs).flatten.length ≤ 255 →
        TakenAsOne y u f fs) ∧
    ∃ t u, run step s bs = some t ∧ run step s gs.flatten = some u ∧
      t.sent.length ≤ s.sent.length + gs.length ∧
      u.sent.length = s.sent.length + gs.flatten.length ∧
      (t.sent = u.sent ↔ Singletons gs) ∧ (Singletons gs → t = u) := by
  refine ⟨fun y u f fs hfs h255 => takenAsOne y u (fun f' hf' => (hfs f' hf').1) h255, ?_⟩
  have hinv := run_loopInv hs
  have hrun : ∀ es', ∃ t, run step s es' = some t :=
    exists_run step_loopInv (fun _ e h => let ⟨t, ht, _⟩ := step_spec h e; ⟨t, ht⟩) hinv
  obtain ⟨t, ht⟩ := hrun bs
  obtain ⟨u, hu⟩ := hrun gs.flatten
  have hle := run_answers_le ht
  rw [hbs.length_eq] at hle
  have heq := run_answers hgs hu
  have hsame : Singletons gs → t = u := by
    intro hone
    rw [carries_singletons hbs hone, hu] at ht
    exact (Option.some.inj ht).symm
  refine ⟨t, u, ht, hu, hle, heq, ⟨fun hsent => ?_, fun hone => by rw [hsame hone]⟩, hsame⟩
  obtain ⟨hge, hone⟩ := flatten_length hne
  rw [hsent] at hle
  exact hone (by omega)

def reportBurst : Burst := ⟨[0xAA, 0xAA, 0x05, 0xA4, 0x5B], Stray.blank⟩

def twoReports : Burst := ⟨reportBurst.bytes ++ reportBurst.bytes, Stray.blank⟩

theorem twoReports_carries : Carries twoReports [reportBurst, reportBurst] :=
  ⟨rfl, fun _ h => by cases h⟩

theorem burst_is_frame_reports :
    (∀ (y : Stray) (u : Mcu) (f : List UInt8) (fs : List (List UInt8)),
      (∀ f' ∈ f :: fs, CommandFrame f') → (f :: fs).flatten.length ≤ 255 →
        TakenAsOne y u f fs) ∧
    ∃ t u, run step boot [twoReports] = some t ∧
      run step boot [[reportBurst, reportBurst]].flatten = some u ∧
      t.sent.length ≤ boot.sent.length + [[reportBurst, reportBurst]].length ∧
      u.sent.length = boot.sent.length + [[reportBurst, reportBurst]].flatten.length ∧
      (t.sent = u.sent ↔ Singletons [[reportBurst, reportBurst]]) ∧
      (Singletons [[reportBurst, reportBurst]] → t = u) :=
  burst_is_frame [] boot rfl [twoReports] [[reportBurst, reportBurst]]
    (.cons twoReports_carries .nil) (by simp) (by decide)

/-- Two requests in one burst are answered by one A6. -/
theorem grouping_changes_replies :
    ¬ ∀ (bs : List Burst) (gs : List (List Burst)) (t u : Mcu), List.Forall₂ Carries bs gs →
      (∀ g ∈ gs, g ≠ []) → (∀ f ∈ gs.flatten, TableFrame f.bytes) →
      run step boot bs = some t → run step boot gs.flatten = some u →
      SameMotor u.globals t.globals ∧ t.sent = u.sent := by
  intro h
  obtain ⟨t, ht⟩ := run_boot [twoReports]
  obtain ⟨u, hu⟩ := run_boot [reportBurst, reportBurst]
  obtain ⟨-, hsent⟩ := h [twoReports] [[reportBurst, reportBurst]] t u
    (.cons twoReports_carries .nil) (by simp) (by decide) ht hu
  have hle := run_answers_le ht
  have heq := run_answers (by decide) hu
  rw [hsent] at hle
  have habs := heq.symm.trans_le hle
  exact absurd habs (by decide)

end BleCar.F103.Grouping
