import BleCar.F103.Grammar
import BleCar.L151.Firmware
import BleCar.Motion.Driving

/-!
# Both boards are the car of `BleCar.Motion.Driving`

After every run of bursts the globals and the registers are those of a car that has obeyed
the commands of the sound bursts. The boards differ in the side that A2 and A3 stand for,
and the L151 car becomes one with the first drive command: until then its pins say nothing.
-/

namespace BleCar.Obedience

open BleCar.Lib.ByteSum
open BleCar.Lib.Runs
open BleCar.Motion.Hardware
open BleCar.Motion.Routines
open BleCar.Motion.Driving
open BleCar.Protocol.Frames
open BleCar.Protocol.Control
open BleCar.Protocol.Buffer

/-- What the car is told by a burst. -/
def command (sideA2 sideA3 : Side) (b : List UInt8) : Command :=
  if Sound b then decode sideA2 sideA3 (bytesAt b) else .other

/-- The controller is at the loop head and looks like the car. -/
structure Drives (B : Board) (c : Car) (s : Mcu) : Prop where
  idle : s.globals.gControlMotorFlag = .idle
  shows : Shows B c s.globals s.drive.act

/-- The commands of some bursts, carried out one after the other. -/
def obeyed (sideA2 sideA3 : Side) (bs : List (List UInt8)) (c : Car) : Car :=
  (bs.map (command sideA2 sideA3)).foldl Car.obey c

/-! ## Obedience over a run -/

/-- The controller is at the loop head, and its car has not been driven yet. -/
structure Stands (B : Board) (c : Car) (s : Mcu) : Prop where
  idle : s.globals.gControlMotorFlag = .idle
  waits : Waits B c s.globals s.drive.act

section

variable {ε : Type*} {B : Board} {step : Mcu → ε → Option Mcu} {P T O : ε → Prop}
  {f : ε → Command}

/-- Obedience event by event is obedience over a run. -/
theorem run_drives
    (hstep : ∀ s c e, P e → Drives B c s →
      ∃ t, step s e = some t ∧ Drives B (c.obey (f e)) t)
    {es : List ε} (hes : ∀ e ∈ es, P e) {s : Mcu} {c : Car} (h : Drives B c s) :
    ∃ t, run step s es = some t ∧ Drives B ((es.map f).foldl Car.obey c) t := by
  induction es generalizing s c with
  | nil => exact ⟨s, rfl, h⟩
  | cons e es ih =>
    obtain ⟨m, hm, hdrives⟩ := hstep s c e (hes e List.mem_cons_self) h
    obtain ⟨t, ht, hend⟩ := ih (fun e' he' => hes e' (List.mem_cons_of_mem _ he')) hdrives
    exact ⟨t, (run_cons_of_step step hm es).trans ht, hend⟩

theorem run_stands
    (hstep : ∀ s c e, P e → Drives B c s →
      ∃ t, step s e = some t ∧ Drives B (c.obey (f e)) t)
    (hfirst : ∀ s c e, P e → ¬ T e → Stands B c s → ∃ t, step s e = some t ∧
      (Stands B (c.obey (f e)) t ∧ ¬ O e ∨ Drives B (c.obey (f e)) t))
    {es : List ε} (hes : ∀ e ∈ es, P e ∧ ¬ T e) {s : Mcu} {c : Car}
    (h : Stands B c s ∨ Drives B c s) :
    ∃ t, run step s es = some t ∧ (Stands B ((es.map f).foldl Car.obey c) t ∨
      Drives B ((es.map f).foldl Car.obey c) t) := by
  induction es generalizing s c with
  | nil => exact ⟨s, rfl, h⟩
  | cons e es ih =>
    obtain ⟨he, hno⟩ := hes e List.mem_cons_self
    have hone : ∃ m, step s e = some m ∧
        (Stands B (c.obey (f e)) m ∨ Drives B (c.obey (f e)) m) := by
      rcases h with h | h
      · obtain ⟨m, hm, hend⟩ := hfirst s c e he hno h
        exact ⟨m, hm, hend.imp_left And.left⟩
      · obtain ⟨m, hm, hend⟩ := hstep s c e he h
        exact ⟨m, hm, .inr hend⟩
    obtain ⟨m, hm, hend⟩ := hone
    obtain ⟨t, ht, hrest⟩ := ih (fun e' he' => hes e' (List.mem_cons_of_mem _ he')) hend
    exact ⟨t, (run_cons_of_step step hm es).trans ht, hrest⟩

/-- A car that stands at first is a car from the first event that drives it off, if no turn
comes before. -/
theorem run_firstDriven
    (hstep : ∀ s c e, P e → Drives B c s →
      ∃ t, step s e = some t ∧ Drives B (c.obey (f e)) t)
    (hfirst : ∀ s c e, P e → ¬ T e → Stands B c s → ∃ t, step s e = some t ∧
      (Stands B (c.obey (f e)) t ∧ ¬ O e ∨ Drives B (c.obey (f e)) t))
    (hoff : ∀ e, O e → ¬ T e) {pre post : List ε} {e : ε}
    (hes : ∀ e' ∈ pre ++ e :: post, P e') (hpre : ∀ e' ∈ pre, ¬ T e') (he : O e)
    {s : Mcu} {c : Car} (h : Stands B c s) :
    ∃ t, run step s (pre ++ e :: post) = some t ∧
      Drives B (((pre ++ e :: post).map f).foldl Car.obey c) t := by
  obtain ⟨m, hm, hwait⟩ := run_stands hstep hfirst
    (fun e' he' => ⟨hes e' (List.mem_append_left _ he'), hpre e' he'⟩) (.inl h)
  have hes' : ∀ e' ∈ e :: post, P e' := fun e' he' => hes e' (List.mem_append_right _ he')
  have hone : ∃ n, step m e = some n ∧
      Drives B (((pre.map f).foldl Car.obey c).obey (f e)) n := by
    rcases hwait with hw | hw
    · obtain ⟨n, hn, hend⟩ := hfirst m _ e (hes' e List.mem_cons_self) (hoff e he) hw
      exact ⟨n, hn, hend.resolve_left fun hstands => hstands.2 he⟩
    · exact hstep m _ e (hes' e List.mem_cons_self) hw
  obtain ⟨n, hn, hdrives⟩ := hone
  obtain ⟨t, ht, hend⟩ :=
    run_drives hstep (fun e' he' => hes' e' (List.mem_cons_of_mem _ he')) hdrives
  refine ⟨t, ?_, ?_⟩
  · rw [run_append_of_run step hm, run_cons_of_step step hn]
    exact ht
  · rw [List.map_append, List.map_cons, List.foldl_append]
    exact hend

end

/-! ## Obedience in one pass -/

section

variable {B : Board} {s : Mcu} {c : Car}

/-- What the task finds after data that are heard or not, and what it makes of them. -/
theorem Drives.pass (hB : Regular B) (sideA2 sideA3 : Side) (h : Drives B c s) (y : Stray)
    (heard : Prop) [Decidable heard] (data : Nat → UInt8) :
    ∃ g' d', myMotorControlTask B y
        (if heard then (controlProtocolAnalysis sideA2.byte sideA3.byte y s.globals data).1
        else s.globals) s.drive = some (g', d') ∧
      ∀ t : Mcu, t.globals = g' → t.drive = d' →
        Drives B (c.obey (if heard then decode sideA2 sideA3 data else .other)) t := by
  by_cases hs : heard
  · rw [if_pos hs, if_pos hs]
    obtain ⟨g', d', ht, hidle, hshows⟩ := pass_obeys hB h.shows h.idle sideA2 sideA3 y data
    exact ⟨g', d', ht, fun t hg hd => ⟨hg ▸ hidle, by rw [hg, hd]; exact hshows⟩⟩
  · rw [if_neg hs, if_neg hs]
    refine ⟨_, _, task_idle B y h.idle s.drive, fun t hg hd => ⟨hg ▸ h.idle, ?_⟩⟩
    rw [hg, hd]
    exact h.shows

/-- An A2 or A3. -/
def IsTurn (data : Nat → UInt8) : Prop := data 3 = 0xA2 ∨ data 3 = 0xA3

/-- An A1 in range with a speed level of at least 1. -/
def IsDriveOff (data : Nat → UInt8) : Prop :=
  data 3 = 0xA1 ∧ driveValid data = true ∧ 1 ≤ data 5

instance (data : Nat → UInt8) : Decidable (IsTurn data) := inferInstanceAs (Decidable (_ ∨ _))

instance (data : Nat → UInt8) : Decidable (IsDriveOff data) :=
  inferInstanceAs (Decidable (_ ∧ _))

theorem IsDriveOff.not_isTurn {data : Nat → UInt8} (h : IsDriveOff data) : ¬ IsTurn data := by
  rintro (h2 | h3) <;> have h1 := h.1
  · rw [h2] at h1
    exact absurd h1 (by decide)
  · rw [h3] at h1
    exact absurd h1 (by decide)

/-- Without a turn a standing car goes on standing or is driven, and driving off drives it. -/
theorem Stands.pass (sideA2 sideA3 : Side) (h : Stands B c s) (y : Stray) (heard : Prop)
    [Decidable heard] (data : Nat → UInt8) (hno : heard → ¬ IsTurn data) :
    ∃ g' d', myMotorControlTask B y
        (if heard then (controlProtocolAnalysis sideA2.byte sideA3.byte y s.globals data).1
        else s.globals) s.drive = some (g', d') ∧
      ∀ t : Mcu, t.globals = g' → t.drive = d' →
        (Stands B (c.obey (if heard then decode sideA2 sideA3 data else .other)) t ∧
            ¬ (heard ∧ IsDriveOff data) ∨
          Drives B (c.obey (if heard then decode sideA2 sideA3 data else .other)) t) := by
  by_cases hs : heard
  · rw [if_pos hs, if_pos hs]
    obtain ⟨g', d', ht, hidle, hend⟩ := h.waits.pass_obeys h.idle sideA2 sideA3 y data (hno hs)
    refine ⟨g', d', ht, fun t hg hd => ?_⟩
    subst hg hd
    rcases hend with hw | hshows
    · refine .inl ⟨⟨hidle, hw⟩, fun ⟨_, h1, hv, h5⟩ => ?_⟩
      have hgear : ∃ gear, (c.obey (decode sideA2 sideA3 data)).travel = .straight gear :=
        obey_drivesOff c h1 hv h5
      rw [hw.standing] at hgear
      obtain ⟨gear, hgear⟩ := hgear
      cases hgear
    · exact .inr ⟨hidle, hshows⟩
  · rw [if_neg hs, if_neg hs]
    refine ⟨_, _, task_idle B y h.idle s.drive, fun t hg hd => .inl ⟨⟨hg ▸ h.idle, ?_⟩,
      fun hheard => hs hheard.1⟩⟩
    rw [hg, hd]
    exact h.waits

end

/-! ## The F103 -/

theorem f103_regular : Regular F103.Firmware.board := ⟨by decide, fun _ => rfl⟩

/-- The bursts whose length the parsers of both boards can work with. -/
def Parsed (b : Burst) : Prop := 3 ≤ b.bytes.length ∧ b.bytes.length ≤ 255

instance (b : Burst) : Decidable (Parsed b) := inferInstanceAs (Decidable (_ ∧ _))

theorem Parsed.one_le {b : Burst} (h : Parsed b) : 1 ≤ b.bytes.length :=
  Nat.le_trans (by decide) h.1

/-- What a sound burst is dispatched with is in the burst. -/
theorem control_receive {b : List UInt8} (hs : Sound b) (h255 : b.length ≤ 255) (y : Stray)
    (g : Globals) (r : Rx) :
    F103.Firmware.controlProtocolAnalysis y g (rxRead y (receive b r)) =
      F103.Firmware.controlProtocolAnalysis y g (bytesAt b) := by
  have hread : ∀ i < b.length, rxRead y (receive b r) i = bytesAt b i :=
    fun i hi => rxRead_receive hi (by omega) y r
  have h4 := sound_four hs
  have hsum : byteSum (fun i => rxRead y (receive b r) (3 + i)) (b.length - 3) = 0xff := by
    rw [byteSum_congr fun i hi => hread (3 + i) (by omega), hs.checksum]
  refine controlProtocolAnalysis_congr y g fun i hi => hread i ?_
  have hrange := controlReads_summed hsum hi
  omega

theorem f103_step {s : Mcu} {c : Car} {b : Burst} (hb : Parsed b)
    (h : Drives F103.Firmware.board c s) :
    ∃ t, F103.Firmware.step s b = some t ∧
      Drives F103.Firmware.board (c.obey (command .left .right b.bytes)) t := by
  obtain ⟨g', d', ht, hend⟩ :=
    h.pass f103_regular .left .right b.stray (Sound b.bytes) (bytesAt b.bytes)
  have hglobals := F103.Firmware.analysis_globals b.stray s b.bytes
  have hiff := F103.Grammar.dispatches_iff b.stray hb.1 hb.2 s.rx
  have hg : (F103.Firmware.myMotorControlProtocolAnalysis b.stray (s.after b.bytes)).globals =
      if Sound b.bytes then (controlProtocolAnalysis Side.left.byte Side.right.byte b.stray
        s.globals (bytesAt b.bytes)).1 else s.globals := by
    rw [hglobals]
    by_cases hs : Sound b.bytes
    · rw [if_pos hs, if_pos (hiff.mpr hs), control_receive hs hb.2]
      rfl
    · rw [if_neg hs, if_neg fun hd => hs (hiff.mp hd)]
  obtain ⟨t, hstep, hgt, hdt⟩ := F103.Firmware.step_of_task hg ht
  exact ⟨t, hstep, hend t hgt hdt⟩

theorem f103_run {bs : List Burst} (hbs : ∀ b ∈ bs, Parsed b) {s : Mcu} {c : Car}
    (h : Drives F103.Firmware.board c s) :
    ∃ t, run F103.Firmware.step s bs = some t ∧
      Drives F103.Firmware.board (obeyed .left .right (bs.map Burst.bytes) c) t := by
  rw [obeyed, List.map_map]
  exact run_drives (P := Parsed) (fun _ _ b hb h => f103_step (b := b) hb h) hbs h

theorem f103_boot : Drives F103.Firmware.board Car.boot F103.Firmware.boot :=
  ⟨rfl, funext fun _ => rfl, fun _ => rfl, rfl, rfl⟩

/-- After every run of bursts of 3 to 255 bytes the F103 is a car that has obeyed them, with
A2 for left and A3 for right. -/
theorem f103_obeys {bs : List Burst} (hbs : ∀ b ∈ bs, Parsed b) :
    ∃ t, run F103.Firmware.step F103.Firmware.boot bs = some t ∧
      Drives F103.Firmware.board (obeyed .left .right (bs.map Burst.bytes) Car.boot) t :=
  f103_run hbs f103_boot

/-- `AA AA 07 A1 01 03 5A`, a drive forward, and `AA AA 06 A2 01 5C`, a turn. -/
def driveBurst : Burst := ⟨[0xAA, 0xAA, 0x07, 0xA1, 0x01, 0x03, 0x5A], Stray.blank⟩
def turnBurst : Burst := ⟨[0xAA, 0xAA, 0x06, 0xA2, 0x01, 0x5C], Stray.blank⟩

theorem f103_obeys_turn :
    ∃ t, run F103.Firmware.step F103.Firmware.boot [turnBurst, driveBurst] = some t ∧
      Drives F103.Firmware.board
        (obeyed .left .right ([turnBurst, driveBurst].map Burst.bytes) Car.boot) t :=
  f103_obeys (by decide)

/-! ## The L151 -/

theorem l151_regular : Regular L151.Firmware.board := ⟨by decide, fun _ => rfl⟩

theorem l151_step {s : Mcu} {c : Car} {b : Burst} (hb : Parsed b)
    (h : Drives L151.Firmware.board c s) :
    ∃ t, L151.Firmware.step s b = some t ∧
      Drives L151.Firmware.board (c.obey (command .right .left b.bytes)) t := by
  obtain ⟨g', d', ht, hend⟩ :=
    h.pass l151_regular .right .left b.stray (Sound b.bytes) (bytesAt b.bytes)
  obtain ⟨t, hstep, hgt, hdt⟩ := L151.Firmware.step_of_task hb.one_le hb.2 rfl ht
  exact ⟨t, hstep, hend t hgt hdt⟩

theorem l151_boot : Stands L151.Firmware.board Car.boot L151.Firmware.boot :=
  ⟨rfl, fun _ => rfl, rfl, nofun, rfl, rfl⟩

/-- A sound A2 or A3. -/
def Turns (b : List UInt8) : Prop := Sound b ∧ (bytesAt b 3 = 0xA2 ∨ bytesAt b 3 = 0xA3)

/-- A sound A1 in range with a speed level of at least 1. -/
def DrivesOff (b : List UInt8) : Prop :=
  Sound b ∧ bytesAt b 3 = 0xA1 ∧ driveValid (bytesAt b) = true ∧ 1 ≤ bytesAt b 5

instance (b : List UInt8) : Decidable (Turns b) := inferInstanceAs (Decidable (_ ∧ _))

instance (b : List UInt8) : Decidable (DrivesOff b) := inferInstanceAs (Decidable (_ ∧ _))

theorem l151_first {s : Mcu} {c : Car} {b : Burst} (hb : Parsed b) (hno : ¬ Turns b.bytes)
    (h : Stands L151.Firmware.board c s) :
    ∃ t, L151.Firmware.step s b = some t ∧
      (Stands L151.Firmware.board (c.obey (command .right .left b.bytes)) t ∧
          ¬ DrivesOff b.bytes ∨
        Drives L151.Firmware.board (c.obey (command .right .left b.bytes)) t) := by
  obtain ⟨g', d', ht, hend⟩ := h.pass .right .left b.stray (Sound b.bytes) (bytesAt b.bytes)
    fun hs hid => hno ⟨hs, hid⟩
  obtain ⟨t, hstep, hgt, hdt⟩ := L151.Firmware.step_of_task hb.one_le hb.2 rfl ht
  exact ⟨t, hstep, hend t hgt hdt⟩

/-- After every run of bursts of 3 to 255 bytes in which a drive with a speed comes before
the first turn, the L151 is the same car, with A2 for right and A3 for left. -/
theorem l151_obeys {pre post : List Burst} {b : Burst} (hbs : ∀ b' ∈ pre ++ b :: post, Parsed b')
    (hpre : ∀ b' ∈ pre, ¬ Turns b'.bytes) (hb : DrivesOff b.bytes) :
    ∃ t, run L151.Firmware.step L151.Firmware.boot (pre ++ b :: post) = some t ∧
      Drives L151.Firmware.board
        (obeyed .right .left ((pre ++ b :: post).map Burst.bytes) Car.boot) t := by
  rw [obeyed, List.map_map]
  exact run_firstDriven (P := Parsed) (fun _ _ b hb h => l151_step (b := b) hb h)
    (fun _ _ b hb hno h => l151_first (b := b) hb hno h)
    (fun _ ho ht => IsDriveOff.not_isTurn ho.2 ht.2) hbs hpre hb l151_boot

theorem l151_obeys_turn :
    ∃ t, run L151.Firmware.step L151.Firmware.boot ([] ++ driveBurst :: [turnBurst]) = some t ∧
      Drives L151.Firmware.board
        (obeyed .right .left (([] ++ driveBurst :: [turnBurst]).map Burst.bytes) Car.boot) t :=
  l151_obeys (by decide) (by decide) (by decide)

end BleCar.Obedience
