import BleCar.F103.Direction
import BleCar.F103.Grammar

/-!
# The A4 report and the actuators

A drive command forgets to cancel a turn, and speed 0 only stops the car when the
direction changes. `KeepsReport` is the exact condition on an accepted frame under which
the report it leaves behind still describes the registers.
-/

namespace BleCar.F103.Report

open BleCar.Lib.Runs
open BleCar.Motion.Hardware
open BleCar.Motion.Routines
open BleCar.Protocol.Frames
open BleCar.Protocol.Control hiding controlProtocolAnalysis
open BleCar.Protocol.Buffer
open BleCar.F103.Firmware
open BleCar.F103.Direction
open BleCar.F103.Grammar

/-- The frame an A4 query would be answered with. -/
def report (y : Stray) (g : Globals) : List UInt8 := myUart3TxToBLE y g 0xA4 0

/-- `speed_inner_table[level-1]` for a level the table has. -/
def innerOf (level : UInt8) : Nat := speedInnerTable.getD (level.toNat - 1) 0

/-- The bytes 4 to 7 of the report describe the registers. -/
structure Faithful (f : List UInt8) (a : Actuators) : Prop where
  straight : bytesAt f 6 = myTurnIdle → ∀ m, a.ccr (board.chan m) =
    if bytesAt f 5 = 0 then 0 else UInt16.ofNat (dutyOf (bytesAt f 5))
  turning : bytesAt f 6 ≠ myTurnIdle → (1 ≤ bytesAt f 7 ∧ bytesAt f 7 ≤ 3) ∧
    TurnPattern (turnRoles board (bytesAt f 6) a) (innerOf (bytesAt f 7)) a
  direction : bytesAt f 4 ≠ myCarDirectionIdle → Encodes board (bytesAt f 4) a

/-- Whatever is asked for at this loop head is reported faithfully. -/
def Reports (s : Mcu) : Prop := ∀ y, Faithful (report y s.globals) s.drive.act

/-- The buffer holds a frame that the parser takes. -/
def Accepts (s : Mcu) (e : Burst) : Prop :=
  Dispatches e.stray (receive e.bytes s.rx) ∧
    (Stores (rxRead e.stray (receive e.bytes s.rx)) ∨
      rxRead e.stray (receive e.bytes s.rx) 3 = 0xA4)

/-- Drive only while no turn is remembered; speed 0 only in the direction of the pins,
and with the motors at rest or a turn remembered; turn with a level of at least 1. -/
def KeepsReport (s : Mcu) (e : Burst) : Prop :=
  let data := rxRead e.stray (receive e.bytes s.rx)
  (data 3 = 0xA1 →
    if data 5 = 0 then Encodes board (data 4) s.drive.act ∧
      (s.globals.gMotorTurnDirection ≠ myTurnIdle ∨ Stopped board s.drive.act)
    else s.globals.gMotorTurnDirection = myTurnIdle) ∧
  (data 3 = 0xA2 ∨ data 3 = 0xA3 → 1 ≤ data 4)

theorem accepts_of_documented {e : Burst} (h : Documented e.bytes) (s : Mcu) : Accepts s e := by
  have hlen : 6 ≤ e.bytes.length ∧ e.bytes.length ≤ 7 := documented_length h
  have hread : ∀ i < 6, rxRead e.stray (receive e.bytes s.rx) i = bytesAt e.bytes i :=
    fun i hi => rxRead_receive (by omega) (by omega) e.stray s.rx
  refine ⟨(dispatches_iff e.stray (by omega) (by omega) s.rx).mpr (sound_of_documented h), .inl ?_⟩
  simp only [Stores, driveValid, turnValid, hread 3 (by omega), hread 4 (by omega),
    hread 5 (by omega), decide_eq_true_eq, Bool.decide_and, Bool.and_eq_true]
  obtain ⟨-, ⟨hid, -, hdir, -, hsp⟩ | ⟨hid, -, -, hl⟩ | ⟨hid, -⟩⟩ := h
  · exact .inl ⟨hid, hdir, hsp⟩
  · exact .inr (.inl ⟨hid, hl⟩)
  · exact .inr (.inr hid)

/-! ## The report as a statement about the globals -/

/-- `Faithful`, with the four bytes replaced by the globals they are copied from. -/
structure Describes (g : Globals) (a : Actuators) : Prop where
  straight : g.gMotorTurnDirection = myTurnIdle → ∀ m, a.ccr (board.chan m) =
    if g.gMotorSpeedLevel = 0 then 0 else UInt16.ofNat (dutyOf g.gMotorSpeedLevel)
  turning : g.gMotorTurnDirection ≠ myTurnIdle →
    (1 ≤ g.gMotorTurnLevel ∧ g.gMotorTurnLevel ≤ 3) ∧
      TurnPattern (turnRoles board g.gMotorTurnDirection a) (innerOf g.gMotorTurnLevel) a
  direction : g.gMotorDirection ≠ myCarDirectionIdle → Encodes board g.gMotorDirection a

theorem reports_iff (s : Mcu) : Reports s ↔ Describes s.globals s.drive.act :=
  ⟨fun h => ⟨(h Stray.blank).straight, (h Stray.blank).turning, (h Stray.blank).direction⟩,
    fun h _ => ⟨h.straight, h.turning, h.direction⟩⟩

theorem boot_reports : Reports boot :=
  (reports_iff boot).mpr ⟨fun _ _ => rfl, fun h => absurd rfl h, fun h => absurd rfl h⟩

/-! ## Turn levels and duties -/

theorem turnInner_eq {level : UInt8} (h1 : 1 ≤ level) (h3 : level ≤ 3) (y : Stray) :
    turnInner y level = innerOf level := by
  rw [UInt8.le_iff_toNat_le] at h1 h3
  simp only [UInt8.reduceToNat] at h1 h3
  have hin : 0 ≤ (level.toNat : Int) - 1 ∧ (level.toNat : Int) - 1 < speedInnerTable.length := by
    simp only [speedInnerTable, List.length_cons, List.length_nil]
    omega
  rw [turnInner, tableRead, if_pos hin, innerOf,
    show ((level.toNat : Int) - 1).toNat = level.toNat - 1 by omega]

theorem innerOf_lt {level : UInt8} (h1 : 1 ≤ level) (h3 : level ≤ 3) : innerOf level ≤ 700 := by
  rw [UInt8.le_iff_toNat_le] at h1 h3
  simp only [UInt8.reduceToNat] at h1 h3
  unfold innerOf
  have hcases : level.toNat = 1 ∨ level.toNat = 2 ∨ level.toNat = 3 := by omega
  rcases hcases with h | h | h <;> rw [h] <;> decide

/-- A turn never looks like driving straight: the inner wheel is slower. -/
theorem not_straight_of_turn {t c level : UInt8} {v : UInt16} {a : Actuators} (h1 : 1 ≤ level)
    (h3 : level ≤ 3) (h : TurnPattern (board.roles t c) (innerOf level) a) :
    ¬ ∀ m, a.ccr (board.chan m) = v := by
  obtain ⟨⟨f, hf⟩, -, ⟨i, hi⟩⟩ := roles_driven board t c
  intro hall
  have heq : UInt16.ofNat speedOuter = UInt16.ofNat (innerOf level) := by
    rw [← h.1, ← h.2.2, ← hf, ← hi, hall f, hall i]
  have hle := innerOf_lt h1 h3
  have hnat := congrArg UInt16.toNat heq
  rw [UInt16.toNat_ofNat_of_lt' (show innerOf level < 65536 by omega),
    UInt16.toNat_ofNat_of_lt' (by decide)] at hnat
  simp only [speedOuter] at hnat
  omega

/-! ## Each command -/

variable {g : Globals} {a a' : Actuators}

/-- After driving off at a duty, the report is right unless it still shows a turn. -/
theorem describes_drive (hl : ¬ (g.gMotorSpeedLevel < 1 ∨ g.gMotorSpeedLevel > 5))
    (h : DirectionDone board g a a') :
    Describes g a' ↔ g.gMotorTurnDirection = myTurnIdle := by
  rw [DirectionDone, if_neg hl] at h
  obtain ⟨hpin, hccr⟩ := h
  constructor
  · intro hd
    by_contra hturn
    obtain ⟨⟨h1, h3⟩, hp⟩ := hd.turning hturn
    exact not_straight_of_turn h1 h3 hp hccr
  · intro hturn
    refine ⟨fun _ => ?_, fun hn => absurd hturn hn, fun _ => hpin⟩
    have hne : g.gMotorSpeedLevel ≠ 0 := fun hz => hl (.inl (hz ▸ by decide))
    rw [if_neg hne]
    exact hccr

/-- Speed 0 leaves the registers alone or stops the car, and stores its direction. -/
theorem describes_halt {g' : Globals} (hq : Describes g a) (hagree : Agree board a)
    (hturn : g'.gMotorTurnDirection = g.gMotorTurnDirection)
    (hlevel : g'.gMotorTurnLevel = g.gMotorTurnLevel) (hspeed : g'.gMotorSpeedLevel = 0)
    (hdir : g'.gMotorDirection = myCarDirectionForward ∨
      g'.gMotorDirection = myCarDirectionBackward)
    (h : DirectionDone board g' a a') :
    Describes g' a' ↔ Encodes board g'.gMotorDirection a ∧
      (g.gMotorTurnDirection ≠ myTurnIdle ∨ Stopped board a) := by
  have hne : g'.gMotorDirection ≠ myCarDirectionIdle := by
    rcases hdir with hd | hd <;> rw [hd] <;> decide
  rw [DirectionDone, if_pos (.inl (hspeed ▸ by decide))] at h
  obtain ⟨hpin, hcase⟩ := h
  by_cases hp : pinDirection (a.pin .m1) = g'.gMotorDirection
  · rw [if_pos hp] at hcase
    subst hcase
    have henc : Encodes board g'.gMotorDirection a' := hp ▸ encodes_pinDirection board hagree
    constructor
    · intro hd
      refine ⟨henc, ?_⟩
      by_contra hn
      rw [not_or, not_not] at hn
      apply hn.2
      intro m
      rw [hd.straight (hturn.trans hn.1) m, if_pos hspeed]
    · rintro ⟨-, hrest⟩
      refine ⟨fun hidle m => ?_, fun hnidle => ?_, fun _ => henc⟩
      · rw [if_pos hspeed]
        exact hrest.resolve_left (not_not.mpr (hturn ▸ hidle)) m
      · rw [hturn, hlevel] at *
        exact hq.turning hnidle
  · have hmiss : ∀ b : Actuators, b.pin = a.pin → ¬ Encodes board g'.gMotorDirection b := by
      intro b hb henc
      apply hp
      rw [← hb]
      exact pinDirection_of_encodes board hdir henc
    exact ⟨fun hd => absurd (hd.direction hne) (hmiss a' hpin),
      fun hd => absurd hd.1 (hmiss a rfl)⟩

/-- A turn is reported rightly from level 1 on. -/
theorem describes_turn {g' : Globals} {y : Stray} (hq : Describes g a) (hpin : a'.pin = a.pin)
    (hdir : g'.gMotorDirection = g.gMotorDirection) (hturn : g'.gMotorTurnDirection ≠ myTurnIdle)
    (h3 : g'.gMotorTurnLevel ≤ 3)
    (h : TurnPattern (turnRoles board g'.gMotorTurnDirection a) (turnInner y g'.gMotorTurnLevel)
      a') :
    Describes g' a' ↔ 1 ≤ g'.gMotorTurnLevel := by
  constructor
  · exact fun hd => (hd.turning hturn).1.1
  · intro h1
    refine ⟨fun hidle => absurd hidle hturn, fun _ => ⟨⟨h1, h3⟩, ?_⟩, fun hne => ?_⟩
    · rw [← turnInner_eq h1 h3 y, turnRoles, hpin]
      exact h
    · rw [hdir] at hne ⊢
      exact Eq.trans hpin (hq.direction hne)

theorem describes_stop (hg : g.gMotorDirection = myCarDirectionIdle)
    (hs : g.gMotorSpeedLevel = 0) (ht : g.gMotorTurnDirection = myTurnIdle)
    (h : Stopped board a') : Describes g a' :=
  ⟨fun _ m => by rw [if_pos hs]; exact h m, fun hn => absurd ht hn, fun hn => absurd hg hn⟩

/-! ## One accepted frame -/

theorem direction_of_range {d : UInt8} (h1 : 1 ≤ d) (h2 : d ≤ 2) :
    d = myCarDirectionForward ∨ d = myCarDirectionBackward := by
  rw [UInt8.le_iff_toNat_le] at h1 h2
  simp only [UInt8.reduceToNat] at h1 h2
  have hcases : d.toNat = 1 ∨ d.toNat = 2 := by omega
  rcases hcases with h | h
  · exact .inl (UInt8.toNat_inj.mp h)
  · exact .inr (UInt8.toNat_inj.mp h)

theorem speed_in_range {l : UInt8} (h0 : l ≠ 0) (h5 : l ≤ 5) : ¬ (l < 1 ∨ l > 5) := by
  have hpos : l.toNat ≠ 0 := fun h => h0 (UInt8.toNat_inj.mp h)
  rw [UInt8.le_iff_toNat_le] at h5
  rw [gt_iff_lt, UInt8.lt_iff_toNat_lt, UInt8.lt_iff_toNat_lt]
  simp only [UInt8.reduceToNat] at h5 ⊢
  omega

/-- The drive command, with the globals and registers it finds. -/
theorem drive_iff {s : Mcu} (h : LoopInv s) (hq : Describes s.globals s.drive.act) {y : Stray}
    {dir speed : UInt8} (hd : 1 ≤ dir ∧ dir ≤ 2) (hs : speed ≤ 5) :
    ∃ d, myMotorControlTask board y { s.globals with
          gMotorDirection := dir
          gMotorSpeedLevel := speed
          gControlMotorFlag := .direction } s.drive =
        some ({ s.globals with
          gMotorDirection := dir
          gMotorSpeedLevel := speed
          gControlMotorFlag := .idle }, d) ∧
      (Describes { s.globals with
          gMotorDirection := dir
          gMotorSpeedLevel := speed
          gControlMotorFlag := .idle } d.act ↔
        if speed = 0 then Encodes board dir s.drive.act ∧
          (s.globals.gMotorTurnDirection ≠ myTurnIdle ∨ Stopped board s.drive.act)
        else s.globals.gMotorTurnDirection = myTurnIdle) := by
  obtain ⟨d, ht, -, -, hdone⟩ := task_direction board y
    (g := { s.globals with
      gMotorDirection := dir, gMotorSpeedLevel := speed, gControlMotorFlag := .direction })
    rfl (.inl h.agree) h.stoppable
  refine ⟨d, ht, ?_⟩
  by_cases hz : speed = 0
  · rw [if_pos hz]
    exact describes_halt hq h.agree rfl rfl hz (direction_of_range hd.1 hd.2) hdone
  · rw [if_neg hz]
    exact describes_drive (speed_in_range hz hs) hdone

/-- The turn command. -/
theorem turn_iff {s : Mcu} (hq : Describes s.globals s.drive.act) {y : Stray} {turn level : UInt8}
    (ht : turn ≠ myTurnIdle) (h3 : level ≤ 3) :
    ∃ d, myMotorControlTask board y { s.globals with
          gMotorTurnDirection := turn
          gMotorTurnLevel := level
          gControlMotorFlag := .turn } s.drive =
        some ({ s.globals with
          gMotorTurnDirection := turn
          gMotorTurnLevel := level
          gControlMotorFlag := .idle }, d) ∧
      (Describes { s.globals with
          gMotorTurnDirection := turn
          gMotorTurnLevel := level
          gControlMotorFlag := .idle } d.act ↔ 1 ≤ level) := by
  obtain ⟨d, htask, hw, -, -, hp⟩ := task_turn board y
    (g := { s.globals with
      gMotorTurnDirection := turn, gMotorTurnLevel := level, gControlMotorFlag := .turn })
    rfl h3 s.drive
  exact ⟨d, htask, describes_turn hq hw.pin_eq.1 rfl ht h3 hp⟩

/-- What one accepted frame does to a faithful report. -/
theorem step_reports {s : Mcu} (h : LoopInv s) (hq : Reports s) {e : Burst} (ha : Accepts s e) :
    ∃ t, step s e = some t ∧ (Reports t ↔ KeepsReport s e) := by
  have hq' := (reports_iff s).mp hq
  have hg := analysis_globals e.stray s e.bytes
  rw [if_pos ha.1, controlProtocolAnalysis] at hg
  simp only [KeepsReport, reports_iff]
  rcases ha.2 with (⟨h1, hv⟩ | ⟨h23, hv⟩ | h5) | h4
  · rw [control_drive _ _ h1 hv] at hg
    obtain ⟨hdir, hsp⟩ := of_decide_eq_true hv
    obtain ⟨d, ht, hiff⟩ := drive_iff h hq' (y := e.stray) hdir hsp
    obtain ⟨t, hstep, hgt, hdt⟩ := step_of_task hg ht
    refine ⟨t, hstep, ?_⟩
    rw [hgt, hdt, hiff]
    simp [h1]
  · have hl := of_decide_eq_true hv
    have hturn : ∀ turn, turn ≠ myTurnIdle →
        (myMotorControlProtocolAnalysis e.stray (s.after e.bytes)).globals =
          (controlTurn turn e.stray s.globals (rxRead e.stray (receive e.bytes s.rx))).1 →
        ∃ t, step s e = some t ∧ (Describes t.globals t.drive.act ↔
          1 ≤ rxRead e.stray (receive e.bytes s.rx) 4) := by
      intro turn hne hturn
      rw [controlTurn_valid _ _ hv] at hturn
      obtain ⟨d, ht, hiff⟩ := turn_iff hq' (y := e.stray) hne hl
      obtain ⟨t, hstep, hgt, hdt⟩ := step_of_task hturn ht
      exact ⟨t, hstep, by rw [hgt, hdt, hiff]⟩
    have h1 : rxRead e.stray (receive e.bytes s.rx) 3 ≠ 0xA1 := by
      rcases h23 with h | h <;> rw [h] <;> decide
    simp only [h1, false_implies, h23, true_implies, true_and]
    rcases h23 with h2 | h3
    · exact hturn myTurnLeft (by decide) (control_A2 _ _ h2 ▸ hg)
    · exact hturn myTurnRight (by decide) (control_A3 _ _ h3 ▸ hg)
  · rw [control_stop _ _ h5] at hg
    obtain ⟨d, ht, -, hstop⟩ := task_stop board e.stray
      (g := { mySetCarStopFunc s.globals with gControlMotorFlag := .stop }) rfl h.stoppable
    obtain ⟨t, hstep, hgt, hdt⟩ := step_of_task hg ht
    refine ⟨t, hstep, ?_⟩
    rw [hgt, hdt]
    simp only [h5]
    exact ⟨fun _ => by simp, fun _ => describes_stop rfl rfl rfl hstop⟩
  · rw [control_report _ _ h4] at hg
    obtain ⟨t, hstep, hgt, hdt⟩ := step_of_task hg (task_idle board e.stray h.idle s.drive)
    refine ⟨t, hstep, ?_⟩
    rw [hgt, hdt]
    simp only [h4]
    exact ⟨fun _ => by simp, fun _ => hq'⟩

/-- For every run of accepted frames from boot: the report is faithful at every loop
head exactly when every frame of the run keeps it. -/
theorem report_faithful_iff {es : List Burst} (ha : Along step Accepts boot es) :
    Always step Reports boot es ↔ Along step KeepsReport boot es := by
  refine always_iff_along (I := fun s => LoopInv s ∧ Reports s) (fun _ h => h.2) ?_
    ⟨boot_loopInv, boot_reports⟩ ha
  intro s e ⟨h, hq⟩ hacc
  obtain ⟨t, ht, hiff⟩ := step_reports h hq hacc
  exact ⟨t, ht, hiff, fun hk => ⟨step_loopInv s e t h ht, hiff.mpr hk⟩⟩

/-- `AA AA 06 A2 01 5C`, a turn at level 1. -/
def turnFrame : Burst := ⟨[0xAA, 0xAA, 0x06, 0xA2, 0x01, 0x5C], Stray.blank⟩

/-- `AA AA 07 A1 01 03 5A`, forward at speed 3. -/
def driveFrame : Burst := ⟨[0xAA, 0xAA, 0x07, 0xA1, 0x01, 0x03, 0x5A], Stray.blank⟩

theorem turnFrame_accepts (s : Mcu) : Accepts s turnFrame :=
  accepts_of_documented (by decide) s

theorem driveFrame_accepts (s : Mcu) : Accepts s driveFrame :=
  accepts_of_documented (by decide) s

theorem report_faithful_iff_drive :
    Always step Reports boot [driveFrame] ↔ Along step KeepsReport boot [driveFrame] :=
  report_faithful_iff ⟨driveFrame_accepts boot, fun _ _ => trivial⟩

theorem turnFrame_step :
    ∃ t, step boot turnFrame = some t ∧ t.globals.gMotorTurnDirection = myTurnLeft := by
  have hacc := turnFrame_accepts boot
  have hg := analysis_globals turnFrame.stray boot turnFrame.bytes
  rw [if_pos hacc.1, controlProtocolAnalysis, control_A2 _ _ (by decide),
    controlTurn_valid _ _ (by decide)] at hg
  obtain ⟨d, ht, -⟩ := turn_iff (s := boot) ((reports_iff boot).mp boot_reports)
    (y := turnFrame.stray) (show myTurnLeft ≠ myTurnIdle by decide)
    (show (0x01 : UInt8) ≤ 3 by decide)
  obtain ⟨t, hstep, hgt, -⟩ := step_of_task hg ht
  exact ⟨t, hstep, by rw [hgt]⟩

/-- Driving straight after a turn is reported as turning. -/
theorem turn_then_drive_misreported :
    ¬ ∀ es : List Burst, Along step Accepts boot es → Always step Reports boot es := by
  intro hall
  have hrun := hall [turnFrame, driveFrame]
    ⟨turnFrame_accepts boot, fun t _ => ⟨driveFrame_accepts t, fun _ _ => trivial⟩⟩
  obtain ⟨t, ht, hturn⟩ := turnFrame_step
  obtain ⟨hreports, hnext⟩ := hrun.2 t ht
  obtain ⟨u, hu, hiff⟩ :=
    step_reports (step_loopInv _ _ _ boot_loopInv ht) hreports (driveFrame_accepts t)
  have hkeeps := (hiff.mp (hnext u hu)).1 rfl
  rw [if_neg (by exact (by decide : (0x03 : UInt8) ≠ 0)), hturn] at hkeeps
  exact absurd hkeeps (by decide)

end BleCar.F103.Report
