import BleCar.L151.Firmware

/-!
# The wheels of the L151 car

`MX_GPIO_Init` sets all three direction pins, which on the inverted second motor is the
other direction. Until a drive command has written the pins, only a standstill keeps the
wheels from working against each other, and a turn command drives off without looking.
-/

namespace BleCar.L151.Wheels

open BleCar.Lib.Runs
open BleCar.Motion.Hardware
open BleCar.Motion.Routines
open BleCar.Protocol.Frames
open BleCar.Protocol.Control hiding controlProtocolAnalysis
open BleCar.Protocol.Buffer
open BleCar.L151.Firmware

/-- The bursts of the protocol: shorter than the buffer, and not empty. -/
def Sized (_ : Mcu) (e : Burst) : Prop := 1 ≤ e.bytes.length ∧ e.bytes.length ≤ 255

/-- At every write so far, and now, a driven car had its pins in agreement, and no pin
changed level while a motor was driven. -/
structure WheelsAgree (s : Mcu) : Prop where
  log : ∀ p ∈ s.drive.log, SafeWrite board p.1 p.2
  now : ¬ Stopped board s.drive.act → Agree board s.drive.act

/-- A turn command with a right checksum finds the pins in agreement. -/
def TurnsAgreed (s : Mcu) (e : Burst) : Prop :=
  Sound e.bytes → bytesAt e.bytes 3 = 0xA2 ∨ bytesAt e.bytes 3 = 0xA3 → Agree board s.drive.act

structure LoopInv (s : Mcu) : Prop where
  range : InRange s.globals
  idle : s.globals.gControlMotorFlag = .idle
  wheels : Agree board s.drive.act ∨ Stopped board s.drive.act
  stoppable : Stoppable board s.drive.act
  log : ∀ p ∈ s.drive.log, SafeWrite board p.1 p.2

theorem boot_loopInv : LoopInv boot :=
  ⟨boot_inRange, rfl, .inr fun _ => rfl, .inl fun _ => rfl, fun _ hp => absurd hp List.not_mem_nil⟩

theorem LoopInv.wheelsAgree {s : Mcu} (h : LoopInv s) : WheelsAgree s :=
  ⟨h.log, fun hn => h.wheels.resolve_right hn⟩

/-- The pins after reset do not encode a direction. -/
theorem boot_disagrees : ¬ Agree board bootActuators := by
  rintro (h | h)
  · exact absurd (congrFun h .m1) (by decide)
  · exact absurd (congrFun h .m2) (by decide)

/-- The globals the task finds after the burst. -/
def globalsAfter (s : Mcu) (e : Burst) : Globals :=
  if Sound e.bytes then (controlProtocolAnalysis e.stray s.globals (bytesAt e.bytes)).1
  else s.globals

theorem globalsAfter_inRange {s : Mcu} (h : InRange s.globals) (e : Burst) :
    InRange (globalsAfter s e) := by
  unfold globalsAfter
  split
  · exact control_inRange _ h _
  · exact h

/-- The task turns exactly after a sound A2 or A3. -/
theorem globalsAfter_turn {s : Mcu} (h : s.globals.gControlMotorFlag = .idle) (e : Burst) :
    (globalsAfter s e).gControlMotorFlag = .turn ↔
      Sound e.bytes ∧ (bytesAt e.bytes 3 = 0xA2 ∨ bytesAt e.bytes 3 = 0xA3) := by
  unfold globalsAfter
  by_cases hs : Sound e.bytes
  · rw [if_pos hs, controlProtocolAnalysis, control_flag _ _ h]
    split_ifs with h1 h23 h5
    · simp [hs, h1]
    · simp [hs, h23]
    · simp [hs, h5]
    · simp [h23]
  · simp [hs, h]

/-- One burst and one pass of the loop. -/
theorem step_wheels {s : Mcu} (h : LoopInv s) {e : Burst} (he : Sized s e) :
    ∃ t, step s e = some t ∧ (WheelsAgree t ↔ TurnsAgreed s e) ∧ (TurnsAgreed s e → LoopInv t) := by
  have hr := globalsAfter_inRange h.range e
  have hflag := globalsAfter_turn h.idle e
  by_cases hp : TurnsAgreed s e
  · obtain ⟨d, ht, hw, hs, -, hwheels⟩ := task_spec board e.stray h.wheels h.stoppable
      fun hf => hp (hflag.mp hf).1 (hflag.mp hf).2
    obtain ⟨t, hstep, hg, hd⟩ := step_of_task he.1 he.2 rfl ht
    have hinv : LoopInv t := by
      refine ⟨?_, by rw [hg], hd ▸ hwheels, hd ▸ hs, hd ▸ hw.log_forall h.log⟩
      rw [hg]
      exact ⟨hr.direction, hr.speed, hr.turnLevel, hr.no_direction⟩
    exact ⟨t, hstep, ⟨fun _ => hp, fun _ => hinv.wheelsAgree⟩, fun _ => hinv⟩
  · have hcase : Sound e.bytes ∧ (bytesAt e.bytes 3 = 0xA2 ∨ bytesAt e.bytes 3 = 0xA3) ∧
        ¬ Agree board s.drive.act := by
      simpa only [TurnsAgreed, Classical.not_imp] using hp
    obtain ⟨hsound, hid, hno⟩ := hcase
    obtain ⟨d, ht, hw, -, hrun, -⟩ :=
      task_turn board e.stray (hflag.mpr ⟨hsound, hid⟩) hr.turnLevel s.drive
    obtain ⟨t, hstep, hg, hd⟩ := step_of_task he.1 he.2 rfl ht
    refine ⟨t, hstep, ⟨fun hq => ?_, fun h => absurd h hp⟩, fun h => absurd h hp⟩
    have hagree := hq.now (hd ▸ hrun)
    rw [hd] at hagree
    unfold Agree Encodes at hagree hno
    rw [hw.pin_eq.1] at hagree
    exact absurd hagree hno

/-- For every run of bursts from reset: the wheels of the driven car agree throughout,
and no pin changes under drive, exactly when every turn command with a right checksum
finds the pins in agreement. -/
theorem wheels_agree_iff {es : List Burst} (hes : Along step Sized boot es) :
    Always step WheelsAgree boot es ↔ Along step TurnsAgreed boot es :=
  always_iff_along (fun _ h => h.wheelsAgree) (fun _ _ h he => step_wheels h he) boot_loopInv hes

/-- `AA AA 07 A1 01 03 5A`. -/
def driveFrame : Burst := ⟨[0xAA, 0xAA, 0x07, 0xA1, 0x01, 0x03, 0x5A], Stray.blank⟩

/-- `AA AA 06 A2 01 5C`. -/
def turnFrame : Burst := ⟨[0xAA, 0xAA, 0x06, 0xA2, 0x01, 0x5C], Stray.blank⟩

theorem wheels_agree_iff_drive :
    Always step WheelsAgree boot [driveFrame] ↔ Along step TurnsAgreed boot [driveFrame] :=
  wheels_agree_iff ⟨⟨by decide, by decide⟩, fun _ _ => trivial⟩

/-- A turn as the first command drives the wheels against each other. -/
theorem first_turn_disagrees :
    ¬ ∀ es : List Burst, Along step Sized boot es → Always step WheelsAgree boot es := by
  intro h
  have hsized : Sized boot turnFrame := ⟨by decide, by decide⟩
  have hall := h [turnFrame] ⟨hsized, fun _ _ => trivial⟩
  obtain ⟨t, ht, hiff, -⟩ := step_wheels boot_loopInv hsized
  exact boot_disagrees (hiff.mp (hall.2 t ht) (by decide) (.inl rfl))

end BleCar.L151.Wheels
