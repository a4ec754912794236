import BleCar.F103.Firmware

/-!
# The F103 firmware never reverses a driven motor

`LoopInv` links the globals, the direction pins and the compare values at the loop
head. Every burst keeps it, whatever its bytes, and from it every pass of the main
loop ends and makes only safe writes.
-/

namespace BleCar.F103.Direction

open BleCar.Lib.Runs
open BleCar.Motion.Hardware
open BleCar.Motion.Routines
open BleCar.Protocol.Control
open BleCar.Protocol.Buffer
open BleCar.F103.Firmware

structure LoopInv (s : Mcu) : Prop where
  range : InRange s.globals
  idle : s.globals.gControlMotorFlag = .idle
  agree : Agree board s.drive.act
  stoppable : Stoppable board s.drive.act

theorem boot_loopInv : LoopInv boot :=
  ⟨boot_inRange, rfl, .inl (funext fun _ => rfl), .inl fun _ => rfl⟩

theorem analysis_inRange {s : Mcu} (h : InRange s.globals) (y : Stray) (b : List UInt8) :
    InRange (myMotorControlProtocolAnalysis y (s.after b)).globals := by
  rw [analysis_globals]
  split
  · exact control_inRange y h _
  · exact h

/-- One burst and one pass of the loop: it ends, writes safely, and is back at the head
with the invariant. -/
theorem step_spec {s : Mcu} (h : LoopInv s) (e : Burst) :
    ∃ t, step s e = some t ∧ LoopInv t ∧ Wrote (SafeWrite board) s.drive t.drive := by
  have hr : InRange (myMotorControlProtocolAnalysis e.stray (s.after e.bytes)).globals :=
    analysis_inRange h.range e.stray e.bytes
  obtain ⟨d, ht, hw, hs, hkeep, -⟩ :=
    task_spec board e.stray (.inl h.agree) h.stoppable fun _ => h.agree
  obtain ⟨t, hstep, hg, hd⟩ := step_of_task rfl ht
  refine ⟨t, hstep, ⟨?_, ?_, hd ▸ hkeep h.agree, hd ▸ hs⟩, hd ▸ hw⟩
  · rw [hg]
    exact ⟨hr.direction, hr.speed, hr.turnLevel, hr.no_direction⟩
  · rw [hg]

theorem step_loopInv (s : Mcu) (e : Burst) (t : Mcu) (h : LoopInv s) (ht : step s e = some t) :
    LoopInv t := by
  obtain ⟨u, hu, hinv, -⟩ := step_spec h e
  rw [hu] at ht
  exact Option.some.inj ht ▸ hinv

/-- Every run of bursts from boot can be made and ends at the loop head. -/
theorem run_boot (es : List Burst) : ∃ s, run step boot es = some s :=
  exists_run step_loopInv
    (fun _ e h => let ⟨t, ht, _⟩ := step_spec h e; ⟨t, ht⟩) boot_loopInv es

theorem run_loopInv {s : Mcu} {es : List Burst} (h : run step boot es = some s) : LoopInv s :=
  last_of_step step_loopInv boot_loopInv h

/-- All writes logged so far were safe. -/
def SafeLog (s : Mcu) : Prop := ∀ p ∈ s.drive.log, SafeWrite board p.1 p.2

theorem step_safeLog (s : Mcu) (e : Burst) (t : Mcu) (h : LoopInv s ∧ SafeLog s)
    (ht : step s e = some t) : LoopInv t ∧ SafeLog t := by
  obtain ⟨u, hu, hinv, hw⟩ := step_spec h.1 e
  rw [hu] at ht
  obtain rfl := Option.some.inj ht
  exact ⟨hinv, hw.log_forall h.2⟩

theorem run_safeLog {s : Mcu} {es : List Burst} (h : run step boot es = some s) : SafeLog s :=
  (last_of_step step_safeLog
    ⟨boot_loopInv, fun _ hp => absurd hp List.not_mem_nil⟩ h).2

/-- For every sequence of bursts: each pass of the main loop ends, a direction pin
changes level only while all three compare values are 0, and at the loop head the pins
encode one direction. -/
theorem never_reverses_driven (es : List Burst) :
    ∃ s, run step boot es = some s ∧
      (∀ p ∈ s.drive.log, ∀ m l, p.2 = .pin m l → p.1.pin m ≠ l →
        p.1.ccr .ch1 = 0 ∧ p.1.ccr .ch2 = 0 ∧ p.1.ccr .ch3 = 0) ∧
      ∃ dir, (dir = myCarDirectionForward ∨ dir = myCarDirectionBackward) ∧
        ∀ m, s.drive.act.pin m = board.dirLevel m dir := by
  obtain ⟨s, hs⟩ := run_boot es
  refine ⟨s, hs, ?_, ?_⟩
  · intro p hp m l hw hne
    have hstop := (run_safeLog hs p hp).2 m l hw hne
    exact ⟨hstop .m1, hstop .m2, hstop .m3⟩
  · rcases (run_loopInv hs).agree with h | h
    · exact ⟨_, .inl rfl, congrFun h⟩
    · exact ⟨_, .inr rfl, congrFun h⟩

end BleCar.F103.Direction
