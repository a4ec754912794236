import BleCar.F103.Direction

/-!
# Refused commands

The parser arms `g_ControlMotorFlag` for A1, A2 and A3 before it is known whether the
parameters pass, so a frame answered with status 1 makes the task obey the remembered
globals once more. `Settled` says when that changes nothing.
-/

namespace BleCar.F103.Refusal

open BleCar.Lib.Runs
open BleCar.Motion.Hardware
open BleCar.Motion.Routines
open BleCar.Protocol.Control hiding controlProtocolAnalysis
open BleCar.Protocol.Buffer
open BleCar.F103.Firmware
open BleCar.F103.Direction

/-- The frame is answered with status 1. -/
def ParamsRefused (data : Nat → UInt8) : Prop :=
  (data 3 = 0xA1 ∧ driveValid data = false) ∨
    ((data 3 = 0xA2 ∨ data 3 = 0xA3) ∧ turnValid data = false)

/-- The parser does not accept what the buffer holds. -/
def Refused (y : Stray) (r : Rx) : Prop :=
  ¬ Dispatches y r ∨ UnknownID (rxRead y r) ∨ ParamsRefused (rxRead y r)

def SameRegisters (a a' : Actuators) : Prop :=
  a'.pin = a.pin ∧ ∀ m, a'.ccr (board.chan m) = a.ccr (board.chan m)

structure Inert (s t : Mcu) : Prop where
  motor : SameMotor s.globals t.globals
  registers : SameRegisters s.drive.act t.drive.act

/-- The registers already show what the remembered drive command asks for; with no
speed remembered, only the remembered direction or a standstill counts. -/
def DriveSettled (g : Globals) (a : Actuators) : Prop :=
  if g.gMotorSpeedLevel < 1 ∨ g.gMotorSpeedLevel > 5 then
    pinDirection (a.pin .m1) = g.gMotorDirection ∨ Stopped board a
  else
    Encodes board g.gMotorDirection a ∧
      ∀ m, a.ccr (board.chan m) = UInt16.ofNat (dutyOf g.gMotorSpeedLevel)

/-- The registers already show the remembered turn. -/
def TurnSettled (y : Stray) (g : Globals) (a : Actuators) : Prop :=
  TurnPattern (turnRoles board g.gMotorTurnDirection a) (turnInner y g.gMotorTurnLevel) a

/-- The condition under which the refused frame in `r` changes nothing. -/
def Settled (y : Stray) (s : Mcu) (r : Rx) : Prop :=
  Dispatches y r →
    (rxRead y r 3 = 0xA1 → DriveSettled s.globals s.drive.act) ∧
      (rxRead y r 3 = 0xA2 ∨ rxRead y r 3 = 0xA3 → TurnSettled y s.globals s.drive.act)

/-! ## What the parser does with a refused frame -/

variable (y : Stray) (g : Globals) {data : Nat → UInt8}

theorem control_refused_turn (h : data 3 = 0xA2 ∨ data 3 = 0xA3) (hv : turnValid data = false) :
    (controlProtocolAnalysis y g data).1 = { g with gControlMotorFlag := .turn } := by
  rw [controlProtocolAnalysis]
  rcases h with h | h
  · rw [control_A2 y g h, controlTurn_refused y g hv]
  · rw [control_A3 y g h, controlTurn_refused y g hv]

/-! ## What the task then does to the registers -/

theorem sameRegisters_direction {a a' : Actuators} (h : DirectionDone board g a a') :
    SameRegisters a a' ↔ DriveSettled g a := by
  unfold DirectionDone at h
  unfold DriveSettled SameRegisters
  split at h
  case isTrue hl =>
    obtain ⟨hpin, hccr⟩ := h
    rw [if_pos hl]
    by_cases hd : pinDirection (a.pin .m1) = g.gMotorDirection
    · rw [if_pos hd] at hccr
      simp [hd, hccr]
    · rw [if_neg hd] at hccr
      constructor
      · exact fun ⟨_, hs⟩ => .inr fun m => (hs m).symm.trans (hccr m)
      · exact fun hs => ⟨hpin, fun m => (hccr m).trans ((hs.resolve_left hd) m).symm⟩
  case isFalse hl =>
    obtain ⟨hpin, hccr⟩ := h
    rw [if_neg hl]
    constructor
    · exact fun ⟨hp, hs⟩ => ⟨hp.symm.trans hpin, fun m => (hs m).symm.trans (hccr m)⟩
    · exact fun ⟨hp, hs⟩ => ⟨Eq.trans hpin hp.symm, fun m => (hccr m).trans (hs m).symm⟩

theorem sameRegisters_turn {a a' : Actuators} {t c : UInt8} {inner : Nat} (hpin : a'.pin = a.pin)
    (h : TurnPattern (board.roles t c) inner a') :
    SameRegisters a a' ↔ TurnPattern (board.roles t c) inner a := by
  obtain ⟨⟨f, hf⟩, ⟨o, ho⟩, ⟨i, hi⟩⟩ := roles_driven board t c
  constructor
  · rintro ⟨-, hs⟩
    refine ⟨?_, ?_, ?_⟩
    · rw [← h.1, ← hf, hs]
    · rw [← h.2.1, ← ho, hs]
    · rw [← h.2.2, ← hi, hs]
  · intro ha
    refine ⟨hpin, fun m => ?_⟩
    rcases board.roles_cover t c m with hm | hm | hm
    · rw [hm, h.1, ha.1]
    · rw [hm, h.2.1, ha.2.1]
    · rw [hm, h.2.2, ha.2.2]

theorem inert_of_globals {s t : Mcu} {f : ControlMotor}
    (h : t.globals = { s.globals with gControlMotorFlag := f }) :
    Inert s t ↔ SameRegisters s.drive.act t.drive.act :=
  ⟨Inert.registers, fun hs => ⟨h ▸ SameMotor.withFlag s.globals f, hs⟩⟩

/-- A pass whose parser leaves the globals alone leaves everything alone. -/
theorem step_ignored {s : Mcu} (h : LoopInv s) {e : Burst}
    (hg : (myMotorControlProtocolAnalysis e.stray (s.after e.bytes)).globals = s.globals) :
    ∃ t, step s e = some t ∧ Inert s t := by
  have ht := task_idle board e.stray (h.idle) s.drive
  obtain ⟨t, hstep, hgt, hdt⟩ := step_of_task hg ht
  refine ⟨t, hstep, (inert_of_globals (f := s.globals.gControlMotorFlag) hgt).mpr ?_⟩
  rw [hdt]
  exact ⟨rfl, fun _ => rfl⟩

/-- What one pass of the loop does with a refused burst, from any loop head. -/
theorem step_refused {s : Mcu} (h : LoopInv s) {e : Burst}
    (hr : Refused e.stray (receive e.bytes s.rx)) :
    ∃ t, step s e = some t ∧ (Inert s t ↔ Settled e.stray s (receive e.bytes s.rx)) := by
  have hg := analysis_globals e.stray s e.bytes
  by_cases hd : Dispatches e.stray (receive e.bytes s.rx)
  · rw [if_pos hd] at hg
    rcases hr with hn | hu | ⟨h1, hv⟩ | ⟨h23, hv⟩
    · exact absurd hd hn
    · rw [controlProtocolAnalysis, control_unknown e.stray s.globals hu] at hg
      obtain ⟨t, ht, hi⟩ := step_ignored h hg
      obtain ⟨n1, n2, n3, -, -⟩ := hu
      exact ⟨t, ht, fun _ _ => ⟨fun h => absurd h n1, fun h => (h.elim n2 n3).elim⟩, fun _ => hi⟩
    · rw [controlProtocolAnalysis, control_drive_refused e.stray s.globals h1 hv] at hg
      obtain ⟨d, ht, -, -, hdone⟩ :=
        task_direction board e.stray (g := { s.globals with gControlMotorFlag := .direction })
          rfl (.inl h.agree) h.stoppable
      obtain ⟨t, hstep, hgt, hdt⟩ := step_of_task hg ht
      refine ⟨t, hstep, ?_⟩
      rw [inert_of_globals hgt, hdt, sameRegisters_direction _ hdone]
      simp [Settled, hd, h1, DriveSettled]
    · rw [control_refused_turn e.stray s.globals h23 hv] at hg
      obtain ⟨d, ht, hw, -, -, hdone⟩ :=
        task_turn board e.stray (g := { s.globals with gControlMotorFlag := .turn })
          rfl h.range.turnLevel s.drive
      obtain ⟨t, hstep, hgt, hdt⟩ := step_of_task hg ht
      refine ⟨t, hstep, ?_⟩
      have h1 : rxRead e.stray (receive e.bytes s.rx) 3 ≠ 0xA1 := by
        rcases h23 with h | h <;> rw [h] <;> decide
      rw [inert_of_globals hgt, hdt, sameRegisters_turn hw.pin_eq.1 hdone]
      simp [Settled, hd, h1, h23, TurnSettled, turnRoles]
  · rw [if_neg hd] at hg
    obtain ⟨t, ht, hi⟩ := step_ignored h hg
    exact ⟨t, ht, fun _ hd' => absurd hd' hd, fun _ => hi⟩

/-- For every loop head reached from boot and every burst refused there: the pass ends,
and it changes nothing exactly when the frame does not arm the task or the registers
already show what the remembered globals ask for. -/
theorem refused_inert_iff {es : List Burst} {s : Mcu} (hs : run step boot es = some s) {e : Burst}
    (hr : Refused e.stray (receive e.bytes s.rx)) :
    ∃ t, step s e = some t ∧ (Inert s t ↔ Settled e.stray s (receive e.bytes s.rx)) :=
  step_refused (run_loopInv hs) hr

/-- A2 with level 4, which the parser answers with status 1. -/
def badTurn : Burst := ⟨[0xAA, 0xAA, 0x06, 0xA2, 0x04, 0x59], Stray.blank⟩

theorem badTurn_dispatches : Dispatches badTurn.stray (receive badTurn.bytes Rx.boot) := by decide

theorem badTurn_refused : Refused badTurn.stray (receive badTurn.bytes boot.rx) :=
  .inr (.inr (.inr (by decide)))

theorem refused_inert_iff_badTurn :
    ∃ t, step boot badTurn = some t ∧
      (Inert boot t ↔ Settled badTurn.stray boot (receive badTurn.bytes boot.rx)) :=
  refused_inert_iff (show run step boot [] = some boot from rfl) badTurn_refused

/-- The first frame after boot, refused, starts the motors. -/
theorem badTurn_starts_car :
    ¬ ∀ (es : List Burst) (s : Mcu), run step boot es = some s → ∀ e : Burst,
      Refused e.stray (receive e.bytes s.rx) → ∀ t, step s e = some t → Inert s t := by
  intro h
  obtain ⟨t, ht, hiff⟩ := step_refused boot_loopInv badTurn_refused
  have hsettled := hiff.mp (h [] boot rfl badTurn badTurn_refused t ht)
  have hturn := (hsettled badTurn_dispatches).2 (.inl (by decide))
  exact absurd hturn.1 (by decide)

end BleCar.F103.Refusal
