import BleCar.Motion.RoutineSpecs
import BleCar.Protocol.Control

/-!
# One pass of `my_motor_control_task`

The facts about the registers that every command leaves true at the loop head, and
what each value of `g_ControlMotorFlag` makes the task do from there.
-/

namespace BleCar.Motion.Routines

open BleCar.Motion.Hardware
open BleCar.Protocol.Control

variable (B : Board) (y : Stray)

/-- The three direction pins encode the direction `dir`. -/
def Encodes (dir : UInt8) (a : Actuators) : Prop := a.pin = dirPins B dir

/-- The three direction pins encode one direction. -/
def Agree (a : Actuators) : Prop :=
  Encodes B myCarDirectionForward a ∨ Encodes B myCarDirectionBackward a

/-- The compare values from which `stop_all_motors_sync(200)` ends. -/
def Stoppable (a : Actuators) : Prop := Stopped B a ∨ ∃ m, 100 ≤ (a.ccr (B.chan m)).toNat

/-- The write is harmless: a driven car has its pins in agreement, and a pin changes
level only at a standstill. -/
def SafeWrite (a : Actuators) (w : Write) : Prop :=
  (¬ Stopped B a → Agree B a) ∧ ∀ m l, w = .pin m l → a.pin m ≠ l → Stopped B a

/-! ## Pins -/

theorem dirPins_cases (dir : UInt8) :
    dirPins B dir = dirPins B myCarDirectionForward ∨
      dirPins B dir = dirPins B myCarDirectionBackward := by
  by_cases h : dir = myCarDirectionBackward
  · exact .inr (h ▸ rfl)
  · exact .inl (funext fun m => B.dirLevel_other m dir h)

theorem agree_of_encodes {dir : UInt8} {a : Actuators} (h : Encodes B dir a) : Agree B a := by
  rcases dirPins_cases B dir with hd | hd
  · exact .inl (Eq.trans h hd)
  · exact .inr (Eq.trans h hd)

theorem m1_forward : B.dirLevel .m1 myCarDirectionForward = .reset := by
  have hne := B.dirLevel_ne .m1
  rw [B.m1_backward] at hne
  cases h : B.dirLevel .m1 myCarDirectionForward with
  | reset => rfl
  | set => exact absurd h hne

/-- In agreement, the direction read from the first pin is the one all pins encode. -/
theorem encodes_pinDirection {a : Actuators} (h : Agree B a) :
    Encodes B (pinDirection (a.pin .m1)) a := by
  rcases h with h | h
  · have hp : a.pin .m1 = .reset := (congrFun h .m1).trans (m1_forward B)
    rw [hp]
    exact h
  · have hp : a.pin .m1 = .set := (congrFun h .m1).trans B.m1_backward
    rw [hp]
    exact h

/-- Each of the two directions is read back from the pins that encode it. -/
theorem pinDirection_of_encodes {dir : UInt8} {a : Actuators}
    (hd : dir = myCarDirectionForward ∨ dir = myCarDirectionBackward) (h : Encodes B dir a) :
    pinDirection (a.pin .m1) = dir := by
  rw [congrFun h .m1]
  rcases hd with rfl | rfl
  · rw [dirPins, m1_forward]; rfl
  · rw [dirPins, B.m1_backward]; rfl

/-! ## Roles -/

/-- Three distinct channels cover three motors, so each role is played by a motor. -/
theorem roles_driven (t c : UInt8) :
    (∃ m, B.chan m = (B.roles t c).front) ∧ (∃ m, B.chan m = (B.roles t c).outerRear) ∧
      ∃ m, B.chan m = (B.roles t c).innerRear := by
  have h12 : B.chan .m1 ≠ B.chan .m2 := B.chan_injective.ne (by decide)
  have h13 : B.chan .m1 ≠ B.chan .m3 := B.chan_injective.ne (by decide)
  have h23 : B.chan .m2 ≠ B.chan .m3 := B.chan_injective.ne (by decide)
  have h1 := B.roles_cover t c .m1
  have h2 := B.roles_cover t c .m2
  have h3 := B.roles_cover t c .m3
  grind

theorem stoppable_of_front {r : Roles} {inner : Nat} {a : Actuators} {t c : UInt8}
    (hr : r = B.roles t c) (h : TurnPattern r inner a) : Stoppable B a := by
  obtain ⟨⟨m, hm⟩, -, -⟩ := roles_driven B t c
  refine .inr ⟨m, ?_⟩
  rw [hm, ← hr, h.1]
  decide

/-- A finished turn leaves the motors running. -/
theorem not_stopped_of_turn {r : Roles} {inner : Nat} {a : Actuators} {t c : UInt8}
    (hr : r = B.roles t c) (h : TurnPattern r inner a) : ¬ Stopped B a := by
  obtain ⟨⟨m, hm⟩, -, -⟩ := roles_driven B t c
  intro hs
  have hz := hs m
  rw [hm, ← hr, h.1] at hz
  exact absurd hz (by decide)

/-! ## Safe writes -/

theorem safe_of_compare {d d' : Drive} (h : Wrote IsCompare d d') (ha : Agree B d.act) :
    Wrote (SafeWrite B) d d' := by
  refine h.pin_eq.2.mono fun a w ⟨hpin, hw⟩ => ⟨fun _ => ?_, ?_⟩
  · unfold Agree Encodes
    rw [hpin]
    exact ha
  · rintro m l rfl
    exact hw.elim

/-- At a standstill the direction writes are safe. -/
theorem safe_of_direction_stopped {d d' : Drive} {dir : UInt8} (hs : Stopped B d.act)
    (h : Wrote (IsDirection B d.act.ccr dir) d d') : Wrote (SafeWrite B) d d' := by
  apply h.mono
  intro a w hw
  have hstop : Stopped B a := fun m => by rw [hw.1]; exact hs m
  exact ⟨fun hn => absurd hstop hn, fun _ _ _ _ => hstop⟩

/-- Direction writes that repeat the encoded direction change nothing. -/
theorem safe_of_direction_same {d d' : Drive} {dir : UInt8} (he : Encodes B dir d.act)
    (h : Wrote (IsDirection B d.act.ccr dir) d d') : Wrote (SafeWrite B) d d' := by
  have hinv := h.invariant (I := Encodes B dir) (fun a w ha hw => ?_) he
  · refine hinv.2.mono fun a w ⟨ha, _, m, hm⟩ => ⟨fun _ => agree_of_encodes B ha, ?_⟩
    rintro k l rfl hne
    obtain ⟨rfl, rfl⟩ := Write.pin.inj hm
    exact absurd (congrFun ha k) hne
  · obtain ⟨-, m, rfl⟩ := hw
    change Function.update a.pin m (B.dirLevel m dir) = dirPins B dir
    rw [Function.update_eq_iff]
    exact ⟨rfl, fun k _ => congrFun ha k⟩

/-! ## The three actions of the task -/

theorem myMotorCarStop_spec {d : Drive} (hs : Stoppable B d.act) :
    ∃ d', myMotorCarStop B d = some d' ∧ Wrote IsCompare d d' ∧ Stopped B d'.act := by
  refine stopAllMotorsSync_spec B (hs.imp_right fun ⟨m, hm⟩ => ?_)
  have hle : (d.act.ccr (B.chan m)).toNat ≤ maxPwm B d := le_maxPwm B d m
  have hsteps : decelSteps 200 = 20 := by decide
  omega

/-- `current_car_dir` equals the commanded direction, or the car stands still. -/
def ReadyFor (dir : UInt8) (a : Actuators) : Prop :=
  pinDirection (a.pin .m1) = dir ∨ Stopped B a

theorem motorsSetSpeedSoft_safe {level dir : UInt8} {time : UInt16} {d : Drive}
    (ha : Agree B d.act ∨ Stopped B d.act) (hr : ReadyFor B dir d.act)
    (hl : ¬ (level < 1 ∨ level > 5)) :
    Wrote (SafeWrite B) d (motorsSetSpeedSoft B y level dir time d) := by
  obtain ⟨m, hdir, -, hpin, hcmp, -⟩ := motorsSetSpeedSoft_spec B y hl dir time d
  have hsafe : Wrote (SafeWrite B) d m := by
    by_cases hs : Stopped B d.act
    · exact safe_of_direction_stopped B hs hdir
    · have hagree := ha.resolve_right hs
      have he := encodes_pinDirection B hagree
      rw [hr.resolve_right hs] at he
      exact safe_of_direction_same B he hdir
  exact hsafe.trans (safe_of_compare B hcmp (agree_of_encodes B hpin))

/-- The first half of the DIRECTION branch: stop first unless the pins already say the
commanded direction. -/
theorem stopFirst_spec {g : Globals} {d : Drive} (ha : Agree B d.act ∨ Stopped B d.act)
    (hs : Stoppable B d.act) :
    ∃ d', (if pinDirection (d.act.pin .m1) ≠ g.gMotorDirection then myMotorCarStop B d
        else some d) = some d' ∧
      Wrote (SafeWrite B) d d' ∧ d'.act.pin = d.act.pin ∧ ReadyFor B g.gMotorDirection d'.act ∧
      Stoppable B d'.act ∧
      (if pinDirection (d.act.pin .m1) = g.gMotorDirection then d' = d else Stopped B d'.act) := by
  by_cases hd : pinDirection (d.act.pin .m1) = g.gMotorDirection
  · simp only [hd, ne_eq, not_true_eq_false, if_false, if_true]
    exact ⟨d, rfl, .refl d, rfl, .inl hd, hs, rfl⟩
  · simp only [hd, ne_eq, not_false_eq_true, if_true, if_false]
    by_cases hstop : Stopped B d.act
    · exact ⟨d, stopAllMotorsSync_stopped B hstop 200, .refl d, rfl, .inr hstop, hs, hstop⟩
    · obtain ⟨d', hd', hw, hz⟩ := myMotorCarStop_spec B hs
      exact ⟨d', hd', safe_of_compare B hw (ha.resolve_right hstop), hw.pin_eq.1, .inr hz, .inl hz,
        hz⟩

/-- The registers after the task has obeyed a DIRECTION flag: at a speed level of 1..5
the car drives in the commanded direction at the level's duty; at other levels a change
of direction stops it and nothing else happens. -/
def DirectionDone (g : Globals) (a a' : Actuators) : Prop :=
  if g.gMotorSpeedLevel < 1 ∨ g.gMotorSpeedLevel > 5 then
    a'.pin = a.pin ∧
      (if pinDirection (a.pin .m1) = g.gMotorDirection then a' = a else Stopped B a')
  else
    Encodes B g.gMotorDirection a' ∧
      ∀ m, a'.ccr (B.chan m) = UInt16.ofNat (dutyOf g.gMotorSpeedLevel)

theorem duty_stoppable {level : UInt8} (h : ¬ (level < 1 ∨ level > 5)) {a : Actuators}
    (hc : ∀ m, a.ccr (B.chan m) = UInt16.ofNat (dutyOf level)) : Stoppable B a := by
  obtain ⟨hlo, hhi⟩ := dutyOf_range h
  refine .inr ⟨.m1, ?_⟩
  rw [hc, UInt16.toNat_ofNat_of_lt' (show dutyOf level < 65536 by omega)]
  exact hlo

theorem task_direction {g : Globals} (hf : g.gControlMotorFlag = .direction) {d : Drive}
    (ha : Agree B d.act ∨ Stopped B d.act) (hs : Stoppable B d.act) :
    ∃ d', myMotorControlTask B y g d = some ({ g with gControlMotorFlag := .idle }, d') ∧
      Wrote (SafeWrite B) d d' ∧ Stoppable B d'.act ∧ DirectionDone B g d.act d'.act := by
  obtain ⟨m, hm, hsafe, hpin, hready, hst, hcase⟩ := stopFirst_spec B (g := g) ha hs
  refine ⟨myMotorCarRun B y g.gMotorSpeedLevel g.gMotorDirection m, ?_, ?_⟩
  · simp only [myMotorControlTask, hf]
    rw [hm]
    rfl
  · unfold myMotorCarRun DirectionDone
    by_cases hl : g.gMotorSpeedLevel < 1 ∨ g.gMotorSpeedLevel > 5
    · rw [motorsSetSpeedSoft_idle B y hl, if_pos hl]
      refine ⟨hsafe, hst, hpin, ?_⟩
      split
      case isTrue h => rw [if_pos h] at hcase; rw [hcase]
      case isFalse h => rwa [if_neg h] at hcase
    · rw [if_neg hl]
      obtain ⟨hp, hc⟩ := motorsSetSpeedSoft_final B y hl g.gMotorDirection 0 m
      have ham : Agree B m.act ∨ Stopped B m.act := by
        rcases ha with h | h
        · exact .inl (by unfold Agree Encodes; rw [hpin]; exact h)
        · refine .inr ?_
          split at hcase
          case isTrue => rw [hcase]; exact h
          case isFalse => exact hcase
      exact ⟨hsafe.trans (motorsSetSpeedSoft_safe B y ham hready hl),
        duty_stoppable B hl hc, hp, hc⟩

theorem task_turn {g : Globals} (hf : g.gControlMotorFlag = .turn) (hl : g.gMotorTurnLevel ≤ 3)
    (d : Drive) :
    ∃ d', myMotorControlTask B y g d = some ({ g with gControlMotorFlag := .idle }, d') ∧
      Wrote IsCompare d d' ∧ Stoppable B d'.act ∧ ¬ Stopped B d'.act ∧
      TurnPattern (turnRoles B g.gMotorTurnDirection d.act) (turnInner y g.gMotorTurnLevel)
        d'.act := by
  have hl' : ¬ g.gMotorTurnLevel > 3 := UInt8.not_lt.mpr hl
  obtain ⟨hw, hp⟩ := carTurnSoft_spec B y hl' g.gMotorTurnDirection 0 d
  exact ⟨_, by simp only [myMotorControlTask, hf], hw, stoppable_of_front B rfl hp,
    not_stopped_of_turn B rfl hp, hp⟩

theorem task_stop {g : Globals} (hf : g.gControlMotorFlag = .stop) {d : Drive}
    (hs : Stoppable B d.act) :
    ∃ d', myMotorControlTask B y g d = some ({ g with gControlMotorFlag := .idle }, d') ∧
      Wrote IsCompare d d' ∧ Stopped B d'.act := by
  obtain ⟨d', hd', hw, hz⟩ := myMotorCarStop_spec B hs
  refine ⟨d', ?_, hw, hz⟩
  simp only [myMotorControlTask, hf]
  rw [hd']
  rfl

theorem task_idle {g : Globals} (hf : g.gControlMotorFlag = .idle) (d : Drive) :
    myMotorControlTask B y g d = some (g, d) := by
  simp only [myMotorControlTask, hf]

theorem task_turn_idle {g : Globals} (hf : g.gControlMotorFlag = .turn)
    (hl : g.gMotorTurnLevel > 3) (d : Drive) :
    myMotorControlTask B y g d = some ({ g with gControlMotorFlag := .idle }, d) := by
  simp only [myMotorControlTask, hf, carTurnSoft, if_pos hl]

/-- Of the globals the task resets the flag only. -/
theorem task_globals {g : Globals} {d : Drive} {out : Globals × Drive}
    (h : myMotorControlTask B y g d = some out) :
    out.1 = { g with gControlMotorFlag := .idle } := by
  cases hf : g.gControlMotorFlag with
  | idle =>
    rw [task_idle B y hf] at h
    rw [← Option.some.inj h, ← hf]
  | turn =>
    simp only [myMotorControlTask, hf] at h
    rw [← Option.some.inj h]
  | direction | stop =>
    simp only [myMotorControlTask, hf] at h
    obtain ⟨_, -, rfl⟩ := Option.map_eq_some_iff.mp h
    rfl

/-- With the pins in agreement or the motors at rest, and in agreement before a turn,
every value of the flag makes safe writes only, ends, and keeps it so, whatever the other
globals hold. -/
theorem task_spec {g : Globals} {d : Drive} (ha : Agree B d.act ∨ Stopped B d.act)
    (hs : Stoppable B d.act) (hturn : g.gControlMotorFlag = .turn → Agree B d.act) :
    ∃ d', myMotorControlTask B y g d = some ({ g with gControlMotorFlag := .idle }, d') ∧
      Wrote (SafeWrite B) d d' ∧ Stoppable B d'.act ∧
      (Agree B d.act → Agree B d'.act) ∧ (Agree B d'.act ∨ Stopped B d'.act) := by
  have hkeep : ∀ {d' : Drive}, d'.act.pin = d.act.pin → Agree B d.act → Agree B d'.act := by
    intro d' hp h
    unfold Agree Encodes
    rw [hp]
    exact h
  cases hf : g.gControlMotorFlag with
  | idle =>
    refine ⟨d, ?_, .refl d, hs, id, ha⟩
    rw [task_idle B y hf, ← hf]
  | direction =>
    obtain ⟨d', ht, hw, hst, hdone⟩ := task_direction B y hf ha hs
    refine ⟨d', ht, hw, hst, ?_⟩
    unfold DirectionDone at hdone
    split at hdone
    · obtain ⟨hpin, hcase⟩ := hdone
      refine ⟨hkeep hpin, ?_⟩
      split at hcase
      · rw [hcase]; exact ha
      · exact .inr hcase
    · have hagree := agree_of_encodes B hdone.1
      exact ⟨fun _ => hagree, .inl hagree⟩
  | turn =>
    by_cases hl : g.gMotorTurnLevel > 3
    · exact ⟨d, task_turn_idle B y hf hl d, .refl d, hs, id, ha⟩
    obtain ⟨d', ht, hw, hst, -, -⟩ := task_turn B y hf (UInt8.not_lt.mp hl) d
    have hagree := hturn hf
    have hagree' := hkeep hw.pin_eq.1 hagree
    exact ⟨d', ht, safe_of_compare B hw hagree, hst, fun _ => hagree', .inl hagree'⟩
  | stop =>
    by_cases hstop : Stopped B d.act
    · refine ⟨d, ?_, .refl d, hs, id, ha⟩
      simp only [myMotorControlTask, hf, myMotorCarStop]
      rw [stopAllMotorsSync_stopped B hstop]
      rfl
    · have hagree := ha.resolve_right hstop
      obtain ⟨d', ht, hw, hz⟩ := task_stop B y hf hs
      exact ⟨d', ht, safe_of_compare B hw hagree, .inl hz, hkeep hw.pin_eq.1, .inr hz⟩

end BleCar.Motion.Routines
