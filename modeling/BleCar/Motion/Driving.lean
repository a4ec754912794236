import BleCar.Motion.TaskSpecs
import BleCar.Protocol.Frames

/-!
# A car that obeys commands

What the car is for, without registers: it stands, drives straight in a gear or turns, and
it remembers the last drive and the last turn it was given. A refused command carries out
what is remembered. `Shows` is what the globals and the registers look like for such a car,
and one pass of `my_motor_control_task` after `control_protocol_analysis` keeps it.
-/

namespace BleCar.Motion.Driving

open BleCar.Motion.Hardware
open BleCar.Motion.Routines
open BleCar.Protocol.Frames
open BleCar.Protocol.Control

inductive Heading where
  | forward | backward
  deriving DecidableEq

inductive Side where
  | left | right
  deriving DecidableEq

/-- The levels of `duty_table` and of `speed_inner_table`. -/
abbrev Gear := { level : UInt8 // 1 ≤ level ∧ level ≤ 5 }
abbrev Bend := { level : UInt8 // 1 ≤ level ∧ level ≤ 3 }

/-- A turn with no bend is one with level 0, for which the table has no entry. -/
inductive Travel where
  | standing
  | straight (gear : Gear)
  | turning (side : Side) (bend : Option Bend)

/-- The remembered drive has no gear after a drive command with speed 0. -/
structure Car where
  heading : Heading
  travel : Travel
  lastDrive : Option (Heading × Option Gear)
  lastTurn : Option (Side × Option Bend)

def Car.boot : Car := ⟨.forward, .standing, none, none⟩

/-- Commands with their parameters, or without if these are refused. -/
inductive Command where
  | drive (param : Option (Heading × Option Gear))
  | turn (param : Option (Side × Option Bend))
  | stop
  | other

/-- Carry out the remembered drive: without a gear a car that already has the heading goes
on as it is, and any other stops. -/
def Car.drive (c : Car) : Car :=
  match c.lastDrive with
  | none => { c with travel := .standing }
  | some (heading, none) => if c.heading = heading then c else { c with travel := .standing }
  | some (heading, some gear) => { c with heading, travel := .straight gear }

/-- Carry out the remembered turn. -/
def Car.turn (c : Car) : Car :=
  match c.lastTurn with
  | none => { c with travel := .turning .right none }
  | some (side, bend) => { c with travel := .turning side bend }

def Car.obey (c : Car) : Command → Car
  | .drive param => { c with lastDrive := param.or c.lastDrive }.drive
  | .turn param => { c with lastTurn := param.or c.lastTurn }.turn
  | .stop => { c with travel := .standing, lastDrive := none, lastTurn := none }
  | .other => c

section

variable {c : Car}

theorem Car.drive_none (h : c.lastDrive = none) : c.drive = { c with travel := .standing } := by
  rw [Car.drive, h]

theorem Car.drive_noGear {heading : Heading} (h : c.lastDrive = some (heading, none)) :
    c.drive = if c.heading = heading then c else { c with travel := .standing } := by
  rw [Car.drive, h]

theorem Car.drive_gear {heading : Heading} {gear : Gear}
    (h : c.lastDrive = some (heading, some gear)) :
    c.drive = { c with heading, travel := .straight gear } := by
  rw [Car.drive, h]

theorem Car.turn_none (h : c.lastTurn = none) :
    c.turn = { c with travel := .turning .right none } := by
  rw [Car.turn, h]

theorem Car.turn_some {side : Side} {bend : Option Bend} (h : c.lastTurn = some (side, bend)) :
    c.turn = { c with travel := .turning side bend } := by
  rw [Car.turn, h]

end

/-! ## Bytes -/

def Heading.byte : Heading → UInt8
  | .forward => myCarDirectionForward
  | .backward => myCarDirectionBackward

def Side.byte : Side → UInt8
  | .left => myTurnLeft
  | .right => myTurnRight

/-- A level, or 0 for none. -/
def levelByte {P : UInt8 → Prop} : Option { level : UInt8 // P level } → UInt8
  | none => 0
  | some level => level.val

def driveBytes : Option (Heading × Option Gear) → UInt8 × UInt8
  | none => (myCarDirectionIdle, 0)
  | some (heading, gear) => (heading.byte, levelByte gear)

def turnBytes : Option (Side × Option Bend) → UInt8 × UInt8
  | none => (myTurnIdle, 0)
  | some (side, bend) => (side.byte, levelByte bend)

def headingOf (b : UInt8) : Heading :=
  if b = myCarDirectionBackward then .backward else .forward

/-- The level of a byte, if it is in range. -/
def levelOf (max b : UInt8) : Option { level : UInt8 // 1 ≤ level ∧ level ≤ max } :=
  if h : 1 ≤ b ∧ b ≤ max then some ⟨b, h⟩ else none

/-- The command of a frame, where A2 means `sideA2` and A3 means `sideA3`. -/
def decode (sideA2 sideA3 : Side) (data : Nat → UInt8) : Command :=
  if data 3 = 0xA1 then
    .drive (if driveValid data then some (headingOf (data 4), levelOf 5 (data 5)) else none)
  else if data 3 = 0xA2 then
    .turn (if turnValid data then some (sideA2, levelOf 3 (data 4)) else none)
  else if data 3 = 0xA3 then
    .turn (if turnValid data then some (sideA3, levelOf 3 (data 4)) else none)
  else if data 3 = 0xA5 then .stop
  else .other

theorem turnBytes_le (turn : Option (Side × Option Bend)) : (turnBytes turn).2 ≤ 3 := by
  rcases turn with _ | ⟨side, _ | bend⟩
  · exact UInt8.zero_le
  · exact UInt8.zero_le
  · exact bend.property.2

theorem Heading.byte_cases (h : Heading) :
    h.byte = myCarDirectionForward ∨ h.byte = myCarDirectionBackward := by
  cases h
  · exact .inl rfl
  · exact .inr rfl

theorem Heading.byte_injective {h h' : Heading} (heq : h.byte = h'.byte) : h = h' := by
  cases h <;> cases h' <;> first | rfl | exact absurd heq (by decide)

theorem headingOf_byte {b : UInt8} (h : 1 ≤ b ∧ b ≤ 2) : (headingOf b).byte = b := by
  unfold headingOf
  split
  case isTrue hb => exact hb.symm
  case isFalse hb =>
    have hone : b = 1 := by
      rw [show myCarDirectionBackward = 2 from rfl] at hb
      grind
    exact hone.symm

theorem levelOf_byte {max b : UInt8} (h : b ≤ max) : levelByte (levelOf max b) = b := by
  unfold levelOf
  split
  case isTrue => rfl
  case isFalse hb =>
    have hz : b = 0 := by grind
    exact hz.symm

section

variable {sideA2 sideA3 : Side} {data : Nat → UInt8}

/-- `decode` reads no more than `control_protocol_analysis`. -/
theorem decode_congr {data' : Nat → UInt8} (h : ∀ i ∈ controlReads data, data i = data' i) :
    decode sideA2 sideA3 data = decode sideA2 sideA3 data' := by
  have h3 : data 3 = data' 3 := h 3 (by unfold controlReads; split_ifs <;> simp)
  unfold decode
  rw [← h3]
  by_cases h1 : data 3 = 0xA1
  · have h4 : data 4 = data' 4 := h 4 (by simp only [controlReads, if_pos h1]; split_ifs <;> simp)
    rw [if_pos h1, if_pos h1]
    by_cases hr : 1 ≤ data 4 ∧ data 4 ≤ 2
    · have h5 : data 5 = data' 5 := h 5 (by simp [controlReads, h1, hr])
      have hv : driveValid data = driveValid data' := by simp [driveValid, h4, h5]
      rw [hv, h4, h5]
    · have hr' : ¬ (1 ≤ data' 4 ∧ data' 4 ≤ 2) := h4 ▸ hr
      rw [if_neg (by simp [driveValid, hr]), if_neg (by simp [driveValid, hr'])]
  rw [if_neg h1, if_neg h1]
  by_cases h23 : data 3 = 0xA2 ∨ data 3 = 0xA3
  · have h4 : data 4 = data' 4 := h 4 (by simp [controlReads, h1, h23])
    have hv : turnValid data = turnValid data' := by simp [turnValid, h4]
    rw [hv, h4]
  · rw [not_or] at h23
    rw [if_neg h23.1, if_neg h23.2, if_neg h23.1, if_neg h23.2]

/-- A2 and A3, with the side each stands for. -/
theorem decode_turn {turn : UInt8}
    (h : data 3 = 0xA2 ∧ turn = sideA2.byte ∨ data 3 = 0xA3 ∧ turn = sideA3.byte) :
    ∃ side, turn = side.byte ∧ decode sideA2 sideA3 data =
      .turn (if turnValid data then some (side, levelOf 3 (data 4)) else none) := by
  rcases h with ⟨h2, rfl⟩ | ⟨h3, rfl⟩
  · exact ⟨sideA2, rfl, by rw [decode, h2]; rfl⟩
  · exact ⟨sideA3, rfl, by rw [decode, h3]; rfl⟩

theorem decode_turnRefused (h : data 3 = 0xA2 ∨ data 3 = 0xA3) (hv : turnValid data = false) :
    decode sideA2 sideA3 data = .turn none := by
  have hside : ∃ turn,
      data 3 = 0xA2 ∧ turn = sideA2.byte ∨ data 3 = 0xA3 ∧ turn = sideA3.byte := by
    rcases h with h2 | h3
    · exact ⟨_, .inl ⟨h2, rfl⟩⟩
    · exact ⟨_, .inr ⟨h3, rfl⟩⟩
  obtain ⟨turn, hturn⟩ := hside
  obtain ⟨side, -, hcommand⟩ := decode_turn hturn
  rw [hcommand, if_neg (by simp [hv])]

end

/-- A drive in range with a level of at least 1 starts the car. -/
theorem obey_drivesOff (c : Car) {sideA2 sideA3 : Side} {data : Nat → UInt8} (h1 : data 3 = 0xA1)
    (hv : driveValid data = true) (h5 : 1 ≤ data 5) :
    ∃ gear, (c.obey (decode sideA2 sideA3 data)).travel = .straight gear := by
  obtain ⟨-, hspeed⟩ := of_decide_eq_true hv
  rw [decode, if_pos h1, if_pos hv, levelOf, dif_pos ⟨h5, hspeed⟩, Car.obey, Option.some_or,
    Car.drive_gear rfl]
  exact ⟨_, rfl⟩

/-! ## The registers of a car -/

/-- What both boards have in common beyond `Board`. -/
structure Regular (B : Board) : Prop where
  m3_backward : B.dirLevel .m3 myCarDirectionBackward = .set
  roles_idle : ∀ c, B.roles myTurnIdle c = B.roles myTurnRight c

/-- `speed_inner_table[level-1]`. -/
def bendPwm (bend : Bend) : Nat := speedInnerTable.getD (bend.val.toNat - 1) 0

/-- The compare values of a motion; nothing is said of the inner wheel of a turn with
level 0. -/
def Moves (B : Board) (heading : Heading) (a : Actuators) : Travel → Prop
  | .standing => Stopped B a
  | .straight gear => ∀ m, a.ccr (B.chan m) = UInt16.ofNat (dutyOf gear.val)
  | .turning side bend => ∃ inner, (∀ b, bend = some b → inner = bendPwm b) ∧
      TurnPattern (B.roles side.byte heading.byte) inner a

/-- The globals, the flag apart, and the registers are those of the car. -/
structure Shows (B : Board) (c : Car) (g : Globals) (a : Actuators) : Prop where
  pins : Encodes B c.heading.byte a
  moves : Moves B c.heading a c.travel
  drive : (g.gMotorDirection, g.gMotorSpeedLevel) = driveBytes c.lastDrive
  turn : (g.gMotorTurnDirection, g.gMotorTurnLevel) = turnBytes c.lastTurn

section

variable {B : Board} {c : Car} {g : Globals} {a a' : Actuators}

theorem gear_range (gear : Gear) : ¬ (gear.val < 1 ∨ gear.val > 5) := by
  obtain ⟨level, h1, h5⟩ := gear
  rintro (h | h)
  · exact absurd h1 (UInt8.not_le.mpr h)
  · exact absurd h5 (UInt8.not_le.mpr h)

/-- Every car can be stopped. -/
theorem Moves.stoppable {heading : Heading} {travel : Travel} (h : Moves B heading a travel) :
    Stoppable B a := by
  cases travel with
  | standing => exact .inl h
  | straight gear => exact duty_stoppable B (gear_range gear) h
  | turning side bend =>
    obtain ⟨inner, -, hp⟩ := h
    exact stoppable_of_front B rfl hp

/-- The third pin tells the heading as well. -/
theorem turnRoles_eq (hB : Regular B) {heading : Heading} (h : Encodes B heading.byte a)
    (turnDir : UInt8) : turnRoles B turnDir a = B.roles turnDir heading.byte := by
  have hpin : a.pin .m3 = B.dirLevel .m3 heading.byte := congrFun h .m3
  rw [turnRoles, hpin]
  cases heading with
  | backward =>
    rw [show Heading.backward.byte = myCarDirectionBackward from rfl, hB.m3_backward]
    rfl
  | forward =>
    have hne := B.dirLevel_ne .m3
    rw [hB.m3_backward] at hne
    rw [show Heading.forward.byte = myCarDirectionForward from rfl, pinDirection, if_neg hne]

/-- The inner wheel of a remembered turn. -/
theorem turnInner_bend (y : Stray) (bend : Option Bend) (b : Bend) (h : bend = some b) :
    turnInner y (levelByte bend) = bendPwm b := by
  subst h
  obtain ⟨level, h1, h3⟩ := b
  rw [UInt8.le_iff_toNat_le] at h1 h3
  simp only [UInt8.reduceToNat] at h1 h3
  have hin : 0 ≤ (level.toNat : Int) - 1 ∧ (level.toNat : Int) - 1 < speedInnerTable.length := by
    simp only [speedInnerTable, List.length_cons, List.length_nil]
    omega
  rw [levelByte, turnInner, tableRead, if_pos hin, bendPwm,
    show ((level.toNat : Int) - 1).toNat = level.toNat - 1 by omega]

/-! ## One pass -/

variable {d : Drive}

theorem Shows.agree (h : Shows B c g a) : Agree B a := agree_of_encodes B h.pins

/-- The task carries out the remembered drive. -/
theorem Shows.task_drive (h : Shows B c g d.act) (hf : g.gControlMotorFlag = .direction)
    (y : Stray) :
    ∃ d', myMotorControlTask B y g d = some ({ g with gControlMotorFlag := .idle }, d') ∧
      Shows B c.drive g d'.act := by
  obtain ⟨d', ht, -, -, hdone⟩ := task_direction B y hf (.inl h.agree) h.moves.stoppable
  refine ⟨d', ht, ?_⟩
  have hread : pinDirection (d.act.pin .m1) = c.heading.byte :=
    pinDirection_of_encodes B c.heading.byte_cases h.pins
  have hdrive := h.drive
  have hturn := h.turn
  unfold DirectionDone at hdone
  rw [hread] at hdone
  cases hlast : c.lastDrive with
  | none =>
    obtain ⟨hdir, hspeed⟩ := Prod.mk.inj (hlast ▸ hdrive)
    have hne : c.heading.byte ≠ myCarDirectionIdle := by cases c.heading <;> decide
    rw [hspeed, hdir, if_pos (.inl (by decide)), if_neg hne] at hdone
    rw [Car.drive_none hlast]
    exact ⟨hdone.1.trans h.pins, hdone.2, hdrive, hturn⟩
  | some param =>
    obtain ⟨heading, gear⟩ := param
    obtain ⟨hdir, hspeed⟩ := Prod.mk.inj (hlast ▸ hdrive)
    rw [hspeed, hdir] at hdone
    cases gear with
    | none =>
      rw [if_pos (.inl (by decide))] at hdone
      rw [Car.drive_noGear hlast]
      by_cases hsame : c.heading = heading
      · rw [if_pos (congrArg Heading.byte hsame)] at hdone
        rw [if_pos hsame, hdone.2]
        exact h
      · rw [if_neg fun heq => hsame (Heading.byte_injective heq)] at hdone
        rw [if_neg hsame]
        exact ⟨hdone.1.trans h.pins, hdone.2, hdrive, hturn⟩
    | some gear =>
      rw [levelByte, if_neg (gear_range gear)] at hdone
      rw [Car.drive_gear hlast]
      exact ⟨hdone.1, hdone.2, hdrive, hturn⟩

/-- The task carries out the remembered turn. -/
theorem Shows.task_turn (hB : Regular B) (h : Shows B c g d.act)
    (hf : g.gControlMotorFlag = .turn) (y : Stray) :
    ∃ d', myMotorControlTask B y g d = some ({ g with gControlMotorFlag := .idle }, d') ∧
      Shows B c.turn g d'.act := by
  have hlevel : g.gMotorTurnLevel ≤ 3 := by
    rw [show g.gMotorTurnLevel = (turnBytes c.lastTurn).2 from congrArg Prod.snd h.turn]
    exact turnBytes_le _
  obtain ⟨d', ht, hw, -, -, hp⟩ := Routines.task_turn B y hf hlevel d
  refine ⟨d', ht, ?_⟩
  have hpins : Encodes B c.heading.byte d'.act := hw.pin_eq.1.trans h.pins
  rw [turnRoles_eq hB h.pins] at hp
  have hdrive := h.drive
  have hturn := h.turn
  cases hlast : c.lastTurn with
  | none =>
    obtain ⟨hdir, -⟩ := Prod.mk.inj (hlast ▸ hturn)
    rw [hdir, hB.roles_idle] at hp
    rw [Car.turn_none hlast]
    exact ⟨hpins, ⟨_, nofun, hp⟩, hdrive, hturn⟩
  | some param =>
    obtain ⟨side, bend⟩ := param
    obtain ⟨hdir, hbend⟩ := Prod.mk.inj (hlast ▸ hturn)
    rw [hdir, hbend] at hp
    rw [Car.turn_some hlast]
    exact ⟨hpins, ⟨_, turnInner_bend y bend, hp⟩, hdrive, hturn⟩

theorem Shows.task_stop (h : Shows B c g d.act) (hf : g.gControlMotorFlag = .stop) (y : Stray) :
    ∃ d', myMotorControlTask B y g d = some ({ g with gControlMotorFlag := .idle }, d') ∧
      Shows B { c with travel := .standing } g d'.act := by
  obtain ⟨d', ht, hw, hstop⟩ := Routines.task_stop B y hf h.moves.stoppable
  exact ⟨d', ht, hw.pin_eq.1.trans h.pins, hstop, h.drive, h.turn⟩

/-- The flag and the memory of the car are all that a command changes before the task. -/
theorem Shows.remember (h : Shows B c g a) {g' : Globals}
    {lastDrive : Option (Heading × Option Gear)} {lastTurn : Option (Side × Option Bend)}
    (hdrive : (g'.gMotorDirection, g'.gMotorSpeedLevel) = driveBytes lastDrive)
    (hturn : (g'.gMotorTurnDirection, g'.gMotorTurnLevel) = turnBytes lastTurn) :
    Shows B { c with lastDrive, lastTurn } g' a :=
  ⟨h.pins, h.moves, hdrive, hturn⟩

/-- The flag does not show. -/
theorem Shows.withFlag (h : Shows B c g a) (f : ControlMotor) :
    Shows B c { g with gControlMotorFlag := f } a :=
  ⟨h.pins, h.moves, h.drive, h.turn⟩

/-- `control_protocol_analysis` and one pass of the task obey the command. -/
theorem pass_obeys (hB : Regular B) (h : Shows B c g d.act) (hidle : g.gControlMotorFlag = .idle)
    (sideA2 sideA3 : Side) (y : Stray) (data : Nat → UInt8) :
    ∃ g' d', myMotorControlTask B y
        (controlProtocolAnalysis sideA2.byte sideA3.byte y g data).1 d = some (g', d') ∧
      g'.gControlMotorFlag = .idle ∧ Shows B (c.obey (decode sideA2 sideA3 data)) g' d'.act := by
  have hc := control_commanded sideA2.byte sideA3.byte y g data
  generalize controlProtocolAnalysis sideA2.byte sideA3.byte y g data = out at hc ⊢
  cases hc with
  | drive h1 hv =>
    obtain ⟨hdir, hspeed⟩ := of_decide_eq_true hv
    have hdrive : (data 4, data 5) =
        driveBytes (some (headingOf (data 4), levelOf 5 (data 5))) := by
      rw [driveBytes, headingOf_byte hdir, levelOf_byte hspeed]
    have hnew : Shows B { c with lastDrive := some (headingOf (data 4), levelOf 5 (data 5)) }
        { g with
          gMotorDirection := data 4
          gMotorSpeedLevel := data 5
          gControlMotorFlag := .direction } d.act := h.remember hdrive h.turn
    obtain ⟨d', ht, hs⟩ := hnew.task_drive rfl y
    refine ⟨_, d', ht, rfl, ?_⟩
    rw [decode, if_pos h1, if_pos hv]
    exact hs.withFlag .idle
  | driveRefused h1 hv =>
    obtain ⟨d', ht, hs⟩ := (h.withFlag .direction).task_drive rfl y
    refine ⟨_, d', ht, rfl, ?_⟩
    rw [decode, if_pos h1, if_neg (by simp [hv])]
    exact hs.withFlag .idle
  | turn turn h23 hv =>
    obtain ⟨side, rfl, hcommand⟩ := decode_turn h23
    have hturn : (side.byte, data 4) = turnBytes (some (side, levelOf 3 (data 4))) := by
      rw [turnBytes, levelOf_byte (of_decide_eq_true hv)]
    have hnew : Shows B { c with lastTurn := some (side, levelOf 3 (data 4)) }
        { g with
          gMotorTurnDirection := side.byte
          gMotorTurnLevel := data 4
          gControlMotorFlag := .turn } d.act := h.remember h.drive hturn
    obtain ⟨d', ht, hs⟩ := hnew.task_turn hB rfl y
    refine ⟨_, d', ht, rfl, ?_⟩
    rw [hcommand, if_pos hv]
    exact hs.withFlag .idle
  | turnRefused h23 hv =>
    obtain ⟨d', ht, hs⟩ := (h.withFlag .turn).task_turn hB rfl y
    refine ⟨_, d', ht, rfl, ?_⟩
    rw [decode_turnRefused h23 hv]
    exact hs.withFlag .idle
  | report h4 =>
    refine ⟨g, d, Routines.task_idle B y hidle d, hidle, ?_⟩
    rw [decode, h4]
    exact h
  | stop h5 =>
    have hnone : Shows B { c with lastDrive := none, lastTurn := none }
        { mySetCarStopFunc g with gControlMotorFlag := .stop } d.act := h.remember rfl rfl
    obtain ⟨d', ht, hs⟩ := hnone.task_stop rfl y
    refine ⟨_, d', ht, rfl, ?_⟩
    rw [decode, h5]
    exact hs.withFlag .idle
  | unknown hu =>
    refine ⟨g, d, Routines.task_idle B y hidle d, hidle, ?_⟩
    rw [decode, if_neg hu.1, if_neg hu.2.1, if_neg hu.2.2.1, if_neg hu.2.2.2.2]
    exact h

/-! ## Before the first drive -/

/-- A car at a standstill whose pins say nothing yet, and which no drive with a gear is
remembered for. -/
structure Waits (B : Board) (c : Car) (g : Globals) (a : Actuators) : Prop where
  stopped : Stopped B a
  standing : c.travel = .standing
  noGear : ∀ heading gear, c.lastDrive ≠ some (heading, some gear)
  drive : (g.gMotorDirection, g.gMotorSpeedLevel) = driveBytes c.lastDrive
  turn : (g.gMotorTurnDirection, g.gMotorTurnLevel) = turnBytes c.lastTurn

theorem Waits.withFlag (h : Waits B c g a) (f : ControlMotor) :
    Waits B c { g with gControlMotorFlag := f } a :=
  ⟨h.stopped, h.standing, h.noGear, h.drive, h.turn⟩

/-- Without a gear the car goes on waiting. -/
theorem Car.drive_waits (hstand : c.travel = .standing)
    (hno : ∀ heading gear, c.lastDrive ≠ some (heading, some gear)) : c.drive = c := by
  have hc : { c with travel := .standing } = c := by rw [← hstand]
  cases hlast : c.lastDrive with
  | none => rw [Car.drive_none hlast, hc]
  | some param =>
    obtain ⟨heading, gear⟩ := param
    cases gear with
    | none => rw [Car.drive_noGear hlast, hc, ite_self]
    | some gear => exact absurd hlast (hno heading gear)

theorem Waits.task_drive (h : Waits B c g d.act) (hf : g.gControlMotorFlag = .direction)
    (y : Stray) :
    ∃ d', myMotorControlTask B y g d = some ({ g with gControlMotorFlag := .idle }, d') ∧
      Waits B c.drive g d'.act := by
  obtain ⟨d', ht, -, -, hdone⟩ := task_direction B y hf (.inr h.stopped) (.inl h.stopped)
  refine ⟨d', ht, ?_⟩
  have hspeed : g.gMotorSpeedLevel = 0 := by
    have hlevel : g.gMotorSpeedLevel = (driveBytes c.lastDrive).2 := congrArg Prod.snd h.drive
    rw [hlevel]
    cases hlast : c.lastDrive with
    | none => rfl
    | some param =>
      obtain ⟨heading, _ | gear⟩ := param
      · rfl
      · exact absurd hlast (h.noGear heading gear)
  unfold DirectionDone at hdone
  rw [hspeed, if_pos (.inl (by decide))] at hdone
  have hstop : Stopped B d'.act := by
    have hcase := hdone.2
    split at hcase
    · rw [hcase]
      exact h.stopped
    · exact hcase
  rw [Car.drive_waits h.standing h.noGear]
  exact ⟨hstop, h.standing, h.noGear, h.drive, h.turn⟩

/-- The first drive with a gear sets the pins. -/
theorem Waits.task_first (h : Waits B c g d.act) {heading : Heading} {gear : Gear}
    (g' : Globals) (hf : g'.gControlMotorFlag = .direction)
    (hdrive : (g'.gMotorDirection, g'.gMotorSpeedLevel) =
      driveBytes (some (heading, some gear)))
    (hturn : (g'.gMotorTurnDirection, g'.gMotorTurnLevel) = turnBytes c.lastTurn) (y : Stray) :
    ∃ d', myMotorControlTask B y g' d = some ({ g' with gControlMotorFlag := .idle }, d') ∧
      Shows B { c with lastDrive := some (heading, some gear) }.drive g' d'.act := by
  obtain ⟨d', ht, -, -, hdone⟩ := task_direction B y hf (.inr h.stopped) (.inl h.stopped)
  refine ⟨d', ht, ?_⟩
  obtain ⟨hdir, hspeed⟩ := Prod.mk.inj hdrive
  unfold DirectionDone at hdone
  rw [hspeed, hdir, levelByte, if_neg (gear_range gear)] at hdone
  rw [Car.drive_gear rfl]
  exact ⟨hdone.1, hdone.2, hdrive, hturn⟩

/-- A waiting car obeys every command but a turn. -/
theorem Waits.pass_obeys (h : Waits B c g d.act) (hidle : g.gControlMotorFlag = .idle)
    (sideA2 sideA3 : Side) (y : Stray) (data : Nat → UInt8)
    (hno : ¬ (data 3 = 0xA2 ∨ data 3 = 0xA3)) :
    ∃ g' d', myMotorControlTask B y
        (controlProtocolAnalysis sideA2.byte sideA3.byte y g data).1 d = some (g', d') ∧
      g'.gControlMotorFlag = .idle ∧
      (Waits B (c.obey (decode sideA2 sideA3 data)) g' d'.act ∨
        Shows B (c.obey (decode sideA2 sideA3 data)) g' d'.act) := by
  have hc := control_commanded sideA2.byte sideA3.byte y g data
  generalize controlProtocolAnalysis sideA2.byte sideA3.byte y g data = out at hc ⊢
  cases hc with
  | drive h1 hv =>
    obtain ⟨hdir, hspeed⟩ := of_decide_eq_true hv
    have hdrive : (data 4, data 5) =
        driveBytes (some (headingOf (data 4), levelOf 5 (data 5))) := by
      rw [driveBytes, headingOf_byte hdir, levelOf_byte hspeed]
    rw [decode, if_pos h1, if_pos hv]
    cases hgear : levelOf 5 (data 5) with
    | some gear =>
      rw [hgear] at hdrive
      obtain ⟨d', ht, hs⟩ := h.task_first { g with
        gMotorDirection := data 4
        gMotorSpeedLevel := data 5
        gControlMotorFlag := .direction } rfl hdrive h.turn y
      exact ⟨_, d', ht, rfl, .inr (hs.withFlag .idle)⟩
    | none =>
      rw [hgear] at hdrive
      have hwaits : Waits B { c with lastDrive := some (headingOf (data 4), none) }
          { g with
            gMotorDirection := data 4
            gMotorSpeedLevel := data 5
            gControlMotorFlag := .direction } d.act :=
        ⟨h.stopped, h.standing, fun _ _ heq => (by cases heq), hdrive, h.turn⟩
      obtain ⟨d', ht, hs⟩ := hwaits.task_drive rfl y
      exact ⟨_, d', ht, rfl, .inl (hs.withFlag .idle)⟩
  | driveRefused h1 hv =>
    obtain ⟨d', ht, hs⟩ := (h.withFlag .direction).task_drive rfl y
    rw [decode, if_pos h1, if_neg (by simp [hv])]
    exact ⟨_, d', ht, rfl, .inl (hs.withFlag .idle)⟩
  | turn turn h23 => exact absurd (h23.imp And.left And.left) hno
  | turnRefused h23 => exact absurd h23 hno
  | report h4 =>
    rw [decode, h4]
    exact ⟨g, d, Routines.task_idle B y hidle d, hidle, .inl h⟩
  | stop h5 =>
    obtain ⟨d', ht, -, hstop⟩ := Routines.task_stop B y
      (g := { mySetCarStopFunc g with gControlMotorFlag := .stop }) rfl (.inl h.stopped)
    rw [decode, h5]
    exact ⟨_, d', ht, rfl, .inl ⟨hstop, rfl, fun _ _ => (Option.some_ne_none _).symm, rfl, rfl⟩⟩
  | unknown hu =>
    rw [decode, if_neg hu.1, if_neg hu.2.1, if_neg hu.2.2.1, if_neg hu.2.2.2.2]
    exact ⟨g, d, Routines.task_idle B y hidle d, hidle, .inl h⟩

end

end BleCar.Motion.Driving
