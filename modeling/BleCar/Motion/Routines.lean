import Mathlib.Logic.Function.Iterate
import BleCar.Lib.WhileLoop
import BleCar.Motion.Hardware

/-!
# The motion routines of `motor.c`

The F103 and the L151 firmware carry the same `motor.c`; they differ in the timer
channels they drive, in the level that means forward on each direction pin and in
the wheels a turn slows down. A `Board` holds these three differences.
-/

namespace BleCar.Motion.Routines

open BleCar.Lib.WhileLoop
open BleCar.Motion.Hardware

def myCarDirectionIdle : UInt8 := 0
def myCarDirectionForward : UInt8 := 1
def myCarDirectionBackward : UInt8 := 2

def myTurnIdle : UInt8 := 0
def myTurnLeft : UInt8 := 1
def myTurnRight : UInt8 := 2

/-- The values of `g_ControlMotorFlag`. -/
inductive ControlMotor where
  | idle | direction | turn | stop
  deriving DecidableEq, Repr

/-- The globals through which a command reaches the motors. -/
structure Globals where
  gMotorDirection : UInt8
  gMotorSpeedLevel : UInt8
  gMotorTurnDirection : UInt8
  gMotorTurnLevel : UInt8
  gControlMotorFlag : ControlMotor
  deriving DecidableEq, Repr

/-- The initialisers of the globals. -/
def Globals.boot : Globals := ⟨myCarDirectionIdle, 0, myTurnIdle, 0, .idle⟩

/-- What the C program leaves to its surroundings: the values found by reads outside
`rx_buffer`, `temp_buf`, `temp_txbuf` and the three tables, and the rounding of the float
product `(int32_t)(ratio * x)` with `ratio = (float)step / steps`. -/
structure Stray where
  rx : Nat → UInt8
  temp : Nat → UInt8
  tx : Nat → UInt8
  duty : Int → UInt16
  inner : Int → UInt16
  pwm : Int → UInt16
  scaled : Nat → Nat → Int → Int

/-- Stray reads that find 0, and a product rounded towards zero. -/
def Stray.blank : Stray where
  rx _ := 0
  temp _ := 0
  tx _ := 0
  duty _ := 0
  inner _ := 0
  pwm _ := 0
  scaled step steps x := Int.tdiv (step * x) steps

/-- An array read: outside the array it finds a stray value. -/
def tableRead (outside : Int → UInt16) (table : List Nat) (i : Int) : Nat :=
  if 0 ≤ i ∧ i < table.length then table.getD i.toNat 0 else (outside i).toNat

def dutyTable : List Nat := [1000, 750, 500, 300, 100]
def speedOuter : Nat := 1000
def speedInnerTable : List Nat := [700, 400, 200]

/-- The channels `car_turn_soft` picks for the front wheel and the two rear wheels. -/
structure Roles where
  front : Channel
  outerRear : Channel
  innerRear : Channel

structure Board where
  /-- the channel of motor `i+1`, in the order of `tim_channels[]` -/
  chan : Motor → Channel
  /-- the level `motor_gpio_set_direction` writes for a direction -/
  dirLevel : Motor → UInt8 → Level
  /-- the roles for a `turn_dir` and a `current_car_dir` -/
  roles : UInt8 → UInt8 → Roles
  chan_injective : Function.Injective chan
  dirLevel_other : ∀ m dir, dir ≠ myCarDirectionBackward →
    dirLevel m dir = dirLevel m myCarDirectionForward
  dirLevel_ne : ∀ m, dirLevel m myCarDirectionForward ≠ dirLevel m myCarDirectionBackward
  m1_backward : dirLevel .m1 myCarDirectionBackward = .set
  front_ne_outer : ∀ t c, (roles t c).front ≠ (roles t c).outerRear
  front_ne_inner : ∀ t c, (roles t c).front ≠ (roles t c).innerRear
  outer_ne_inner : ∀ t c, (roles t c).outerRear ≠ (roles t c).innerRear
  roles_cover : ∀ t c m, chan m = (roles t c).front ∨ chan m = (roles t c).outerRear ∨
    chan m = (roles t c).innerRear

def motors : List Motor := [.m1, .m2, .m3]

variable (B : Board) (y : Stray)

/-- `i + 1` for the motor with index `i`. -/
def motorNumber : Motor → Nat
  | .m1 => 1
  | .m2 => 2
  | .m3 => 3

def motorGpioSetDirection (motorChannel : Nat) (direction : UInt8) (d : Drive) : Drive :=
  match motorChannel with
  | 1 => d.writePin .m1 (B.dirLevel .m1 direction)
  | 2 => d.writePin .m2 (B.dirLevel .m2 direction)
  | 3 => d.writePin .m3 (B.dirLevel .m3 direction)
  | _ => d

/-- The first loop of `motors_set_speed_soft`. -/
structure Scan where
  drive : Drive
  currentPwms : Motor → Nat
  maxDelta : Nat

def scanMotor (direction : UInt8) (targetPwm : Nat) (s : Scan) (m : Motor) : Scan :=
  let drive := motorGpioSetDirection B (motorNumber m) direction s.drive
  let current := drive.getCompare (B.chan m)
  let delta := ((targetPwm : Int) - current).natAbs
  { drive := drive
    currentPwms := Function.update s.currentPwms m current
    maxDelta := if delta > s.maxDelta then delta else s.maxDelta }

/-- One channel's value after one ramp step; both updates are made in `uint16_t`. -/
def rampPwm (targetPwm increment current : Nat) : Nat :=
  if current < targetPwm then
    let next := (current + increment) % 65536
    if next > targetPwm then targetPwm else next
  else if current > targetPwm then
    let next := (((current : Int) - increment) % 65536).toNat
    if next < targetPwm then targetPwm else next
  else current

structure Ramp where
  drive : Drive
  currentPwms : Motor → Nat
  remainder : Nat

def setAll (v : Motor → Nat) (d : Drive) : Drive :=
  motors.foldl (fun d m => d.setCompare (B.chan m) (v m)) d

/-- The body of the ramp loop. -/
def rampStep (targetPwm baseStep : Nat) (s : Ramp) : Ramp :=
  let increment := if s.remainder > 0 then baseStep + 1 else baseStep
  let currentPwms := fun m => rampPwm targetPwm increment (s.currentPwms m)
  { drive := setAll B currentPwms s.drive
    currentPwms := currentPwms
    remainder := s.remainder - 1 }

/-- `(time + STEP_TIME/2) / STEP_TIME` with `STEP_TIME` 10, at least 1; 0 stands for 200 ms. -/
def accelSteps (accelTimeMs : UInt16) : Nat :=
  let time := if accelTimeMs = 0 then 200 else accelTimeMs.toNat
  let steps := (time + 10 / 2) / 10
  if steps = 0 then 1 else steps

def motorsSetSpeedSoft (targetSpeedLevel direction : UInt8) (accelTimeMs : UInt16)
    (d : Drive) : Drive :=
  if targetSpeedLevel < 1 ∨ targetSpeedLevel > 5 then d
  else
    let targetPwm := tableRead y.duty dutyTable (targetSpeedLevel.toNat - 1)
    let s := motors.foldl (scanMotor B direction targetPwm) ⟨d, fun _ => 0, 0⟩
    if s.maxDelta = 0 then s.drive
    else
      let steps := accelSteps accelTimeMs
      let ramp := (rampStep B targetPwm (s.maxDelta / steps))^[steps]
        ⟨s.drive, s.currentPwms, s.maxDelta % steps⟩
      setAll B (fun _ => targetPwm) ramp.drive

def myMotorCarRun (speedLevel direction : UInt8) (d : Drive) : Drive :=
  motorsSetSpeedSoft B y speedLevel direction 0 d

structure Decel where
  drive : Drive
  pwmValues : Motor → Nat
  maxPwm : Nat

/-- The body of the inner loop; the product and the sum are `uint32_t`. -/
def decelMotor (stepSize : Nat) (s : Decel) (m : Motor) : Decel :=
  if s.pwmValues m > 0 then
    let newPwm := s.pwmValues m * s.maxPwm % 4294967296 / ((s.maxPwm + stepSize) % 4294967296)
    { s with
      drive := s.drive.setCompare (B.chan m) newPwm
      pwmValues := Function.update s.pwmValues m newPwm }
  else s

def decelStep (stepSize : Nat) (s : Decel) : Decel :=
  motors.foldl (decelMotor B stepSize)
    { s with maxPwm := if s.maxPwm > stepSize then s.maxPwm - stepSize else 0 }

/-- The largest compare value of the three channels. -/
def maxPwm (d : Drive) : Nat :=
  motors.foldl (fun mx m => if d.getCompare (B.chan m) > mx then d.getCompare (B.chan m) else mx) 0

/-- `decel_time_ms / STEP_TIME` with `STEP_TIME` 10, at least 1; 0 stands for 100 ms. -/
def decelSteps (decelTimeMs : UInt16) : Nat :=
  let time := if decelTimeMs = 0 then 100 else decelTimeMs.toNat
  if time / 10 = 0 then 1 else time / 10

/-- The loop of `stop_all_motors_sync`, cut off after `n` iterations. -/
def decelLoop (stepSize n : Nat) (s : Decel) : Option Decel :=
  whileLoop (fun s => decide (s.maxPwm > 0)) (decelStep B stepSize) n s

/-- The state in which the loop is entered. -/
def decelEntry (d : Drive) : Decel := ⟨d, fun m => d.getCompare (B.chan m), maxPwm B d⟩

/-- `step_size`. -/
def decelStepSize (decelTimeMs : UInt16) (d : Drive) : Nat := maxPwm B d / decelSteps decelTimeMs

/-- `none` when the loop never ends. It ends within `max_pwm` iterations or not at all. -/
def stopAllMotorsSync (decelTimeMs : UInt16) (d : Drive) : Option Drive :=
  if maxPwm B d = 0 then some d
  else (decelLoop B (decelStepSize B decelTimeMs d) (maxPwm B d) (decelEntry B d)).map (·.drive)

def myMotorCarStop (d : Drive) : Option Drive := stopAllMotorsSync B 200 d

/-- `scale` is `(int32_t)(ratio * x)`; both casts to `uint16_t` keep the low 16 bits. -/
def calculateStepPwm (current target : Nat) (scale : Int → Int) : Nat :=
  let result : Int := current + scale ((target : Int) - current)
  if target > current then
    if result > target then target else (result % 65536).toNat
  else
    if result < target then target else (result % 65536).toNat

def channelToIndex (c : Channel) : Nat := (c.tim - Channel.ch1.tim) % 256

/-- `BACKWARD` when the pin reads set. -/
def pinDirection (l : Level) : UInt8 :=
  if l = .set then myCarDirectionBackward else myCarDirectionForward

/-- One iteration of the ramp of `car_turn_soft`. -/
def turnStep (r : Roles) (currentPwm : List Nat) (targetInner steps : Nat) (d : Drive)
    (step : Nat) : Drive :=
  let current := fun c => tableRead y.pwm currentPwm (channelToIndex c)
  let frontPwm := calculateStepPwm (current r.front) speedOuter (y.scaled step steps)
  let outerRearPwm := calculateStepPwm (current r.outerRear) speedOuter (y.scaled step steps)
  let innerRearPwm := calculateStepPwm (current r.innerRear) targetInner (y.scaled step steps)
  ((d.setCompare r.front frontPwm).setCompare r.outerRear outerRearPwm).setCompare
    r.innerRear innerRearPwm

/-- `speed_inner_table[level-1]`; level 0 reads before the table. -/
def turnInner (level : UInt8) : Nat := tableRead y.inner speedInnerTable ((level.toNat : Int) - 1)

/-- The roles `car_turn_soft` assigns; it reads the direction pin of the third motor. -/
def turnRoles (turnDir : UInt8) (a : Actuators) : Roles :=
  B.roles turnDir (pinDirection (a.pin .m3))

def carTurnSoft (turnDir level : UInt8) (accelTimeMs : UInt16) (d : Drive) : Drive :=
  if level > 3 then d
  else
    let r := turnRoles B turnDir d.act
    let currentPwm := motors.map fun m => d.getCompare (B.chan m)
    let targetInner := turnInner y level
    let steps := accelSteps accelTimeMs
    let d := (List.range (steps + 1)).foldl (turnStep y r currentPwm targetInner steps) d
    ((d.setCompare r.front speedOuter).setCompare r.outerRear speedOuter).setCompare
      r.innerRear targetInner

/-- `none` when the motors never stop. -/
def myMotorControlTask (g : Globals) (d : Drive) : Option (Globals × Drive) :=
  match g.gControlMotorFlag with
  | .idle => some (g, d)
  | .direction =>
    let currentCarDir := pinDirection (d.act.pin .m1)
    (if currentCarDir ≠ g.gMotorDirection then myMotorCarStop B d else some d).map fun d =>
      ({ g with gControlMotorFlag := .idle },
        myMotorCarRun B y g.gMotorSpeedLevel g.gMotorDirection d)
  | .turn =>
    some ({ g with gControlMotorFlag := .idle },
      carTurnSoft B y g.gMotorTurnDirection g.gMotorTurnLevel 0 d)
  | .stop => (myMotorCarStop B d).map fun d => ({ g with gControlMotorFlag := .idle }, d)

end BleCar.Motion.Routines
