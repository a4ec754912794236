import Mathlib.Data.Fintype.Basic
import Mathlib.Data.UInt
import Mathlib.Logic.Function.Basic

/-!
# The registers behind the motors

TIM2's four compare registers and the three motor direction pins, with the history
of every write to them: each entry of the log is a write and the register contents
it found. Statements about moments inside a motion routine read the log.
-/

namespace BleCar.Motion.Hardware

inductive Channel where
  | ch1 | ch2 | ch3 | ch4
  deriving DecidableEq, Repr

instance : Fintype Channel := ⟨{.ch1, .ch2, .ch3, .ch4}, fun c => by cases c <;> simp⟩

/-- `TIM_CHANNEL_1 .. TIM_CHANNEL_4`. -/
def Channel.tim : Channel → Nat
  | .ch1 => 0
  | .ch2 => 4
  | .ch3 => 8
  | .ch4 => 12

inductive Motor where
  | m1 | m2 | m3
  deriving DecidableEq, Repr

instance : Fintype Motor := ⟨{.m1, .m2, .m3}, fun m => by cases m <;> simp⟩

/-- `GPIO_PIN_RESET` and `GPIO_PIN_SET`. -/
inductive Level where
  | reset | set
  deriving DecidableEq, Repr

structure Actuators where
  ccr : Channel → UInt16
  pin : Motor → Level
  deriving DecidableEq

inductive Write where
  | compare (c : Channel) (v : UInt16)
  | pin (m : Motor) (l : Level)
  deriving DecidableEq

def Actuators.apply (a : Actuators) : Write → Actuators
  | .compare c v => { a with ccr := Function.update a.ccr c v }
  | .pin m l => { a with pin := Function.update a.pin m l }

structure Drive where
  act : Actuators
  log : List (Actuators × Write)

def Drive.write (d : Drive) (w : Write) : Drive where
  act := d.act.apply w
  log := d.log ++ [(d.act, w)]

/-- `__HAL_TIM_SetCompare(&htim2, c, v)`: the register keeps the low 16 bits. -/
def Drive.setCompare (d : Drive) (c : Channel) (v : Nat) : Drive :=
  d.write (.compare c (UInt16.ofNat v))

/-- `__HAL_TIM_GetCompare(&htim2, c)`. -/
def Drive.getCompare (d : Drive) (c : Channel) : Nat := (d.act.ccr c).toNat

/-- `HAL_GPIO_WritePin` on the direction pin of motor `m`. -/
def Drive.writePin (d : Drive) (m : Motor) (l : Level) : Drive := d.write (.pin m l)

/-- The value a write puts into the compare register of `c`, if it goes there. -/
def Write.compareTo (c : Channel) : Write → Option Nat
  | .compare c' v => if c' = c then some v.toNat else none
  | .pin _ _ => none

/-- The compare values written to `c` so far, in order. -/
def Drive.written (c : Channel) (d : Drive) : List Nat := d.log.filterMap (·.2.compareTo c)

theorem Drive.getCompare_lt (d : Drive) (c : Channel) : d.getCompare c < 65536 :=
  UInt16.toNat_lt _

@[simp] theorem setCompare_ccr (d : Drive) (c : Channel) (v : Nat) :
    (d.setCompare c v).act.ccr = Function.update d.act.ccr c (UInt16.ofNat v) := rfl

@[simp] theorem setCompare_pin (d : Drive) (c : Channel) (v : Nat) :
    (d.setCompare c v).act.pin = d.act.pin := rfl

@[simp] theorem writePin_ccr (d : Drive) (m : Motor) (l : Level) :
    (d.writePin m l).act.ccr = d.act.ccr := rfl

@[simp] theorem writePin_pin (d : Drive) (m : Motor) (l : Level) :
    (d.writePin m l).act.pin = Function.update d.act.pin m l := rfl

@[simp] theorem writePin_written (d : Drive) (m : Motor) (l : Level) (c : Channel) :
    (d.writePin m l).written c = d.written c := by
  simp [Drive.writePin, Drive.write, Drive.written, Write.compareTo]

theorem setCompare_written (d : Drive) (c : Channel) (v : Nat) :
    (d.setCompare c v).written c = d.written c ++ [v % 65536] := by
  simp [Drive.setCompare, Drive.write, Drive.written, Write.compareTo]

theorem setCompare_written_other (d : Drive) {c c' : Channel} (h : c ≠ c') (v : Nat) :
    (d.setCompare c v).written c' = d.written c' := by
  simp [Drive.setCompare, Drive.write, Drive.written, Write.compareTo, h]

/-- `Wrote P d d'`: `d'` comes from `d` by writes, each meeting `P` where it is made. -/
inductive Wrote (P : Actuators → Write → Prop) : Drive → Drive → Prop
  | refl (d : Drive) : Wrote P d d
  | step {d m : Drive} {w : Write} : Wrote P d m → P m.act w → Wrote P d (m.write w)

namespace Wrote

variable {P P' : Actuators → Write → Prop} {d m d' : Drive}

theorem single (w : Write) (h : P d.act w) : Wrote P d (d.write w) := .step (.refl d) h

theorem trans (h : Wrote P d m) (h' : Wrote P m d') : Wrote P d d' := by
  induction h' with
  | refl => exact h
  | step _ hp ih => exact .step ih hp

theorem mono (hP : ∀ a w, P a w → P' a w) (h : Wrote P d d') : Wrote P' d d' := by
  induction h with
  | refl => exact .refl _
  | step _ hp ih => exact .step ih (hP _ _ hp)

/-- What the writes preserve one by one, they preserve together; the rule also
strengthens the condition on each write by the property preserved. -/
theorem invariant {I : Actuators → Prop} (hI : ∀ a w, I a → P a w → I (a.apply w))
    (hd : I d.act) (h : Wrote P d d') : I d'.act ∧ Wrote (fun a w => I a ∧ P a w) d d' := by
  induction h with
  | refl => exact ⟨hd, .refl _⟩
  | step _ hp ih => exact ⟨hI _ _ ih.1 hp, .step ih.2 ⟨ih.1, hp⟩⟩

/-- The log grows by entries that meet the condition. -/
theorem log_forall (h : Wrote P d d') (hd : ∀ p ∈ d.log, P p.1 p.2) : ∀ p ∈ d'.log, P p.1 p.2 := by
  induction h with
  | refl => exact hd
  | step _ hp ih =>
    intro p hmem
    rcases List.mem_append.mp hmem with hold | hnew
    · exact ih p hold
    · rw [List.mem_singleton] at hnew
      exact hnew ▸ hp

end Wrote

/-- A write to a compare register. -/
def IsCompare : Actuators → Write → Prop
  | _, .compare _ _ => True
  | _, .pin _ _ => False

/-- Compare writes leave the direction pins alone, at every moment. -/
theorem Wrote.pin_eq {d d' : Drive} (h : Wrote IsCompare d d') :
    d'.act.pin = d.act.pin ∧
      Wrote (fun a w => a.pin = d.act.pin ∧ IsCompare a w) d d' := by
  refine h.invariant (I := fun a => a.pin = d.act.pin) ?_ rfl
  intro a w ha hw
  cases w with
  | compare c v => exact ha
  | pin m l => exact hw.elim

end BleCar.Motion.Hardware
