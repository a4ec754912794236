import BleCar.F103.Firmware
import BleCar.Motion.SpeedRamp

/-!
# When a speed change of the F103 is smooth

All channels are moved by the increment of the channel that is farthest from the
target. A channel that starts above the target but below that increment is carried
past 0: its `uint16_t` wraps, and the clamp compares the wrapped value.
-/

namespace BleCar.F103.SpeedChange

open BleCar.Motion.Hardware
open BleCar.Motion.Routines
open BleCar.Motion.SpeedRamp
open BleCar.F103.Firmware

/-- `base_step` and `remainder` of a speed change. -/
def baseStep (target : Nat) (time : UInt16) (d : Drive) : Nat :=
  speedDelta board target d / accelSteps time

def remainder (target : Nat) (time : UInt16) (d : Drive) : Nat :=
  speedDelta board target d % accelSteps time

/-- `ceil(max_delta / steps)`. -/
def largestStep (target : Nat) (time : UInt16) (d : Drive) : Nat :=
  (speedDelta board target d + accelSteps time - 1) / accelSteps time

/-- The values `motors_set_speed_soft` writes to the channel of `m` lead smoothly from the
value found on entry to the duty of the level. -/
def ChangesSmoothly (y : Stray) (level direction : UInt8) (time : UInt16) (d : Drive)
    (m : Motor) : Prop :=
  ∃ vs, (motorsSetSpeedSoft board y level direction time d).written (board.chan m) =
      d.written (board.chan m) ++ vs ∧
    SmoothChange (d.getCompare (board.chan m)) (dutyOf level)
      (largestStep (dutyOf level) time d) vs

theorem accelSteps_pos (time : UInt16) : 0 < accelSteps time := by
  simp only [accelSteps]
  generalize (if time = 0 then 200 else time.toNat) = x
  split <;> omega

theorem speedDelta_le {target : Nat} (ht : target ≤ 1000) {d : Drive}
    (hd : ∀ m, d.getCompare (board.chan m) ≤ 1000) : speedDelta board target d ≤ 1000 := by
  have h1 := hd .m1
  have h2 := hd .m2
  have h3 := hd .m3
  simp only [speedDelta, motors, List.foldl_cons, List.foldl_nil]
  omega

theorem changesSmoothly_iff (y : Stray) {level : UInt8} (hlevel : ¬ (level < 1 ∨ level > 5))
    (direction : UInt8) (time : UInt16) {d : Drive}
    (hd : ∀ m, d.getCompare (board.chan m) ≤ 1000) (m : Motor) :
    ChangesSmoothly y level direction time d m ↔
      NoWrap (dutyOf level) (baseStep (dutyOf level) time d) (remainder (dutyOf level) time d)
        (d.getCompare (board.chan m)) (accelSteps time) := by
  have ht := (dutyOf_range hlevel).2
  have hp := hd m
  have hnear := le_speedDelta board (dutyOf level) d m
  have hdelta := speedDelta_le ht hd
  have hwrites : ChangesSmoothly y level direction time d m ↔
      SmoothChange (d.getCompare (board.chan m)) (dutyOf level)
        (largestStep (dutyOf level) time d) (speedWrites board (dutyOf level) time d m) := by
    simp only [ChangesSmoothly, motorsSetSpeedSoft_written board y hlevel, List.append_right_inj,
      exists_eq_left']
  rw [hwrites, speedWrites]
  split
  case isTrue hzero =>
    have heq : d.getCompare (board.chan m) = dutyOf level := by omega
    refine ⟨fun _ k _ hlow => absurd hlow (by omega), fun _ => ⟨?_, ?_, heq⟩⟩
    · exact ⟨by simp, by simp, by simp⟩
    · exact List.isChain_singleton _
  case isFalse =>
    exact rampWrites_smooth_iff (by omega) hnear (by omega) (by omega) (accelSteps_pos time)

/-- For all start duties up to 1000, speed levels 1..5 and acceleration times: every channel
moves monotonically to the target, in steps of at most `ceil(max_delta / steps)`, within the
interval between start and target and onto the target before the final write, exactly when no
channel above the target meets an increment larger than its value. -/
theorem speed_change_smooth_iff (y : Stray) {level : UInt8} (hlevel : ¬ (level < 1 ∨ level > 5))
    (direction : UInt8) (time : UInt16) {d : Drive}
    (hd : ∀ m, d.getCompare (board.chan m) ≤ 1000) :
    (∀ m, ChangesSmoothly y level direction time d m) ↔
      ∀ m, NoWrap (dutyOf level) (baseStep (dutyOf level) time d)
        (remainder (dutyOf level) time d) (d.getCompare (board.chan m)) (accelSteps time) :=
  forall_congr' fun m => changesSmoothly_iff y hlevel direction time hd m

/-- The registers after a right turn at level 3, driving forward. -/
def afterTurn : Drive :=
  ⟨⟨fun | .ch1 => 200 | .ch2 => 1000 | .ch3 => 1000 | .ch4 => 0, fun _ => .reset⟩, []⟩

/-- From the registers of a turn the default 200 ms lead smoothly to the lowest level. -/
theorem speed_change_smooth_default :
    ChangesSmoothly .blank 5 myCarDirectionForward 0 afterTurn .m1 ∧
      ChangesSmoothly .blank 5 myCarDirectionForward 0 afterTurn .m2 ∧
      ChangesSmoothly .blank 5 myCarDirectionForward 0 afterTurn .m3 := by
  have hall : ∀ m, ChangesSmoothly .blank 5 myCarDirectionForward 0 afterTurn m :=
    (speed_change_smooth_iff .blank (by decide) myCarDirectionForward 0 (by decide)).mpr
      (by unfold NoWrap; decide)
  exact ⟨hall .m1, hall .m2, hall .m3⟩

/-- In a single step the inner wheel of a turn goes from 200 to 64836 on its way to 100. -/
theorem speed_change_overshoots :
    ¬ ChangesSmoothly .blank 5 myCarDirectionForward 10 afterTurn .m1 := by
  rw [changesSmoothly_iff .blank (by decide) _ _ (by decide)]
  intro h
  exact absurd (h 0 (by decide) (by decide)) (by decide)

end BleCar.F103.SpeedChange
