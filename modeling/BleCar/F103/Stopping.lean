import BleCar.F103.Firmware
import BleCar.Motion.Deceleration

/-!
# Whether, when and how the F103 motors come to a stop

Both soft-stop functions divide a compare value by a number of steps and lower it by
the truncated quotient. A quotient of 0 never stops the motors, a quotient with a
remainder stops them after the deadline, and the synchronised stop keeps the wheels in
proportion whenever the quotient is not 0.
-/

namespace BleCar.F103.Stopping

open BleCar.Motion.Hardware
open BleCar.Motion.Routines
open BleCar.Motion.Deceleration
open BleCar.F103.Firmware

/-- `motor_soft_stop` on the number of channel `c` returns, with the channel at 0. -/
def ChannelStops (motorChannel : Nat) (c : Channel) (time : UInt16) (d : Drive) : Prop :=
  ∃ d', motorSoftStop motorChannel time d = some d' ∧ d'.getCompare c = 0

/-- `stop_all_motors_sync` returns with the registers of the state its loop tests last. -/
def Returns (time : UInt16) (d : Drive) (s : Decel) : Prop :=
  DecelVisits board time d s ∧ s.maxPwm = 0 ∧ stopAllMotorsSync board time d = some s.drive

/-- `stop_all_motors_sync` returns, with all channels at 0, and never divides by 0. -/
structure SyncStops (time : UInt16) (d : Drive) : Prop where
  stops : ∃ s, Returns time d s ∧ Stopped board s.drive.act
  divisor : ∀ s, DecelVisits board time d s → 0 < s.maxPwm →
    ((decelStep board (decelStepSize board time d) s).maxPwm + decelStepSize board time d)
      % 4294967296 ≠ 0

theorem returns_iff (time : UInt16) (d : Drive) :
    (∃ s, Returns time d s ∧ Stopped board s.drive.act) ↔
      Stopped board d.act ∨ decelSteps time ≤ maxPwm board d := by
  rw [← stopAllMotorsSync_iff]
  constructor
  · rintro ⟨s, ⟨-, -, hs⟩, hstop⟩
    exact ⟨s.drive, hs, hstop⟩
  · rintro ⟨d', hd', hstop⟩
    obtain ⟨s, hv, hz, rfl⟩ := (stopAllMotorsSync_eq_some board).mp hd'
    exact ⟨s, ⟨hv, hz, hd'⟩, hstop⟩

/-- The divisor is positive in every iteration, also in a loop that never ends. -/
theorem divisor_ne_zero {time : UInt16} {d : Drive} {s : Decel} (h : DecelVisits board time d s)
    (hpos : 0 < s.maxPwm) :
    ((decelStep board (decelStepSize board time d) s).maxPwm + decelStepSize board time d)
      % 4294967296 ≠ 0 := by
  have hmax := h.proportion.max_lt
  have hsize := decelStepSize_lt board time d
  rw [decelStep_maxPwm, Nat.mod_eq_of_lt (by omega)]
  omega

/-- For all compare values and decelerations: the synchronised stop ends with the motors
stopped exactly when they stand still already or the largest compare value is at least the
number of steps, and a single channel likewise by its own compare value. -/
theorem soft_stops_iff (time : UInt16) (d : Drive) :
    (SyncStops time d ↔ Stopped board d.act ∨ decelSteps time ≤ maxPwm board d) ∧
      ∀ motorChannel c, softStopChannel motorChannel = some c →
        (ChannelStops motorChannel c time d ↔
          d.getCompare c = 0 ∨ decelSteps time ≤ d.getCompare c) := by
  refine ⟨⟨fun h => (returns_iff time d).mp h.stops, fun h => ?_⟩, ?_⟩
  · exact ⟨(returns_iff time d).mpr h, fun _ hs => divisor_ne_zero hs⟩
  · exact fun _ _ hc => motorSoftStop_iff hc time d

/-- The three motors at one compare value. -/
def driven (v : UInt16) : Drive :=
  ⟨⟨fun c => if c = .ch4 then 0 else v, fun _ => .reset⟩, []⟩

/-- At the lowest speed level 200 ms stop the motors. -/
theorem soft_stops_slow : SyncStops 200 (driven 100) ∧ ChannelStops 1 .ch1 200 (driven 100) := by
  obtain ⟨hsync, hchannel⟩ := soft_stops_iff 200 (driven 100)
  exact ⟨hsync.mpr (.inr (by decide)), (hchannel 1 .ch1 rfl).mpr (.inr (by decide))⟩

/-- At the lowest speed level neither function ends when it is given 2000 ms: 200 steps
for a compare value of 100. -/
theorem soft_stops_stuck :
    ¬ SyncStops 2000 (driven 100) ∧ ¬ ChannelStops 1 .ch1 2000 (driven 100) := by
  constructor
  · intro h
    rcases (returns_iff 2000 (driven 100)).mp h.stops with hs | hle
    · exact absurd (hs .m1) (by decide)
    · exact absurd hle (by decide)
  · intro h
    exact absurd ((motorSoftStop_iff rfl 2000 (driven 100)).mp h) (by decide)

/-- The loop of `stop_all_motors_sync` ends within the number of steps, that is within the
deceleration time, exactly when the number of steps divides the largest compare value. -/
theorem deadline_iff (time : UInt16) (d : Drive) :
    (∃ s, decelLoop board (decelStepSize board time d) (decelSteps time) (decelEntry board d) =
      some s) ↔ decelSteps time ∣ maxPwm board d := by
  rw [decelLoop_ends_iff, ← Nat.mul_div_eq_iff_dvd]
  exact ⟨fun hcover => (Nat.mul_div_le _ _).antisymm hcover, fun heq => heq.ge⟩

/-- From speed level 2 the stop of `my_motor_car_stop` needs more than its 20 steps. -/
theorem deadline_missed :
    decelSteps 200 ≤ maxPwm board (driven 750) ∧
      ¬ ∃ s, decelLoop board (decelStepSize board 200 (driven 750)) (decelSteps 200)
        (decelEntry board (driven 750)) = some s := by
  refine ⟨by decide, fun h => ?_⟩
  exact absurd ((decelLoop_ends_iff board _ _ _).mp h) (by decide)

/-- The state at a loop test against the compare values `d` found on entry. -/
structure InProportion (k : Nat) (d : Drive) (s : Decel) : Prop where
  registers : ∀ m, s.drive.getCompare (board.chan m) = s.pwmValues m
  leading : ∀ m, d.getCompare (board.chan m) = maxPwm board d → s.pwmValues m = s.maxPwm
  le_max : ∀ m, s.pwmValues m ≤ s.maxPwm
  ordered : ∀ i j, d.getCompare (board.chan i) ≤ d.getCompare (board.chan j) →
    s.pwmValues i ≤ s.pwmValues j
  falling : ∀ m, (decelStep board k s).pwmValues m ≤ s.pwmValues m
  product : ∀ m, s.pwmValues m * (decelStep board k s).maxPwm < 4294967296

theorem inProportion {time : UInt16} {d : Drive} {s : Decel} (h : DecelVisits board time d s) :
    InProportion (decelStepSize board time d) d s := by
  have hp := h.proportion
  have hlow : s.maxPwm - decelStepSize board time d < 65536 :=
    (Nat.sub_le _ _).trans_lt hp.max_lt
  refine ⟨fun m => (hp.mirror m).symm, hp.leading, hp.le_max, hp.ordered, fun m => ?_, fun m => ?_⟩
  · rw [decelStep_pwmValues]
    exact rescale_le (hp.value_lt m) hlow (decelStepSize_lt board time d)
  · rw [decelStep_maxPwm]
    exact product_lt (hp.value_lt m) hlow

/-- For all compare values with the largest at least the number of steps: whenever the loop
of `stop_all_motors_sync` tests `max_pwm`, the registers hold the values of the array, a
largest channel equals `max_pwm`, none exceeds it, the order found on entry is kept, the next
iteration raises no channel and overflows no product; and the function returns with the
registers of the last of these states, all three at 0. -/
theorem stop_keeps_proportion (time : UInt16) (d : Drive) (h : decelSteps time ≤ maxPwm board d) :
    (∀ s, DecelVisits board time d s → InProportion (decelStepSize board time d) d s) ∧
      ∃ s, Returns time d s ∧ Stopped board s.drive.act :=
  ⟨fun _ hs => inProportion hs, (returns_iff time d).mpr (.inr h)⟩

/-- Three different compare values, one of them the largest possible. -/
theorem stop_keeps_proportion_full :
    let d : Drive :=
      ⟨⟨fun | .ch1 => 65535 | .ch2 => 500 | .ch3 => 7 | .ch4 => 0, fun _ => .set⟩, []⟩
    (∀ s, DecelVisits board 200 d s → InProportion (decelStepSize board 200 d) d s) ∧
      ∃ s, Returns 200 d s ∧ Stopped board s.drive.act :=
  stop_keeps_proportion 200 _ (by decide)

end BleCar.F103.Stopping
