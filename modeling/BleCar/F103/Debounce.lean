import BleCar.F103.Ultrasonic

/-!
# Debouncing

`HAL_GPIO_EXTI_Callback` subtracts two readings of the 16-bit TIM3 in `uint32_t`. The
difference is the time elapsed until TIM3 wraps around, and close to 2^32 from then on.
-/

namespace BleCar.F103.Debounce

open BleCar.Lib.Clock
open BleCar.Lib.Runs
open BleCar.Motion.Hardware
open BleCar.F103.Ultrasonic

/-- The test of the callback, for an edge `d` microseconds after the last accepted one. -/
theorem ignores_iff {s : Ranger} {t d : Nat} (hd : d < period)
    (hlast : s.lastInterruptTime.toNat = reading period t)
    (hnow : s.tim3.toNat = reading period (t + d)) :
    Ignores s ↔ ¬ Wraps period t d ∧ d < 10 := by
  have hlt : reading period t < 65536 := reading_lt (by decide) t
  have hsub : (s.tim3.toUInt32 - s.lastInterruptTime).toNat =
      (reading period (t + d) + 2 ^ 32 - reading period t) % 2 ^ 32 := by
    rw [UInt32.toNat_sub, UInt16.toNat_toUInt32, hlast, hnow]
    congr 1
    omega
  rw [Ignores, UInt32.lt_iff_toNat_lt, hsub]
  exact wide_difference_lt_iff hd (by decide)

/-- An edge less than a period after the last accepted one is ignored exactly when it comes
within `DEBOUNCE_TIME`, and accepted edges are that far apart. -/
def MeasuresTime (w : World) (e : Event) : Prop :=
  ∀ gpioPin level p, e = .edge gpioPin level → w.history.accepted = some p →
    (w.history.now - p < period → (Ignores w.ranger ↔ w.history.now - p < 10)) ∧
      (¬ Ignores w.ranger → 10 ≤ w.history.now - p)

/-- Within `DEBOUNCE_TIME` of the last accepted edge TIM3 has not wrapped around. -/
def NotWrapped (w : World) (e : Event) : Prop :=
  ∀ gpioPin level p, e = .edge gpioPin level → w.history.accepted = some p →
    w.history.now - p < 10 → w.ranger.lastInterruptTime ≤ w.ranger.tim3.toUInt32

variable {start : UInt16}

theorem measuresTime_iff {w : World} (h : Timed start w.ranger w.history) (e : Event) :
    MeasuresTime w e ↔ NotWrapped w e := by
  have key : ∀ p, w.history.accepted = some p → w.history.now - p < period →
      (Ignores w.ranger ↔
        w.ranger.lastInterruptTime ≤ w.ranger.tim3.toUInt32 ∧ w.history.now - p < 10) := by
    intro p hp hd
    obtain ⟨hle, hlast⟩ := h.accepted p hp
    have hnow : w.ranger.tim3.toNat =
        reading period (start.toNat + p + (w.history.now - p)) := by
      rw [h.tim3, Nat.add_assoc, Nat.add_sub_cancel' hle]
    rw [ignores_iff hd hlast hnow, Wraps, ← hlast, ← hnow, Nat.not_lt, UInt32.le_iff_toNat_le,
      UInt16.toNat_toUInt32]
  constructor
  · intro hm gpioPin level p he hp hd
    have hlt : w.history.now - p < period := hd.trans (by decide)
    exact ((key p hp hlt).mp (((hm gpioPin level p he hp).1 hlt).mpr hd)).1
  · intro hn gpioPin level p he hp
    have hiff : w.history.now - p < period → (Ignores w.ranger ↔ w.history.now - p < 10) := by
      intro hlt
      rw [key p hp hlt]
      exact ⟨And.right, fun hd => ⟨hn gpioPin level p he hp hd, hd⟩⟩
    refine ⟨hiff, fun hi => ?_⟩
    by_contra hd
    have hten : w.history.now - p < 10 := Nat.not_le.mp hd
    exact hi ((hiff (hten.trans (by decide))).mpr hten)

/-- The same for one pair of readings, `a` and the one `d` microseconds later: the difference
in `uint16_t` would be the time elapsed. -/
theorem pair_iff (s : Ranger) (a : UInt16) (d : Nat) (hd : d < period)
    (hlast : s.lastInterruptTime = a.toUInt32) (hnow : s.tim3 = a + UInt16.ofNat d) :
    (s.tim3 - a).toNat = d ∧
      ((Ignores s ↔ (s.tim3 - a).toNat < 10) ↔ ((s.tim3 - a).toNat < 10 → a ≤ s.tim3)) := by
  have ha : a.toNat = reading period a.toNat := (Nat.mod_eq_of_lt a.toNat_lt).symm
  have hb : s.tim3.toNat = reading period (a.toNat + d) := hnow ▸ toNat_elapse ha d
  have hlast' : s.lastInterruptTime.toNat = reading period a.toNat := by
    rw [hlast, UInt16.toNat_toUInt32, ← ha]
  have helapsed : (s.tim3 - a).toNat = d := by
    have hdiff := modular_difference (t := a.toNat) hd
    have hlt : a.toNat < 65536 := a.toNat_lt
    rw [← ha, ← hb] at hdiff
    rw [UInt16.toNat_sub, ← hdiff, show period = 65536 from rfl]
    congr 1
    omega
  refine ⟨helapsed, ?_⟩
  rw [helapsed, ignores_iff hd hlast' hb, Wraps, ← ha, ← hb, Nat.not_lt, UInt16.le_iff_toNat_le]
  exact ⟨fun h hten => (h.mpr hten).1, fun h => ⟨And.right, fun hten => ⟨h hten, hten⟩⟩⟩

/-- The debouncing measures real time, of every pair of edges and in every run, exactly as long
as TIM3 does not wrap around within `DEBOUNCE_TIME` of an accepted edge. -/
theorem debounce_exact_iff (start : UInt16) (es : List Event) :
    (∀ (s : Ranger) (a : UInt16) (d : Nat), d < period → s.lastInterruptTime = a.toUInt32 →
      s.tim3 = a + UInt16.ofNat d → (s.tim3 - a).toNat = d ∧
        ((Ignores s ↔ (s.tim3 - a).toNat < 10) ↔ ((s.tim3 - a).toNat < 10 → a ≤ s.tim3))) ∧
      (Along step MeasuresTime (boot start) es ↔ Along step NotWrapped (boot start) es) :=
  ⟨pair_iff, along_timed start (fun _ e h => measuresTime_iff h e) es⟩

/-- TIM3 shows 65530 at an edge of the front sensor and 0 at the next, 6 microseconds later. -/
def quickEdges : List Event := [.edge .frontEcho .set, .elapse 6, .edge .frontEcho .reset]

theorem quick_edge_accepted : ¬ Along step MeasuresTime (boot 65530) quickEdges := by
  intro h
  have hlast := (h.2 _ rfl).2 _ rfl
  have hsix := (hlast.1 .frontEcho .reset 0 rfl rfl).2 (by decide)
  exact absurd hsix (by decide)

end BleCar.F103.Debounce
