import BleCar.L151.System

/-!
# When received data resets the L151 motor controller

`rx_len` is zero from a bad header, a handled burst or a full buffer until the next IDLE.
The controller resets when the header test passes in that time, as it can with the flag a
bad header leaves set, or when a full buffer announces its length behind the test.
-/

namespace BleCar.L151.Reset

open BleCar.Lib.Runs
open BleCar.Motion.Routines
open BleCar.Protocol.Buffer
open BleCar.L151.Firmware hiding step boot
open BleCar.L151.System

/-- `print_array_hex` is not about to be called with length 0. -/
def Safe (s : Sys) : Prop := ∀ n, s.pos = .print n → n ≠ 0

/-- The header test passes only on a length that stands, and no full buffer is announced
between the test and the reading of `rx_len`. -/
def Counted (s : Sys) : Event → Prop
  | .rxByte _ => True
  | .idle => s.pos = .clearFlag ∨ s.pos = .readLen → s.incoming.length < 256
  | .main y => s.pos = .headerTest → headerOk y s.mcu.rx → s.lengthStands = true

instance (s : Sys) : ∀ e, Decidable (Counted s e)
  | .rxByte _ => isTrue trivial
  | .idle => inferInstanceAs (Decidable (_ → _))
  | .main _ => inferInstanceAs (Decidable (_ → _ → _))

/-- The length on its way from the header test to `print_array_hex`. -/
def lenInHand (s : Sys) : Option UInt8 :=
  match s.pos with
  | .clearFlag | .readLen => some s.mcu.rx.rxLen
  | .zeroLen n | .copy n | .clear n | .print n => some n
  | _ => none

/-- Neither a length that stands nor one in hand is zero. -/
structure Kept (s : Sys) : Prop where
  stands : s.lengthStands = true → s.mcu.rx.rxLen ≠ 0
  inHand : ∀ n, lenInHand s = some n → n ≠ 0

theorem boot_kept : Kept System.boot :=
  ⟨fun h => absurd h Bool.false_ne_true, fun _ h => absurd h (by simp [lenInHand, System.boot])⟩

theorem Kept.safe {s : Sys} (h : Kept s) : Safe s :=
  fun n hpos => h.inHand n (by rw [lenInHand, hpos])

theorem idleLen_ne_zero {n : Nat} (h1 : 1 ≤ n) (h : n < 256) : idleLen n ≠ 0 := by
  intro hz
  have hlen := idleLen_toNat h1 (by omega)
  rw [hz, UInt8.toNat_zero] at hlen
  omega

section

variable {s t : Sys}

/-- The main loop passes a length on, drops it, or takes up `rx_len` at the header test. -/
theorem main_inHand {y : Stray} (ht : mainStep y s = some t) :
    lenInHand t = none ∨ lenInHand t = lenInHand s ∨
      s.pos = .headerTest ∧ headerOk y s.mcu.rx ∧ lenInHand t = some s.mcu.rx.rxLen := by
  cases hpos : s.pos with
  | clearFlag | readLen | zeroLen n | copy n | clear n =>
    simp only [mainStep, hpos, Option.some.injEq] at ht
    subst ht
    exact .inr (.inl (by simp only [lenInHand, hpos, Sys.withRx]))
  | headerTest =>
    simp only [mainStep, hpos, Option.some.injEq] at ht
    subst ht
    by_cases hh : headerOk y s.mcu.rx
    · exact .inr (.inr ⟨rfl, hh, by simp only [lenInHand, if_pos hh]⟩)
    · exact .inl (by simp only [lenInHand, if_neg hh])
  | flagTest | checkSum n =>
    simp only [mainStep, hpos, Option.some.injEq] at ht
    subst ht
    left
    unfold lenInHand
    dsimp only
    split_ifs <;> rfl
  | print n =>
    rw [mainStep_print hpos] at ht
    split at ht <;> cases ht
    exact .inl rfl
  | task =>
    simp only [mainStep, hpos] at ht
    obtain ⟨out, -, rfl⟩ := Option.map_eq_some_iff.mp ht
    exact .inl rfl
  | badLen | badClear | checkError | control =>
    simp only [mainStep, hpos, Option.some.injEq] at ht
    subst ht
    exact .inl rfl

/-- The main loop only zeroes `rx_len`, and then the length no longer stands. -/
theorem main_stands {y : Stray} (ht : mainStep y s = some t) :
    t.mcu.rx.rxLen = s.mcu.rx.rxLen ∧ t.lengthStands = s.lengthStands ∨
      t.mcu.rx.rxLen = 0 ∧ t.lengthStands = false := by
  cases hpos : s.pos with
  | badLen | zeroLen n =>
    simp only [mainStep, hpos, Option.some.injEq] at ht
    subst ht
    exact .inr ⟨rfl, rfl⟩
  | print n =>
    rw [mainStep_print hpos] at ht
    split at ht <;> cases ht
    exact .inl ⟨rfl, rfl⟩
  | task =>
    simp only [mainStep, hpos] at ht
    obtain ⟨out, -, rfl⟩ := Option.map_eq_some_iff.mp ht
    exact .inl ⟨rfl, rfl⟩
  | _ =>
    simp only [mainStep, hpos, Option.some.injEq] at ht
    subst ht
    exact .inl ⟨rfl, rfl⟩

theorem Kept.main (h : Kept s) {y : Stray} (hc : Counted s (.main y))
    (ht : mainStep y s = some t) : Kept t where
  stands hs := by
    rcases main_stands ht with ⟨hlen, hl⟩ | ⟨-, hl⟩
    · rw [hlen]
      exact h.stands (hl ▸ hs)
    · exact absurd hs (by simp [hl])
  inHand n hn := by
    rcases main_inHand ht with hnone | hsame | ⟨hpos, hh, htook⟩
    · rw [hnone] at hn
      cases hn
    · exact h.inHand n (hsame ▸ hn)
    · rw [htook] at hn
      exact Option.some.inj hn ▸ h.stands (hc hpos hh)

theorem idle_spec (ht : System.idle s = some t) :
    1 ≤ s.incoming.length ∧ t.pos = s.pos ∧ t.mcu.rx.rxLen = idleLen s.incoming.length ∧
      t.lengthStands = decide (s.incoming.length < 256) := by
  unfold System.idle at ht
  split at ht
  case isTrue => cases ht
  case isFalse hne =>
    obtain rfl := Option.some.inj ht
    exact ⟨List.length_pos_iff.mpr hne, rfl, rfl, rfl⟩

/-- IDLE changes the length in hand only while `rx_len` is still to be read. -/
theorem idle_inHand (hpos : t.pos = s.pos) : lenInHand t = lenInHand s ∨
    (s.pos = .clearFlag ∨ s.pos = .readLen) ∧ lenInHand t = some t.mcu.rx.rxLen := by
  unfold lenInHand
  rw [hpos]
  cases s.pos with
  | clearFlag => exact .inr ⟨.inl rfl, rfl⟩
  | readLen => exact .inr ⟨.inr rfl, rfl⟩
  | _ => exact .inl rfl

theorem Kept.idle (h : Kept s) (hc : Counted s .idle) (ht : System.idle s = some t) : Kept t := by
  obtain ⟨h1, hpos, hlen, hl⟩ := idle_spec ht
  refine ⟨fun hs => ?_, fun n hn => ?_⟩
  · rw [hl] at hs
    exact hlen ▸ idleLen_ne_zero h1 (of_decide_eq_true hs)
  · rcases idle_inHand hpos with hsame | ⟨hp, htook⟩
    · exact h.inHand n (hsame ▸ hn)
    · rw [htook, hlen] at hn
      exact Option.some.inj hn ▸ idleLen_ne_zero h1 (hc hp)

end

theorem step_kept (s : Sys) (e : Event) (t : Sys) (h : Kept s) (hc : Counted s e)
    (ht : System.step s e = some t) : Kept t := by
  cases e with
  | rxByte b =>
    obtain rfl := Option.some.inj ht
    exact ⟨h.stands, h.inHand⟩
  | idle => exact h.idle hc ht
  | main y => exact h.main hc ht

/-- For every byte stream and every interleaving in which the header test passes on
standing lengths only, and no full buffer is announced behind it: `print_array_hex` is
never called with length 0. -/
theorem never_resets {es : List Event} (hc : Along System.step Counted System.boot es) :
    Always System.step Safe System.boot es :=
  always_mono _ (fun _ h => h.safe) _ _ (always_of_along step_kept boot_kept es hc)

theorem never_resets_report :
    Always System.step Safe System.boot
      (arrival [0xAA, 0xAA, 0x05, 0xA4, 0x5B] ++ mains 11 Stray.blank) :=
  never_resets (by decide)

/-! ## What happens otherwise -/

/-- A length that does not stand is zero. -/
def Told (s : Sys) : Prop := s.lengthStands = false → s.mcu.rx.rxLen = 0

theorem step_told (s : Sys) (e : Event) (t : Sys) (h : Told s) (ht : System.step s e = some t) :
    Told t := by
  intro hs
  cases e with
  | rxByte b =>
    obtain rfl := Option.some.inj ht
    exact h hs
  | idle =>
    obtain ⟨-, -, hlen, hl⟩ := idle_spec ht
    rw [hl, decide_eq_false_iff_not, not_lt] at hs
    rw [hlen, idleLen_full hs]
  | main y =>
    rcases main_stands ht with ⟨hlen, hl⟩ | ⟨hlen, -⟩
    · rw [hlen]
      exact h (hl ▸ hs)
    · exact hlen

/-- The condition is exact but for what still arrives: a step against it, taken in any
run, puts the main loop at most five statements from calling `print_array_hex` with
length 0. -/
theorem resets_of_uncounted {es : List Event} {s t : Sys} {e : Event}
    (h : run System.step System.boot es = some s) (hu : ¬ Counted s e)
    (ht : System.step s e = some t) (y : Stray) :
    ∃ n u, run System.step t (mains n y) = some u ∧ u.pos = .print 0 := by
  have htold : Told s := last_of_step step_told (fun _ => rfl) h
  cases e with
  | rxByte b => exact absurd trivial hu
  | idle =>
    obtain ⟨hp, hfull⟩ := Classical.not_imp.mp hu
    obtain ⟨-, hpos, hlen, -⟩ := idle_spec ht
    have hzero : t.mcu.rx.rxLen = 0 := by rw [hlen, idleLen_full (by omega)]
    rcases hp with hp | hp
    · exact ⟨5, _, run_clearFlag (hpos.trans hp), congrArg MainPos.print hzero⟩
    · exact ⟨4, _, run_readLen (hpos.trans hp), congrArg MainPos.print hzero⟩
  | main z =>
    obtain ⟨hpos, hrest⟩ := Classical.not_imp.mp hu
    obtain ⟨hh, hl⟩ := Classical.not_imp.mp hrest
    have hzero : s.mcu.rx.rxLen = 0 := htold (Bool.eq_false_iff.mpr hl)
    simp only [System.step, mainStep, hpos, if_pos hh, Option.some.injEq] at ht
    subst ht
    exact ⟨5, _, run_clearFlag rfl, congrArg MainPos.print hzero⟩

/-- A bad header, whose branch zeroes `rx_len` and keeps the flag; the next pass begins, and
the first two bytes of the next burst arrive. -/
def noiseRun : List Event :=
  arrival [0x00, 0x00, 0x05, 0xA4, 0x5B] ++ mains 6 Stray.blank ++
    [.rxByte 0xAA, .rxByte 0xAA] ++ mains 6 Stray.blank

theorem noiseRun_end :
    (run System.step System.boot noiseRun).map Sys.pos = some (.print 0) := by
  decide

/-- Five bytes without a header and the header of the next burst reset the controller. -/
theorem noise_resets : ¬ ∀ es : List Event, Always System.step Safe System.boot es := by
  intro h
  obtain ⟨s, hs, hpos⟩ := Option.map_eq_some_iff.mp noiseRun_end
  exact always_last _ (h noiseRun) hs 0 hpos rfl

end BleCar.L151.Reset
