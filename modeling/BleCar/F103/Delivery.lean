import BleCar.F103.Interleaving
import BleCar.F103.Receive

/-!
# When every command is executed

There is no queue behind the one place of the receive path, and the interrupt overwrites
what lies there. A command frame that arrives while the place is free reaches
`control_protocol_analysis` within seven statements of the main loop, however long the
task blocks in between.
-/

namespace BleCar.F103.Delivery

open BleCar.Lib.Mailbox (Box Op Lossless Careful step_lossless)
open BleCar.Lib.Runs
open BleCar.Motion.Routines
open BleCar.Protocol.Frames
open BleCar.Protocol.Buffer
open BleCar.F103.Firmware hiding step boot
open BleCar.F103.System
open BleCar.F103.Interleaving
open BleCar.F103.Receive

/-- A whole frame arrives, or the main loop executes a statement. -/
inductive Act where
  | arrive (frame : List UInt8)
  | main (y : Stray)

def Act.events : Act → List Event
  | .arrive frame => arrival frame
  | .main y => [.main y]

def act (s : Sys) (a : Act) : Option Sys := run System.step s a.events

/-- The frames that arrive, in order. -/
def frames : List Act → List (List UInt8)
  | [] => []
  | .arrive frame :: as => frame :: frames as
  | .main _ :: as => frames as

/-- A frame arrives only while the buffer is not in use. -/
def SlotFree (s : Sys) : Act → Prop
  | .arrive _ => ¬ Occupied s
  | .main _ => True

/-- Only frames of the protocol table arrive. -/
def Commands (as : List Act) : Prop := ∀ frame, Act.arrive frame ∈ as → TableFrame frame

/-- Nothing has been lost so far: what arrived has been executed or is the letter in the
mailbox, which is a whole frame. -/
structure Delivering (s : Sys) (m : Box (List UInt8)) : Prop where
  mail : Mail s m
  lossless : Lossless m
  frame : ∀ b, m.slot = some b → TableFrame b
  incoming : s.incoming = []
  pos : s.pos ≠ .checkError
  motors : MotorInv s.mcu

theorem boot_delivering : Delivering System.boot BleCar.Lib.Mailbox.empty :=
  ⟨boot_mail, BleCar.Lib.Mailbox.empty_lossless, fun b hb => by (cases hb), rfl, by decide,
    boot_motorInv⟩

variable {s t : Sys} {m : Box (List UInt8)}

theorem tableFrame_ne_nil {b : List UInt8} (h : TableFrame b) : b ≠ [] := by
  rintro rfl
  exact absurd h.length_range.1 (by decide)

/-! ## Arrivals -/

theorem occupied_of_loaded (h : Loaded s) : Occupied s := h.imp_right inParser_of_parsing

/-- A frame that finds the place free is put there. -/
theorem arrive_delivering (h : Delivering s m) {b : List UInt8} (hb : TableFrame b)
    (hfree : ¬ Occupied s) :
    ∃ t m', act s (.arrive b) = some t ∧ Delivering t m' ∧
      t.terminated = s.terminated ++ [b] := by
  have hslot : m.slot = none := by
    cases hs : m.slot with
    | none => rfl
    | some c => exact absurd (occupied_of_loaded (h.mail.loaded.mpr (by rw [hs]; rfl))) hfree
  have hp : ¬ InParser s.pos := fun hp => hfree (.inr hp)
  have hrun := run_arrival (tableFrame_ne_nil hb) h.incoming
  refine ⟨_, { m with offered := m.offered ++ [b], slot := some b }, hrun, ?_, rfl⟩
  exact
    { mail := h.mail.put hp rfl rfl rfl h.incoming rfl rfl
        fun i hi hlt => dmaFill_of_lt (i := ⟨i, hi⟩) hlt _
      lossless := step_lossless m (.put b) _ h.lossless hslot rfl
      frame := fun c hc => Option.some.inj hc ▸ hb
      incoming := h.incoming
      pos := h.pos
      motors := h.motors.congr rfl }

/-! ## Statements of the main loop -/

/-- The letter is what the parser sees. -/
theorem rxRead_letter (h : Delivering s m) {b : List UInt8} (hb : m.slot = some b) (y : Stray)
    {i : Nat} (hi : i < b.length) : rxRead y s.mcu.rx i = bytesAt b i := by
  have hlen := (h.frame b hb).length_range
  rw [rxRead, dif_pos (by omega)]
  exact (h.mail.held b hb).2 i _ (by rw [h.incoming]; exact Nat.zero_le i) hi

theorem letter_headerOk (h : Delivering s m) {b : List UInt8} (hb : m.slot = some b) (y : Stray) :
    headerOk y s.mcu.rx ∧ s.mcu.rx.rxLen ≠ 0 := by
  have hframe := h.frame b hb
  obtain ⟨h5, h7⟩ := hframe.length_range
  refine ⟨⟨?_, ?_⟩, fun hz => ?_⟩
  · rw [rxRead_letter h hb y (by omega)]
    exact hframe.1.header0
  · rw [rxRead_letter h hb y (by omega)]
    exact hframe.1.header1
  · have hnat : s.mcu.rx.rxLen.toNat = b.length := by
      rw [(h.mail.held b hb).1, idleLen_toNat (by omega) (by omega)]
    rw [hz] at hnat
    simp at hnat
    omega

theorem letter_checkCode (h : Delivering s m) {b : List UInt8} (hb : m.slot = some b) (y : Stray)
    {n : UInt8} (hn : n = s.mcu.rx.rxLen) : checkCode (rxRead y s.mcu.rx) n = 0 := by
  have hframe := h.frame b hb
  obtain ⟨h5, h7⟩ := hframe.length_range
  refine (checkCode_eq_zero (by omega) ?_ fun i hi => rxRead_letter h hb y hi).mpr hframe.1.checksum
  rw [hn, (h.mail.held b hb).1, idleLen_toNat (by omega) (by omega)]

theorem letter_of_loaded (h : Delivering s m) (hl : Loaded s) : ∃ b, m.slot = some b :=
  Option.isSome_iff_exists.mp (h.mail.loaded.mp hl)

/-- The checksum of a frame ends. -/
theorem letter_not_doomed (h : Delivering s m) : ¬ Doomed s := by
  rintro ⟨n, hpos, hn⟩
  obtain ⟨b, hb⟩ := letter_of_loaded h (.inr (by rw [hpos]; trivial))
  have hlen := (h.frame b hb).length_range
  rw [sumFaults_iff, h.mail.myCalLen n (.inl hpos), (h.mail.held b hb).1,
    idleLen_toNat (by omega) (by omega)] at hn
  omega

theorem main_untorn (h : Delivering s m) (y : Stray) : Untorn s (.main y) := by
  intro hpos _
  obtain ⟨b, hb⟩ := letter_of_loaded h (.inl (h.mail.flagged (.inl hpos)))
  exact ⟨h.incoming, (letter_headerOk h hb y).2⟩

/-- No frame is discarded. -/
theorem main_ops (h : Delivering s m) (y : Stray) :
    ops s (.main y) = [] ∨ ops s (.main y) = [.take] := by
  cases hpos : s.pos with
  | checkSum n =>
    obtain ⟨b, hb⟩ := letter_of_loaded h (.inr (by rw [hpos]; trivial))
    simp [ops, hpos, letter_checkCode h hb y (h.mail.myCalLen n (.inl hpos))]
  | _ => simp [ops, hpos]

/-- The number of statements up to the call of `control_protocol_analysis`, while a frame
waits for it. -/
def rank : MainPos → Nat
  | .checkError | .command _ => 8
  | .task => 7
  | .flagTest => 6
  | .headerTest => 5
  | .clearFlag => 4
  | .readLen => 3
  | .checkSum _ => 2
  | .control _ => 1

/-- While a frame waits, every statement brings the parser closer to its call. -/
theorem main_rank (h : Delivering s m) {y : Stray} (ht : mainStep y s = some t) :
    t.pos ≠ .checkError ∧ (Loaded t → Loaded s ∧ rank t.pos < rank s.pos) := by
  cases mainStep_stepped ht with
  | flagTest hpos =>
    by_cases hf : s.mcu.rx.recvEndFlag = true
    · simp [hf, rank, Loaded, hpos]
    · simp [hf, Loaded, Parsing]
  | headerTest hpos =>
    have hf := h.mail.flagged (.inl hpos)
    obtain ⟨b, hb⟩ := letter_of_loaded h (.inl hf)
    simp [(letter_headerOk h hb y).1, hf, rank, Loaded, hpos]
  | clearFlag hpos => simp [h.mail.flagged (.inr hpos), rank, Loaded, hpos]
  | readLen hpos => simp [rank, Loaded, Parsing, hpos]
  | checkSum n hpos =>
    obtain ⟨b, hb⟩ := letter_of_loaded h (.inr (by rw [hpos]; trivial))
    simp [letter_checkCode h hb y (h.mail.myCalLen n (.inl hpos)), rank, Loaded, Parsing, hpos]
  | checkError hpos => exact absurd hpos h.pos
  | control n hpos =>
    have hf := h.mail.cleared (by rw [hpos]; trivial) (by simp [hpos])
    rw [execute_eq]
    dsimp only [Loaded]
    cases (controlStatement y .switch { s with entered := s.entered ++ [entry y n s] }).next <;>
      simp [Parsing, hf]
  | command p hpos =>
    have hf := h.mail.cleared (by rw [hpos]; trivial) (by simp [hpos])
    rw [execute_eq]
    dsimp only [Loaded]
    cases (controlStatement y p s).next <;> simp [Parsing, hf]
  | task out hpos =>
    refine ⟨by simp, fun hl => ⟨.inl (hl.resolve_right id), ?_⟩⟩
    simp [rank, hpos]

/-- Every statement can be executed and loses nothing. -/
theorem main_delivering (h : Delivering s m) (y : Stray) :
    ∃ t m', mainStep y s = some t ∧ Delivering t m' ∧ t.terminated = s.terminated ∧
      (Loaded t → Loaded s ∧ rank t.pos < rank s.pos) := by
  obtain ⟨t, ht⟩ := (main_goes_iff h.motors y).mpr (letter_not_doomed h)
  have hmotors := main_motorInv h.motors ht
  obtain ⟨m', hm', hmail⟩ := h.mail.main (main_untorn h y) ht
  obtain ⟨hin, hterm⟩ := main_incoming ht
  obtain ⟨hpos, hrank⟩ := main_rank h ht
  refine ⟨t, m', ht, ⟨hmail, ?_, ?_, hin.trans h.incoming, hpos, hmotors⟩, hterm, hrank⟩
  · rcases main_ops h y with ho | ho
    · rw [ho] at hm'
      exact Option.some.inj hm' ▸ h.lossless
    · rw [ho, run_singleton] at hm'
      exact step_lossless m .take m' h.lossless trivial hm'
  · rcases main_ops h y with ho | ho
    · rw [ho] at hm'
      exact Option.some.inj hm' ▸ h.frame
    · rw [ho, run_singleton] at hm'
      obtain ⟨a, -, rfl⟩ := Option.map_eq_some_iff.mp hm'
      exact fun b hb => by cases hb

/-! ## Runs -/

theorem run_delivering {as : List Act} (hf : Commands as) (hfree : Along act SlotFree s as)
    (h : Delivering s m) :
    ∃ t m', run act s as = some t ∧ Delivering t m' ∧ t.terminated = s.terminated ++ frames as := by
  induction as generalizing s m with
  | nil => exact ⟨s, m, rfl, h, by simp [frames]⟩
  | cons a as ih =>
    have hf' : Commands as := fun frame hmem => hf frame (List.mem_cons_of_mem _ hmem)
    cases a with
    | arrive frame =>
      obtain ⟨u, n, hu, hdel, hterm⟩ :=
        arrive_delivering h (hf frame List.mem_cons_self) hfree.1
      obtain ⟨t, m', ht, hdel', hterm'⟩ := ih hf' (hfree.2 u hu) hdel
      refine ⟨t, m', (run_cons_of_step act hu as).trans ht, hdel', ?_⟩
      rw [hterm', hterm, frames, List.append_assoc]
      rfl
    | main y =>
      obtain ⟨u, n, hu, hdel, hterm, -⟩ := main_delivering h y
      have hact : act s (.main y) = some u := by rw [act, Act.events, run_singleton]; exact hu
      obtain ⟨t, m', ht, hdel', hterm'⟩ := ih hf' (hfree.2 u hact) hdel
      exact ⟨t, m', (run_cons_of_step act hact as).trans ht, hdel', by rw [hterm', hterm, frames]⟩

/-- While the main loop runs undisturbed, the rank bounds how long a frame waits. -/
theorem run_mains (ys : List Stray) (h : Delivering s m) :
    ∃ t m', run act s (ys.map .main) = some t ∧ Delivering t m' ∧ t.terminated = s.terminated ∧
      (Loaded t → Loaded s ∧ rank t.pos + ys.length ≤ rank s.pos) := by
  induction ys generalizing s m with
  | nil => exact ⟨s, m, rfl, h, rfl, fun ho => ⟨ho, le_refl _⟩⟩
  | cons y ys ih =>
    obtain ⟨u, n, hu, hdel, hterm, hrank⟩ := main_delivering h y
    have hact : act s (.main y) = some u := by rw [act, Act.events, run_singleton]; exact hu
    obtain ⟨t, m', ht, hdel', hterm', hrank'⟩ := ih hdel
    refine ⟨t, m', (run_cons_of_step act hact _).trans ht, hdel', hterm'.trans hterm, fun ho => ?_⟩
    obtain ⟨hou, hle⟩ := hrank' ho
    obtain ⟨hos, hlt⟩ := hrank hou
    rw [List.length_cons]
    exact ⟨hos, by omega⟩

theorem rank_pos (p : MainPos) : 1 ≤ rank p := by cases p <;> simp [rank]

theorem rank_le (h : Delivering s m) (hl : Loaded s) : rank s.pos ≤ 7 := by
  cases hpos : s.pos with
  | checkError => exact absurd hpos h.pos
  | command p =>
    rw [Loaded, h.mail.cleared (by rw [hpos]; trivial) (by simp [hpos]), hpos] at hl
    exact hl.elim (fun hf => by cases hf) False.elim
  | _ => simp [rank]

/-- For every sequence of command frames and every interleaving in which each frame finds
the buffer free: after seven more statements of the main loop, each frame has been passed
to `control_protocol_analysis` exactly once, in the order of arrival. -/
theorem delivered {as : List Act} (hf : Commands as) (hfree : Along act SlotFree System.boot as)
    {ys : List Stray} (hy : 7 ≤ ys.length) :
    ∃ t, run act System.boot (as ++ ys.map .main) = some t ∧
      t.entered.map Entry.bytes = frames as := by
  obtain ⟨u, n, hu, hdel, hterm⟩ := run_delivering hf hfree boot_delivering
  obtain ⟨t, m, ht, hdel', hterm', hrank⟩ := run_mains ys hdel
  refine ⟨t, (run_append_of_run act hu _).trans ht, ?_⟩
  have hslot : m.slot = none := by
    cases hs : m.slot with
    | none => rfl
    | some b =>
      obtain ⟨hl, hle⟩ := hrank (hdel'.mail.loaded.mpr (by rw [hs]; rfl))
      have h1 := rank_pos t.pos
      have h7 := rank_le hdel hl
      omega
  rw [← hdel'.mail.taken, hdel'.lossless.taken hslot, hdel'.mail.offered, hterm', hterm]
  rfl

/-- `AA AA 06 A5 00 5A`. -/
def stopFrame : List UInt8 := [0xAA, 0xAA, 0x06, 0xA5, 0x00, 0x5A]

/-- `AA AA 05 A4 5B`. -/
def reportFrame : List UInt8 := [0xAA, 0xAA, 0x05, 0xA4, 0x5B]

def idleMains : List Stray := List.replicate 7 Stray.blank

theorem delivered_stop :
    ∃ t, run act System.boot ([.arrive stopFrame] ++ idleMains.map .main) = some t ∧
      t.entered.map Entry.bytes = [stopFrame] :=
  delivered
    (show Commands [.arrive stopFrame] by
      intro frame h
      rw [List.mem_singleton, Act.arrive.injEq] at h
      rw [h]
      decide)
    ⟨show ¬ Occupied System.boot by decide, fun _ _ => trivial⟩ (by decide)

theorem stop_overwritten_end :
    (run act System.boot
        ([.arrive stopFrame, .arrive reportFrame] ++ idleMains.map .main)).map
        (fun t => t.entered.map Entry.bytes) = some [reportFrame] := by
  decide

/-- A stop command followed by a query before the main loop polls is never executed. -/
theorem stop_overwritten :
    ¬ ∀ (as : List Act) (ys : List Stray), Commands as → 7 ≤ ys.length →
      ∀ t, run act System.boot (as ++ ys.map .main) = some t →
        t.entered.map Entry.bytes = frames as := by
  intro h
  obtain ⟨t, ht, hend⟩ := Option.map_eq_some_iff.mp stop_overwritten_end
  have hcommands : Commands [.arrive stopFrame, .arrive reportFrame] := by
    intro frame hmem
    simp only [List.mem_cons, Act.arrive.injEq, List.not_mem_nil, or_false] at hmem
    rcases hmem with rfl | rfl <;> decide
  have hall := h _ _ hcommands (show 7 ≤ idleMains.length by decide) t ht
  rw [hend] at hall
  exact absurd hall (by decide)

end BleCar.F103.Delivery
