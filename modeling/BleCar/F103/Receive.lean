import BleCar.Lib.Mailbox
import BleCar.F103.System

/-!
# The receive path as a mailbox with one place

`rx_buffer`, `rx_len` and `recv_end_flag` hold one burst. IDLE puts, the call of
`control_protocol_analysis` takes and a bad checksum discards. The mailbox is an honest
picture as long as the bytes of a later burst stay out of the buffer from the header test
to the end of the call: under that condition only complete, checksum-verified bursts are
executed, each at most once.
-/

namespace BleCar.F103.Receive

open BleCar.Lib.ByteSum
open BleCar.Lib.Mailbox (Box Op Ordered run_ordered)
open BleCar.Lib.Runs
open BleCar.Motion.Routines
open BleCar.Protocol.Frames
open BleCar.Protocol.Control (ControlPos Progress controlReads_summed controlStep_congr reads_le)
open BleCar.Protocol.Buffer
open BleCar.F103.Firmware hiding step boot
open BleCar.F103.System

/-- The bursts executed are terminated ones, each at most once and in order, and
`control_protocol_analysis` reads the bytes that were summed. -/
structure Executes (s : Sys) : Prop where
  bursts : (s.entered.map Entry.bytes).Sublist s.terminated
  reads : ∀ en ∈ s.entered, en.reads ⊆ en.summed

/-- Between the header test and the end of `control_protocol_analysis`. -/
def InParser : MainPos → Prop
  | .clearFlag | .readLen | .checkSum _ | .control _ | .command _ => True
  | _ => False

instance : ∀ p, Decidable (InParser p)
  | .clearFlag | .readLen | .checkSum _ | .control _ | .command _ => isTrue trivial
  | .flagTest | .headerTest | .checkError | .task => isFalse id

/-- The buffer is in use. -/
def Occupied (s : Sys) : Prop := s.mcu.rx.recvEndFlag = true ∨ InParser s.pos

instance (s : Sys) : Decidable (Occupied s) := inferInstanceAs (Decidable (_ ∨ _))

/-- The flag has been cleared, and the burst is not taken yet. -/
def Parsing : MainPos → Prop
  | .readLen | .checkSum _ | .control _ => True
  | _ => False

/-- A burst lies in the buffer. -/
def Loaded (s : Sys) : Prop := s.mcu.rx.recvEndFlag = true ∨ Parsing s.pos

/-- A header test passes only while no byte of a later burst is in the buffer and `rx_len`
is not 0, as it is after 256 bytes; and from there to the end of `control_protocol_analysis`
no byte is received. -/
def Untorn (s : Sys) : Event → Prop
  | .main y => s.pos = .headerTest → headerOk y s.mcu.rx → s.incoming = [] ∧ s.mcu.rx.rxLen ≠ 0
  | .rxByte _ => ¬ InParser s.pos
  | _ => True

instance (s : Sys) (e : Event) : Decidable (Untorn s e) := by
  cases e <;> unfold Untorn <;> infer_instance

/-- The mailbox operations of an event. -/
def ops (s : Sys) : Event → List (Op (List UInt8))
  | .idle => [.put s.incoming]
  | .main y =>
    match s.pos with
    | .checkSum n => if checkCode (rxRead y s.mcu.rx) n ≠ 0 then [.discard] else []
    | .control _ => [.take]
    | _ => []
  | _ => []

/-- The last call of `control_protocol_analysis` stands at `p`, on bytes whose sum was right. -/
structure Called (s : Sys) (p : ControlPos) (before : List Entry) (en : Entry) (y : Stray)
    (n : UInt8) (g₀ : Globals) (done : List Nat) : Prop where
  entered : s.entered = before ++ [en]
  checked : checkCode (rxRead y s.mcu.rx) n = 0
  summed : en.summed = readFrom y s.mcu.rx 3 (sumLen n)
  progress : Progress myTurnLeft myTurnRight (rxRead y s.mcu.rx) g₀ s.mcu.globals p done

/-- The receive path looks like the mailbox `m`. -/
structure Mail (s : Sys) (m : Box (List UInt8)) : Prop where
  offered : m.offered = s.terminated
  taken : m.taken = s.entered.map Entry.bytes
  loaded : Loaded s ↔ m.slot.isSome = true
  /-- the bytes under way are at the start of the buffer -/
  arrived : ∀ i (h : i < 256), i < s.incoming.length →
    s.mcu.rx.rxBuffer ⟨i, h⟩ = bytesAt s.incoming i
  /-- behind them the letter is still intact -/
  held : ∀ b, m.slot = some b → s.mcu.rx.rxLen = idleLen b.length ∧
    ∀ i (h : i < 256), s.incoming.length ≤ i → i < b.length →
      s.mcu.rx.rxBuffer ⟨i, h⟩ = bytesAt b i
  flagged : s.pos = .headerTest ∨ s.pos = .clearFlag → s.mcu.rx.recvEndFlag = true
  cleared : InParser s.pos → s.pos ≠ .clearFlag → s.mcu.rx.recvEndFlag = false
  quiet : InParser s.pos → s.incoming = [] ∧ s.mcu.rx.rxLen ≠ 0
  myCalLen : ∀ n, s.pos = .checkSum n ∨ s.pos = .control n → n = s.mcu.rx.rxLen
  summed : ∀ n, s.pos = .control n → ∃ y, checkCode (rxRead y s.mcu.rx) n = 0 ∧
    s.summed = readFrom y s.mcu.rx 3 (sumLen n)
  called : ∀ p, s.pos = .command p → ∃ before en y n g₀ done, Called s p before en y n g₀ done
  reads : ∀ en ∈ s.entered, en.reads ⊆ en.summed

theorem boot_mail : Mail boot BleCar.Lib.Mailbox.empty where
  offered := rfl
  taken := rfl
  loaded := by simp [Loaded, Parsing, boot, Firmware.boot, Rx.boot, BleCar.Lib.Mailbox.empty]
  arrived _ _ hi := absurd hi (Nat.not_lt_zero _)
  held _ hb := by cases hb
  flagged h := by rcases h with h | h <;> cases h
  cleared h := h.elim
  quiet h := h.elim
  myCalLen _ h := by rcases h with h | h <;> cases h
  summed _ h := by cases h
  called _ h := by cases h
  reads _ h := absurd h List.not_mem_nil

/-! ## What each event does to the mailbox -/

variable {s t : Sys} {m : Box (List UInt8)}

theorem inParser_of_parsing {p : MainPos} (h : Parsing p) : InParser p := by
  cases p <;> first | exact h | trivial

/-- The transmit side does not show in the mailbox. -/
theorem Mail.transmit (h : Mail s m) (tx : Tx) (wire : List UInt8) :
    Mail { s with tx, wire } m :=
  { h with
    called := fun p hp => by
      obtain ⟨before, en, y, n, g₀, done, hc⟩ := h.called p hp
      exact ⟨before, en, y, n, g₀, done, hc.entered, hc.checked, hc.summed, hc.progress⟩ }

/-- Steps of the main loop outside the parser leave the buffer and the histories alone. -/
theorem Mail.outside (h : Mail s m) (hrx : t.mcu.rx = s.mcu.rx) (hin : t.incoming = s.incoming)
    (hterm : t.terminated = s.terminated) (hent : t.entered = s.entered) (hp : ¬ Parsing s.pos)
    (hq : ¬ InParser t.pos) (hf : t.pos = .headerTest → s.mcu.rx.recvEndFlag = true) :
    Mail t m where
  offered := by rw [hterm]; exact h.offered
  taken := by rw [hent]; exact h.taken
  loaded := by
    have hp' : ¬ Parsing t.pos := fun hpt => hq (inParser_of_parsing hpt)
    have ho := h.loaded
    simp only [Loaded, hp, hp', or_false, hrx] at ho ⊢
    exact ho
  arrived := by rw [hrx, hin]; exact h.arrived
  held := by rw [hrx, hin]; exact h.held
  flagged := by
    rintro (hh | hc)
    · rw [hrx]; exact hf hh
    · exact absurd (by rw [hc]; trivial) hq
  cleared hpt := absurd hpt hq
  quiet hpt := absurd hpt hq
  myCalLen n hn := absurd (by rcases hn with hn | hn <;> rw [hn] <;> trivial) hq
  summed n hn := absurd (by rw [hn]; trivial) hq
  called p hn := absurd (by rw [hn]; trivial) hq
  reads := by rw [hent]; exact h.reads

theorem Mail.rxByte (h : Mail s m) (hp : ¬ InParser s.pos) (b : UInt8) : Mail (rxByte b s) m where
  offered := h.offered
  taken := h.taken
  loaded := h.loaded
  arrived i hi hlt := by
    simp only [System.rxByte, Sys.withRx, dmaStore, List.length_append,
      List.length_singleton] at hlt ⊢
    by_cases hn : i = s.incoming.length
    · rw [if_pos hn, hn, bytesAt, List.getD_append_right _ _ _ _ (le_refl _)]
      simp
    · rw [if_neg hn, h.arrived i hi (by omega), bytesAt, bytesAt,
        List.getD_append _ _ _ _ (by omega)]
  held b hb := by
    refine ⟨(h.held b hb).1, fun i hi hle hlt => ?_⟩
    simp only [System.rxByte, Sys.withRx, dmaStore, List.length_append,
      List.length_singleton] at hle ⊢
    rw [if_neg (by omega)]
    exact (h.held b hb).2 i hi (by omega) hlt
  flagged := h.flagged
  cleared := h.cleared
  quiet hq := absurd hq hp
  myCalLen := h.myCalLen
  summed n hn := absurd (by rw [show s.pos = .control n from hn]; trivial) hp
  called p hn := absurd (by rw [show s.pos = .command p from hn]; trivial) hp
  reads := h.reads

/-- A terminated burst, put into the mailbox. -/
theorem Mail.put (h : Mail s m) {b : List UInt8} (hp : ¬ InParser s.pos) (hpos : t.pos = s.pos)
    (hent : t.entered = s.entered) (hterm : t.terminated = s.terminated ++ [b])
    (hin : t.incoming = []) (hflag : t.mcu.rx.recvEndFlag = true)
    (hlen : t.mcu.rx.rxLen = idleLen b.length)
    (hbuf : ∀ i (hi : i < 256), i < b.length → t.mcu.rx.rxBuffer ⟨i, hi⟩ = bytesAt b i) :
    Mail t { m with offered := m.offered ++ [b], slot := some b } where
  offered := by rw [hterm, ← h.offered]
  taken := by rw [hent]; exact h.taken
  loaded := ⟨fun _ => rfl, fun _ => .inl hflag⟩
  arrived i _ hi := by
    rw [hin] at hi
    exact absurd hi (Nat.not_lt_zero i)
  held c hc := by
    obtain rfl := Option.some.inj hc
    exact ⟨hlen, fun i hi _ hlt => hbuf i hi hlt⟩
  flagged _ := hflag
  cleared hpt := absurd (hpos ▸ hpt) hp
  quiet hpt := absurd (hpos ▸ hpt) hp
  myCalLen n hn := by
    rw [hpos] at hn
    exact absurd (by rcases hn with hn | hn <;> rw [hn] <;> trivial) hp
  summed n hn := by
    rw [hpos] at hn
    exact absurd (by rw [hn]; trivial) hp
  called p hn := by
    rw [hpos] at hn
    exact absurd (by rw [hn]; trivial) hp
  reads := by rw [hent]; exact h.reads

/-- IDLE puts the burst into the mailbox. -/
theorem Mail.idle (h : Mail s m) (ht : idle s = some t) :
    ∃ m', BleCar.Lib.Mailbox.step m (.put s.incoming) = some m' ∧ Mail t m' := by
  unfold System.idle at ht
  split at ht
  case isTrue => cases ht
  case isFalse hne =>
    obtain rfl := Option.some.inj ht
    have hp : ¬ InParser s.pos := fun hp => hne (h.quiet hp).1
    exact ⟨_, rfl, h.put hp rfl rfl rfl rfl rfl rfl h.arrived⟩

/-- The length the parser works with is that of the letter, and the letter is whole. -/
theorem Mail.letter (h : Mail s m) (hp : InParser s.pos) {b : List UInt8} (hb : m.slot = some b) :
    s.mcu.rx.rxLen.toNat = b.length ∧
      ∀ y, (List.range s.mcu.rx.rxLen.toNat).map (rxRead y s.mcu.rx) = b := by
  obtain ⟨hlen, hheld⟩ := h.held b hb
  obtain ⟨hin, hne⟩ := h.quiet hp
  have h1 : 1 ≤ b.length := by
    by_contra h0
    rw [show b.length = 0 by omega] at hlen
    exact hne hlen
  have h255 : b.length ≤ 255 := by
    by_contra hgt
    rw [idleLen_full (by omega)] at hlen
    exact hne hlen
  have hnat : s.mcu.rx.rxLen.toNat = b.length := by rw [hlen, idleLen_toNat h1 h255]
  refine ⟨hnat, fun y => ?_⟩
  rw [hnat]
  apply List.ext_getElem (by simp)
  intro i _ hi
  rw [List.getElem_map, List.getElem_range, rxRead, dif_pos (by omega),
    hheld i (by omega) (by rw [hin]; exact Nat.zero_le i) hi, bytesAt,
    List.getD_eq_getElem _ _ hi]

theorem letter_of_parsing (h : Mail s m) (hp : Parsing s.pos) : ∃ b, m.slot = some b :=
  Option.isSome_iff_exists.mp (h.loaded.mp (.inr hp))

/-! ## The statements of the parser -/

theorem Mail.passHeader (h : Mail s m) (hpos : s.pos = .headerTest) (hin : s.incoming = [])
    (hlen : s.mcu.rx.rxLen ≠ 0) : Mail { s with pos := .clearFlag } m :=
  { h with
    loaded := by
      have ho := h.loaded
      simpa [Loaded, Parsing, hpos] using ho
    flagged := fun _ => h.flagged (.inl hpos)
    cleared := fun _ hp => absurd rfl hp
    quiet := fun _ => ⟨hin, hlen⟩
    myCalLen := fun n hn => by rcases hn with hn | hn <;> cases hn
    summed := fun n hn => by cases hn
    called := fun p hn => by cases hn }

theorem Mail.clearFlag (h : Mail s m) (hpos : s.pos = .clearFlag) :
    Mail { s.withRx { s.mcu.rx with recvEndFlag := false } with pos := .readLen } m :=
  { h with
    loaded := ⟨fun _ => h.loaded.mp (.inl (h.flagged (.inr hpos))), fun _ => .inr trivial⟩
    arrived := h.arrived
    held := h.held
    flagged := fun hp => by rcases hp with hp | hp <;> cases hp
    cleared := fun _ _ => rfl
    quiet := fun _ => h.quiet (by rw [hpos]; trivial)
    myCalLen := fun n hn => by rcases hn with hn | hn <;> cases hn
    summed := fun n hn => by cases hn
    called := fun p hn => by cases hn }

theorem Mail.readLen (h : Mail s m) (hpos : s.pos = .readLen) :
    Mail { s with pos := .checkSum s.mcu.rx.rxLen } m :=
  { h with
    loaded := by
      have ho := h.loaded
      simpa [Loaded, Parsing, hpos] using ho
    flagged := fun hp => by rcases hp with hp | hp <;> cases hp
    cleared := fun _ _ => h.cleared (by rw [hpos]; trivial) (by simp [hpos])
    quiet := fun _ => h.quiet (by rw [hpos]; trivial)
    myCalLen := fun n hn => by
      rcases hn with hn | hn
      · exact (MainPos.checkSum.inj hn).symm
      · cases hn
    summed := fun n hn => by cases hn
    called := fun p hn => by cases hn }

/-- A right checksum: the letter will be taken. -/
theorem Mail.checked (h : Mail s m) {n : UInt8} (hpos : s.pos = .checkSum n) {y : Stray}
    (hc : checkCode (rxRead y s.mcu.rx) n = 0) :
    Mail { s with summed := readFrom y s.mcu.rx 3 (sumLen n), pos := .control n } m :=
  { h with
    loaded := by
      have ho := h.loaded
      simpa [Loaded, Parsing, hpos] using ho
    flagged := fun hp => by rcases hp with hp | hp <;> cases hp
    cleared := fun _ _ => h.cleared (by rw [hpos]; trivial) (by simp [hpos])
    quiet := fun _ => h.quiet (by rw [hpos]; trivial)
    myCalLen := fun k hk => by
      rcases hk with hk | hk
      · cases hk
      · exact (MainPos.control.inj hk) ▸ h.myCalLen n (.inl hpos)
    summed := fun k hk => by
      obtain rfl := MainPos.control.inj hk
      exact ⟨y, hc, rfl⟩
    called := fun p hn => by cases hn }

/-- A wrong checksum throws the letter away. -/
theorem Mail.unchecked (h : Mail s m) {n : UInt8} (hpos : s.pos = .checkSum n)
    (su : List (Nat × UInt8)) :
    Mail { s with summed := su, pos := .checkError } { m with slot := none } :=
  { h with
    loaded := by
      have hf := h.cleared (by rw [hpos]; trivial) (by simp [hpos])
      simp [Loaded, Parsing, hf]
    held := fun b hb => by cases hb
    flagged := fun hp => by rcases hp with hp | hp <;> cases hp
    cleared := fun hp => hp.elim
    quiet := fun hp => hp.elim
    myCalLen := fun k hk => by rcases hk with hk | hk <;> cases hk
    summed := fun k hk => by cases hk
    called := fun p hn => by cases hn }

/-- The call of `control_protocol_analysis` takes the letter. -/
theorem Mail.enter (h : Mail s m) {n : UInt8} (hpos : s.pos = .control n) (y : Stray) :
    ∃ m', BleCar.Lib.Mailbox.step m .take = some m' ∧
      Mail { s with entered := s.entered ++ [entry y n s], pos := .command .switch } m' := by
  obtain ⟨b, hb⟩ := letter_of_parsing h (by rw [hpos]; trivial)
  obtain ⟨-, hbytes⟩ := h.letter (by rw [hpos]; trivial) hb
  obtain ⟨z, hc, hs⟩ := h.summed n hpos
  have hn := h.myCalLen n (.inr hpos)
  have hf := h.cleared (by rw [hpos]; trivial) (by simp [hpos])
  refine ⟨{ m with slot := none, taken := m.taken ++ [b] },
    by simp [BleCar.Lib.Mailbox.step, hb], ?_⟩
  exact
    { offered := h.offered
      taken := by
        have hentry : (entry y n s).bytes = b := by rw [entry, hn]; exact hbytes y
        simp [h.taken, hentry]
      loaded := by simp [Loaded, Parsing, hf]
      arrived := h.arrived
      held := fun b hb => by cases hb
      flagged := fun hp => by rcases hp with hp | hp <;> cases hp
      cleared := fun _ _ => hf
      quiet := fun _ => h.quiet (by rw [hpos]; trivial)
      myCalLen := fun k hk => by rcases hk with hk | hk <;> cases hk
      summed := fun k hk => by cases hk
      called := fun p hp => by
        obtain rfl := MainPos.command.inj hp
        exact ⟨s.entered, entry y n s, z, n, s.mcu.globals, [], rfl, hc, hs, .start⟩
      reads := by
        intro en hen
        rcases List.mem_append.mp hen with hold | hnew
        · exact h.reads en hold
        · rw [List.mem_singleton.mp hnew]
          exact List.nil_subset _ }

/-- What a statement of the call reads was summed, whatever lies outside the buffer. -/
theorem Called.reads_summed {p : ControlPos} {before : List Entry} {en : Entry} {y : Stray}
    {n : UInt8} {g₀ : Globals} {done : List Nat} (h : Called s p before en y n g₀ done)
    (y' : Stray) : (p.reads.map fun i => (i, rxRead y' s.mcu.rx i)) ⊆ en.summed := by
  have hc := h.checked
  rw [checkCode, myCheckCodeAnalysis_eq_zero] at hc
  intro r hr
  obtain ⟨i, hi, rfl⟩ := List.mem_map.mp hr
  have hle := reads_le hi
  obtain ⟨hlo, hhi⟩ := controlReads_summed hc (h.progress.mem_controlReads hi)
  rw [rxRead_inside y' y s.mcu.rx (by omega), h.summed, readFrom, List.mem_map]
  refine ⟨i - 3, List.mem_range.mpr (by rw [sumLen]; omega), ?_⟩
  rw [show 3 + (i - 3) = i by omega]

/-- The statements of `control_protocol_analysis` leave the mailbox alone. -/
theorem Mail.command (h : Mail s m) {p : ControlPos} (hpos : s.pos = .command p) (y : Stray) :
    Mail (execute y p s) m := by
  obtain ⟨before, en, z, n, g₀, done, hcall⟩ := h.called p hpos
  have hf := h.cleared (by rw [hpos]; trivial) (by simp [hpos])
  have hslot := h.loaded
  simp only [Loaded, hf, hpos, Parsing, Bool.false_eq_true, or_self, false_iff] at hslot
  have hdata : controlStatement y p s =
      Protocol.Control.controlStep myTurnLeft myTurnRight y s.mcu.globals (rxRead z s.mcu.rx) p :=
    controlStep_congr fun i hi => rxRead_inside y z s.mcu.rx (by have := reads_le hi; omega)
  have hentered : noteReads (p.reads.map fun i => (i, rxRead y s.mcu.rx i)) s.entered = before ++
      [{ en with reads := en.reads ++ p.reads.map fun i => (i, rxRead y s.mcu.rx i) }] := by
    rw [hcall.entered, noteReads_concat]
  have hplace := elim_next (controlStatement y p s).next
  rw [execute_eq]
  exact
    { offered := h.offered
      taken := by
        dsimp only
        rw [noteReads_bytes]
        exact h.taken
      loaded := by
        rcases hplace with hr | ⟨r, -, hr⟩ <;> simp [Loaded, Parsing, hr, hf, hslot]
      arrived := h.arrived
      held := h.held
      flagged := fun hq => by rcases hplace with hr | ⟨r, -, hr⟩ <;> simp [hr] at hq
      cleared := fun _ _ => hf
      quiet := fun _ => h.quiet (by rw [hpos]; trivial)
      myCalLen := fun k hk => by rcases hplace with hr | ⟨r, -, hr⟩ <;> simp [hr] at hk
      summed := fun k hk => by rcases hplace with hr | ⟨r, -, hr⟩ <;> simp [hr] at hk
      called := fun q hq => by
        refine ⟨before, _, z, n, g₀, done ++ p.reads, hentered, hcall.checked, hcall.summed, ?_⟩
        rcases hplace with hr | ⟨r, hn, hr⟩
        · cases hr.symm.trans hq
        obtain rfl : r = q := MainPos.command.inj (hr.symm.trans hq)
        have hprogress := hcall.progress.next (hdata ▸ hn)
        rw [← hdata] at hprogress
        exact hprogress
      reads := by
        dsimp only
        rw [hentered]
        intro e he
        rcases List.mem_append.mp he with hold | hnew
        · exact h.reads e (hcall.entered ▸ List.mem_append_left _ hold)
        · rw [List.mem_singleton.mp hnew]
          refine List.append_subset.mpr ⟨h.reads en ?_, hcall.reads_summed y⟩
          rw [hcall.entered]
          exact List.mem_append_right _ (List.mem_singleton_self en) }

/-- The statements of the main loop. -/
theorem Mail.main (h : Mail s m) {y : Stray} (hu : Untorn s (.main y))
    (ht : mainStep y s = some t) :
    ∃ m', run BleCar.Lib.Mailbox.step m (ops s (.main y)) = some m' ∧ Mail t m' := by
  cases mainStep_stepped ht with
  | flagTest hpos =>
    refine ⟨m, by simp [ops, hpos], h.outside rfl rfl rfl rfl (by simp [hpos, Parsing]) ?_ ?_⟩
    · dsimp only; split <;> exact id
    · dsimp only
      split
      case isTrue => exact fun hc => by cases hc
      case isFalse hf => exact fun _ => not_not.mp hf
  | headerTest hpos =>
    refine ⟨m, by simp [ops, hpos], ?_⟩
    by_cases hh : headerOk y s.mcu.rx
    · obtain ⟨hin, hlen⟩ := hu hpos hh
      rw [if_pos hh]
      exact h.passHeader hpos hin hlen
    · rw [if_neg hh]
      exact h.outside rfl rfl rfl rfl (by simp [hpos, Parsing]) id fun hc => by cases hc
  | clearFlag hpos => exact ⟨m, by simp [ops, hpos], h.clearFlag hpos⟩
  | readLen hpos => exact ⟨m, by simp [ops, hpos], h.readLen hpos⟩
  | checkSum n hpos =>
    by_cases hc : checkCode (rxRead y s.mcu.rx) n = 0
    · rw [if_neg (not_not.mpr hc)]
      exact ⟨m, by simp [ops, hpos, hc], h.checked hpos hc⟩
    · rw [if_pos hc]
      exact ⟨{ m with slot := none }, by simp [ops, hpos, hc, run_cons, BleCar.Lib.Mailbox.step],
        h.unchecked hpos _⟩
  | checkError hpos =>
    exact ⟨m, by simp [ops, hpos], h.outside rfl rfl rfl rfl (by simp [hpos, Parsing]) id
      fun hc => by cases hc⟩
  | control n hpos =>
    obtain ⟨m', hm', hmail⟩ := h.enter hpos y
    exact ⟨m', by simp [ops, hpos, run_cons, hm'], hmail.command rfl y⟩
  | command p hpos => exact ⟨m, by simp [ops, hpos], h.command hpos y⟩
  | task out hpos =>
    exact ⟨m, by simp [ops, hpos], h.outside rfl rfl rfl rfl (by simp [hpos, Parsing]) id
      fun hc => by cases hc⟩

/-- Every event that leaves the buffer untorn is matched by the mailbox. -/
theorem Mail.step (h : Mail s m) {e : Event} (hu : Untorn s e) (ht : System.step s e = some t) :
    ∃ m', run BleCar.Lib.Mailbox.step m (ops s e) = some m' ∧ Mail t m' := by
  cases e with
  | rxByte b =>
    obtain rfl := Option.some.inj ht
    exact ⟨m, rfl, h.rxByte hu b⟩
  | idle =>
    obtain ⟨m', hm', hmail⟩ := h.idle ht
    exact ⟨m', by simp [ops, run_cons, hm'], hmail⟩
  | main y => exact h.main hu ht
  | txByte =>
    simp only [System.step, txByte] at ht
    split at ht <;> cases ht
    exact ⟨m, rfl, h.transmit _ _⟩
  | dmaComplete =>
    simp only [System.step, dmaComplete] at ht
    split at ht <;> cases ht
    exact ⟨m, rfl, h.transmit _ _⟩
  | txDone =>
    simp only [System.step, txDone] at ht
    split at ht <;> cases ht
    exact ⟨m, rfl, h.transmit _ _⟩

/-! ## Runs -/

theorem Mail.executes (h : Mail s m) (ho : Ordered m) : Executes s :=
  ⟨by rw [← h.taken, ← h.offered]; exact ho.taken, h.reads⟩

/-- A run of the mailbox leads to the picture of `s`. -/
def Pictured (s : Sys) : Prop :=
  ∃ os m, run BleCar.Lib.Mailbox.step BleCar.Lib.Mailbox.empty os = some m ∧ Mail s m

theorem step_pictured (s : Sys) (e : Event) (t : Sys) (h : Pictured s) (hu : Untorn s e)
    (ht : System.step s e = some t) : Pictured t := by
  obtain ⟨os, m, hos, hm⟩ := h
  obtain ⟨m', hm', hmail⟩ := hm.step hu ht
  exact ⟨os ++ ops s e, m', (run_append_of_run _ hos _).trans hm', hmail⟩

theorem Pictured.executes {s : Sys} (h : Pictured s) : Executes s := by
  obtain ⟨os, m, hos, hm⟩ := h
  exact hm.executes (run_ordered hos)

/-- For every byte stream and every interleaving whose steps leave the buffer untorn: in
every state, the bursts executed are terminated ones, each executed at most once, and
what `control_protocol_analysis` read is what was summed. -/
theorem executes_of_untorn {es : List Event} (hu : Along System.step Untorn System.boot es) :
    Always System.step Executes System.boot es :=
  always_mono _ (fun _ h => h.executes) _ _
    (always_of_along step_pictured ⟨[], _, rfl, boot_mail⟩ es hu)

/-- Statements of the main loop without stray values. -/
def mains (n : Nat) : List Event := List.replicate n (.main Stray.blank)

theorem executes_of_untorn_report :
    Always System.step Executes System.boot (arrival [0xAA, 0xAA, 0x05, 0xA4, 0x5B] ++ mains 7) :=
  executes_of_untorn (by decide)

/-- A burst without header, three statements that leave its flag set, the first two bytes
of the next burst, and seven more statements. -/
def noiseRun : List Event :=
  arrival [0x00, 0x00, 0x05, 0xA4, 0x5B] ++ mains 3 ++ [.rxByte 0xAA, .rxByte 0xAA] ++ mains 7

theorem noiseRun_end :
    (run System.step System.boot noiseRun).map
        (fun s => (s.entered.map Entry.bytes, s.terminated)) =
      some ([[0xAA, 0xAA, 0x05, 0xA4, 0x5B]], [[0x00, 0x00, 0x05, 0xA4, 0x5B]]) := by
  decide

/-- A burst is executed that was never received. -/
theorem noise_executed : ¬ ∀ es : List Event, Always System.step Executes System.boot es := by
  intro h
  obtain ⟨s, hs, hend⟩ := Option.map_eq_some_iff.mp noiseRun_end
  have hsub := (always_last _ (h noiseRun) hs).bursts
  obtain ⟨hbytes, hterm⟩ := Prod.mk.inj hend
  rw [hbytes, hterm] at hsub
  exact absurd hsub (by decide)

end BleCar.F103.Receive
