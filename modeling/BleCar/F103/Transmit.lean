import BleCar.Lib.Line
import BleCar.F103.System

/-!
# Replies on the wire

`temp_txbuf`, the transmit channel of `huart3` and the wire behave like a line that may
lose: a reply handed over while a transfer runs is dropped and rebuilds the buffer under
it, and the IDLE interrupt cuts a running transfer off.
-/

namespace BleCar.F103.Transmit

open BleCar.Lib.Line (Op Whole Intact run_whole_iff)
open BleCar.Lib.Runs
open BleCar.Motion.Routines
open BleCar.Protocol.Frames
open BleCar.Protocol.Control (controlStep_answer)
open BleCar.Protocol.Buffer
open BleCar.F103.Firmware hiding step boot
open BleCar.F103.System

/-- What the channel has still to move. -/
def unsent (tx : Tx) : List UInt8 :=
  if tx.dmat then (List.range' tx.pos (tx.size - tx.pos)).map fun i => tx.tempTxbuf.getD i 0
  else []

/-- The frames the next statement of the main loop hands over. -/
def replies (y : Stray) (s : Sys) : List (List UInt8) :=
  match s.pos with
  | .checkError => [myUart3TxToBLE y s.mcu.globals 0xA6 0]
  | .command p => (controlStatement y p s).sent
  | _ => []

/-- A reply finds the transmitter ready, and IDLE finds nothing unsent. -/
def Undisturbed (s : Sys) : Event → Prop
  | .main y => replies y s ≠ [] → s.tx.busy = false
  | .idle => unsent s.tx = []
  | _ => True

/-- The transmit path looks like the line `l`. -/
structure Wired (s : Sys) (l : BleCar.Lib.Line.State UInt8) : Prop where
  out : l.out = s.wire
  pending : l.pending = unsent s.tx
  offered : l.offered = s.mcu.sent.flatten
  busy : s.tx.dmat = true → s.tx.busy = true
  frames : ∀ f ∈ s.mcu.sent, WellFormed f

theorem boot_wired : Wired System.boot BleCar.Lib.Line.empty :=
  ⟨rfl, rfl, rfl, fun h => by (cases h), fun _ hf => absurd hf List.not_mem_nil⟩

theorem wellFormed_ne_nil {f : List UInt8} (h : WellFormed f) : f ≠ [] := by
  rintro rfl
  exact absurd h.header0 (by decide)

/-! ## The channel -/

theorem unsent_off {tx : Tx} (h : tx.dmat = false) : unsent tx = [] := by
  simp [unsent, h]

/-- A transfer begun with the transmitter ready has the whole frame before it. -/
theorem unsent_transmit {tx : Tx} (hb : tx.busy = false) (f : List UInt8) :
    unsent (transmitDMA f tx) = f := by
  have hrange : (List.range' 0 f.length).map (fun i => f.getD i 0) = f := by
    apply List.ext_getElem (by simp)
    intro i hi _
    simp only [List.getElem_map, List.getElem_range', Nat.zero_add, Nat.one_mul]
    exact List.getD_eq_getElem _ _ _
  simp only [unsent, transmitDMA, hb, Bool.false_eq_true, if_false, if_true, Nat.sub_zero]
  exact hrange

/-- A busy transmitter goes on, over the new bytes. -/
theorem unsent_transmit_busy {tx : Tx} (hb : tx.busy = true) (f : List UInt8) :
    (unsent (transmitDMA f tx)).length = (unsent tx).length := by
  simp only [unsent, transmitDMA, hb, if_true]
  split <;> simp

theorem unsent_cons {tx : Tx} (hd : tx.dmat = true) (hlt : tx.pos < tx.size) :
    unsent tx = tx.tempTxbuf.getD tx.pos 0 :: unsent { tx with pos := tx.pos + 1 } := by
  simp only [unsent, hd, if_true]
  rw [show tx.size - tx.pos = (tx.size - (tx.pos + 1)) + 1 by omega, List.range'_succ]
  rfl

theorem unsent_dmaStop {tx : Tx} (hb : tx.dmat = true → tx.busy = true) :
    unsent (dmaStop tx) = [] ∧ ((dmaStop tx).dmat = true → (dmaStop tx).busy = true) := by
  unfold dmaStop
  by_cases hd : tx.dmat = true
  · simp [hd, hb hd, unsent]
  · simp [hd, unsent]

/-! ## What each event does to the line -/

variable {s t : Sys} {l : BleCar.Lib.Line.State UInt8}

/-- A statement hands over at most one reply, a well-formed frame. -/
theorem replies_spec (y : Stray) (s : Sys) :
    replies y s = [] ∨ ∃ f, WellFormed f ∧ replies y s = [f] := by
  unfold replies
  split
  · exact .inr ⟨_, myUart3TxToBLE_wellFormed y _ (by decide) 0, rfl⟩
  · next p _ =>
    rcases @controlStep_answer myTurnLeft myTurnRight y s.mcu.globals (rxRead y s.mcu.rx) p with
      h | ⟨ID, ret, hID, h⟩
    · exact .inl h
    · exact .inr ⟨_, myUart3TxToBLE_wellFormed y _ hID ret, h⟩
  · exact .inl rfl

/-- Looking at the command ID sends nothing. -/
theorem switch_sent (y : Stray) (s : Sys) : (controlStatement y .switch s).sent = [] := by
  simp only [controlStatement, Protocol.Control.controlStep]
  split_ifs <;> rfl

/-- All the main loop does to the transmit side. -/
theorem main_transmit {y : Stray} (h : mainStep y s = some t) :
    t.wire = s.wire ∧ t.mcu.sent = s.mcu.sent ++ replies y s ∧
      t.tx = (replies y s).foldl (fun tx f => transmitDMA f tx) s.tx := by
  unfold replies
  cases mainStep_stepped h with
  | control n hpos =>
    rw [hpos, execute_eq, switch_sent]
    exact ⟨rfl, rfl, rfl⟩
  | command p hpos =>
    rw [hpos, execute_eq]
    exact ⟨rfl, rfl, rfl⟩
  | checkError hpos =>
    rw [hpos]
    exact ⟨rfl, rfl, rfl⟩
  | flagTest hpos | headerTest hpos | clearFlag hpos | readLen hpos | checkSum n hpos
  | task out hpos =>
    rw [hpos]
    exact ⟨rfl, (List.append_nil _).symm, rfl⟩

/-- Receiving leaves the line alone. -/
theorem Wired.congr (h : Wired s l) (hw : t.wire = s.wire) (htx : t.tx = s.tx)
    (hs : t.mcu.sent = s.mcu.sent) : Wired t l :=
  ⟨by rw [hw, h.out], by rw [htx, h.pending], by rw [hs, h.offered], htx ▸ h.busy, hs ▸ h.frames⟩

/-- A statement of the main loop offers its reply, or loses it. -/
theorem Wired.main (h : Wired s l) {y : Stray} (ht : mainStep y s = some t) :
    ∃ os l', run BleCar.Lib.Line.step l os = some l' ∧
      (Undisturbed s (.main y) ↔ Along BleCar.Lib.Line.step Intact l os) ∧ Wired t l' := by
  obtain ⟨hwire, hsent, htx⟩ := main_transmit ht
  rcases replies_spec y s with hr | ⟨f, hf, hr⟩
  · rw [hr] at hsent htx
    exact ⟨[], l, rfl, by simp [Undisturbed, hr, Along],
      h.congr hwire htx (hsent.trans (List.append_nil _))⟩
  · rw [hr] at hsent htx
    have hframes : ∀ g ∈ t.mcu.sent, WellFormed g := by
      rw [hsent]
      intro g hg
      rcases List.mem_append.mp hg with hold | hnew
      · exact h.frames g hold
      · exact List.mem_singleton.mp hnew ▸ hf
    have hoffered : l.offered ++ f = t.mcu.sent.flatten := by
      rw [hsent, h.offered, List.flatten_append]
      simp
    by_cases hb : s.tx.busy = true
    · have hlen : (unsent t.tx).length = l.pending.length := by
        rw [htx, h.pending]
        exact unsent_transmit_busy hb f
      refine ⟨[.lose f (unsent t.tx)], { l with pending := unsent t.tx, offered := l.offered ++ f },
        ?_, ?_, h.out.trans hwire.symm, rfl, hoffered, ?_, hframes⟩
      · simp [BleCar.Lib.Line.step, hlen, wellFormed_ne_nil hf]
      · simp [Undisturbed, hr, hb, Along, Intact]
      · rw [htx]
        simp [transmitDMA, hb]
    · have hb' : s.tx.busy = false := Bool.eq_false_iff.mpr hb
      have hoff : s.tx.dmat = false := Bool.eq_false_iff.mpr fun hd => hb (h.busy hd)
      have hpend : l.pending = [] := by rw [h.pending, unsent_off hoff]
      refine ⟨[.offer f], { l with pending := f, offered := l.offered ++ f },
        ?_, ?_, h.out.trans hwire.symm, ?_, hoffered, ?_, hframes⟩
      · simp [BleCar.Lib.Line.step, hpend]
      · simp [Undisturbed, hb', Along, Intact]
      · rw [htx]
        exact (unsent_transmit hb' f).symm
      · rw [htx]
        simp [transmitDMA, hb']

/-- Each event, and what the line makes of it. -/
theorem Wired.step (h : Wired s l) {e : Event} (ht : System.step s e = some t) :
    ∃ os l', run BleCar.Lib.Line.step l os = some l' ∧
      (Undisturbed s e ↔ Along BleCar.Lib.Line.step Intact l os) ∧ Wired t l' := by
  cases e with
  | rxByte b =>
    obtain rfl := Option.some.inj ht
    exact ⟨[], l, rfl, Iff.rfl, h.congr rfl rfl rfl⟩
  | idle =>
    simp only [System.step, idle] at ht
    split at ht
    case isTrue => cases ht
    case isFalse =>
      obtain rfl := Option.some.inj ht
      obtain ⟨hstop, hbusy⟩ := unsent_dmaStop h.busy
      refine ⟨[.cut], { l with pending := [] }, rfl, ?_, h.out, hstop.symm, h.offered, hbusy,
        h.frames⟩
      simp [Undisturbed, Along, Intact, h.pending]
  | main y => exact h.main ht
  | txByte =>
    simp only [System.step, txByte] at ht
    split at ht
    case isFalse => cases ht
    case isTrue hc =>
      obtain rfl := Option.some.inj ht
      have hpend : l.pending = s.tx.tempTxbuf.getD s.tx.pos 0 ::
          unsent { s.tx with pos := s.tx.pos + 1 } :=
        h.pending.trans (unsent_cons hc.1 hc.2)
      refine ⟨[.move], { l with
        out := l.out ++ [s.tx.tempTxbuf.getD s.tx.pos 0]
        pending := unsent { s.tx with pos := s.tx.pos + 1 } }, ?_, ?_, ?_, rfl, h.offered,
        h.busy, h.frames⟩
      · simp [BleCar.Lib.Line.step, hpend]
      · simp [Undisturbed, Along, Intact]
      · simp only [h.out]
  | dmaComplete =>
    simp only [System.step, dmaComplete] at ht
    split at ht
    case isFalse => cases ht
    case isTrue hc =>
      obtain rfl := Option.some.inj ht
      have hdone : unsent s.tx = [] := by simp [unsent, hc.2]
      exact ⟨[], l, rfl, Iff.rfl, h.out, by rw [h.pending, hdone, unsent_off rfl], h.offered,
        fun hd => absurd hd Bool.false_ne_true, h.frames⟩
  | txDone =>
    simp only [System.step, txDone] at ht
    split at ht
    case isFalse => cases ht
    case isTrue hc =>
      obtain rfl := Option.some.inj ht
      exact ⟨[], l, rfl, Iff.rfl, h.out, h.pending, h.offered, fun hd => absurd hd hc.2, h.frames⟩

/-! ## Runs -/

/-- Every run of the system is a run of the line. -/
theorem run_wired {es : List Event} (h : run System.step System.boot es = some t) :
    ∃ os l, run BleCar.Lib.Line.step BleCar.Lib.Line.empty os = some l ∧
      (Along System.step Undisturbed System.boot es ↔
        Along BleCar.Lib.Line.step Intact BleCar.Lib.Line.empty os) ∧ Wired t l :=
  simulation_iff (fun _ _ _ _ hw hs => hw.step hs) boot_wired h

/-- Well-formed replies, in the order they were handed over: the bytes on the wire and
those still to come are these exactly when every reply found the transmitter ready and no
IDLE found a reply unfinished. With the transmitter ready nothing is still to come. -/
theorem replies_whole_iff {es : List Event} (h : run System.step System.boot es = some t) :
    (t.wire ++ unsent t.tx = t.mcu.sent.flatten ↔
        Along System.step Undisturbed System.boot es) ∧
      (∀ f ∈ t.mcu.sent, WellFormed f) ∧ (t.tx.busy = false → unsent t.tx = []) := by
  obtain ⟨os, l, hos, hiff, hw⟩ := run_wired h
  refine ⟨?_, hw.frames, fun hb => unsent_off ?_⟩
  · rw [hiff, ← run_whole_iff hos, Whole, hw.out, hw.pending, hw.offered]
  · exact Bool.eq_false_iff.mpr fun hd => absurd (hw.busy hd) (by simp [hb])

/-- An `A4` frame and the seven statements that handle it. -/
def reportHandled : List Event :=
  arrival [0xAA, 0xAA, 0x05, 0xA4, 0x5B] ++ List.replicate 7 (.main Stray.blank)

/-- The reply is moved to its end. -/
def reportRun : List Event :=
  reportHandled ++ List.replicate 9 .txByte ++ [.dmaComplete, .txDone]

theorem replies_whole_report : ∃ t, run System.step System.boot reportRun = some t ∧
    (t.wire ++ unsent t.tx = t.mcu.sent.flatten ↔
      Along System.step Undisturbed System.boot reportRun) := by
  obtain ⟨t, ht⟩ := Option.isSome_iff_exists.mp
    (show (run System.step System.boot reportRun).isSome = true by decide)
  exact ⟨t, ht, (replies_whole_iff ht).1⟩

/-- The next `A4` frame arrives after the first byte of the reply. -/
def cutRun : List Event := reportHandled ++ [.txByte] ++ arrival [0xAA, 0xAA, 0x05, 0xA4, 0x5B]

theorem cutRun_end :
    (run System.step System.boot cutRun).map
        (fun t => (t.terminated, t.tx.busy, t.wire, t.mcu.sent)) =
      some ([[0xAA, 0xAA, 0x05, 0xA4, 0x5B], [0xAA, 0xAA, 0x05, 0xA4, 0x5B]], false, [0xAA],
        [[0xAA, 0xAA, 0x09, 0xA4, 0x00, 0x00, 0x00, 0x00, 0x5B]]) := by
  decide

/-- A reply of nine bytes ends after one. -/
theorem reply_cut : ¬ ∀ es t, run System.step System.boot es = some t →
    (∀ b ∈ t.terminated, TableFrame b) → t.tx.busy = false → t.wire = t.mcu.sent.flatten := by
  intro h
  obtain ⟨t, ht, hend⟩ := Option.map_eq_some_iff.mp cutRun_end
  obtain ⟨hterm, hend⟩ := Prod.mk.inj hend
  obtain ⟨hbusy, hend⟩ := Prod.mk.inj hend
  obtain ⟨hwire, hsent⟩ := Prod.mk.inj hend
  have hwhole := h cutRun t ht (by rw [hterm]; decide) hbusy
  rw [hwire, hsent] at hwhole
  exact absurd hwhole (by decide)

end BleCar.F103.Transmit
