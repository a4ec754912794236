import BleCar.F103.Grammar
import BleCar.L151.Firmware

/-!
# The two parsers side by side

Both firmwares get the same frames, each parser on its own buffer and with its own
stray values. They part at the first turn frame in range: the F103 copy exchanges left
and right.
-/

namespace BleCar.Comparison

open BleCar.Lib.Runs
open BleCar.Motion.Routines
open BleCar.Protocol.Frames
open BleCar.Protocol.Control hiding controlProtocolAnalysis
open BleCar.Protocol.Buffer

structure Pair where
  f103 : Mcu
  l151 : Mcu

/-- A burst sent to both controllers. -/
structure Exchange where
  bytes : List UInt8
  strayF103 : Stray
  strayL151 : Stray

def parse (p : Pair) (e : Exchange) : Option Pair :=
  (L151.Firmware.myMotorControlProtocolAnalysis e.strayL151 (p.l151.after e.bytes)).map fun l151 =>
    { f103 := F103.Firmware.myMotorControlProtocolAnalysis e.strayF103 (p.f103.after e.bytes)
      l151 := l151 }

/-- Equal control states, and the same frames sent. -/
structure Same (p : Pair) : Prop where
  globals : p.f103.globals = p.l151.globals
  sent : p.f103.sent = p.l151.sent

/-- A turn command with a level the parsers take. -/
def TurnFrame (b : List UInt8) : Prop :=
  (bytesAt b 3 = 0xA2 ∨ bytesAt b 3 = 0xA3) ∧ bytesAt b 4 ≤ 3

/-- The protocol comment: A2 turns right, A3 left. -/
def documentedTurn (b : List UInt8) : UInt8 :=
  if bytesAt b 3 = 0xA2 then myTurnRight else myTurnLeft

/-- Both controllers take the frame for the turn of the protocol comment. -/
def AsDocumented (p : Pair) (e : Exchange) : Prop :=
  TurnFrame e.bytes → ∀ q, parse p e = some q →
    q.f103.globals.gMotorTurnDirection = documentedTurn e.bytes ∧
      q.l151.globals.gMotorTurnDirection = documentedTurn e.bytes

variable {p : Pair} {e : Exchange}

/-- Both parsers hand the bytes of a table frame to their copy of
`control_protocol_analysis`. -/
theorem parse_spec (he : TableFrame e.bytes) :
    ∃ q, parse p e = some q ∧
      (q.f103.globals, q.f103.sent) =
        ((F103.Firmware.controlProtocolAnalysis e.strayF103 p.f103.globals (bytesAt e.bytes)).1,
          p.f103.sent ++
            (F103.Firmware.controlProtocolAnalysis e.strayF103 p.f103.globals (bytesAt e.bytes)).2) ∧
      (q.l151.globals, q.l151.sent) =
        ((L151.Firmware.controlProtocolAnalysis e.strayL151 p.l151.globals (bytesAt e.bytes)).1,
          p.l151.sent ++
            (L151.Firmware.controlProtocolAnalysis e.strayL151 p.l151.globals (bytesAt e.bytes)).2) := by
  obtain ⟨h5, h7⟩ := he.length_range
  have hf := F103.Firmware.analysis_dispatches e.strayF103 p.f103 e.bytes
    ((F103.Grammar.dispatches_iff e.strayF103 (by omega) (by omega) _).mpr he.1.sound)
  have hcongr : F103.Firmware.controlProtocolAnalysis e.strayF103 p.f103.globals
      (rxRead e.strayF103 (receive e.bytes p.f103.rx)) =
        F103.Firmware.controlProtocolAnalysis e.strayF103 p.f103.globals (bytesAt e.bytes) := by
    refine (controlProtocolAnalysis_congr _ _ fun i hi => ?_).symm
    have hlt := controlReads_lt he hi
    exact (rxRead_receive hlt (by omega) _ _).symm
  obtain ⟨rx, hl⟩ := L151.Firmware.analysis_sound e.strayL151 p.l151 he.1.sound (by omega)
  rw [hcongr] at hf
  refine ⟨_, congrArg (Option.map _) hl, ?_, rfl⟩
  rw [hf]

/-- Outside the turns in range the two parsers do the same. -/
theorem parse_same (hp : Same p) (he : TableFrame e.bytes) (hn : ¬ TurnFrame e.bytes) :
    ∃ q, parse p e = some q ∧ Same q := by
  obtain ⟨q, hq, hf, hl⟩ := parse_spec (p := p) he
  refine ⟨q, hq, ?_⟩
  have hvalid : ¬ ((bytesAt e.bytes 3 = 0xA2 ∨ bytesAt e.bytes 3 = 0xA3) ∧
      turnValid (bytesAt e.bytes) = true) :=
    fun ⟨h23, hv⟩ => hn ⟨h23, of_decide_eq_true hv⟩
  have heq : (q.f103.globals, q.f103.sent) = (q.l151.globals, q.l151.sent) := by
    rw [hf, hl, hp.globals, hp.sent, F103.Firmware.controlProtocolAnalysis,
      L151.Firmware.controlProtocolAnalysis, control_turns_irrelevant _ e.strayL151 _ hvalid]
  exact ⟨congrArg Prod.fst heq, congrArg Prod.snd heq⟩

/-- On a turn in range the F103 stores the opposite of the documented turn. -/
theorem parse_turn (he : TableFrame e.bytes) (ht : TurnFrame e.bytes) : ¬ AsDocumented p e := by
  intro hdoc
  obtain ⟨q, hq, hf, -⟩ := parse_spec (p := p) he
  have hturn := (hdoc ht q hq).1
  have hv : turnValid (bytesAt e.bytes) = true := decide_eq_true ht.2
  have hg : q.f103.globals = _ := congrArg Prod.fst hf
  rw [hg, F103.Firmware.controlProtocolAnalysis] at hturn
  rcases ht.1 with h2 | h3
  · rw [control_A2 _ _ h2, controlTurn_valid _ _ hv, documentedTurn, if_pos h2] at hturn
    exact absurd (show myTurnLeft = myTurnRight from hturn) (by decide)
  · rw [control_A3 _ _ h3, controlTurn_valid _ _ hv, documentedTurn,
      if_neg (by rw [h3]; decide)] at hturn
    exact absurd (show myTurnRight = myTurnLeft from hturn) (by decide)

theorem run_parse {es : List Exchange} (hes : ∀ e ∈ es, TableFrame e.bytes) (p : Pair) :
    ∃ q, run parse p es = some q := by
  induction es generalizing p with
  | nil => exact ⟨p, rfl⟩
  | cons e es ih =>
    rw [List.forall_mem_cons] at hes
    obtain ⟨q, hq, -⟩ := parse_spec (p := p) hes.1
    rw [run_cons_of_step parse hq]
    exact ih hes.2 q

/-- Without turns in range the whole run keeps the two alike. -/
theorem run_same {es : List Exchange} (hp : Same p) (hes : ∀ e ∈ es, TableFrame e.bytes)
    (hn : ∀ e ∈ es, ¬ TurnFrame e.bytes) :
    ∃ q, run parse p es = some q ∧ Same q ∧ Along parse AsDocumented p es := by
  induction es generalizing p with
  | nil => exact ⟨p, rfl, hp, trivial⟩
  | cons e es ih =>
    rw [List.forall_mem_cons] at hes hn
    obtain ⟨m, hm, hsame⟩ := parse_same hp hes.1 hn.1
    obtain ⟨q, hq, hqs, ha⟩ := ih hsame hes.2 hn.2
    refine ⟨q, (run_cons_of_step parse hm es).trans hq, hqs, fun ht => absurd ht hn.1, ?_⟩
    intro t ht
    rw [hm] at ht
    exact Option.some.inj ht ▸ ha

theorem no_turn_of_along {es : List Exchange} (hes : ∀ e ∈ es, TableFrame e.bytes)
    (ha : Along parse AsDocumented p es) : ∀ e ∈ es, ¬ TurnFrame e.bytes := by
  induction es generalizing p with
  | nil => exact fun _ he => absurd he List.not_mem_nil
  | cons e es ih =>
    rw [List.forall_mem_cons] at hes ⊢
    obtain ⟨m, hm, -⟩ := parse_spec (p := p) hes.1
    exact ⟨fun ht => parse_turn hes.1 ht ha.1, ih hes.2 (ha.2 m hm)⟩

/-- From equal control states and for every sequence of table frames: the two firmwares
end alike, with the same replies, and take every turn as the protocol comment says,
exactly when the sequence holds no turn in range. -/
theorem same_protocol_iff (hp : Same p) {es : List Exchange}
    (hes : ∀ e ∈ es, TableFrame e.bytes) :
    ∃ q, run parse p es = some q ∧
      ((Same q ∧ Along parse AsDocumented p es) ↔ ∀ e ∈ es, ¬ TurnFrame e.bytes) := by
  obtain ⟨q, hq⟩ := run_parse hes p
  refine ⟨q, hq, fun h => no_turn_of_along hes h.2, fun hn => ?_⟩
  obtain ⟨q', hq', hsame, ha⟩ := run_same hp hes hn
  rw [hq] at hq'
  exact Option.some.inj hq' ▸ ⟨hsame, ha⟩

/-- Both controllers after reset. -/
def bootPair : Pair := ⟨F103.Firmware.boot, L151.Firmware.boot⟩

theorem bootPair_same : Same bootPair := ⟨rfl, rfl⟩

/-- `AA AA 07 A1 01 03 5A`. -/
def driveExchange : Exchange :=
  ⟨[0xAA, 0xAA, 0x07, 0xA1, 0x01, 0x03, 0x5A], Stray.blank, Stray.blank⟩

/-- `AA AA 06 A2 01 5C`. -/
def turnExchange : Exchange := ⟨[0xAA, 0xAA, 0x06, 0xA2, 0x01, 0x5C], Stray.blank, Stray.blank⟩

theorem same_protocol_iff_drive :
    ∃ q, run parse bootPair [driveExchange] = some q ∧
      ((Same q ∧ Along parse AsDocumented bootPair [driveExchange]) ↔
        ∀ e ∈ [driveExchange], ¬ TurnFrame e.bytes) :=
  same_protocol_iff bootPair_same (by decide)

/-- After a right turn command one board turns left and the other right. -/
theorem turn_parts_the_boards :
    ¬ ∀ (p : Pair) (es : List Exchange), Same p → (∀ e ∈ es, TableFrame e.bytes) →
      ∃ q, run parse p es = some q ∧ Same q ∧ Along parse AsDocumented p es := by
  intro h
  have hes : ∀ e ∈ [turnExchange], TableFrame e.bytes := by decide
  obtain ⟨q, -, -, ha⟩ := h bootPair [turnExchange] bootPair_same hes
  exact no_turn_of_along hes ha turnExchange (by simp) ⟨by decide, by decide⟩

end BleCar.Comparison
