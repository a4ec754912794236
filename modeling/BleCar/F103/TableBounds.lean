import BleCar.F103.System

/-!
# Which table entries an accepted command makes the motors read

`control_protocol_analysis` accepts levels 0..5 for a drive and 0..3 for a turn. The
drive returns before its table on level 0; the turn has no such guard and reads
`speed_inner_table[level-1]`.
-/

namespace BleCar.F103.TableBounds

open BleCar.Lib.Runs
open BleCar.Motion.Hardware
open BleCar.Motion.Routines
open BleCar.Protocol.Frames
open BleCar.Protocol.Control hiding controlProtocolAnalysis
open BleCar.Protocol.Buffer
open BleCar.F103.Firmware hiding step boot
open BleCar.F103.System

/-- A read of `duty_table` or of `speed_inner_table`. -/
inductive TableRead where
  | duty (i : Int)
  | inner (i : Int)

def TableRead.InBounds : TableRead → Prop
  | .duty i => 0 ≤ i ∧ i < dutyTable.length
  | .inner i => 0 ≤ i ∧ i < speedInnerTable.length

/-- The table reads of one `my_motor_control_task`. -/
def taskReads (g : Globals) : List TableRead :=
  match g.gControlMotorFlag with
  | .direction =>
    if g.gMotorSpeedLevel < 1 ∨ g.gMotorSpeedLevel > 5 then []
    else [.duty ((g.gMotorSpeedLevel.toNat : Int) - 1)]
  | .turn =>
    if g.gMotorTurnLevel > 3 then [] else [.inner ((g.gMotorTurnLevel.toNat : Int) - 1)]
  | .idle => []
  | .stop => []

/-- The same surroundings with other values around the two tables. -/
def withTables (y : Stray) (duty inner : Int → UInt16) : Stray := { y with duty, inner }

theorem tableRead_congr {outside outside' : Int → UInt16} {table : List Nat} {i : Int}
    (h : 0 ≤ i ∧ i < table.length) : tableRead outside table i = tableRead outside' table i := by
  rw [tableRead, if_pos h, tableRead, if_pos h]

theorem motorsSetSpeedSoft_tables (B : Board) (y : Stray) (duty inner : Int → UInt16)
    (level direction : UInt8) (time : UInt16) (d : Drive) :
    motorsSetSpeedSoft B (withTables y duty inner) level direction time d =
      motorsSetSpeedSoft B y level direction time d := by
  by_cases h : level < 1 ∨ level > 5
  · rw [motorsSetSpeedSoft, if_pos h, motorsSetSpeedSoft, if_pos h]
  · simp only [motorsSetSpeedSoft, if_neg h, tableRead_duty _ h]

theorem carTurnSoft_tables (B : Board) (y : Stray) (duty inner : Int → UInt16)
    {level : UInt8} (h : level > 3 ∨ (TableRead.inner ((level.toNat : Int) - 1)).InBounds)
    (turnDir : UInt8) (time : UInt16) (d : Drive) :
    carTurnSoft B (withTables y duty inner) turnDir level time d =
      carTurnSoft B y turnDir level time d := by
  by_cases hl : level > 3
  · rw [carTurnSoft, if_pos hl, carTurnSoft, if_pos hl]
  · have hinner : turnInner (withTables y duty inner) level = turnInner y level :=
      tableRead_congr (h.resolve_left hl)
    simp only [carTurnSoft, if_neg hl, hinner]
    rfl

/-- `taskReads` is complete: when all its reads are in bounds, nothing depends on what lies
around the tables. -/
theorem task_tables (B : Board) (y : Stray) (duty inner : Int → UInt16) {g : Globals}
    (h : ∀ r ∈ taskReads g, r.InBounds) (d : Drive) :
    myMotorControlTask B (withTables y duty inner) g d = myMotorControlTask B y g d := by
  unfold myMotorControlTask
  cases hf : g.gControlMotorFlag with
  | idle => rfl
  | stop => rfl
  | direction => simp only [myMotorCarRun, motorsSetSpeedSoft_tables]
  | turn =>
    have hread : g.gMotorTurnLevel > 3 ∨
        (TableRead.inner ((g.gMotorTurnLevel.toNat : Int) - 1)).InBounds := by
      by_cases hl : g.gMotorTurnLevel > 3
      · exact .inl hl
      · exact .inr (h _ (by simp [taskReads, hf, hl]))
    simp only [carTurnSoft_tables B y duty inner hread]

/-! ## Between two passes of the loop no command is pending -/

def NonePending (s : Sys) : Prop := s.pos ≠ .task → s.mcu.globals.gControlMotorFlag = .idle

theorem execute_nonePending {y : Stray} {p : ControlPos} {s : Sys}
    (h : s.mcu.globals.gControlMotorFlag = .idle) : NonePending (execute y p s) := by
  rw [execute_eq]
  intro hne
  cases hq : (controlStatement y p s).next with
  | none => simp [hq] at hne
  | some q => exact (controlStep_flag hq).trans h

theorem step_nonePending (s : Sys) (e : Event) (t : Sys) (h : NonePending s)
    (ht : step s e = some t) : NonePending t := by
  rcases step_cases ht with ⟨y, -, hmain⟩ | ⟨hpos, hglobals, -⟩
  · cases mainStep_stepped hmain with
    | control n hpos => exact execute_nonePending (h (by simp [hpos]))
    | command p hpos => exact execute_nonePending (h (by simp [hpos]))
    | task out hpos hout => exact fun _ => by rw [task_globals board y hout]
    | checkError => exact fun hne => absurd rfl hne
    | flagTest hpos | headerTest hpos | clearFlag hpos | readLen hpos | checkSum n hpos =>
      exact fun _ => h (by simp [hpos])
  · intro hne
    rw [hglobals]
    exact h (hpos ▸ hne)

theorem run_nonePending {es : List Event} {s : Sys} (h : run step boot es = some s) :
    NonePending s :=
  last_of_step step_nonePending (fun _ => rfl) h

/-! ## Accepted commands -/

/-- The command is answered with status 0. -/
def Accepted (y : Stray) (g : Globals) (data : Nat → UInt8) : Prop :=
  ∃ g' ID, IsReplyID ID ∧ (controlProtocolAnalysis y g data).2 = [myUart3TxToBLE y g' ID 0]

/-- An answer with status 1 is not one with status 0. -/
theorem refusal_ne {y : Stray} {g g' : Globals} {ID ID' : UInt8} (hID : ID = 0xA1 ∨ ID = 0xA2)
    (hID' : IsReplyID ID') : myUart3TxToBLE y g ID 1 ≠ myUart3TxToBLE y g' ID' 0 := by
  rcases hID with rfl | rfl <;> rcases hID' with rfl | rfl | rfl | rfl | rfl | rfl <;>
    simp [myUart3TxToBLE, replyBody]

/-- A turn with level 0. -/
def ZeroTurn (data : Nat → UInt8) : Prop := (data 3 = 0xA2 ∨ data 3 = 0xA3) ∧ data 4 = 0

theorem not_zeroTurn {data : Nat → UInt8} {ID : UInt8} (h : data 3 = ID)
    (hID : ID ≠ 0xA2 ∧ ID ≠ 0xA3) : ¬ ZeroTurn data := by
  rintro ⟨h2 | h3, -⟩
  · exact hID.1 (h.symm.trans h2)
  · exact hID.2 (h.symm.trans h3)

theorem duty_inBounds {level : UInt8} (h : ¬ (level < 1 ∨ level > 5)) :
    (TableRead.duty ((level.toNat : Int) - 1)).InBounds := by
  obtain ⟨h1, h5⟩ := level_range h
  simp only [TableRead.InBounds, dutyTable, List.length_cons, List.length_nil]
  omega

theorem inner_inBounds_iff {level : UInt8} (h : level ≤ 3) :
    (TableRead.inner ((level.toNat : Int) - 1)).InBounds ↔ level ≠ 0 := by
  rw [UInt8.le_iff_toNat_le] at h
  simp only [UInt8.reduceToNat] at h
  rw [Ne, ← UInt8.toNat_inj]
  simp only [TableRead.InBounds, speedInnerTable, List.length_cons, List.length_nil,
    UInt8.reduceToNat]
  omega

/-- In every reachable state in which a frame is handed to `control_protocol_analysis`, and
for every frame it answers with status 0: the iteration of `my_motor_control_task` that
follows reads the two tables inside their bounds exactly when the frame is not a turn with
level 0. -/
theorem accepted_reads_iff {es : List Event} {s : Sys} (h : run step boot es = some s)
    {myCalLen : UInt8} (hpos : s.pos = .control myCalLen) (y : Stray) {data : Nat → UInt8}
    (hacc : Accepted y s.mcu.globals data) :
    (∀ r ∈ taskReads (controlProtocolAnalysis y s.mcu.globals data).1, r.InBounds) ↔
      ¬ ZeroTurn data := by
  have hidle : s.mcu.globals.gControlMotorFlag = .idle :=
    run_nonePending h (by rw [hpos]; exact MainPos.noConfusion)
  generalize s.mcu.globals = g at hidle hacc
  obtain ⟨g', ID, hID, hanswer⟩ := hacc
  have hc := control_commanded myTurnLeft myTurnRight y g data
  change Commanded myTurnLeft myTurnRight y g data (controlProtocolAnalysis y g data) at hc
  generalize controlProtocolAnalysis y g data = out at hc hanswer ⊢
  cases hc with
  | drive h1 =>
    refine iff_of_true ?_ (not_zeroTurn h1 (by decide))
    simp only [taskReads]
    split
    case isTrue => exact fun r hr => absurd hr List.not_mem_nil
    case isFalse hlevel => exact List.forall_mem_singleton.mpr (duty_inBounds hlevel)
  | driveRefused => exact absurd (List.cons.inj hanswer).1 (refusal_ne (.inl rfl) hID)
  | turn turn h23 hv =>
    have hle : data 4 ≤ 3 := of_decide_eq_true hv
    have hturn : data 3 = 0xA2 ∨ data 3 = 0xA3 := h23.imp And.left And.left
    simp only [taskReads, if_neg (UInt8.not_lt.mpr hle), List.forall_mem_singleton]
    rw [inner_inBounds_iff hle, ZeroTurn, and_iff_right hturn]
  | turnRefused => exact absurd (List.cons.inj hanswer).1 (refusal_ne (.inr rfl) hID)
  | report h4 =>
    refine iff_of_true ?_ (not_zeroTurn h4 (by decide))
    simp [taskReads, hidle]
  | stop h5 =>
    refine iff_of_true ?_ (not_zeroTurn h5 (by decide))
    simp [taskReads]
  | unknown => exact absurd hanswer (List.cons_ne_nil _ _).symm

/-- From boot until the frame `f` is handed to `control_protocol_analysis`. -/
def handed (f : List UInt8) : List Event := arrival f ++ List.replicate 5 (.main Stray.blank)

/-- A left turn with `level`. -/
def leftTurn (level : UInt8) : List UInt8 := [0xAA, 0xAA, 0x06, 0xA2, level, 0x5D - level]

theorem accepted_turn {g : Globals} {data : Nat → UInt8} (h3 : data 3 = 0xA2) (h4 : data 4 ≤ 3) :
    Accepted .blank g data := by
  have hv : turnValid data = true := decide_eq_true h4
  have hout : controlProtocolAnalysis .blank g data = controlTurn myTurnLeft .blank g data :=
    control_A2 _ _ h3
  rw [Accepted, hout, controlTurn_valid _ _ hv]
  exact ⟨_, 0xA2, by decide, rfl⟩

theorem accepted_reads_level_one :
    ∃ s, run step boot (handed (leftTurn 1)) = some s ∧ s.pos = .control 6 ∧
      ((∀ r ∈ taskReads (controlProtocolAnalysis .blank s.mcu.globals (bytesAt (leftTurn 1))).1,
        r.InBounds) ↔ ¬ ZeroTurn (bytesAt (leftTurn 1))) := by
  obtain ⟨s, hs, hpos⟩ := Option.map_eq_some_iff.mp
    (show (run step boot (handed (leftTurn 1))).map Sys.pos = some (.control 6) by decide)
  exact ⟨s, hs, hpos, accepted_reads_iff hs hpos .blank (accepted_turn rfl (by decide))⟩

/-- The turn with level 0 is received, handed over and accepted, and the iteration that follows
reads before `speed_inner_table`. -/
theorem zero_turn_escapes :
    ∃ s, run step boot (handed (leftTurn 0)) = some s ∧ s.pos = .control 6 ∧
      Accepted .blank s.mcu.globals (rxRead .blank s.mcu.rx) ∧
      ¬ ∀ r ∈ taskReads (controlProtocolAnalysis .blank s.mcu.globals (rxRead .blank s.mcu.rx)).1,
        r.InBounds := by
  have hend : (run step boot (handed (leftTurn 0))).map (fun s =>
      (s.pos, rxRead .blank s.mcu.rx 3, rxRead .blank s.mcu.rx 4)) =
        some (.control 6, 0xA2, 0) := by
    decide
  obtain ⟨s, hs, hvals⟩ := Option.map_eq_some_iff.mp hend
  obtain ⟨hpos, h34⟩ := Prod.mk.inj hvals
  obtain ⟨h3, h4⟩ := Prod.mk.inj h34
  refine ⟨s, hs, hpos, accepted_turn h3 (h4 ▸ by decide), fun hall => ?_⟩
  have hv : turnValid (rxRead .blank s.mcu.rx) = true := by
    rw [turnValid, h4]
    decide
  rw [controlProtocolAnalysis, control_A2 _ _ h3, controlTurn_valid _ _ hv] at hall
  have hread := hall (.inner (-1)) (by simp [taskReads, h4])
  exact absurd hread.1 (by decide)

end BleCar.F103.TableBounds
