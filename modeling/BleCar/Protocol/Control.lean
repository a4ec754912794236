import BleCar.Protocol.Frames

/-!
# Command dispatch

`control_protocol_analysis` is one text in two copies. They differ in the turn
direction stored for A2 and for A3, which are parameters here. The source answers A3
with the ID of A2, and arms `g_ControlMotorFlag` whether or not the parameters pass.
-/

namespace BleCar.Protocol.Control

open BleCar.Lib.ByteSum
open BleCar.Motion.Routines
open BleCar.Protocol.Frames

/-- `my_set_car_stop_func`. -/
def mySetCarStopFunc (g : Globals) : Globals :=
  { g with
    gMotorDirection := myCarDirectionIdle
    gMotorSpeedLevel := 0
    gMotorTurnDirection := myTurnIdle
    gMotorTurnLevel := 0 }

/-- The range check of A1. -/
def driveValid (data : Nat → UInt8) : Bool :=
  (1 ≤ data 4 ∧ data 4 ≤ 2) ∧ data 5 ≤ 5

/-- The range check of A2 and A3. -/
def turnValid (data : Nat → UInt8) : Bool := data 4 ≤ 3

/-- The branches of A2 and A3, which store `turn` and reply under A2. -/
def controlTurn (turn : UInt8) (y : Stray) (g : Globals) (data : Nat → UInt8) :
    Globals × List (List UInt8) :=
  let g' := if turnValid data then
    { g with gMotorTurnDirection := turn, gMotorTurnLevel := data 4 } else g
  ({ g' with gControlMotorFlag := .turn },
    [myUart3TxToBLE y g' 0xA2 (if turnValid data then 0 else 1)])

/-- The new globals and the frames sent. -/
def controlProtocolAnalysis (turnA2 turnA3 : UInt8) (y : Stray) (g : Globals)
    (data : Nat → UInt8) : Globals × List (List UInt8) :=
  let commandId := data 3
  if commandId = 0xA1 then
    let g' := if driveValid data then
      { g with gMotorDirection := data 4, gMotorSpeedLevel := data 5 } else g
    ({ g' with gControlMotorFlag := .direction },
      [myUart3TxToBLE y g' 0xA1 (if driveValid data then 0 else 1)])
  else if commandId = 0xA2 then controlTurn turnA2 y g data
  else if commandId = 0xA3 then controlTurn turnA3 y g data
  else if commandId = 0xA4 then (g, [myUart3TxToBLE y g 0xA4 0])
  else if commandId = 0xA5 then
    let g' := mySetCarStopFunc g
    ({ g' with gControlMotorFlag := .stop }, [myUart3TxToBLE y g' 0xA5 0])
  else (g, [])

/-- The indices of `data` that `control_protocol_analysis` reads. -/
def controlReads (data : Nat → UInt8) : List Nat :=
  if data 3 = 0xA1 then
    if 1 ≤ data 4 ∧ data 4 ≤ 2 then [3, 4, 5] else [3, 4]
  else if data 3 = 0xA2 ∨ data 3 = 0xA3 then [3, 4]
  else [3]

section

variable {turnA2 turnA3 : UInt8} (y : Stray) (g : Globals) {data data' : Nat → UInt8}

/-- `controlReads` lists all that matters of the frame. -/
theorem controlProtocolAnalysis_congr (h : ∀ i ∈ controlReads data, data i = data' i) :
    controlProtocolAnalysis turnA2 turnA3 y g data =
      controlProtocolAnalysis turnA2 turnA3 y g data' := by
  have h3 : data 3 = data' 3 := h 3 (by unfold controlReads; split_ifs <;> simp)
  by_cases h1 : data 3 = 0xA1
  · have h4 : data 4 = data' 4 := h 4 (by simp only [controlReads, if_pos h1]; split_ifs <;> simp)
    have hv : driveValid data = driveValid data' := by
      by_cases hr : 1 ≤ data 4 ∧ data 4 ≤ 2
      · have h5 : data 5 = data' 5 := h 5 (by simp [controlReads, h1, hr])
        simp [driveValid, h4, h5]
      · have hr' : ¬ (1 ≤ data' 4 ∧ data' 4 ≤ 2) := h4 ▸ hr
        simp [driveValid, hr, hr']
    simp only [controlProtocolAnalysis, ← h3, h1, ← hv, ← h4, if_true]
    by_cases hd : driveValid data = true
    · have h5 : data 5 = data' 5 := by
        apply h 5
        have hr : 1 ≤ data 4 ∧ data 4 ≤ 2 := (of_decide_eq_true hd).1
        simp [controlReads, h1, hr]
      simp only [h5]
    · simp only [hd, Bool.false_eq_true, if_false]
  · by_cases h23 : data 3 = 0xA2 ∨ data 3 = 0xA3
    · have h4 : data 4 = data' 4 := h 4 (by simp [controlReads, h1, h23])
      simp only [controlProtocolAnalysis, controlTurn, turnValid, ← h3, ← h4]
      rw [if_neg h1, if_neg h1]
      rcases h23 with h2 | h2 <;> simp [h2]
    · rw [not_or] at h23
      simp only [controlProtocolAnalysis, ← h3, if_neg h1, if_neg h23.1, if_neg h23.2]

theorem controlReads_congr (h3 : data 3 = data' 3) (h4 : data 4 = data' 4) :
    controlReads data = controlReads data' := by
  simp only [controlReads, h3, h4]

/-- Every index read is one of 3, 4 and 5. -/
theorem controlReads_le {i : Nat} (hi : i ∈ controlReads data) : i ≤ 5 := by
  unfold controlReads at hi
  split_ifs at hi <;> simp at hi <;> omega

/-- What the parser reads has been summed: a sum of 0xFF over `n` bytes from index 3 on
covers every index of `controlReads`. -/
theorem controlReads_summed {n : Nat} (h : byteSum (fun i => data (3 + i)) n = 0xff) {i : Nat}
    (hi : i ∈ controlReads data) : 3 ≤ i ∧ i < 3 + n := by
  have h0 : n ≠ 0 := by
    rintro rfl
    exact absurd h (by rw [byteSum_zero]; decide)
  have h1 : data 3 ≠ 0xff → n ≠ 1 := by
    rintro hne rfl
    rw [byteSum_succ, byteSum_zero, UInt8.zero_add] at h
    exact hne h
  have h2 : data 3 + data 4 ≠ 0xff → n ≠ 2 := by
    rintro hne rfl
    rw [byteSum_succ, byteSum_succ, byteSum_zero, UInt8.zero_add] at h
    exact hne h
  unfold controlReads at hi
  split_ifs at hi with hA1 hdir hA23
  · have hn1 := h1 (by rw [hA1]; decide)
    have hn2 := h2 (by rw [hA1]; grind)
    simp only [List.mem_cons, List.not_mem_nil, or_false] at hi
    omega
  · have hn1 := h1 (by rw [hA1]; decide)
    simp only [List.mem_cons, List.not_mem_nil, or_false] at hi
    omega
  · have hn1 := h1 (by rcases hA23 with h | h <;> rw [h] <;> decide)
    simp only [List.mem_cons, List.not_mem_nil, or_false] at hi
    omega
  · simp only [List.mem_cons, List.not_mem_nil, or_false] at hi
    omega

/-- A frame of the table contains every byte the parser reads. -/
theorem controlReads_lt {f : List UInt8} (h : TableFrame f) {i : Nat}
    (hi : i ∈ controlReads (bytesAt f)) : i < f.length := by
  have hlen := h.2
  unfold controlReads at hi
  unfold tableLength at hlen
  split_ifs at hi hlen <;> simp_all <;> omega

end

/-- No command of the protocol. -/
def UnknownID (data : Nat → UInt8) : Prop :=
  data 3 ≠ 0xA1 ∧ data 3 ≠ 0xA2 ∧ data 3 ≠ 0xA3 ∧ data 3 ≠ 0xA4 ∧ data 3 ≠ 0xA5

/-! ## The commands one by one -/

section

variable {turnA2 turnA3 turn : UInt8} (y : Stray) (g : Globals) {data : Nat → UInt8}

theorem control_drive (h : data 3 = 0xA1) (hv : driveValid data = true) :
    controlProtocolAnalysis turnA2 turnA3 y g data =
      ({ g with
          gMotorDirection := data 4
          gMotorSpeedLevel := data 5
          gControlMotorFlag := .direction },
        [myUart3TxToBLE y
          { g with gMotorDirection := data 4, gMotorSpeedLevel := data 5 } 0xA1 0]) := by
  simp [controlProtocolAnalysis, h, hv]

theorem control_drive_refused (h : data 3 = 0xA1) (hv : driveValid data = false) :
    controlProtocolAnalysis turnA2 turnA3 y g data =
      ({ g with gControlMotorFlag := .direction }, [myUart3TxToBLE y g 0xA1 1]) := by
  simp [controlProtocolAnalysis, h, hv]

theorem control_A2 (h : data 3 = 0xA2) :
    controlProtocolAnalysis turnA2 turnA3 y g data = controlTurn turnA2 y g data := by
  simp [controlProtocolAnalysis, h]

theorem control_A3 (h : data 3 = 0xA3) :
    controlProtocolAnalysis turnA2 turnA3 y g data = controlTurn turnA3 y g data := by
  simp [controlProtocolAnalysis, h]

theorem controlTurn_valid (hv : turnValid data = true) :
    controlTurn turn y g data =
      ({ g with
          gMotorTurnDirection := turn
          gMotorTurnLevel := data 4
          gControlMotorFlag := .turn },
        [myUart3TxToBLE y
          { g with gMotorTurnDirection := turn, gMotorTurnLevel := data 4 } 0xA2 0]) := by
  simp [controlTurn, hv]

theorem controlTurn_refused (hv : turnValid data = false) :
    controlTurn turn y g data =
      ({ g with gControlMotorFlag := .turn }, [myUart3TxToBLE y g 0xA2 1]) := by
  simp [controlTurn, hv]

theorem control_report (h : data 3 = 0xA4) :
    controlProtocolAnalysis turnA2 turnA3 y g data = (g, [myUart3TxToBLE y g 0xA4 0]) := by
  simp [controlProtocolAnalysis, h]

theorem control_unknown (h : UnknownID data) :
    controlProtocolAnalysis turnA2 turnA3 y g data = (g, []) := by
  obtain ⟨h1, h2, h3, h4, h5⟩ := h
  rw [controlProtocolAnalysis, if_neg h1, if_neg h2, if_neg h3, if_neg h4, if_neg h5]

theorem control_stop (h : data 3 = 0xA5) :
    controlProtocolAnalysis turnA2 turnA3 y g data =
      ({ mySetCarStopFunc g with gControlMotorFlag := .stop },
        [myUart3TxToBLE y (mySetCarStopFunc g) 0xA5 0]) := by
  simp [controlProtocolAnalysis, h]

end

/-- Everything a command can do. -/
inductive Commanded (turnA2 turnA3 : UInt8) (y : Stray) (g : Globals) (data : Nat → UInt8) :
    Globals × List (List UInt8) → Prop where
  | drive (h : data 3 = 0xA1) (hv : driveValid data = true) :
    Commanded turnA2 turnA3 y g data
      ({ g with
          gMotorDirection := data 4
          gMotorSpeedLevel := data 5
          gControlMotorFlag := .direction },
        [myUart3TxToBLE y { g with gMotorDirection := data 4, gMotorSpeedLevel := data 5 } 0xA1 0])
  | driveRefused (h : data 3 = 0xA1) (hv : driveValid data = false) :
    Commanded turnA2 turnA3 y g data
      ({ g with gControlMotorFlag := .direction }, [myUart3TxToBLE y g 0xA1 1])
  | turn (turn : UInt8) (h : data 3 = 0xA2 ∧ turn = turnA2 ∨ data 3 = 0xA3 ∧ turn = turnA3)
      (hv : turnValid data = true) :
    Commanded turnA2 turnA3 y g data
      ({ g with
          gMotorTurnDirection := turn
          gMotorTurnLevel := data 4
          gControlMotorFlag := .turn },
        [myUart3TxToBLE y { g with gMotorTurnDirection := turn, gMotorTurnLevel := data 4 } 0xA2 0])
  | turnRefused (h : data 3 = 0xA2 ∨ data 3 = 0xA3) (hv : turnValid data = false) :
    Commanded turnA2 turnA3 y g data
      ({ g with gControlMotorFlag := .turn }, [myUart3TxToBLE y g 0xA2 1])
  | report (h : data 3 = 0xA4) :
    Commanded turnA2 turnA3 y g data (g, [myUart3TxToBLE y g 0xA4 0])
  | stop (h : data 3 = 0xA5) :
    Commanded turnA2 turnA3 y g data
      ({ mySetCarStopFunc g with gControlMotorFlag := .stop },
        [myUart3TxToBLE y (mySetCarStopFunc g) 0xA5 0])
  | unknown (h : UnknownID data) : Commanded turnA2 turnA3 y g data (g, [])

theorem control_commanded (turnA2 turnA3 : UInt8) (y : Stray) (g : Globals) (data : Nat → UInt8) :
    Commanded turnA2 turnA3 y g data (controlProtocolAnalysis turnA2 turnA3 y g data) := by
  by_cases h1 : data 3 = 0xA1
  · cases hv : driveValid data with
    | true => exact control_drive y g h1 hv ▸ .drive h1 hv
    | false => exact control_drive_refused y g h1 hv ▸ .driveRefused h1 hv
  by_cases h2 : data 3 = 0xA2
  · rw [control_A2 y g h2]
    cases hv : turnValid data with
    | true => exact controlTurn_valid y g hv ▸ .turn turnA2 (.inl ⟨h2, rfl⟩) hv
    | false => exact controlTurn_refused y g hv ▸ .turnRefused (.inl h2) hv
  by_cases h3 : data 3 = 0xA3
  · rw [control_A3 y g h3]
    cases hv : turnValid data with
    | true => exact controlTurn_valid y g hv ▸ .turn turnA3 (.inr ⟨h3, rfl⟩) hv
    | false => exact controlTurn_refused y g hv ▸ .turnRefused (.inr h3) hv
  by_cases h4 : data 3 = 0xA4
  · exact control_report y g h4 ▸ .report h4
  by_cases h5 : data 3 = 0xA5
  · exact control_stop y g h5 ▸ .stop h5
  · exact control_unknown y g ⟨h1, h2, h3, h4, h5⟩ ▸ .unknown ⟨h1, h2, h3, h4, h5⟩

section

variable {turnA2 turnA3 : UInt8} (y : Stray) (g : Globals) {data : Nat → UInt8}

/-- The parser starts with the flag idle; afterwards it is armed exactly for A1, A2, A3
and A5. -/
theorem control_flag (hg : g.gControlMotorFlag = .idle) :
    (controlProtocolAnalysis turnA2 turnA3 y g data).1.gControlMotorFlag =
      if data 3 = 0xA1 then .direction
      else if data 3 = 0xA2 ∨ data 3 = 0xA3 then .turn
      else if data 3 = 0xA5 then .stop
      else .idle := by
  have hc := control_commanded turnA2 turnA3 y g data
  generalize controlProtocolAnalysis turnA2 turnA3 y g data = out at hc ⊢
  cases hc with
  | drive h1 => rw [if_pos h1]
  | driveRefused h1 => rw [if_pos h1]
  | turn _ h23 => rcases h23 with ⟨h2, -⟩ | ⟨h3, -⟩ <;> simp [*]
  | turnRefused h23 => rcases h23 with h2 | h3 <;> simp [*]
  | report h4 => rw [h4, hg]; rfl
  | stop h5 => rw [h5]; rfl
  | unknown hu =>
    obtain ⟨h1, h2, h3, -, h5⟩ := hu
    rw [if_neg h1, if_neg (not_or.mpr ⟨h2, h3⟩), if_neg h5, hg]

/-- A command of the protocol is answered once, another not at all. -/
theorem control_answer (data : Nat → UInt8) :
    (UnknownID data ∧ (controlProtocolAnalysis turnA2 turnA3 y g data).2 = []) ∨
      ∃ g' ID ret, IsReplyID ID ∧
        (controlProtocolAnalysis turnA2 turnA3 y g data).2 = [myUart3TxToBLE y g' ID ret] := by
  have hc := control_commanded turnA2 turnA3 y g data
  generalize controlProtocolAnalysis turnA2 turnA3 y g data = out at hc ⊢
  cases hc with
  | unknown hu => exact .inl ⟨hu, rfl⟩
  | _ => exact .inr ⟨_, _, _, by decide, rfl⟩

theorem control_answers (h : ¬ UnknownID data) :
    (controlProtocolAnalysis turnA2 turnA3 y g data).2.length = 1 := by
  rcases @control_answer turnA2 turnA3 y g data with ⟨hu, -⟩ | ⟨g', ID, ret, -, hout⟩
  · exact absurd hu h
  · rw [hout, List.length_singleton]

end

/-- No answer depends on the bytes behind `temp_txbuf`. -/
theorem control_stray {turnA2 turnA3 : UInt8} (y y' : Stray) (g : Globals) (data : Nat → UInt8) :
    controlProtocolAnalysis turnA2 turnA3 y g data =
      controlProtocolAnalysis turnA2 turnA3 y' g data := by
  have hreply : ∀ (g' : Globals) {ID : UInt8} (ret : UInt8), IsReplyID ID →
      myUart3TxToBLE y g' ID ret = myUart3TxToBLE y' g' ID ret :=
    fun g' _ ret hID => myUart3TxToBLE_stray y y' g' hID ret
  have hturn : ∀ turn, controlTurn turn y g data = controlTurn turn y' g data := by
    intro turn
    simp only [controlTurn, hreply _ _ (show IsReplyID 0xA2 by decide)]
  simp only [controlProtocolAnalysis, hturn, hreply _ _ (show IsReplyID 0xA1 by decide),
    hreply _ _ (show IsReplyID 0xA4 by decide), hreply _ _ (show IsReplyID 0xA5 by decide)]

/-- The two copies differ on accepted turns only. -/
theorem control_turns_irrelevant {turnA2 turnA3 turnA2' turnA3' : UInt8} (y y' : Stray)
    (g : Globals) {data : Nat → UInt8}
    (h : ¬ ((data 3 = 0xA2 ∨ data 3 = 0xA3) ∧ turnValid data = true)) :
    controlProtocolAnalysis turnA2 turnA3 y g data =
      controlProtocolAnalysis turnA2' turnA3' y' g data := by
  rw [control_stray y y']
  by_cases h23 : data 3 = 0xA2 ∨ data 3 = 0xA3
  · have hv : turnValid data = false := Bool.eq_false_iff.mpr fun hv => h ⟨h23, hv⟩
    rcases h23 with h2 | h3
    · rw [control_A2 y' g h2, control_A2 y' g h2, controlTurn_refused y' g hv,
        controlTurn_refused y' g hv]
    · rw [control_A3 y' g h3, control_A3 y' g h3, controlTurn_refused y' g hv,
        controlTurn_refused y' g hv]
  · rw [not_or] at h23
    simp only [controlProtocolAnalysis, if_neg h23.1, if_neg h23.2]

/-- The four `g_Motor*` variables are the same; `g_ControlMotorFlag` may differ. -/
structure SameMotor (g g' : Globals) : Prop where
  direction : g'.gMotorDirection = g.gMotorDirection
  speed : g'.gMotorSpeedLevel = g.gMotorSpeedLevel
  turnDirection : g'.gMotorTurnDirection = g.gMotorTurnDirection
  turnLevel : g'.gMotorTurnLevel = g.gMotorTurnLevel

theorem SameMotor.withFlag (g : Globals) (f : ControlMotor) :
    SameMotor g { g with gControlMotorFlag := f } := ⟨rfl, rfl, rfl, rfl⟩

/-- The commands whose parameters reach the globals. -/
def Stores (data : Nat → UInt8) : Prop :=
  (data 3 = 0xA1 ∧ driveValid data = true) ∨
    ((data 3 = 0xA2 ∨ data 3 = 0xA3) ∧ turnValid data = true) ∨ data 3 = 0xA5

/-- The commands that arm the task. -/
def Arms (data : Nat → UInt8) : Prop :=
  data 3 = 0xA1 ∨ data 3 = 0xA2 ∨ data 3 = 0xA3 ∨ data 3 = 0xA5

section

variable {turnA2 turnA3 : UInt8} (y : Stray) (g : Globals) {data : Nat → UInt8}

theorem control_motor (h : ¬ Stores data) :
    SameMotor g (controlProtocolAnalysis turnA2 turnA3 y g data).1 := by
  have hc := control_commanded turnA2 turnA3 y g data
  generalize controlProtocolAnalysis turnA2 turnA3 y g data = out at hc ⊢
  cases hc with
  | drive h1 hv => exact absurd (.inl ⟨h1, hv⟩) h
  | turn _ h23 hv => exact absurd (.inr (.inl ⟨h23.imp And.left And.left, hv⟩)) h
  | stop h5 => exact absurd (.inr (.inr h5)) h
  | _ => exact ⟨rfl, rfl, rfl, rfl⟩

theorem control_arms (h : ¬ Arms data) :
    (controlProtocolAnalysis turnA2 turnA3 y g data).1 = g := by
  simp only [Arms, not_or] at h
  obtain ⟨h1, h2, h3, h5⟩ := h
  simp only [controlProtocolAnalysis, if_neg h1, if_neg h2, if_neg h3, if_neg h5]
  split <;> rfl

end

/-- The ranges the globals never leave: levels inside the enumerations, and no speed
without a direction. -/
structure InRange (g : Globals) : Prop where
  direction : g.gMotorDirection ≤ 2
  speed : g.gMotorSpeedLevel ≤ 5
  turnLevel : g.gMotorTurnLevel ≤ 3
  no_direction : g.gMotorDirection = myCarDirectionIdle → g.gMotorSpeedLevel = 0

theorem boot_inRange : InRange Globals.boot :=
  ⟨by decide, by decide, by decide, fun _ => rfl⟩

/-- Every command keeps the ranges. -/
theorem control_inRange {turnA2 turnA3 : UInt8} (y : Stray) {g : Globals}
    (h : InRange g) (data : Nat → UInt8) :
    InRange (controlProtocolAnalysis turnA2 turnA3 y g data).1 := by
  have hc := control_commanded turnA2 turnA3 y g data
  generalize controlProtocolAnalysis turnA2 turnA3 y g data = out at hc ⊢
  cases hc with
  | drive h1 hv =>
    obtain ⟨⟨hlo, hhi⟩, hs⟩ := of_decide_eq_true hv
    refine ⟨hhi, hs, h.turnLevel, fun hz => ?_⟩
    change data 4 = 0 at hz
    rw [hz] at hlo
    exact absurd hlo (by decide)
  | turn _ _ hv => exact ⟨h.direction, h.speed, of_decide_eq_true hv, h.no_direction⟩
  | stop => exact ⟨boot_inRange.direction, boot_inRange.speed, boot_inRange.turnLevel, fun _ => rfl⟩
  | _ => exact ⟨h.direction, h.speed, h.turnLevel, h.no_direction⟩

end BleCar.Protocol.Control
