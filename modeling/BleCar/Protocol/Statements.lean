import BleCar.Protocol.Control

/-!
# `control_protocol_analysis`, statement by statement

The function works on `rx_buffer` itself: it compares `data[4]` and `data[5]` and reads them
again to store them. Each read is a statement here. While the bytes stay as they are, the
statements do together what `controlProtocolAnalysis` does.
-/

namespace BleCar.Protocol.Control

open BleCar.Motion.Routines
open BleCar.Protocol.Frames

/-- The calls of `my_uart3_tx_to_BLE`; the flag is armed behind the call. -/
inductive Answer where
  | drive | turn | report | stop
  deriving DecidableEq

def Answer.ID : Answer → UInt8
  | .drive => 0xA1
  | .turn => 0xA2
  | .report => 0xA4
  | .stop => 0xA5

def Answer.arm (g : Globals) : Answer → Globals
  | .drive => { g with gControlMotorFlag := .direction }
  | .turn => { g with gControlMotorFlag := .turn }
  | .report => g
  | .stop => { g with gControlMotorFlag := .stop }

/-- The statement to execute next. The condition of A1 is three comparisons. -/
inductive ControlPos where
  | switch
  | driveLow
  | driveHigh
  | driveSpeed
  | storeDirection
  | storeSpeed
  | turnTest (turn : UInt8)
  | storeTurn (turn : UInt8)
  | stop
  | reply (a : Answer) (ret : UInt8)
  deriving DecidableEq

/-- The globals behind a statement, the frames it sends, and the next statement, if any. -/
structure Outcome where
  globals : Globals
  sent : List (List UInt8)
  next : Option ControlPos

def goes (g : Globals) (p : ControlPos) : Outcome := ⟨g, [], some p⟩

def controlStep (turnA2 turnA3 : UInt8) (y : Stray) (g : Globals) (data : Nat → UInt8) :
    ControlPos → Outcome
  | .switch =>
    let commandId := data 3
    if commandId = 0xA1 then goes g .driveLow
    else if commandId = 0xA2 then goes g (.turnTest turnA2)
    else if commandId = 0xA3 then goes g (.turnTest turnA3)
    else if commandId = 0xA4 then goes g (.reply .report 0)
    else if commandId = 0xA5 then goes g .stop
    else ⟨g, [], none⟩
  | .driveLow => goes g (if 1 ≤ data 4 then .driveHigh else .reply .drive 1)
  | .driveHigh => goes g (if data 4 ≤ 2 then .driveSpeed else .reply .drive 1)
  | .driveSpeed => goes g (if data 5 ≤ 5 then .storeDirection else .reply .drive 1)
  | .storeDirection => goes { g with gMotorDirection := data 4 } .storeSpeed
  | .storeSpeed => goes { g with gMotorSpeedLevel := data 5 } (.reply .drive 0)
  | .turnTest turn => goes g (if data 4 ≤ 3 then .storeTurn turn else .reply .turn 1)
  | .storeTurn turn =>
    goes { g with gMotorTurnDirection := turn, gMotorTurnLevel := data 4 } (.reply .turn 0)
  | .stop => goes (mySetCarStopFunc g) (.reply .stop 0)
  | .reply a ret => ⟨a.arm g, [myUart3TxToBLE y g a.ID ret], none⟩

/-- The indices of `data` that a statement reads. -/
def ControlPos.reads : ControlPos → List Nat
  | .switch => [3]
  | .driveLow | .driveHigh | .storeDirection | .turnTest _ | .storeTurn _ => [4]
  | .driveSpeed | .storeSpeed => [5]
  | .stop | .reply _ _ => []

/-- The number of statements to the end of the function, at most. -/
def ControlPos.rank : ControlPos → Nat
  | .switch => 7
  | .driveLow => 6
  | .driveHigh => 5
  | .driveSpeed => 4
  | .storeDirection | .turnTest _ => 3
  | .storeSpeed | .storeTurn _ | .stop => 2
  | .reply _ _ => 1

section

variable {turnA2 turnA3 : UInt8} {y y' : Stray} {g : Globals} {data data' : Nat → UInt8}
  {p q : ControlPos}

theorem reads_le {i : Nat} (h : i ∈ p.reads) : 3 ≤ i ∧ i ≤ 5 := by
  cases p <;> simp [ControlPos.reads] at h <;> omega

theorem rank_pos (p : ControlPos) : 0 < p.rank := by cases p <;> simp [ControlPos.rank]

theorem rank_le (p : ControlPos) : p.rank ≤ 7 := by cases p <;> simp [ControlPos.rank]

/-- A statement reads what `reads` says. -/
theorem controlStep_congr (h : ∀ i ∈ p.reads, data i = data' i) :
    controlStep turnA2 turnA3 y g data p = controlStep turnA2 turnA3 y g data' p := by
  cases p <;> simp_all [ControlPos.reads, controlStep]

theorem isReplyID_answer (a : Answer) : IsReplyID a.ID := by cases a <;> decide

/-- No statement depends on the bytes behind `temp_txbuf`. -/
theorem controlStep_stray (y y' : Stray) :
    controlStep turnA2 turnA3 y g data p = controlStep turnA2 turnA3 y' g data p := by
  cases p with
  | reply a ret => simp only [controlStep, myUart3TxToBLE_stray y y' g (isReplyID_answer a)]
  | _ => rfl

/-- Only the last statement of a call sends. -/
theorem controlStep_sent (h : (controlStep turnA2 turnA3 y g data p).next = some q) :
    (controlStep turnA2 turnA3 y g data p).sent = [] := by
  cases p with
  | reply => cases h
  | switch => simp only [controlStep]; split_ifs <;> rfl
  | _ => rfl

/-- The flag is armed by the last statement of a call. -/
theorem controlStep_flag (h : (controlStep turnA2 turnA3 y g data p).next = some q) :
    (controlStep turnA2 turnA3 y g data p).globals.gControlMotorFlag = g.gControlMotorFlag := by
  cases p with
  | reply => cases h
  | switch => simp only [controlStep]; split_ifs <;> rfl
  | _ => rfl

/-- Behind the last read nothing is read. -/
theorem reads_nil_next (hnil : p.reads = [])
    (h : (controlStep turnA2 turnA3 y g data p).next = some q) : q.reads = [] := by
  cases p with
  | stop =>
    cases h
    rfl
  | reply => cases h
  | _ => cases hnil

theorem controlStep_rank (h : (controlStep turnA2 turnA3 y g data p).next = some q) :
    q.rank < p.rank := by
  cases p <;> simp only [controlStep, goes] at h <;> (try split_ifs at h) <;>
    cases h <;> simp [ControlPos.rank]

/-- Whatever the bytes do, a statement sends nothing or one frame under a reply ID. -/
theorem controlStep_answer (y : Stray) (g : Globals) (data : Nat → UInt8) (p : ControlPos) :
    (controlStep turnA2 turnA3 y g data p).sent = [] ∨ ∃ ID ret, IsReplyID ID ∧
      (controlStep turnA2 turnA3 y g data p).sent = [myUart3TxToBLE y g ID ret] := by
  cases p with
  | reply a ret => exact .inr ⟨a.ID, ret, isReplyID_answer a, rfl⟩
  | switch => exact .inl (by simp only [controlStep]; split_ifs <;> rfl)
  | _ => exact .inl rfl

end

/-! ## On bytes that stay as they are -/

/-- The globals and frames of a reply and the flag behind it. -/
def answer (y : Stray) (a : Answer) (ret : UInt8) (g : Globals) : Globals × List (List UInt8) :=
  (a.arm g, [myUart3TxToBLE y g a.ID ret])

/-- What the call still does from a statement on. -/
def finish (turnA2 turnA3 : UInt8) (y : Stray) (g : Globals) (data : Nat → UInt8) :
    ControlPos → Globals × List (List UInt8)
  | .switch => controlProtocolAnalysis turnA2 turnA3 y g data
  | .driveLow =>
    if driveValid data then
      answer y .drive 0 { g with gMotorDirection := data 4, gMotorSpeedLevel := data 5 }
    else answer y .drive 1 g
  | .driveHigh =>
    if data 4 ≤ 2 ∧ data 5 ≤ 5 then
      answer y .drive 0 { g with gMotorDirection := data 4, gMotorSpeedLevel := data 5 }
    else answer y .drive 1 g
  | .driveSpeed =>
    if data 5 ≤ 5 then
      answer y .drive 0 { g with gMotorDirection := data 4, gMotorSpeedLevel := data 5 }
    else answer y .drive 1 g
  | .storeDirection =>
    answer y .drive 0 { g with gMotorDirection := data 4, gMotorSpeedLevel := data 5 }
  | .storeSpeed => answer y .drive 0 { g with gMotorSpeedLevel := data 5 }
  | .turnTest turn => controlTurn turn y g data
  | .storeTurn turn =>
    answer y .turn 0 { g with gMotorTurnDirection := turn, gMotorTurnLevel := data 4 }
  | .stop => answer y .stop 0 (mySetCarStopFunc g)
  | .reply a ret => answer y a ret g

/-- The indices the call still reads. -/
def toRead (data : Nat → UInt8) : ControlPos → List Nat
  | .switch => controlReads data
  | .driveLow => if 1 ≤ data 4 ∧ data 4 ≤ 2 then [4, 5] else [4]
  | .driveHigh => if data 4 ≤ 2 then [4, 5] else [4]
  | .driveSpeed => if data 5 ≤ 5 then [4, 5] else [5]
  | .storeDirection => [4, 5]
  | p => p.reads

section

variable {turnA2 turnA3 : UInt8} {y : Stray} {g g₀ : Globals} {data : Nat → UInt8}
  {p q : ControlPos}

/-- What is left to do does not change with a statement. -/
theorem finish_next (h : (controlStep turnA2 turnA3 y g data p).next = some q) :
    finish turnA2 turnA3 y (controlStep turnA2 turnA3 y g data p).globals data q =
      finish turnA2 turnA3 y g data p := by
  cases p with
  | switch =>
    simp only [controlStep, goes] at h ⊢
    split_ifs at h with h1 h2 h3 h4 h5 <;> cases h
    · simp only [if_pos h1, finish, controlProtocolAnalysis]
      split_ifs <;> rfl
    · simp only [if_neg h1, if_pos h2, finish, controlProtocolAnalysis]
    · simp only [if_neg h1, if_neg h2, if_pos h3, finish, controlProtocolAnalysis]
    · simp only [if_neg h1, if_neg h2, if_neg h3, if_pos h4, finish, controlProtocolAnalysis]
      rfl
    · simp only [if_neg h1, if_neg h2, if_neg h3, if_neg h4, if_pos h5, finish,
        controlProtocolAnalysis]
      rfl
  | driveLow =>
    simp only [controlStep, goes] at h ⊢
    split_ifs at h with h1 <;> cases h <;> simp [finish, driveValid, h1]
  | driveHigh =>
    simp only [controlStep, goes] at h ⊢
    split_ifs at h with h1 <;> cases h <;> simp [finish, h1]
  | driveSpeed =>
    simp only [controlStep, goes] at h ⊢
    split_ifs at h with h1 <;> cases h <;> simp [finish, h1]
  | turnTest =>
    simp only [controlStep, goes] at h ⊢
    split_ifs at h with h1 <;> cases h <;>
      simp [finish, controlTurn, turnValid, h1, answer, Answer.arm, Answer.ID]
  | storeDirection | storeSpeed | storeTurn | stop =>
    cases h
    rfl
  | reply => cases h

theorem finish_last (h : (controlStep turnA2 turnA3 y g data p).next = none) :
    finish turnA2 turnA3 y g data p = ((controlStep turnA2 turnA3 y g data p).globals,
      (controlStep turnA2 turnA3 y g data p).sent) := by
  cases p with
  | switch =>
    simp only [controlStep, goes] at h ⊢
    split_ifs at h with h1 h2 h3 h4 h5
    simp only [if_neg h1, if_neg h2, if_neg h3, if_neg h4, if_neg h5, finish,
      controlProtocolAnalysis]
  | reply => rfl
  | _ => cases h

theorem toRead_next (h : (controlStep turnA2 turnA3 y g data p).next = some q) (i : Nat) :
    i ∈ toRead data p ↔ i ∈ p.reads ∨ i ∈ toRead data q := by
  cases p with
  | switch | driveLow | driveHigh | driveSpeed | turnTest =>
    simp only [controlStep, goes] at h
    split_ifs at h <;> cases h <;> simp only [toRead, controlReads, ControlPos.reads] <;> grind
  | storeDirection | storeSpeed | storeTurn | stop =>
    cases h
    simp [toRead, ControlPos.reads]
  | reply => cases h

theorem toRead_last (h : (controlStep turnA2 turnA3 y g data p).next = none) :
    toRead data p = p.reads := by
  cases p with
  | switch =>
    simp only [controlStep, goes] at h
    split_ifs at h
    simp_all [toRead, controlReads, ControlPos.reads]
  | reply => rfl
  | _ => cases h

/-- A call on the bytes `data`, begun with the globals `g₀`, stands at `p` with the globals `g`
and has read the indices `done`. -/
structure Progress (turnA2 turnA3 : UInt8) (data : Nat → UInt8) (g₀ g : Globals) (p : ControlPos)
    (done : List Nat) : Prop where
  result : ∀ y, finish turnA2 turnA3 y g data p = controlProtocolAnalysis turnA2 turnA3 y g₀ data
  reads : ∀ i, i ∈ controlReads data ↔ i ∈ done ∨ i ∈ toRead data p

theorem Progress.start : Progress turnA2 turnA3 data g₀ g₀ .switch [] :=
  ⟨fun _ => rfl, fun i => by simp [toRead]⟩

theorem Progress.next {done : List Nat} (h : Progress turnA2 turnA3 data g₀ g p done)
    (hq : (controlStep turnA2 turnA3 y g data p).next = some q) :
    Progress turnA2 turnA3 data g₀ (controlStep turnA2 turnA3 y g data p).globals q
      (done ++ p.reads) where
  result y' := by
    rw [controlStep_stray y y'] at hq ⊢
    rw [finish_next hq]
    exact h.result y'
  reads i := by rw [h.reads i, toRead_next hq i, List.mem_append, or_assoc]

/-- The last statement ends with the result of the whole call. -/
theorem Progress.last {done : List Nat} (h : Progress turnA2 turnA3 data g₀ g p done)
    (hq : (controlStep turnA2 turnA3 y g data p).next = none) :
    ((controlStep turnA2 turnA3 y g data p).globals, (controlStep turnA2 turnA3 y g data p).sent) =
        controlProtocolAnalysis turnA2 turnA3 y g₀ data ∧
      ∀ i, i ∈ controlReads data ↔ i ∈ done ++ p.reads := by
  refine ⟨(finish_last hq).symm.trans (h.result y), fun i => ?_⟩
  rw [h.reads i, toRead_last hq, List.mem_append]

/-- Every index a statement reads is one the whole call reads. -/
theorem Progress.mem_controlReads {done : List Nat} (h : Progress turnA2 turnA3 data g₀ g p done)
    {i : Nat} (hi : i ∈ p.reads) : i ∈ controlReads data := by
  rw [h.reads i]
  cases hq : (controlStep turnA2 turnA3 Stray.blank g data p).next with
  | none => exact .inr (by rwa [toRead_last hq])
  | some q => exact .inr ((toRead_next hq i).mpr (.inl hi))

/-- What the tests made so far say of the bytes and of the globals. -/
def Tested (data : Nat → UInt8) (g : Globals) : ControlPos → Prop
  | .driveHigh => 1 ≤ data 4
  | .driveSpeed => 1 ≤ data 4 ∧ data 4 ≤ 2
  | .storeDirection => driveValid data = true
  | .storeSpeed => data 5 ≤ 5 ∧ 1 ≤ g.gMotorDirection
  | .storeTurn _ => turnValid data = true
  | _ => True

/-- The tests keep every store in range. -/
theorem controlStep_inRange (ht : Tested data g p) (h : InRange g) :
    InRange (controlStep turnA2 turnA3 y g data p).globals := by
  cases p with
  | storeDirection =>
    obtain ⟨⟨hlo, hhi⟩, -⟩ := of_decide_eq_true ht
    refine ⟨hhi, h.speed, h.turnLevel, fun hz => ?_⟩
    rw [show data 4 = 0 from hz] at hlo
    exact absurd hlo (by decide)
  | storeSpeed =>
    refine ⟨h.direction, ht.1, h.turnLevel, fun hz => ?_⟩
    have hlo := ht.2
    rw [show g.gMotorDirection = 0 from hz] at hlo
    exact absurd hlo (by decide)
  | storeTurn => exact ⟨h.direction, h.speed, of_decide_eq_true ht, h.no_direction⟩
  | stop => exact ⟨boot_inRange.direction, boot_inRange.speed, boot_inRange.turnLevel, fun _ => rfl⟩
  | reply a => cases a <;> exact ⟨h.direction, h.speed, h.turnLevel, h.no_direction⟩
  | switch =>
    simp only [controlStep]
    split_ifs <;> exact h
  | _ => exact h

theorem tested_next (ht : Tested data g p)
    (hq : (controlStep turnA2 turnA3 y g data p).next = some q) :
    Tested data (controlStep turnA2 turnA3 y g data p).globals q := by
  cases p with
  | switch | driveLow | driveHigh | driveSpeed | turnTest =>
    simp only [controlStep, goes] at hq
    split_ifs at hq <;> cases hq <;> simp_all [Tested, driveValid, turnValid]
  | storeDirection =>
    cases hq
    obtain ⟨⟨hlo, -⟩, hs⟩ := of_decide_eq_true ht
    exact ⟨hs, hlo⟩
  | storeSpeed | storeTurn | stop =>
    cases hq
    trivial
  | reply => cases hq

theorem tested_congr {data' : Nat → UInt8} (h4 : data 4 = data' 4) (h5 : data 5 = data' 5) :
    Tested data g p ↔ Tested data' g p := by
  cases p <;> simp only [Tested, driveValid, turnValid, h4, h5]

end

end BleCar.Protocol.Control
