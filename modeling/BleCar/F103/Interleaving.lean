import BleCar.F103.System

/-!
# The motors under any interleaving

Whatever the receive path does to the bytes of a frame, also between a test and the store it
guards, the motors see one command after the other: the writes to the registers stay safe, and
the main loop gets stuck only in a checksum over more bytes than the chip has RAM. The globals
stay in range as long as no byte comes while `control_protocol_analysis` still reads.
-/

namespace BleCar.F103.Interleaving

open BleCar.Lib.Runs
open BleCar.Motion.Hardware
open BleCar.Motion.Routines
open BleCar.Protocol.Control hiding controlProtocolAnalysis
open BleCar.Protocol.Buffer
open BleCar.F103.Firmware hiding step boot
open BleCar.F103.System

structure MotorInv (m : Mcu) : Prop where
  agree : Agree board m.drive.act
  stoppable : Stoppable board m.drive.act
  log : ∀ p ∈ m.drive.log, SafeWrite board p.1 p.2

theorem boot_motorInv : MotorInv boot.mcu :=
  ⟨.inl (funext fun _ => rfl), .inl fun _ => rfl, fun _ hp => absurd hp List.not_mem_nil⟩

/-- The registers are all that counts. -/
theorem MotorInv.congr {m n : Mcu} (h : MotorInv m) (hd : n.drive = m.drive) : MotorInv n :=
  ⟨hd ▸ h.agree, hd ▸ h.stoppable, hd ▸ h.log⟩

/-- The next statement is a checksum that faults. -/
def Doomed (s : Sys) : Prop := ∃ n, s.pos = .checkSum n ∧ SumFaults n

variable {s t : Sys} {y : Stray}

theorem MotorInv.task (h : MotorInv s.mcu) (y : Stray) :
    ∃ out, myMotorControlTask board y s.mcu.globals s.mcu.drive = some out ∧
      ∀ n : Mcu, n.drive = out.2 → MotorInv n := by
  obtain ⟨d, ht, hw, hs, hkeep, -⟩ :=
    task_spec board y (.inl h.agree) h.stoppable fun _ => h.agree
  exact ⟨_, ht, fun n hn => ⟨hn ▸ hkeep h.agree, hn ▸ hs, hn ▸ hw.log_forall h.log⟩⟩

theorem main_motorInv (h : MotorInv s.mcu) (ht : mainStep y s = some t) : MotorInv t.mcu := by
  cases mainStep_stepped ht with
  | task out hpos hout =>
    obtain ⟨out', hout', hinv⟩ := h.task y
    rw [hout] at hout'
    exact hinv _ (by rw [Option.some.inj hout'])
  | control n hpos =>
    rw [execute_eq]
    exact h.congr rfl
  | command p hpos =>
    rw [execute_eq]
    exact h.congr rfl
  | _ => exact h.congr rfl

/-- The main loop finishes its next statement unless that faults. -/
theorem main_goes_iff (h : MotorInv s.mcu) (y : Stray) :
    (∃ t, mainStep y s = some t) ↔ ¬ Doomed s := by
  constructor
  · rintro ⟨t, ht⟩ ⟨n, hpos, hn⟩
    simp [mainStep, hpos, hn] at ht
  · intro hd
    cases hpos : s.pos with
    | checkSum n => exact ⟨_, mainStep_checkSum hpos fun hn => hd ⟨n, hpos, hn⟩⟩
    | task =>
      obtain ⟨out, hout, -⟩ := h.task y
      exact ⟨_, by rw [mainStep, hpos]; exact congrArg (Option.map _) hout⟩
    | _ => exact ⟨_, by rw [mainStep, hpos]⟩

theorem step_motorInv (s : Sys) (e : Event) (t : Sys) (h : MotorInv s.mcu)
    (ht : step s e = some t) : MotorInv t.mcu := by
  rcases step_cases ht with ⟨y, -, hmain⟩ | ⟨-, -, hdrive⟩
  · exact main_motorInv h hmain
  · exact h.congr hdrive

/-! ## The range of the globals -/

/-- `control_protocol_analysis` is about to read `data` again. -/
def Reading : MainPos → Prop
  | .command p => p.reads ≠ []
  | _ => False

instance : ∀ p, Decidable (Reading p)
  | .command p => inferInstanceAs (Decidable (p.reads ≠ []))
  | .flagTest | .headerTest | .clearFlag | .readLen | .checkSum _ | .checkError | .control _
  | .task => isFalse id

/-- No byte is received between the first test of `control_protocol_analysis` and its last
store. -/
def Steady (s : Sys) : Event → Prop
  | .rxByte _ => ¬ Reading s.pos
  | _ => True

instance (s : Sys) : ∀ e, Decidable (Steady s e)
  | .rxByte _ => inferInstanceAs (Decidable (¬ Reading s.pos))
  | .idle | .main _ | .txByte | .dmaComplete | .txDone => isTrue trivial

/-- The globals are in range, and the tests made so far were made on the bytes that will be
stored. -/
structure Ranged (s : Sys) : Prop where
  range : InRange s.mcu.globals
  tested : ∀ p, s.pos = .command p → ∀ y, Tested (rxRead y s.mcu.rx) s.mcu.globals p

theorem boot_ranged : Ranged boot := ⟨boot_inRange, fun _ hp => by cases hp⟩

theorem tested_of_not_reading {data : Nat → UInt8} {g : Globals} {p : ControlPos}
    (h : ¬ Reading (.command p)) : Tested data g p := by
  cases p with
  | stop | reply => trivial
  | _ => exact absurd (List.cons_ne_nil _ _) h

theorem execute_ranged {p : ControlPos} (hr : InRange s.mcu.globals)
    (htest : ∀ y, Tested (rxRead y s.mcu.rx) s.mcu.globals p) : Ranged (execute y p s) := by
  rw [execute_eq]
  refine ⟨controlStep_inRange (htest y) hr, fun q hq y' => ?_⟩
  cases hn : (controlStatement y p s).next with
  | none => simp [hn] at hq
  | some r =>
    obtain rfl : r = q := by simpa [hn] using hq
    exact (tested_congr (rxRead_inside y y' _ (by decide)) (rxRead_inside y y' _ (by decide))).mp
      (tested_next (htest y) hn)

theorem main_ranged (h : Ranged s) (ht : mainStep y s = some t) : Ranged t := by
  cases mainStep_stepped ht with
  | control n hpos => exact execute_ranged h.range fun _ => trivial
  | command p hpos => exact execute_ranged h.range (h.tested p hpos)
  | task out hpos hout =>
    refine ⟨?_, fun p hp => by cases hp⟩
    change InRange out.1
    rw [task_globals board y hout]
    exact ⟨h.range.direction, h.range.speed, h.range.turnLevel, h.range.no_direction⟩
  | flagTest | headerTest | checkSum =>
    refine ⟨h.range, fun p hp => ?_⟩
    dsimp only at hp
    split at hp <;> cases hp
  | _ => exact ⟨h.range, fun p hp => by cases hp⟩

theorem step_ranged (s : Sys) (e : Event) (t : Sys) (h : Ranged s) (hs : Steady s e)
    (ht : step s e = some t) : Ranged t := by
  cases e with
  | main y => exact main_ranged h ht
  | rxByte b =>
    obtain rfl := Option.some.inj ht
    refine ⟨h.range, fun p hp y => tested_of_not_reading ?_⟩
    exact fun hread => hs ((show s.pos = .command p from hp) ▸ hread)
  | idle =>
    simp only [step, idle] at ht
    split at ht <;> cases ht
    exact ⟨h.range, h.tested⟩
  | txByte =>
    simp only [step, txByte] at ht
    split at ht <;> cases ht
    exact ⟨h.range, h.tested⟩
  | dmaComplete =>
    simp only [step, dmaComplete] at ht
    split at ht <;> cases ht
    exact ⟨h.range, h.tested⟩
  | txDone =>
    simp only [step, txDone] at ht
    split at ht <;> cases ht
    exact ⟨h.range, h.tested⟩

/-! ## Runs -/

/-- In every run of the system: pins change only at a standstill, a driven car has its pins
in agreement at every write, and the main loop can go on unless its next statement is the
checksum of a burst announced with fewer than three bytes. The globals are in range in every
run in which no byte comes between the first test and the last store of a command. -/
theorem run_motors {es : List Event} {s : Sys} (h : run step boot es = some s) :
    MotorInv s.mcu ∧
      (∀ y, (∃ t, mainStep y s = some t) ↔ ¬ ∃ n, s.pos = .checkSum n ∧ n.toNat < 3) ∧
      (Along step Steady boot es → InRange s.mcu.globals) := by
  have hinv := last_of_step (I := fun s => MotorInv s.mcu) step_motorInv boot_motorInv h
  refine ⟨hinv, fun y => ?_, fun hs => ?_⟩
  · rw [main_goes_iff hinv, Doomed]
    simp only [sumFaults_iff]
  · exact (always_last step (always_of_along step_ranged boot_ranged es hs) h).range

/-- A turn left, which the next burst makes a turn right between its checksum and its command. -/
def replacedTurn : List Event :=
  arrival [0xAA, 0xAA, 0x06, 0xA2, 0x01, 0x5C] ++ List.replicate 5 (.main Stray.blank) ++
    [.rxByte 0xAA, .rxByte 0xAA, .rxByte 0x06, .rxByte 0xA3] ++
    List.replicate 5 (.main Stray.blank)

theorem run_motors_replaced : ∃ s, run step boot replacedTurn = some s ∧
    MotorInv s.mcu ∧
      (∀ y, (∃ t, mainStep y s = some t) ↔ ¬ ∃ n, s.pos = .checkSum n ∧ n.toNat < 3) ∧
      InRange s.mcu.globals := by
  have hend : (run step boot replacedTurn).isSome = true := by decide +kernel
  obtain ⟨s, hs⟩ := Option.isSome_iff_exists.mp hend
  obtain ⟨hinv, hgo, hrange⟩ := run_motors hs
  exact ⟨s, hs, hinv, hgo, hrange (by decide +kernel)⟩

/-- A drive in range, of which the next burst replaces the direction between its test and its
store. -/
def tornDrive : List Event :=
  arrival [0xAA, 0xAA, 0x07, 0xA1, 0x01, 0x03, 0x5A] ++ List.replicate 9 (.main Stray.blank) ++
    [.rxByte 0xAA, .rxByte 0xAA, .rxByte 0x06, .rxByte 0xA2, .rxByte 0x04, .main Stray.blank]

/-- Without the condition the globals can leave their range. -/
theorem range_left : ¬ ∀ es s, run step boot es = some s → InRange s.mcu.globals := by
  intro h
  have hend : (run step boot tornDrive).map (fun s => s.mcu.globals.gMotorDirection) = some 4 := by
    decide +kernel
  obtain ⟨s, hs, hdir⟩ := Option.map_eq_some_iff.mp hend
  have hrange := (h _ s hs).direction
  rw [hdir] at hrange
  exact absurd hrange (by decide)

end BleCar.F103.Interleaving
