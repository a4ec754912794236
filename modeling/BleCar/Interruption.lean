import BleCar.F103.Interleaving
import BleCar.L151.Copies
import BleCar.Motion.Delays
import BleCar.Obedience

/-!
# Both cars under every interleaving

Bytes and IDLE may come between any two statements of the main loop. The L151 then obeys the
copies it made. The F103 obeys what it read from `rx_buffer` in each call of
`control_protocol_analysis`, replaced behind the checksum or not, as long as no byte comes
while the call reads. Left alone, it is then ready for the next burst after a few statements,
unless a burst announced with fewer than three bytes waits for its checksum.
-/

namespace BleCar.Interruption

open BleCar.Lib.Runs
open BleCar.Motion.Routines
open BleCar.Motion.Driving
open BleCar.Protocol.Frames
open BleCar.Protocol.Control
open BleCar.Protocol.Buffer
open BleCar.Obedience

/-! ## The L151 -/

section

open BleCar.L151.Copies

/-- What the car is told by a copy, whose header nothing has checked. -/
def copyCommand (b : List UInt8) : Command :=
  if Checked b then decode .right .left (bytesAt b) else .other

theorem copy_step {s : Mcu} {c : Car} {k : Copy} (hk : k.bytes.length ≤ 255)
    (h : Drives L151.Firmware.board c s) :
    ∃ t, serve s k = some t ∧ Drives L151.Firmware.board (c.obey (copyCommand k.bytes)) t := by
  obtain ⟨g', d', ht, hend⟩ :=
    h.pass l151_regular .right .left k.stray (Checked k.bytes) (bytesAt k.bytes)
  obtain ⟨t, hstep, hgt, hdt⟩ := serve_of_task hk rfl ht
  exact ⟨t, hstep, hend t hgt hdt⟩

/-- A checked A2 or A3, and a checked A1 in range with a speed level of at least 1. -/
def CopyTurns (b : List UInt8) : Prop := Checked b ∧ IsTurn (bytesAt b)
def CopyDrivesOff (b : List UInt8) : Prop := Checked b ∧ IsDriveOff (bytesAt b)

theorem copy_first {s : Mcu} {c : Car} {k : Copy} (hk : k.bytes.length ≤ 255)
    (hno : ¬ CopyTurns k.bytes) (h : Stands L151.Firmware.board c s) :
    ∃ t, serve s k = some t ∧
      (Stands L151.Firmware.board (c.obey (copyCommand k.bytes)) t ∧ ¬ CopyDrivesOff k.bytes ∨
        Drives L151.Firmware.board (c.obey (copyCommand k.bytes)) t) := by
  obtain ⟨g', d', ht, hend⟩ := h.pass .right .left k.stray (Checked k.bytes) (bytesAt k.bytes)
    fun hs hid => hno ⟨hs, hid⟩
  obtain ⟨t, hstep, hgt, hdt⟩ := serve_of_task hk rfl ht
  exact ⟨t, hstep, hend t hgt hdt⟩

/-- Whatever interrupts the main loop: when the copies the L151 made turn only after one that
drives off, it is at each loop head the car that has obeyed its copies, in order and each
once. -/
theorem copies_obeyed {es : List L151.System.Event} {s : L151.System.Sys}
    (hr : run L151.System.step L151.System.boot es = some s) (hpos : s.pos = .flagTest)
    {pre post : List (List UInt8)} {b : List UInt8}
    (hmade : noted L151.System.step copies L151.System.boot es = pre ++ b :: post)
    (hpre : ∀ b' ∈ pre, ¬ CopyTurns b') (hb : CopyDrivesOff b) :
    Drives L151.Firmware.board (((pre ++ b :: post).map copyCommand).foldl Car.obey Car.boot)
      s.mcu := by
  obtain ⟨ks, hks, hbytes⟩ := (run_served hr).atHead hpos
  have hlen : ∀ k ∈ ks, k.bytes.length ≤ 255 := fun k hk =>
    copies_length hr _ (hbytes ▸ List.mem_map_of_mem hk)
  obtain ⟨kpre, krest, rfl, hkpre, hkrest⟩ := List.map_eq_append_iff.mp (hbytes.trans hmade)
  obtain ⟨k, kpost, rfl, hk, hkpost⟩ := List.map_eq_cons_iff.mp hkrest
  obtain ⟨t, ht, hdrives⟩ := run_firstDriven (P := fun k => k.bytes.length ≤ 255)
    (f := fun k => copyCommand k.bytes) (T := fun k => CopyTurns k.bytes)
    (O := fun k => CopyDrivesOff k.bytes) (fun _ _ _ hk h => copy_step hk h)
    (fun _ _ _ hk hno h => copy_first hk hno h) (fun _ ho ht => ho.2.not_isTurn ht.2) hlen
    (fun k hk => hpre _ (hkpre ▸ List.mem_map_of_mem hk)) (hk ▸ hb) l151_boot
  rw [hks] at ht
  obtain rfl := Option.some.inj ht
  rw [← hkpre, ← hk, ← hkpost]
  simpa only [List.map_append, List.map_cons, List.map_map, Function.comp_def] using
    (⟨hdrives.idle, hdrives.shows⟩ : Drives L151.Firmware.board _ s.mcu)

/-- A drive forward, whose last bytes another burst spoils in `rx_buffer` after the copying. -/
def spoiltDrive : List L151.System.Event :=
  L151.System.arrival driveBurst.bytes ++ L151.System.mains 6 Stray.blank ++
    L151.System.arrival [0x00, 0x00, 0x00, 0x00, 0x00, 0x00, 0x00] ++
      L151.System.mains 5 Stray.blank

instance (b : List UInt8) : Decidable (CopyDrivesOff b) := inferInstanceAs (Decidable (_ ∧ _))

theorem copies_obeyed_spoilt :
    ∃ s, run L151.System.step L151.System.boot spoiltDrive = some s ∧
      Drives L151.Firmware.board
        ((([] ++ driveBurst.bytes :: []).map copyCommand).foldl Car.obey Car.boot) s.mcu := by
  have hend : (run L151.System.step L151.System.boot spoiltDrive).map L151.System.Sys.pos =
      some .flagTest := by decide +kernel
  obtain ⟨s, hs, hpos⟩ := Option.map_eq_some_iff.mp hend
  exact ⟨s, hs, copies_obeyed hs hpos (by decide +kernel)
    (fun _ h => absurd h List.not_mem_nil) (by decide)⟩

end

/-! ## The F103 -/

section

open BleCar.F103.Firmware hiding step boot controlProtocolAnalysis
open BleCar.F103.System
open BleCar.F103.Interleaving

/-- `data[i]` as `control_protocol_analysis` found it. -/
def entryData (e : Entry) (i : Nat) : UInt8 := (e.reads.lookup i).getD 0

/-- What the car is told by a call, whether or not the bytes are those that were summed. -/
def entryCommand (e : Entry) : Command := decode .left .right (entryData e)

/-- The car that has obeyed these calls. -/
def obeyed (ens : List Entry) : Car := (ens.map entryCommand).foldl Car.obey Car.boot

/-- The car that has obeyed the calls so far. -/
def entriesObeyed (s : Sys) : Car := obeyed s.entered

theorem obeyed_concat (ens : List Entry) (e : Entry) :
    obeyed (ens ++ [e]) = (obeyed ens).obey (entryCommand e) := by
  simp [obeyed]

/-- What was read of `data` is enough to know the command. -/
theorem entryCommand_of_reads {e : Entry} {data : Nat → UInt8} {read : List Nat}
    (he : e.reads = read.map fun i => (i, data i))
    (h : ∀ i, i ∈ controlReads data ↔ i ∈ read) :
    entryCommand e = decode .left .right data := by
  refine (decode_congr fun i hi => ?_).symm
  rw [entryData, he, List.lookup_graph data ((h i).mp hi), Option.getD_some]

/-- The car is the one that has obeyed the calls, or will be after the task. -/
inductive Coherent (s : Sys) : Prop where
  | ready (hpos : ∀ p, s.pos ≠ .command p) (h : Drives board (entriesObeyed s) s.mcu)
  | calling (p : ControlPos) (before : List Entry) (e : Entry) (g₀ : Globals)
      (data : Nat → UInt8) (read : List Nat) (hpos : s.pos = .command p)
      (hentered : s.entered = before ++ [e]) (hidle : g₀.gControlMotorFlag = .idle)
      (hshows : Shows board (obeyed before) g₀ s.mcu.drive.act)
      (hreads : e.reads = read.map fun i => (i, data i))
      (hprogress : Progress myTurnLeft myTurnRight data g₀ s.mcu.globals p read)
      (hdata : Reading s.pos → ∀ y, ∀ i < 256, rxRead y s.mcu.rx i = data i)
  | told (c : Car) (g : Globals) (y : Stray) (data : Nat → UInt8) (hpos : s.pos = .task)
      (hidle : g.gControlMotorFlag = .idle) (hshows : Shows board c g s.mcu.drive.act)
      (hg : s.mcu.globals = (F103.Firmware.controlProtocolAnalysis y g data).1)
      (hc : entriesObeyed s = c.obey (decode .left .right data))

variable {s t : Sys} {y : Stray}

theorem Coherent.congr (h : Coherent s) (hpos : t.pos = s.pos)
    (hglobals : t.mcu.globals = s.mcu.globals) (hdrive : t.mcu.drive = s.mcu.drive)
    (hentered : t.entered = s.entered)
    (hdata : Reading s.pos → ∀ y, rxRead y t.mcu.rx = rxRead y s.mcu.rx) : Coherent t := by
  have hcar : entriesObeyed t = entriesObeyed s := by unfold entriesObeyed; rw [hentered]
  cases h with
  | ready hp h => exact .ready (hpos ▸ hp) (hcar ▸ ⟨hglobals ▸ h.idle, hglobals ▸ hdrive ▸ h.shows⟩)
  | calling p before e g₀ data read hp he hi hs hr hpr hd =>
    refine .calling p before e g₀ data read (hpos.trans hp) (hentered.trans he) hi (hdrive ▸ hs) hr
      (hglobals ▸ hpr) fun hread y i hlt => ?_
    rw [hpos] at hread
    rw [hdata hread y]
    exact hd hread y i hlt
  | told c g y data hp hi hs hg hc =>
    exact .told c g y data (hpos.trans hp) hi (hdrive ▸ hs) (hglobals.trans hg) (hcar.trans hc)

/-- Only in the parser's call and at the task a command waits to be carried out. -/
theorem Coherent.ready_of_pos (h : Coherent s) (htask : s.pos ≠ .task)
    (hcommand : ∀ p, s.pos ≠ .command p) : Drives board (entriesObeyed s) s.mcu := by
  cases h with
  | ready _ h => exact h
  | calling p _ _ _ _ _ hp => exact absurd hp (hcommand p)
  | told _ _ _ _ hp => exact absurd hp htask

/-- The task carries out what waits. -/
theorem Coherent.task (h : Coherent s) (hpos : s.pos = .task) (y : Stray) :
    ∃ out, myMotorControlTask board y s.mcu.globals s.mcu.drive = some out ∧
      out.1.gControlMotorFlag = .idle ∧ Shows board (entriesObeyed s) out.1 out.2.act := by
  cases h with
  | ready _ h => exact ⟨_, task_idle board y h.idle s.mcu.drive, h.idle, h.shows⟩
  | calling _ _ _ _ _ _ hp => rw [hpos] at hp; cases hp
  | told c g y' data hp hi hs hg hc =>
    have hstray : s.mcu.globals =
        (controlProtocolAnalysis Side.left.byte Side.right.byte y g data).1 := by
      rw [hg, F103.Firmware.controlProtocolAnalysis, control_stray y' y]
      rfl
    obtain ⟨g', d', ht, hidle, hshows⟩ := pass_obeys f103_regular hs hi .left .right y data
    exact ⟨(g', d'), hstray ▸ ht, hidle, hc ▸ hshows⟩

/-- A statement of the call, made on the bytes the call began with. -/
theorem execute_coherent {p : ControlPos} {before : List Entry} {e : Entry} {g₀ : Globals}
    {data : Nat → UInt8} {read : List Nat} (hentered : s.entered = before ++ [e])
    (hidle : g₀.gControlMotorFlag = .idle)
    (hshows : Shows board (obeyed before) g₀ s.mcu.drive.act)
    (hreads : e.reads = read.map fun i => (i, data i))
    (hprogress : Progress myTurnLeft myTurnRight data g₀ s.mcu.globals p read)
    (hdata : p.reads ≠ [] → ∀ y, ∀ i < 256, rxRead y s.mcu.rx i = data i) (y : Stray) :
    Coherent (execute y p s) := by
  have hsame : ∀ i ∈ p.reads, rxRead y s.mcu.rx i = data i := by
    intro i hi
    have hle := reads_le hi
    exact hdata (List.ne_nil_of_mem hi) y i (by omega)
  have hstep : controlStatement y p s =
      controlStep myTurnLeft myTurnRight y s.mcu.globals data p := controlStep_congr hsame
  have hnoted : (p.reads.map fun i => (i, rxRead y s.mcu.rx i)) =
      p.reads.map fun i => (i, data i) :=
    List.map_congr_left fun i hi => by rw [hsame i hi]
  have hexec := execute_eq y p s
  rw [hstep, hnoted, hentered, noteReads_concat, hreads, ← List.map_append] at hexec
  cases hq : (controlStep myTurnLeft myTurnRight y s.mcu.globals data p).next with
  | some q =>
    rw [hexec]
    refine .calling q before _ g₀ data (read ++ p.reads) ?_ rfl hidle hshows rfl
      (hprogress.next hq) fun hread => ?_
    · simp only [hq, Option.elim_some]
    · simp only [hq, Option.elim_some] at hread
      refine hdata fun hnil => ?_
      exact hread (reads_nil_next hnil hq)
  | none =>
    obtain ⟨hresult, hall⟩ := hprogress.last hq
    rw [hexec]
    refine .told (obeyed before) g₀ y data ?_ hidle hshows (congrArg Prod.fst hresult) ?_
    · simp only [hq, Option.elim_none]
    · rw [entriesObeyed, obeyed_concat, entryCommand_of_reads rfl hall]

theorem Coherent.main (h : Coherent s) (ht : mainStep y s = some t) : Coherent t := by
  cases mainStep_stepped ht with
  | control n hpos =>
    have hdrives := h.ready_of_pos (by simp [hpos]) (by simp [hpos])
    have hsame : ControlPos.reads .switch ≠ [] → ∀ y', ∀ i < 256,
        rxRead y' s.mcu.rx i = rxRead y s.mcu.rx i :=
      fun _ y' _ hi => rxRead_inside y' y s.mcu.rx hi
    have hentered : ({ s with entered := s.entered ++ [entry y n s] } : Sys).entered =
        s.entered ++ [entry y n s] := rfl
    exact execute_coherent hentered hdrives.idle hdrives.shows List.map_nil.symm .start hsame y
  | command p hpos =>
    cases h with
    | ready hp => exact absurd hpos (hp p)
    | calling p' before e g₀ data read hp he hi hs hr hpr hd =>
      obtain rfl : p' = p := MainPos.command.inj (hp.symm.trans hpos)
      rw [hpos] at hd
      exact execute_coherent he hi hs hr hpr hd y
    | told _ _ _ _ hp => rw [hpos] at hp; cases hp
  | task out hpos hout =>
    obtain ⟨out', hout', hidle, hshows⟩ := h.task hpos y
    rw [hout] at hout'
    obtain rfl := Option.some.inj hout'
    exact .ready (fun p hp => by cases hp) ⟨hidle, hshows⟩
  | flagTest hpos | headerTest hpos | checkSum n hpos =>
    have hdrives := h.ready_of_pos (by simp [hpos]) (by simp [hpos])
    refine .ready (fun p hp => ?_) ⟨hdrives.idle, hdrives.shows⟩
    dsimp only at hp
    split at hp <;> cases hp
  | clearFlag hpos | readLen hpos | checkError hpos =>
    have hdrives := h.ready_of_pos (by simp [hpos]) (by simp [hpos])
    exact .ready (fun p hp => by cases hp) ⟨hdrives.idle, hdrives.shows⟩

theorem step_coherent (s : Sys) (e : Event) (t : Sys) (h : Coherent s) (hs : Steady s e)
    (ht : step s e = some t) : Coherent t := by
  cases e with
  | main y => exact h.main ht
  | rxByte b =>
    obtain rfl := Option.some.inj ht
    exact h.congr rfl rfl rfl rfl fun hread => absurd hread hs
  | idle =>
    simp only [step, idle] at ht
    split at ht <;> cases ht
    exact h.congr rfl rfl rfl rfl fun _ _ => rfl
  | txByte =>
    simp only [step, txByte] at ht
    split at ht <;> cases ht
    exact h.congr rfl rfl rfl rfl fun _ _ => rfl
  | dmaComplete =>
    simp only [step, dmaComplete] at ht
    split at ht <;> cases ht
    exact h.congr rfl rfl rfl rfl fun _ _ => rfl
  | txDone =>
    simp only [step, txDone] at ht
    split at ht <;> cases ht
    exact h.congr rfl rfl rfl rfl fun _ _ => rfl

theorem run_coherent {es : List Event} (hr : run step boot es = some s)
    (hs : Along step Steady boot es) : Coherent s :=
  have hboot : Coherent boot := .ready (fun p hp => by cases hp) f103_boot
  always_last step (always_of_along step_coherent hboot es hs) hr

/-- Bytes and IDLE may come at any time but between the first test and the last store of a
call of `control_protocol_analysis`: at each loop head the F103 is the car that has obeyed
what was read in these calls, in order. -/
theorem entries_obeyed {es : List Event} (hr : run step boot es = some s)
    (hs : Along step Steady boot es) (hpos : s.pos = .flagTest) :
    Drives board (entriesObeyed s) s.mcu :=
  (run_coherent hr hs).ready_of_pos (by simp [hpos]) (by simp [hpos])

/-- A turn left, of which the next burst makes a turn right behind the checksum. -/
def tornTurn : List Event :=
  arrival turnBurst.bytes ++ List.replicate 5 (.main Stray.blank) ++
    [.rxByte 0xAA, .rxByte 0xAA, .rxByte 0x06, .rxByte 0xA3] ++
      List.replicate 5 (.main Stray.blank)

theorem entries_obeyed_torn :
    ∃ s, run step boot tornTurn = some s ∧ Drives board (entriesObeyed s) s.mcu := by
  have hend : (run step boot tornTurn).map Sys.pos = some .flagTest := by decide +kernel
  obtain ⟨s, hs, hpos⟩ := Option.map_eq_some_iff.mp hend
  exact ⟨s, hs, entries_obeyed hs (by decide +kernel) hpos⟩

/-! ## Recovery -/

/-- A burst that waits for its checksum has been announced with at least three bytes. -/
def Announced (s : Sys) : Prop :=
  match s.pos with
  | .headerTest => headerOk Stray.blank s.mcu.rx → 3 ≤ s.mcu.rx.rxLen.toNat
  | .clearFlag | .readLen => 3 ≤ s.mcu.rx.rxLen.toNat
  | .checkSum n => 3 ≤ n.toNat
  | _ => True

/-- How many statements it is to the loop head, at most. -/
def remaining : MainPos → Nat
  | .flagTest => 0
  | .headerTest => 12
  | .clearFlag => 11
  | .readLen => 10
  | .checkSum _ => 9
  | .control _ => 8
  | .command p => p.rank + 1
  | .checkError => 2
  | .task => 1

theorem remaining_le (p : MainPos) : remaining p ≤ 12 := by
  cases p with
  | command p =>
    have hle := rank_le p
    simp only [remaining]
    omega
  | _ => simp only [remaining]; omega

/-- Between two loop heads no statement changes whether the waiting burst is long enough. -/
theorem announced_iff (hpos : s.pos ≠ .flagTest) (ht : mainStep y s = some t) :
    Announced t ↔ Announced s := by
  cases mainStep_stepped ht with
  | flagTest hp => exact absurd hp hpos
  | headerTest hp =>
    by_cases hok : headerOk y s.mcu.rx
    · have hok' := (headerOk_stray y Stray.blank s.mcu.rx).mp hok
      simp [Announced, hp, hok, hok']
    · have hok' : ¬ headerOk Stray.blank s.mcu.rx := fun h =>
        hok ((headerOk_stray Stray.blank y s.mcu.rx).mp h)
      simp [Announced, hp, hok, hok']
  | clearFlag hp => simp [Announced, hp, Sys.withRx]
  | readLen hp => simp [Announced, hp]
  | checkSum n hp hn =>
    rw [sumFaults_iff, not_lt] at hn
    by_cases hc : checkCode (rxRead y s.mcu.rx) n = 0 <;> simp [Announced, hp, hc, hn]
  | checkError hp => simp [Announced, hp]
  | control n hp =>
    rw [execute_eq]
    simp only [Announced, hp]
    cases (controlStatement y .switch _).next <;> simp
  | command p hp =>
    rw [execute_eq]
    simp only [Announced, hp]
    cases (controlStatement y p s).next <;> simp
  | task out hp => simp [Announced, hp]

/-- Left alone, the main loop comes nearer to its head. -/
theorem main_descends (h : Coherent s) (ha : Announced s) (y : Stray)
    (hpos : remaining s.pos ≠ 0) :
    ∃ t, mainStep y s = some t ∧ t.incoming = s.incoming ∧ Announced t ∧
      remaining t.pos < remaining s.pos := by
  have hgo : ∃ t, mainStep y s = some t := by
    cases hp : s.pos with
    | checkSum n =>
      simp only [Announced, hp] at ha
      exact ⟨_, mainStep_checkSum hp (by rw [sumFaults_iff]; omega)⟩
    | task =>
      obtain ⟨out, hout, -⟩ := h.task hp y
      exact ⟨_, by rw [mainStep, hp]; exact congrArg (Option.map _) hout⟩
    | _ => exact ⟨_, by rw [mainStep, hp]⟩
  obtain ⟨t, ht⟩ := hgo
  have hhead : s.pos ≠ .flagTest := fun hp => hpos (by rw [hp]; rfl)
  refine ⟨t, ht, (main_incoming ht).1, (announced_iff hhead ht).mpr ha, ?_⟩
  have hnext : ∀ {p : ControlPos} {u : Sys},
      remaining ((controlStatement y p u).next.elim .task .command) < p.rank + 1 := by
    intro p u
    have hp := rank_pos p
    cases hq : (controlStatement y p u).next with
    | none => simpa [remaining] using hp
    | some q => simpa [remaining] using controlStep_rank hq
  cases mainStep_stepped ht with
  | flagTest hp => exact absurd hp hhead
  | control n hp =>
    rw [execute_eq, hp]
    exact hnext
  | command p hp =>
    rw [execute_eq, hp]
    exact hnext
  | headerTest hp | checkSum n hp =>
    rw [hp]
    dsimp only
    split <;> simp [remaining]
  | clearFlag hp | readLen hp | checkError hp | task out hp =>
    rw [hp]
    simp [remaining]

/-- A burst announced too short ends in the checksum. -/
theorem wedged (ha : ¬ Announced s) {n : Nat}
    (ht : run step s (List.replicate n (.main y)) = some t) : ¬ Announced t := by
  induction n generalizing s with
  | zero => exact Option.some.inj ht ▸ ha
  | succ n ih =>
    obtain ⟨u, hu, hrun⟩ := run_cons_inv step ht
    have hhead : s.pos ≠ .flagTest := fun hp => ha (by simp [Announced, hp])
    exact ih (fun hau => ha ((announced_iff hhead hu).mp hau)) hrun

/-- The torn turn, up to the IDLE that ends the bytes behind it. -/
def tornTurnEnded : List Event := tornTurn ++ [.idle]

end

/-! ## How long a pass keeps the main loop -/

/-- From paced registers the task waits for 510 ms at most, ends as without the clock, and
leaves the registers paced, whatever the globals hold. -/
theorem task_paced {B : Board} {d : Motion.Hardware.Drive} (h : Paced B d) (y : Stray)
    (g : Globals) :
    ∃ g' q, myMotorControlTaskTimed B y g (d, 0) = some (g', q) ∧ q.2 ≤ 510 ∧
      myMotorControlTask B y g d = some (g', q.1) ∧ Paced B q.1 := by
  obtain ⟨q, hq, hpaced, hms⟩ := task_timed (y := y) (p := (d, 0)) (g := g) h
  refine ⟨_, q, hq, hms.trans (Nat.zero_add 510).le, ?_, hpaced⟩
  rw [← myMotorControlTaskTimed_drive B y (d, 0), hq]
  rfl

section

open BleCar.F103.System

theorem f103_step_paced (s : Sys) (e : Event) (t : Sys)
    (h : Paced F103.Firmware.board s.mcu.drive) (ht : step s e = some t) :
    Paced F103.Firmware.board t.mcu.drive := by
  rcases step_cases ht with ⟨y, -, hmain⟩ | ⟨-, -, hdrive⟩
  · cases mainStep_stepped hmain with
    | task out hpos hout =>
      obtain ⟨g', q, -, -, htask, hend⟩ := task_paced h y s.mcu.globals
      rw [hout] at htask
      rw [Option.some.inj htask]
      exact hend
    | control n hpos =>
      rw [execute_eq]
      exact h
    | command p hpos =>
      rw [execute_eq]
      exact h
    | _ => exact h
  · exact hdrive ▸ h

/-- Whatever interrupts the main loop of the F103: a call of `my_motor_control_task` asks
`HAL_Delay` for 510 ms at most. -/
theorem f103_pauses {es : List Event} {s : Sys} (hr : run step boot es = some s) (y : Stray) :
    ∃ g' q, myMotorControlTaskTimed F103.Firmware.board y s.mcu.globals (s.mcu.drive, 0) =
        some (g', q) ∧
      q.2 ≤ 510 ∧
      myMotorControlTask F103.Firmware.board y s.mcu.globals s.mcu.drive = some (g', q.1) := by
  have hboot : Paced F103.Firmware.board boot.mcu.drive := paced_of_stopped fun _ => rfl
  have hpaced : Paced F103.Firmware.board s.mcu.drive := last_of_step f103_step_paced hboot hr
  obtain ⟨g', q, htimed, hms, htask, -⟩ := task_paced hpaced y s.mcu.globals
  exact ⟨g', q, htimed, hms, htask⟩

/-- The task is about to stop a car in gear 2 and to drive it backward. -/
def reversal : List Event :=
  arrival [0xAA, 0xAA, 0x07, 0xA1, 0x01, 0x02, 0x5B] ++ List.replicate 13 (.main Stray.blank) ++
    arrival [0xAA, 0xAA, 0x07, 0xA1, 0x02, 0x02, 0x5A] ++ List.replicate 12 (.main Stray.blank)

theorem f103_pauses_reversal : ∃ s, run step boot reversal = some s ∧
    ∃ g' q, myMotorControlTaskTimed F103.Firmware.board Stray.blank s.mcu.globals
        (s.mcu.drive, 0) = some (g', q) ∧
      q.2 ≤ 510 ∧
      myMotorControlTask F103.Firmware.board Stray.blank s.mcu.globals s.mcu.drive =
        some (g', q.1) := by
  have hend : (run step boot reversal).isSome = true := by decide +kernel
  obtain ⟨s, hs⟩ := Option.isSome_iff_exists.mp hend
  exact ⟨s, hs, f103_pauses hs Stray.blank⟩

end

section

open BleCar.L151.System

theorem l151_step_paced (s : Sys) (e : Event) (t : Sys)
    (h : Paced L151.Firmware.board s.mcu.drive) (ht : step s e = some t) :
    Paced L151.Firmware.board t.mcu.drive := by
  cases e with
  | rxByte b =>
    obtain rfl := Option.some.inj ht
    exact h
  | idle =>
    simp only [step, idle] at ht
    split at ht <;> cases ht
    exact h
  | main y =>
    change mainStep y s = some t at ht
    cases hpos : s.pos
    case print n =>
      rw [mainStep_print hpos] at ht
      split at ht <;> cases ht
      exact h
    all_goals simp only [mainStep, hpos] at ht
    case task =>
      obtain ⟨g', q, -, -, htask, hend⟩ := task_paced h y s.mcu.globals
      rw [htask] at ht
      obtain rfl := Option.some.inj ht
      exact hend
    all_goals
      obtain rfl := Option.some.inj ht
      exact h

/-- The same of the L151. -/
theorem l151_pauses {es : List Event} {s : Sys} (hr : run step boot es = some s) (y : Stray) :
    ∃ g' q, myMotorControlTaskTimed L151.Firmware.board y s.mcu.globals (s.mcu.drive, 0) =
        some (g', q) ∧
      q.2 ≤ 510 ∧
      myMotorControlTask L151.Firmware.board y s.mcu.globals s.mcu.drive = some (g', q.1) := by
  have hboot : Paced L151.Firmware.board boot.mcu.drive := paced_of_stopped fun _ => rfl
  have hpaced : Paced L151.Firmware.board s.mcu.drive := last_of_step l151_step_paced hboot hr
  obtain ⟨g', q, htimed, hms, htask, -⟩ := task_paced hpaced y s.mcu.globals
  exact ⟨g', q, htimed, hms, htask⟩

theorem l151_pauses_drive : ∃ s, run step boot spoiltDrive = some s ∧
    ∃ g' q, myMotorControlTaskTimed L151.Firmware.board Stray.blank s.mcu.globals
        (s.mcu.drive, 0) = some (g', q) ∧
      q.2 ≤ 510 ∧
      myMotorControlTask L151.Firmware.board Stray.blank s.mcu.globals s.mcu.drive =
        some (g', q.1) := by
  have hend : (run step boot spoiltDrive).isSome = true := by decide +kernel
  obtain ⟨s, hs⟩ := Option.isSome_iff_exists.mp hend
  exact ⟨s, hs, l151_pauses hs Stray.blank⟩

end

end BleCar.Interruption
