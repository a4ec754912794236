import BleCar.L151.System

/-!
# The private copy of the L151 parser

The L151 parser copies the burst into `temp_buf` before it sums and reads it, and no
interrupt writes there. Whatever bytes and IDLE events come between the statements, each
pass of the main loop is therefore one atomic reaction to the copy it made: the firmware
does what one would do that is handed the copies one after the other. What it obeys has been
summed, byte for byte.
-/

namespace BleCar.L151.Copies

open BleCar.Lib.ByteSum
open BleCar.Lib.Runs
open BleCar.Motion.Hardware
open BleCar.Motion.Routines
open BleCar.Protocol.Frames
open BleCar.Protocol.Control hiding controlProtocolAnalysis
open BleCar.Protocol.Buffer
open BleCar.L151.Firmware hiding step boot
open BleCar.L151.System

/-! ## A firmware that is handed copies -/

/-- A copy, and the stray values met while it is handled. -/
structure Copy where
  bytes : List UInt8
  stray : Stray

/-- `temp_buf` with `b` at its beginning and zeros behind it. -/
def padded (b : List UInt8) : Fin 256 → UInt8 := fun i => bytesAt b i.val

/-- The checksum of a copy is wrong. -/
def Refuses (y : Stray) (b : List UInt8) : Prop :=
  checkCode (tempRead y (padded b)) (UInt8.ofNat b.length) ≠ 0

instance (y : Stray) (b : List UInt8) : Decidable (Refuses y b) :=
  inferInstanceAs (Decidable (_ ≠ _))

/-- The parser on a copy; the receive side stays as it is after reset. -/
def answer (y : Stray) (b : List UInt8) (c : Mcu) : Mcu :=
  if Refuses y b then { c with sent := c.sent ++ [myUart3TxToBLE y c.globals 0xA6 0] }
  else
    let out := controlProtocolAnalysis y c.globals (bytesAt b)
    { c with globals := out.1, sent := c.sent ++ out.2 }

def act (y : Stray) (c : Mcu) : Option Mcu :=
  (myMotorControlTask board y c.globals c.drive).map fun out =>
    { c with globals := out.1, drive := out.2 }

/-- The parser and the task on a copy. -/
def serve (c : Mcu) (k : Copy) : Option Mcu := act k.stray (answer k.stray k.bytes c)

/-- The first `n` bytes of `rx_buffer`. -/
def prefixOf (r : Rx) (n : UInt8) : List UInt8 := (List.ofFn r.rxBuffer).take n.toNat

/-- The copies made by a run: one for each `memcpy` executed. -/
def copies (s : Sys) : Event → List (List UInt8)
  | .main _ =>
    match s.pos with
    | .copy myCalLen => [prefixOf s.mcu.rx myCalLen]
    | _ => []
  | _ => []

/-- What a pass can change for good. -/
def coreOf (s : Sys) : Mcu := { s.mcu with rx := Rx.boot }

theorem copies_none {s : Sys} (h : ∀ n, s.pos ≠ .copy n) (e : Event) : copies s e = [] := by
  cases e with
  | main y =>
    cases hp : s.pos with
    | copy n => exact absurd hp (h n)
    | _ => simp only [copies, hp]
  | _ => rfl

theorem prefixOf_length (r : Rx) (n : UInt8) : (prefixOf r n).length = n.toNat := by
  have hlt := n.toNat_lt
  simp only [prefixOf, List.length_take, List.length_ofFn]
  omega

theorem copyBuf_eq (r : Rx) (n : UInt8) : copyBuf r n = padded (prefixOf r n) := by
  funext i
  have hi := i.isLt
  unfold copyBuf padded prefixOf bytesAt
  rw [List.getD_eq_getElem?_getD, List.getElem?_take]
  split
  case isTrue =>
    rw [List.getElem?_ofFn, dif_pos hi]
    rfl
  case isFalse => rfl

theorem control_padded (y y' : Stray) (g : Globals) (b : List UInt8) :
    controlProtocolAnalysis y g (tempRead y (padded b)) =
      controlProtocolAnalysis y' g (bytesAt b) := by
  unfold controlProtocolAnalysis
  rw [control_stray y y']
  apply controlProtocolAnalysis_congr
  intro i hi
  have hle := controlReads_le hi
  rw [tempRead, dif_pos (by omega : i < 256)]
  rfl

section

variable {y y' : Stray} {b : List UInt8} {c : Mcu}

theorem refuses_congr (h : y.temp = y'.temp) : Refuses y b ↔ Refuses y' b := by
  unfold Refuses
  rw [show tempRead y (padded b) = tempRead y' (padded b) by unfold tempRead; rw [h]]

theorem answer_refused (h : Refuses y b) (y' : Stray) :
    answer y b c = { c with sent := c.sent ++ [myUart3TxToBLE y' c.globals 0xA6 0] } := by
  rw [answer, if_pos h, myUart3TxToBLE_stray y y' c.globals (show IsReplyID 0xA6 by decide)]

theorem answer_accepted (h : ¬ Refuses y b) (y' : Stray) :
    answer y b c = { c with
      globals := (controlProtocolAnalysis y' c.globals (tempRead y' (padded b))).1
      sent := c.sent ++ (controlProtocolAnalysis y' c.globals (tempRead y' (padded b))).2 } := by
  rw [answer, if_neg h, control_padded y' y]

/-- Of the stray values the parser meets those behind `temp_buf` only. -/
theorem answer_congr (h : y.temp = y'.temp) : answer y b c = answer y' b c := by
  by_cases hr : Refuses y b
  · rw [answer_refused hr y', answer_refused ((refuses_congr h).mp hr) y']
  · rw [answer_accepted hr y', answer_accepted (fun hr' => hr ((refuses_congr h).mpr hr')) y']

/-- The stray values of a pass whose check ran on `y` and whose task ran on `y'`. -/
def join (y y' : Stray) : Stray := { y' with temp := y.temp }

theorem serve_join (y y' : Stray) (b : List UInt8) (c : Mcu) :
    serve c ⟨b, join y y'⟩ = act y' (answer y b c) := by
  have hc : answer (join y y') b c = answer y b c := answer_congr rfl
  rw [serve, hc]
  rfl

theorem act_idle {c' : Mcu} (h : act y c = some c') : c'.globals.gControlMotorFlag = .idle := by
  obtain ⟨out, hout, rfl⟩ := Option.map_eq_some_iff.mp h
  unfold myMotorControlTask at hout
  cases hf : c.globals.gControlMotorFlag <;> rw [hf] at hout
  case idle =>
    obtain rfl := Option.some.inj hout
    exact hf
  case turn =>
    obtain rfl := Option.some.inj hout
    rfl
  all_goals
    obtain ⟨d, -, rfl⟩ := Option.map_eq_some_iff.mp hout
    rfl

/-- Between two copies the flag is idle. -/
theorem run_idle {ks : List Copy} (h : run serve Firmware.boot ks = some c) :
    c.globals.gControlMotorFlag = .idle :=
  last_of_step (I := fun c : Mcu => c.globals.gControlMotorFlag = .idle)
    (fun _ _ _ _ hs => act_idle hs) rfl h

end

/-! ## Where a pass stands -/

/-- The statements at which no copy is in hand. -/
def Free : MainPos → Prop
  | .flagTest | .headerTest | .badLen | .badClear | .clearFlag | .readLen | .zeroLen _ | .copy _
  | .task => True
  | _ => False

/-- The statements between the copying and the checksum, with the length of the copy. -/
def lengthAt : MainPos → Option UInt8
  | .clear n | .print n | .checkSum n => some n
  | _ => none

/-- The state `s` is that of a pass that follows the state `c`, with the copies `pending`
made and not served yet. -/
inductive Phase (s : Sys) (c : Mcu) (pending : List (List UInt8)) : Prop where
  | free (hpos : Free s.pos) (hcore : coreOf s = c) (hpending : pending = [])
  | copied (b : List UInt8) (n : UInt8) (hpos : lengthAt s.pos = some n) (hn : n.toNat = b.length)
      (hcore : coreOf s = c) (htemp : s.tempBuf = padded b) (hpending : pending = [b])
  | refused (b : List UInt8) (y : Stray) (hpos : s.pos = .checkError) (hr : Refuses y b)
      (hcore : coreOf s = c) (hpending : pending = [b])
  | accepted (b : List UInt8) (y : Stray) (hpos : s.pos = .control) (hr : ¬ Refuses y b)
      (hcore : coreOf s = c) (htemp : s.tempBuf = padded b) (hpending : pending = [b])
  | answered (b : List UInt8) (y : Stray) (hpos : s.pos = .task)
      (hcore : coreOf s = answer y b c) (hpending : pending = [b])

/-- The run so far has made the copies `made`, and served all but the last, perhaps. -/
def Served (s : Sys) (made : List (List UInt8)) : Prop :=
  ∃ ks c pending, run serve Firmware.boot ks = some c ∧ made = ks.map Copy.bytes ++ pending ∧
    Phase s c pending

theorem boot_served : Served boot [] := ⟨[], Firmware.boot, [], rfl, rfl, .free trivial rfl rfl⟩

section

variable {s t : Sys} {c : Mcu} {y : Stray} {pending made : List (List UInt8)}

/-- The interrupts leave alone what a phase speaks of. -/
theorem Phase.congr (h : Phase s c pending) (hpos : t.pos = s.pos) (hcore : coreOf t = coreOf s)
    (htemp : t.tempBuf = s.tempBuf) : Phase t c pending := by
  cases h with
  | free hp hc hn => exact .free (hpos ▸ hp) (hcore.trans hc) hn
  | copied b n hp hl hc ht hn =>
    exact .copied b n (hpos ▸ hp) hl (hcore.trans hc) (htemp.trans ht) hn
  | refused b y hp hr hc hn => exact .refused b y (hpos.trans hp) hr (hcore.trans hc) hn
  | accepted b y hp hr hc ht hn =>
    exact .accepted b y (hpos.trans hp) hr (hcore.trans hc) (htemp.trans ht) hn
  | answered b y hp hc hn => exact .answered b y (hpos.trans hp) (hcore.trans hc) hn

/-- Without a copy in hand the main loop makes one, or changes nothing that lasts. -/
theorem main_free (hpos : Free s.pos) (hidle : s.mcu.globals.gControlMotorFlag = .idle)
    (ht : mainStep y s = some t) : Phase t (coreOf s) (copies s (.main y)) := by
  unfold copies
  cases hp : s.pos <;> rw [hp] at hpos <;> simp only [mainStep, hp] at ht
  case copy n =>
    obtain rfl := Option.some.inj ht
    exact .copied _ n rfl (prefixOf_length _ _).symm rfl (copyBuf_eq _ _) rfl
  case flagTest =>
    obtain rfl := Option.some.inj ht
    refine .free ?_ rfl rfl
    dsimp only
    split <;> trivial
  case headerTest =>
    obtain rfl := Option.some.inj ht
    refine .free ?_ rfl rfl
    dsimp only
    split <;> trivial
  case task =>
    rw [task_idle board y hidle] at ht
    obtain rfl := Option.some.inj ht
    exact .free trivial rfl rfl
  case clear | print | checkSum | checkError | control => exact hpos.elim
  all_goals
    obtain rfl := Option.some.inj ht
    exact .free trivial rfl rfl

/-- From the copying to the checksum. -/
theorem main_copied {b : List UInt8} {n : UInt8} (hpos : lengthAt s.pos = some n)
    (hn : n.toNat = b.length) (htemp : s.tempBuf = padded b) (ht : mainStep y s = some t) :
    Phase t (coreOf s) [b] := by
  have hlen : n = UInt8.ofNat b.length := by rw [← hn, UInt8.ofNat_toNat]
  unfold lengthAt at hpos
  cases hp : s.pos <;> rw [hp] at hpos <;> cases hpos
  case clear =>
    simp only [mainStep, hp] at ht
    obtain rfl := Option.some.inj ht
    exact .copied b n rfl hn rfl htemp rfl
  case print =>
    rw [mainStep_print hp] at ht
    split at ht <;> cases ht
    exact .copied b n rfl hn rfl htemp rfl
  case checkSum =>
    simp only [mainStep, hp] at ht
    obtain rfl := Option.some.inj ht
    by_cases hr : Refuses y b
    · refine .refused b y (if_pos ?_) hr rfl rfl
      rw [htemp, hlen]
      exact hr
    · refine .accepted b y (if_neg ?_) hr rfl htemp rfl
      rw [htemp, hlen]
      exact hr

/-- A statement of the main loop serves the copy in hand, or makes one, or neither. -/
theorem Served.main (h : Served s made) (ht : mainStep y s = some t) :
    Served t (made ++ copies s (.main y)) := by
  obtain ⟨ks, c, pending, hrun, rfl, hphase⟩ := h
  have hidle := run_idle hrun
  have hkeep : (∀ n, s.pos ≠ .copy n) → ∀ pending', pending' = pending →
      ks.map Copy.bytes ++ pending ++ copies s (.main y) = ks.map Copy.bytes ++ pending' := by
    rintro hno - rfl
    rw [copies_none hno, List.append_nil]
  cases hphase with
  | free hp hc hn =>
    subst hn hc
    refine ⟨ks, _, copies s (.main y), hrun, by rw [List.append_nil], main_free hp hidle ht⟩
  | copied b n hp hl hc htemp hn =>
    subst hc
    have hno : ∀ k, s.pos ≠ .copy k := by
      intro k hk
      rw [hk] at hp
      cases hp
    exact ⟨ks, _, [b], hrun, hkeep hno _ hn.symm, main_copied hp hl htemp ht⟩
  | refused b y' hp hr hc hn =>
    subst hc
    simp only [mainStep, hp] at ht
    obtain rfl := Option.some.inj ht
    refine ⟨ks, _, [b], hrun, hkeep (by simp [hp]) _ hn.symm, .answered b y' rfl ?_ rfl⟩
    rw [answer_refused hr y]
    rfl
  | accepted b y' hp hr hc htemp hn =>
    subst hc
    simp only [mainStep, hp] at ht
    obtain rfl := Option.some.inj ht
    refine ⟨ks, _, [b], hrun, hkeep (by simp [hp]) _ hn.symm, .answered b y' rfl ?_ rfl⟩
    rw [answer_accepted hr y, htemp]
    rfl
  | answered b y' hp hc hn =>
    simp only [mainStep, hp] at ht
    obtain ⟨out, hout, rfl⟩ := Option.map_eq_some_iff.mp ht
    have hserve : serve c ⟨b, join y' y⟩ =
        some { answer y' b c with globals := out.1, drive := out.2 } := by
      rw [serve_join, act, ← hc]
      exact congrArg (Option.map _) hout
    have hend : run serve Firmware.boot (ks ++ [⟨b, join y' y⟩]) =
        some { answer y' b c with globals := out.1, drive := out.2 } := by
      rw [run_append_of_run serve hrun, run_singleton, hserve]
    refine ⟨ks ++ [⟨b, join y' y⟩], _, [], hend, ?_, .free trivial ?_ rfl⟩
    · rw [copies_none (by simp [hp]), hn, List.map_append]
      simp only [List.append_nil, List.map_cons, List.map_nil]
    · rw [← hc]
      rfl

theorem step_served (s : Sys) (made : List (List UInt8)) (e : Event) (t : Sys)
    (h : Served s made) (ht : step s e = some t) : Served t (made ++ copies s e) := by
  have hsame : ∀ u : Sys, u.pos = s.pos → coreOf u = coreOf s → u.tempBuf = s.tempBuf →
      Served u (made ++ []) := by
    intro u hp hc hb
    obtain ⟨ks, c, pending, hrun, hmade, hphase⟩ := h
    exact ⟨ks, c, pending, hrun, by rw [List.append_nil, hmade], hphase.congr hp hc hb⟩
  cases e with
  | main y => exact h.main ht
  | rxByte x =>
    obtain rfl := Option.some.inj ht
    exact hsame _ rfl rfl rfl
  | idle =>
    simp only [step, idle] at ht
    split at ht <;> cases ht
    exact hsame _ rfl rfl rfl

theorem run_served {es : List Event} (hr : run step boot es = some s) :
    Served s (noted step copies boot es) := by
  have hend := noted_of_step step_served boot_served hr
  rwa [List.nil_append] at hend

/-- At the loop head every copy has been served. -/
theorem Served.atHead (h : Served s made) (hpos : s.pos = .flagTest) :
    ∃ ks, run serve Firmware.boot ks = some (coreOf s) ∧ ks.map Copy.bytes = made := by
  obtain ⟨ks, c, pending, hrun, rfl, hphase⟩ := h
  cases hphase with
  | free _ hc hn => exact ⟨ks, hc ▸ hrun, by rw [hn, List.append_nil]⟩
  | copied b n hp =>
    rw [hpos] at hp
    cases hp
  | refused b y hp => rw [hpos] at hp; cases hp
  | accepted b y hp => rw [hpos] at hp; cases hp
  | answered b y hp => rw [hpos] at hp; cases hp

end

/-- Under every interleaving: at each loop head the globals, the registers, the writes made
and the replies sent are those of a firmware that is handed the copies of the run, one after
the other and each once. -/
theorem passes_atomic {es : List Event} {s : Sys} (hr : run step boot es = some s)
    (hpos : s.pos = .flagTest) :
    ∃ ks, run serve Firmware.boot ks = some (coreOf s) ∧
      ks.map Copy.bytes = noted step copies boot es :=
  (run_served hr).atHead hpos

/-- The byte that comes after the copying, and IDLE, spoil `rx_buffer` and not the pass. -/
def spoiltPass : List Event :=
  arrival [0xAA, 0xAA, 0x05, 0xA4, 0x5B] ++ mains 7 Stray.blank ++ [.rxByte 0x00, .idle] ++
    mains 4 Stray.blank

theorem passes_atomic_spoilt : ∃ s, run step boot spoiltPass = some s ∧
    ∃ ks, run serve Firmware.boot ks = some (coreOf s) ∧
      ks.map Copy.bytes = noted step copies boot spoiltPass := by
  have hend : (run step boot spoiltPass).map Sys.pos = some .flagTest := by decide
  obtain ⟨s, hs, hpos⟩ := Option.map_eq_some_iff.mp hend
  exact ⟨s, hs, passes_atomic hs hpos⟩

/-! ## What a copy does to the car -/

/-- A byte sum of 0xFF from the ID to the end of the copy. -/
def Checked (b : List UInt8) : Prop := byteSum (fun i => bytesAt b (3 + i)) (b.length - 3) = 0xff

instance (b : List UInt8) : Decidable (Checked b) := inferInstanceAs (Decidable (_ = _))

section

variable {y : Stray} {b : List UInt8} {c : Mcu}

theorem refuses_iff (h3 : 3 ≤ b.length) (h : b.length ≤ 255) : Refuses y b ↔ ¬ Checked b := by
  have hlen : (UInt8.ofNat b.length).toNat = b.length :=
    UInt8.toNat_ofNat_of_lt' (show _ < 256 by omega)
  refine not_congr (checkCode_eq_zero h3 hlen fun i hi => ?_)
  rw [tempRead, dif_pos (by omega : i < 256)]
  rfl

/-- What has not been summed has no effect: a copy too short for an ID has a zero there. -/
theorem answer_globals (y : Stray) (h : b.length ≤ 255) (c : Mcu) :
    (answer y b c).globals =
      if Checked b then (controlProtocolAnalysis y c.globals (bytesAt b)).1 else c.globals := by
  by_cases h3 : 3 ≤ b.length
  · unfold answer
    by_cases hc : Checked b
    · rw [if_pos hc, if_neg fun hr => (refuses_iff h3 h).mp hr hc]
    · rw [if_neg hc, if_pos ((refuses_iff h3 h).mpr hc)]
  · have hc : ¬ Checked b := by
      rw [Checked, show b.length - 3 = 0 by omega, byteSum_zero]
      decide
    rw [if_neg hc]
    unfold answer
    split
    case isTrue => rfl
    case isFalse =>
      have hid : bytesAt b 3 = 0 := List.getD_eq_default _ _ (by omega)
      rw [controlProtocolAnalysis, control_unknown]
      simp [UnknownID, hid]

@[simp] theorem answer_drive (y : Stray) (b : List UInt8) (c : Mcu) :
    (answer y b c).drive = c.drive := by
  unfold answer
  split <;> rfl

/-- Serving a copy whose task ends. -/
theorem serve_of_task {k : Copy} {g g' : Globals} {d : Drive} (h : k.bytes.length ≤ 255)
    (hg : (if Checked k.bytes then
      (controlProtocolAnalysis k.stray c.globals (bytesAt k.bytes)).1 else c.globals) = g)
    (ht : myMotorControlTask board k.stray g c.drive = some (g', d)) :
    ∃ t, serve c k = some t ∧ t.globals = g' ∧ t.drive = d := by
  refine ⟨{ answer k.stray k.bytes c with globals := g', drive := d }, ?_, rfl, rfl⟩
  rw [serve, act, answer_globals k.stray h, hg, answer_drive, ht]
  rfl

/-- `my_cal_len` is a byte. -/
theorem copies_length {es : List Event} {s : Sys} (hr : run step boot es = some s) :
    ∀ b ∈ noted step copies boot es, b.length ≤ 255 := by
  have hstep : ∀ (s : Sys) (made : List (List UInt8)) (e : Event) (t : Sys),
      (∀ b ∈ made, b.length ≤ 255) → step s e = some t →
        ∀ b ∈ made ++ copies s e, b.length ≤ 255 := by
    intro s made e t hmade _ b hb
    rcases List.mem_append.mp hb with hb | hb
    · exact hmade b hb
    by_cases hno : ∀ n, s.pos ≠ .copy n
    · rw [copies_none hno] at hb
      cases hb
    · obtain ⟨n, hn⟩ := not_forall.mp hno
      cases e with
      | main y =>
        simp only [copies, not_not.mp hn, List.mem_singleton] at hb
        have hlt := n.toNat_lt
        rw [hb, prefixOf_length]
        omega
      | _ => cases hb
  have hend := noted_of_step hstep (fun _ h => absurd h List.not_mem_nil) hr
  rwa [List.nil_append] at hend

end

end BleCar.L151.Copies
