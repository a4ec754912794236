import BleCar.F103.Direction
import BleCar.F103.Receive

/-!
# One burst at a time

Where bytes and IDLE come only while the buffer is not in use, the statements of the main
loop, the interrupts and the channels can be reordered into passes that handle one burst
each: the run of the system ends where a run of `BleCar.F103.Firmware` over the same bursts
ends, with the same writes to the registers. A burst may arrive while the motors still ramp
for the one before it. What a pass finds behind the buffer and in the tables comes from two
of its statements.
-/

namespace BleCar.F103.Serial

open BleCar.Lib.Runs
open BleCar.Motion.Routines
open BleCar.Protocol.Frames
open BleCar.Protocol.Control hiding controlProtocolAnalysis
open BleCar.Protocol.Buffer
open BleCar.F103.Firmware hiding step boot
open BleCar.F103.Direction (run_loopInv)
open BleCar.F103.System
open BleCar.F103.Receive (InParser Occupied)

/-- Bytes and IDLE come only while the buffer is not in use. -/
def Calm (s : Sys) : Event → Prop
  | .rxByte _ => ¬ Occupied s
  | .idle => ¬ Occupied s
  | _ => True

instance (s : Sys) : ∀ e, Decidable (Calm s e)
  | .rxByte _ | .idle => inferInstanceAs (Decidable (¬ Occupied s))
  | .main _ | .txByte | .dmaComplete | .txDone => isTrue trivial

/-! ## The stray values of one pass -/

/-- What the parser found behind the buffer, and the rest from the task. -/
def join (parser task : Stray) : Stray := { task with rx := parser.rx }

section

variable {y y' : Stray}

theorem rxRead_congr (h : y.rx = y'.rx) : rxRead y = rxRead y' := by
  unfold rxRead
  rw [h]

theorem control_congr (y y' : Stray) (g : Globals) (r : Rx) :
    controlProtocolAnalysis y g (rxRead y r) = controlProtocolAnalysis y' g (rxRead y' r) := by
  unfold controlProtocolAnalysis
  rw [control_stray y y']
  apply controlProtocolAnalysis_congr
  intro i hi
  have hle := controlReads_le hi
  exact rxRead_inside y y' r (by omega)

/-- Of the stray values the parser reads those behind the buffer only. -/
theorem analysis_congr (h : y.rx = y'.rx) (m : Mcu) :
    myMotorControlProtocolAnalysis y m = myMotorControlProtocolAnalysis y' m := by
  by_cases hin : m.rx.recvEndFlag = true ∧ headerOk y m.rx
  · have hin' := (headerOk_stray y y' m.rx).mp hin.2
    rw [analysis_header y m hin.1 hin.2, analysis_header y' m hin.1 hin',
      control_congr y y', rxRead_congr h,
      myUart3TxToBLE_stray y y' m.globals (show IsReplyID 0xA6 by decide)]
  · rw [analysis_ignored y m hin, analysis_ignored y' m]
    rwa [headerOk_stray y' y]

theorem task_join (y y' : Stray) (g : Globals) (d : Motion.Hardware.Drive) :
    myMotorControlTask board (join y y') g d = myMotorControlTask board y' g d := rfl

/-- A pass whose parser ran on `y` and whose task ran on `y'`. -/
theorem mainLoop_join {y y' : Stray} {m : Mcu} {out : Globals × Motion.Hardware.Drive}
    (h : myMotorControlTask board y' (myMotorControlProtocolAnalysis y m).globals m.drive =
      some out) :
    mainLoop (join y y') m =
      some { myMotorControlProtocolAnalysis y m with globals := out.1, drive := out.2 } := by
  have hy : myMotorControlProtocolAnalysis (join y y') m = myMotorControlProtocolAnalysis y m :=
    analysis_congr rfl m
  simp only [mainLoop, hy, analysis_drive, task_join, h, Option.map_some]

end

/-! ## Where a pass stands -/

/-- `r` with the flag of the burst in hand cleared. -/
def taken (r : Rx) : Rx := { r with recvEndFlag := false }

/-- The receive side after the bursts `done` were taken and left `r`: the next burst is
under way, or complete. -/
inductive Inbox (s : Sys) (r : Rx) (done : List (List UInt8)) : Prop where
  | filling (hrx : s.mcu.rx = { r with rxBuffer := dmaFill s.incoming r.rxBuffer })
      (hflag : r.recvEndFlag = false) (hdone : s.terminated = done)
  | full (b : List UInt8) (hb : b ≠ []) (hrx : s.mcu.rx = receive b r) (hin : s.incoming = [])
      (hdone : s.terminated = done ++ [b])

/-- The motors and the replies are those of `m`. -/
structure Shows (s : Sys) (m : Mcu) : Prop where
  globals : s.mcu.globals = m.globals
  drive : s.mcu.drive = m.drive
  sent : s.mcu.sent = m.sent

/-- The receive side while the parser works on what the burst made of it, `r`. -/
def InHand (r : Rx) (rx : Rx) : MainPos → Prop
  | .headerTest => rx = r
  | .clearFlag => rx = r ∧ ∀ y, headerOk y r
  | .readLen => rx = taken r ∧ ∀ y, headerOk y r
  | .checkSum n => rx = taken r ∧ n = r.rxLen ∧ ∀ y, headerOk y r
  | .control n => rx = taken r ∧ n = r.rxLen ∧ ∃ y, Dispatches y r
  | _ => False

/-- `control_protocol_analysis` works on the burst `b` and stands at `p`. -/
structure Calling (s : Sys) (m : Mcu) (b : List UInt8) (y : Stray) (p : ControlPos)
    (read : List Nat) : Prop where
  dispatches : Dispatches y (receive b m.rx)
  rx : s.mcu.rx = taken (receive b m.rx)
  drive : s.mcu.drive = m.drive
  sent : s.mcu.sent = m.sent
  progress : Progress myTurnLeft myTurnRight (rxRead y (receive b m.rx)) m.globals s.mcu.globals p
    read

/-- Where the main loop stands in the pass that follows the state `m`, which was reached by
the bursts `done`. -/
inductive Phase (s : Sys) (m : Mcu) (done : List (List UInt8)) : Prop where
  /-- there is no burst to handle -/
  | rest (hpos : s.pos = .flagTest ∨ s.pos = .task) (hshow : Shows s m)
      (hin : Inbox s m.rx done)
  | parsing (b : List UInt8) (hb : b ≠ []) (hshow : Shows s m) (hin : s.incoming = [])
      (hdone : s.terminated = done ++ [b]) (hhand : InHand (receive b m.rx) s.mcu.rx s.pos)
  /-- the checksum was right, and `control_protocol_analysis` is not through -/
  | calling (b : List UInt8) (y : Stray) (p : ControlPos) (read : List Nat) (hb : b ≠ [])
      (hpos : s.pos = .command p) (hin : s.incoming = []) (hdone : s.terminated = done ++ [b])
      (hcall : Calling s m b y p read)
  /-- the checksum was wrong, and A6 is not sent yet -/
  | refused (b : List UInt8) (y : Stray) (hb : b ≠ []) (hpos : s.pos = .checkError)
      (hshow : Shows s m) (hok : headerOk y (receive b m.rx))
      (hbad : checkCode (rxRead y (receive b m.rx)) (receive b m.rx).rxLen ≠ 0)
      (hin : Inbox s (taken (receive b m.rx)) (done ++ [b]))
  /-- the parser is through with the burst, and the task is not -/
  | handled (b : List UInt8) (y : Stray) (hb : b ≠ []) (hpos : s.pos = .task)
      (hshow : Shows s (myMotorControlProtocolAnalysis y (m.after b)))
      (hin : Inbox s (myMotorControlProtocolAnalysis y (m.after b)).rx (done ++ [b]))

/-- A burst without the header stays in the buffer for good. -/
structure Deaf (s : Sys) : Prop where
  flag : s.mcu.rx.recvEndFlag = true
  header : ∀ y, ¬ headerOk y s.mcu.rx
  pos : s.pos = .flagTest ∨ s.pos = .headerTest ∨ s.pos = .task

/-- The state is that of a pass after a run of one burst at a time. -/
def Serialised (s : Sys) : Prop :=
  Deaf s ∨ ∃ bs m, run Firmware.step Firmware.boot bs = some m ∧
    (∀ e ∈ bs, e.bytes ≠ []) ∧ Phase s m (bs.map Burst.bytes)

theorem boot_serialised : Serialised boot :=
  .inr ⟨[], Firmware.boot, rfl, fun _ h => absurd h List.not_mem_nil,
    .rest (.inl rfl) ⟨rfl, rfl, rfl⟩ (.filling rfl rfl rfl)⟩

section

variable {s : Sys} {m : Mcu} {r : Rx} {done : List (List UInt8)}

/-! ## The interrupts and the channels -/

theorem Inbox.rxByte (h : Inbox s r done) (hf : s.mcu.rx.recvEndFlag ≠ true) (x : UInt8) :
    Inbox (rxByte x s) r done := by
  cases h with
  | filling hrx hflag hdone =>
    refine .filling ?_ hflag hdone
    simp only [System.rxByte, Sys.withRx, hrx]
    rw [dmaStore_dmaFill]
  | full b hb hrx =>
    rw [hrx] at hf
    exact absurd rfl hf

theorem Inbox.idle (h : Inbox s r done) (hf : s.mcu.rx.recvEndFlag ≠ true)
    (hne : s.incoming ≠ []) (tx : Tx) :
    Inbox { s.withRx (usartIrq s.incoming.length s.mcu.rx) with
      incoming := []
      tx := tx
      terminated := s.terminated ++ [s.incoming] } r done := by
  cases h with
  | filling hrx hflag hdone =>
    refine .full s.incoming hne ?_ rfl (by rw [hdone])
    simp only [Sys.withRx, hrx, receive, usartIrq]
  | full b hb hrx =>
    rw [hrx] at hf
    exact absurd rfl hf

theorem Inbox.transmit (h : Inbox s r done) {t : Sys} (hrx : t.mcu.rx = s.mcu.rx)
    (hin : t.incoming = s.incoming) (hterm : t.terminated = s.terminated) : Inbox t r done := by
  cases h with
  | filling hrx' hflag hdone =>
    exact .filling (by rw [hrx, hin, hrx']) hflag (hterm.trans hdone)
  | full b hb hrx' hin' hdone =>
    exact .full b hb (hrx.trans hrx') (hin.trans hin') (hterm.trans hdone)

theorem InHand.occupied {b : List UInt8} (h : InHand (receive b r) s.mcu.rx s.pos) :
    Occupied s := by
  cases hpos : s.pos <;> rw [hpos] at h
  case headerTest => exact .inl (by rw [show s.mcu.rx = receive b r from h]; rfl)
  case clearFlag => exact .inl (by rw [h.1]; rfl)
  case readLen | checkSum | control => exact .inr (by rw [hpos]; trivial)
  all_goals exact h.elim

variable {t : Sys}

/-- While the buffer is not in use, what arrives stays in the inbox. -/
theorem Phase.arrive (h : Phase s m done) (hfree : ¬ Occupied s) (hpos : t.pos = s.pos)
    (hshow : ∀ m, Shows s m → Shows t m) (hin : ∀ r done, Inbox s r done → Inbox t r done) :
    Phase t m done := by
  cases h with
  | rest hp hs hi => exact .rest (hpos ▸ hp) (hshow _ hs) (hin _ _ hi)
  | parsing b hb hs hi hd hhand => exact absurd hhand.occupied hfree
  | calling b y p read hb hp => exact absurd (.inr (by rw [hp]; trivial)) hfree
  | refused b y hb hp hs hok hbad hi =>
    exact .refused b y hb (hpos.trans hp) (hshow _ hs) hok hbad (hin _ _ hi)
  | handled b y hb hp hs hi => exact .handled b y hb (hpos.trans hp) (hshow _ hs) (hin _ _ hi)

theorem Phase.transmit (h : Phase s m done) (tx : Tx) (wire : List UInt8) :
    Phase { s with tx, wire } m done := by
  cases h with
  | rest hp hs hi => exact .rest hp ⟨hs.globals, hs.drive, hs.sent⟩ (hi.transmit rfl rfl rfl)
  | parsing b hb hs hi hd hhand =>
    exact .parsing b hb ⟨hs.globals, hs.drive, hs.sent⟩ hi hd hhand
  | calling b y p read hb hp hi hd hc =>
    exact .calling b y p read hb hp hi hd ⟨hc.dispatches, hc.rx, hc.drive, hc.sent, hc.progress⟩
  | refused b y hb hp hs hok hbad hi =>
    exact .refused b y hb hp ⟨hs.globals, hs.drive, hs.sent⟩ hok hbad (hi.transmit rfl rfl rfl)
  | handled b y hb hp hs hi =>
    exact .handled b y hb hp ⟨hs.globals, hs.drive, hs.sent⟩ (hi.transmit rfl rfl rfl)

theorem Serialised.transmit (h : Serialised s) (tx : Tx) (wire : List UInt8) :
    Serialised { s with tx, wire } := by
  rcases h with hd | ⟨bs, m, hrun, hne, hphase⟩
  · exact .inl ⟨hd.flag, hd.header, hd.pos⟩
  · exact .inr ⟨bs, m, hrun, hne, hphase.transmit tx wire⟩

theorem Serialised.arrive (h : Serialised s) (hfree : ¬ Occupied s) (hpos : t.pos = s.pos)
    (hshow : ∀ m, Shows s m → Shows t m) (hin : ∀ r done, Inbox s r done → Inbox t r done) :
    Serialised t := by
  rcases h with hd | ⟨bs, m, hrun, hne, hphase⟩
  · exact absurd (.inl hd.flag) hfree
  · exact .inr ⟨bs, m, hrun, hne, hphase.arrive hfree hpos hshow hin⟩

theorem Serialised.rxByte (h : Serialised s) (hfree : ¬ Occupied s) (x : UInt8) :
    Serialised (rxByte x s) :=
  h.arrive hfree rfl (fun _ hs => ⟨hs.globals, hs.drive, hs.sent⟩)
    fun _ _ hi => hi.rxByte (fun hf => hfree (.inl hf)) x

theorem Serialised.idle (h : Serialised s) (hfree : ¬ Occupied s) (ht : idle s = some t) :
    Serialised t := by
  unfold System.idle at ht
  split at ht
  case isTrue => cases ht
  case isFalse hne =>
    obtain rfl := Option.some.inj ht
    exact h.arrive hfree rfl (fun _ hs => ⟨hs.globals, hs.drive, hs.sent⟩)
      fun _ _ hi => hi.idle (fun hf => hfree (.inl hf)) hne _

/-! ## The main loop -/

theorem Deaf.main (h : Deaf s) {y : Stray} (ht : mainStep y s = some t) : Deaf t := by
  rcases h.pos with hpos | hpos | hpos <;> simp only [mainStep, hpos] at ht
  · obtain rfl := Option.some.inj ht
    refine ⟨h.flag, h.header, .inr (.inl ?_)⟩
    exact if_neg (not_not.mpr h.flag)
  · obtain rfl := Option.some.inj ht
    exact ⟨h.flag, h.header, .inr (.inr (if_neg (h.header y)))⟩
  · obtain ⟨out, -, rfl⟩ := Option.map_eq_some_iff.mp ht
    exact ⟨h.flag, h.header, .inl rfl⟩

section

variable {bs : List Burst} {b : List UInt8} {y y' : Stray}

/-- The next statement with no burst to handle. -/
theorem main_rest (hrun : run Firmware.step Firmware.boot bs = some m)
    (hne : ∀ e ∈ bs, e.bytes ≠ []) (hpos : s.pos = .flagTest ∨ s.pos = .task) (hs : Shows s m)
    (hi : Inbox s m.rx (bs.map Burst.bytes)) (ht : mainStep y s = some t) : Serialised t := by
  rcases hpos with hpos | hpos <;> simp only [mainStep, hpos] at ht
  · obtain rfl := Option.some.inj ht
    by_cases hf : s.mcu.rx.recvEndFlag = true
    · cases hi with
      | filling hrx hflag =>
        rw [hrx] at hf
        exact absurd hf (by simp [hflag])
      | full b hb hrx hin hdone =>
        refine .inr ⟨bs, m, hrun, hne, .parsing b hb ⟨hs.globals, hs.drive, hs.sent⟩ hin hdone ?_⟩
        simp only [hf, ne_eq, not_true_eq_false, if_false]
        exact hrx
    · refine .inr ⟨bs, m, hrun, hne, .rest (.inr ?_) ⟨hs.globals, hs.drive, hs.sent⟩
        (hi.transmit rfl rfl rfl)⟩
      exact if_pos hf
  · rw [hs.globals, task_idle board y (run_loopInv hrun).idle] at ht
    obtain rfl := Option.some.inj ht
    exact .inr ⟨bs, m, hrun, hne, .rest (.inl rfl) ⟨rfl, hs.drive, hs.sent⟩
      (hi.transmit rfl rfl rfl)⟩

theorem rxRead_taken (y : Stray) (r : Rx) : rxRead y (taken r) = rxRead y r := rfl

theorem inbox_taken (hin : s.incoming = []) (hrx : s.mcu.rx = taken (receive b m.rx))
    (hdone : s.terminated = bs.map Burst.bytes ++ [b]) :
    Inbox s (taken (receive b m.rx)) (bs.map Burst.bytes ++ [b]) :=
  .filling (by rw [hrx, hin, dmaFill_nil]) rfl hdone

/-- A statement of `control_protocol_analysis`. -/
theorem execute_calling {p : ControlPos} {read : List Nat}
    (hrun : run Firmware.step Firmware.boot bs = some m) (hne : ∀ e ∈ bs, e.bytes ≠ [])
    (hb : b ≠ []) (hin : s.incoming = []) (hdone : s.terminated = bs.map Burst.bytes ++ [b])
    (hc : Calling s m b y' p read) : Serialised (execute y p s) := by
  have hdata : controlStatement y p s = controlStep myTurnLeft myTurnRight y s.mcu.globals
      (rxRead y' (receive b m.rx)) p :=
    controlStep_congr fun i hi => by
      have hle := reads_le hi
      rw [hc.rx, rxRead_taken, rxRead_inside y y' _ (by omega)]
  have hexec := execute_eq y p s
  rw [hdata] at hexec
  cases hq : (controlStep myTurnLeft myTurnRight y s.mcu.globals
      (rxRead y' (receive b m.rx)) p).next with
  | some q =>
    have hsent := controlStep_sent hq
    refine .inr ⟨bs, m, hrun, hne, .calling b y' q (read ++ p.reads) hb ?_ ?_ ?_ ?_⟩ <;> rw [hexec]
    · rw [hq]
      rfl
    · exact hin
    · exact hdone
    · exact ⟨hc.dispatches, hc.rx, hc.drive,
        by rw [hsent, List.append_nil]; exact hc.sent, hc.progress.next hq⟩
  | none =>
    obtain ⟨hresult, -⟩ := hc.progress.last hq
    have ha := analysis_dispatches y' m b hc.dispatches
    rw [controlProtocolAnalysis, control_stray y' y, ← hresult] at ha
    refine .inr ⟨bs, m, hrun, hne, .handled b y' hb ?_ ?_ ?_⟩ <;> rw [hexec]
    · rw [hq]
      rfl
    · rw [ha]
      exact ⟨rfl, hc.drive, congrArg (· ++ _) hc.sent⟩
    · rw [ha]
      exact inbox_taken (m := m) hin hc.rx hdone

/-- The next statement with a burst in the parser. -/
theorem main_parsing (hrun : run Firmware.step Firmware.boot bs = some m)
    (hne : ∀ e ∈ bs, e.bytes ≠ []) (hb : b ≠ []) (hs : Shows s m) (hin : s.incoming = [])
    (hdone : s.terminated = bs.map Burst.bytes ++ [b])
    (hhand : InHand (receive b m.rx) s.mcu.rx s.pos) (ht : mainStep y s = some t) :
    Serialised t := by
  have hto : ∀ u : Sys, Shows u m → u.incoming = [] → u.terminated = s.terminated →
      InHand (receive b m.rx) u.mcu.rx u.pos → Serialised u := fun u hsu hiu hdu hu =>
    .inr ⟨bs, m, hrun, hne, .parsing b hb hsu hiu (hdu.trans hdone) hu⟩
  cases mainStep_stepped ht with
  | headerTest hpos =>
    rw [hpos] at hhand
    have hrx : s.mcu.rx = receive b m.rx := hhand
    by_cases hok : headerOk y s.mcu.rx
    · refine hto _ ⟨hs.globals, hs.drive, hs.sent⟩ hin rfl ?_
      rw [if_pos hok]
      exact ⟨hrx, fun y' => (headerOk_stray y y' _).mp (hrx ▸ hok)⟩
    · refine .inl ⟨?_, fun y' hok' => hok ((headerOk_stray y' y _).mp hok'), .inr (.inr ?_)⟩
      · rw [hrx]
        rfl
      · exact if_neg hok
  | clearFlag hpos =>
    rw [hpos] at hhand
    refine hto _ ⟨hs.globals, hs.drive, hs.sent⟩ hin rfl ⟨?_, hhand.2⟩
    rw [← hhand.1]
    rfl
  | readLen hpos =>
    rw [hpos] at hhand
    refine hto _ ⟨hs.globals, hs.drive, hs.sent⟩ hin rfl ⟨hhand.1, ?_, hhand.2⟩
    rw [hhand.1]
    rfl
  | checkSum n hpos =>
    rw [hpos] at hhand
    obtain ⟨hrx, rfl, hok⟩ := hhand
    by_cases hc : checkCode (rxRead y s.mcu.rx) (receive b m.rx).rxLen = 0
    · refine hto _ ⟨hs.globals, hs.drive, hs.sent⟩ hin rfl ?_
      rw [if_neg (not_not.mpr hc)]
      refine ⟨hrx, rfl, y, hok y, ?_⟩
      rwa [hrx, rxRead_taken] at hc
    · refine .inr ⟨bs, m, hrun, hne, .refused b y hb (if_pos hc) ⟨hs.globals, hs.drive, hs.sent⟩
        (hok y) ?_ (inbox_taken (m := m) hin hrx hdone)⟩
      rwa [hrx, rxRead_taken] at hc
  | control n hpos =>
    rw [hpos] at hhand
    obtain ⟨hrx, rfl, y', hd⟩ := hhand
    have hcall : ∀ ens, Calling { s with entered := ens } m b y' .switch [] := by
      refine fun ens => ⟨hd, hrx, hs.drive, hs.sent, ?_⟩
      rw [hs.globals]
      exact .start
    exact execute_calling hrun hne hb hin hdone (hcall _)
  | flagTest hpos | checkError hpos | command p hpos | task out hpos =>
    rw [hpos] at hhand
    exact hhand.elim

/-- A6 is sent. -/
theorem main_refused (hrun : run Firmware.step Firmware.boot bs = some m)
    (hne : ∀ e ∈ bs, e.bytes ≠ []) (hb : b ≠ []) (hpos : s.pos = .checkError) (hs : Shows s m)
    (hok : headerOk y' (receive b m.rx))
    (hbad : checkCode (rxRead y' (receive b m.rx)) (receive b m.rx).rxLen ≠ 0)
    (hi : Inbox s (taken (receive b m.rx)) (bs.map Burst.bytes ++ [b]))
    (ht : mainStep y s = some t) : Serialised t := by
  simp only [mainStep, hpos] at ht
  obtain rfl := Option.some.inj ht
  have ha := analysis_badSum y' m b hok hbad
  refine .inr ⟨bs, m, hrun, hne, .handled b y' hb rfl ?_ ?_⟩ <;> rw [ha]
  · refine ⟨hs.globals, hs.drive, ?_⟩
    rw [hs.globals, myUart3TxToBLE_stray y y' m.globals (show IsReplyID 0xA6 by decide)]
    exact congrArg (· ++ _) hs.sent
  · exact hi.transmit rfl rfl rfl

/-- The task ends the pass. -/
theorem main_handled (hrun : run Firmware.step Firmware.boot bs = some m)
    (hne : ∀ e ∈ bs, e.bytes ≠ []) (hb : b ≠ []) (hpos : s.pos = .task)
    (hs : Shows s (myMotorControlProtocolAnalysis y' (m.after b)))
    (hi : Inbox s (myMotorControlProtocolAnalysis y' (m.after b)).rx
      (bs.map Burst.bytes ++ [b]))
    (ht : mainStep y s = some t) : Serialised t := by
  simp only [mainStep, hpos] at ht
  obtain ⟨out, hout, rfl⟩ := Option.map_eq_some_iff.mp ht
  rw [hs.globals, hs.drive, analysis_drive, after_drive] at hout
  have hstep : Firmware.step m ⟨b, join y' y⟩ = some
      { myMotorControlProtocolAnalysis y' (m.after b) with globals := out.1, drive := out.2 } :=
    mainLoop_join hout
  refine .inr ⟨bs ++ [⟨b, join y' y⟩], { myMotorControlProtocolAnalysis y' (m.after b) with
    globals := out.1, drive := out.2 }, ?_, ?_, .rest (.inl rfl) ⟨rfl, rfl, hs.sent⟩ ?_⟩
  · exact (run_append_of_run _ hrun _).trans ((run_singleton _ _ _).trans hstep)
  · simpa [or_imp, forall_and, hb] using hne
  · rw [List.map_append]
    exact hi.transmit rfl rfl rfl

end

theorem Serialised.main (h : Serialised s) {y : Stray} (ht : mainStep y s = some t) :
    Serialised t := by
  rcases h with hd | ⟨bs, m, hrun, hne, hphase⟩
  · exact .inl (hd.main ht)
  cases hphase with
  | rest hpos hs hi => exact main_rest hrun hne hpos hs hi ht
  | parsing b hb hs hin hdone hhand => exact main_parsing hrun hne hb hs hin hdone hhand ht
  | calling b y' p read hb hpos hin hdone hcall =>
    simp only [mainStep, hpos] at ht
    exact Option.some.inj ht ▸ execute_calling hrun hne hb hin hdone hcall
  | refused b y' hb hpos hs hok hbad hi => exact main_refused hrun hne hb hpos hs hok hbad hi ht
  | handled b y' hb hpos hs hi => exact main_handled hrun hne hb hpos hs hi ht

theorem step_serialised (s : Sys) (e : Event) (t : Sys) (h : Serialised s) (hcalm : Calm s e)
    (ht : step s e = some t) : Serialised t := by
  cases e with
  | rxByte x => exact Option.some.inj ht ▸ h.rxByte hcalm x
  | idle => exact h.idle hcalm ht
  | main y => exact h.main ht
  | txByte =>
    simp only [step, txByte] at ht
    split at ht <;> cases ht
    exact h.transmit _ _
  | dmaComplete =>
    simp only [step, dmaComplete] at ht
    split at ht <;> cases ht
    exact h.transmit _ s.wire
  | txDone =>
    simp only [step, txDone] at ht
    split at ht <;> cases ht
    exact h.transmit _ s.wire

theorem run_serialised {es : List Event} (hr : run step boot es = some s)
    (ha : Along step Calm boot es) : Serialised s :=
  always_last step (always_of_along step_serialised boot_serialised es ha) hr

/-- At a loop head with the flag clear the pass is over. -/
theorem Serialised.atHead (h : Serialised s) (hpos : s.pos = .flagTest)
    (hflag : s.mcu.rx.recvEndFlag = false) :
    ∃ bs m, run Firmware.step Firmware.boot bs = some m ∧ bs.map Burst.bytes = s.terminated ∧
      m.globals = s.mcu.globals ∧ m.drive = s.mcu.drive ∧ m.sent = s.mcu.sent := by
  rcases h with hd | ⟨bs, m, hrun, -, hphase⟩
  · rw [hd.flag] at hflag
    cases hflag
  cases hphase with
  | rest _ hs hi =>
    cases hi with
    | filling hrx _ hdone =>
      exact ⟨bs, m, hrun, hdone.symm, hs.globals.symm, hs.drive.symm, hs.sent.symm⟩
    | full b hb hrx =>
      rw [hrx] at hflag
      cases hflag
  | parsing b hb hs hin hdone hhand =>
    rw [hpos] at hhand
    exact hhand.elim
  | calling b y p read hb hp =>
    rw [hpos] at hp
    cases hp
  | refused b y hb hp =>
    rw [hpos] at hp
    cases hp
  | handled b y hb hp =>
    rw [hpos] at hp
    cases hp

end

/-- When bytes and IDLE come only while the buffer is not in use, then at each loop head
with the flag clear the globals, the registers, the writes made and the replies sent are
those of a run that handles the bursts received one after the other. -/
theorem runs_serially {es : List Event} {s : Sys} (hr : run step boot es = some s)
    (ha : Along step Calm boot es) (hpos : s.pos = .flagTest)
    (hflag : s.mcu.rx.recvEndFlag = false) :
    ∃ bs m, run Firmware.step Firmware.boot bs = some m ∧ bs.map Burst.bytes = s.terminated ∧
      m.globals = s.mcu.globals ∧ m.drive = s.mcu.drive ∧ m.sent = s.mcu.sent :=
  (run_serialised hr ha).atHead hpos hflag

/-- An `A4` frame that comes while the loop makes a pass without a burst, and a pass. -/
def reportPass : List Event :=
  .main Stray.blank :: arrival [0xAA, 0xAA, 0x05, 0xA4, 0x5B] ++
    List.replicate 9 (.main Stray.blank)

theorem runs_serially_report : ∃ s, run step boot reportPass = some s ∧
    ∃ bs m, run Firmware.step Firmware.boot bs = some m ∧ bs.map Burst.bytes = s.terminated ∧
      m.globals = s.mcu.globals ∧ m.drive = s.mcu.drive ∧ m.sent = s.mcu.sent := by
  have hend : (run step boot reportPass).map (fun s => (s.pos, s.mcu.rx.recvEndFlag)) =
      some (.flagTest, false) := by decide
  obtain ⟨s, hs, hpair⟩ := Option.map_eq_some_iff.mp hend
  obtain ⟨hpos, hflag⟩ := Prod.mk.inj hpair
  exact ⟨s, hs, runs_serially hs (by decide) hpos hflag⟩

end BleCar.F103.Serial
