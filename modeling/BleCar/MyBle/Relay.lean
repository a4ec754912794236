import BleCar.Lib.Ring
import BleCar.MyBle.Bridge

/-!
# Relaying BLE writes to the UART

`uarts_data_handler` puts a received write byte by byte into the transmit FIFO of
`app_uart_fifo.c`; the TX-done interrupt of the UART, one step here, takes the bytes out.
`app_fifo_put` reports a full FIFO as `NRF_ERROR_NO_MEM`, while the handler waits on
`NRF_ERROR_BUSY` only.
-/

namespace BleCar.MyBle.Relay

open BleCar.Lib.Runs
open BleCar.MyBle.Link (nrfSuccess nrfErrorNoMem nrfErrorBusy)
open BleCar.MyBle.Bridge (bleUartsMaxDataLen)

/-! ## The FIFO -/

structure AppFifo where
  pBuf : Nat → UInt8
  readPos : UInt32
  writePos : UInt32

/-- `UART_TX_BUF_SIZE - 1`. -/
def bufSizeMask : UInt32 := 256 - 1

def fifoLength (f : AppFifo) : UInt32 := f.writePos - f.readPos

def appFifoPut (byte : UInt8) (f : AppFifo) : UInt32 × AppFifo :=
  if fifoLength f ≤ bufSizeMask then
    (nrfSuccess,
      { f with
        pBuf := fun i => if i = (f.writePos &&& bufSizeMask).toNat then byte else f.pBuf i
        writePos := f.writePos + 1 })
  else (nrfErrorNoMem, f)

/-- The byte got, or `none` for `NRF_ERROR_NOT_FOUND`. -/
def appFifoGet (f : AppFifo) : Option (UInt8 × AppFifo) :=
  if fifoLength f ≠ 0 then
    some (f.pBuf (f.readPos &&& bufSizeMask).toNat, { f with readPos := f.readPos + 1 })
  else none

/-! ## The UART -/

structure AppUart where
  mTxFifo : AppFifo
  txBuffer : UInt8
  txInProgress : Bool
  /-- history: the bytes transmitted -/
  out : List UInt8

def nrfDrvUartTx (u : AppUart) : UInt32 × AppUart :=
  if u.txInProgress then (nrfErrorBusy, u) else (nrfSuccess, { u with txInProgress := true })

def appUartPut (byte : UInt8) (u : AppUart) : UInt32 × AppUart :=
  let (errCode, mTxFifo) := appFifoPut byte u.mTxFifo
  if errCode = nrfSuccess ∧ u.txInProgress = false then
    match appFifoGet mTxFifo with
    | some (txBuffer, mTxFifo) => nrfDrvUartTx { u with mTxFifo, txBuffer }
    | none => (errCode, { u with mTxFifo })
  else (errCode, { u with mTxFifo })

/-- `NRF_DRV_UART_EVT_TX_DONE`. -/
def txDone (u : AppUart) : AppUart :=
  let u := { u with txInProgress := false, out := u.out ++ [u.txBuffer] }
  match appFifoGet u.mTxFifo with
  | some (txBuffer, mTxFifo) => (nrfDrvUartTx { u with mTxFifo, txBuffer }).2
  | none => u

/-! ## The handler -/

structure Chip where
  uart : AppUart
  /-- the bytes of the write being handled that the loop has not put yet -/
  pending : List UInt8
  /-- history: the payloads received -/
  written : List UInt8
  /-- history: `APP_ERROR_CHECK` has refused a code -/
  faulted : Bool

def boot : Chip := ⟨⟨⟨fun _ => 0, 0, 0⟩, 0, false, []⟩, [], [], false⟩

inductive Event where
  | write (data : List UInt8)
  | put
  | txDone

/-- A write starts the loop of `uarts_data_handler`, a put is one iteration of it. -/
def step (s : Chip) : Event → Option Chip
  | .write data =>
    if s.pending = [] ∧ data.length ≤ bleUartsMaxDataLen then
      some { s with pending := data, written := s.written ++ data }
    else none
  | .put =>
    match s.pending with
    | [] => none
    | byte :: rest =>
      let (errCode, uart) := appUartPut byte s.uart
      if errCode ≠ nrfSuccess ∧ errCode ≠ nrfErrorBusy then some { boot with faulted := true }
      else if errCode = nrfErrorBusy then some { s with uart }
      else some { s with uart, pending := rest }
  | .txDone => if s.uart.txInProgress then some { s with uart := txDone s.uart } else none

/-- The FIFO has room where a byte is put. -/
def Room (s : Chip) : Event → Prop
  | .put => (fifoLength s.uart.mTxFifo).toNat < 256
  | _ => True

instance (s : Chip) (e : Event) : Decidable (Room s e) := by
  cases e <;> unfold Room <;> infer_instance

def ring (f : AppFifo) : Lib.Ring.Buf UInt8 := ⟨f.pBuf, f.readPos, f.writePos⟩

/-- The bytes the UART holds, oldest first. -/
def queued (u : AppUart) : List UInt8 :=
  (if u.txInProgress then [u.txBuffer] else []) ++ Lib.Ring.contents 256 (ring u.mTxFifo)

/-- Transmitted, queued and pending bytes are the payloads received, in order. -/
def Lossless (s : Chip) : Prop :=
  s.faulted = false ∧ s.uart.out ++ queued s.uart ++ s.pending = s.written

theorem place (x : UInt32) : (x &&& bufSizeMask).toNat = x.toNat % 256 := by
  rw [UInt32.toNat_and]
  exact Nat.and_two_pow_sub_one_eq_mod x.toNat 8

theorem fits_iff (f : AppFifo) : fifoLength f ≤ bufSizeMask ↔ (fifoLength f).toNat < 256 := by
  rw [UInt32.le_iff_toNat_le]
  exact Nat.lt_succ_iff.symm

/-! ## The FIFO is a ring -/

theorem appFifoPut_ring (byte : UInt8) {f : AppFifo} (h : (fifoLength f).toNat < 256) :
    ∃ g, appFifoPut byte f = (nrfSuccess, g) ∧ ring g = Lib.Ring.put 256 byte (ring f) := by
  refine ⟨_, if_pos ((fits_iff f).mpr h), ?_⟩
  simp only [ring, Lib.Ring.put, place]
  rfl

theorem appFifoPut_full {byte : UInt8} {f : AppFifo} (h : ¬ (fifoLength f).toNat < 256) :
    appFifoPut byte f = (nrfErrorNoMem, f) :=
  if_neg fun hle => h ((fits_iff f).mp hle)

theorem appFifoGet_ring {f : AppFifo} (h : fifoLength f ≠ 0) :
    ∃ g, appFifoGet f = some (Lib.Ring.peek 256 (ring f), g) ∧ ring g = Lib.Ring.drop (ring f) := by
  refine ⟨{ f with readPos := f.readPos + 1 }, ?_, rfl⟩
  rw [appFifoGet, if_pos h, place]
  rfl

theorem appFifoGet_empty {f : AppFifo} (h : fifoLength f = 0) : appFifoGet f = none :=
  if_neg fun hne => hne h

/-! ## The UART is a queue -/

/-- Any occupancy of the FIFO; an idle UART has an empty one. -/
structure Holds (u : AppUart) : Prop where
  fits : (fifoLength u.mTxFifo).toNat ≤ 256
  idle : u.txInProgress = false → fifoLength u.mTxFifo = 0

theorem length_ring (f : AppFifo) : Lib.Ring.length (ring f) = (fifoLength f).toNat := rfl

theorem dvd_cap : 256 ∣ 2 ^ 32 := ⟨2 ^ 24, by decide⟩

theorem length_eq_zero {f : AppFifo} (h : (fifoLength f).toNat = 0) : fifoLength f = 0 :=
  UInt32.toNat_inj.mp h

/-- Starting a transfer takes the oldest byte out of the FIFO. -/
theorem start_queued {u : AppUart} (hidle : u.txInProgress = false)
    (hne : fifoLength u.mTxFifo ≠ 0) :
    ∃ txBuffer mTxFifo, appFifoGet u.mTxFifo = some (txBuffer, mTxFifo) ∧
      nrfDrvUartTx { u with mTxFifo, txBuffer } =
        (nrfSuccess, { u with mTxFifo, txBuffer, txInProgress := true }) ∧
      txBuffer :: Lib.Ring.contents 256 (ring mTxFifo) = Lib.Ring.contents 256 (ring u.mTxFifo) ∧
      (fifoLength mTxFifo).toNat = (fifoLength u.mTxFifo).toNat - 1 := by
  have hlen : Lib.Ring.length (ring u.mTxFifo) ≠ 0 := fun h => hne (length_eq_zero h)
  obtain ⟨g, hget, hg⟩ := appFifoGet_ring hne
  refine ⟨_, g, hget, ?_, ?_, ?_⟩
  · simp [nrfDrvUartTx, hidle]
  · rw [hg]
    exact (Lib.Ring.contents_drop dvd_cap hlen).symm
  · rw [← length_ring, hg]
    exact Lib.Ring.length_drop hlen

theorem appUartPut_queued {u : AppUart} (hu : Holds u) (byte : UInt8)
    (h : (fifoLength u.mTxFifo).toNat < 256) :
    ∃ v, appUartPut byte u = (nrfSuccess, v) ∧ v.out = u.out ∧
      queued v = queued u ++ [byte] ∧ Holds v := by
  obtain ⟨g, hput, hg⟩ := appFifoPut_ring byte h
  have hcontents : Lib.Ring.contents 256 (ring g) =
      Lib.Ring.contents 256 (ring u.mTxFifo) ++ [byte] := by
    rw [hg]
    exact Lib.Ring.contents_put dvd_cap h (by decide)
  have hlen : (fifoLength g).toNat = (fifoLength u.mTxFifo).toNat + 1 := by
    rw [← length_ring, hg]
    exact Lib.Ring.length_put 256 (show (fifoLength u.mTxFifo).toNat + 1 < 2 ^ 32 by omega)
  cases hbusy : u.txInProgress with
  | true =>
    refine ⟨{ u with mTxFifo := g }, ?_, rfl, ?_, ?_, fun hno => ?_⟩
    · simp [appUartPut, hput, hbusy]
    · simp [queued, hcontents]
    · change (fifoLength g).toNat ≤ 256
      omega
    · rw [hbusy] at hno; cases hno
  | false =>
    have hzero : (fifoLength u.mTxFifo).toNat = 0 := by rw [hu.idle hbusy]; rfl
    have hne : fifoLength g ≠ 0 := by
      intro hg0
      rw [hg0] at hlen
      cases hlen
    obtain ⟨b, f, hget, htx, hcons, hshort⟩ := start_queued (u := { u with mTxFifo := g }) hbusy hne
    refine ⟨{ u with mTxFifo := f, txBuffer := b, txInProgress := true }, ?_, rfl, ?_, ?_,
      fun hno => by cases hno⟩
    · simp only [appUartPut, hput, hbusy, and_self, if_true]
      rw [hget]
      simpa only [hbusy] using htx
    · simp only [queued, hbusy, if_true, List.singleton_append, hcons, hcontents]
      rfl
    · change (fifoLength f).toNat ≤ 256
      change (fifoLength f).toNat = (fifoLength g).toNat - 1 at hshort
      omega

theorem txDone_queued {u : AppUart} (hu : Holds u) (hbusy : u.txInProgress = true) :
    (txDone u).out ++ queued (txDone u) = u.out ++ queued u ∧ Holds (txDone u) := by
  by_cases hne : fifoLength u.mTxFifo = 0
  · have hd : txDone u = { u with txInProgress := false, out := u.out ++ [u.txBuffer] } := by
      simp only [txDone, appFifoGet_empty hne]
    rw [hd]
    exact ⟨by simp [queued, hbusy], hu.fits, fun _ => hne⟩
  · obtain ⟨b, f, hget, htx, hcons, hshort⟩ := start_queued
      (u := { u with txInProgress := false, out := u.out ++ [u.txBuffer] }) rfl hne
    have hd : txDone u =
        { u with
          mTxFifo := f
          txBuffer := b
          txInProgress := true
          out := u.out ++ [u.txBuffer] } := by
      change appFifoGet u.mTxFifo = _ at hget
      simp only [txDone, hget, htx]
    rw [hd]
    refine ⟨?_, ?_, fun hno => by cases hno⟩
    · simp only [queued, hbusy, if_true, List.singleton_append, hcons, List.append_assoc]
    · have := hu.fits
      change (fifoLength f).toNat ≤ 256
      change (fifoLength f).toNat = (fifoLength u.mTxFifo).toNat - 1 at hshort
      omega

/-! ## Runs -/

/-- Every byte queued so far is on its way, whatever the occupancy of the FIFO. -/
structure Loaded (s : Chip) : Prop where
  lossless : Lossless s
  holds : Holds s.uart

theorem boot_loaded : Loaded boot := ⟨⟨rfl, rfl⟩, ⟨by decide, fun _ => rfl⟩⟩

/-- One iteration of the loop. -/
theorem put_lossless {s : Chip} (hs : Loaded s) {byte : UInt8} {rest : List UInt8}
    (hp : s.pending = byte :: rest) :
    ∃ t, step s .put = some t ∧ (Lossless t ↔ Room s .put) ∧ (Room s .put → Loaded t) := by
  by_cases hroom : (fifoLength s.uart.mTxFifo).toNat < 256
  · obtain ⟨v, hput, hout, hqueued, hv⟩ := appUartPut_queued hs.holds byte hroom
    have hstep : step s .put = some { s with uart := v, pending := rest } := by
      simp [step, hp, hput, nrfErrorBusy, nrfSuccess]
    have hkeep : Lossless { s with uart := v, pending := rest } := by
      refine ⟨hs.lossless.1, ?_⟩
      have hq := hs.lossless.2
      rw [hp] at hq
      simpa [hout, hqueued] using hq
    exact ⟨_, hstep, ⟨fun _ => hroom, fun _ => hkeep⟩, fun _ => ⟨hkeep, hv⟩⟩
  · have hput : appUartPut byte s.uart = (nrfErrorNoMem, s.uart) := by
      simp [appUartPut, appFifoPut_full hroom, nrfErrorNoMem, nrfSuccess]
    have hstep : step s .put = some { boot with faulted := true } := by
      simp [step, hp, hput, nrfErrorNoMem, nrfSuccess, nrfErrorBusy]
    exact ⟨_, hstep, ⟨fun hl => (Bool.noConfusion hl.1), fun hr => absurd hr hroom⟩,
      fun hr => absurd hr hroom⟩

theorem step_lossless {s : Chip} {e : Event} (hs : Loaded s) (he : ∃ t, step s e = some t) :
    ∃ t, step s e = some t ∧ (Lossless t ↔ Room s e) ∧ (Room s e → Loaded t) := by
  obtain ⟨t, ht⟩ := he
  cases e with
  | write data =>
    obtain ⟨⟨hnil, -⟩, heq⟩ := Option.ite_none_right_eq_some.mp ht
    obtain rfl := Option.some.inj heq
    have hkeep : Loaded { s with pending := data, written := s.written ++ data } := by
      refine ⟨⟨hs.lossless.1, ?_⟩, hs.holds⟩
      have hq := hs.lossless.2
      rw [hnil, List.append_nil] at hq
      rw [← hq]
    exact ⟨_, ht, ⟨fun _ => trivial, fun _ => hkeep.lossless⟩, fun _ => hkeep⟩
  | put =>
    cases hp : s.pending with
    | nil => simp [step, hp] at ht
    | cons byte rest => exact put_lossless hs hp
  | txDone =>
    obtain ⟨hbusy, heq⟩ := Option.ite_none_right_eq_some.mp ht
    obtain rfl := Option.some.inj heq
    obtain ⟨hq, hv⟩ := txDone_queued hs.holds hbusy
    have hkeep : Loaded { s with uart := txDone s.uart } :=
      ⟨⟨hs.lossless.1, (congrArg (· ++ s.pending) hq).trans hs.lossless.2⟩, hv⟩
    exact ⟨_, ht, ⟨fun _ => trivial, fun _ => hkeep.lossless⟩, fun _ => hkeep⟩

/-- An idle UART between two writes has transmitted every payload. -/
theorem Loaded.transmitted {s : Chip} (hs : Loaded s) (hidle : s.uart.txInProgress = false)
    (hnil : s.pending = []) : s.uart.out = s.written := by
  have hq := hs.lossless.2
  have hnone : Lib.Ring.contents 256 (ring s.uart.mTxFifo) = [] := by
    apply List.length_eq_zero_iff.mp
    rw [Lib.Ring.length_contents, length_ring, hs.holds.idle hidle]
    rfl
  simpa [queued, hidle, hnil, hnone] using hq

/-- From every occupancy and for every order of writes, puts and TX-done steps: nothing is
lost exactly if every byte put finds room in the FIFO; and then an idle UART between two
writes has transmitted the payloads one behind the other. -/
theorem lossless_iff (s u : Chip) (hs : Loaded s) (es : List Event) (h : run step s es = some u) :
    (Always step Lossless s es ↔ Along step Room s es) ∧
      (Along step Room s es → u.uart.txInProgress = false → u.pending = [] →
        u.uart.out = u.written) := by
  refine ⟨always_iff_along (fun _ ht => ht.lossless) (fun _ _ ht he => step_lossless ht he) hs
    (along_of_run step h), fun ha => ?_⟩
  have hkeep : ∀ s e t, Loaded s → Room s e → step s e = some t → Loaded t := by
    intro s e t hs hr ht
    obtain ⟨t', ht', -, hl⟩ := step_lossless hs ⟨t, ht⟩
    rw [ht] at ht'
    exact Option.some.inj ht' ▸ hl hr
  exact (always_last step (always_of_along hkeep hs es ha) h).transmitted

/-- Two bytes, the first of them transmitted between the puts. -/
def twoBytes : List Event := [.write [1, 2], .put, .txDone, .put, .txDone]

theorem lossless_iff_two : ∃ u, run step boot twoBytes = some u ∧
    Always step Lossless boot twoBytes ∧ u.uart.out = [1, 2] := by
  have hroom : Along step Room boot twoBytes := by decide
  obtain ⟨hiff, hout⟩ := lossless_iff boot _ boot_loaded twoBytes rfl
  exact ⟨_, rfl, hiff.mpr hroom, hout hroom rfl rfl⟩

/-- Two writes before the first TX-done step; the second has a byte too many. -/
def burst : List Event :=
  .write (List.replicate 244 0) :: (List.replicate 244 .put ++
    .write (List.replicate 14 0) :: List.replicate 14 .put)

/-- The byte that finds the FIFO full is refused, and the handler does not wait for room. -/
theorem burst_loses :
    ¬ ∀ (s u : Chip) (es : List Event), Loaded s → run step s es = some u →
      Always step Lossless s es := by
  intro h
  have hrun : (run step boot burst).map (fun s => s.faulted) = some true := by decide +kernel
  obtain ⟨t, ht, hfault⟩ := Option.map_eq_some_iff.mp hrun
  have hl := always_last step (h boot t burst boot_loaded ht) ht
  rw [hl.1] at hfault
  cases hfault

end BleCar.MyBle.Relay
