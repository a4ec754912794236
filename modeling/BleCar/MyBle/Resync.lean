import BleCar.F103.Replies
import BleCar.MyBle.Decoding

/-!
# Finding the next frame

Whatever the parser was doing, it is through after at most 254 bytes: a lone header byte
is dropped, and a length, even one taken from noise, promises at most 252 bytes more. It
then waits for a header, and inside a reply there is none. Only a length below 3 ends
otherwise: the next byte makes the checksum leave the RAM.
-/

namespace BleCar.MyBle.Resync

open BleCar.Lib.Runs
open BleCar.Lib.Transducer
open BleCar.Motion.Routines
open BleCar.Protocol.Frames
open BleCar.F103.Replies
open BleCar.MyBle.Uart
open BleCar.MyBle.Decoding

/-- Inside a frame whose length has been taken. -/
structure Body (s : Parser) : Prop where
  receFlag : s.receFlag = 3
  index : 3 ≤ s.index.toNat
  room : s.index.toNat = 3 ∨ s.index.toNat < s.receLen.toNat

/-- The places a parser can be in. -/
inductive Place (s : Parser) : Prop where
  | idle (h : Idle s)
  | header (hf : s.receFlag = 1) (hi : s.index = 1) (hl : s.receLen = 0)
  | length (hf : s.receFlag = 2) (hi : s.index = 2)
  | body (h : Body s)

section

variable {s : Parser} {e : DataReady}

theorem length_body (hf : s.receFlag = 2) (hi : s.index = 2) : Body (uartEventHandle s e).1 := by
  rw [handle_length hf]
  have h3 : (s.index + 1).toNat = 3 := by rw [hi]; rfl
  exact ⟨rfl, by simp only [h3, Nat.le_refl], .inl h3⟩

/-- One more byte of a body, unless it is the last. -/
theorem Body.step (h : Body s) :
    (s.receLen.toNat > s.index.toNat + 1 ∧ Body (uartEventHandle s e).1 ∧
      (uartEventHandle s e).1.receLen = s.receLen ∧
      (uartEventHandle s e).1.index.toNat = s.index.toNat + 1) ∨
    (¬ s.receLen.toNat > s.index.toNat + 1 ∧ Idle (uartEventHandle s e).1) := by
  by_cases hm : s.receLen.toNat > s.index.toNat + 1
  · have hlt := s.receLen.toNat_lt
    have hindex : (s.index + 1).toNat = s.index.toNat + 1 := by
      rw [UInt8.toNat_add, show (1 : UInt8).toNat = 1 from rfl]
      omega
    have h3 := h.index
    refine .inl ⟨hm, ?_⟩
    rw [handle_more h.receFlag hm]
    exact ⟨⟨h.receFlag, by simp only [hindex]; omega, .inr (by simp only [hindex]; exact hm)⟩, rfl,
      hindex⟩
  · exact .inr ⟨hm, (handle_last h.receFlag hm).1⟩

theorem place_step (s : Parser) (e : DataReady) (h : Place s) : Place (uartEventHandle s e).1 := by
  cases h with
  | idle h =>
    by_cases hb : e.byte = 0xAA
    · rw [handle_header0 h.receFlag hb]
      exact .header rfl (by rw [h.index]; rfl) h.receLen
    · exact .idle (handle_idle h hb).1
  | header hf hi hl =>
    by_cases hb : e.byte = 0xAA
    · rw [handle_header1 hf hb]
      exact .length rfl (by rw [hi]; rfl)
    · exact .idle (handle_noHeader1 hf hl hb).1
  | length hf hi => exact .body (length_body hf hi)
  | body h =>
    rcases h.step (e := e) with ⟨-, hbody, -, -⟩ | ⟨-, hidle⟩
    · exact .body hbody
    · exact .idle hidle

/-- The states the parser reaches from boot, on any bytes, also past a checksum that faults. -/
def Reachable (s : Parser) : Prop := ∃ es, after uartEventHandle boot es = s

/-- Every parser that has been running since boot is in one of its places. -/
theorem Reachable.place (h : Reachable s) : Place s := by
  obtain ⟨es, rfl⟩ := h
  exact after_of_step place_step (.idle boot_idle) es

/-! ## Through with the frame in hand -/

/-- The parser becomes idle within the first `n` of the bytes. -/
def IdleWithin (s : Parser) (n : Nat) (es : List DataReady) : Prop :=
  ∃ m ≤ n, Idle (after uartEventHandle s (es.take m))

theorem IdleWithin.cons {n : Nat} {es : List DataReady}
    (h : IdleWithin (uartEventHandle s e).1 n es) : IdleWithin s (n + 1) (e :: es) := by
  obtain ⟨m, hm, hidle⟩ := h
  exact ⟨m + 1, by omega, hidle⟩

theorem idleWithin_one {es : List DataReady} (h : Idle (uartEventHandle s e).1) (n : Nat) :
    IdleWithin s (n + 1) (e :: es) := ⟨1, by omega, h⟩

/-- Induction on what is owed: each byte pays one off. -/
theorem Body.idleWithin {es : List DataReady} {n : Nat} (h : Body s) (hn : 1 ≤ n)
    (howed : s.receLen.toNat ≤ s.index.toNat + n) (hes : n ≤ es.length) : IdleWithin s n es := by
  induction n generalizing s es with
  | zero => exact absurd hn (Nat.not_succ_le_zero 0)
  | succ n ih =>
    obtain _ | ⟨e, es⟩ := es
    · exact absurd hes (Nat.not_succ_le_zero n)
    rcases h.step (e := e) with ⟨hm, hbody, hl, hi⟩ | ⟨-, hidle⟩
    · refine (ih hbody ?_ ?_ ?_).cons
      · omega
      · rw [hl, hi]; omega
      · exact Nat.le_of_succ_le_succ hes
    · exact idleWithin_one hidle n

theorem body_idleWithin {es : List DataReady} (h : Body s) (hes : 252 ≤ es.length) :
    IdleWithin s 252 es := by
  have hlt := s.receLen.toNat_lt
  have h3 := h.index
  exact h.idleWithin (by omega) (by omega) hes

theorem length_idleWithin {es : List DataReady} (hf : s.receFlag = 2) (hi : s.index = 2)
    (hes : 253 ≤ es.length) : IdleWithin s 253 es := by
  obtain _ | ⟨e, es⟩ := es
  · exact absurd hes (by decide)
  · exact (body_idleWithin (length_body hf hi) (Nat.le_of_succ_le_succ hes)).cons

/-- From every place, idle within 254 bytes. -/
theorem Place.idleWithin {es : List DataReady} (h : Place s) (hes : 254 ≤ es.length) :
    IdleWithin s 254 es := by
  cases h with
  | idle h => exact ⟨0, by omega, h⟩
  | header hf hi hl =>
    obtain _ | ⟨e, es⟩ := es
    · exact absurd hes (by decide)
    by_cases hb : e.byte = 0xAA
    · refine (length_idleWithin ?_ ?_ (Nat.le_of_succ_le_succ hes)).cons
      · rw [handle_header1 hf hb]
      · rw [handle_header1 hf hb]
        exact congrArg (· + 1) hi
    · exact idleWithin_one (handle_noHeader1 hf hl hb).1 253
  | length hf hi =>
    obtain ⟨m, hm, hidle⟩ := length_idleWithin hf hi (Nat.le_of_succ_le hes)
    exact ⟨m, by omega, hidle⟩
  | body h =>
    obtain ⟨m, hm, hidle⟩ := body_idleWithin h (Nat.le_trans (by decide) hes)
    exact ⟨m, by omega, hidle⟩

/-! ## Idle inside a reply -/

theorem idle_noHeader {es : List DataReady} (h : Idle s) (hes : ∀ e ∈ es, e.byte ≠ 0xAA) :
    Idle (after uartEventHandle s es) := by
  induction es generalizing s with
  | nil => exact h
  | cons e es ih =>
    exact ih (handle_idle h (hes e List.mem_cons_self)).1
      fun e' he' => hes e' (List.mem_cons_of_mem _ he')

/-- One header byte and then none. -/
theorem idle_cutHeader {e e' : DataReady} {es : List DataReady} (h : Idle s)
    (he : e.byte = 0xAA) (hes : ∀ x ∈ e' :: es, x.byte ≠ 0xAA) :
    Idle (after uartEventHandle s (e :: e' :: es)) := by
  have hhead := handle_header0 h.receFlag he
  have hsecond : Idle (uartEventHandle (uartEventHandle s e).1 e').1 := by
    refine (handle_noHeader1 ?_ ?_ (hes e' List.mem_cons_self)).1
    · rw [hhead]
    · rw [hhead]
      exact h.receLen
  rw [after_cons, after_cons]
  exact idle_noHeader hsecond fun x hx => hes x (List.mem_cons_of_mem _ hx)

end

section

variable {f : List DataReady}

theorem reply_decoded (hf : Reply (bytes f)) {s : Parser} (h : Idle s) :
    Idle (after uartEventHandle s f) ∧ outputs uartEventHandle s f = [bytes f] := by
  obtain ⟨y, g, ID, ret, -, hID, -, heq⟩ := hf
  have hd := reply_decodable y g hID ret
  rw [← heq] at hd
  exact hd.decoded h

/-- The header of a reply, its length and the rest. -/
theorem reply_split (hf : Reply (bytes f)) : ∃ e0 e1 e2 es, f = e0 :: e1 :: e2 :: es ∧
    e0.byte = 0xAA ∧ e1.byte = 0xAA ∧ 3 ≤ e2.byte.toNat ∧ ∀ x ∈ e2 :: es, x.byte ≠ 0xAA := by
  obtain ⟨rest, hbytes, hne, hno⟩ := reply_header hf
  obtain ⟨y, g, ID, ret, -, hID, -, heq⟩ := hf
  have hd := reply_decodable y g hID ret
  rw [← heq] at hd
  have h5 := hd.length.1
  have hlen := hd.wellFormed.length
  obtain _ | ⟨e0, _ | ⟨e1, _ | ⟨e2, es⟩⟩⟩ := f
  · simp [bytes] at hbytes
  · simp [bytes] at hbytes
  · obtain ⟨-, -, hrest⟩ : e0.byte = 0xAA ∧ e1.byte = 0xAA ∧ rest = [] := by
      simpa [bytes] using hbytes
    exact absurd hrest hne
  obtain ⟨h0, h1, hrest⟩ : e0.byte = 0xAA ∧ e1.byte = 0xAA ∧ bytes (e2 :: es) = rest := by
    simpa [bytes] using hbytes
  have h2 : bytesAt (bytes (e0 :: e1 :: e2 :: es)) 2 = e2.byte := rfl
  refine ⟨e0, e1, e2, es, rfl, h0, h1, by rw [← h2]; omega, fun x hx heq => ?_⟩
  exact hno (hrest ▸ heq ▸ List.mem_map_of_mem hx)

end

/-- What remains of a reply leaves an idle parser idle, wherever the reply was entered. -/
theorem reply_rest {f : List DataReady} (hf : Reply (bytes f)) (k : Nat) {s : Parser} (h : Idle s) :
    Idle (after uartEventHandle s (f.drop k)) := by
  obtain ⟨e0, e1, e2, es, rfl, h0, h1, -, hquiet⟩ := reply_split hf
  obtain _ | _ | k := k
  · exact (reply_decoded hf h).1
  · exact idle_cutHeader h h1 hquiet
  · exact idle_noHeader h fun x hx => hquiet x (List.mem_of_mem_drop hx)

/-! ## No reply declares a length below 3 -/

section

variable {s : Parser} {e : DataReady}

/-- Only the byte behind a header can declare one. -/
theorem longEnough_step (h : LongEnough s) (hb : s.receFlag = 2 → 3 ≤ e.byte.toNat) :
    LongEnough (uartEventHandle s e).1 := by
  by_cases h2 : s.receFlag = 2
  · rw [handle_length h2]
    exact fun _ => hb h2
  · by_cases h3 : s.receFlag = 3
    · by_cases hm : s.receLen.toNat > s.index.toNat + 1
      · rw [handle_more h3 hm]
        exact h
      · intro hflag
        rw [(handle_last h3 hm).1.receFlag] at hflag
        exact absurd hflag (by decide)
    · have hne : (uartEventHandle s e).1.receFlag ≠ 3 := by
        rw [handle_eq, if_neg h2, if_neg h3]
        split_ifs with h0 _ h1
        · rw [h0]
          exact (by decide : (0 : UInt8) + 1 ≠ 3)
        · exact (by decide : (0 : UInt8) ≠ 3)
        · rw [h1]
          exact (by decide : (1 : UInt8) + 1 ≠ 3)
        · exact (by decide : (0 : UInt8) ≠ 3)
        · exact (by decide : (0 : UInt8) ≠ 3)
      exact fun hflag => absurd hflag hne

/-- Only a header byte completes a header. -/
theorem flag_noHeader (hb : e.byte ≠ 0xAA) : (uartEventHandle s e).1.receFlag ≠ 2 := by
  have hzero : (0 : UInt8) ≠ 2 := by decide
  simp only [handle_eq, if_neg hb]
  split_ifs with h0 h1 h2 h3 hm hc
  · exact hzero
  · exact hzero
  · exact h2 ▸ (by decide : (2 : UInt8) + 1 ≠ 2)
  · exact h3 ▸ (by decide : (3 : UInt8) ≠ 2)
  · exact hzero
  · exact hzero
  · exact hzero

/-- No byte of a reply makes the parser fault. -/
theorem reply_passes {f : List DataReady} (hf : Reply (bytes f)) (h : LongEnough s) :
    Passes Faults uartEventHandle s f ∧ LongEnough (after uartEventHandle s f) := by
  obtain ⟨e0, e1, e2, es, rfl, h0, h1, h2, hquiet⟩ := reply_split hf
  have hthree : ∀ x ∈ [e0, e1, e2], 3 ≤ x.byte.toNat := by
    intro x hx
    simp only [List.mem_cons, List.not_mem_nil, or_false] at hx
    rcases hx with rfl | rfl | rfl
    · rw [h0]
      decide
    · rw [h1]
      decide
    · exact h2
  obtain ⟨hhead, hlong⟩ : Passes Faults uartEventHandle s [e0, e1, e2] ∧
      LongEnough (after uartEventHandle s [e0, e1, e2]) :=
    passes_of_step (C := fun e => 3 ≤ e.byte.toNat) (fun _ ht => ht.not_faults)
      (fun _ _ he ht => longEnough_step ht fun _ => he) h hthree
  have hflag : (after uartEventHandle s [e0, e1, e2]).receFlag ≠ 2 :=
    flag_noHeader (hquiet e2 List.mem_cons_self)
  obtain ⟨htail, hend, -⟩ :
      Passes Faults uartEventHandle (after uartEventHandle s [e0, e1, e2]) es ∧
      LongEnough (after uartEventHandle (after uartEventHandle s [e0, e1, e2]) es) ∧
        (after uartEventHandle (after uartEventHandle s [e0, e1, e2]) es).receFlag ≠ 2 :=
    passes_of_step (I := fun t => LongEnough t ∧ t.receFlag ≠ 2) (C := fun e => e.byte ≠ 0xAA)
      (fun _ ht => ht.1.not_faults)
      (fun _ _ he ht => ⟨longEnough_step ht.1 fun hf => absurd hf ht.2, flag_noHeader he⟩)
      ⟨hlong, hflag⟩ fun x hx => hquiet x (List.mem_cons_of_mem _ hx)
  exact ⟨passes_append hhead htail, hend⟩

/-- Behind a header and a length below 3 the next byte does. -/
theorem Reachable.faults (hs : Reachable s) (h : ¬ LongEnough s) : Faults s := by
  obtain ⟨hflag, hshort⟩ := Classical.not_imp.mp h
  have hindex : 3 ≤ s.index.toNat := by
    cases hs.place with
    | idle h => exact absurd (h.receFlag.symm.trans hflag) (by decide)
    | header hf => exact absurd (hf.symm.trans hflag) (by decide)
    | length hf => exact absurd (hf.symm.trans hflag) (by decide)
    | body h => exact h.index
  refine ⟨hflag, by omega, ?_⟩
  rw [ramSize, sumLen_toNat, if_neg hshort]
  omega

end

/-- The frames handed to `my_uart_ble_send` while the bytes come in, none from the byte on that
makes the checksum leave the RAM. -/
def handed (s : Parser) (es : List DataReady) : List (List UInt8) :=
  outputsUntil Faults uartEventHandle s es

/-- A parser that does not fault takes the first 255 bytes of a stream of replies for whatever
it takes them, and is idle before the next reply. -/
theorem idle_after {s : Parser} {pre : List (List DataReady)} (hs : Reachable s)
    (hf : ∀ f ∈ pre, Reply (bytes f)) (hlen : 255 ≤ pre.flatten.length) :
    Idle (after uartEventHandle s pre.flatten) := by
  obtain ⟨m, hm, hidle⟩ := hs.place.idleWithin (show 254 ≤ pre.flatten.length by omega)
  rw [← List.take_append_drop m pre.flatten, after_append]
  exact after_drop (fun f hmem k t ht => reply_rest (hf f hmem) k ht) hidle m

/-- The reply to a request for a report at boot. -/
def bootReport : List DataReady := received (myUart3TxToBLE Stray.blank Globals.boot 0xA4 0)

theorem bootReport_reply : Reply (bytes bootReport) := by
  refine ⟨Stray.blank, Globals.boot, 0xA4, 0, boot_shown, by decide, by decide, ?_⟩
  rw [bootReport, bytes_received]

theorem reports_reply {n : Nat} :
    ∀ f ∈ List.replicate n bootReport ++ [bootReport], Reply (bytes f) := by
  intro f hf
  rcases List.mem_append.mp hf with hf | hf
  · rw [List.eq_of_mem_replicate hf]
    exact bootReport_reply
  · rw [List.mem_singleton.mp hf]
    exact bootReport_reply

end BleCar.MyBle.Resync
