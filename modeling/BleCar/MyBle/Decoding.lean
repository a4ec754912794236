import BleCar.MyBle.Uart

/-!
# Every frame comes out as it went in

A frame fed to an idle parser is silent up to its last byte and is handed on with it. On
the way `data_array` holds the bytes so far and `rece_flag` counts the header and the
length byte; a body may contain any bytes, headers included.
-/

namespace BleCar.MyBle.Decoding

open BleCar.Lib.ByteSum
open BleCar.Lib.Transducer
open BleCar.Motion.Routines
open BleCar.Protocol.Frames
open BleCar.MyBle.Uart

/-- The bytes of some events. -/
def bytes (es : List DataReady) : List UInt8 := es.map DataReady.byte

/-- `k` bytes of the frame `f` have been taken. -/
structure Reading (f : List UInt8) (k : Nat) (s : Parser) : Prop where
  index : s.index.toNat = k
  receFlag : s.receFlag = UInt8.ofNat (min k 3)
  receLen : s.receLen = if k ≤ 2 then 0 else bytesAt f 2
  got : ∀ outside, ∀ i < k, arrayRead outside s.dataArray i = bytesAt f i

variable {f : List UInt8} {s : Parser} {e : DataReady} {k : Nat}

theorem reading_zero (f : List UInt8) : Reading f 0 s ↔ Idle s := by
  constructor
  · rintro ⟨hi, hf, hl, -⟩
    exact ⟨hf, UInt8.toNat_inj.mp hi, hl⟩
  · rintro ⟨hf, hi, hl⟩
    exact ⟨by rw [hi]; rfl, hf, hl, fun _ i hi => absurd hi (Nat.not_lt_zero i)⟩

/-- The buffer after the next byte. -/
theorem Reading.got_next (h : Reading f k s) (he : e.byte = bytesAt f k) (outside : Nat → UInt8) :
    ∀ i < k + 1, arrayRead outside (appUartGet e.byte s).dataArray i = bytesAt f i := by
  intro i hi
  by_cases hk : i = k
  · rw [hk, ← h.index, arrayRead_got, he, h.index]
  · rw [arrayRead_kept s outside e.byte (by rw [h.index]; exact hk), h.got outside i (by omega)]

theorem Reading.index_next (h : Reading f k s) (hk : k < 255) : (s.index + 1).toNat = k + 1 := by
  have hi := h.index
  rw [UInt8.toNat_add, hi, show (1 : UInt8).toNat = 1 from rfl]
  omega

/-- Up to its last byte, a frame is taken silently. -/
theorem Reading.next (hw : WellFormed f) (h : Reading f k s) (hk : k + 1 < f.length)
    (he : e.byte = bytesAt f k) :
    Reading f (k + 1) (uartEventHandle s e).1 ∧ (uartEventHandle s e).2 = [] := by
  have hlen := hw.length
  have hlt := (bytesAt f 2).toNat_lt
  have hindex := h.index_next (by omega)
  have hgot := h.got_next he
  match k, h with
  | 0, h =>
    rw [handle_header0 h.receFlag (he.trans hw.header0)]
    exact ⟨⟨hindex, rfl, h.receLen, hgot⟩, rfl⟩
  | 1, h =>
    rw [handle_header1 h.receFlag (he.trans hw.header1)]
    exact ⟨⟨hindex, rfl, h.receLen, hgot⟩, rfl⟩
  | 2, h =>
    rw [handle_length h.receFlag]
    exact ⟨⟨hindex, rfl, he, hgot⟩, rfl⟩
  | k + 3, h =>
    have hl : s.receLen = bytesAt f 2 := h.receLen
    have hmore : s.receLen.toNat > s.index.toNat + 1 := by
      rw [hl, h.index]
      omega
    have hflag : s.receFlag = 3 := by
      rw [h.receFlag, Nat.min_eq_right (by omega)]
      rfl
    rw [handle_more hflag hmore]
    refine ⟨⟨hindex, ?_, hl, hgot⟩, rfl⟩
    rw [Nat.min_eq_right (by omega)]
    exact hflag

/-- The last byte hands the frame on. -/
theorem Reading.last (hw : WellFormed f) (h4 : 4 ≤ f.length) (h : Reading f k s)
    (hk : k + 1 = f.length) (he : e.byte = bytesAt f k) :
    Idle (uartEventHandle s e).1 ∧ (uartEventHandle s e).2 = [f] := by
  have hlen := hw.length
  have hl : s.receLen = bytesAt f 2 := by rw [h.receLen, if_neg (by omega)]
  have hflag : s.receFlag = 3 := by
    rw [h.receFlag, Nat.min_eq_right (by omega)]
    rfl
  have hdone : ¬ s.receLen.toNat > s.index.toNat + 1 := by
    rw [hl, h.index]
    omega
  have hgot := h.got_next he e.outside
  have hcheck : checkCode (arrayRead e.outside (appUartGet e.byte s).dataArray) s.receLen = 0 := by
    rw [checkCode_eq_zero (b := f) (by omega) (by rw [hl, hlen]) fun i hi => hgot i (by omega)]
    exact hw.checksum
  have hframe : frame (appUartGet e.byte s) e.outside = f := by
    rw [frame, appUartGet_receLen, hl, hlen]
    exact arrayTake_eq fun i hi => hgot i (by omega)
  obtain ⟨hidle, hout⟩ := handle_last hflag hdone
  rw [if_pos hcheck, hframe] at hout
  exact ⟨hidle, hout⟩

/-- A frame is taken silently up to its last byte and handed on with it. -/
theorem frame_split {xs : List DataReady} {x : DataReady} (hw : WellFormed (bytes (xs ++ [x])))
    (h3 : 3 ≤ xs.length) (hs : Idle s) :
    outputs uartEventHandle s xs = [] ∧
      Idle (uartEventHandle (after uartEventHandle s xs) x).1 ∧
      (uartEventHandle (after uartEventHandle s xs) x).2 = [bytes (xs ++ [x])] := by
  have hlen : (bytes (xs ++ [x])).length = xs.length + 1 := by simp [bytes]
  have hbyte : ∀ k (hk : k < xs.length), xs[k].byte = bytesAt (bytes (xs ++ [x])) k := by
    intro k hk
    rw [bytesAt, bytes, List.map_append, List.getD_append _ _ _ _ (by simpa using hk),
      List.getD_eq_getElem _ _ (by simpa using hk), List.getElem_map]
  have hlast : x.byte = bytesAt (bytes (xs ++ [x])) xs.length := by
    rw [bytesAt, bytes, List.map_append, List.getD_append_right _ _ _ _ (by simp)]
    simp
  obtain ⟨hread, hout⟩ := silent uartEventHandle (I := Reading (bytes (xs ++ [x]))) xs
    (fun k hk t ht => ht.next hw (by omega) (hbyte k hk)) ((reading_zero _).mpr hs)
  obtain ⟨hidle, hsent⟩ := hread.last hw (by omega) (by omega) hlast
  exact ⟨hout, hidle, hsent⟩

/-- One frame, from an idle parser to an idle parser. -/
theorem frame_decoded {es : List DataReady} (hw : WellFormed (bytes es)) (h4 : 4 ≤ es.length)
    (hs : Idle s) :
    Idle (after uartEventHandle s es) ∧ outputs uartEventHandle s es = [bytes es] := by
  obtain rfl | ⟨xs, x, rfl⟩ := List.eq_nil_or_concat' es
  · exact absurd h4 (by decide)
  rw [List.length_append, List.length_singleton] at h4
  obtain ⟨hout, hidle, hsent⟩ := frame_split hw (by omega) hs
  rw [after_append, outputs_append, hout, after_singleton, outputs_singleton, hsent]
  exact ⟨hidle, rfl⟩

/-- The length a frame declares is never below 3. -/
theorem Reading.longEnough (hw : WellFormed f) (h4 : 4 ≤ f.length) (h : Reading f k s) :
    LongEnough s := by
  intro hflag
  have hlen := hw.length
  have hk : ¬ k ≤ 2 := by
    intro hk
    have hthree := congrArg UInt8.toNat (h.receFlag.symm.trans hflag)
    rw [Nat.min_eq_left (by omega), UInt8.toNat_ofNat', show (3 : UInt8).toNat = 3 from rfl]
      at hthree
    omega
  rw [h.receLen, if_neg hk]
  omega

/-- No byte of a frame makes an idle parser fault. -/
theorem frame_passes {es : List DataReady} (hw : WellFormed (bytes es)) (h4 : 4 ≤ es.length)
    (hs : Idle s) : Passes Faults uartEventHandle s es := by
  have hlen : (bytes es).length = es.length := by simp [bytes]
  refine passes_upto (I := Reading (bytes es))
    (fun k t ht => (ht.longEnough hw (by omega)).not_faults) es (fun k hk t ht => ?_)
    ((reading_zero _).mpr hs)
  refine (ht.next hw (by omega) ?_).1
  rw [bytesAt, bytes, List.getD_eq_getElem _ _ (by simp; omega), List.getElem_map]

/-- A frame as the decoder understands it. -/
structure Decodable (f : List UInt8) : Prop where
  wellFormed : WellFormed f
  length : 5 ≤ f.length ∧ f.length ≤ 255

theorem Decodable.decoded {es : List DataReady} (h : Decodable (bytes es)) (hs : Idle s) :
    Idle (after uartEventHandle s es) ∧ outputs uartEventHandle s es = [bytes es] := by
  have h5 := h.length.1
  rw [bytes, List.length_map] at h5
  exact frame_decoded h.wellFormed (by omega) hs

/-- Every reply is such a frame, whatever the globals. -/
theorem reply_decodable (y : Stray) (g : Globals) {ID : UInt8} (h : IsReplyID ID) (ret : UInt8) :
    Decodable (myUart3TxToBLE y g ID ret) := by
  have hw := myUart3TxToBLE_wellFormed y g h ret
  have hlen := hw.length
  have hlt := (bytesAt (myUart3TxToBLE y g ID ret) 2).toNat_lt
  refine ⟨hw, ?_, by omega⟩
  rcases h with rfl | rfl | rfl | rfl | rfl | rfl <;> simp [myUart3TxToBLE, replyBody]

/-- Decoding undoes encoding: a list of frames fed byte by byte to an idle parser, such as the
one at boot, is handed on frame by frame, and the parser is idle again. -/
theorem decode_encode :
    (∀ (s : Parser) (fs : List (List DataReady)), Idle s → (∀ f ∈ fs, Decodable (bytes f)) →
      outputs uartEventHandle s fs.flatten = fs.map bytes ∧
        Idle (after uartEventHandle s fs.flatten)) ∧
    Idle boot ∧
    ∀ (y : Stray) (g : Globals) (ID ret : UInt8), IsReplyID ID →
      Decodable (myUart3TxToBLE y g ID ret) := by
  refine ⟨fun s fs hs hfs => ?_, boot_idle, fun y g ID ret h => reply_decodable y g h ret⟩
  obtain ⟨hidle, hout⟩ := blocks (fun f hf t ht => (hfs f hf).decoded ht) hs
  exact ⟨hout.trans List.map_eq_flatMap.symm, hidle⟩

/-- Bytes that arrive with nothing behind the buffer. -/
def received (f : List UInt8) : List DataReady := f.map fun b => ⟨b, fun _ => 0⟩

@[simp] theorem bytes_received (f : List UInt8) : bytes (received f) = f := by
  simp [bytes, received, Function.comp_def]

/-- A frame with a header byte for its ID, then a reply. -/
theorem decode_encode_pair :
    outputs uartEventHandle boot
        ([received [0xAA, 0xAA, 0x05, 0xAA, 0x55],
          received [0xAA, 0xAA, 0x06, 0xA1, 0x00, 0x5E]].flatten) =
      [[0xAA, 0xAA, 0x05, 0xAA, 0x55], [0xAA, 0xAA, 0x06, 0xA1, 0x00, 0x5E]] ∧
    Decodable (myUart3TxToBLE Stray.blank Globals.boot 0xA1 0) := by
  refine ⟨(decode_encode.1 boot _ boot_idle fun f hf => ?_).1,
    decode_encode.2.2 Stray.blank Globals.boot 0xA1 0 (by decide)⟩
  rcases List.mem_cons.mp hf with rfl | hf
  · exact ⟨by decide, by decide⟩
  · rw [List.mem_singleton.mp hf]
    exact ⟨by decide, by decide⟩

end BleCar.MyBle.Decoding
