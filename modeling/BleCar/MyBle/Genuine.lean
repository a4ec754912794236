import BleCar.MyBle.Resync

/-!
# What the UART parser hands on

Over an arbitrary byte stream the parser is either idle or in the middle of a frame that
is the end of the stream so far. Every frame it hands on is then cut out of the stream
where it stands, as long as no length byte is below 3: the checksum of such a frame runs
over 65533 bytes and more.
-/

namespace BleCar.MyBle.Genuine

open BleCar.Lib.ByteSum
open BleCar.Lib.Transducer
open BleCar.Protocol.Frames
open BleCar.MyBle.Uart
open BleCar.MyBle.Decoding
open BleCar.MyBle.Resync

/-- `AA AA n ...`, of `n` bytes, at least four, that sum to 0xFF from the fourth on. -/
def GenuineFrame (f : List UInt8) : Prop := WellFormed f ∧ 4 ≤ f.length

/-- The frames stand in the stream one behind the other, with anything in between. -/
inductive CutFrom : List UInt8 → List (List UInt8) → Prop
  | rest (gap : List UInt8) : CutFrom gap []
  | frame {f stream : List UInt8} {fs : List (List UInt8)} (gap : List UInt8) :
    GenuineFrame f → CutFrom stream fs → CutFrom (gap ++ f ++ stream) (f :: fs)

theorem CutFrom.append {stream : List UInt8} {fs : List (List UInt8)} (h : CutFrom stream fs)
    (more : List UInt8) : CutFrom (stream ++ more) fs := by
  induction h with
  | rest gap => exact .rest _
  | frame gap hf _ ih =>
    rw [List.append_assoc]
    exact .frame gap hf ih

theorem CutFrom.snoc {stream : List UInt8} {fs : List (List UInt8)} (h : CutFrom stream fs)
    {f : List UInt8} (hf : GenuineFrame f) : CutFrom (stream ++ f) (fs ++ [f]) := by
  induction h with
  | rest gap => simpa using CutFrom.frame gap hf (.rest [])
  | frame gap hg _ ih =>
    rw [List.append_assoc]
    exact .frame gap hg ih

/-! ## The frame in hand -/

/-- `cur` has been taken for the frame in hand. -/
structure Hand (cur : List UInt8) (s : Parser) : Prop extends Reading cur cur.length s where
  header : ∀ i < cur.length, i < 2 → bytesAt cur i = 0xAA
  room : 4 ≤ cur.length → cur.length < s.receLen.toNat

theorem hand_nil {s : Parser} : Hand [] s ↔ Idle s :=
  ⟨fun h => (reading_zero []).mp h.toReading,
    fun h => ⟨(reading_zero []).mpr h, fun _ hi => absurd hi (Nat.not_lt_zero _),
      fun h4 => absurd h4 (by decide)⟩⟩

/-- What one byte can do to the frame in hand. -/
inductive Taken (cur : List UInt8) (s : Parser) (e : DataReady) : Prop
  | more (h : Hand (cur ++ [e.byte]) (uartEventHandle s e).1) (hout : (uartEventHandle s e).2 = [])
  | dropped (h : Idle (uartEventHandle s e).1) (hout : (uartEventHandle s e).2 = [])
  | sent (h : Idle (uartEventHandle s e).1) (hf : GenuineFrame (cur ++ [e.byte]))
    (hout : (uartEventHandle s e).2 = [cur ++ [e.byte]])

section

variable {cur : List UInt8} {s : Parser} {e : DataReady}

theorem bytesAt_concat_of_lt {i : Nat} (hi : i < cur.length) (b : UInt8) :
    bytesAt (cur ++ [b]) i = bytesAt cur i :=
  List.getD_append _ _ _ _ hi

theorem bytesAt_concat (b : UInt8) : bytesAt (cur ++ [b]) cur.length = b := by
  rw [bytesAt, List.getD_append_right _ _ _ _ (le_refl _), Nat.sub_self]
  rfl

/-- The buffer after the next byte holds the frame with it. -/
theorem Hand.got_next (h : Hand cur s) (outside : Nat → UInt8) :
    ∀ i < cur.length + 1,
      arrayRead outside (appUartGet e.byte s).dataArray i = bytesAt (cur ++ [e.byte]) i := by
  have hread : Reading (cur ++ [e.byte]) cur.length s := by
    refine ⟨h.index, h.receFlag, ?_, fun o i hi => ?_⟩
    · rw [h.receLen]
      split
      case isTrue => rfl
      case isFalse hgt => rw [bytesAt_concat_of_lt (by omega)]
    · rw [h.got o i hi, bytesAt_concat_of_lt hi]
  exact hread.got_next (bytesAt_concat e.byte).symm outside

theorem Hand.length_le (h : Hand cur s) : cur.length < 255 := by
  by_cases h4 : 4 ≤ cur.length
  · have hroom := h.room h4
    have hlt := s.receLen.toNat_lt
    omega
  · omega

theorem Hand.index_next (h : Hand cur s) : (s.index + 1).toNat = (cur ++ [e.byte]).length := by
  rw [h.toReading.index_next h.length_le, List.length_append, List.length_singleton]

/-- A byte of the header, or the length, or a byte of the body that is not the last. -/
theorem Hand.next {t : Parser} (h : Hand cur s)
    (hdata : t.dataArray = (appUartGet e.byte s).dataArray) (hindex : t.index = s.index + 1)
    (hflag : t.receFlag = UInt8.ofNat (min (cur.length + 1) 3))
    (hlen : t.receLen = if cur.length + 1 ≤ 2 then 0 else bytesAt (cur ++ [e.byte]) 2)
    (hheader : cur.length < 2 → e.byte = 0xAA)
    (hroom : 4 ≤ cur.length + 1 → cur.length + 1 < t.receLen.toNat) :
    Hand (cur ++ [e.byte]) t := by
  have hlength : (cur ++ [e.byte]).length = cur.length + 1 := by simp
  refine ⟨⟨?_, ?_, ?_, fun o i hi => ?_⟩, fun i hi hi2 => ?_, fun h4 => ?_⟩
  · rw [hindex]
    exact h.index_next
  · rw [hflag, hlength]
  · rw [hlen, hlength]
  · rw [hdata]
    exact h.got_next o i (by omega)
  · by_cases hlt : i < cur.length
    · rw [bytesAt_concat_of_lt hlt]
      exact h.header i hlt hi2
    · obtain rfl : i = cur.length := by omega
      rw [bytesAt_concat]
      exact hheader hi2
  · rw [hlength] at h4 ⊢
    exact hroom h4

/-- A frame of three bytes never passes: its checksum is empty. -/
theorem checkCode_three (data : Nat → UInt8) : checkCode data 3 ≠ 0 := by
  rw [checkCode, Ne, myCheckCodeAnalysis_eq_zero]
  exact (by decide : ¬ (0 : UInt8) = 0xff)

/-- The last byte: either the frame passes, and is the bytes in hand, or it is dropped. -/
theorem Hand.last (h : Hand cur s) (h3 : 3 ≤ cur.length) (hflag : s.receFlag = 3)
    (hlong : LongEnough s) (hm : ¬ s.receLen.toNat > s.index.toNat + 1) : Taken cur s e := by
  obtain ⟨hidle, hout⟩ := handle_last (e := e) hflag hm
  by_cases hc : checkCode (arrayRead e.outside (appUartGet e.byte s).dataArray) s.receLen = 0
  case neg =>
    rw [if_neg hc] at hout
    exact .dropped hidle hout
  rw [if_pos hc] at hout
  have hlength : (cur ++ [e.byte]).length = cur.length + 1 := by simp
  have hn : s.receLen.toNat = (cur ++ [e.byte]).length := by
    have hne : s.receLen.toNat ≠ 3 := fun heq =>
      checkCode_three _ ((UInt8.toNat_inj.mp heq : s.receLen = 3) ▸ hc)
    have hge := hlong hflag
    have hroom := h.room
    rw [h.index] at hm
    omega
  have hgot := @Hand.got_next cur s e h e.outside
  have hbyte : bytesAt (cur ++ [e.byte]) 2 = s.receLen := by
    rw [bytesAt_concat_of_lt (by omega), h.receLen, if_neg (by omega)]
  have hframe : frame (appUartGet e.byte s) e.outside = cur ++ [e.byte] := by
    rw [frame, appUartGet_receLen, hn]
    exact arrayTake_eq fun i hi => hgot i (by omega)
  rw [hframe] at hout
  refine .sent hidle ⟨⟨?_, ?_, ?_, ?_⟩, by omega⟩ hout
  · rw [bytesAt_concat_of_lt (by omega)]
    exact h.header 0 (by omega) (by decide)
  · rw [bytesAt_concat_of_lt (by omega)]
    exact h.header 1 (by omega) (by decide)
  · rw [hbyte, hn]
  · exact (checkCode_eq_zero (by omega) hn fun i hi => hgot i (by omega)).mp hc

/-- The step lemma, by how much of the frame has been taken. -/
theorem Hand.taken (h : Hand cur s) (hlong : LongEnough s) : Taken cur s e := by
  have hflag := h.receFlag
  have hlen := h.receLen
  obtain h0 | h1 | h2 | h3 : cur.length = 0 ∨ cur.length = 1 ∨ cur.length = 2 ∨ 3 ≤ cur.length := by
    omega
  · obtain rfl := List.length_eq_zero_iff.mp h0
    by_cases hb : e.byte = 0xAA
    · have hstep := handle_header0 hflag hb
      refine .more ?_ (by rw [hstep])
      rw [hstep]
      exact h.next rfl rfl rfl hlen (fun _ => hb) (fun h4 => absurd h4 (by decide))
    · obtain ⟨hidle, hout⟩ := handle_idle (hand_nil.mp h) hb
      exact .dropped hidle hout
  · rw [h1] at hflag hlen
    by_cases hb : e.byte = 0xAA
    · have hstep := handle_header1 hflag hb
      refine .more ?_ (by rw [hstep])
      rw [hstep]
      refine h.next rfl rfl ?_ ?_ (fun _ => hb) (fun h4 => by omega)
      · rw [h1]; rfl
      · rw [h1]; exact hlen
    · obtain ⟨hidle, hout⟩ := handle_noHeader1 hflag hlen hb
      exact .dropped hidle hout
  · rw [h2] at hflag
    have hstep := handle_length (e := e) hflag
    refine .more ?_ (by rw [hstep])
    rw [hstep]
    refine h.next rfl rfl ?_ ?_ (fun hlt => by omega) (fun h4 => by omega)
    · rw [h2]; rfl
    · rw [h2, ← h2, bytesAt_concat, if_neg (by omega)]
  · have hthree : s.receFlag = 3 := by
      rw [hflag, Nat.min_eq_right h3]
      rfl
    by_cases hm : s.receLen.toNat > s.index.toNat + 1
    · have hstep := handle_more (e := e) hthree hm
      refine .more ?_ (by rw [hstep])
      rw [hstep]
      refine h.next rfl rfl ?_ ?_ (fun hlt => by omega) (fun _ => ?_)
      · rw [Nat.min_eq_right (by omega)]
        exact hthree
      · rw [if_neg (by omega), bytesAt_concat_of_lt (by omega)]
        exact hlen.trans (if_neg (by omega))
      · rw [h.index] at hm
        exact hm
    · exact h.last h3 hthree hlong hm

end

/-! ## The whole stream -/

/-- The frames sent stand in the stream, in order, and behind them the frame in hand. -/
def Traced (es : List DataReady) (sent : List (List UInt8)) (s : Parser) : Prop :=
  ∃ done cur, bytes es = done ++ cur ∧ CutFrom done sent ∧ Hand cur s

theorem traced_step {es : List DataReady} {sent : List (List UInt8)} {s : Parser} (e : DataReady)
    (hlong : LongEnough s) (h : Traced es sent s) :
    Traced (es ++ [e]) (sent ++ (uartEventHandle s e).2) (uartEventHandle s e).1 := by
  obtain ⟨done, cur, hes, hcut, hhand⟩ := h
  have hbytes : bytes (es ++ [e]) = done ++ (cur ++ [e.byte]) := by
    rw [bytes, List.map_append, List.map_singleton, ← bytes, hes, List.append_assoc]
  cases hhand.taken (e := e) hlong with
  | more hnext hout =>
    rw [hout, List.append_nil]
    exact ⟨done, _, hbytes, hcut, hnext⟩
  | dropped hidle hout =>
    rw [hout, List.append_nil]
    exact ⟨_, [], hbytes.trans (List.append_nil _).symm, hcut.append _, hand_nil.mpr hidle⟩
  | sent hidle hf hout =>
    rw [hout]
    exact ⟨_, [], hbytes.trans (List.append_nil _).symm, hcut.snoc hf, hand_nil.mpr hidle⟩

/-- The state in which the byte behind `pre` is handled. -/
def stateAt (pre : List DataReady) : Parser := after uartEventHandle boot pre

theorem traced (es : List DataReady)
    (h : ∀ pre e post, es = pre ++ e :: post → LongEnough (stateAt pre)) :
    Traced es (outputs uartEventHandle boot es) (after uartEventHandle boot es) :=
  history_of_step (I := Traced) (C := fun s _ => LongEnough s)
    (fun _ _ _ e hlong hI => traced_step e hlong hI)
    ⟨[], [], rfl, .rest [], hand_nil.mpr boot_idle⟩ es h

/-- The indices of `data_array` summed by the `my_check_code_analysis` call that the next byte
causes, if it causes one. -/
def sumRange (s : Parser) : List Nat :=
  if s.receFlag = 3 ∧ ¬ s.receLen.toNat > s.index.toNat + 1 then
    (List.range (UInt16.ofInt ((s.receLen.toNat : Int) - 3)).toNat).map (3 + ·)
  else []

/-- The bytes received for the frame that the byte behind `pre` belongs to: the last `index`
bytes of the stream, and that byte. -/
def currentFrame (pre : List DataReady) (e : DataReady) : List UInt8 :=
  (bytes pre).drop (pre.length - (stateAt pre).index.toNat) ++ [e.byte]

/-- What is summed when `e` is handled has been received for the current frame. -/
def SumsCurrent (pre : List DataReady) (e : DataReady) : Prop :=
  ∀ i ∈ sumRange (stateAt pre), i < (currentFrame pre e).length ∧
    arrayRead e.outside (appUartGet e.byte (stateAt pre)).dataArray i =
      bytesAt (currentFrame pre e) i

/-- The frames handed to `my_uart_ble_send` are genuine and stand in the stream in order,
without overlap, and every checksum is taken over bytes of the frame in hand. -/
structure ForwardsGenuine (es : List DataReady) : Prop where
  sent : CutFrom (bytes es) (outputs uartEventHandle boot es)
  sums : ∀ pre e post, es = pre ++ e :: post → SumsCurrent pre e

theorem Traced.sumsCurrent {pre : List DataReady} {sent : List (List UInt8)} (e : DataReady)
    (h : Traced pre sent (stateAt pre)) (hlong : LongEnough (stateAt pre)) :
    SumsCurrent pre e := by
  obtain ⟨done, cur, hpre, -, hhand⟩ := h
  have hcurrent : currentFrame pre e = cur ++ [e.byte] := by
    have hlen : pre.length - cur.length = done.length := by
      have hsplit := congrArg List.length hpre
      simp only [bytes, List.length_map, List.length_append] at hsplit
      omega
    rw [currentFrame, hhand.index, hlen, hpre, List.drop_left]
  intro i hi
  rw [hcurrent, List.length_append, List.length_singleton]
  unfold sumRange at hi
  split at hi
  case isFalse => exact absurd hi List.not_mem_nil
  case isTrue hlast =>
    obtain ⟨k, hk, rfl⟩ := List.mem_map.mp hi
    have hge := hlong hlast.1
    have hm := hlast.2
    rw [hhand.index] at hm
    rw [List.mem_range, ofInt_toNat] at hk
    have hlt : 3 + k < cur.length + 1 := by omega
    exact ⟨hlt, hhand.got_next _ _ hlt⟩

/-- A length below 3 makes the checksum run over 65533 bytes and more, and no frame has that
many. -/
theorem SumsCurrent.longEnough {pre : List DataReady} {e : DataReady} (h : SumsCurrent pre e) :
    LongEnough (stateAt pre) := by
  by_contra hshort
  obtain ⟨hflag, hlast, -⟩ := Reachable.faults (s := stateAt pre) ⟨pre, rfl⟩ hshort
  have hsmall : (stateAt pre).receLen.toNat < 3 := not_le.mp (Classical.not_imp.mp hshort).2
  have hmem : 3 + 65532 ∈ sumRange (stateAt pre) := by
    rw [sumRange, if_pos ⟨hflag, hlast⟩, ofInt_toNat]
    exact List.mem_map.mpr ⟨65532, List.mem_range.mpr (by omega), rfl⟩
  have hlt := (h _ hmem).1
  have hframe : (currentFrame pre e).length ≤ (stateAt pre).index.toNat + 1 := by
    simp only [currentFrame, bytes, List.length_append, List.length_drop, List.length_map,
      List.length_singleton]
    omega
  have hbyte := (stateAt pre).index.toNat_lt
  omega

/-- For every byte stream: the parser forwards genuine frames only, cut out of the stream one
behind the other, and sums only bytes of the frame in hand, exactly when no byte follows a
header with a length below 3. -/
theorem forwards_genuine_iff (es : List DataReady) :
    ForwardsGenuine es ↔ ∀ pre e post, es = pre ++ e :: post → LongEnough (stateAt pre) := by
  constructor
  · exact fun h pre e post heq => (h.sums pre e post heq).longEnough
  · intro h
    have htraced : ∀ pre e post, es = pre ++ e :: post →
        Traced pre (outputs uartEventHandle boot pre) (stateAt pre) := by
      intro pre e post heq
      refine traced pre fun pre' e' post' heq' => h pre' e' (post' ++ e :: post) ?_
      rw [heq, heq', List.append_assoc, List.cons_append]
    obtain ⟨done, cur, hes, hcut, -⟩ := traced es h
    refine ⟨hes ▸ hcut.append cur, fun pre e post heq => ?_⟩
    exact (htraced pre e post heq).sumsCurrent e (h pre e post heq)

/-- A header, the length 0 and one more byte: the sum runs over 65533 bytes behind the four that
have been received. -/
theorem zero_length_sums : ¬ ForwardsGenuine (received [0xAA, 0xAA, 0x00, 0x00]) := by
  intro h
  have hlong := (h.sums (received [0xAA, 0xAA, 0x00]) ⟨0x00, fun _ => 0⟩ [] rfl).longEnough
  exact absurd hlong (by decide)

end BleCar.MyBle.Genuine
