import BleCar.Lib.Runs
import BleCar.MyBle.Reassembly

/-!
# What reassembly reads and writes

`m_recv_large_len` is the third byte of whatever starts a frame. It is compared with 200
and with nothing else, and becomes a count, a rest, a write pointer and the argument
`m_recv_large_len-3` of the checksum.
-/

namespace BleCar.MyBle.Bounds

open BleCar.Lib.ByteSum
open BleCar.Lib.Runs
open BleCar.Lib.Transducer
open BleCar.Protocol.Frames
open BleCar.MyBle.Uart
open BleCar.MyBle.Reassembly

/-- `memcpy(m_recv_data + point, data, n)`, or a checksum of `len` bytes from
`&m_recv_data[3]` on. -/
inductive Access where
  | memcpy (point n : Nat)
  | checksum (len : Nat)
  deriving DecidableEq

/-- The check of a complete frame. -/
def concludeAccesses (s : Receiver) : List Access := [.checksum (s.mRecvLargeLen - 3).toNat]

def takeFullAccesses (s : Receiver) : List Access :=
  if s.recvCount > 0 then [.memcpy s.recvBuffPoint.toNat 20] else []

def takeRestAccesses (s : Receiver) : List Access :=
  [.memcpy s.recvBuffPoint.toNat s.recvSize.toNat]

/-- The accesses of `collect`, branch by branch. -/
def collectAccesses (data : Fin 20 → UInt8) (s : Receiver) : List Access :=
  if s.mRecvFlag = 1 then
    let t := takeFull data s
    takeFullAccesses s ++
      if t.recvCount = 0 ∧ t.recvSize = 0 then concludeAccesses t
      else if t.recvCount = 0 ∧ t.recvSize ≠ 0 then
        if t.mRecvLargeLen > 20 then [] else takeRestAccesses t ++ concludeAccesses t
      else []
  else if s.mRecvFlag = 2 then takeRestAccesses s ++ concludeAccesses s
  else []

/-- The accesses of `my_data_analysis`. -/
def accesses (s : Receiver) (data : Fin 20 → UInt8) : List Access :=
  collectAccesses data (start data s)

/-- Inside the 200 bytes and the 20 of the fragment; inside bytes 3 to `L`. -/
def InBounds (L : Nat) : Access → Prop
  | .memcpy point n => point + n ≤ 200 ∧ n ≤ 20
  | .checksum len => 3 + len ≤ L

instance (L : Nat) : ∀ a, Decidable (InBounds L a)
  | .memcpy _ _ => inferInstanceAs (Decidable (_ ∧ _))
  | .checksum _ => inferInstanceAs (Decidable (_ ≤ _))

/-- Everything `collect` can do, as a function of what lies behind the buffer, with the
accesses made. -/
inductive Collected (data : Fin 20 → UInt8) (s : Receiver) :
    ((Nat → UInt8) → Receiver × List Call) → List Access → Prop where
  | full (h1 : s.mRecvFlag = 1)
      (hc : (takeFull data s).recvCount = 0 ∧ (takeFull data s).recvSize = 0) :
    Collected data s
      (fun o => conclude o ((takeFull data s).mRecvLargeLen - 3) (takeFull data s))
      (takeFullAccesses s ++ concludeAccesses (takeFull data s))
  | last (h1 : s.mRecvFlag = 1)
      (hc : (takeFull data s).recvCount = 0 ∧ (takeFull data s).recvSize ≠ 0)
      (hl : (takeFull data s).mRecvLargeLen > 20) :
    Collected data s (fun _ => ({ takeFull data s with mRecvFlag := 2 }, [])) (takeFullAccesses s)
  | short (h1 : s.mRecvFlag = 1)
      (hc : (takeFull data s).recvCount = 0 ∧ (takeFull data s).recvSize ≠ 0)
      (hl : ¬ (takeFull data s).mRecvLargeLen > 20) :
    Collected data s
      (fun o => conclude o ((takeFull data s).mRecvLargeLen - 4) (takeRest data (takeFull data s)))
      (takeFullAccesses s ++
        (takeRestAccesses (takeFull data s) ++ concludeAccesses (takeFull data s)))
  | more (h1 : s.mRecvFlag = 1) (hc : (takeFull data s).recvCount ≠ 0) :
    Collected data s (fun _ => (takeFull data s, [])) (takeFullAccesses s)
  | rest (h2 : s.mRecvFlag = 2) :
    Collected data s (fun o => conclude o (s.mRecvLargeLen - 4) (takeRest data s))
      (takeRestAccesses s ++ concludeAccesses s)
  | idle (h1 : s.mRecvFlag ≠ 1) (h2 : s.mRecvFlag ≠ 2) : Collected data s (fun _ => (s, [])) []

theorem collect_collected (data : Fin 20 → UInt8) (s : Receiver) :
    Collected data s (fun o => collect ⟨data, o⟩ s) (collectAccesses data s) := by
  unfold collectAccesses
  simp only [collect]
  by_cases h1 : s.mRecvFlag = 1
  · simp only [if_pos h1]
    by_cases hc : (takeFull data s).recvCount = 0
    · by_cases hz : (takeFull data s).recvSize = 0
      · have hfull := And.intro hc hz
        simp only [if_pos hfull]
        exact .full h1 hfull
      · have hrest : (takeFull data s).recvCount = 0 ∧ (takeFull data s).recvSize ≠ 0 := ⟨hc, hz⟩
        have hfull : ¬ ((takeFull data s).recvCount = 0 ∧ (takeFull data s).recvSize = 0) :=
          fun hf => hz hf.2
        simp only [if_neg hfull, if_pos hrest]
        by_cases hl : (takeFull data s).mRecvLargeLen > 20
        · simp only [if_pos hl, List.append_nil]
          exact .last h1 hrest hl
        · simp only [if_neg hl]
          exact .short h1 hrest hl
    · simp only [hc, false_and, if_false, List.append_nil]
      exact .more h1 hc
  · simp only [if_neg h1]
    by_cases h2 : s.mRecvFlag = 2
    · simp only [if_pos h2]
      exact .rest h2
    · simp only [if_neg h2]
      exact .idle h1 h2

/-! ## The accesses are those of the code -/

section

variable {s : Receiver} {data : Fin 20 → UInt8}

theorem takeFull_len (data : Fin 20 → UInt8) (s : Receiver) :
    (takeFull data s).mRecvLargeLen = s.mRecvLargeLen := by
  unfold takeFull
  split <;> rfl

theorem conclude_outside (h200 : s.mRecvLargeLen.toNat ≤ 200)
    (h : ∀ a ∈ concludeAccesses s, InBounds s.mRecvLargeLen.toNat a) (o o' : Nat → UInt8)
    (len : UInt16) : conclude o len s = conclude o' len s := by
  have hlen : 3 + (s.mRecvLargeLen - 3).toNat ≤ s.mRecvLargeLen.toNat :=
    h _ (List.mem_singleton.mpr rfl)
  have hcheck : myCheckCodeAnalysis (fun i => arrayRead o s.mRecvData (3 + i))
      (s.mRecvLargeLen - 3) = myCheckCodeAnalysis (fun i => arrayRead o' s.mRecvData (3 + i))
      (s.mRecvLargeLen - 3) := by
    unfold myCheckCodeAnalysis
    rw [byteSum_congr fun i hi => ?_]
    rw [arrayRead, arrayRead, dif_pos (by omega), dif_pos (by omega)]
  rw [conclude, conclude, hcheck]

/-- With all accesses in bounds the bytes behind the buffer do not matter. -/
theorem collect_outside (h200 : s.mRecvLargeLen.toNat ≤ 200)
    (h : ∀ a ∈ collectAccesses data s, InBounds s.mRecvLargeLen.toNat a) (o o' : Nat → UInt8) :
    collect ⟨data, o⟩ s = collect ⟨data, o'⟩ s := by
  have hc := collect_collected data s
  have hlen := takeFull_len data s
  suffices hout : ∀ out as, Collected data s out as →
      (∀ a ∈ as, InBounds s.mRecvLargeLen.toNat a) → out o = out o' from hout _ _ hc h
  intro out as hc has
  cases hc with
  | full =>
    rw [← hlen] at h200 has
    exact conclude_outside h200 (fun a ha => has a (List.mem_append_right _ ha)) o o' _
  | short =>
    rw [← hlen] at h200 has
    apply conclude_outside (s := takeRest data (takeFull data s)) h200
    exact fun a ha => has a (List.mem_append_right _ (List.mem_append_right _ ha))
  | rest =>
    apply conclude_outside (s := takeRest data s) h200
    exact fun a ha => has a (List.mem_append_right _ ha)
  | _ => rfl

/-- No `memcpy` of the list goes to index `i`. -/
def Untouched (i : Nat) (as : List Access) : Prop :=
  ∀ point n, .memcpy point n ∈ as → ¬ (point ≤ i ∧ i < point + n)

theorem Untouched.left {i : Nat} {as bs : List Access} (h : Untouched i (as ++ bs)) :
    Untouched i as := fun point n hm => h point n (List.mem_append_left bs hm)

theorem Untouched.right {i : Nat} {as bs : List Access} (h : Untouched i (as ++ bs)) :
    Untouched i bs := fun point n hm => h point n (List.mem_append_right as hm)

theorem takeFull_untouched {i : Fin 200} (h : Untouched i (takeFullAccesses s)) :
    (takeFull data s).mRecvData i = s.mRecvData i := by
  unfold takeFullAccesses at h
  unfold takeFull
  split
  case isTrue hpos =>
    rw [if_pos hpos] at h
    exact dif_neg fun hc => h _ _ (List.mem_singleton.mpr rfl) ⟨hc.1, hc.2.1⟩
  case isFalse => rfl

theorem takeRest_untouched {i : Fin 200} (h : Untouched i (takeRestAccesses s)) :
    (takeRest data s).mRecvData i = s.mRecvData i :=
  dif_neg fun hc => h _ _ (List.mem_singleton.mpr rfl) ⟨hc.1, hc.2.1⟩

/-- Where no `memcpy` goes, the buffer keeps its byte. -/
theorem collect_untouched {i : Fin 200} (h : Untouched i (collectAccesses data s))
    (o : Nat → UInt8) : (collect ⟨data, o⟩ s).1.mRecvData i = s.mRecvData i := by
  have hc := collect_collected data s
  suffices hout : ∀ out as, Collected data s out as → Untouched i as →
      (out o).1.mRecvData i = s.mRecvData i from hout _ _ hc h
  intro out as hc has
  cases hc with
  | full => exact takeFull_untouched has.left
  | last => exact takeFull_untouched has
  | short => exact (takeRest_untouched has.right.left).trans (takeFull_untouched has.left)
  | more => exact takeFull_untouched has
  | rest => exact takeRest_untouched has.left
  | idle => rfl

end

/-! ## One fragment -/

/-- Inside a frame of at least three bytes, of which `k` fragments have been taken. -/
structure Counting (k : Nat) (s : Receiver) : Prop where
  flag : s.mRecvFlag = if k < s.mRecvLargeLen.toNat / 20 ∨ k = 0 then 1 else 2
  low : 3 ≤ s.mRecvLargeLen.toNat
  high : s.mRecvLargeLen.toNat ≤ 200
  point : s.recvBuffPoint.toNat = 20 * k
  count : s.recvCount.toNat + k = s.mRecvLargeLen.toNat / 20
  size : s.recvSize.toNat = s.mRecvLargeLen.toNat % 20
  pending : k < fragmentCount s.mRecvLargeLen.toNat

section

variable {s : Receiver} {data : Fin 20 → UInt8} {k : Nat}

/-- The reads of a checksum end with the frame. -/
theorem conclude_inBounds (h : 3 ≤ s.mRecvLargeLen.toNat) :
    ∀ a ∈ concludeAccesses s, InBounds s.mRecvLargeLen.toNat a := by
  intro a ha
  rw [List.mem_singleton.mp ha]
  have hthree : (3 : UInt16) ≤ s.mRecvLargeLen := UInt16.le_iff_toNat_le.mpr h
  have hsub : (s.mRecvLargeLen - 3).toNat = s.mRecvLargeLen.toNat - 3 :=
    UInt16.toNat_sub_of_le _ _ hthree
  change 3 + (s.mRecvLargeLen - 3).toNat ≤ _
  omega

/-- Below three bytes the length of the checksum wraps around. -/
theorem conclude_wraps (h : s.mRecvLargeLen.toNat < 3) :
    ¬ ∀ a ∈ concludeAccesses s, InBounds s.mRecvLargeLen.toNat a := by
  intro hall
  have hin : 3 + (s.mRecvLargeLen - 3).toNat ≤ s.mRecvLargeLen.toNat :=
    hall _ (List.mem_singleton.mpr rfl)
  omega

/-- The rest goes behind the full fragments. -/
theorem takeRest_inBounds {L : Nat} (h200 : L ≤ 200)
    (hpoint : s.recvBuffPoint.toNat = 20 * (L / 20)) (hsize : s.recvSize.toNat = L % 20) :
    ∀ a ∈ takeRestAccesses s, InBounds L a := by
  intro a ha
  rw [List.mem_singleton.mp ha]
  change s.recvBuffPoint.toNat + s.recvSize.toNat ≤ 200 ∧ s.recvSize.toNat ≤ 20
  omega

theorem Counting.ne_zero (h : Counting k s) : s.mRecvFlag ≠ 0 := by
  rw [h.flag]
  split <;> decide

/-- In state 1 a full fragment is due, or the frame has none. -/
theorem Counting.of_one (h : Counting k s) (h1 : s.mRecvFlag = 1) :
    k < s.mRecvLargeLen.toNat / 20 ∨ k = 0 := by
  by_contra hk
  have htwo := h.flag
  rw [if_neg hk, h1] at htwo
  exact absurd htwo (by decide)

/-- In state 2 all full fragments have been taken. -/
theorem Counting.of_two (h : Counting k s) (h2 : s.mRecvFlag = 2) :
    k = s.mRecvLargeLen.toNat / 20 := by
  have hcount := h.count
  have hone := h.flag
  by_cases hk : k < s.mRecvLargeLen.toNat / 20
  · rw [if_pos (.inl hk), h2] at hone
    exact absurd hone (by decide)
  · omega

theorem Counting.takeFull_inBounds (h : Counting k s) :
    ∀ a ∈ takeFullAccesses s, InBounds s.mRecvLargeLen.toNat a := by
  have hhigh := h.high
  have hpoint := h.point
  have hcount := h.count
  intro a ha
  unfold takeFullAccesses at ha
  split at ha
  case isTrue hpos =>
    rw [List.mem_singleton.mp ha]
    rw [gt_iff_lt, UInt8.lt_iff_toNat_lt, UInt8.toNat_zero] at hpos
    change s.recvBuffPoint.toNat + 20 ≤ 200 ∧ 20 ≤ 20
    omega
  case isFalse => exact absurd ha List.not_mem_nil

/-- A full fragment moves the pointer on, while one is due. -/
theorem Counting.full_spec (h : Counting k s) (data : Fin 20 → UInt8) :
    (takeFull data s).mRecvFlag = s.mRecvFlag ∧
      (takeFull data s).recvSize = s.recvSize ∧
      if k < s.mRecvLargeLen.toNat / 20 then
        (takeFull data s).recvBuffPoint.toNat = 20 * (k + 1) ∧
          (takeFull data s).recvCount.toNat + (k + 1) = s.mRecvLargeLen.toNat / 20
      else (takeFull data s).recvBuffPoint.toNat = 20 * k ∧
        (takeFull data s).recvCount.toNat = 0 := by
  have hhigh := h.high
  have hpoint := h.point
  have hcount := h.count
  by_cases hdue : s.recvCount.toNat = 0
  · rw [takeFull_none data hdue, if_neg (by omega)]
    exact ⟨rfl, rfl, hpoint, hdue⟩
  · obtain ⟨t, heq, hflag, -, -, hpoint', hcount', hsize⟩ := takeFull_due data hdue (by omega)
    rw [heq, if_pos (by omega)]
    exact ⟨hflag, hsize, by omega, by omega⟩

/-- A fragment inside a frame: all accesses are in bounds, and the frame is over or one
fragment nearer to its end. -/
theorem Counting.step (h : Counting k s) (data : Fin 20 → UInt8) (o : Nat → UInt8) :
    (∀ a ∈ collectAccesses data s, InBounds s.mRecvLargeLen.toNat a) ∧
      ((collect ⟨data, o⟩ s).1.mRecvFlag = 0 ∨ Counting (k + 1) (collect ⟨data, o⟩ s).1) := by
  have hc := collect_collected data s
  have hlen := takeFull_len data s
  obtain ⟨hflag, hsize, hfull⟩ := h.full_spec data
  have hin := h.takeFull_inBounds
  have hcheck := conclude_inBounds h.low
  have hcheck' : ∀ a ∈ concludeAccesses (takeFull data s), InBounds s.mRecvLargeLen.toNat a :=
    hlen ▸ conclude_inBounds (hlen ▸ h.low)
  have hpend := h.pending
  unfold fragmentCount at hpend
  suffices hout : ∀ out as, Collected data s out as →
      (∀ a ∈ as, InBounds s.mRecvLargeLen.toNat a) ∧
        ((out o).1.mRecvFlag = 0 ∨ Counting (k + 1) (out o).1) from hout _ _ hc
  intro out as hc
  cases hc with
  | full => exact ⟨List.forall_mem_append.mpr ⟨hin, hcheck'⟩, .inl rfl⟩
  | last h1 hz hl =>
    have hzero := eq_zero_iff.mp hz.1
    have hrest : s.recvSize.toNat ≠ 0 := fun hs => hz.2 (hsize.trans (eq_zero_iff.mpr hs))
    rw [h.size] at hrest
    rw [gt_iff_lt, UInt16.lt_iff_toNat_lt, hlen, show (20 : UInt16).toNat = 20 from rfl] at hl
    have hk : k < s.mRecvLargeLen.toNat / 20 := by
      rcases h.of_one h1 with hk | rfl
      · exact hk
      · omega
    rw [if_pos hk] at hfull
    refine ⟨hin, .inr ⟨?_, hlen ▸ h.low, hlen ▸ h.high, hfull.1, hlen ▸ hfull.2, ?_, ?_⟩⟩
    · rw [hlen, if_neg (by omega)]
    · rw [hlen]
      exact (congrArg UInt8.toNat hsize).trans h.size
    · rw [hlen, fragmentCount]
      omega
  | short h1 hz hl =>
    rw [gt_iff_lt, UInt16.lt_iff_toNat_lt, hlen, show (20 : UInt16).toNat = 20 from rfl] at hl
    have hrest : s.recvSize.toNat ≠ 0 := fun hs => hz.2 (hsize.trans (eq_zero_iff.mpr hs))
    rw [h.size] at hrest
    have hk : k = s.mRecvLargeLen.toNat / 20 := by
      rcases h.of_one h1 with hk | rfl
      · omega
      · omega
    rw [if_neg (by omega)] at hfull
    refine ⟨List.forall_mem_append.mpr ⟨hin, List.forall_mem_append.mpr ⟨?_, hcheck'⟩⟩, .inl rfl⟩
    exact takeRest_inBounds h.high (hk ▸ hfull.1) ((congrArg UInt8.toNat hsize).trans h.size)
  | more h1 hz =>
    have hne : (takeFull data s).recvCount.toNat ≠ 0 := mt eq_zero_iff.mpr hz
    have hk : k < s.mRecvLargeLen.toNat / 20 := by
      by_contra hk
      rw [if_neg hk] at hfull
      exact hne hfull.2
    rw [if_pos hk] at hfull
    refine ⟨hin, .inr ⟨?_, hlen ▸ h.low, hlen ▸ h.high, hfull.1, hlen ▸ hfull.2, ?_, ?_⟩⟩
    · rw [hlen, if_pos (.inl (by omega)), hflag, h1]
    · rw [hlen]
      exact (congrArg UInt8.toNat hsize).trans h.size
    · rw [hlen, fragmentCount]
      omega
  | rest h2 =>
    have hk := h.of_two h2
    refine ⟨List.forall_mem_append.mpr ⟨?_, hcheck⟩, .inl rfl⟩
    exact takeRest_inBounds h.high (hk ▸ h.point) h.size
  | idle h1 h2 =>
    have hflag := h.flag
    split at hflag
    · exact absurd hflag h1
    · exact absurd hflag h2

theorem start_counting (hs : s.mRecvFlag = 0) (h : Starts data) (h3 : 3 ≤ declaredLen data) :
    Counting 0 (start data s) := by
  have hlen : (declaredLen data).toUInt16.toNat = (declaredLen data).toNat :=
    UInt8.toNat_toUInt16 _
  have hhigh := UInt16.le_iff_toNat_le.mp h.2.2
  have hlow := UInt8.le_iff_toNat_le.mp h3
  rw [hlen, show (200 : UInt16).toNat = 200 from rfl] at hhigh
  rw [show (3 : UInt8).toNat = 3 from rfl] at hlow
  obtain ⟨hcount, hsize⟩ := count_rest hlen hhigh
  rw [start_some hs h]
  refine ⟨by simp, by rw [hlen]; exact hlow, by rw [hlen]; exact hhigh, rfl, ?_, ?_, ?_⟩
  · rw [hlen]
    exact hcount
  · rw [hlen]
    exact hsize
  · rw [fragmentCount, hlen]
    omega

/-- A frame that declares less than three bytes is checked at once, with a length that wraps
around. -/
theorem start_wraps (hs : s.mRecvFlag = 0) (h : Starts data) (h3 : ¬ 3 ≤ declaredLen data) :
    ¬ ∀ a ∈ accesses s data, InBounds (start data s).mRecvLargeLen.toNat a := by
  intro hall
  have hlen : (declaredLen data).toUInt16.toNat = (declaredLen data).toNat := UInt8.toNat_toUInt16 _
  rw [UInt8.le_iff_toNat_le, show (3 : UInt8).toNat = 3 from rfl] at h3
  have hstart := start_some hs h
  have hc := collect_collected data (start data s)
  unfold accesses at hall
  have hone : (start data s).mRecvFlag = 1 := by rw [hstart]
  have hshort : (start data s).mRecvLargeLen.toNat < 3 := by
    rw [hstart]
    exact hlen.trans_lt (by omega)
  have hnone : (start data s).recvCount = 0 := by
    rw [hstart]
    apply eq_zero_iff.mpr
    rw [(count_rest hlen (by omega)).1]
    omega
  generalize start data s = t at *
  have hfull : takeFull data t = t := takeFull_none data (eq_zero_iff.mp hnone)
  suffices hout : ∀ out as, Collected data t out as →
      ∀ a ∈ concludeAccesses t, a ∈ as from
    conclude_wraps hshort fun a ha => hall a (hout _ _ hc a ha)
  intro out as hc a ha
  cases hc with
  | full =>
    rw [hfull]
    exact List.mem_append_right _ ha
  | last h1 hz hl =>
    rw [hfull, gt_iff_lt, UInt16.lt_iff_toNat_lt, show (20 : UInt16).toNat = 20 from rfl] at hl
    omega
  | short =>
    rw [hfull]
    exact List.mem_append_right _ (List.mem_append_right _ ha)
  | more h1 hz => exact absurd hnone (hfull ▸ hz)
  | rest h2 => exact absurd (hone.symm.trans h2) (by decide)
  | idle h1 => exact absurd hone h1

end

/-! ## All fragments -/

/-- The receiver, and how many fragments of the current frame it has taken. -/
structure Tracked where
  receiver : Receiver
  taken : Nat

/-- A fragment between frames may be the first of one. -/
def step (s : Tracked) (e : Fragment) : Option Tracked :=
  some ⟨(myDataAnalysis s.receiver e).1, if s.receiver.mRecvFlag = 0 then 1 else s.taken + 1⟩

def trackedBoot : Tracked := ⟨boot, 0⟩

/-- Every `memcpy` stays inside `m_recv_data`, every checksum inside bytes 3 to L. -/
def AccessesInBounds (s : Tracked) (e : Fragment) : Prop :=
  ∀ a ∈ accesses s.receiver e.data, InBounds (start e.data s.receiver).mRecvLargeLen.toNat a

/-- Once the fragments of the declared length have been taken, the receiver is between
frames. -/
def Returns (s : Tracked) : Prop :=
  fragmentCount s.receiver.mRecvLargeLen.toNat ≤ s.taken → s.receiver.mRecvFlag = 0

/-- What starts a frame declares the three bytes of its header at least. -/
def DeclaresHeader (s : Tracked) (e : Fragment) : Prop :=
  s.receiver.mRecvFlag = 0 → Starts e.data → 3 ≤ declaredLen e.data

instance (s : Tracked) (e : Fragment) : Decidable (DeclaresHeader s e) :=
  inferInstanceAs (Decidable (_ → _))

/-- Between frames, or inside one with the fragments counted right. -/
def Tracks (s : Tracked) : Prop :=
  s.receiver.mRecvFlag = 0 ∨ Counting s.taken s.receiver

theorem Tracks.returns {s : Tracked} (h : Tracks s) : Returns s := by
  intro hle
  rcases h with hz | hc
  · exact hz
  · exact absurd hc.pending (Nat.not_lt.mpr hle)

/-- Past `start` the receiver is between frames, or in one whose fragments are counted right. -/
theorem Tracks.entered {s : Tracked} {e : Fragment} (hs : Tracks s) (h : DeclaresHeader s e) :
    (start e.data s.receiver).mRecvFlag = 0 ∨
      ∃ k, Counting k (start e.data s.receiver) ∧
        (if s.receiver.mRecvFlag = 0 then 1 else s.taken + 1) = k + 1 := by
  rcases hs with hz | hc
  · by_cases hst : Starts e.data
    · exact .inr ⟨0, start_counting hz hst (h hz hst), if_pos hz⟩
    · rw [start_none hz hst]
      exact .inl hz
  · rw [start_skip e.data hc.ne_zero]
    exact .inr ⟨s.taken, hc, if_neg hc.ne_zero⟩

theorem collectAccesses_idle {s : Receiver} (hs : s.mRecvFlag = 0) (data : Fin 20 → UInt8) :
    collectAccesses data s = [] := by
  rw [collectAccesses, hs, if_neg (by decide), if_neg (by decide)]

theorem Tracks.inBounds {s : Tracked} {e : Fragment} (hs : Tracks s) (h : DeclaresHeader s e) :
    AccessesInBounds s e := by
  unfold AccessesInBounds accesses
  rcases hs.entered h with hidle | ⟨k, hc, -⟩
  · rw [collectAccesses_idle hidle]
    exact fun a ha => absurd ha List.not_mem_nil
  · exact (hc.step e.data e.outside).1

/-- What lies behind the buffer does not matter. -/
theorem Tracks.outside {s : Tracked} {e : Fragment} (hs : Tracks s) (h : DeclaresHeader s e)
    (o : Nat → UInt8) : myDataAnalysis s.receiver e = myDataAnalysis s.receiver ⟨e.data, o⟩ := by
  unfold myDataAnalysis
  rcases hs.entered h with hidle | ⟨k, hc, -⟩
  · rw [collect_idle e hidle, collect_idle _ hidle]
  · exact collect_outside hc.high (hc.step e.data o).1 e.outside o

theorem Tracks.next {s : Tracked} {e : Fragment} (hs : Tracks s) (h : DeclaresHeader s e) :
    Tracks ⟨(myDataAnalysis s.receiver e).1,
      if s.receiver.mRecvFlag = 0 then 1 else s.taken + 1⟩ := by
  unfold myDataAnalysis
  rcases hs.entered h with hidle | ⟨k, hc, htaken⟩
  · rw [collect_idle e hidle]
    exact .inl hidle
  · rw [htaken]
    exact (hc.step e.data e.outside).2

theorem tracked_step (s : Tracked) (e : Fragment) (hs : Tracks s) :
    ∃ t, step s e = some t ∧ (AccessesInBounds s e ∧ Returns t ↔ DeclaresHeader s e) ∧
      (DeclaresHeader s e → Tracks t) := by
  refine ⟨_, rfl, ⟨fun h hz hst => ?_, fun h => ⟨hs.inBounds h, (hs.next h).returns⟩⟩, hs.next⟩
  by_contra h3
  exact start_wraps hz hst h3 h.1

/-- Without such a frame the calls made do not depend on the memory behind the buffer. -/
theorem outputs_outside {s : Tracked} (hs : Tracks s) (es : List Fragment)
    (h : Along step DeclaresHeader s es) (o : Nat → UInt8) :
    outputs myDataAnalysis s.receiver es =
      outputs myDataAnalysis s.receiver (es.map fun e => ⟨e.data, o⟩) := by
  induction es generalizing s with
  | nil => rfl
  | cons e es ih =>
    have hrest := ih (hs.next h.1) (h.2 _ rfl)
    rw [List.map_cons, outputs_cons, outputs_cons, ← hs.outside h.1 o]
    exact congrArg _ hrest

theorem inBounds_along {s : Tracked} (hs : Tracks s) {es : List Fragment}
    (h : Along step DeclaresHeader s es) : Along step AccessesInBounds s es := by
  induction es generalizing s with
  | nil => trivial
  | cons e es ih =>
    exact ⟨hs.inBounds h.1, fun t ht => ih (Option.some.inj ht ▸ hs.next h.1) (h.2 t ht)⟩

theorem run_receiver {s t : Tracked} {es : List Fragment} (h : run step s es = some t) :
    t.receiver = after myDataAnalysis s.receiver es := by
  induction es generalizing s with
  | nil => exact Option.some.inj h ▸ rfl
  | cons e es ih => exact ih h

/-- Reassembly stays inside its buffer and inside the frame, and returns in time, exactly when
no frame is started that declares less than its header. -/
theorem in_bounds_iff (es : List Fragment) :
    Along step AccessesInBounds trackedBoot es ∧ Always step Returns trackedBoot es ↔
      Along step DeclaresHeader trackedBoot es :=
  along_always_iff_along (A := fun _ _ => True) (fun _ => Tracks.returns)
    (fun s e hs _ => tracked_step s e hs) (.inl rfl) (along_true step trackedBoot es)

/-- AA AA 00: the checksum is asked for 65533 bytes. -/
def emptyFrame : Fragment := ⟨fun i => if i.val < 2 then 0xAA else 0, fun _ => 0⟩

theorem empty_frame_overreads :
    accesses boot emptyFrame.data = [.checksum 65533] ∧
      ¬ (Along step AccessesInBounds trackedBoot [emptyFrame] ∧
        Always step Returns trackedBoot [emptyFrame]) := by
  refine ⟨by decide, fun h => ?_⟩
  exact start_wraps (s := boot) rfl (by decide) (by decide) h.1.1

end BleCar.MyBle.Bounds
