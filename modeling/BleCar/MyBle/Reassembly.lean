import BleCar.MyBle.Uart

/-!
# Frames from fragments

`my_data_analysis` puts a frame of up to 200 bytes together from fragments of 20. It
counts the full fragments down and keeps the size of the rest; a frame that ends with a
full fragment, one shorter than a fragment and one with a rest each end in a branch of
their own.
-/

namespace BleCar.MyBle.Reassembly

open BleCar.Lib.ByteSum
open BleCar.Lib.Transducer
open BleCar.Protocol.Frames
open BleCar.MyBle.Uart

/-- `m_recv_flag`, `m_recv_large_len`, `m_recv_data` and the static variables. -/
structure Receiver where
  mRecvFlag : UInt8
  mRecvLargeLen : UInt16
  mRecvData : Fin 200 → UInt8
  recvBuffPoint : UInt16
  recvCount : UInt8
  recvSize : UInt8

/-- A fragment, and what reads behind `m_recv_data` find while it is handled. -/
structure Fragment where
  data : Fin 20 → UInt8
  outside : Nat → UInt8

/-- `my_com_recv_handler(&m_recv_data[3], len)` with the buffer of that moment, or the error
reply `my_data_pack_app(0xB1)`. -/
inductive Call where
  | myComRecvHandler (mRecvData : Fin 200 → UInt8) (len : UInt16)
  | packB1

/-- `memcpy(m_recv_data + point, data, n)`. -/
def copyFragment (mRecvData : Fin 200 → UInt8) (point n : Nat) (data : Fin 20 → UInt8) :
    Fin 200 → UInt8 :=
  fun i => if h : point ≤ i.val ∧ i.val < point + n ∧ i.val - point < 20 then
    data ⟨i.val - point, h.2.2⟩ else mRecvData i

/-- The part for `m_recv_flag == 0`. -/
def start (data : Fin 20 → UInt8) (s : Receiver) : Receiver :=
  if s.mRecvFlag = 0 then
    let s := { s with mRecvLargeLen := (data 2).toUInt16 }
    if data 0 = 0xAA ∧ data 1 = 0xAA ∧ s.mRecvLargeLen ≤ 200 then
      { s with
        mRecvFlag := 1
        mRecvData := fun _ => 0
        recvCount := (s.mRecvLargeLen / 20).toUInt8
        recvBuffPoint := 0
        recvSize := (s.mRecvLargeLen % 20).toUInt8 }
    else s
  else s

/-- The length a frame declares. -/
def declaredLen (data : Fin 20 → UInt8) : UInt8 := data 2

/-- The fragment starts a frame when it comes between frames. -/
def Starts (data : Fin 20 → UInt8) : Prop :=
  data 0 = 0xAA ∧ data 1 = 0xAA ∧ (declaredLen data).toUInt16 ≤ 200

instance (data : Fin 20 → UInt8) : Decidable (Starts data) := inferInstanceAs (Decidable (_ ∧ _))

/-- The check of a complete frame; the three branches pass on different lengths. -/
def conclude (outside : Nat → UInt8) (len : UInt16) (s : Receiver) : Receiver × List Call :=
  let error := myCheckCodeAnalysis (fun i => arrayRead outside s.mRecvData (3 + i))
    (s.mRecvLargeLen - 3)
  ({ s with mRecvFlag := 0 },
    if error = 0 then [.myComRecvHandler s.mRecvData len] else [.packB1])

/-- A full fragment, while one is due. -/
def takeFull (data : Fin 20 → UInt8) (s : Receiver) : Receiver :=
  if s.recvCount > 0 then
    { s with
      mRecvData := copyFragment s.mRecvData s.recvBuffPoint.toNat 20 data
      recvCount := s.recvCount - 1
      recvBuffPoint := s.recvBuffPoint + 20 }
  else s

/-- The rest of the frame. -/
def takeRest (data : Fin 20 → UInt8) (s : Receiver) : Receiver :=
  { s with mRecvData := copyFragment s.mRecvData s.recvBuffPoint.toNat s.recvSize.toNat data }

/-- The part for `m_recv_flag` 1 and 2. -/
def collect (e : Fragment) (s : Receiver) : Receiver × List Call :=
  if s.mRecvFlag = 1 then
    let s := takeFull e.data s
    if s.recvCount = 0 ∧ s.recvSize = 0 then conclude e.outside (s.mRecvLargeLen - 3) s
    else if s.recvCount = 0 ∧ s.recvSize ≠ 0 then
      if s.mRecvLargeLen > 20 then ({ s with mRecvFlag := 2 }, [])
      else conclude e.outside (s.mRecvLargeLen - 4) (takeRest e.data s)
    else (s, [])
  else if s.mRecvFlag = 2 then
    conclude e.outside (s.mRecvLargeLen - 4) (takeRest e.data s)
  else (s, [])

def myDataAnalysis (s : Receiver) (e : Fragment) : Receiver × List Call :=
  collect e (start e.data s)

/-! ## Cutting a frame -/

/-- The fragments of a frame of `L` bytes. -/
def fragmentCount (L : Nat) : Nat := (L + 19) / 20

/-- Fragment `k` of `f`; the last one is padded with zeros. -/
def chunk (f : List UInt8) (k : Nat) : Fin 20 → UInt8 := fun i => bytesAt f (20 * k + i.val)

/-- A frame, or a fragment that comes between frames. -/
inductive Item where
  | frame (f : List UInt8) (outside : Nat → Nat → UInt8)
  | noise (e : Fragment)

def fragments : Item → List Fragment
  | .frame f outside => (List.range (fragmentCount f.length)).map fun k => ⟨chunk f k, outside k⟩
  | .noise e => [e]

/-- A frame that can be sent, or a fragment that does not start one. -/
def Proper : Item → Prop
  | .frame f _ => WellFormed f ∧ 4 ≤ f.length ∧ f.length ≤ 200
  | .noise e => ¬ (e.data 0 = 0xAA ∧ e.data 1 = 0xAA) ∨ e.data 2 > 200

/-- The length passed on, which counts the check code of a frame without rest. -/
def handlerLen (f : List UInt8) : UInt16 :=
  if f.length % 20 = 0 then UInt16.ofNat (f.length - 3) else UInt16.ofNat (f.length - 4)

/-- The buffer with `n` bytes of `f` at its start and zeros behind. -/
def filled (f : List UInt8) (n : Nat) : Fin 200 → UInt8 :=
  fun i => if i.val < n then bytesAt f i.val else 0

/-- The calls a frame gives rise to: one. -/
def calls : Item → List Call
  | .frame f _ => [.myComRecvHandler (filled f f.length) (handlerLen f)]
  | .noise _ => []

theorem copyFragment_filled {f : List UInt8} {k n : Nat} (h : n ≤ 20) :
    copyFragment (filled f (20 * k)) (20 * k) n (chunk f k) = filled f (20 * k + n) := by
  funext i
  unfold copyFragment filled chunk
  by_cases hlt : i.val < 20 * k
  · rw [dif_neg (by omega), if_pos hlt, if_pos (by omega)]
  · by_cases hin : i.val < 20 * k + n
    · rw [dif_pos (by omega), if_pos hin]
      congr 1
      simp only
      omega
    · rw [dif_neg (by omega), if_neg hlt, if_neg hin]

/-- `k` fragments of `f` have been taken, and another follows. -/
structure Ready (f : List UInt8) (k : Nat) (s : Receiver) : Prop where
  flag : s.mRecvFlag = if k < f.length / 20 ∨ k = 0 then 1 else 2
  len : s.mRecvLargeLen.toNat = f.length
  data : s.mRecvData = filled f (20 * k)
  point : s.recvBuffPoint.toNat = 20 * k
  count : s.recvCount.toNat + k = f.length / 20
  size : s.recvSize.toNat = f.length % 20

theorem eq_zero_iff {x : UInt8} : x = 0 ↔ x.toNat = 0 := by
  constructor
  · rintro rfl
    rfl
  · exact fun h => UInt8.toNat_inj.mp h

variable {f : List UInt8} {s : Receiver} {k : Nat}

theorem Ready.flag_ne (h : Ready f k s) : s.mRecvFlag ≠ 0 := by
  rw [h.flag]
  split <;> decide

theorem start_skip (data : Fin 20 → UInt8) (h : s.mRecvFlag ≠ 0) : start data s = s := if_neg h

/-- Between frames, a fragment that starts none leaves nothing but its length byte. -/
theorem start_none {data : Fin 20 → UInt8} (hs : s.mRecvFlag = 0) (h : ¬ Starts data) :
    start data s = { s with mRecvLargeLen := (declaredLen data).toUInt16 } :=
  (if_pos hs).trans (if_neg h)

/-- The state in which a frame of the declared length begins. -/
theorem start_some {data : Fin 20 → UInt8} (hs : s.mRecvFlag = 0) (h : Starts data) :
    start data s =
      { s with
        mRecvFlag := 1
        mRecvLargeLen := (declaredLen data).toUInt16
        mRecvData := fun _ => 0
        recvCount := ((declaredLen data).toUInt16 / 20).toUInt8
        recvBuffPoint := 0
        recvSize := ((declaredLen data).toUInt16 % 20).toUInt8 } :=
  (if_pos hs).trans (if_pos h)

/-- The count and the rest of a declared length. -/
theorem count_rest {L : UInt16} {n : Nat} (h : L.toNat = n) (h200 : n ≤ 200) :
    (L / 20).toUInt8.toNat = n / 20 ∧ (L % 20).toUInt8.toNat = n % 20 := by
  constructor
  · simp only [UInt16.toNat_toUInt8, UInt16.toNat_div, h]
    simp
    omega
  · simp only [UInt16.toNat_toUInt8, UInt16.toNat_mod, h]
    simp
    omega

/-- The first fragment of a frame. -/
theorem start_frame (hw : WellFormed f) (h200 : f.length ≤ 200) (hs : s.mRecvFlag = 0) :
    Ready f 0 (start (chunk f 0) s) := by
  have hlen : (declaredLen (chunk f 0)).toUInt16.toNat = f.length := by
    rw [UInt8.toNat_toUInt16]
    exact hw.length
  have hgo : Starts (chunk f 0) := by
    refine ⟨hw.header0, hw.header1, ?_⟩
    rw [UInt16.le_iff_toNat_le]
    exact hlen.trans_le h200
  obtain ⟨hcount, hsize⟩ := count_rest hlen h200
  rw [start_some hs hgo]
  exact ⟨by simp, hlen, rfl, rfl, hcount, hsize⟩

/-- A full fragment that is due moves pointer and count on. -/
theorem takeFull_due (data : Fin 20 → UInt8) (h : s.recvCount.toNat ≠ 0)
    (hp : s.recvBuffPoint.toNat ≤ 200) :
    ∃ t, takeFull data s = t ∧ t.mRecvFlag = s.mRecvFlag ∧ t.mRecvLargeLen = s.mRecvLargeLen ∧
      t.mRecvData = copyFragment s.mRecvData s.recvBuffPoint.toNat 20 data ∧
      t.recvBuffPoint.toNat = s.recvBuffPoint.toNat + 20 ∧
      t.recvCount.toNat + 1 = s.recvCount.toNat ∧ t.recvSize = s.recvSize := by
  have hpos : s.recvCount > 0 := by
    rw [gt_iff_lt, UInt8.lt_iff_toNat_lt, UInt8.toNat_zero]
    omega
  have hone : (1 : UInt8) ≤ s.recvCount := by
    rw [UInt8.le_iff_toNat_le, UInt8.toNat_one]
    omega
  refine ⟨_, if_pos hpos, rfl, rfl, rfl, ?_, ?_, rfl⟩
  · rw [UInt16.toNat_add, show (20 : UInt16).toNat = 20 from rfl]
    omega
  · rw [UInt8.toNat_sub_of_le _ _ hone, UInt8.toNat_one]
    omega

theorem takeFull_none (data : Fin 20 → UInt8) (h : s.recvCount.toNat = 0) :
    takeFull data s = s :=
  if_neg (by rw [eq_zero_iff.mpr h]; decide)

/-- A full fragment goes behind those before it. -/
theorem Ready.takeFull (h : Ready f k s) (h200 : f.length ≤ 200) (hk : k < f.length / 20) :
    (takeFull (chunk f k) s).mRecvFlag = 1 ∧
      (takeFull (chunk f k) s).mRecvLargeLen.toNat = f.length ∧
      (takeFull (chunk f k) s).mRecvData = filled f (20 * (k + 1)) ∧
      (takeFull (chunk f k) s).recvBuffPoint.toNat = 20 * (k + 1) ∧
      (takeFull (chunk f k) s).recvCount.toNat + (k + 1) = f.length / 20 ∧
      (takeFull (chunk f k) s).recvSize.toNat = f.length % 20 := by
  have hcount := h.count
  have hpoint := h.point
  obtain ⟨t, heq, hflag, hlen, hdata, hpoint', hcount', hsize⟩ :=
    takeFull_due (chunk f k) (show s.recvCount.toNat ≠ 0 by omega) (by omega)
  rw [heq]
  refine ⟨?_, hlen ▸ h.len, ?_, by omega, by omega, hsize ▸ h.size⟩
  · rw [hflag, h.flag, if_pos (.inl hk)]
  · rw [hdata, h.data, hpoint, copyFragment_filled (Nat.le_refl 20)]
    rfl

/-- The rest of a frame. -/
theorem Ready.takeRest (h : Ready f k s) (hk : k = f.length / 20) :
    (takeRest (chunk f k) s).mRecvLargeLen.toNat = f.length ∧
      (takeRest (chunk f k) s).mRecvData = filled f f.length := by
  refine ⟨h.len, ?_⟩
  have hmod := Nat.mod_lt f.length (show 0 < 20 by decide)
  simp only [Reassembly.takeRest]
  rw [h.data, h.point, h.size, copyFragment_filled (by omega)]
  congr 1
  omega

/-- The check passes on the whole frame. -/
theorem conclude_frame (hw : WellFormed f) (h4 : 4 ≤ f.length) (h200 : f.length ≤ 200)
    (outside : Nat → UInt8) (len : UInt16) (hlen : s.mRecvLargeLen.toNat = f.length)
    (hdata : s.mRecvData = filled f f.length) :
    conclude outside len s =
      ({ s with mRecvFlag := 0 }, [.myComRecvHandler (filled f f.length) len]) := by
  have hsub : (s.mRecvLargeLen - 3).toNat = f.length - 3 := by
    rw [UInt16.toNat_sub_of_le, hlen]
    · rfl
    · rw [UInt16.le_iff_toNat_le, hlen]
      exact Nat.le_trans (by decide) h4
  have hcheck : myCheckCodeAnalysis (fun i => arrayRead outside s.mRecvData (3 + i))
      (s.mRecvLargeLen - 3) = 0 := by
    rw [myCheckCodeAnalysis_eq_zero, hsub, ← hw.checksum]
    refine byteSum_congr fun i hi => ?_
    rw [arrayRead, dif_pos (by omega), hdata]
    exact if_pos (by simp only; omega)
  rw [hdata] at hcheck
  simp only [conclude, hdata, hcheck, if_true]

theorem len_sub (hlen : s.mRecvLargeLen.toNat = f.length) {c : UInt16} (hc : c.toNat ≤ f.length) :
    s.mRecvLargeLen - c = UInt16.ofNat (f.length - c.toNat) := by
  have hlt := s.mRecvLargeLen.toNat_lt
  apply UInt16.toNat_inj.mp
  rw [UInt16.toNat_sub_of_le, hlen, UInt16.toNat_ofNat_of_lt' (by rw [UInt16.size]; omega)]
  rw [UInt16.le_iff_toNat_le, hlen]
  exact hc

/-- A fragment with another to follow. -/
theorem Ready.more (h : Ready f k s) (h200 : f.length ≤ 200)
    (hk : k + 1 < fragmentCount f.length) {e : Fragment} (he : e.data = chunk f k) :
    Ready f (k + 1) (collect e s).1 ∧ (collect e s).2 = [] := by
  unfold fragmentCount at hk
  obtain ⟨hflag, hlen, hdata, hpoint, hcount, hsize⟩ := h.takeFull h200 (by omega)
  have hone : s.mRecvFlag = 1 := by rw [h.flag, if_pos (.inl (by omega))]
  simp only [collect, he]
  rw [if_pos hone]
  generalize Reassembly.takeFull (chunk f k) s = t at *
  by_cases hlast : k + 1 = f.length / 20
  · have hzero : t.recvCount = 0 := eq_zero_iff.mpr (by omega)
    have hrest : t.recvSize ≠ 0 := mt eq_zero_iff.mp (by omega)
    have hlong : t.mRecvLargeLen > 20 := by
      have hmod : f.length % 20 ≠ 0 := fun hz => hrest (eq_zero_iff.mpr (hsize.trans hz))
      rw [gt_iff_lt, UInt16.lt_iff_toNat_lt, hlen, show (20 : UInt16).toNat = 20 from rfl]
      omega
    rw [if_neg fun hc => hrest hc.2, if_pos ⟨hzero, hrest⟩, if_pos hlong]
    refine ⟨⟨?_, hlen, hdata, hpoint, hcount, hsize⟩, rfl⟩
    rw [if_neg (by omega)]
  · have hmore : t.recvCount ≠ 0 := mt eq_zero_iff.mp (by omega)
    rw [if_neg fun hc => hmore hc.1, if_neg fun hc => hmore hc.1]
    refine ⟨⟨?_, hlen, hdata, hpoint, hcount, hsize⟩, rfl⟩
    rw [if_pos (.inl (by omega)), hflag]

/-- The frame ends with a full fragment. -/
theorem Ready.last_full (h : Ready f k s) (hw : WellFormed f) (h4 : 4 ≤ f.length)
    (h200 : f.length ≤ 200) (hk : 20 * (k + 1) = f.length) {e : Fragment}
    (he : e.data = chunk f k) :
    (collect e s).1.mRecvFlag = 0 ∧
      (collect e s).2 = [.myComRecvHandler (filled f f.length) (handlerLen f)] := by
  obtain ⟨hflag, hlen, hdata, -, hcount, hsize⟩ := h.takeFull h200 (by omega)
  have hone : s.mRecvFlag = 1 := by rw [h.flag, if_pos (.inl (by omega))]
  have hhandler : handlerLen f = UInt16.ofNat (f.length - 3) := if_pos (by omega)
  rw [hk] at hdata
  simp only [collect, he]
  rw [if_pos hone]
  generalize Reassembly.takeFull (chunk f k) s = t at *
  have hdone : t.recvCount = 0 ∧ t.recvSize = 0 := by
    constructor
    · exact eq_zero_iff.mpr (by omega)
    · exact eq_zero_iff.mpr (by omega)
  rw [if_pos hdone, conclude_frame hw h4 h200 _ _ hlen hdata, hhandler,
    len_sub hlen (show (3 : UInt16).toNat ≤ _ by simp; omega)]
  exact ⟨rfl, rfl⟩

/-- The check of a frame that ends with a rest. -/
theorem Ready.conclude_rest (h : Ready f k s) (hw : WellFormed f) (h4 : 4 ≤ f.length)
    (h200 : f.length ≤ 200) (hmod : f.length % 20 ≠ 0) (hk : k = f.length / 20)
    (outside : Nat → UInt8) :
    conclude outside (s.mRecvLargeLen - 4) (Reassembly.takeRest (chunk f k) s) =
      ({ Reassembly.takeRest (chunk f k) s with mRecvFlag := 0 },
        [.myComRecvHandler (filled f f.length) (handlerLen f)]) := by
  obtain ⟨hlen, hdata⟩ := h.takeRest hk
  have hfour : s.mRecvLargeLen - 4 = handlerLen f := by
    rw [handlerLen, if_neg hmod, len_sub h.len (show (4 : UInt16).toNat ≤ _ from h4)]
    rfl
  rw [conclude_frame hw h4 h200 _ _ hlen hdata, hfour]

/-- The frame is shorter than a fragment. -/
theorem Ready.last_short (h : Ready f 0 s) (hw : WellFormed f) (h4 : 4 ≤ f.length)
    (h20 : f.length < 20) {e : Fragment} (he : e.data = chunk f 0) :
    (collect e s).1.mRecvFlag = 0 ∧
      (collect e s).2 = [.myComRecvHandler (filled f f.length) (handlerLen f)] := by
  have hcount := h.count
  have hsize := h.size
  have hone : s.mRecvFlag = 1 := by rw [h.flag, if_pos (.inr rfl)]
  have hzero : s.recvCount = 0 := eq_zero_iff.mpr (by omega)
  have hrest : s.recvSize ≠ 0 := mt eq_zero_iff.mp (by omega)
  have hskip : Reassembly.takeFull (chunk f 0) s = s := takeFull_none _ (eq_zero_iff.mp hzero)
  have hshort : ¬ s.mRecvLargeLen > 20 := by
    rw [gt_iff_lt, UInt16.lt_iff_toNat_lt, h.len, show (20 : UInt16).toNat = 20 from rfl]
    omega
  simp only [collect, he]
  rw [if_pos hone, hskip, if_neg fun hc => hrest hc.2, if_pos ⟨hzero, hrest⟩, if_neg hshort,
    h.conclude_rest hw h4 (by omega) (by omega) (by omega)]
  exact ⟨rfl, rfl⟩

/-- The rest of a longer one. -/
theorem Ready.last_rest (h : Ready f k s) (hw : WellFormed f) (h4 : 4 ≤ f.length)
    (h200 : f.length ≤ 200) (hmod : f.length % 20 ≠ 0) (hk : k = f.length / 20) (hpos : k ≠ 0)
    {e : Fragment} (he : e.data = chunk f k) :
    (collect e s).1.mRecvFlag = 0 ∧
      (collect e s).2 = [.myComRecvHandler (filled f f.length) (handlerLen f)] := by
  have htwo : s.mRecvFlag = 2 := by rw [h.flag, if_neg (by omega)]
  simp only [collect, he]
  rw [htwo, if_neg (by decide), if_pos rfl, h.conclude_rest hw h4 h200 hmod hk]
  exact ⟨rfl, rfl⟩

/-- The last fragment hands the frame over. -/
theorem Ready.last (h : Ready f k s) (hw : WellFormed f) (h4 : 4 ≤ f.length)
    (h200 : f.length ≤ 200) (hk : k + 1 = fragmentCount f.length) {e : Fragment}
    (he : e.data = chunk f k) :
    (collect e s).1.mRecvFlag = 0 ∧
      (collect e s).2 = [.myComRecvHandler (filled f f.length) (handlerLen f)] := by
  unfold fragmentCount at hk
  by_cases hmod : f.length % 20 = 0
  · exact h.last_full hw h4 h200 (by omega) he
  · by_cases hfirst : k = 0
    · subst hfirst
      exact h.last_short hw h4 (by omega) he
    · exact h.last_rest hw h4 h200 hmod (by omega) hfirst he

/-- `k` fragments of `f` have been taken. -/
def Taken (f : List UInt8) (k : Nat) (s : Receiver) : Prop :=
  if k = 0 then s.mRecvFlag = 0 else Ready f k s

theorem Taken.start (h : Taken f k s) (hw : WellFormed f) (h200 : f.length ≤ 200) :
    Ready f k (start (chunk f k) s) := by
  unfold Taken at h
  split at h
  case isTrue hk =>
    subst hk
    exact start_frame hw h200 h
  case isFalse hk =>
    rw [start_skip _ h.flag_ne]
    exact h

/-- All fragments of a frame. -/
theorem frame_calls (hw : WellFormed f) (h4 : 4 ≤ f.length) (h200 : f.length ≤ 200)
    (outside : Nat → Nat → UInt8) (hs : s.mRecvFlag = 0) :
    (after myDataAnalysis s (fragments (.frame f outside))).mRecvFlag = 0 ∧
      outputs myDataAnalysis s (fragments (.frame f outside)) = calls (.frame f outside) := by
  obtain ⟨n, hn⟩ : ∃ n, fragmentCount f.length = n + 1 :=
    Nat.exists_eq_add_one.mpr (by unfold fragmentCount; omega)
  obtain ⟨htaken, hout⟩ := silent myDataAnalysis (I := Taken f)
    ((List.range n).map fun k => ⟨chunk f k, outside k⟩)
    (fun k hk t ht => by
      rw [List.length_map, List.length_range] at hk
      rw [List.getElem_map, List.getElem_range]
      exact (ht.start hw h200).more h200 (by omega) rfl)
    hs
  rw [List.length_map, List.length_range] at htaken
  have hlast := (htaken.start hw h200).last hw h4 h200 hn.symm (e := ⟨chunk f n, outside n⟩) rfl
  rw [fragments, hn, List.range_succ, List.map_append, List.map_singleton, after_append,
    outputs_append, hout, after_singleton, outputs_singleton]
  exact hlast

theorem collect_idle (e : Fragment) (hs : s.mRecvFlag = 0) : collect e s = (s, []) := by
  rw [collect, hs, if_neg (by decide), if_neg (by decide)]

/-- A fragment that starts no frame. -/
theorem Proper.not_starts {e : Fragment} (he : Proper (.noise e)) : ¬ Starts e.data := by
  rintro ⟨h0, h1, hle⟩
  rcases he with hhead | hlong
  · exact hhead ⟨h0, h1⟩
  · rw [UInt16.le_iff_toNat_le, UInt8.toNat_toUInt16] at hle
    rw [gt_iff_lt, UInt8.lt_iff_toNat_lt] at hlong
    exact absurd hlong (Nat.not_lt.mpr hle)

theorem noise_calls {e : Fragment} (he : Proper (.noise e)) (hs : s.mRecvFlag = 0) :
    (myDataAnalysis s e).1.mRecvFlag = 0 ∧ (myDataAnalysis s e).2 = [] := by
  rw [myDataAnalysis, start_none hs he.not_starts, collect_idle]
  · exact ⟨hs, rfl⟩
  · exact hs

theorem item_calls (it : Item) (hp : Proper it) (hs : s.mRecvFlag = 0) :
    (after myDataAnalysis s (fragments it)).mRecvFlag = 0 ∧
      outputs myDataAnalysis s (fragments it) = calls it := by
  cases it with
  | frame f outside => exact frame_calls hp.1 hp.2.1 hp.2.2 outside hs
  | noise e =>
    obtain ⟨hflag, hout⟩ := noise_calls hp hs
    rw [fragments, after_singleton, outputs_singleton]
    exact ⟨hflag, hout⟩

/-- From every state between frames: each frame is handed over once, in order, out of a
buffer that holds it and zeros behind, no error is replied, and after each item the state is
again one between frames. -/
theorem frames_reassembled (s : Receiver) (items : List Item) (hs : s.mRecvFlag = 0)
    (hp : ∀ it ∈ items, Proper it) :
    outputs myDataAnalysis s (items.flatMap fragments) = items.flatMap calls ∧
      ∀ pre, pre <+: items → (after myDataAnalysis s (pre.flatMap fragments)).mRecvFlag = 0 := by
  have hblocks : ∀ its : List Item, (∀ it ∈ its, Proper it) →
      (after myDataAnalysis s (its.flatMap fragments)).mRecvFlag = 0 ∧
        outputs myDataAnalysis s (its.flatMap fragments) = its.flatMap calls :=
    fun its h => flatMap_blocks (I := fun t : Receiver => t.mRecvFlag = 0)
      (fun it hit _ ht => item_calls it (h it hit) ht) hs
  exact ⟨(hblocks items hp).2, fun pre hpre => (hblocks pre fun it hit =>
    hp it (hpre.subset hit)).1⟩

def boot : Receiver := ⟨0, 0, fun _ => 0, 0, 0, 0⟩

/-- A frame of 21 bytes, whose first fragment ends with a header byte. -/
def longFrame : List UInt8 :=
  [0xAA, 0xAA, 0x15] ++ List.replicate 16 0 ++ [0xAA, 0x55]

theorem frames_reassembled_long :
    outputs myDataAnalysis boot ([.noise ⟨fun _ => 0, fun _ => 0⟩,
      .frame longFrame fun _ _ => 0].flatMap fragments) =
        [.myComRecvHandler (filled longFrame 21) 17] := by
  refine (frames_reassembled boot _ rfl fun it hit => ?_).1
  rcases List.mem_cons.mp hit with rfl | hit
  · exact .inl (by decide)
  · rw [List.mem_singleton.mp hit]
    exact ⟨by decide, by decide, by decide⟩

end BleCar.MyBle.Reassembly
