import BleCar.MyBle.Bounds
import BleCar.MyBle.Pack
import BleCar.Obedience

/-!
# The commands of the app

`my_data_analysis` puts a command together from its fragments, `my_com_recv_handler` answers
it and packs a frame for the motor controller, and the motor controller takes that frame. Here
the three run one into the other, damaged commands included. Nothing in `main` calls the first:
the BLE chip hands what the app writes to the UART as it is.
-/

namespace BleCar.Commands

open BleCar.Lib.ByteSum
open BleCar.Lib.Runs
open BleCar.Lib.Transducer
open BleCar.Motion.Driving
open BleCar.Protocol.Frames
open BleCar.Protocol.Buffer
open BleCar.MyBle
open BleCar.MyBle.Uart (arrayRead)
open BleCar.MyBle.Reassembly hiding boot
open BleCar.MyBle.Pack
open BleCar.Obedience

/-! ## Frames with any check code -/

/-- A frame of the length it declares; its check code may be wrong. -/
structure Framed (f : List UInt8) : Prop where
  header0 : bytesAt f 0 = 0xAA
  header1 : bytesAt f 1 = 0xAA
  length : (bytesAt f 2).toNat = f.length
  four : 4 ≤ f.length
  fits : f.length ≤ 200

instance (f : List UInt8) : Decidable (Framed f) :=
  decidable_of_iff (bytesAt f 0 = 0xAA ∧ bytesAt f 1 = 0xAA ∧ (bytesAt f 2).toNat = f.length ∧
      4 ≤ f.length ∧ f.length ≤ 200)
    ⟨fun ⟨h0, h1, hl, h4, h200⟩ => ⟨h0, h1, hl, h4, h200⟩,
      fun h => ⟨h.header0, h.header1, h.length, h.four, h.fits⟩⟩

section

variable {f : List UInt8} {s : Receiver} {k : Nat}

theorem Framed.wellFormed_iff (hf : Framed f) :
    WellFormed f ↔ byteSum (fun i => bytesAt f (3 + i)) (f.length - 3) = 0xff :=
  ⟨WellFormed.checksum, fun hc => ⟨hf.header0, hf.header1, hf.length, hc⟩⟩

theorem Framed.begins (hf : Framed f) (hs : s.mRecvFlag = 0) :
    Ready f 0 (start (chunk f 0) s) := by
  have hlen : (declaredLen (chunk f 0)).toUInt16.toNat = f.length := by
    rw [UInt8.toNat_toUInt16]
    exact hf.length
  have hgo : Starts (chunk f 0) := by
    refine ⟨hf.header0, hf.header1, ?_⟩
    rw [UInt16.le_iff_toNat_le]
    exact hlen.trans_le hf.fits
  obtain ⟨hcount, hsize⟩ := count_rest hlen hf.fits
  rw [start_some hs hgo]
  exact ⟨by simp, hlen, rfl, rfl, hcount, hsize⟩

theorem Framed.goesOn (hf : Framed f) (h : Taken f k s) : Ready f k (start (chunk f k) s) := by
  unfold Taken at h
  split at h
  case isTrue hk =>
    subst hk
    exact hf.begins h
  case isFalse hk =>
    rw [start_skip _ h.flag_ne]
    exact h

/-- The last fragment has the whole frame checked, whichever branch takes it. -/
theorem Framed.concludes (hf : Framed f) (h : Ready f k s) (hk : k + 1 = fragmentCount f.length)
    {e : Fragment} (he : e.data = chunk f k) :
    ∃ t, collect e s = conclude e.outside (handlerLen f) t ∧
      t.mRecvLargeLen.toNat = f.length ∧ t.mRecvData = filled f f.length := by
  have h4 := hf.four
  have h200 := hf.fits
  unfold fragmentCount at hk
  by_cases hmod : f.length % 20 = 0
  · obtain ⟨-, hlen, hdata, -, hcount, hsize⟩ := h.takeFull h200 (by omega)
    have hone : s.mRecvFlag = 1 := by rw [h.flag, if_pos (.inl (by omega))]
    have hdone : (takeFull (chunk f k) s).recvCount = 0 ∧
        (takeFull (chunk f k) s).recvSize = 0 :=
      ⟨eq_zero_iff.mpr (by omega), eq_zero_iff.mpr (by omega)⟩
    have hthree : (takeFull (chunk f k) s).mRecvLargeLen - 3 = handlerLen f := by
      rw [handlerLen, if_pos hmod, len_sub hlen (show (3 : UInt16).toNat ≤ _ by simp; omega)]
      rfl
    rw [show 20 * (k + 1) = f.length by omega] at hdata
    refine ⟨takeFull (chunk f k) s, ?_, hlen, hdata⟩
    simp only [collect, he]
    rw [if_pos hone, if_pos hdone, hthree]
  · have hcount := h.count
    have hsize := h.size
    obtain ⟨hlen, hdata⟩ := h.takeRest (by omega)
    have hfour : s.mRecvLargeLen - 4 = handlerLen f := by
      rw [handlerLen, if_neg hmod, len_sub h.len (show (4 : UInt16).toNat ≤ _ from h4)]
      rfl
    refine ⟨takeRest (chunk f k) s, ?_, hlen, hdata⟩
    simp only [collect, he]
    by_cases hfirst : k = 0
    · have hone : s.mRecvFlag = 1 := by rw [h.flag, if_pos (.inr hfirst)]
      have hskip : takeFull (chunk f k) s = s := takeFull_none _ (by omega)
      have hzero : s.recvCount = 0 := eq_zero_iff.mpr (by omega)
      have hrest : s.recvSize ≠ 0 := mt eq_zero_iff.mp (by omega)
      have hshort : ¬ s.mRecvLargeLen > 20 := by
        rw [gt_iff_lt, UInt16.lt_iff_toNat_lt, h.len, show (20 : UInt16).toNat = 20 from rfl]
        omega
      rw [if_pos hone, hskip, if_neg fun hc => hrest hc.2, if_pos ⟨hzero, hrest⟩, if_neg hshort,
        hfour]
    · have htwo : s.mRecvFlag = 2 := by rw [h.flag, if_neg (by omega)]
      rw [htwo, if_neg (by decide), if_pos rfl, hfour]

/-- What a checked frame gives rise to. -/
theorem conclude_framed (hf : Framed f) (outside : Nat → UInt8) (len : UInt16)
    (hlen : s.mRecvLargeLen.toNat = f.length) (hdata : s.mRecvData = filled f f.length) :
    conclude outside len s = ({ s with mRecvFlag := 0 },
      if WellFormed f then [.myComRecvHandler (filled f f.length) len] else [.packB1]) := by
  have h4 := hf.four
  have h200 := hf.fits
  have hsub : (s.mRecvLargeLen - 3).toNat = f.length - 3 := by
    rw [UInt16.toNat_sub_of_le, hlen]
    · rfl
    · rw [UInt16.le_iff_toNat_le, hlen]
      exact Nat.le_trans (by decide) h4
  have hsum : byteSum (fun i => arrayRead outside s.mRecvData (3 + i)) (f.length - 3) =
      byteSum (fun i => bytesAt f (3 + i)) (f.length - 3) := by
    refine byteSum_congr fun i hi => ?_
    rw [arrayRead, dif_pos (by omega), hdata]
    exact if_pos (by simp only; omega)
  have hcheck : myCheckCodeAnalysis (fun i => arrayRead outside s.mRecvData (3 + i))
      (s.mRecvLargeLen - 3) = 0 ↔ WellFormed f := by
    rw [myCheckCodeAnalysis_eq_zero, hsub, hsum, hf.wellFormed_iff]
  rw [hdata] at hcheck
  simp only [conclude, hdata, hcheck]

/-- What the app can send: frames cut into fragments, and fragments that start none. -/
def Sendable : Item → Prop
  | .frame f _ => Framed f
  | .noise e => Proper (.noise e)

/-- `calls`, for frames with any check code. -/
def checkedCalls : Item → List Call
  | .frame f _ =>
    if WellFormed f then [.myComRecvHandler (filled f f.length) (handlerLen f)] else [.packB1]
  | .noise _ => []

theorem item_checked (it : Item) (hit : Sendable it) (hs : s.mRecvFlag = 0) :
    (after myDataAnalysis s (fragments it)).mRecvFlag = 0 ∧
      outputs myDataAnalysis s (fragments it) = checkedCalls it := by
  cases it with
  | noise e =>
    rw [fragments, after_singleton, outputs_singleton]
    exact noise_calls hit hs
  | frame f outside =>
    have hf : Framed f := hit
    obtain ⟨n, hn⟩ : ∃ n, fragmentCount f.length = n + 1 :=
      Nat.exists_eq_add_one.mpr (by have := hf.four; unfold fragmentCount; omega)
    obtain ⟨htaken, hout⟩ := silent myDataAnalysis (I := Taken f)
      ((List.range n).map fun k => ⟨chunk f k, outside k⟩)
      (fun k hk t ht => by
        rw [List.length_map, List.length_range] at hk
        rw [List.getElem_map, List.getElem_range]
        exact (hf.goesOn ht).more hf.fits (by omega) rfl)
      hs
    rw [List.length_map, List.length_range] at htaken
    obtain ⟨t, hlast, hlen, hdata⟩ :=
      hf.concludes (hf.goesOn htaken) hn.symm (e := ⟨chunk f n, outside n⟩) rfl
    rw [conclude_framed hf _ _ hlen hdata] at hlast
    rw [fragments, hn, List.range_succ, List.map_append, List.map_singleton, after_append,
      outputs_append, hout, after_singleton, outputs_singleton, myDataAnalysis, hlast]
    exact ⟨rfl, rfl⟩

end

/-! ## Accesses -/

section

variable {s : Bounds.Tracked}

/-- What remains of a frame, fragment by fragment: only the first can start one, and it declares
the length of the frame. -/
theorem frame_declares {f : List UInt8} (hf : Framed f) (outside : Nat → Nat → UInt8) {k n : Nat}
    (hn : k + n = fragmentCount f.length) (h : Taken f k s.receiver) :
    Along Bounds.step Bounds.DeclaresHeader s
      ((List.range' k n).map fun j => ⟨chunk f j, outside j⟩) := by
  induction n generalizing k s with
  | zero => trivial
  | succ n ih =>
    refine ⟨fun hzero _ => ?_, fun t ht => ?_⟩
    · have hready := h
      unfold Taken at hready
      split at hready
      case isTrue hk =>
        subst hk
        have hlen : (declaredLen (chunk f 0)).toNat = f.length := hf.length
        have h4 := hf.four
        exact UInt8.le_iff_toNat_le.mpr (show 3 ≤ (declaredLen (chunk f 0)).toNat by omega)
      case isFalse => exact absurd hzero hready.flag_ne
    · cases n with
      | zero => trivial
      | succ n =>
        obtain rfl := Option.some.inj ht
        exact ih (by omega) ((hf.goesOn h).more hf.fits (by omega) rfl).1

theorem item_declares (hs : s.receiver.mRecvFlag = 0) {it : Item} (hit : Sendable it) :
    Along Bounds.step Bounds.DeclaresHeader s (fragments it) := by
  cases it with
  | noise e =>
    have hno : ¬ Starts e.data := Proper.not_starts hit
    exact ⟨fun _ hst => absurd hst hno, fun _ _ => trivial⟩
  | frame f outside =>
    rw [fragments, List.range_eq_range']
    exact frame_declares hit outside (Nat.zero_add _) hs

theorem items_declare (hs : s.receiver.mRecvFlag = 0) {items : List Item}
    (hitems : ∀ it ∈ items, Sendable it) :
    Along Bounds.step Bounds.DeclaresHeader s (items.flatMap fragments) := by
  induction items generalizing s with
  | nil => trivial
  | cons it items ih =>
    have hit := hitems it List.mem_cons_self
    rw [List.flatMap_cons, along_append]
    refine ⟨item_declares hs hit, fun t ht =>
      ih ?_ fun it' hit' => hitems it' (List.mem_cons_of_mem _ hit')⟩
    rw [Bounds.run_receiver ht]
    exact (item_checked it hit hs).1

/-- Fragments that declare their headers, then frames: no access leaves the buffer. -/
theorem accesses_inBounds {pre : List Fragment} {items : List Item}
    (hdecl : Along Bounds.step Bounds.DeclaresHeader Bounds.trackedBoot pre)
    (hpre : (after myDataAnalysis Reassembly.boot pre).mRecvFlag = 0)
    (hitems : ∀ it ∈ items, Sendable it) :
    Along Bounds.step Bounds.AccessesInBounds Bounds.trackedBoot
      (pre ++ items.flatMap fragments) := by
  refine Bounds.inBounds_along (.inl rfl) ((along_append _ _ _ _ _).mpr ⟨hdecl, fun t ht => ?_⟩)
  refine items_declare ?_ hitems
  rw [Bounds.run_receiver ht]
  exact hpre

end

/-! ## Answers -/

section

variable (outside : Nat → UInt8)

/-- `my_com_recv_handler(&m_recv_data[3], len)`, which does not read `len`, and the error
reply. -/
def handle (p : Packer) : Call → Packer × List Packed
  | .myComRecvHandler mRecvData _ =>
    myComRecvHandler p ⟨fun i => arrayRead outside mRecvData (3 + i), outside⟩
  | .packB1 => myDataPackApp outside 0xB1 p

/-- `my_data_analysis`, with what it calls. -/
def service : Receiver × Packer → Fragment → (Receiver × Packer) × List Packed :=
  pipe myDataAnalysis (handle outside)

def boot : Receiver × Packer := (Reassembly.boot, Packer.boot)

/-- The frame `my_data_pack_app` sends, and the one `my_dada_pack_mcu` puts. -/
def appFrame (ID : UInt8) : List UInt8 := [0xAA, 0xAA, 0x06, ID, 0x00, 0xff - ID]
def mcuFrame (ID param : UInt8) : List UInt8 := [0xAA, 0xAA, 0x06, ID, param, 0xff - param]

/-- What an item is answered with: a command goes on with its first parameter only, `B1` is
answered as an `A5`, and a wrong check code with `B1`. -/
def response : Item → List Packed
  | .frame f _ =>
    if ¬ WellFormed f then [.app (appFrame 0xB1)]
    else if IsCommandID (bytesAt f 3) then
      [.app (appFrame (bytesAt f 3)), .mcu (mcuFrame (bytesAt f 3) (bytesAt f 4))]
    else if bytesAt f 3 = 0xB1 then [.app (appFrame 0xA5)]
    else []
  | .noise _ => []

/-- `my_data_pack_app` leaves its buffer empty. -/
def Cleared (p : Packer) : Prop := p.txBufferAPP = fun _ => 0

theorem myDataPackApp_error {p : Packer} (hp : Cleared p) :
    (myDataPackApp outside 0xB1 p).2 = [.app (appFrame 0xB1)] := by
  have htwo : (UInt16.ofInt 2).toNat = 2 := rfl
  unfold Cleared at hp
  simp [myDataPackApp, appFrame, MyBle.Uart.arrayTake, List.range_succ, arrayRead, arrayWrite,
    myCheckCodeCalculate, htwo, byteSum, hp]

theorem myDataPackApp_answer {p : Packer} (hp : Cleared p) {ID : UInt8} (h : IsCommandID ID) :
    (myDataPackApp outside ID p).2 = [.app (appFrame ID)] := by
  rw [myDataPackApp_known outside p h, congrFun hp 4, UInt8.add_zero]
  rfl

/-- Every branch of the two handlers leaves the buffer for the app empty. -/
theorem handle_cleared {p : Packer} (hp : Cleared p) (call : Call) :
    Cleared (handle outside p call).1 := by
  cases call with
  | packB1 => rfl
  | myComRecvHandler mRecvData len =>
    simp only [handle, myComRecvHandler]
    split_ifs <;> first | rfl | exact hp

theorem filled_read {f : List UInt8} {i : Nat} (hi : i < 200) :
    arrayRead outside (filled f f.length) i = bytesAt f i := by
  rw [arrayRead, dif_pos hi]
  by_cases hlt : i < f.length
  · exact if_pos hlt
  · rw [bytesAt, List.getD_eq_default _ _ (Nat.le_of_not_lt hlt)]
    exact if_neg hlt

/-- `B1` of the app is answered as an `A5`, and any other ID is ignored. -/
theorem myComRecvHandler_other {p : Packer} (hp : Cleared p) {c : Pack.Command}
    (h : ¬ IsCommandID (c.data 0)) :
    (myComRecvHandler p c).2 = if c.data 0 = 0xB1 then [.app (appFrame 0xA5)] else [] := by
  simp only [IsCommandID, not_or] at h
  obtain ⟨h1, h2, h3, h4, h5⟩ := h
  simp only [myComRecvHandler, if_neg h1, if_neg h2, if_neg h3, if_neg h4, if_neg h5]
  split
  · exact myDataPackApp_answer c.outside hp (by decide)
  · rfl

theorem item_response {p : Packer} (hp : Cleared p) (it : Item) :
    Cleared (after (handle outside) p (checkedCalls it)) ∧
      outputs (handle outside) p (checkedCalls it) = response it := by
  refine ⟨after_of_step (I := Cleared) (fun p call hp => handle_cleared outside hp call) hp _, ?_⟩
  cases it with
  | noise e => rfl
  | frame f out =>
    by_cases hw : WellFormed f
    · have hID : arrayRead outside (filled f f.length) 3 = bytesAt f 3 :=
        filled_read outside (by decide)
      have hparam : arrayRead outside (filled f f.length) 4 = bytesAt f 4 :=
        filled_read outside (by decide)
      rw [checkedCalls, if_pos hw, outputs_singleton, response, if_neg (not_not.mpr hw), handle]
      by_cases hcommand : IsCommandID (bytesAt f 3)
      · rw [if_pos hcommand, myComRecvHandler_command p (by rwa [← hID] at hcommand),
          congrFun hp 4]
        simp only [hID, hparam, UInt8.add_zero]
        rfl
      · rw [if_neg hcommand, myComRecvHandler_other hp (by rwa [← hID] at hcommand)]
        simp only [hID]
    · rw [checkedCalls, if_neg hw, outputs_singleton, response, if_pos hw]
      exact myDataPackApp_error outside hp

/-- Between frames, and nothing left in the buffer for the app. -/
theorem items_response {s : Receiver × Packer} (hs : s.1.mRecvFlag = 0) (hp : Cleared s.2)
    {items : List Item} (hitems : ∀ it ∈ items, Sendable it) :
    outputs (service outside) s (items.flatMap fragments) = items.flatMap response := by
  have hcalls := (flatMap_blocks (I := fun r : Receiver => r.mRecvFlag = 0)
    (fun it hit _ hr => item_checked it (hitems it hit) hr) hs).2
  have hanswers := (flatMap_blocks (I := Cleared)
    (fun it (_ : it ∈ items) _ hp => item_response outside hp it) hp).2
  rw [service, outputs_pipe, hcalls, hanswers]

theorem service_cleared (es : List Fragment) : Cleared (after (service outside) boot es).2 := by
  rw [service, after_pipe]
  exact after_of_step (I := Cleared) (fun p call hp => handle_cleared outside hp call)
    (show Cleared boot.2 from rfl) _

/-! ## The motor controller -/

theorem appFrame_wellFormed (ID : UInt8) : WellFormed (appFrame ID) := by
  have h := app_wellFormed ID 0
  rwa [UInt8.add_zero] at h

/-- The check code leaves the ID out, so that the frame says nothing to the car. -/
theorem mcuFrame_other {ID : UInt8} (hID : ID ≠ 0) (param : UInt8) :
    command .left .right (mcuFrame ID param) = .other := by
  refine if_neg fun hs => ?_
  have hc := hs.checksum
  simp only [mcuFrame, byteSum, bytesAt, List.length_cons, List.length_nil] at hc
  grind

/-- The frames an item is answered with: the app gets well-formed ones, the car none that it
understands. -/
theorem response_frames {it : Item} {a : Packed} (ha : a ∈ response it) :
    match a with
    | .app f => WellFormed f
    | .mcu f => f.length = 6 ∧ command .left .right f = .other := by
  cases it with
  | noise e => cases ha
  | frame f out =>
    simp only [response] at ha
    split at ha
    case isTrue =>
      obtain rfl := List.mem_singleton.mp ha
      exact appFrame_wellFormed 0xB1
    case isFalse =>
      split at ha
      case isTrue hcommand =>
        have hne : bytesAt f 3 ≠ 0 := by
          rcases hcommand with h | h | h | h | h <;> rw [h] <;> decide
        rcases List.mem_pair.mp ha with rfl | rfl
        · exact appFrame_wellFormed _
        · exact ⟨rfl, mcuFrame_other hne _⟩
      case isFalse =>
        split at ha
        · obtain rfl := List.mem_singleton.mp ha
          exact appFrame_wellFormed 0xA5
        · cases ha

theorem obeyed_others {bs : List (List UInt8)}
    (h : ∀ b ∈ bs, command .left .right b = .other) (c : Car) : obeyed .left .right bs c = c := by
  induction bs with
  | nil => rfl
  | cons b bs ih =>
    rw [obeyed, List.map_cons, List.foldl_cons, h b List.mem_cons_self]
    exact ih fun b' hb' => h b' (List.mem_cons_of_mem _ hb')

end

/-- A fragment that starts no frame. -/
def strayFragment : Fragment := ⟨fun _ => 0, fun _ => 0⟩

/-- `AA AA 06 A2 01 5C`, a turn, and the same with a wrong check code. -/
def turnItem : Item := .frame [0xAA, 0xAA, 0x06, 0xA2, 0x01, 0x5C] fun _ _ => 0
def damagedItem : Item := .frame [0xAA, 0xAA, 0x06, 0xA2, 0x01, 0x5D] fun _ _ => 0

end BleCar.Commands
