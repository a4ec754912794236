import BleCar.F103.System

/-!
# Which bytes of `rx_buffer` the F103 parser looks at

The header test and the range of the checksum, against the bytes of the burst that the
IDLE interrupt announced. Bursts of one and two header bytes and a full buffer are the
ones whose announced length does not cover what is read.
-/

namespace BleCar.F103.ReadBounds

open BleCar.Lib.ByteSum
open BleCar.Motion.Routines
open BleCar.Protocol.Frames
open BleCar.Protocol.Buffer
open BleCar.F103.System

/-- The indices read by `rx_buffer[0] != 0xAA || rx_buffer[1] != 0xAA`. -/
def headerReads (y : Stray) (r : Rx) : List Nat := if rxRead y r 0 = 0xAA then [0, 1] else [0]

/-- The indices summed by `my_check_code_analysis(&rx_buffer[3], my_cal_len-3)`, which is
called behind the header test only. -/
def sumReads (y : Stray) (r : Rx) : List Nat :=
  if headerOk y r then (List.range (sumLen r.rxLen)).map (3 + ·) else []

section

variable {y : Stray} {r r' : Rx}

/-- `headerReads` lists all that matters to the header test. -/
theorem headerOk_congr (h : ∀ i ∈ headerReads y r, rxRead y r i = rxRead y r' i) :
    headerOk y r ↔ headerOk y r' := by
  have h0 : rxRead y r 0 = rxRead y r' 0 := h 0 (by unfold headerReads; split <;> simp)
  by_cases hAA : rxRead y r 0 = 0xAA
  · have h1 : rxRead y r 1 = rxRead y r' 1 := h 1 (by simp [headerReads, hAA])
    rw [headerOk, headerOk, h0, h1]
  · have hAA' : ¬ rxRead y r' 0 = 0xAA := h0 ▸ hAA
    exact iff_of_false (fun hok => hAA hok.1) (fun hok => hAA' hok.1)

/-- `sumReads` lists all that matters to the check. -/
theorem checkCode_congr (hh : headerOk y r)
    (h : ∀ i ∈ sumReads y r, rxRead y r i = rxRead y r' i) :
    checkCode (rxRead y r) r.rxLen = checkCode (rxRead y r') r.rxLen := by
  have hsum : byteSum (fun i => rxRead y r (3 + i)) (sumLen r.rxLen) =
      byteSum (fun i => rxRead y r' (3 + i)) (sumLen r.rxLen) := by
    refine byteSum_congr fun i hi => h (3 + i) ?_
    rw [sumReads, if_pos hh]
    exact List.mem_map.mpr ⟨i, List.mem_range.mpr hi, rfl⟩
  change (if byteSum _ (sumLen r.rxLen) = 0xff then (0 : UInt8) else 2) =
    if byteSum _ (sumLen r.rxLen) = 0xff then 0 else 2
  rw [hsum]

end

/-- After the burst `b` the announced length is the number of bytes received, the header test
looks at received bytes only, and so does the checksum. -/
structure ReadsReceived (y : Stray) (r : Rx) (b : List UInt8) : Prop where
  length : (receive b r).rxLen.toNat = b.length
  header : ∀ i ∈ headerReads y (receive b r), i < b.length
  summed : ∀ i ∈ sumReads y (receive b r), i < (receive b r).rxLen.toNat

theorem rxLen_toNat_iff {b : List UInt8} (h1 : 1 ≤ b.length) (r : Rx) :
    (receive b r).rxLen.toNat = b.length ↔ b.length ≤ 255 := by
  constructor
  · intro h
    have hlt := (receive b r).rxLen.toNat_lt
    omega
  · exact fun h => idleLen_toNat h1 h

theorem headerReads_received_iff (y : Stray) {b : List UInt8} (h1 : 1 ≤ b.length) (r : Rx) :
    (∀ i ∈ headerReads y (receive b r), i < b.length) ↔ b ≠ [0xAA] := by
  have hfirst : rxRead y (receive b r) 0 = bytesAt b 0 := rxRead_receive (by omega) (by omega) y r
  rw [headerReads, hfirst]
  obtain _ | ⟨x, b⟩ := b
  · exact absurd h1 (by decide)
  · obtain _ | ⟨z, b⟩ := b
    · by_cases hx : x = 0xAA <;> simp [bytesAt, hx]
    · by_cases hx : x = 0xAA <;> simp [bytesAt, hx]

theorem sumReads_received_iff (y : Stray) {b : List UInt8} (h2 : 2 ≤ b.length)
    (h255 : b.length ≤ 255) (r : Rx) :
    (∀ i ∈ sumReads y (receive b r), i < (receive b r).rxLen.toNat) ↔ b ≠ [0xAA, 0xAA] := by
  have hlen := (rxLen_toNat_iff (by omega) r).mpr h255
  have hheader := headerOk_receive y h2 r
  rw [sumReads, sumLen_toNat, hlen]
  by_cases hh : headerOk y (receive b r)
  · obtain ⟨h0, hAA⟩ := hheader.mp hh
    rw [if_pos hh]
    by_cases h3 : 3 ≤ b.length
    · refine iff_of_true (fun i hi => ?_) (fun heq => absurd h3 (by rw [heq]; decide))
      obtain ⟨k, hk, rfl⟩ := List.mem_map.mp hi
      rw [if_pos h3, List.mem_range] at hk
      omega
    · have htwo : b.length = 2 := by omega
      obtain ⟨x, z, rfl⟩ := List.length_eq_two.mp htwo
      obtain rfl : x = 0xAA := h0
      obtain rfl : z = 0xAA := hAA
      refine iff_of_false (fun h => ?_) (fun hne => hne rfl)
      have hthree := h 3 (List.mem_map.mpr ⟨0, List.mem_range.mpr (by simp), rfl⟩)
      exact absurd hthree (by decide)
  · rw [if_neg hh]
    refine iff_of_true (fun i hi => absurd hi List.not_mem_nil) (fun heq => hh (hheader.mpr ?_))
    rw [heq]
    decide

/-- For every burst of 1 to 256 bytes, whatever it holds and whatever earlier bursts left in the
buffer: the parser reads received bytes only exactly when the burst has at most 255 bytes and
does not consist of one header byte or of the two. -/
theorem reads_received_iff (y : Stray) (r : Rx) {b : List UInt8} (h1 : 1 ≤ b.length)
    (h256 : b.length ≤ 256) :
    ReadsReceived y r b ↔ b.length ≤ 255 ∧ b ≠ [0xAA] ∧ b ≠ [0xAA, 0xAA] := by
  constructor
  · rintro ⟨hlen, hheader, hsum⟩
    have h255 := (rxLen_toNat_iff h1 r).mp hlen
    refine ⟨h255, (headerReads_received_iff y h1 r).mp hheader, ?_⟩
    by_cases h2 : 2 ≤ b.length
    · exact (sumReads_received_iff y h2 h255 r).mp hsum
    · exact fun heq => absurd h2 (by rw [heq]; decide)
  · rintro ⟨h255, hone, htwo⟩
    refine ⟨(rxLen_toNat_iff h1 r).mpr h255, (headerReads_received_iff y h1 r).mpr hone, ?_⟩
    by_cases h2 : 2 ≤ b.length
    · exact (sumReads_received_iff y h2 h255 r).mpr htwo
    · obtain ⟨x, rfl⟩ := List.length_eq_one_iff.mp (show b.length = 1 by omega)
      have hfirst : rxRead y (receive [x] r) 0 = x := rxRead_receive (by simp) (by decide) y r
      have hh : ¬ headerOk y (receive [x] r) := fun hok =>
        hone (congrArg ([·]) (hfirst.symm.trans hok.1))
      rw [sumReads, if_neg hh]
      exact fun i hi => absurd hi List.not_mem_nil

theorem reads_received_report : ReadsReceived .blank .boot [0xAA, 0xAA, 0x05, 0xA4, 0x5B] :=
  (reads_received_iff .blank .boot (by decide) (by decide)).mpr (by decide)

/-- On the two header bytes alone the checksum runs over 65535 bytes, from index 3 on; on one
of them the header test looks at a byte of an earlier burst; and 256 bytes are announced as
none. -/
theorem reads_stray :
    ¬ ReadsReceived .blank .boot [0xAA, 0xAA] ∧ ¬ ReadsReceived .blank .boot [0xAA] ∧
      ¬ ReadsReceived .blank .boot (List.replicate 256 0xAA) := by
  refine ⟨fun h => ?_, fun h => ?_, fun h => ?_⟩
  · exact (sumReads_received_iff .blank (by decide) (by decide) .boot).mp h.summed rfl
  · exact (headerReads_received_iff .blank (by decide) .boot).mp h.header rfl
  · have hlen := (rxLen_toNat_iff (by rw [List.length_replicate]; decide) .boot).mp h.length
    rw [List.length_replicate] at hlen
    exact absurd hlen (by decide)

end BleCar.F103.ReadBounds
