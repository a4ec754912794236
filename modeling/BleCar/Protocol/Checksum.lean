import BleCar.Protocol.Frames

/-!
# The checksum pair

`check.c` of the Bluetooth firmware and `usart.c` of both motor firmwares have their own
copies of `my_check_code_calculate` and `my_check_code_analysis`. The motor firmwares
print the sum they check.
-/

namespace BleCar.Protocol.Checksum

open BleCar.Lib.ByteSum
open BleCar.Protocol.Frames

/-- `for(int i=0; i<len; i++) sum = (uint8_t)(sum + data[i])`, from `sum = 0`. -/
def sumLoop (data : Nat → UInt8) (len : UInt16) : UInt8 :=
  (List.range len.toNat).foldl (fun sum i => sum + data i) 0

/-- What `my_check_code_analysis` returns, and the sums it prints. -/
structure Analysis where
  result : UInt8
  printed : List UInt8

/-! ## The copies -/

namespace Ble

def myCheckCodeCalculate (data : Nat → UInt8) (len : UInt16) : UInt8 :=
  let sum := sumLoop data len
  0xff - sum

def myCheckCodeAnalysis (data : Nat → UInt8) (len : UInt16) : Analysis :=
  let sum := sumLoop data len
  if sum = 0xff then ⟨0, []⟩ else ⟨2, []⟩

end Ble

namespace F103

def myCheckCodeCalculate (data : Nat → UInt8) (len : UInt16) : UInt8 :=
  let sum := sumLoop data len
  0xff - sum

def myCheckCodeAnalysis (data : Nat → UInt8) (len : UInt16) : Analysis :=
  let sum := sumLoop data len
  -- printf
  if sum = 0xff then ⟨0, [sum]⟩ else ⟨2, [sum]⟩

end F103

namespace L151

def myCheckCodeCalculate (data : Nat → UInt8) (len : UInt16) : UInt8 :=
  let sum := sumLoop data len
  0xff - sum

def myCheckCodeAnalysis (data : Nat → UInt8) (len : UInt16) : Analysis :=
  let sum := sumLoop data len
  -- print_log
  if sum = 0xff then ⟨0, [sum]⟩ else ⟨2, [sum]⟩

end L151

inductive Firmware where
  | ble
  | f103
  | l151
  deriving DecidableEq

def Firmware.calculate : Firmware → (Nat → UInt8) → UInt16 → UInt8
  | .ble => Ble.myCheckCodeCalculate
  | .f103 => F103.myCheckCodeCalculate
  | .l151 => L151.myCheckCodeCalculate

def Firmware.analysis : Firmware → (Nat → UInt8) → UInt16 → Analysis
  | .ble => Ble.myCheckCodeAnalysis
  | .f103 => F103.myCheckCodeAnalysis
  | .l151 => L151.myCheckCodeAnalysis

theorem sumLoop_eq (data : Nat → UInt8) (len : UInt16) :
    sumLoop data len = byteSum data len.toNat :=
  foldl_range_add data len.toNat

theorem calculate_eq (m : Firmware) (data : Nat → UInt8) (len : UInt16) :
    m.calculate data len = myCheckCodeCalculate data len := by
  have hsum := sumLoop_eq data len
  cases m
  all_goals exact congrArg (0xff - ·) hsum

theorem analysis_eq (m : Firmware) (data : Nat → UInt8) (len : UInt16) :
    (m.analysis data len).result = myCheckCodeAnalysis data len := by
  have hsum := sumLoop_eq data len
  unfold Frames.myCheckCodeAnalysis
  rw [← hsum]
  cases m
  all_goals
    simp only [Firmware.analysis, Ble.myCheckCodeAnalysis, F103.myCheckCodeAnalysis,
      L151.myCheckCodeAnalysis]
    split <;> rfl

/-! ## Byte strings -/

/-- The byte strings whose length `uint16_t len` can hold: what the pair can be called on. -/
structure ByteString where
  bytes : List UInt8
  fits : bytes.length < 65536

namespace ByteString

variable (q : ByteString)

def len : UInt16 := UInt16.ofNat q.bytes.length

/-- The bytes before the last one. -/
def rest : ByteString := ⟨q.bytes.dropLast, by
  have hlt := q.fits
  rw [List.length_dropLast]
  omega⟩

/-- The string with one byte appended. -/
def snoc (c : UInt8) (h : q.bytes.length < 65535) : ByteString := ⟨q.bytes ++ [c], by
  rw [List.length_append, List.length_singleton]
  omega⟩

theorem toNat_len : q.len.toNat = q.bytes.length :=
  UInt16.toNat_ofNat_of_lt' q.fits

end ByteString

/-- `my_check_code_calculate` on a byte string. -/
def code (m : Firmware) (q : ByteString) : UInt8 := m.calculate (bytesAt q.bytes) q.len

/-- `my_check_code_analysis` returns 0 on a byte string. -/
def Accepts (m : Firmware) (q : ByteString) : Prop :=
  (m.analysis (bytesAt q.bytes) q.len).result = 0

instance (m : Firmware) (q : ByteString) : Decidable (Accepts m q) :=
  inferInstanceAs (Decidable (_ = _))

theorem accepts_iff (m : Firmware) (q : ByteString) :
    Accepts m q ↔ byteSum (bytesAt q.bytes) q.bytes.length = 0xff := by
  rw [Accepts, analysis_eq, myCheckCodeAnalysis_eq_zero, q.toNat_len]

theorem code_eq (m : Firmware) (q : ByteString) :
    code m q = 0xff - byteSum (bytesAt q.bytes) q.bytes.length := by
  rw [code, calculate_eq, myCheckCodeCalculate, q.toNat_len]

/-- The sum of a string followed by one byte. -/
theorem byteSum_append (p : List UInt8) (c : UInt8) :
    byteSum (bytesAt (p ++ [c])) (p ++ [c]).length = 0xff ↔
      c = 0xff - byteSum (bytesAt p) p.length := by
  have hprior : byteSum (bytesAt (p ++ [c])) p.length = byteSum (bytesAt p) p.length :=
    byteSum_congr fun i hi => List.getD_append _ _ _ _ hi
  have hlast : bytesAt (p ++ [c]) p.length = c := by simp [bytesAt]
  rw [List.length_append, List.length_singleton, byteSum_succ_eq_iff, hprior, hlast]

/-- A string is accepted exactly when its last byte is the code of the bytes before it. -/
theorem accepts_iff_getLast (m : Firmware) (q : ByteString) (h : q.bytes ≠ []) :
    Accepts m q ↔ q.bytes.getLast h = code m q.rest := by
  rw [accepts_iff, code_eq]
  conv_lhs => rw [← List.dropLast_append_getLast h]
  exact byteSum_append q.bytes.dropLast (q.bytes.getLast h)

/-- What one copy makes of a string closed with its code, every copy accepts. -/
theorem accepts_snoc (m k : Firmware) (p : ByteString) (h : p.bytes.length < 65535) :
    Accepts m (p.snoc (code k p) h) := by
  rw [accepts_iff, code_eq]
  exact (byteSum_append p.bytes _).mpr rfl

/-- Two accepted strings of equal length that agree but for one index agree there too. -/
theorem accepted_eq (m k : Firmware) {q r : ByteString} (hq : Accepts m q) (hr : Accepts k r)
    (hlen : q.bytes.length = r.bytes.length) {j : Nat}
    (h : ∀ i, i ≠ j → q.bytes[i]? = r.bytes[i]?) : q.bytes[j]? = r.bytes[j]? := by
  rw [accepts_iff] at hq hr
  rw [← hlen] at hr
  by_cases hj : j < q.bytes.length
  · have hbyte : bytesAt q.bytes j = bytesAt r.bytes j := by
      apply eq_of_byteSum_eq hj _ (hq.trans hr.symm)
      intro i _ hne
      rw [bytesAt, bytesAt, List.getD_eq_getElem?_getD, List.getD_eq_getElem?_getD, h i hne]
    have hj' : j < r.bytes.length := hlen ▸ hj
    rw [bytesAt, bytesAt, List.getD_eq_getElem _ _ hj, List.getD_eq_getElem _ _ hj'] at hbyte
    rw [List.getElem?_eq_getElem hj, List.getElem?_eq_getElem hj', hbyte]
  · rw [List.getElem?_eq_none (by omega), List.getElem?_eq_none (by omega)]

/-- The pair closes and checks strings of any length, no error in a single byte passes, and
the copies agree. -/
theorem checksum_sound (m k : Firmware) :
    (∀ (p : ByteString) (h : p.bytes.length < 65535), Accepts m (p.snoc (code m p) h)) ∧
      (∀ (q : ByteString) (h : q.bytes ≠ []),
        Accepts m q ↔ q.bytes.getLast h = code m q.rest) ∧
      (∀ q r : ByteString, Accepts m q → Accepts m r → q.bytes.length = r.bytes.length →
        ¬ ∃! j : Nat, q.bytes[j]? ≠ r.bytes[j]?) ∧
      ∀ (data : Nat → UInt8) (len : UInt16), m.calculate data len = k.calculate data len ∧
        (m.analysis data len).result = (k.analysis data len).result := by
  refine ⟨accepts_snoc m m, accepts_iff_getLast m, ?_, ?_⟩
  · rintro q r hq hr hlen ⟨j, hne, honly⟩
    apply hne
    apply accepted_eq m m hq hr hlen
    intro i hi
    by_contra hdiff
    exact hi (honly i hdiff)
  · intro data len
    rw [calculate_eq, calculate_eq, analysis_eq, analysis_eq]
    exact ⟨rfl, rfl⟩

/-- The body of a speed command. -/
def speedBody : ByteString := ⟨[0xA1, 0x01, 0x02], by decide⟩

theorem checksum_sound_speed :
    code .ble speedBody = 0x5B ∧
      Accepts .ble (speedBody.snoc (code .ble speedBody) (by decide)) ∧
      Firmware.ble.calculate (bytesAt [0x5B]) 1 = Firmware.l151.calculate (bytesAt [0x5B]) 1 :=
  ⟨by decide, (checksum_sound .ble .l151).1 speedBody (by decide),
    ((checksum_sound .ble .l151).2.2.2 (bytesAt [0x5B]) 1).1⟩

end BleCar.Protocol.Checksum
