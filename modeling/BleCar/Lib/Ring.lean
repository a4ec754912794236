import Mathlib.Data.UInt
import Mathlib.Data.List.GetD

/-!
# A ring buffer with free-running counters

The counters run through all 32-bit values and are never reset; the place of a counter is
its remainder by the capacity, which divides 2³². The contents are what lies between the
counters, oldest first. A ring that holds fewer letters than its capacity is a queue.
-/

namespace BleCar.Lib.Ring

structure Buf (α : Type*) where
  cells : Nat → α
  read : UInt32
  write : UInt32

variable {α : Type*} (cap : Nat)

def length (r : Buf α) : Nat := (r.write - r.read).toNat

def put (a : α) (r : Buf α) : Buf α :=
  { r with
    cells := fun i => if i = r.write.toNat % cap then a else r.cells i
    write := r.write + 1 }

/-- The oldest letter. -/
def peek (r : Buf α) : α := r.cells (r.read.toNat % cap)

def drop (r : Buf α) : Buf α := { r with read := r.read + 1 }

def contents (r : Buf α) : List α :=
  (List.range (length r)).map fun i => r.cells ((r.read.toNat + i) % cap)

@[simp] theorem length_contents (r : Buf α) : (contents cap r).length = length r := by
  simp [contents]

theorem toNat_succ {x : UInt32} (h : x.toNat + 1 < 2 ^ 32) : (x + 1).toNat = x.toNat + 1 := by
  rw [UInt32.toNat_add, UInt32.toNat_one]
  omega

theorem length_put {a : α} {r : Buf α} (h : length r + 1 < 2 ^ 32) :
    length (put cap a r) = length r + 1 := by
  have hsub : r.write + 1 - r.read = r.write - r.read + 1 := by grind
  simp only [length, put, hsub]
  exact toNat_succ h

theorem length_drop {r : Buf α} (h : length r ≠ 0) : length (drop r) = length r - 1 := by
  have hlt := (r.write - r.read).toNat_lt
  have hone : 1 ≤ r.write - r.read := by
    rw [UInt32.le_iff_toNat_le, UInt32.toNat_one]
    exact Nat.one_le_iff_ne_zero.mpr h
  have hsub : r.write - (r.read + 1) = r.write - r.read - 1 := by grind
  simp only [length, drop, hsub]
  rw [UInt32.toNat_sub_of_le _ _ hone, UInt32.toNat_one]

/-- Fewer letters than the capacity lie in different places. -/
theorem place_ne (b : Nat) {i n : Nat} (hi : i < n) (hn : n < cap) :
    (b + i) % cap ≠ (b + n) % cap := by
  intro heq
  have hmod : (n - i) % cap = 0 := by
    have hd := Nat.sub_mod_eq_zero_of_mod_eq heq.symm
    rwa [Nat.add_sub_add_left] at hd
  rw [Nat.mod_eq_of_lt (by omega)] at hmod
  omega

section

variable {cap} (hcap : cap ∣ 2 ^ 32) {r : Buf α}

include hcap

/-- The place of the write counter is that of the first letter behind the contents. -/
theorem write_place : r.write.toNat % cap = (r.read.toNat + length r) % cap := by
  have hw : r.write = r.read + (r.write - r.read) := by grind
  have hn : r.write.toNat = (r.read.toNat + length r) % 2 ^ 32 := by
    conv_lhs => rw [hw]
    rw [UInt32.toNat_add]
    rfl
  rw [hn, Nat.mod_mod_of_dvd _ hcap]

theorem read_place (i : Nat) :
    ((r.read + 1).toNat + i) % cap = (r.read.toNat + (i + 1)) % cap := by
  have hn : (r.read + 1).toNat = (r.read.toNat + 1) % 2 ^ 32 := by
    rw [UInt32.toNat_add, UInt32.toNat_one]
  rw [hn, Nat.add_mod, Nat.mod_mod_of_dvd _ hcap, ← Nat.add_mod]
  congr 1
  omega

theorem contents_put {a : α} (h : length r < cap) (hlt : cap < 2 ^ 32) :
    contents cap (put cap a r) = contents cap r ++ [a] := by
  have hlen : length (put cap a r) = length r + 1 := length_put cap (by omega)
  simp only [contents, hlen, List.range_succ, List.map_append, List.map_cons, List.map_nil]
  congr 1
  · apply List.map_congr_left
    intro i hi
    have hne := place_ne cap r.read.toNat (List.mem_range.mp hi) h
    rw [← write_place hcap] at hne
    exact if_neg hne
  · have hlast : (put cap a r).cells ((r.read.toNat + length r) % cap) = a :=
      if_pos (write_place hcap).symm
    exact congrArg (fun x => [x]) hlast

theorem contents_drop (h : length r ≠ 0) :
    contents cap r = peek cap r :: contents cap (drop r) := by
  obtain ⟨n, hn⟩ := Nat.exists_eq_succ_of_ne_zero h
  have hlen : length (drop r) = n := by rw [length_drop h, hn]; rfl
  simp only [contents, hlen, hn, List.range_succ_eq_map, List.map_cons, List.map_map]
  congr 1
  apply List.map_congr_left
  intro i _
  exact congrArg r.cells (read_place hcap i).symm

end

end BleCar.Lib.Ring
