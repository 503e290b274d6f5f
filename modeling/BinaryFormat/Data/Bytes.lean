/-!
# Byte strings

Numbers written as byte strings, highest byte first, and byte strings written
as hexadecimal text.
-/

namespace BinaryFormat

namespace Bytes

/-- The number whose base 256 digits are the bytes, highest first. -/
def toNat (data : List UInt8) : Nat := data.foldl (fun acc b => 256 * acc + b.toNat) 0

/-- The low `width` base 256 digits of a number, highest first. -/
def ofNat : Nat → Nat → List UInt8
  | 0, _ => []
  | width + 1, value => ofNat width (value / 256) ++ [UInt8.ofNat (value % 256)]

theorem length_ofNat (width value : Nat) : (ofNat width value).length = width := by
  induction width generalizing value with
  | zero => rfl
  | succ width ih => simp [ofNat, ih]

/-- Cuts off at most `most` groups of `size` from the front. -/
def chunksUpTo (size : Nat) : Nat → List UInt8 → List (List UInt8)
  | 0, _ => []
  | most + 1, data =>
      if data.isEmpty then [] else data.take size :: chunksUpTo size most (data.drop size)

/-- The bytes in groups of `size`, the last one perhaps shorter. -/
def chunks (size : Nat) (data : List UInt8) : List (List UInt8) :=
  chunksUpTo size data.length data

section Chunks

variable {size : Nat} {data : List UInt8}

private theorem chunksUpTo_of_le (positive : 0 < size) {most : Nat} (h : data.length ≤ most) :
    chunksUpTo size most data = chunks size data := by
  have enough (a b : Nat) (data : List UInt8) (ha : data.length ≤ a) (hb : data.length ≤ b) :
      chunksUpTo size a data = chunksUpTo size b data := by
    induction a generalizing b data with
    | zero =>
        rw [List.length_eq_zero_iff.mp (Nat.le_zero.mp ha)]
        cases b <;> simp [chunksUpTo]
    | succ a ih =>
        cases b with
        | zero =>
            rw [List.length_eq_zero_iff.mp (Nat.le_zero.mp hb)]
            simp [chunksUpTo]
        | succ b =>
            have tail := ih b (data.drop size) (by simp; omega) (by simp; omega)
            simp [chunksUpTo, tail]
  exact enough most data.length data h (Nat.le_refl _)

theorem chunks_of_ne_nil (positive : 0 < size) (h : data ≠ []) :
    chunks size data = data.take size :: chunks size (data.drop size) := by
  have length := List.length_pos_iff.mpr h
  obtain ⟨most, hm⟩ := Nat.exists_eq_succ_of_ne_zero (Nat.ne_of_gt length)
  have tail : chunksUpTo size most (data.drop size) = chunks size (data.drop size) := by
    apply chunksUpTo_of_le positive
    rw [List.length_drop]
    omega
  rw [chunks, hm, chunksUpTo, tail]
  simp [h]

end Chunks

/-- Drops a group from the front at most `most` times. -/
private def dropUpTo (unit : List UInt8) : Nat → List UInt8 → List UInt8
  | 0, data => data
  | most + 1, data =>
      if unit.isPrefixOf data then dropUpTo unit most (data.drop unit.length) else data

/-- Drops a group from the front as long as the bytes begin with it. -/
def dropLeading (unit data : List UInt8) : List UInt8 := dropUpTo unit data.length data

section DropLeading

variable {unit data : List UInt8}

private theorem dropUpTo_of_le (some : unit ≠ []) {most most' : Nat} (h : data.length ≤ most)
    (h' : data.length ≤ most') : dropUpTo unit most data = dropUpTo unit most' data := by
  have positive := List.length_pos_iff.mpr some
  have empty (most : Nat) : dropUpTo unit most [] = [] := by
    cases most with
    | zero => rfl
    | succ most => simp [dropUpTo, some]
  induction most generalizing most' data with
  | zero => simp [List.length_eq_zero_iff.mp (Nat.le_zero.mp h), empty]
  | succ most ih =>
      cases most' with
      | zero => simp [List.length_eq_zero_iff.mp (Nat.le_zero.mp h'), empty]
      | succ most' =>
          have later := @ih (data.drop unit.length) most' (by simp; omega) (by simp; omega)
          rw [dropUpTo, dropUpTo, later]

theorem dropLeading_append (some : unit ≠ []) (rest : List UInt8) :
    dropLeading unit (unit ++ rest) = dropLeading unit rest := by
  have positive := List.length_pos_iff.mpr some
  obtain ⟨most, length⟩ : ∃ most, (unit ++ rest).length = most + 1 :=
    Nat.exists_eq_succ_of_ne_zero (by rw [List.length_append]; omega)
  have front : unit.isPrefixOf (unit ++ rest) = true :=
    List.isPrefixOf_iff_prefix.mpr (List.prefix_append unit rest)
  rw [List.length_append] at length
  rw [dropLeading, List.length_append, length, dropUpTo, if_pos front, List.drop_left]
  exact dropUpTo_of_le some (by omega) (Nat.le_refl _)

theorem dropLeading_eq_self (h : ¬ unit <+: data) : dropLeading unit data = data := by
  have front : unit.isPrefixOf data = false := by
    rw [← Bool.not_eq_true, List.isPrefixOf_iff_prefix]
    exact h
  cases length : data.length with
  | zero => simp [dropLeading, length, dropUpTo]
  | succ most => simp [dropLeading, length, dropUpTo, front]

theorem length_dropLeading_mod (unit data : List UInt8) :
    (dropLeading unit data).length % unit.length = data.length % unit.length := by
  suffices h : ∀ most data, (dropUpTo unit most data).length % unit.length =
      data.length % unit.length from h data.length data
  intro most
  induction most with
  | zero => exact fun _ => rfl
  | succ most ih =>
      intro data
      rw [dropUpTo]
      split
      · next front =>
          obtain ⟨rest, rfl⟩ := List.isPrefixOf_iff_prefix.mp front
          rw [List.drop_left, ih, List.length_append, Nat.add_mod_left]
      · rfl

end DropLeading

/-- Drops a group from the end as long as the bytes end with it. -/
def dropTrailing (unit data : List UInt8) : List UInt8 :=
  (dropLeading unit.reverse data.reverse).reverse

end Bytes

namespace Hex

def digit (n : Nat) : Char :=
  if n < 10 then Char.ofNat (48 + n) else Char.ofNat (87 + n)

/-- The low `width` hexadecimal digits of a number. -/
def fixed : Nat → Nat → List Char
  | 0, _ => []
  | width + 1, n => fixed width (n / 16) ++ [digit (n % 16)]

/-- How many hexadecimal digits a number needs, at least one. -/
def width (n : Nat) : Nat := n.log2 / 4 + 1

/-- A number in hexadecimal, with at least `least` digits. -/
def number (least n : Nat) : String := String.ofList (fixed (max least (width n)) n)

def byte (b : UInt8) : String := number 2 b.toNat

/-- Bytes as digit pairs without separators. -/
def compact (data : List UInt8) : String := String.join (data.map byte)

/-- Bytes as digit pairs with a blank between them. -/
def spaced (data : List UInt8) : String := " ".intercalate (data.map byte)

end Hex

end BinaryFormat
