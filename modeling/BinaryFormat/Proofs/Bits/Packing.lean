import BinaryFormat.Data.Bits
import BinaryFormat.Data.Bytes
import Mathlib

/-!
# Packed bits

Bytes are spread into units and units are packed into bytes without loss: either one undoes
the other, up to the zeros that fill the last group.  A unit stands for the bit at its place,
groups of eight are packed each on its own, and the two orders of the bits in a byte differ by
a reversal of every byte.
-/

namespace BinaryFormat

namespace Bits

variable {units : List UInt8}

/-! ## Places -/

/-- The bit of a byte that its unit at an index stands for. -/
def place : BitOrder → Nat → Nat
  | .msbFirst, i => 7 - i
  | .lsbFirst, i => i

private theorem expandByte_eq (order : BitOrder) (byte : UInt8) :
    expandByte order byte =
      (List.range 8).map fun i => unit (byte.toNat.testBit (place order i)) := by
  cases order <;> rfl

private theorem expand_cons (order : BitOrder) (byte : UInt8) (rest : List UInt8) :
    expand order (byte :: rest) = expandByte order byte ++ expand order rest := rfl

theorem expand_append (order : BitOrder) (first second : List UInt8) :
    expand order (first ++ second) = expand order first ++ expand order second :=
  List.flatMap_append

/-- The unit at an index is a bit of the byte that it falls into. -/
private theorem getElem?_expand (order : BitOrder) (data : List UInt8) (i : Nat) :
    (expand order data)[i]? =
      data[i / 8]?.map fun byte => unit (byte.toNat.testBit (place order (i % 8))) := by
  induction data generalizing i with
  | nil => rfl
  | cons byte rest ih =>
      rw [expand_cons]
      by_cases first : i < 8
      · have here : i / 8 = 0 := Nat.div_eq_of_lt first
        have inside : (List.range 8)[i]? = some i := List.getElem?_range first
        rw [List.getElem?_append_left (by rwa [length_expandByte]), here, Nat.mod_eq_of_lt first,
          expandByte_eq, List.getElem?_map, inside]
        rfl
      · have later : i / 8 = (i - 8) / 8 + 1 := by omega
        have same : (i - 8) % 8 = i % 8 := by omega
        rw [List.getElem?_append_right (by rw [length_expandByte]; omega), length_expandByte, ih,
          later, List.getElem?_cons_succ, same]

/-! ## Weights -/

/-- The number whose bits are the lowest bits of the units, the first one lowest. -/
def lowBits : List UInt8 → Nat
  | [] => 0
  | u :: rest => u.toNat % 2 + 2 * lowBits rest

private theorem lowBits_lt (units : List UInt8) : lowBits units < 2 ^ units.length := by
  induction units with
  | nil => exact Nat.one_pos
  | cons u rest ih =>
      rw [lowBits, List.length_cons, Nat.pow_succ]
      omega

private theorem lowBits_units (n count start : Nat) :
    lowBits ((List.range' start count).map fun i => unit (n.testBit i)) =
      n / 2 ^ start % 2 ^ count := by
  induction count generalizing start with
  | zero => exact (Nat.mod_one _).symm
  | succ count ih =>
      have low : (unit (n.testBit start)).toNat % 2 = n / 2 ^ start % 2 := by
        rw [← Nat.toNat_testBit]
        cases n.testBit start <;> rfl
      rw [List.range'_succ, List.map_cons, lowBits, ih, low, Nat.pow_succ, Nat.pow_succ',
        ← Nat.div_div_eq_div_mul, ← Nat.mod_mul]

private theorem foldl_weights (units : List UInt8) (i acc : Nat) :
    (((List.range' i units.length).zip units).map fun (i, u) =>
      u.toNat % 2 * Nat.pow 2 i).foldl (· + ·) acc = acc + 2 ^ i * lowBits units := by
  induction units generalizing i acc with
  | nil => rfl
  | cons u rest ih =>
      rw [List.length_cons, List.range'_succ, List.zip_cons_cons, List.map_cons, List.foldl_cons,
        ih, lowBits, Nat.pow_succ]
      show acc + u.toNat % 2 * 2 ^ i + _ = _
      ring

private theorem toNat_packByte_lsbFirst {group : List UInt8} (eight : group.length = 8) :
    (packByte .lsbFirst group).toNat = lowBits group := by
  have small := lowBits_lt group
  have sum := foldl_weights group 0 0
  rw [eight] at small sum
  rw [Nat.zero_add, Nat.pow_zero, Nat.one_mul] at sum
  exact (congrArg (fun n => (UInt8.ofNat n).toNat) sum).trans (UInt8.toNat_ofNat_of_lt' small)

/-- With the highest bit first the same number is packed from the last unit on. -/
private theorem packByte_msbFirst {group : List UInt8} (eight : group.length = 8) :
    packByte .msbFirst group = packByte .lsbFirst group.reverse := by
  match group, eight with
  | [a, b, c, d, e, f, g, h], _ =>
      simp only [packByte, positions, List.zip_cons_cons, List.zip_nil_right, List.map_cons,
        List.map_nil, List.foldl_cons, List.foldl_nil, List.reverse_cons, List.reverse_nil,
        List.nil_append, List.cons_append]
      refine congrArg UInt8.ofNat ?_
      ring

private theorem expandByte_msbFirst (byte : UInt8) :
    expandByte .msbFirst byte = (expandByte .lsbFirst byte).reverse := rfl

private theorem packByte_expandByte (order : BitOrder) (byte : UInt8) :
    packByte order (expandByte order byte) = byte := by
  have lsbFirst : packByte .lsbFirst (expandByte .lsbFirst byte) = byte := by
    have shape : expandByte .lsbFirst byte =
        (List.range' 0 8).map fun i => unit (byte.toNat.testBit i) := rfl
    refine UInt8.toNat_inj.mp ?_
    rw [toNat_packByte_lsbFirst (length_expandByte _ _), shape, lowBits_units, Nat.pow_zero,
      Nat.div_one]
    exact Nat.mod_eq_of_lt byte.toNat_lt
  cases order with
  | lsbFirst => exact lsbFirst
  | msbFirst =>
      rw [packByte_msbFirst (length_expandByte _ _), expandByte_msbFirst, List.reverse_reverse,
        lsbFirst]

/-! ## Groups -/

private theorem pack_group (order : BitOrder) {group : List UInt8} (eight : group.length = 8)
    (rest : List UInt8) :
    pack order (group ++ rest) = packByte order group :: pack order rest := by
  match group, eight with
  | [a, b, c, d, e, f, g, h], _ => rfl

/-- Units are groups of eight with a partial group behind them, which may be empty. -/
@[elab_as_elim]
theorem inGroups {motive : List UInt8 → Prop} (few : ∀ units, units.length < 8 → motive units)
    (group : ∀ group rest, group.length = 8 → motive rest → motive (group ++ rest))
    (units : List UInt8) : motive units := by
  induction length : units.length using Nat.strong_induction_on generalizing units with
  | _ n ih =>
      by_cases short : units.length < 8
      · exact few units short
      · have eight : (units.take 8).length = 8 := List.length_take_of_le (by omega)
        have shorter : (units.drop 8).length < n := by
          rw [List.length_drop]
          omega
        have split := group _ _ eight (ih _ shorter _ rfl)
        rwa [List.take_append_drop] at split

theorem pack_append (order : BitOrder) (groups : Nat) {first : List UInt8}
    (whole : first.length = groups * 8) (second : List UInt8) :
    pack order (first ++ second) = pack order first ++ pack order second := by
  induction first using inGroups generalizing groups with
  | few first short =>
      obtain rfl : first = [] := List.length_eq_zero_iff.mp (by omega)
      rfl
  | group group rest eight ih =>
      rw [List.length_append, eight] at whole
      rw [List.append_assoc, pack_group order eight, pack_group order eight,
        ih (groups - 1) (by omega), List.cons_append]

theorem length_pack (order : BitOrder) (groups : Nat) {units : List UInt8}
    (whole : units.length = groups * 8) : (pack order units).length = groups := by
  induction units using inGroups generalizing groups with
  | few units short =>
      obtain rfl : units = [] := List.length_eq_zero_iff.mp (by omega)
      rw [List.length_nil] at whole
      rw [pack, List.length_nil]
      omega
  | group group rest eight ih =>
      rw [List.length_append, eight] at whole
      rw [pack_group order eight, List.length_cons, ih (groups - 1) (by omega)]
      omega

theorem pack_expand (order : BitOrder) (data : List UInt8) :
    pack order (expand order data) = data := by
  induction data with
  | nil => rfl
  | cons byte rest ih =>
      have split : pack order (expand order (byte :: rest)) =
          packByte order (expandByte order byte) :: pack order (expand order rest) := by
        cases order <;> rfl
      rw [split, packByte_expandByte, ih]

/-! ## Bits -/

/-- Every unit is a bit. -/
def AreBits (units : List UInt8) : Prop := ∀ u ∈ units, u = 0 ∨ u = 1

instance (units : List UInt8) : Decidable (AreBits units) :=
  inferInstanceAs (Decidable (∀ u ∈ units, u = 0 ∨ u = 1))

theorem areBits_expand (data : List UInt8) : AreBits (expand .msbFirst data) := by
  intro u mem
  obtain ⟨byte, -, inside⟩ := List.mem_flatMap.mp mem
  obtain ⟨i, -, rfl⟩ := List.mem_map.mp inside
  cases byte.toNat.testBit i
  · exact .inl rfl
  · exact .inr rfl

theorem length_expand_eq (data : List UInt8) :
    (expand .msbFirst data).length = data.length * 8 := by
  rw [length_expand, Nat.mul_comm]

theorem map_mod_two (h : AreBits units) : units.map (· % 2) = units := by
  refine (List.map_congr_left fun u mem => ?_).trans (List.map_id units)
  rcases h u mem with rfl | rfl <;> rfl

private theorem unit_mod_two (u : UInt8) : u % 2 = unit (u.toNat % 2 == 1) := by
  refine UInt8.toNat_inj.mp ?_
  rw [UInt8.toNat_mod]
  change u.toNat % 2 = _
  rcases Nat.mod_two_eq_zero_or_one u.toNat with low | low <;> rw [low] <;> rfl

private theorem unit_testBit_lowBits {units : List UInt8} {i : Nat} (inside : i < units.length) :
    unit ((lowBits units).testBit i) = units[i] % 2 := by
  induction units generalizing i with
  | nil => cases inside
  | cons u rest ih =>
      cases i with
      | zero =>
          rw [lowBits, Nat.testBit_zero, Nat.add_mul_mod_self_left, Nat.mod_mod,
            List.getElem_cons_zero, unit_mod_two]
          rcases Nat.mod_two_eq_zero_or_one u.toNat with low | low <;> rw [low] <;> rfl
      | succ i =>
          have half : (u.toNat % 2 + 2 * lowBits rest) / 2 = lowBits rest := by omega
          rw [lowBits, Nat.testBit_succ, half, ih (Nat.lt_of_succ_lt_succ inside)]
          rfl

/-- A group that is packed and spread again keeps the lowest bit of each unit. -/
private theorem expandByte_packByte (order : BitOrder) {group : List UInt8}
    (eight : group.length = 8) :
    expandByte order (packByte order group) = group.map (· % 2) := by
  have lsbFirst {group : List UInt8} (eight : group.length = 8) :
      expandByte .lsbFirst (packByte .lsbFirst group) = group.map (· % 2) := by
    have shape : expandByte .lsbFirst (packByte .lsbFirst group) =
        (List.range 8).map fun i => unit ((packByte .lsbFirst group).toNat.testBit i) := rfl
    rw [shape, toNat_packByte_lsbFirst eight]
    refine List.ext_getElem (by simp [eight]) fun i _ inside => ?_
    rw [List.length_map] at inside
    rw [List.getElem_map, List.getElem_range, unit_testBit_lowBits inside, List.getElem_map]
  cases order with
  | lsbFirst => exact lsbFirst eight
  | msbFirst =>
      rw [packByte_msbFirst eight, expandByte_msbFirst, lsbFirst (by rwa [List.length_reverse]),
        List.map_reverse, List.reverse_reverse]

theorem expand_pack (order : BitOrder) (groups : Nat) {units : List UInt8}
    (whole : units.length = groups * 8) : expand order (pack order units) = units.map (· % 2) := by
  induction units using inGroups generalizing groups with
  | few units short =>
      obtain rfl : units = [] := List.length_eq_zero_iff.mp (by omega)
      rfl
  | group group rest eight ih =>
      rw [List.length_append, eight] at whole
      rw [pack_group order eight, expand_cons, expandByte_packByte order eight,
        ih (groups - 1) (by omega), List.map_append]

/-! ## Partial groups -/

private theorem packByte_append_zeros (order : BitOrder) (group : List UInt8) (zeros : Nat) :
    packByte order (group ++ List.replicate zeros 0) = packByte order group := by
  suffices weightless : ∀ (places : List Nat) (group : List UInt8) (zeros acc : Nat),
      ((places.zip (group ++ List.replicate zeros 0)).map fun (i, u) =>
        u.toNat % 2 * Nat.pow 2 i).foldl (· + ·) acc =
      ((places.zip group).map fun (i, u) => u.toNat % 2 * Nat.pow 2 i).foldl (· + ·) acc from
    congrArg UInt8.ofNat (weightless (positions order) group zeros 0)
  intro places
  induction places with
  | nil => exact fun _ _ _ => rfl
  | cons i places ih =>
      intro group zeros acc
      cases group with
      | cons u rest => exact ih rest zeros _
      | nil =>
          cases zeros with
          | zero => rfl
          | succ zeros =>
              have nothing : acc + (0 : UInt8).toNat % 2 * Nat.pow 2 i = acc := by
                rw [UInt8.toNat_zero, Nat.zero_mod, Nat.zero_mul, Nat.add_zero]
              have rest := ih [] zeros acc
              rw [List.nil_append, List.zip_nil_right] at rest
              rw [List.nil_append, List.replicate_succ, List.zip_cons_cons, List.map_cons,
                List.foldl_cons, nothing, rest]
              rfl

private theorem pack_of_short (order : BitOrder) (some : units ≠ []) (short : units.length < 8) :
    pack order units = [packByte order units] := by
  match units, some, short with
  | [a], _, _ | [a, b], _, _ | [a, b, c], _, _ | [a, b, c, d], _, _ | [a, b, c, d, e], _, _
  | [a, b, c, d, e, f], _, _ | [a, b, c, d, e, f, g], _, _ => rfl
  | _ :: _ :: _ :: _ :: _ :: _ :: _ :: _ :: _, _, short =>
      simp only [List.length_cons] at short
      omega

private theorem pack_append_zeros (order : BitOrder) {zeros : Nat} (few : zeros < 8)
    (whole : 8 ∣ units.length + zeros) :
    pack order (units ++ List.replicate zeros 0) = pack order units := by
  induction units using inGroups with
  | few units short =>
      by_cases none : units = []
      · subst none
        rw [List.length_nil, Nat.zero_add] at whole
        rw [Nat.eq_zero_of_dvd_of_lt whole few, List.replicate_zero, List.append_nil]
      · have positive := List.length_pos_iff.mpr none
        have eight : (units ++ List.replicate zeros 0).length = 8 := by
          rw [List.length_append, List.length_replicate]
          omega
        have alone := pack_group order eight []
        rw [List.append_nil, packByte_append_zeros] at alone
        rw [alone, pack_of_short order none short]
        rfl
  | group group rest eight ih =>
      rw [List.length_append, eight] at whole
      rw [List.append_assoc, pack_group order eight, pack_group order eight, ih (by omega)]

/-- Units that were packed come back as their lowest bits, and the group that they did not fill
as zeros. -/
private theorem expand_pack_append_zeros (order : BitOrder) {zeros : Nat} (few : zeros < 8)
    (whole : 8 ∣ units.length + zeros) :
    expand order (pack order units) = units.map (· % 2) ++ List.replicate zeros 0 := by
  obtain ⟨groups, count⟩ := whole
  have length : (units ++ List.replicate zeros 0).length = groups * 8 := by
    rw [List.length_append, List.length_replicate, count, Nat.mul_comm]
  rw [← pack_append_zeros order few ⟨groups, count⟩, expand_pack order groups length,
    List.map_append, List.map_replicate]
  rfl

private theorem flatMap_pack_chunks (order : BitOrder) (units : List UInt8) :
    (Bytes.chunks 8 units).flatMap (pack order) = pack order units := by
  induction units using inGroups with
  | few units short =>
      by_cases none : units = []
      · subst none
        rfl
      · rw [Bytes.chunks_of_ne_nil (by decide) none, List.take_of_length_le (by omega),
          List.drop_eq_nil_of_le (by omega)]
        exact List.append_nil _
  | group group rest eight ih =>
      have some : group ++ rest ≠ [] := by
        rw [← List.length_pos_iff, List.length_append, eight]
        omega
      rw [Bytes.chunks_of_ne_nil (by decide) some, List.take_left' eight, List.drop_left' eight,
        List.flatMap_cons, ih, pack_append order 1 eight]

/-! ## Reversed bytes -/

private theorem areBits_expandByte (byte : UInt8) : AreBits (expandByte .msbFirst byte) := by
  have all := areBits_expand [byte]
  rwa [expand, List.flatMap_singleton] at all

/-- A byte with its bits reversed is spread the other way round. -/
private theorem expandByte_reverse (byte : UInt8) :
    expandByte .msbFirst (packByte .lsbFirst (expandByte .msbFirst byte)) =
      expandByte .lsbFirst byte := by
  rw [expandByte_msbFirst, expandByte_packByte .lsbFirst (length_expandByte _ _),
    map_mod_two (areBits_expandByte byte), expandByte_msbFirst, List.reverse_reverse]

private theorem expand_reverseEach (data : List UInt8) :
    expand .msbFirst (reverseEach data) = expand .lsbFirst data := by
  rw [expand, expand, reverseEach, List.flatMap_map]
  exact congrArg (List.flatMap · data) (funext expandByte_reverse)

private theorem reverse_byte (byte : UInt8) :
    packByte .lsbFirst (expandByte .msbFirst (packByte .lsbFirst (expandByte .msbFirst byte))) =
      byte := by
  rw [expandByte_reverse, packByte_expandByte]

private theorem reverseEach_reverseEach (data : List UInt8) :
    reverseEach (reverseEach data) = data := by
  simp [reverseEach, Function.comp_def, reverse_byte]

theorem reverseEach_reverse (data : List UInt8) :
    reverseEach (reverseEach data.reverse).reverse = data := by
  have last : reverseEach data.reverse = (reverseEach data).reverse := List.map_reverse
  rw [last, List.reverse_reverse, reverseEach_reverseEach]

private theorem unit_injective : Function.Injective unit := by
  intro a b same
  cases a <;> cases b <;> first | rfl | cases same

private theorem reverseEach_eq (data : List UInt8) :
    reverseEach data = data.map fun byte => ⟨byte.toBitVec.reverse⟩ := by
  refine List.map_congr_left fun byte _ => UInt8.toBitVec_inj.mp (BitVec.eq_of_getLsbD_eq ?_)
  intro i inside
  have there := congrArg (·[i]?) (expandByte_packByte .lsbFirst (length_expandByte .msbFirst byte))
  rw [map_mod_two (areBits_expandByte byte), expandByte_eq, expandByte_eq, List.getElem?_map,
    List.getElem?_map, List.getElem?_range inside] at there
  have bit := unit_injective (Option.some.inj there)
  rw [BitVec.getLsbD_reverse, BitVec.getMsbD_eq_getLsbD, decide_eq_true inside, Bool.true_and]
  exact bit

/-! ## Both directions -/

/-- Packing undoes expansion.  Expansion gives packed bits back with the zeros behind them that
fill the last group, however they are packed, and the bits of reversed bytes in the other order.
Where each bit goes is told by `place`, and which bits a reversal exchanges by their indices. -/
theorem packing_inverts_expansion (order : BitOrder) (data : List UInt8) (bits : AreBits units) :
    pack order (expand order data) = data ∧
    (∃ zeros < 8, 8 ∣ units.length + zeros ∧
      expand order (pack order units) = units ++ List.replicate zeros 0) ∧
    (Bytes.chunks 8 units).flatMap (pack order) = pack order units ∧
    expand .lsbFirst data = expand .msbFirst (reverseEach data) ∧
    reverseEach (reverseEach data) = data ∧
    (∀ i, (expand order data)[i]? =
      data[i / 8]?.map fun byte => unit (byte.toNat.testBit (place order (i % 8)))) ∧
    reverseEach data = data.map fun byte => ⟨byte.toBitVec.reverse⟩ := by
  have filled : ∃ zeros < 8, 8 ∣ units.length + zeros :=
    ⟨(8 - units.length % 8) % 8, Nat.mod_lt _ (by decide), by omega⟩
  obtain ⟨zeros, few, whole⟩ := filled
  have back := expand_pack_append_zeros order few whole
  rw [map_mod_two bits] at back
  exact ⟨pack_expand order data, ⟨zeros, few, whole, back⟩, flatMap_pack_chunks order units,
    (expand_reverseEach data).symm, reverseEach_reverseEach data, getElem?_expand order data,
    reverseEach_eq data⟩

/-- Eleven bits fill one byte and the front of another. -/
theorem packing_inverts_expansion_partial :
    let units : List UInt8 := [1, 1, 1, 0, 0, 0, 0, 1, 1, 0, 1]
    AreBits units ∧ pack .lsbFirst units = [0x87, 0x05] ∧
      expand .lsbFirst [0x87, 0x05] = units ++ List.replicate 5 0 := by
  intro units
  have bits : AreBits units := by decide +kernel
  have packed : pack .lsbFirst units = [0x87, 0x05] := by decide +kernel
  obtain ⟨-, ⟨zeros, few, whole, back⟩, -⟩ := packing_inverts_expansion .lsbFirst [] bits
  have five : zeros = 5 := by
    change 8 ∣ 11 + zeros at whole
    omega
  rw [packed, five] at back
  exact ⟨bits, packed, back⟩

end Bits

end BinaryFormat
