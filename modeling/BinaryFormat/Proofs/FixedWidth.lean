import BinaryFormat.Format.Meaning
import BinaryFormat.Proofs.BitPacked
import BinaryFormat.Proofs.Encoding
import BinaryFormat.Proofs.Exact

/-!
# Integers of fixed width

An integer of so many bytes or bit units is exact two's complement: the integers
in range are written and read back, all others are refused, and every pattern is
that of one integer, which is written as it.  The only patterns without an
integer are those of 128 bits without a sign that need more than 127.
-/

namespace BinaryFormat

namespace Bytes

theorem length_flatten {size : Nat} {groups : List (List UInt8)}
    (whole : ∀ group ∈ groups, group.length = size) :
    groups.flatten.length = groups.length * size := by
  rw [List.length_flatten, List.map_congr_left whole]
  simp

theorem chunks_flatten {size : Nat} (positive : 0 < size) {groups : List (List UInt8)}
    (whole : ∀ group ∈ groups, group.length = size) : chunks size groups.flatten = groups := by
  induction groups with
  | nil => rfl
  | cons group rest ih =>
      have length := whole group List.mem_cons_self
      have some : (group :: rest).flatten ≠ [] := by
        intro none
        have empty := (List.append_eq_nil_iff.mp none).1
        rw [empty] at length
        exact absurd length (Nat.ne_of_lt positive)
      rw [chunks_of_ne_nil positive some, List.flatten_cons, List.take_left' length,
        List.drop_left' length, ih fun other mem => whole other (List.mem_cons_of_mem group mem)]

theorem exists_groups {size count : Nat} {data : List UInt8} (whole : data.length = count * size) :
    ∃ groups : List (List UInt8), data = groups.flatten ∧ groups.length = count ∧
      ∀ group ∈ groups, group.length = size := by
  induction count generalizing data with
  | zero =>
      rw [Nat.zero_mul, List.length_eq_zero_iff] at whole
      exact ⟨[], whole, rfl, by simp⟩
  | succ count ih =>
      rw [Nat.succ_mul] at whole
      obtain ⟨groups, rest, length, sizes⟩ := @ih (data.drop size)
        (by rw [List.length_drop]; omega)
      refine ⟨data.take size :: groups, ?_, by rw [List.length_cons, length], ?_⟩
      · rw [List.flatten_cons, ← rest, List.take_append_drop]
      · intro group mem
        rcases List.mem_cons.mp mem with rfl | mem
        · rw [List.length_take]
          omega
        · exact sizes group mem

/-- The groups of eight units in reverse order. -/
def reversed (units : List UInt8) : List UInt8 := (chunks 8 units).reverse.flatten

section Reversed

variable {units : List UInt8} {count : Nat}

theorem reversed_flatten {groups : List (List UInt8)} (whole : ∀ group ∈ groups, group.length = 8) :
    reversed groups.flatten = groups.reverse.flatten := by
  rw [reversed, chunks_flatten (by decide) whole]

private theorem reversed_reversed (whole : units.length = count * 8) :
    reversed (reversed units) = units := by
  obtain ⟨groups, rfl, -, sizes⟩ := exists_groups whole
  rw [reversed_flatten sizes,
    reversed_flatten fun group mem => sizes group (List.mem_reverse.mp mem), List.reverse_reverse]

private theorem length_reversed (whole : units.length = count * 8) :
    (reversed units).length = units.length := by
  obtain ⟨groups, rfl, -, sizes⟩ := exists_groups whole
  rw [reversed_flatten sizes, List.length_flatten, List.length_flatten, List.map_reverse,
    List.sum_reverse]

private theorem mem_reversed (whole : units.length = count * 8) {u : UInt8} :
    u ∈ reversed units ↔ u ∈ units := by
  obtain ⟨groups, rfl, -, sizes⟩ := exists_groups whole
  rw [reversed_flatten sizes]
  simp

end Reversed

end Bytes

/-! ## Two's complement -/

namespace Integer

/-- The integers that so many bits can hold. -/
def interval (bits : Nat) (signed : Bool) : Set Int :=
  if signed then Set.Ico (-2 ^ (bits - 1)) (2 ^ (bits - 1)) else Set.Ico 0 (2 ^ bits)

private theorem fits_iff_mem {v : Int} {bits : Nat} {signed : Bool} :
    fits v bits signed = true ↔ v ∈ interval bits signed := by
  cases signed <;> simp [fits, interval, Set.mem_Ico]

/-- So far up an unsigned integer of 128 bits can be a value. -/
private theorem fitsInt_of_fits {v : Int} {bits : Nat} {signed : Bool} (positive : 1 ≤ bits)
    (narrow : bits ≤ 128) (fits : fits v bits signed = true)
    (small : signed = true ∨ v < 2 ^ 127) : Value.fitsInt v = true := by
  have half : (2 : Int) ^ (bits - 1) ≤ 2 ^ 127 := by
    exact_mod_cast Nat.pow_le_pow_right (by decide) (by omega : bits - 1 ≤ 127)
  have bounds : -(2 : Int) ^ 127 ≤ v ∧ v < 2 ^ 127 := by
    rw [fits_iff_mem] at fits
    cases signed with
    | true =>
        obtain ⟨low, high⟩ : v ∈ Set.Ico _ _ := fits
        exact ⟨by omega, by omega⟩
    | false =>
        obtain ⟨low, -⟩ : v ∈ Set.Ico _ _ := fits
        have := small.resolve_left (by simp)
        exact ⟨by omega, this⟩
  simp only [Value.fitsInt, Value.minInt, Value.maxInt, Bool.and_eq_true, Nat.pow_eq,
    Nat.cast_pow, Nat.cast_ofNat]
  exact ⟨decide_eq_true bounds.1, decide_eq_true (by omega)⟩

/-! ### Bytes of bit units -/

/-- Units in the order of their number: as they are, or in whole groups from the last one. -/
def unitsInOrder (swapped : Bool) (units : List UInt8) : List UInt8 :=
  if swapped then Bytes.reversed units else units

section Units

variable {swapped : Bool} {units : List UInt8}

private theorem unitsInOrder_unitsInOrder (whole : swapped = true → units.length % 8 = 0) :
    unitsInOrder swapped (unitsInOrder swapped units) = units := by
  cases swapped with
  | false => rfl
  | true =>
      exact Bytes.reversed_reversed
        (Nat.div_mul_cancel (Nat.dvd_of_mod_eq_zero (whole rfl))).symm

private theorem length_unitsInOrder (whole : swapped = true → units.length % 8 = 0) :
    (unitsInOrder swapped units).length = units.length := by
  cases swapped with
  | false => rfl
  | true =>
      exact Bytes.length_reversed
        (Nat.div_mul_cancel (Nat.dvd_of_mod_eq_zero (whole rfl))).symm

private theorem areBits_unitsInOrder (whole : swapped = true → units.length % 8 = 0)
    (bits : Bits.AreBits units) : Bits.AreBits (unitsInOrder swapped units) := by
  cases swapped with
  | false => exact bits
  | true =>
      intro u mem
      have groups := (Nat.div_mul_cancel (Nat.dvd_of_mod_eq_zero (whole rfl))).symm
      exact bits u ((Bytes.mem_reversed groups).mp mem)

private theorem swap_units {α : Type} (path : Path) (whole : swapped = true → units.length % 8 = 0)
    (f : List UInt8 → Run α) :
    (if swapped then Run.ofExcept path (swapGroups units) >>= f else pure units >>= f) =
      f (unitsInOrder swapped units) := by
  cases swapped with
  | false => rfl
  | true =>
      rw [if_pos rfl, swapGroups, if_neg (not_not.mpr (whole rfl))]
      rfl

end Units

end Integer

namespace Codec

open Integer

/-- The codec stands for the integers of so many bits by patterns of `count` units, each of them
the residue of its integer modulo the power of two.  Integers out of range are refused, and so
are patterns of integers that no value can be. -/
structure TwosComplement (c : Codec) (count bits : Nat) (signed : Bool)
    (Proper : List UInt8 → Prop) (number : List UInt8 → Nat) : Prop where
  builds : ∀ v, Value.fitsInt v = true → v ∈ interval bits signed → ∃ units, Proper units ∧
    units.length = count ∧ (number units : Int) = v % 2 ^ bits ∧ c.BuildsAs (.int v) units ∧
    c.ParsesAs units (.int v)
  refuses : ∀ v, v ∉ interval bits signed → ∀ (s : State) (path : Path), ∃ cause,
    c.build (.int v) path s = .error ((Fault.misfit cause).atPath path) s
  parses : ∀ units, Proper units → units.length = count →
    signed = true ∨ number units < 2 ^ 127 → ∃ v ∈ interval bits signed, Value.fitsInt v = true ∧
      c.ParsesAs units (.int v) ∧ c.BuildsAs (.int v) units
  overflows : ∀ units, Proper units → units.length = count → signed = false →
    2 ^ 127 ≤ number units → bits = 128 ∧ ∀ (s : State) (path : Path) (rest : List UInt8),
      s.stream.left = units ++ rest → ∃ left, c.parse path s =
        .error ((Fault.misfit (.pattern (number units))).atPath path) { s with stream := left }

/-- Patterns that are written and read without loss are two's complement. -/
private theorem twosComplement_of {c : Codec} {count bits : Nat} {signed : Bool}
    {Proper : List UInt8 → Prop} {number : List UInt8 → Nat} (encode : Nat → List UInt8)
    (positive : 1 ≤ bits) (narrow : bits ≤ 128)
    (encoded : ∀ p < 2 ^ bits,
      Proper (encode p) ∧ (encode p).length = count ∧ number (encode p) = p)
    (numbered : ∀ units, Proper units → units.length = count →
      number units < 2 ^ bits ∧ encode (number units) = units)
    (build : ∀ v path s, c.build (.int v) path s = (do
      let pattern ← Run.ofExcept path (checkedPattern v bits signed)
      Run.write (encode pattern) path
      return .int v : Run Value) s)
    (parse : ∀ units, Proper units → units.length = count → ∀ s path rest,
      s.stream.left = units ++ rest → ∃ left, s.stream.Ahead count left ∧
        c.parse path s = (do
          return .int (← Run.ofExcept path (ofPattern (number units) bits signed)) : Run Value)
            { s with stream := left }) :
    c.TwosComplement count bits signed Proper number := by
  have writes {v : Int} (fits : fits v bits signed = true) :
      c.BuildsAs (.int v) (encode (toPattern v bits)) := by
    refine buildsAs_of_write fun path s => ?_
    rw [build, checkedPattern, if_pos fits]
    rfl
  have reads {v : Int} {units : List UInt8} (proper : Proper units) (length : units.length = count)
      (read : ofPattern (number units) bits signed = .ok v) : c.ParsesAs units (.int v) := by
    intro s path rest next
    obtain ⟨left, ahead, parsed⟩ := parse units proper length s path rest next
    rw [read] at parsed
    exact ⟨left, parsed, length ▸ ahead⟩
  refine ⟨fun v value mem => ?_, fun v outside s path => ?_, fun units proper length small => ?_,
    fun units proper length unsigned large => ?_⟩
  -- An integer in range is written as its pattern and read from it.
  · have fits := fits_iff_mem.mpr mem
    obtain ⟨proper, length, own⟩ := encoded _ (toPattern_lt v bits)
    refine ⟨_, proper, length, ?_, writes fits, reads proper length ?_⟩
    · have nonzero : ((2 : Int) ^ bits) ≠ 0 := by positivity
      rw [own, toPattern, Nat.pow_eq, Nat.cast_pow, Nat.cast_ofNat,
        Int.toNat_of_nonneg (Int.emod_nonneg v nonzero)]
    · rw [own]
      cases signed with
      | true => exact ofPattern_signed positive narrow fits
      | false => exact ofPattern_unsigned fits value
  · refine ⟨.integer v bits signed, ?_⟩
    rw [build, checkedPattern, if_neg (fun fits => outside (fits_iff_mem.mp fits))]
    rfl
  · obtain ⟨within, whole⟩ := numbered units proper length
    obtain ⟨v, read, proper'⟩ : ∃ v, ofPattern (number units) bits signed = .ok v ∧
        (signed = true ∨ v < 2 ^ 127) := by
      cases signed with
      | true => exact ⟨_, rfl, .inl rfl⟩
      | false =>
          have below := small.resolve_left (by simp)
          refine ⟨number units, ?_, .inr (by exact_mod_cast below)⟩
          rw [ofPattern, if_neg (by simp), Nat.pow_eq, if_neg (Nat.not_le.mpr below)]
    obtain ⟨fits, pattern⟩ := toPattern_ofPattern positive narrow within read
    refine ⟨v, fits_iff_mem.mp fits, fitsInt_of_fits positive narrow fits proper',
      reads proper length read, ?_⟩
    · have written := writes fits
      rwa [pattern, whole] at written
  · obtain ⟨within, -⟩ := numbered units proper length
    -- Only with 128 bits is there an unsigned pattern that is no value.
    have full : bits = 128 := by
      by_contra other
      have fewer : 2 ^ bits ≤ 2 ^ 127 := Nat.pow_le_pow_right (by decide) (by omega)
      omega
    refine ⟨full, fun s path rest next => ?_⟩
    obtain ⟨left, -, parsed⟩ := parse units proper length s path rest next
    refine ⟨left, ?_⟩
    rw [parsed, unsigned, ofPattern, if_neg (by simp), Nat.pow_eq, if_pos large]
    rfl

section Components

variable (e : Engine) {width : Nat} (signed : Bool)

theorem parse_integer (endian : Endian) (positive : 1 ≤ width) (narrow : width ≤ 16) (path : Path)
    (s : State) : (integer e (.const (.int width)) signed endian).parse path s = (do
      let bytes ← Run.read width path
      return .int (← Run.ofExcept path
        (ofPattern (Bytes.toNat (inOrder endian bytes)) (width * 8) signed)) : Run Value) s := by
  have small : width ≤ Value.maxSize := narrow.trans (by decide)
  simp only [integer]
  rw [Run.bind_of_ok (evalSize_const e path s small), checkWidth_of_le positive narrow,
    Run.bind_ofExcept_ok]

theorem build_integer (endian : Endian) (positive : 1 ≤ width) (narrow : width ≤ 16) (v : Value)
    (path : Path) (s : State) : (integer e (.const (.int width)) signed endian).build v path s = (do
      let n ← Run.ofExcept path (ofValue v)
      let pattern ← Run.ofExcept path (checkedPattern n (width * 8) signed)
      Run.write (inOrder endian (Bytes.ofNat width pattern)) path
      return .int n : Run Value) s := by
  have small : width ≤ Value.maxSize := narrow.trans (by decide)
  simp only [integer]
  rw [Run.bind_of_ok (evalSize_const e path s small), checkWidth_of_le positive narrow,
    Run.bind_ofExcept_ok]

section Bits

variable {swapped : Bool} (positive : 1 ≤ width) (narrow : width ≤ 128)
  (whole : swapped = true → width % 8 = 0)
include positive narrow whole

theorem parse_bitInteger (path : Path) (s : State) :
    (bitInteger e (.const (.int width)) signed swapped).parse path s = (do
      let units ← Run.read width path
      return .int (← Run.ofExcept path
        (ofPattern (Bits.value (unitsInOrder swapped units)) width signed)) : Run Value) s := by
  have small : width ≤ Value.maxSize := narrow.trans (by decide)
  simp only [bitInteger]
  rw [Run.bind_of_ok (evalSize_const e path s small), checkWidth_of_le positive narrow,
    Run.bind_ofExcept_ok]
  cases read : Run.read width path s with
  | error failure s' => rw [Run.bind_of_error read, Run.bind_of_error read]
  | ok units s' =>
      have length := Run.length_of_read read
      rw [← length] at whole
      have narrow' := (length_unitsInOrder whole).trans_le (length.trans_le narrow)
      rw [Run.bind_of_ok read, Run.bind_of_ok read, ← Bits.toNat_eq_value narrow']
      exact congrFun (swap_units path whole fun units => do
        return Value.int (← Run.ofExcept path (ofPattern (Bits.toNat units) width signed))) _

theorem build_bitInteger (v : Value) (path : Path) (s : State) :
    (bitInteger e (.const (.int width)) signed swapped).build v path s = (do
      let n ← Run.ofExcept path (ofValue v)
      let pattern ← Run.ofExcept path (checkedPattern n width signed)
      Run.write (unitsInOrder swapped (Bits.ofNat pattern width)) path
      return .int n : Run Value) s := by
  have small : width ≤ Value.maxSize := narrow.trans (by decide)
  simp only [bitInteger]
  rw [Run.bind_of_ok (evalSize_const e path s small), checkWidth_of_le positive narrow,
    Run.bind_ofExcept_ok]
  cases ofValue v with
  | error fault => rfl
  | ok n =>
      rw [Run.bind_ofExcept_ok, Run.bind_ofExcept_ok]
      cases checkedPattern n width signed with
      | error fault => rfl
      | ok pattern =>
          exact congrFun (swap_units path (by rwa [Bits.length_ofNat]) fun units => do
            Run.write units path
            return Value.int n) s

end Bits

variable (width)

/-- Bytes in the order of the stream are the digits of their number. -/
theorem integer_twosComplement (endian : Endian) (positive : 1 ≤ width) (narrow : width ≤ 16) :
    (integer e (.const (.int width)) signed endian).TwosComplement width (width * 8) signed
      (fun _ => True) fun bytes => Bytes.toNat (inOrder endian bytes) := by
  have digits : 256 ^ width = 2 ^ (width * 8) := by rw [Nat.mul_comm, Nat.pow_mul]
  refine twosComplement_of (fun p => inOrder endian (Bytes.ofNat width p)) (by omega)
    (by omega) (fun p within => ⟨trivial, ?_, ?_⟩) (fun bytes _ length => ⟨?_, ?_⟩)
    (fun v path s => build_integer e signed endian positive narrow (.int v) path s)
    (fun bytes _ length s path rest next => ?_)
  · rw [length_inOrder, Bytes.length_ofNat]
  · rw [inOrder_inOrder, Bytes.toNat_ofNat, digits, Nat.mod_eq_of_lt within]
  · rw [← digits, ← length, ← length_inOrder endian bytes]
    exact Bytes.toNat_lt_pow _
  · rw [← length, ← length_inOrder endian bytes, Bytes.ofNat_toNat, inOrder_inOrder]
  · obtain ⟨left, read, ahead⟩ := Run.read_of_left next path
    rw [length] at read ahead
    exact ⟨left, ahead, by rw [parse_integer e signed endian positive narrow, Run.bind_of_ok read]⟩

/-- Bits, or whole groups of them in reverse order, are the digits of their number. -/
theorem bitInteger_twosComplement (swapped : Bool) (positive : 1 ≤ width) (narrow : width ≤ 128)
    (whole : swapped = true → width % 8 = 0) :
    (bitInteger e (.const (.int width)) signed swapped).TwosComplement width width signed
      Bits.AreBits fun units => Bits.value (unitsInOrder swapped units) := by
  refine twosComplement_of (fun p => unitsInOrder swapped (Bits.ofNat p width)) positive
    narrow (fun p within => ?_) (fun units bits length => ?_)
    (fun v path s => build_bitInteger e signed positive narrow whole (.int v) path s)
    (fun units _ length s path rest next => ?_)
  · have length := Bits.length_ofNat p width
    rw [← length] at whole
    refine ⟨areBits_unitsInOrder whole (Bits.areBits_ofNat p width), ?_, ?_⟩
    · rw [length_unitsInOrder whole, length]
    · rw [unitsInOrder_unitsInOrder whole, Bits.value_ofNat, Nat.mod_eq_of_lt within]
  · rw [← length] at whole ⊢
    rw [← length_unitsInOrder whole]
    refine ⟨Bits.value_lt _, ?_⟩
    rw [Bits.ofNat_value (areBits_unitsInOrder whole bits), unitsInOrder_unitsInOrder whole]
  · obtain ⟨left, read, ahead⟩ := Run.read_of_left next path
    rw [length] at read ahead
    exact ⟨left, ahead, by
      rw [parse_bitInteger e signed positive narrow whole, Run.bind_of_ok read]⟩

end Components

/-- Integers of 1 to 16 bytes and of 1 to 128 bits are exact two's complement, in either order of
the bytes. -/
theorem integers_exact (e : Engine) (defs : Definitions) :
    (∀ (width : Nat) (signed : Bool) (endian : Endian), 1 ≤ width → width ≤ 16 →
      ((Format.integer (.const (.int width)) signed endian).codec e defs).TwosComplement width
        (width * 8) signed (fun _ => True) fun bytes => Bytes.toNat (inOrder endian bytes)) ∧
    ∀ (width : Nat) (signed swapped : Bool), 1 ≤ width → width ≤ 128 →
      (swapped = true → width % 8 = 0) →
      ((Format.bitInteger (.const (.int width)) signed swapped).codec e defs).TwosComplement width
        width signed Bits.AreBits fun units =>
          Bits.value (unitsInOrder swapped units) :=
  ⟨fun width signed endian positive narrow =>
      integer_twosComplement e width signed endian positive narrow,
    fun width signed swapped positive narrow whole =>
      bitInteger_twosComplement e width signed swapped positive narrow whole⟩

/-- The widest unsigned integers, lowest byte first, and swapped bits with a sign: sixteen set bytes
are refused, and the least of three bytes is written and read. -/
theorem integers_exact_widest :
    (∃ left, ((Format.integer (.const (.int 16)) false .little).codec .exhausted []).parse .this
      ⟨.memory (List.replicate 16 0xff ++ [0]), .ofParams [], .empty⟩ =
        .error ((Fault.misfit (.pattern (2 ^ 128 - 1))).atPath .this)
          ⟨left, .ofParams [], .empty⟩) ∧
    ∃ units, Bits.AreBits units ∧ units.length = 24 ∧
      (Bits.value (unitsInOrder true units) : Int) = -2 ^ 23 % 2 ^ 24 ∧
      ((Format.bitInteger (.const (.int 24)) true true).codec .exhausted []).BuildsAs
        (.int (-2 ^ 23)) units ∧
      ((Format.bitInteger (.const (.int 24)) true true).codec .exhausted []).ParsesAs units
        (.int (-2 ^ 23)) := by
  obtain ⟨bytes, bits⟩ := integers_exact .exhausted []
  constructor
  · obtain ⟨-, refused⟩ := (bytes 16 false .little (by decide) (by decide)).overflows
      (List.replicate 16 0xff) trivial (by decide) rfl (by decide)
    exact refused _ .this [0] rfl
  · exact (bits 24 true true (by decide) (by decide) (by decide)).builds (-2 ^ 23) (by decide)
      (by simp [interval])

end Codec

end BinaryFormat
