import BinaryFormat.Codec.Conversion
import BinaryFormat.Proofs.FixedWidth
import BinaryFormat.Proofs.Numerals

/-!
# Numbers shown as flags

A number is shown by a flag for every mask, which is true if all bits of the mask
are set, and by the bits that no mask covers.  What is built from it has the bits
of the true flags and those that no mask covers.  That is the number itself unless
one of its bits is covered only by masks of which other bits are not set.
-/

namespace BinaryFormat

private theorem Record.extend_of_nodup {α : Type} {entries fields : Record α}
    (distinct : (keys (fields ++ entries)).Nodup) : extend fields entries = fields ++ entries := by
  induction entries generalizing fields with
  | nil => exact (List.append_nil fields).symm
  | cons entry rest ih =>
      have apart : entry.1 ∉ keys fields := by
        rw [keys, List.map_append, List.map_cons] at distinct
        exact fun mem => (List.nodup_append.mp distinct).2.2 _ mem _ List.mem_cons_self rfl
      have moved : fields ++ entry :: rest = (fields ++ [entry]) ++ rest := by simp
      rw [moved] at distinct ⊢
      rw [← ih distinct, ← insert_of_not_mem apart]
      rfl

namespace Codec

variable {flags : List (String × Nat)} {raw i : Nat}

/-! ## Masks -/

/-- A mask stays where a number is cut to it if all bits of the mask are set in the number. -/
private theorem and_eq_mask_iff {mask : Nat} :
    raw &&& mask = mask ↔ ∀ j, mask.testBit j = true → raw.testBit j = true := by
  constructor
  · intro same j inside
    have bit := congrArg (Nat.testBit · j) same
    simpa [inside] using bit
  · intro inside
    refine Nat.eq_of_testBit_eq fun j => ?_
    rw [Nat.testBit_and]
    cases bit : mask.testBit j with
    | false => rw [Bool.and_false]
    | true => rw [inside j bit, Bool.and_true]

private theorem foldl_or (flags : List (String × Nat)) (acc : Nat) :
    flags.foldl (fun acc flag => acc ||| flag.2) acc = acc ||| claimed flags := by
  induction flags generalizing acc with
  | nil => exact (Nat.or_zero acc).symm
  | cons flag rest ih =>
      rw [claimed, List.foldl_cons, List.foldl_cons, ih, ih, Nat.zero_or, Nat.or_assoc]

private theorem claimed_cons (flag : String × Nat) (rest : List (String × Nat)) :
    claimed (flag :: rest) = flag.2 ||| claimed rest := by
  rw [claimed, List.foldl_cons, Nat.zero_or, foldl_or]

private theorem testBit_claimed :
    (claimed flags).testBit i = true ↔ ∃ flag ∈ flags, flag.2.testBit i = true := by
  induction flags with
  | nil => simp [claimed]
  | cons flag rest ih => simp [claimed_cons, ih]

private theorem testBit_unclaimed : (unclaimed flags raw).testBit i = true ↔
    raw.testBit i = true ∧ ∀ flag ∈ flags, flag.2.testBit i = false := by
  have covered : (claimed flags).testBit i = true ↔ _ := testBit_claimed
  rw [unclaimed, Nat.testBit_xor, Nat.testBit_and]
  cases bit : (claimed flags).testBit i with
  | false =>
      have free : ∀ flag ∈ flags, flag.2.testBit i = false := fun flag mem => by
        by_contra set
        exact absurd (covered.mpr ⟨flag, mem, eq_true_of_ne_false set⟩) (by simp [bit])
      simpa using fun _ => free
  | true =>
      obtain ⟨flag, mem, set⟩ := covered.mp bit
      simp only [Bool.and_true, Bool.xor_self, Bool.false_eq_true, false_iff, not_and]
      intro _ free
      rw [free flag mem] at set
      cases set

private theorem unclaimed_ne_zero_iff : unclaimed flags raw ≠ 0 ↔
    ∃ i, raw.testBit i = true ∧ ∀ flag ∈ flags, flag.2.testBit i = false := by
  constructor
  · intro rest
    obtain ⟨i, set⟩ := Nat.exists_testBit_of_ne_zero rest
    exact ⟨i, testBit_unclaimed.mp set⟩
  · rintro ⟨i, free⟩ zero
    have set := testBit_unclaimed.mpr free
    rw [zero, Nat.zero_testBit] at set
    cases set

/-! ## What is shown and what is kept -/

/-- Names that are told apart from each other, from private entries and from the entry for bits
without a flag. -/
structure WellFlagged (flags : List (String × Nat)) : Prop where
  distinct : (flags.map Prod.fst).Nodup
  shown : ∀ flag ∈ flags, Record.isPrivate flag.1 = false
  proper : ∀ flag ∈ flags, flag.1 ≠ unknownFlags

/-- The entries for a number: its flags, and the bits without a flag if there are any. -/
def flagEntries (flags : List (String × Nat)) (raw : Nat) : Record Value :=
  (flags.map fun (name, mask) => (name, .bool (raw &&& mask == mask))) ++
    if unclaimed flags raw = 0 then [] else [(unknownFlags, .ofNat (unclaimed flags raw))]

/-- The flags that are true. -/
def setFlags (flags : List (String × Nat)) (raw : Nat) : List (String × Nat) :=
  flags.filter fun flag => raw &&& flag.2 == flag.2

/-- The bits of the true flags, and those without a flag. -/
def keptBits (flags : List (String × Nat)) (raw : Nat) : Nat :=
  claimed (setFlags flags raw) ||| unclaimed flags raw

/-- No mask covers the bit, or one does of which all bits are set. -/
def KeepsBit (flags : List (String × Nat)) (raw i : Nat) : Prop :=
  (∀ flag ∈ flags, flag.2.testBit i = false) ∨
    ∃ flag ∈ flags, flag.2.testBit i = true ∧ ∀ j, flag.2.testBit j = true → raw.testBit j = true

private theorem testBit_keptBits : (keptBits flags raw).testBit i = true ↔
    raw.testBit i = true ∧ KeepsBit flags raw i := by
  have whole : (claimed (setFlags flags raw)).testBit i = true ↔ ∃ flag ∈ flags,
      flag.2.testBit i = true ∧ ∀ j, flag.2.testBit j = true → raw.testBit j = true := by
    rw [testBit_claimed]
    simp only [setFlags, List.mem_filter, beq_iff_eq, and_eq_mask_iff]
    exact exists_congr fun flag => by tauto
  rw [keptBits, Nat.testBit_or, Bool.or_eq_true, whole, testBit_unclaimed, KeepsBit]
  constructor
  · rintro (⟨flag, mem, set, inside⟩ | ⟨set, free⟩)
    · exact ⟨inside i set, Or.inr ⟨flag, mem, set, inside⟩⟩
    · exact ⟨set, Or.inl free⟩
  · rintro ⟨set, free | covered⟩
    · exact Or.inr ⟨set, free⟩
    · exact Or.inl covered

private theorem keptBits_le : keptBits flags raw ≤ raw := by
  have inside : raw &&& keptBits flags raw = keptBits flags raw :=
    and_eq_mask_iff.mpr fun j set => (testBit_keptBits.mp set).1
  rw [← inside]
  exact Nat.and_le_left

private theorem keptBits_eq_iff :
    keptBits flags raw = raw ↔ ∀ i, raw.testBit i = true → KeepsBit flags raw i := by
  constructor
  · intro same i set
    rw [← same] at set
    exact (testBit_keptBits.mp set).2
  · intro keeps
    refine Nat.eq_of_testBit_eq fun i => Bool.eq_iff_iff.mpr ?_
    rw [testBit_keptBits]
    exact ⟨And.left, fun set => ⟨set, keeps i set⟩⟩

/-! ## Reading and writing -/

private theorem flagRecord_eq (well : WellFlagged flags) (raw : Nat) : flagRecord flags raw =
    flags.map fun (name, mask) => (name, .bool (raw &&& mask == mask)) := by
  have distinct : (Record.keys ([] ++ flags.map fun (name, mask) =>
      (name, Value.bool (raw &&& mask == mask)))).Nodup := by
    rw [List.nil_append, Record.keys, List.map_map]
    exact well.distinct
  exact Record.extend_of_nodup distinct

private theorem maskOf_of_mem (distinct : (flags.map Prod.fst).Nodup) {flag : String × Nat}
    (mem : flag ∈ flags) : maskOf flags flag.1 = .ok flag.2 := by
  induction flags with
  | nil => cases mem
  | cons first rest ih =>
      obtain ⟨apart, distinct⟩ := List.nodup_cons.mp distinct
      rcases List.mem_cons.mp mem with rfl | mem
      · simp [maskOf]
      · have other : (first.1 == flag.1) = false :=
          beq_eq_false_iff_ne.mpr fun same => apart (same ▸ List.mem_map_of_mem mem)
        rw [maskOf, List.find?_cons, other]
        exact ih distinct mem

private theorem entryBits_flag (well : WellFlagged flags) {flag : String × Nat} (mem : flag ∈ flags)
    (set : Bool) : entryBits flags flag.1 (.bool set) = .ok (if set then flag.2 else 0) := by
  rw [entryBits, if_neg (well.proper flag mem)]
  cases set with
  | false => rfl
  | true => exact maskOf_of_mem well.distinct mem

private theorem entryBits_unknown (rest : Nat) :
    entryBits flags unknownFlags (.ofNat rest) = .ok rest := by
  rw [entryBits, if_pos rfl]
  rfl

private theorem foldlM_entryBits (well : WellFlagged flags) (raw acc : Nat)
    {part : List (String × Nat)}
    (within : part ⊆ flags) :
    (part.map fun (name, mask) => (name, Value.bool (raw &&& mask == mask))).foldlM
        (fun acc (name, v) => (entryBits flags name v).map (acc ||| ·)) acc =
      .ok (acc ||| claimed (setFlags part raw)) := by
  induction part generalizing acc with
  | nil => exact congrArg _ (Nat.or_zero acc).symm
  | cons flag rest ih =>
      obtain ⟨mem, within⟩ := List.cons_subset.mp within
      rw [List.map_cons, List.foldlM_cons]
      dsimp only
      rw [entryBits_flag well mem]
      refine (ih (acc ||| _) within).trans (congrArg _ ?_)
      by_cases set : raw &&& flag.2 = flag.2
      · simp [setFlags, set, claimed_cons, Nat.or_assoc]
      · simp [setFlags, set]

private theorem flagBits_flagEntries (well : WellFlagged flags) (raw : Nat) :
    flagBits flags (.flags (flagEntries flags raw)) = .ok (keptBits flags raw) := by
  have shown : Record.visible (flagEntries flags raw) = flagEntries flags raw := by
    refine List.filter_eq_self.mpr fun entry mem => ?_
    rcases List.mem_append.mp mem with mem | mem
    · obtain ⟨flag, isFlag, rfl⟩ := List.mem_map.mp mem
      exact congrArg (!·) (well.shown flag isFlag)
    · split at mem
      · cases mem
      · obtain rfl := List.mem_singleton.mp mem
        exact congrArg (!·) (show Record.isPrivate unknownFlags = false by decide)
  rw [flagBits, shown, flagEntries, List.foldlM_append,
    foldlM_entryBits well raw 0 (List.Subset.refl flags), Nat.zero_or]
  by_cases rest : unclaimed flags raw = 0
  · rw [if_pos rest, keptBits, rest, Nat.or_zero]
    rfl
  · rw [if_neg rest]
    change ((entryBits flags unknownFlags (.ofNat _)).map _ >>= fun acc => pure acc) = _
    rw [entryBits_unknown]
    rfl

variable {c : Codec} {path : Path} {s s' : State}

/-- A number is shown by its entries; strictly only if no bit is without a flag. -/
private theorem parse_flagSet (well : WellFlagged flags) (strict : Bool)
    (parsed : c.parse path s = .ok (.int raw) s') :
    (flagSet c flags strict).parse path s =
      if strict = true ∧ unclaimed flags raw ≠ 0 then
        .error ((Fault.unmapped (.bits (unclaimed flags raw))).atPath path) s'
      else .ok (.flags (flagEntries flags raw)) s' := by
  simp only [flagSet]
  rw [Run.bind_of_ok parsed]
  dsimp only [Value.int?]
  rw [if_neg (Int.not_lt.mpr (Int.natCast_nonneg raw)), Int.toNat_natCast, flagRecord_eq well]
  by_cases rest : unclaimed flags raw = 0
  · rw [if_pos rest, if_neg fun both => both.2 rest, flagEntries, if_pos rest, List.append_nil]
    rfl
  · rw [if_neg rest]
    cases strict with
    | true =>
        rw [if_pos (And.intro rfl rest)]
        rfl
    | false =>
        have apart : unknownFlags ∉ Record.keys
            (flags.map fun (name, mask) => (name, Value.bool (raw &&& mask == mask))) := by
          intro mem
          obtain ⟨entry, isEntry, same⟩ := List.mem_map.mp mem
          obtain ⟨flag, isFlag, rfl⟩ := List.mem_map.mp isEntry
          exact well.proper flag isFlag same
        rw [flagEntries, if_neg rest,
          ← Record.insert_of_not_mem apart]
        rfl

private theorem build_flagSet (well : WellFlagged flags) (strict : Bool) (small : raw < 2 ^ 127)
    (path : Path) (s : State) :
    (flagSet c flags strict).build (.flags (flagEntries flags raw)) path s =
      (do
        let _ ← c.build (.ofNat (keptBits flags raw)) path
        return .flags (flagEntries flags raw) : Run Value) s := by
  have below : ¬ Nat.pow 2 127 ≤ keptBits flags raw :=
    Nat.not_le.mpr (Nat.lt_of_le_of_lt keptBits_le small)
  simp only [flagSet]
  rw [flagBits_flagEntries well, Run.bind_ofExcept_ok, if_neg below]

/-! ## Integers that are seen as flags -/

section Bytes

variable {v w : Value} {units units' : List UInt8}

private theorem BuildsAs.inj (h : c.BuildsAs v units) (h' : c.BuildsAs v units') :
    units = units' := by
  let s : State := ⟨.memory [], .ofParams [], .empty⟩
  have wrote (units : List UInt8) : s.stream.write units = (none, .atEnd units) := by
    simp [s, Stream.memory, Stream.write, Medium.write, Medium.overlay, Stream.atEnd]
  have same := ((h s .this).1 _ (wrote units)).symm.trans ((h' s .this).1 _ (wrote units'))
  have data := congrArg State.stream (EStateM.Result.ok.inj same).2
  exact Stream.atEnd_inj data

private theorem ParsesAs.inj (h : c.ParsesAs units v) (h' : c.ParsesAs units w) : v = w := by
  let s : State := ⟨.memory units, .ofParams [], .empty⟩
  have next : s.stream.left = units ++ [] := (List.append_nil units).symm
  obtain ⟨_, parsed, -⟩ := h s .this [] next
  obtain ⟨_, parsed', -⟩ := h' s .this [] next
  rw [parsed] at parsed'
  exact (EStateM.Result.ok.inj parsed').1

end Bytes

end Codec

/-- Natural numbers of so many bits: in bytes, in bit units or in base 128. -/
inductive Format.Unsigned : Format → Nat → Prop
  | integer {width : Nat} (endian : Endian) (positive : 1 ≤ width) (narrow : width ≤ 16) :
      Unsigned (.integer (.const (.int width)) false endian) (width * 8)
  | bitInteger {width : Nat} (swapped : Bool) (positive : 1 ≤ width) (narrow : width ≤ 128)
      (whole : swapped = true → width % 8 = 0) :
      Unsigned (.bitInteger (.const (.int width)) false swapped) width
  | varint (maxBits : Nat) : Unsigned (.varint maxBits) maxBits

namespace Codec

variable {flags : List (String × Nat)} {n : Nat}

private theorem exists_units (e : Engine) (defs : Definitions) {f : Format} {bits : Nat}
    (unsigned : f.Unsigned bits) (within : n < 2 ^ bits) (small : n < 2 ^ 127) :
    ∃ units, (f.codec e defs).BuildsAs (.int n) units ∧
      (f.codec e defs).ParsesAs units (.int n) := by
  have proper : Value.fitsInt n = true := by
    have low : Value.minInt ≤ n := Int.le_trans (by decide) (Int.natCast_nonneg n)
    have high : (n : Int) ≤ Value.maxInt := Int.le_sub_one_of_lt (Int.ofNat_lt.mpr small)
    simp [Value.fitsInt, low, high]
  have range : (n : Int) ∈ Integer.interval bits false := by
    have high : (n : Int) < 2 ^ bits := by exact_mod_cast within
    simp [Integer.interval, high]
  cases unsigned with
  | integer endian positive narrow =>
      obtain ⟨units, -, -, -, builds, parses⟩ :=
        (integer_twosComplement e _ false endian positive narrow).builds n proper range
      exact ⟨units, builds, parses⟩
  | bitInteger swapped positive narrow whole =>
      obtain ⟨units, -, -, -, builds, parses⟩ :=
        (bitInteger_twosComplement e _ false swapped positive narrow whole).builds n proper range
      exact ⟨units, builds, parses⟩
  | varint =>
      refine ⟨Varint.numeral n, buildsAs_of_write fun path s => ?_, fun s path rest next => ?_⟩
      · have below : ¬ ((Nat.pow 2 bits : Nat) : Int) ≤ n := by
          exact_mod_cast Nat.not_le.mpr within
        simp only [Format.codec, varint, Integer.ofValue, Value.int?, Run.bind_ofExcept_ok]
        rw [if_neg (Int.not_lt.mpr (Int.natCast_nonneg n))]
        exact congrFun (if_neg below) s
      · obtain ⟨whole, ends⟩ := Varint.front_append (Varint.isNumeral_numeral n) rest
        rw [← next] at whole ends
        have number : Varint.value (Varint.front s.stream.left) = n := by
          rw [whole, Varint.value_numeral]
        obtain ⟨left, read, ahead⟩ :=
          (Varint.read_outcome bits path s).accepted ends (number ▸ within)
        rw [number] at read
        rw [whole] at ahead
        exact ⟨left, Run.bind_of_ok read _, ahead⟩

/-- What is shown of a number is built as the bits that it keeps: those that no mask covers and
those that a mask covers all of whose bits are set.  So an unsigned integer is built again as the
units that it was read from just if it keeps all its bits.  Strictly it is refused just if a bit is
covered by no mask. -/
theorem flags_keep_bits (well : WellFlagged flags) (small : n < 2 ^ 127) :
    (∀ i, (keptBits flags n).testBit i = true ↔ n.testBit i = true ∧ KeepsBit flags n i) ∧
    (∀ (c : Codec) (path : Path) (s s' : State), c.parse path s = .ok (.int n) s' →
      (flagSet c flags false).parse path s = .ok (.flags (flagEntries flags n)) s' ∧
      ((∀ i, n.testBit i = true → ∃ flag ∈ flags, flag.2.testBit i = true) →
        (flagSet c flags true).parse path s = .ok (.flags (flagEntries flags n)) s') ∧
      ((∃ i, n.testBit i = true ∧ ∀ flag ∈ flags, flag.2.testBit i = false) →
        (flagSet c flags true).parse path s =
          .error ((Fault.unmapped (.bits (unclaimed flags n))).atPath path) s')) ∧
    (∀ (c : Codec) (strict : Bool) (path : Path) (s : State),
      (flagSet c flags strict).build (.flags (flagEntries flags n)) path s =
        (do
          let _ ← c.build (.ofNat (keptBits flags n)) path
          return .flags (flagEntries flags n) : Run Value) s) ∧
    ∀ (e : Engine) (defs : Definitions) (f : Format) (bits : Nat), f.Unsigned bits →
      n < 2 ^ bits → ∃ units,
        (f.codec e defs).BuildsAs (.int n) units ∧ (f.codec e defs).ParsesAs units (.int n) ∧
        ((Format.flagSet f flags false).codec e defs).ParsesAs units
          (.flags (flagEntries flags n)) ∧
        (((Format.flagSet f flags false).codec e defs).BuildsAs (.flags (flagEntries flags n))
          units ↔ ∀ i, n.testBit i = true → KeepsBit flags n i) := by
  have reads {c : Codec} {path : Path} {s s' : State} (parsed : c.parse path s = .ok (.int n) s') :
      (flagSet c flags false).parse path s = .ok (.flags (flagEntries flags n)) s' := by
    rw [parse_flagSet well false parsed, if_neg fun both => Bool.false_ne_true both.1]
  refine ⟨fun i => testBit_keptBits, fun c path s s' parsed => ⟨reads parsed, ?_, ?_⟩,
    fun c strict path s => build_flagSet well strict small path s,
    fun e defs f bits unsigned within => ?_⟩
  · intro covered
    have none_left : ¬ unclaimed flags n ≠ 0 := by
      rw [unclaimed_ne_zero_iff]
      rintro ⟨i, set, free⟩
      obtain ⟨flag, mem, inside⟩ := covered i set
      rw [free flag mem] at inside
      cases inside
    rw [parse_flagSet well true parsed, if_neg fun both => none_left both.2]
  · intro open_
    rw [parse_flagSet well true parsed, if_pos ⟨rfl, unclaimed_ne_zero_iff.mpr open_⟩]
  · obtain ⟨units, builds, parses⟩ := exists_units e defs unsigned within small
    refine ⟨units, builds, parses, fun s path rest next => ?_, ?_⟩
    · obtain ⟨left, parsed, ahead⟩ := parses s path rest next
      exact ⟨left, reads parsed, ahead⟩
    · -- What is built is built by the component, from the bits that are kept.
      have rebuilds {units' : List UInt8}
          (made : (f.codec e defs).BuildsAs (.int (keptBits flags n)) units') :
          ((Format.flagSet f flags false).codec e defs).BuildsAs
            (.flags (flagEntries flags n)) units' := by
        intro s path
        obtain ⟨takes, refuses⟩ := made s path
        have run := build_flagSet (c := f.codec e defs) well false small path s
        refine ⟨fun left wrote => run.trans ?_, fun fault left failed => run.trans ?_⟩
        · exact Run.bind_of_ok (takes left wrote) _
        · exact Run.bind_of_error (refuses fault left failed) _
      -- The same units are written only if all bits are kept, since units are told apart by what
      -- they are read as.
      rw [← keptBits_eq_iff]
      constructor
      · intro again
        have le : keptBits flags n ≤ n := keptBits_le
        obtain ⟨units', builds', parses'⟩ :=
          exists_units e defs unsigned (le.trans_lt within) (le.trans_lt small)
        obtain rfl := again.inj (rebuilds builds')
        have same := parses'.inj parses
        exact_mod_cast Value.int.inj same
      · intro same
        exact rebuilds (same.symm ▸ builds)

/-- Masks that overlap, one of two bits and one of none: a bit of the greater mask alone is lost
unless it is set together with the other. -/
theorem flags_keep_bits_overlapping :
    (∃ units, ((Format.flagSet (.unsigned 1 .big)
        [("a", 1), ("ab", 3), ("none", 0)] false).codec .exhausted []).ParsesAs units
          (.flags [("a", .bool true), ("ab", .bool true), ("none", .bool true),
            ("unknown", .int 0x80)]) ∧
      ((Format.flagSet (.unsigned 1 .big)
        [("a", 1), ("ab", 3), ("none", 0)] false).codec .exhausted []).BuildsAs
          (.flags [("a", .bool true), ("ab", .bool true), ("none", .bool true),
            ("unknown", .int 0x80)]) units) ∧
    keptBits [("a", 1), ("ab", 3), ("none", 0)] 0x82 = 0x80 := by
  have well : WellFlagged [("a", 1), ("ab", 3), ("none", 0)] :=
    ⟨by decide, by decide, by decide⟩
  refine ⟨?_, by decide⟩
  obtain ⟨-, -, -, integers⟩ := flags_keep_bits well (by decide : 0x83 < 2 ^ 127)
  have octet : (Format.unsigned 1 .big).Unsigned (1 * 8) :=
    .integer .big (by decide) (by decide)
  obtain ⟨units, -, -, parses, builds⟩ :=
    integers .exhausted [] (.unsigned 1 .big) (1 * 8) octet (by decide)
  exact ⟨units, parses, builds.mpr (keptBits_eq_iff.mp (by decide))⟩

/-- A bit of a mask of which another bit is not set is lost. -/
theorem flags_lose_partial_mask :
    (∃ left, ((Format.flagSet (.unsigned 1 .big) [("ab", 3)] false).codec .exhausted []).parse .this
        ⟨.memory [0x01], .ofParams [], .empty⟩ =
      .ok (.flags [("ab", .bool false)]) ⟨left, .ofParams [], .empty⟩) ∧
    ((Format.flagSet (.unsigned 1 .big) [("ab", 3)] false).codec .exhausted []).build
        (.flags [("ab", .bool false)]) .this ⟨.memory [], .ofParams [], .empty⟩ =
      .ok (.flags [("ab", .bool false)]) ⟨.atEnd [0x00], .ofParams [], .empty⟩ :=
  ⟨⟨_, rfl⟩, rfl⟩

end Codec

end BinaryFormat
