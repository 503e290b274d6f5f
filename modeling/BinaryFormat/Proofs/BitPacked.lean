import BinaryFormat.Format.Meaning
import BinaryFormat.Proofs.Bits.Numbers
import BinaryFormat.Proofs.Blind
import BinaryFormat.Proofs.Deferral
import BinaryFormat.Proofs.Writing

/-!
# Structures of bit fields

A structure of integers of so many bits each, in a bit view, is their concatenation: the bytes
are the digits of one number, in which every field has the place value of the fields behind it.
The view can be left only where the widths add up to whole bytes.
-/

namespace BinaryFormat

/-! ## Fields -/

/-- A named integer of so many bits. -/
structure BitField where
  name : String
  width : Nat
  signed : Bool
  deriving DecidableEq, Repr

namespace BitField

def format (f : BitField) : Format :=
  .named f.name (.bitInteger (.const (.int f.width)) f.signed false)

/-- Widths that an integer can have. -/
def Proper (f : BitField) : Prop := 1 ≤ f.width ∧ f.width ≤ 128

def InRange (f : BitField) (v : Int) : Prop := Integer.fits v f.width f.signed = true

/-- The bits of a value: its residue modulo the power of two of the width. -/
def pattern (f : BitField) (v : Int) : Nat := Integer.toPattern v f.width

/-- The field is unsigned and as wide as integers are, and the value has its top bit set. -/
def Overflows (f : BitField) (v : Int) : Prop :=
  f.width = 128 ∧ f.signed = false ∧ (f.pattern v).testBit 127 = true

instance (f : BitField) (v : Int) : Decidable (f.Overflows v) :=
  inferInstanceAs (Decidable (_ ∧ _ ∧ _))

/-- Some value overflows its field. -/
def SomeOverflows (fields : List BitField) (values : List Int) : Prop :=
  ∃ pair ∈ fields.zip values, pair.1.Overflows pair.2

instance (fields : List BitField) (values : List Int) : Decidable (SomeOverflows fields values) :=
  inferInstanceAs (Decidable (∃ pair ∈ fields.zip values, pair.1.Overflows pair.2))

def names (fields : List BitField) : List String := fields.map name

/-- The entries of a structure with these values. -/
def entries (fields : List BitField) (values : List Int) : Record Value :=
  (names fields).zip (values.map .int)

def totalWidth (fields : List BitField) : Nat := (fields.map width).sum

/-- The sum of the patterns, each with the place value of the fields behind it. -/
def packed : List BitField → List Int → Nat
  | f :: fields, v :: values => f.pattern v * 2 ^ totalWidth fields + packed fields values
  | _, _ => 0

/-- The units of the values, one field behind the other. -/
def units : List BitField → List Int → List UInt8
  | f :: fields, v :: values => Bits.ofNat (f.pattern v) f.width ++ units fields values
  | _, _ => []

variable {f : BitField} {fields : List BitField} {v : Int} {values : List Int}

private theorem totalWidth_cons (f : BitField) (fields : List BitField) :
    totalWidth (f :: fields) = f.width + totalWidth fields := rfl

private theorem someOverflows_cons :
    SomeOverflows (f :: fields) (v :: values) ↔ f.Overflows v ∨ SomeOverflows fields values := by
  simp [SomeOverflows]

private theorem pattern_lt (f : BitField) (v : Int) : f.pattern v < 2 ^ f.width :=
  Integer.toPattern_lt v f.width

private theorem length_units (range : List.Forall₂ InRange fields values) :
    (units fields values).length = totalWidth fields := by
  induction range with
  | nil => rfl
  | cons _ _ ih => rw [units, List.length_append, Bits.length_ofNat, ih, totalWidth_cons]

private theorem map_mod_units (fields : List BitField) (values : List Int) :
    (units fields values).map (· % 2) = units fields values := by
  fun_induction units fields values with
  | case1 f fields v values ih =>
      rw [List.map_append, Bits.map_mod_two (Bits.areBits_ofNat _ _), ih]
  | case2 => rfl

private theorem value_units (range : List.Forall₂ InRange fields values) :
    Bits.value (units fields values) = packed fields values := by
  induction range with
  | nil => rfl
  | @cons f v fields values _ range ih =>
      rw [units, Bits.value_append, Bits.value_ofNat, Nat.mod_eq_of_lt (f.pattern_lt v),
        length_units range, ih, packed]

private theorem packed_lt (range : List.Forall₂ InRange fields values) :
    packed fields values < 2 ^ totalWidth fields := by
  rw [← value_units range, ← length_units range]
  exact Bits.value_lt _

private theorem packed_inj (proper : ∀ f ∈ fields, f.Proper) {others : List Int}
    (range : List.Forall₂ InRange fields values) (range' : List.Forall₂ InRange fields others)
    (same : packed fields values = packed fields others) : values = others := by
  induction range generalizing others with
  | nil => cases range'; rfl
  | @cons f v fields values hv range ih =>
      cases range' with
      | @cons _ w _ others hw range' =>
          obtain ⟨here, behind⟩ := Bits.place_inj (packed_lt range) (packed_lt range') same
          have positive := (proper f List.mem_cons_self).1
          rw [Integer.eq_of_toPattern positive hv hw here,
            ih (fun g mem => proper g (List.mem_cons_of_mem f mem)) range' behind]

private theorem exists_packed (proper : ∀ f ∈ fields, f.Proper) {n : Nat}
    (within : n < 2 ^ totalWidth fields) :
    ∃ values, List.Forall₂ InRange fields values ∧ packed fields values = n := by
  induction fields generalizing n with
  | nil =>
      have zero : n = 0 := by simpa [totalWidth] using within
      exact ⟨[], .nil, zero.symm⟩
  | cons f fields ih =>
      have below : n % 2 ^ totalWidth fields < 2 ^ totalWidth fields :=
        Nat.mod_lt n (Nat.two_pow_pos _)
      have above : n / 2 ^ totalWidth fields < 2 ^ f.width := by
        rw [totalWidth_cons, Nat.pow_add, Nat.mul_comm] at within
        exact Nat.div_lt_of_lt_mul within
      obtain ⟨values, range, rest⟩ :=
        ih (fun g mem => proper g (List.mem_cons_of_mem f mem)) below
      obtain ⟨v, here, first⟩ :=
        Integer.exists_toPattern f.signed (proper f List.mem_cons_self).1 above
      refine ⟨v :: values, .cons here range, ?_⟩
      rw [packed, pattern, first, rest, Nat.div_add_mod']

end BitField

/-! ## Building -/

namespace Stream

/-- A view of bits in which nothing was done but to write these units. -/
def packing (outer : Stream) (units : List UInt8) : Stream :=
  view ⟨⟨.bits, .msbFirst⟩, units, units.length, 0, !units.isEmpty, false⟩ outer

theorem viewed_eq_packing (outer : Stream) : outer.viewed ⟨.bits, .msbFirst⟩ = outer.packing [] :=
  rfl

theorem write_packing (outer : Stream) (before : List UInt8) {units : List UInt8}
    (some : units ≠ []) :
    (outer.packing before).write units = (none, outer.packing (before ++ units)) := by
  rw [packing, write_view some, View.write, Medium.overlay_at_end, packing]
  simp [some]

/-- Writes bytes, if there are any. -/
def put (s : Stream) (bytes : List UInt8) : Option Fault × Stream :=
  if bytes = [] then (none, s) else s.write bytes

private theorem put_growing {data : List UInt8} {pos : Nat} (bytes : List UInt8) :
    (growing data pos).put bytes = (none, ((growing data pos).put bytes).2) := by
  unfold put
  split <;> rfl

theorem finish_packing (outer : Stream) {units : List UInt8} {groups : Nat}
    (whole : units.length = groups * 8) :
    (outer.packing units).finish = outer.put (Bits.pack .msbFirst units) := by
  have length := Bits.length_pack .msbFirst groups whole
  by_cases none : units = []
  · subst none
    exact congrArg _ outer.giveBack_zero
  · have some : Bits.pack .msbFirst units ≠ [] := by
      rw [← ne_eq, ← List.length_pos_iff] at none
      rw [← List.length_pos_iff]
      omega
    have aligned : ¬ units.length % 8 ≠ 0 := by omega
    rw [put, if_neg some]
    exact (finish_written (by simp [none]) outer).trans (if_neg aligned)

private theorem finish_packing_of_partial (outer : Stream) {units : List UInt8}
    (partly : units.length % 8 ≠ 0) :
    (outer.packing units).finish = (some (.misaligned (.written units.length 8)), outer) := by
  have some : units ≠ [] := by
    rintro rfl
    exact partly rfl
  exact (finish_written (by simp [some]) outer).trans (if_pos partly)

end Stream

namespace Codec

open BitField

variable (e : Engine) (defs : Definitions) {f : BitField} {fields : List BitField} {v : Int}
  {values : List Int} {input : Record Value} {path : Path} {outer : Stream} {ctx : Context}
  {store : LazyStore}

private theorem build_bitField (proper : f.Proper) (range : f.InRange v) (before : List UInt8) :
    (f.format.codec e defs).build (.int v) path ⟨outer.packing before, ctx, store⟩ =
      .ok (.int v) ⟨outer.packing (before ++ Bits.ofNat (f.pattern v) f.width), ctx, store⟩ := by
  obtain ⟨positive, narrow⟩ := proper
  have small : f.width ≤ Value.maxSize := narrow.trans (by decide)
  have fits : Integer.fits v f.width f.signed = true := range
  have some : Bits.ofNat (f.pattern v) f.width ≠ [] := by
    rw [ne_eq, ← List.length_eq_zero_iff, Bits.length_ofNat]
    omega
  have written : Run.write (Bits.ofNat (f.pattern v) f.width) path
      ⟨outer.packing before, ctx, store⟩ =
        .ok () ⟨outer.packing (before ++ Bits.ofNat (f.pattern v) f.width), ctx, store⟩ := by
    simp only [Run.write, Stream.write_packing outer before some]
  show (Codec.bitInteger e (.const (.int f.width)) f.signed false).build (.int v) path _ = _
  simp only [Codec.bitInteger]
  rw [Run.bind_of_ok (evalSize_const e path _ small), checkWidth_of_le positive narrow,
    Run.bind_ofExcept_ok, Integer.ofValue]
  simp only [Value.int?, Integer.checkedPattern, fits, if_true, Run.bind_ofExcept_ok]
  exact Run.bind_of_ok written _

/-- Fields write the bits of their values one behind the other, and the frame holds the values
already. -/
private theorem buildFields_bitFields (ctx : Context) (proper : ∀ f ∈ fields, f.Proper)
    (range : List.Forall₂ InRange fields values)
    (given : List.Forall₂ (fun f v => Record.get? ctx.innermost f.name = some (.int v))
      fields values)
    (before : List UInt8) :
    buildFields ctx.innermost path (Format.parts e defs (fields.map format))
        ⟨outer.packing before, ctx, store⟩ =
      .ok () ⟨outer.packing (before ++ units fields values), ctx, store⟩ := by
  induction range generalizing before with
  | nil =>
      have nothing : units [] [] = [] := rfl
      rw [nothing, List.append_nil]
      rfl
  | @cons f v fields values here range ih =>
      obtain _ | ⟨found, given⟩ := given
      have built : Part.build ⟨f.format, f.format.codec e defs⟩ (.int v) (path.member f.name)
          ⟨outer.packing before, ctx, store⟩ =
            .ok (.int v) ⟨outer.packing (before ++ Bits.ofNat (f.pattern v) f.width), ctx, store⟩ :=
        Part.build_of_ok (build_bitField e defs (proper f List.mem_cons_self) here before)
      have noted : ctx.insert f.name (.int v) = ctx := by
        have same := Record.insert_of_get? found
        simp only [Context.innermost] at same
        rw [Context.insert, same]
      have flat : f.format.isEmbedded = false := rfl
      have own : Part.name? ⟨f.format, f.format.codec e defs⟩ = some f.name := rfl
      have later := ih (fun g mem => proper g (List.mem_cons_of_mem f mem)) given
        (before ++ Bits.ofNat (f.pattern v) f.width)
      rw [List.append_assoc] at later
      rw [List.map_cons, Format.parts, units]
      simp only [buildFields, fieldInput, flat, own, found, Bool.false_eq_true, if_false]
      rw [Run.bind_of_ok (Run.pure_apply _ _), Run.bind_of_ok built]
      simp only [Run.insert, Run.modifyContext, bind, EStateM.bind, noted]
      exact later

private theorem build_bitStruct (path : Path) (outer : Stream) (ctx : Context) (store : LazyStore)
    (proper : ∀ f ∈ fields, f.Proper) (range : List.Forall₂ InRange fields values)
    (given : List.Forall₂ (fun f v => Record.get? input f.name = some (.int v)) fields values)
    (overwrite : Bool) :
    (Format.codec e defs (.struct (fields.map format) overwrite)).build (.container input) path
        ⟨outer.packing [], ctx, store⟩ =
      .ok (.container input) ⟨outer.packing (units fields values), ctx, store⟩ := by
  have fieldsBuilt : buildFields input path (Format.parts e defs (fields.map format))
      ⟨outer.packing [], ctx.push input, store⟩ =
        .ok () ⟨outer.packing (units fields values), ctx.push input, store⟩ :=
    buildFields_bitFields e defs (ctx.push input) proper range given []
  have resolved := Engine.resolvePending_of_empty e
    (s := ⟨outer.packing (units fields values), ctx.push input, store⟩) rfl
  have framed : Run.inFrame input (do
      buildFields input path (Format.parts e defs (fields.map format))
      e.resolvePending) ⟨outer.packing [], ctx, store⟩ =
        .ok ((), input) ⟨outer.packing (units fields values), ctx, store⟩ := by
    have inside : (do
        buildFields input path (Format.parts e defs (fields.map format))
        e.resolvePending : Run Unit) ⟨outer.packing [], ctx.push input, store⟩ =
          .ok () ⟨outer.packing (units fields values), ctx.push input, store⟩ :=
      (Run.bind_of_ok fieldsBuilt _).trans resolved
    simp only [Run.inFrame, inside, Context.pop_push]
    rfl
  rw [Format.codec]
  simp only [struct, Engine.containerInput]
  rw [Run.bind_of_ok (Run.pure_apply _ _)]
  exact Run.bind_of_ok framed _

/-- A structure of bit fields is built as the view can be left. -/
private theorem build_bitwise (path : Path) (proper : ∀ f ∈ fields, f.Proper)
    (range : List.Forall₂ InRange fields values)
    (given : List.Forall₂ (fun f v => Record.get? input f.name = some (.int v)) fields values)
    (overwrite : Bool) {s : State} {left : Stream} :
    ((s.stream.packing (units fields values)).finish = (none, left) →
      (Format.codec e defs (.bitwise (.struct (fields.map format) overwrite))).build
        (.container input) path s = .ok (.container input) { s with stream := left }) ∧
    ∀ fault, (s.stream.packing (units fields values)).finish = (some fault, left) →
      (Format.codec e defs (.bitwise (.struct (fields.map format) overwrite))).build
        (.container input) path s =
          .error (fault.atPath path) { s with stream := left.setPos s.stream.pos } := by
  obtain ⟨stream, ctx, store⟩ := s
  have built := build_bitStruct e defs path stream ctx store proper range given overwrite
  have resolved := Run.resolveSince_of_queue e
    (s := ⟨stream.packing (units fields values), ctx, store⟩) rfl true
  have inside : (do
      let built ← (Format.codec e defs (.struct (fields.map format) overwrite)).build
        (.container input) path
      e.resolveSince ctx.mark true
      return built : Run Value) ⟨stream.packing [], ctx, store⟩ =
        .ok (.container input) ⟨stream.packing (units fields values), ctx, store⟩ := by
    rw [Run.bind_of_ok built]
    exact Run.bind_of_ok resolved _
  constructor
  · intro fine
    show Codec.inView ⟨.bits, .msbFirst⟩ path _ _ = _
    simp only [inView, Stream.viewed_eq_packing, inside, fine]
  · intro fault fails
    show Codec.inView ⟨.bits, .msbFirst⟩ path _ _ = _
    simp only [inView, Stream.viewed_eq_packing, inside, fails]

end Codec

/-! ## Parsing -/

namespace Stream

variable {outer outer' : Stream} {v : View} {taken count : Nat}

private theorem left_viewed_bits (outer : Stream) :
    (outer.viewed ⟨.bits, .msbFirst⟩).left = Bits.expand .msbFirst outer.left := by
  have whole : outer.left.take (outer.left.length / 1 * 1) = outer.left := by
    rw [Nat.div_one, Nat.mul_one, List.take_length]
  show Bits.expand .msbFirst (outer.left.take (outer.left.length / 1 * 1)) = _
  rw [whole]

private theorem plain_setPos (s : Stream) (pos : Nat) :
    (s.setPos pos).plain = { s.plain with pos := pos } := by
  cases s <;> rfl

private theorem Ahead.setBack {s s' : Stream} {n : Nat} (h : s.Ahead n s') :
    s.Ahead 0 (s'.setPos s.pos) where
  enough := Nat.zero_le _
  plain := by
    rw [plain_setPos, h.plain, ← pos_plain]
    rfl

/-- A view of bits from which so many units were read, and nothing else was done. -/
structure Reading (outer : Stream) (taken : Nat) (v : View) (outer' : Stream) : Prop where
  viewing : ∃ chunks, Viewing outer ⟨.bits, .msbFirst⟩ chunks v outer' ∧ taken ≤ chunks * 8
  ahead : (outer.viewed ⟨.bits, .msbFirst⟩).Ahead taken (view v outer')

private theorem reading_viewed (outer : Stream) :
    Reading outer 0 ⟨⟨.bits, .msbFirst⟩, [], 0, 0, false, false⟩ outer where
  viewing := ⟨0, viewing_viewed outer _, Nat.le_refl 0⟩
  ahead := .refl _

private theorem Reading.pos_eq (h : Reading outer taken v outer') : v.pos = taken :=
  h.ahead.pos_eq.trans (Nat.zero_add taken)

private theorem Reading.left_eq (h : Reading outer taken v outer') :
    (view v outer').left = (Bits.expand .msbFirst outer.left).drop taken := by
  rw [h.ahead.left_eq, left_viewed_bits]

private theorem Reading.read (h : Reading outer taken v outer')
    (enough : taken + count ≤ 8 * outer.left.length) :
    ∃ v' outer'', (view v outer').read (some count) =
        (((Bits.expand .msbFirst outer.left).drop taken).take count, view v' outer'') ∧
      Reading outer (taken + count) v' outer'' := by
  obtain ⟨chunks, viewing, within⟩ := h.viewing
  obtain ⟨units, ahead⟩ := (view v outer').honest (some count)
  obtain ⟨chunks', v', outer'', left, viewing', -, fetched⟩ := viewing.read (some count)
  have fetched := fetched count rfl
  have length : ((view v outer').read (some count)).1.length = count := by
    rw [units, h.left_eq, Medium.upTo, List.length_take, List.length_drop, Bits.length_expand]
    omega
  rw [length, left] at ahead
  rw [h.left_eq] at units
  refine ⟨v', outer'', Prod.ext units left, ⟨chunks', viewing', ?_⟩, h.ahead.trans ahead⟩
  by_cases nothing : count = 0
  · subst nothing
    rw [if_pos rfl, reached_zero, Nat.max_zero] at fetched
    omega
  · rw [if_neg nothing, h.pos_eq] at fetched
    have needed := Recoding.le_chunks ⟨.bits, .msbFirst⟩ (taken + count)
    have there : outer.left.length / 1 = outer.left.length := Nat.div_one _
    simp only [reached, Recoding.chunksFor, Recoding.outer, Recoding.inner, there] at fetched needed
    omega

/-- Where a view of bits can be left, what was read is passed. -/
private theorem Reading.leave (h : Reading outer taken v outer') (whole : taken % 8 = 0) :
    ∃ left, (view v outer').finish = (none, left) ∧ outer.Ahead (taken / 8) left := by
  obtain ⟨chunks, viewing, within⟩ := h.viewing
  have aligned : v.pos % Recoding.inner ⟨.bits, .msbFirst⟩ = 0 := by
    rw [h.pos_eq]
    exact whole
  obtain ⟨fine, ahead⟩ := viewing.finish.2 aligned
  have passed : min (v.pos / Recoding.inner ⟨.bits, .msbFirst⟩) chunks *
      Recoding.outer ⟨.bits, .msbFirst⟩ = taken / 8 := by
    rw [h.pos_eq]
    simp only [Recoding.inner, Recoding.outer]
    omega
  rw [passed] at ahead
  exact ⟨_, Prod.ext fine rfl, ahead⟩

private theorem Reading.stuck (h : Reading outer taken v outer') (partly : taken % 8 ≠ 0) :
    (view v outer').finish = (some (.misaligned (.consumed taken 8)), outer') := by
  obtain ⟨chunks, viewing, -⟩ := h.viewing
  have inside : v.pos % 8 ≠ 0 := h.pos_eq ▸ partly
  have eight : Recoding.inner ⟨.bits, .msbFirst⟩ = 8 := rfl
  simp [finish, viewing.unwritten, viewing.recoding, eight, h.pos_eq, partly]

/-- A view of bits that is given up leaves its outer stream as it was. -/
private theorem Reading.abandon (h : Reading outer taken v outer') :
    outer.Ahead 0 (outer'.setPos outer.pos) := by
  obtain ⟨chunks, viewing, -⟩ := h.viewing
  exact viewing.ahead.setBack

end Stream

namespace Codec

open BitField

variable (e : Engine) (defs : Definitions) {f : BitField} {fields : List BitField} {n : Int}
  {values : List Int} {input : Record Value} {path : Path} {outer outer' : Stream} {v : View}
  {ctx : Context} {store : LazyStore} {taken : Nat}

private theorem parse_bitField (h : outer.Reading taken v outer')
    (enough : taken + f.width ≤ 8 * outer.left.length) (proper : f.Proper) (range : f.InRange n)
    (shown : Bits.value (((Bits.expand .msbFirst outer.left).drop taken).take f.width) =
      f.pattern n) (path : Path) (ctx : Context) (store : LazyStore) :
    ∃ v' outer'', outer.Reading (taken + f.width) v' outer'' ∧
      (f.format.codec e defs).parse path ⟨.view v outer', ctx, store⟩ =
        if f.Overflows n then
          .error ((Fault.misfit (.pattern (f.pattern n))).atPath path)
            ⟨.view v' outer'', ctx, store⟩
        else .ok (.int n) ⟨.view v' outer'', ctx, store⟩ := by
  obtain ⟨positive, narrow⟩ := proper
  have small : f.width ≤ Value.maxSize := narrow.trans (by decide)
  obtain ⟨v', outer'', read, reading⟩ := h.read enough
  refine ⟨v', outer'', reading, ?_⟩
  have length : (((Bits.expand .msbFirst outer.left).drop taken).take f.width).length =
      f.width := by
    rw [List.length_take, List.length_drop, Bits.length_expand]
    omega
  have units : Run.read f.width path ⟨.view v outer', ctx, store⟩ =
      .ok (((Bits.expand .msbFirst outer.left).drop taken).take f.width)
        ⟨.view v' outer'', ctx, store⟩ := by
    simp only [Run.read, read, length, if_true]
  have pattern : Bits.toNat (((Bits.expand .msbFirst outer.left).drop taken).take f.width) =
      f.pattern n := by
    rw [Bits.toNat_eq_value (length.trans_le narrow), shown]
  have decoded : Integer.ofPattern (f.pattern n) f.width f.signed =
      if f.Overflows n then .error (.misfit (.pattern (f.pattern n))) else .ok n :=
    Integer.ofPattern_eq positive narrow range
  show (Codec.bitInteger e (.const (.int f.width)) f.signed false).parse path _ = _
  simp only [Codec.bitInteger]
  rw [Run.bind_of_ok (evalSize_const e path _ small), checkWidth_of_le positive narrow,
    Run.bind_ofExcept_ok, Run.bind_of_ok units]
  simp only [Bool.false_eq_true, if_false]
  rw [Run.bind_pure_apply, pattern, decoded]
  by_cases overflow : f.Overflows n
  · rw [if_pos overflow, if_pos overflow]
    rfl
  · rw [if_neg overflow, if_neg overflow]
    rfl

/-- Fields take the bits of their values, up to the first that overflows. -/
private theorem parseFields_bitFields (h : outer.Reading taken v outer')
    (enough : taken + totalWidth fields ≤ 8 * outer.left.length)
    (proper : ∀ f ∈ fields, f.Proper) (range : List.Forall₂ InRange fields values)
    (shown : Bits.value (((Bits.expand .msbFirst outer.left).drop taken).take
      (totalWidth fields)) = packed fields values)
    (distinct : (Record.keys ctx.innermost ++ names fields).Nodup) (overwrite : Bool)
    (path : Path) (store : LazyStore) :
    ∃ v' outer'' ctx' taken', outer.Reading taken' v' outer'' ∧ ctx.Kept ctx' ∧
      (¬ SomeOverflows fields values → taken' = taken + totalWidth fields ∧
        ctx'.innermost = ctx.innermost ++ entries fields values ∧
        parseFields overwrite false path (Format.parts e defs (fields.map format))
          ⟨.view v outer', ctx, store⟩ = .ok () ⟨.view v' outer'', ctx', store⟩) ∧
      (SomeOverflows fields values → ∃ failure p, failure.fault = .misfit (.pattern p) ∧
        parseFields overwrite false path (Format.parts e defs (fields.map format))
          ⟨.view v outer', ctx, store⟩ = .error failure ⟨.view v' outer'', ctx', store⟩) := by
  induction range generalizing taken v outer' ctx with
  | nil =>
      refine ⟨v, outer', ctx, taken, h, .refl ctx, fun _ => ⟨rfl, ?_, rfl⟩, fun some => ?_⟩
      · exact (List.append_nil _).symm
      · obtain ⟨pair, mem, -⟩ := some
        cases mem
  | @cons f n fields values here range ih =>
      rw [totalWidth_cons] at enough shown
      -- The first units are those of the first field, and the others stand behind them.
      have length : (((Bits.expand .msbFirst outer.left).drop (taken + f.width)).take
          (totalWidth fields)).length = totalWidth fields := by
        rw [List.length_take, List.length_drop, Bits.length_expand]
        omega
      have below := Bits.value_lt (((Bits.expand .msbFirst outer.left).drop
        (taken + f.width)).take (totalWidth fields))
      rw [length] at below
      rw [List.take_add, List.drop_drop, Bits.value_append, length, packed] at shown
      obtain ⟨first, others⟩ := Bits.place_inj below (packed_lt range) shown
      obtain ⟨v₁, outer₁, reading, parsed⟩ := parse_bitField e defs h (by omega)
        (proper f List.mem_cons_self) here first (path.member f.name) ctx store
      have flat : f.format.isEmbedded = false := rfl
      have own : Part.name? ⟨f.format, f.format.codec e defs⟩ = some f.name := rfl
      rw [List.map_cons, Format.parts]
      simp only [parseFields, flat, own, Bool.false_eq_true, if_false, someOverflows_cons]
      by_cases overflow : f.Overflows n
      · rw [if_pos overflow] at parsed
        have failed := Run.tagged_of_error parsed
        refine ⟨v₁, outer₁, ctx, _, reading, .refl ctx, fun none => absurd (.inl overflow) none,
          fun _ => ⟨_, f.pattern n, rfl, Run.bind_of_error failed _⟩⟩
      · rw [if_neg overflow] at parsed
        have built : Part.parse ⟨f.format, f.format.codec e defs⟩ (path.member f.name)
            ⟨.view v outer', ctx, store⟩ = .ok (.int n) ⟨.view v₁ outer₁, ctx, store⟩ :=
          Part.parse_of_ok parsed
        have fresh : f.name ∉ Record.keys ctx.innermost := fun mem =>
          (List.nodup_append.mp distinct).2.2 _ mem _ List.mem_cons_self rfl
        have extended : (ctx.insert f.name (.int n)).innermost =
            ctx.innermost ++ [(f.name, .int n)] := Record.insert_of_not_mem fresh (.int n)
        have distinct' : (Record.keys (ctx.insert f.name (.int n)).innermost ++
            names fields).Nodup := by
          rw [extended, Record.keys, List.map_append, List.append_assoc]
          exact distinct
        obtain ⟨v₂, outer₂, ctx₂, taken₂, reading₂, kept, fine, fails⟩ :=
          ih reading (by omega) (fun g mem => proper g (List.mem_cons_of_mem f mem)) others
            distinct'
        refine ⟨v₂, outer₂, ctx₂, taken₂, reading₂, (ctx.kept_insert _ _).trans kept,
          fun none => ?_, fun some => ?_⟩
        · obtain ⟨count, frame, rest⟩ := fine fun some => none (.inr some)
          refine ⟨by rw [count, totalWidth_cons, Nat.add_assoc], ?_, ?_⟩
          · rw [frame, extended, List.append_assoc]
            rfl
          · rw [Run.bind_of_ok built]
            exact rest
        · obtain ⟨failure, p, misfit, rest⟩ := fails (some.resolve_left overflow)
          refine ⟨failure, p, misfit, ?_⟩
          rw [Run.bind_of_ok built]
          exact rest

/-- A structure of fields parses to their values, unless one overflows. -/
private theorem parse_bitStruct (enough : totalWidth fields ≤ 8 * outer.left.length)
    (proper : ∀ f ∈ fields, f.Proper) (range : List.Forall₂ InRange fields values)
    (shown : Bits.value ((Bits.expand .msbFirst outer.left).take (totalWidth fields)) =
      packed fields values)
    (distinct : (names fields).Nodup) (overwrite : Bool) (path : Path) (ctx : Context)
    (store : LazyStore) :
    ∃ v' outer' taken, outer.Reading taken v' outer' ∧
      (¬ SomeOverflows fields values → taken = totalWidth fields ∧
        (Format.codec e defs (.struct (fields.map format) overwrite)).parse path
          ⟨outer.viewed ⟨.bits, .msbFirst⟩, ctx, store⟩ =
            .ok (.container (entries fields values)) ⟨.view v' outer', ctx, store⟩) ∧
      (SomeOverflows fields values → ∃ failure p, failure.fault = .misfit (.pattern p) ∧
        (Format.codec e defs (.struct (fields.map format) overwrite)).parse path
          ⟨outer.viewed ⟨.bits, .msbFirst⟩, ctx, store⟩ =
            .error failure ⟨.view v' outer', ctx, store⟩) := by
  have fresh : (Record.keys (ctx.push []).innermost ++ names fields).Nodup := distinct
  obtain ⟨v', outer', ctx', taken, reading, kept, fine, fails⟩ :=
    parseFields_bitFields e defs (Stream.reading_viewed outer) (by rwa [Nat.zero_add]) proper
      range shown fresh overwrite path store
  have left := Context.pop_of_kept kept
  refine ⟨v', outer', taken, reading, fun none => ?_, fun some => ?_⟩
  · obtain ⟨count, frame, parsed⟩ := fine none
    rw [Nat.zero_add] at count
    have framed := Run.inFrame_of_ok parsed
    rw [frame, left] at framed
    refine ⟨count, ?_⟩
    rw [Format.codec]
    exact Run.bind_of_ok framed _
  · obtain ⟨failure, p, misfit, parsed⟩ := fails some
    refine ⟨failure, p, misfit, ?_⟩
    have framed : Run.inFrame [] (parseFields overwrite false path
        (Format.parts e defs (fields.map format)))
          ⟨outer.viewed ⟨.bits, .msbFirst⟩, ctx, store⟩ =
            .error failure ⟨.view v' outer', ctx, store⟩ := by
      have parsed : parseFields overwrite false path (Format.parts e defs (fields.map format))
          ⟨outer.viewed ⟨.bits, .msbFirst⟩, ctx.push [], store⟩ =
            .error failure ⟨.view v' outer', ctx', store⟩ := parsed
      simp only [Run.inFrame, parsed, left]
    rw [Format.codec]
    exact Run.bind_of_error framed _

private theorem value_take_expand {data bytes rest : List UInt8} {total : Nat}
    (left : data = bytes ++ rest) (within : total ≤ 8 * bytes.length) :
    Bits.value ((Bits.expand .msbFirst data).take total) =
      Bytes.toNat bytes / 2 ^ (8 * bytes.length - total) := by
  have spread : (Bits.expand .msbFirst bytes).length = 8 * bytes.length :=
    Bits.length_expand _ _
  have first : (Bits.expand .msbFirst data).take total =
      (Bits.expand .msbFirst bytes).take total := by
    rw [left, Bits.expand_append, List.take_append_of_le_length (by omega)]
  have whole : Bytes.toNat bytes =
      Bits.value ((Bits.expand .msbFirst bytes).take total) * 2 ^ (8 * bytes.length - total) +
        Bits.value ((Bits.expand .msbFirst bytes).drop total) := by
    rw [← Bits.value_expand, ← spread, ← List.length_drop, ← Bits.value_append,
      List.take_append_drop]
  have below := Bits.value_lt ((Bits.expand .msbFirst bytes).drop total)
  rw [List.length_drop, spread] at below
  rw [first, whole, Nat.mul_comm, Nat.mul_add_div (Nat.two_pow_pos _), Nat.div_eq_of_lt below,
    Nat.add_zero]

/-- A structure of bit fields in a bit view is the concatenation of their patterns, highest bit
first.  It is built as the bytes of one number, and parses to the only values that make up the
number of the bytes.  Where the widths do not add up to whole bytes, it is built without a byte
written and cannot be parsed either.  No unsigned field of 128 bits parses if its top bit is
set. -/
theorem bitwise_struct (e : Engine) (defs : Definitions) (fields : List BitField)
    (overwrite : Bool) (proper : ∀ f ∈ fields, f.Proper) (distinct : (names fields).Nodup)
    (path : Path) (s : State) :
    let codec := Format.codec e defs (.bitwise (.struct (fields.map format) overwrite))
    let total := totalWidth fields
    (∀ values input, List.Forall₂ InRange fields values →
      List.Forall₂ (fun f v => Record.get? input f.name = some (.int v)) fields values →
      (total % 8 = 0 → ∃ bytes, bytes.length = total / 8 ∧
        Bytes.toNat bytes = packed fields values ∧
        ∀ left, s.stream.put bytes = (none, left) →
          codec.build (.container input) path s =
            .ok (.container input) { s with stream := left }) ∧
      (total % 8 ≠ 0 → codec.build (.container input) path s =
        .error ((Fault.misaligned (.written total 8)).atPath path) s)) ∧
    ∀ bytes rest, s.stream.left = bytes ++ rest → bytes.length = (total + 7) / 8 →
      ∃ values, List.Forall₂ InRange fields values ∧
        packed fields values = Bytes.toNat bytes / 2 ^ (8 * bytes.length - total) ∧
        (∀ others, List.Forall₂ InRange fields others →
          packed fields others = packed fields values → others = values) ∧
        (¬ SomeOverflows fields values → total % 8 = 0 → ∃ left,
          codec.parse path s = .ok (.container (entries fields values)) { s with stream := left } ∧
            s.stream.Ahead bytes.length left) ∧
        (¬ SomeOverflows fields values → total % 8 ≠ 0 → ∃ left,
          codec.parse path s = .error ((Fault.misaligned (.consumed total 8)).atPath path)
            { s with stream := left } ∧ s.stream.Ahead 0 left) ∧
        (SomeOverflows fields values → ∃ failure p left,
          codec.parse path s = .error failure { s with stream := left } ∧
            failure.fault = .misfit (.pattern p) ∧ s.stream.Ahead 0 left) := by
  intro codec total
  constructor
  · intro values input range given
    have length := length_units range
    constructor
    · intro aligned
      have whole : (units fields values).length = total / 8 * 8 := by
        rw [length]
        omega
      refine ⟨Bits.pack .msbFirst (units fields values), Bits.length_pack _ _ whole, ?_, ?_⟩
      · rw [← Bits.value_expand, Bits.expand_pack _ _ whole, map_mod_units, value_units range]
      · intro left put
        rw [← Stream.finish_packing _ whole] at put
        exact (build_bitwise e defs path proper range given overwrite).1 put
    · intro partly
      have partly' : (units fields values).length % 8 ≠ 0 := by rwa [length]
      have fails := Stream.finish_packing_of_partial s.stream partly'
      rw [length] at fails
      have back : s.stream.setPos s.stream.pos = s.stream := by
        cases s.stream <;> rfl
      have built := (build_bitwise e defs path proper range given overwrite).2 _ fails
      rw [back] at built
      exact built
  · intro bytes rest left count
    have within : total ≤ 8 * bytes.length := by omega
    have enough : total ≤ 8 * s.stream.left.length := by
      rw [left, List.length_append]
      omega
    have shown := value_take_expand left within
    have bound := Bits.value_lt ((Bits.expand .msbFirst s.stream.left).take total)
    rw [List.length_take, Bits.length_expand, Nat.min_eq_left enough] at bound
    -- The bits that the fields take are a number below the power of the total width, which some
    -- values make up.
    obtain ⟨values, range, sum⟩ := exists_packed proper bound
    obtain ⟨v, outer, taken, reading, fine, fails⟩ :=
      parse_bitStruct e defs enough proper range sum.symm distinct overwrite path s.context
        s.store
    have inside : codec.parse path s = inView ⟨.bits, .msbFirst⟩ path
        ((Format.codec e defs (.struct (fields.map format) overwrite)).parse path) s := rfl
    refine ⟨values, range, sum.trans shown,
      fun others range' same => packed_inj proper range' range same, fun none aligned => ?_,
      fun none partly => ?_, fun some => ?_⟩
    · obtain ⟨rfl, parsed⟩ := fine none
      obtain ⟨left, finish, ahead⟩ := reading.leave aligned
      have length : bytes.length = total / 8 := by omega
      refine ⟨left, ?_, length ▸ ahead⟩
      rw [inside]
      simp only [inView, parsed, finish]
    · obtain ⟨rfl, parsed⟩ := fine none
      refine ⟨outer.setPos s.stream.pos, ?_, reading.abandon⟩
      rw [inside]
      simp only [inView, parsed, reading.stuck partly]
      rfl
    · obtain ⟨failure, p, misfit, parsed⟩ := fails some
      refine ⟨failure, p, outer.setPos s.stream.pos, ?_, misfit, reading.abandon⟩
      rw [inside]
      simp only [inView, parsed, Stream.abandon]

/-- A bit, three bits and a signed nibble make one byte. -/
theorem bitwise_struct_byte :
    let fields : List BitField := [⟨"flag", 1, false⟩, ⟨"mode", 3, false⟩, ⟨"drift", 4, true⟩]
    let values : List Int := [1, 5, -3]
    let codec := Format.codec .exhausted [] (.bitwise (.struct (fields.map format) false))
    let s : State := ⟨.growing [0xdd, 0x07] 0, .ofParams [], .empty⟩
    (∃ bytes, bytes.length = 1 ∧ Bytes.toNat bytes = 0xdd ∧
      codec.build (.container (entries fields values)) .this s =
        .ok (.container (entries fields values)) { s with stream := (s.stream.put bytes).2 }) ∧
    ∃ left, codec.parse .this s = .ok (.container (entries fields values))
      { s with stream := left } ∧ s.stream.Ahead 1 left := by
  intro fields values codec s
  have proper : ∀ f ∈ fields, f.Proper := by simp [fields, Proper]
  have range : List.Forall₂ InRange fields values := by
    simp [fields, values, InRange, Integer.fits]
  have given : List.Forall₂ (fun f v => Record.get? (entries fields values) f.name =
      some (.int v)) fields values := by
    simp [fields, values, entries, names, Record.get?]
  obtain ⟨building, parsing⟩ :=
    bitwise_struct .exhausted [] fields false proper (by decide) .this s
  obtain ⟨bytes, length, number, built⟩ := (building values _ range given).1 (by decide)
  obtain ⟨others, range', sum, only, parsed, -⟩ := parsing [0xdd] [0x07] rfl (by decide)
  have same : values = others := only values range (by rw [sum]; decide)
  subst same
  exact ⟨⟨bytes, length.trans (by decide), number, built _ (Stream.put_growing bytes)⟩,
    parsed (by decide) (by decide)⟩

/-- The misfit that a run fails for. -/
def misfit? {α : Type} : EStateM.Result Failure State α → Option Misfit
  | .error ⟨.misfit found, _, _⟩ _ => some found
  | _ => none

/-- A field of 128 bits does not parse from set bits, also where another bit is left over. -/
theorem misfit_of_wide :
    let fields : List BitField := [⟨"wide", 128, false⟩, ⟨"odd", 1, false⟩]
    let ones : State := ⟨.memory (List.replicate 17 0xff), .ofParams [], .empty⟩
    totalWidth fields % 8 ≠ 0 ∧ totalWidth fields ≤ 8 * ones.stream.left.length ∧
      misfit? ((Format.codec .exhausted []
          (.bitwise (.struct (fields.map format) false))).parse .this ones) =
        some (.pattern (2 ^ 128 - 1)) :=
  ⟨by decide, by decide, by decide +kernel⟩

end Codec

end BinaryFormat
