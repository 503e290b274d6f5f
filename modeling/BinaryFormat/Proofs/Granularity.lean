import BinaryFormat.Proofs.FixedWidth

/-!
# Integers of bytes and of bits

In a view of the bits of a stream an integer of whole bytes is the same as one
that is read from and written to the bytes directly: highest byte first as it
is, lowest byte first if its groups of bits are swapped.
-/

namespace BinaryFormat

/-- The same fault, or a shortage told in bytes and in bits. -/
inductive Fault.Akin : Fault → Fault → Prop
  | same (fault : Fault) : Akin fault fault
  | shortage (wanted found : Nat) :
      Akin (.shortage (.read wanted found)) (.shortage (.read (wanted * 8) (found * 8)))

/-- Two outcomes with the same value and the same state, or with akin faults. -/
inductive AkinOutcome {α : Type} :
    EStateM.Result Failure State α → EStateM.Result Failure State α → Prop
  | ok (a : α) (s : State) : AkinOutcome (.ok a s) (.ok a s)
  | error {f g : Failure} {s t : State} (akin : f.fault.Akin g.fault) :
      AkinOutcome (.error f s) (.error g t)

private theorem AkinOutcome.of_ok {α : Type} {a : α} {s : State}
    {r : EStateM.Result Failure State α}
    (h : AkinOutcome (.ok a s) r) : r = .ok a s := by
  cases h
  rfl

/-! ## Bytes and their bits -/

namespace Bits

private theorem reversed_expand (data : List UInt8) :
    Bytes.reversed (expand .msbFirst data) = expand .msbFirst data.reverse := by
  have groups (data : List UInt8) :
      expand .msbFirst data = (data.map (expandByte .msbFirst)).flatten := List.flatMap_def
  rw [groups, Bytes.reversed_flatten, ← List.map_reverse, ← groups]
  intro group mem
  obtain ⟨byte, -, rfl⟩ := List.mem_map.mp mem
  exact length_expandByte _ _

end Bits

/-- The order of the bytes that bits have, swapped or not. -/
def Endian.ofSwapped (swapped : Bool) : Endian := if swapped then .little else .big

namespace Integer

private theorem unitsInOrder_expand (swapped : Bool) (data : List UInt8) :
    unitsInOrder swapped (Bits.expand .msbFirst data) =
      Bits.expand .msbFirst (inOrder (.ofSwapped swapped) data) := by
  cases swapped with
  | false => rfl
  | true => exact Bits.reversed_expand data

end Integer

/-! ## Through a view of bits -/

namespace Stream

variable {width : Nat}

/-- A view of bits in which nothing was done but to read the bits of these bytes. -/
def unpacking (outer : Stream) (bytes : List UInt8) (exhausted : Bool) : Stream :=
  view ⟨⟨.bits, .msbFirst⟩, Bits.expand .msbFirst bytes, bytes.length * 8, bytes.length, false,
    exhausted⟩ outer

/-- To read the bits of some bytes is to read the bytes. -/
private theorem read_viewed_bits (positive : 1 ≤ width) (outer : Stream) :
    (outer.viewed ⟨.bits, .msbFirst⟩).read (some (width * 8)) =
      (Bits.expand .msbFirst (outer.read (some width)).1,
        (outer.read (some width)).2.unpacking (outer.read (some width)).1
          ((outer.read (some width)).1.length < width)) := by
  have within : (outer.read (some width)).1.length ≤ width := by
    rw [(outer.honest (some width)).1, Medium.upTo, List.length_take]
    exact Nat.min_le_left _ _
  have chunks := read_chunks (v := ⟨⟨.bits, .msbFirst⟩, [], 0, 0, false, false⟩)
    (n := width) (k := (outer.read (some width)).1.length) rfl rfl rfl positive
    (show outer.read (some (width * Recoding.outer ⟨.bits, .msbFirst⟩)) = _ by
      rw [Recoding.outer, Nat.mul_one])
    (Nat.mul_one _).symm
    (by
      rw [Recoding.decode, Bits.length_expand_eq, Recoding.inner]
      exact Nat.mul_le_mul_right 8 within)
  simp only [Recoding.inner, Recoding.outer, Recoding.decode, Nat.mul_one, List.nil_append,
    Nat.zero_add, Bits.length_expand_eq] at chunks
  exact chunks

private theorem finish_unpacking (outer : Stream) (bytes : List UInt8) (exhausted : Bool) :
    (outer.unpacking bytes exhausted).finish = (none, outer) := by
  simp [unpacking, finish, Recoding.inner, Recoding.outer, giveBack_zero]

end Stream

namespace Run

variable {width : Nat} {path : Path} {stream : Stream} {ctx : Context} {store : LazyStore}
  {s : State}

private theorem read_bits_of_ok (positive : 1 ≤ width) {bytes : List UInt8}
    (h : Run.read width path ⟨stream, ctx, store⟩ = .ok bytes s) :
    ∃ left, s = ⟨left, ctx, store⟩ ∧
      Run.read (width * 8) path ⟨stream.viewed ⟨.bits, .msbFirst⟩, ctx, store⟩ =
        .ok (Bits.expand .msbFirst bytes) ⟨left.unpacking bytes false, ctx, store⟩ := by
  simp only [Run.read] at h
  split at h
  · next whole =>
      cases h
      refine ⟨_, rfl, ?_⟩
      simp only [Run.read, Stream.read_viewed_bits positive, Bits.length_expand_eq, whole, if_true,
        Nat.lt_irrefl, decide_false]
  · cases h

private theorem read_bits_of_error (positive : 1 ≤ width) {failure : Failure}
    (h : Run.read width path ⟨stream, ctx, store⟩ = .error failure s) :
    ∃ found, failure = (Fault.shortage (.read width found)).atPath path ∧ ∃ s',
      Run.read (width * 8) path ⟨stream.viewed ⟨.bits, .msbFirst⟩, ctx, store⟩ =
        .error ((Fault.shortage (.read (width * 8) (found * 8))).atPath path) s' := by
  simp only [Run.read] at h
  split at h
  · cases h
  · next short =>
      cases h
      refine ⟨_, rfl, ⟨(stream.viewed ⟨.bits, .msbFirst⟩).read (some (width * 8)) |>.2, ctx, store⟩,
        ?_⟩
      have fewer : ¬ (stream.read (some width)).1.length * 8 = width * 8 := by omega
      simp only [Run.read, Stream.read_viewed_bits positive, Bits.length_expand_eq, if_neg fewer]

end Run

namespace Codec

open Integer

variable (e : Engine) {width : Nat} (signed swapped : Bool)

private theorem whole_of_bytes (width : Nat) : swapped = true → width * 8 % 8 = 0 :=
  fun _ => Nat.mul_mod_left width 8

private theorem value_unitsInOrder_expand (bytes : List UInt8) :
    Bits.value (unitsInOrder swapped (Bits.expand .msbFirst bytes)) =
      Bytes.toNat (inOrder (.ofSwapped swapped) bytes) := by
  rw [unitsInOrder_expand, Bits.value_expand]

/-- Read as bits, the integer is read as bytes. -/
private theorem parse_bits_as_bytes (positive : 1 ≤ width) (narrow : width ≤ 16) (path : Path)
    (s : State) :
    AkinOutcome
      ((integer e (.const (.int width)) signed (.ofSwapped swapped)).parse path s)
      ((recoded e (bitInteger e (.const (.int ((width * 8 : Nat) : Int))) signed swapped)
        ⟨.bits, .msbFirst⟩ false).parse path s) := by
  obtain ⟨stream, ctx, store⟩ := s
  have ofBits := parse_bitInteger e signed (show 1 ≤ width * 8 by omega) (by omega)
    (whole_of_bytes swapped width) path ⟨stream.viewed ⟨.bits, .msbFirst⟩, ctx, store⟩
  show AkinOutcome _ (inView _ path (_ : Run Value) _)
  rw [parse_integer e signed _ positive narrow]
  cases read : Run.read width path ⟨stream, ctx, store⟩ with
  | error failure s' =>
      obtain ⟨found, rfl, s'', read'⟩ := Run.read_bits_of_error positive read
      rw [Run.bind_of_error read'] at ofBits
      obtain ⟨s₂, failed⟩ := inView_of_error path ofBits
      rw [Run.bind_of_error read, failed]
      exact .error (.shortage width found)
  | ok bytes s' =>
      obtain ⟨left, rfl, read'⟩ := Run.read_bits_of_ok positive read
      rw [Run.bind_of_ok read', value_unitsInOrder_expand] at ofBits
      rw [Run.bind_of_ok read]
      cases number : ofPattern (Bytes.toNat (inOrder (.ofSwapped swapped) bytes)) (width * 8)
          signed with
      | error fault =>
          rw [number] at ofBits
          obtain ⟨s₂, failed⟩ := inView_of_error path ofBits
          rw [failed]
          exact .error (.same fault)
      | ok n =>
          rw [number] at ofBits
          rw [inView_of_ok path ofBits (left.finish_unpacking bytes false)]
          exact .ok _ _

/-- The units that are written for a pattern are the bits of the bytes that are. -/
private theorem unitsInOrder_ofNat (width pattern : Nat) :
    unitsInOrder swapped (Bits.ofNat pattern (width * 8)) =
      Bits.expand .msbFirst (inOrder (.ofSwapped swapped) (Bytes.ofNat width pattern)) := by
  rw [Bits.ofNat_eq_expand, unitsInOrder_expand]

section Viewed

variable {α : Type} {x : Run α} {a : α} {path : Path} {stream : Stream} {ctx : Context}
  {store : LazyStore} {after : α → Run α}

private theorem akin_inView_of_fault {r : Recoding} {fault : Fault} {s s' : State}
    (h : x ⟨stream.viewed r, ctx, store⟩ = .error (fault.atPath path) s') :
    AkinOutcome (.error (fault.atPath path) s)
      (inView r path (x >>= after) ⟨stream, ctx, store⟩) := by
  obtain ⟨s₂, failed⟩ := inView_of_error path (Run.bind_of_error h after)
  rw [failed]
  exact .error (.same fault)

/-- To write the bits of some bytes in a view and leave it is to write the bytes. -/
private theorem akin_inView_of_write {bytes : List UInt8} (some : bytes ≠ [])
    (h : x ⟨stream.viewed ⟨.bits, .msbFirst⟩, ctx, store⟩ =
      (Run.write (Bits.expand .msbFirst bytes) path >>= fun _ => pure a : Run α)
        ⟨stream.viewed ⟨.bits, .msbFirst⟩, ctx, store⟩)
    (settled : ∀ s, after a ⟨s, ctx, store⟩ = .ok a ⟨s, ctx, store⟩) :
    AkinOutcome ((Run.write bytes path >>= fun _ => pure a : Run α) ⟨stream, ctx, store⟩)
      (inView ⟨.bits, .msbFirst⟩ path (x >>= after) ⟨stream, ctx, store⟩) := by
  have units : Bits.expand .msbFirst bytes ≠ [] := by
    rw [← List.length_pos_iff, Bits.length_expand_eq]
    exact Nat.mul_pos (List.length_pos_iff.mpr some) (by decide)
  have written : Run.write (Bits.expand .msbFirst bytes) path
      ⟨stream.viewed ⟨.bits, .msbFirst⟩, ctx, store⟩ =
        .ok () ⟨stream.packing (Bits.expand .msbFirst bytes), ctx, store⟩ := by
    simp only [Run.write, Stream.viewed_eq_packing, Stream.write_packing stream [] units,
      List.nil_append]
  rw [Run.bind_of_ok written] at h
  have inside := (Run.bind_of_ok h after).trans (settled _)
  have left : (stream.packing (Bits.expand .msbFirst bytes)).finish = stream.write bytes := by
    rw [Stream.finish_packing stream (Bits.length_expand_eq bytes), Bits.pack_expand, Stream.put,
      if_neg some]
  simp only [bind, EStateM.bind, Run.write, inView] at inside ⊢
  rw [inside]
  simp only [left]
  cases stream.write bytes with
  | mk fault outer =>
      cases fault with
      | none => exact .ok _ _
      | some fault => exact .error (.same fault)

end Viewed

private theorem build_bits_as_bytes (positive : 1 ≤ width) (narrow : width ≤ 16) (v : Value)
    (path : Path)
    (s : State) :
    AkinOutcome
      ((integer e (.const (.int width)) signed (.ofSwapped swapped)).build v path s)
      ((recoded e (bitInteger e (.const (.int ((width * 8 : Nat) : Int))) signed swapped)
        ⟨.bits, .msbFirst⟩ false).build v path s) := by
  obtain ⟨stream, ctx, store⟩ := s
  have ofBits := build_bitInteger e signed (show 1 ≤ width * 8 by omega) (by omega)
    (whole_of_bytes swapped width) v path
    ⟨stream.viewed ⟨.bits, .msbFirst⟩, ctx, store⟩
  show AkinOutcome _ (inView _ path (_ >>= settling e ctx.mark) _)
  rw [build_integer e signed _ positive narrow]
  cases ofInt : ofValue v with
  | error fault =>
      rw [ofInt] at ofBits
      exact akin_inView_of_fault ofBits
  | ok n =>
      rw [ofInt, Run.bind_ofExcept_ok] at ofBits
      rw [Run.bind_ofExcept_ok]
      cases pattern : checkedPattern n (width * 8) signed with
      | error fault =>
          rw [pattern] at ofBits
          exact akin_inView_of_fault ofBits
      | ok p =>
          rw [pattern, Run.bind_ofExcept_ok, unitsInOrder_ofNat] at ofBits
          have some : inOrder (.ofSwapped swapped) (Bytes.ofNat width p) ≠ [] := by
            rw [← List.length_pos_iff, length_inOrder, Bytes.length_ofNat]
            exact positive
          exact akin_inView_of_write some ofBits fun s =>
            settling_of_kept (.refl ctx) s store (.int n)

/-- An integer of bits, in a view of the bits of a stream, is the integer of the bytes that they
make up: highest byte first as it is, lowest byte first if it is swapped. -/
theorem bitwise_integer (e : Engine) (defs : Definitions) (width : Nat) (signed swapped : Bool)
    (positive : 1 ≤ width) (narrow : width ≤ 16) (path : Path) (s : State) :
    let bytes := (Format.integer (.const (.int width)) signed (.ofSwapped swapped)).codec e defs
    let bits := (Format.bitwise
      (.bitInteger (.const (.int ((width * 8 : Nat) : Int))) signed swapped)).codec e defs
    AkinOutcome (bytes.parse path s) (bits.parse path s) ∧
      ∀ v, AkinOutcome (bytes.build v path s) (bits.build v path s) :=
  ⟨parse_bits_as_bytes e signed swapped positive narrow path s,
    fun v => build_bits_as_bytes e signed swapped positive narrow v path s⟩

/-- Sixteen swapped bits are the word that two bytes make up, lowest byte first. -/
theorem bitwise_integer_word :
    ((Format.bitwise (.bitInteger (.const (.int 16)) true true)).codec .exhausted []).parse .this
      ⟨.memory [0xfe, 0xff, 0x07], .ofParams [], .empty⟩ =
        .ok (.int (-2)) ⟨.medium ⟨.growing, [0xfe, 0xff, 0x07], 2⟩, .ofParams [], .empty⟩ := by
  have agree := (bitwise_integer .exhausted [] 2 true true (by decide) (by decide) .this
    ⟨.memory [0xfe, 0xff, 0x07], .ofParams [], .empty⟩).1
  exact AkinOutcome.of_ok agree

end Codec

end BinaryFormat
