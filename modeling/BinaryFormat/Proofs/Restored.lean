import BinaryFormat.Proofs.Locality
import BinaryFormat.Proofs.Rigid

/-!
# What was parsed is written again

Integers and byte strings of constant size, and structures whose fields all have
names, write the value that was parsed as the bytes that it was parsed from.
-/

namespace BinaryFormat

namespace Integer

theorem bounds_of_checkWidth {width limit : Nat} {unit : String}
    (checked : checkWidth width limit unit = .ok ()) : 1 ≤ width ∧ width ≤ limit := by
  unfold checkWidth at checked
  split at checked
  · cases checked
  · omega

theorem written_of_ofPattern {data : List UInt8} {endian : Endian} {signed : Bool} {k : Int}
    (positive : 1 ≤ data.length) (narrow : data.length ≤ 16)
    (read : ofPattern (Bytes.toNat (inOrder endian data)) (data.length * 8) signed = .ok k) :
    fits k (data.length * 8) signed = true ∧
      inOrder endian (Bytes.ofNat data.length (toPattern k (data.length * 8))) = data := by
  have digits : 256 ^ data.length = 2 ^ (data.length * 8) := by
    rw [Nat.mul_comm, Nat.pow_mul]
  have below := Bytes.toNat_lt_pow (inOrder endian data)
  rw [length_inOrder, digits] at below
  obtain ⟨fits, same⟩ := toPattern_ofPattern (by omega) (by omega) below read
  have bytes := Bytes.ofNat_toNat (inOrder endian data)
  rw [length_inOrder] at bytes
  exact ⟨fits, by rw [same, bytes, inOrder_inOrder]⟩

end Integer

namespace Codec

private theorem Writes.anywhere {c : Codec} {u v : Value} {data : List UInt8}
    (h : c.Writes .nothing u v data) (near : Surroundings) : c.Writes near u v data :=
  fun before ctx store path _ _ =>
    h before ctx store path (Surroundings.held_nothing ctx) (Surroundings.counted_nothing ctx)

/-- Whatever is parsed from a byte string takes bytes that it is written as again. -/
def Restores (c : Codec) : Prop :=
  ∀ (m : Medium) (ctx : Context) (store : LazyStore) (path : Path) (p : Value) (s : State),
    c.parse path ⟨.medium m, ctx, store⟩ = .ok p s →
    ∃ data rest v, m.rest = data ++ rest ∧ s = ⟨.medium (m.skip data.length), ctx, store⟩ ∧
      c.Writes .nothing p v data

variable {e : Engine}

private theorem restores_integer (width : Int) (signed : Bool) (endian : Endian) :
    (integer e (.const (.int width)) signed endian).Restores := by
  intro m ctx store path p s parsed
  obtain ⟨n, s₁, size, run₁⟩ := Run.bind_eq_ok_iff.mp parsed
  obtain ⟨rfl, -, rfl⟩ := (e.evalSize_eq_ok_iff (Engine.sees_const _ _)).mp size
  obtain ⟨_, s₂, check, run₂⟩ := Run.bind_eq_ok_iff.mp run₁
  obtain ⟨checked, rfl⟩ := Run.ofExcept_eq_ok_iff.mp check
  obtain ⟨data, s₃, read, run₃⟩ := Run.bind_eq_ok_iff.mp run₂
  obtain ⟨enough, rfl, rfl⟩ := Run.read_eq_ok_iff.mp read
  obtain ⟨k, s₄, pattern, run₄⟩ := Run.bind_eq_ok_iff.mp run₃
  obtain ⟨isPattern, rfl⟩ := Run.ofExcept_eq_ok_iff.mp pattern
  cases run₄
  have length : (m.rest.take n).length = n := List.length_take_of_le enough
  obtain ⟨positive, narrow⟩ := Integer.bounds_of_checkWidth checked
  have split := (List.take_append_drop n m.rest).symm
  generalize m.rest.take n = data, m.rest.drop n = rest at *
  subst length
  obtain ⟨fits, same⟩ := Integer.written_of_ofPattern positive narrow isPattern
  have written : (integer e (.const (.int data.length)) signed endian).Writes .nothing (.int k)
      (.int k) _ := writes_integer positive narrow rfl fits
  rw [same] at written
  exact ⟨data, rest, .int k, split, rfl, written⟩

private theorem restores_bytes (length : Int) : (bytes e (.const (.int length))).Restores := by
  intro m ctx store path p s parsed
  obtain ⟨n, s₁, size, run⟩ := Run.bind_eq_ok_iff.mp parsed
  obtain ⟨rfl, room, rfl⟩ := (e.evalSize_eq_ok_iff (Engine.sees_const _ _)).mp size
  obtain ⟨data, s₂, read, run⟩ := Run.bind_eq_ok_iff.mp run
  obtain ⟨enough, rfl, rfl⟩ := Run.read_eq_ok_iff.mp read
  cases run
  have length : (m.rest.take n).length = n := List.length_take_of_le enough
  refine ⟨m.rest.take n, m.rest.drop n, _, (List.take_append_drop n m.rest).symm, by rw [length],
    writes_bytes ⟨by rwa [length], Or.inl (by rw [length])⟩⟩

/-! ## Structures -/

theorem first_of_parseFields {overwrite : Bool} {path : Path} {field : Part} {rest : List Part}
    {name : String} {s s' : State} (flat : field.format.isEmbedded = false)
    (own : field.name? = some name)
    (parsed : parseFields overwrite false path (field :: rest) s = .ok () s') :
    ∃ p s₁, field.codec.parse (path.member name) s = .ok p s₁ ∧
      parseFields overwrite false path rest { s₁ with context := s₁.context.insert name p } =
        .ok () s' := by
  rw [parseFields] at parsed
  simp only [flat, Bool.false_eq_true, if_false, own] at parsed
  obtain ⟨p, s₁, here, parsed⟩ := Run.bind_eq_ok_iff.mp parsed
  exact ⟨p, s₁, Run.tagged_eq_ok_iff.mp here, parsed⟩

end Codec

/-- A component with a name that is written as it was parsed. -/
structure Part.Restores (p : Part) : Prop where
  codec : p.codec.Restores
  flat : p.format.isEmbedded = false
  labelled : ∃ name, p.name? = some name

namespace Codec

variable {e : Engine}

/-- Fields take their bytes one after another, and what they note is written as these bytes
again, from any record that holds it. -/
private theorem restored_of_parseFields {overwrite : Bool} {path : Path} {store : LazyStore}
    {fields : List Part} {m : Medium} {ctx : Context} {s : State}
    (each : ∀ p ∈ fields, p.Restores) (distinct : (Part.names fields).Nodup)
    (parsed : parseFields overwrite false path fields ⟨.medium m, ctx, store⟩ = .ok () s) :
    ∃ data rest ctx' record, m.rest = data ++ rest ∧
      s = ⟨.medium (m.skip data.length), ctx', store⟩ ∧ ctx.Kept ctx' ∧
      Record.keys record = Part.names fields ∧
      ((Record.keys ctx.innermost).Nodup → (Record.keys ctx'.innermost).Nodup) ∧
      (∀ k ∉ Part.names fields, Record.get? ctx'.innermost k = Record.get? ctx.innermost k) ∧
      ∀ input near, (∀ k ∈ Part.names fields,
          Record.get? input k = Record.get? ctx'.innermost k) →
        near.lengths = (fun _ => none) → WritesFields input near fields record data := by
  -- By the fields, which write their own bytes whatever is noted behind them, as their names are
  -- distinct.
  induction fields generalizing m ctx with
  | nil =>
      cases parsed
      exact ⟨[], m.rest, ctx, [], rfl, rfl, .refl ctx, rfl, id, fun _ _ => rfl,
        fun _ _ _ _ => .nil⟩
  | cons field fields ih =>
      have here := each field List.mem_cons_self
      obtain ⟨name, own⟩ := here.labelled
      obtain ⟨p, s₁, first, parsed⟩ := first_of_parseFields here.flat own parsed
      obtain ⟨part, after, v, next, rfl, written⟩ := here.codec m ctx store _ p s₁ first
      rw [Part.names_cons_of_some own] at distinct ⊢
      obtain ⟨apart, distinct'⟩ := List.nodup_cons.mp distinct
      obtain ⟨data, rest, ctx', record, next', rfl, kept, keys, unique, same, writes⟩ :=
        ih (fun q mem => each q (List.mem_cons_of_mem field mem)) distinct' parsed
      rw [Medium.rest_skip next] at next'
      have noted : Record.get? ctx'.innermost name = some p :=
        (same name apart).trans (Record.get?_insert_self _ _ _)
      refine ⟨part ++ data, rest, ctx', (name, v) :: record, ?_, ?_,
        (ctx.kept_insert name p).trans kept, congrArg (name :: ·) keys,
        fun start => unique (Record.nodup_insert start name p), fun k absent => ?_,
        fun input near given lists => ?_⟩
      · rw [next, next', List.append_assoc]
      · rw [Medium.skip_skip, List.length_append]
      · obtain ⟨other, absent'⟩ := not_or.mp (mt List.mem_cons.mpr absent)
        exact (same k absent').trans
          (Record.get?_insert_of_ne (fun eq => other eq.symm) ctx.innermost p)
      · refine .named own here.flat (Or.inl ((given name List.mem_cons_self).trans noted))
          (fun n known => ?_) (written.anywhere near)
          (writes input _ (fun k mem => given k (List.mem_cons_of_mem name mem)) lists)
        rw [lists] at known
        cases known

private theorem restores_struct {fields : List Part} (each : ∀ p ∈ fields, p.Restores)
    (distinct : (Part.names fields).Nodup) (overwrite : Bool) :
    (struct e fields overwrite).Restores := by
  intro m ctx store path p s parsed
  obtain ⟨⟨_, frame⟩, s₁, framed, run⟩ := Run.bind_eq_ok_iff.mp parsed
  cases run
  obtain ⟨s₂, inside, isFrame, rfl⟩ := Run.ok_of_inFrame framed
  obtain ⟨data, rest, ctx', record, next, rfl, kept, keys, unique, -, writes⟩ :=
    restored_of_parseFields each distinct inside
  dsimp only at isFrame
  subst isFrame
  refine ⟨data, rest, .container record, next, by rw [Context.pop_of_kept kept], ?_⟩
  have written : WritesFields ctx'.innermost ⟨fun _ => none, fun _ => none⟩ fields record data :=
    writes _ _ (fun _ _ => rfl) rfl
  refine writes_struct rfl (unique List.nodup_nil) (by rwa [keys]) (fun _ _ known => ?_) written
  cases known

end Codec

namespace Format

mutual

/-- All fields of structures have names. -/
def Labelled : Format → Prop
  | named _ of | documented _ of => Labelled of
  | struct fields _ => LabelledAll fields
  | _ => True

def LabelledAll : List Format → Prop
  | [] => True
  | f :: rest => (∃ name, f.name? = some name) ∧ Labelled f ∧ LabelledAll rest

end

mutual

theorem restores_codec (e : Engine) (defs : Definitions) : ∀ {f : Format}, f.Rigid →
    f.Labelled → (f.codec e defs).Restores
  | integer width signed endian, h, _ => by
      obtain ⟨n, rfl⟩ := h
      exact Codec.restores_integer n signed endian
  | bytes length, h, _ => by
      obtain ⟨n, rfl⟩ := h
      exact Codec.restores_bytes n
  | named _ of, h, h' => restores_codec e defs (f := of) h h'
  | documented _ of, h, h' => restores_codec e defs (f := of) h h'
  | struct fields overwrite, h, h' => Codec.restores_struct (restores_parts e defs h.2 h')
      (by rw [names_parts]; exact h.1) overwrite

theorem restores_parts (e : Engine) (defs : Definitions) : ∀ {fs : List Format}, RigidAll fs →
    LabelledAll fs → ∀ p ∈ parts e defs fs, p.Restores
  | [], _, _, _, mem => nomatch mem
  | f :: _, h, h', p, mem => by
      rcases List.mem_cons.mp mem with rfl | mem
      · exact ⟨restores_codec e defs h.1 h'.2.1, isEmbedded_of_rigid h.1, h'.1⟩
      · exact restores_parts e defs h.2 h'.2.2 p mem

end

end Format

end BinaryFormat
