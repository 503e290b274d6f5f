import BinaryFormat.Proofs.Deferral
import BinaryFormat.Proofs.RoundTrip.Success

/-!
# Formats of integers and byte strings of constant size

Structures of such fields take any input, lazy members in it included: wherever
one is built at the end of a stream it appends bytes that are read back, and it
leaves the context as it was.
-/

namespace BinaryFormat

namespace Value

mutual

/-- All integers have at most 128 bits. -/
def InRange : Value → Prop
  | int n => fitsInt n = true
  | list items => InRangeItems items
  | container fields | flags fields => InRangeFields fields
  | lazyContainer _ _ | lazyList _ _ | none | bool _ | float _ | bytes _ | str _ => True

def InRangeItems : List Value → Prop
  | [] => True
  | v :: rest => InRange v ∧ InRangeItems rest

def InRangeFields : List (String × Value) → Prop
  | [] => True
  | (_, v) :: rest => InRange v ∧ InRangeFields rest

end

mutual

def decidableInRange : (v : Value) → Decidable v.InRange
  | int n => inferInstanceAs (Decidable (fitsInt n = true))
  | list items => decidableInRangeItems items
  | container fields | flags fields => decidableInRangeFields fields
  | lazyContainer _ _ | lazyList _ _ | none | bool _ | float _ | bytes _ | str _ =>
      inferInstanceAs (Decidable True)

def decidableInRangeItems : (items : List Value) → Decidable (InRangeItems items)
  | [] => inferInstanceAs (Decidable True)
  | v :: rest => @instDecidableAnd _ _ (decidableInRange v) (decidableInRangeItems rest)

def decidableInRangeFields : (fields : List (String × Value)) → Decidable (InRangeFields fields)
  | [] => inferInstanceAs (Decidable True)
  | (_, v) :: rest => @instDecidableAnd _ _ (decidableInRange v) (decidableInRangeFields rest)

end

instance : DecidablePred InRange := decidableInRange

private theorem inRangeFields_iff {fields : List (String × Value)} :
    InRangeFields fields ↔ ∀ entry ∈ fields, entry.2.InRange := by
  induction fields with
  | nil => simp [InRangeFields]
  | cons entry rest ih => simp [InRangeFields, ih]

theorem InRangeFields.get? {fields : Record Value} (h : InRangeFields fields) {name : String}
    {v : Value} (found : Record.get? fields name = some v) : v.InRange :=
  inRangeFields_iff.mp h (name, v) (Record.mem_of_get?_eq_some found)

end Value

namespace Codec

private theorem Reads.anywhere {toEnd : Bool} {c : Codec} {v : Value} {data : List UInt8}
    (h : c.Reads toEnd .nothing v data) (near : Surroundings) : c.Reads toEnd near v data :=
  fun m suffix ctx store path next last _ =>
    h m suffix ctx store path next last (Surroundings.held_nothing ctx)

/-- Whatever is built at the end of a stream are bytes that are read back if the integers in
what was built are in range.  Nothing else changes but lazy members that are resolved. -/
def Verifies (c : Codec) : Prop :=
  ∀ (u : Value) (path : Path) (before : List UInt8) (ctx : Context) (store : LazyStore)
    (w : Value) (s : State), c.build u path ⟨.atEnd before, ctx, store⟩ = .ok w s →
    ∃ data store', s = ⟨.atEnd (before ++ data), ctx, store'⟩ ∧
      (u = .none ∨ w.InRange → ∃ v, c.Reads false .nothing v data)

variable {e : Engine}

theorem integer_of_build {width : Int} {signed : Bool} {endian : Endian} {u w : Value}
    {path : Path} {data : List UInt8} {pos : Nat} {ctx : Context} {store : LazyStore} {s : State}
    (built : (integer e (.const (.int width)) signed endian).build u path
      ⟨.growing data pos, ctx, store⟩ = .ok w s) :
    ∃ (n : Nat) (k : Int), width = n ∧ 1 ≤ n ∧ n ≤ 16 ∧ Integer.ofValue u = .ok k ∧
      Integer.fits k (n * 8) signed = true ∧ w = .int k ∧
      s = ⟨.growing (Medium.overlay data pos (Integer.inOrder endian
        (Bytes.ofNat n (Integer.toPattern k (n * 8))))) (pos + n), ctx, store⟩ := by
  obtain ⟨n, s₁, size, run₁⟩ := Run.bind_eq_ok_iff.mp built
  obtain ⟨rfl, -, rfl⟩ := (e.evalSize_eq_ok_iff (Engine.sees_const _ _)).mp size
  obtain ⟨_, s₂, check, run₂⟩ := Run.bind_eq_ok_iff.mp run₁
  obtain ⟨checked, rfl⟩ := Run.ofExcept_eq_ok_iff.mp check
  obtain ⟨k, s₃, number, run₃⟩ := Run.bind_eq_ok_iff.mp run₂
  obtain ⟨isNumber, rfl⟩ := Run.ofExcept_eq_ok_iff.mp number
  obtain ⟨pattern, s₄, fit, run₄⟩ := Run.bind_eq_ok_iff.mp run₃
  obtain ⟨fitting, rfl⟩ := Run.ofExcept_eq_ok_iff.mp fit
  rw [Run.bind_of_ok (Run.write_growing _)] at run₄
  obtain ⟨rfl, rfl⟩ := Run.pure_eq_ok_iff.mp run₄
  have bounds : 1 ≤ n ∧ n ≤ 16 := by
    unfold Integer.checkWidth at checked
    split at checked
    · cases checked
    · omega
  have fits := Format.fits_of_checkedPattern fitting
  rw [Integer.checkedPattern, if_pos fits] at fitting
  cases fitting
  refine ⟨n, k, rfl, bounds.1, bounds.2, isNumber, fits, rfl, ?_⟩
  rw [Integer.length_inOrder, Bytes.length_ofNat]

theorem bytes_of_build {length : Int} {u w : Value} {path : Path} {data : List UInt8} {pos : Nat}
    {ctx : Context} {store : LazyStore} {s : State}
    (built : (bytes e (.const (.int length))).build u path ⟨.growing data pos, ctx, store⟩ =
      .ok w s) :
    ∃ payload : List UInt8, length = payload.length ∧ payload.length ≤ Value.maxSize ∧
      u = .bytes payload ∧ w = .bytes payload ∧
      s = ⟨.growing (Medium.overlay data pos payload) (pos + payload.length), ctx, store⟩ := by
  obtain ⟨n, s₁, size, run⟩ := Run.bind_eq_ok_iff.mp built
  obtain ⟨rfl, room, rfl⟩ := (e.evalSize_eq_ok_iff (Engine.sees_const _ _)).mp size
  cases u with
  | bytes payload =>
      obtain ⟨full, written⟩ := Run.guard_eq_ok_iff.mp run
      obtain rfl : payload.length = n := Decidable.not_not.mp full
      rw [Run.bind_of_ok (Run.write_growing _)] at written
      obtain ⟨rfl, rfl⟩ := Run.pure_eq_ok_iff.mp written
      exact ⟨payload, rfl, room, rfl, rfl, rfl⟩
  | _ => cases run

private theorem verifies_integer (width : Int) (signed : Bool) (endian : Endian) :
    (integer e (.const (.int width)) signed endian).Verifies := by
  intro u path before ctx store w s built
  obtain ⟨n, k, rfl, positive, narrow, isNumber, fits, rfl, rfl⟩ := integer_of_build built
  refine ⟨_, store, Stream.state_overlay_at_end _ (by
    rw [Integer.length_inOrder, Bytes.length_ofNat]) ctx store, fun small =>
      ⟨.int k, reads_integer positive narrow fits ?_⟩⟩
  rcases small with rfl | small
  · cases isNumber
  · exact small

private theorem verifies_bytes (length : Int) : (bytes e (.const (.int length))).Verifies := by
  intro u path before ctx store w s built
  obtain ⟨payload, rfl, room, rfl, rfl, rfl⟩ := bytes_of_build built
  exact ⟨payload, store, Stream.state_overlay_at_end _ rfl ctx store,
    fun _ => ⟨.bytes payload, reads_bytes ⟨room, Or.inl rfl⟩⟩⟩

end Codec

/-- A field that takes what it is built from from the input and can be verified. -/
structure Part.Verifies (p : Part) : Prop where
  codec : p.codec.Verifies
  flat : p.format.isEmbedded = false
  supplied : p.format.isSelfSupplying = false

/-- The names of fields. -/
def Part.names (parts : List Part) : List String := parts.filterMap Part.name?

theorem Part.names_cons_of_some {p : Part} {name : String} (h : p.name? = some name)
    (rest : List Part) : names (p :: rest) = name :: names rest := by
  rw [names, List.filterMap_cons_some h]
  rfl

theorem Part.names_cons_of_none {p : Part} (h : p.name? = none) (rest : List Part) :
    names (p :: rest) = names rest := by
  rw [names, List.filterMap_cons_none h]
  rfl

namespace Codec

variable {e : Engine}

/-- What is built at the end of a stream by fields that can be verified. -/
theorem appended_of_buildFields {input : Record Value} {path : Path} :
    ∀ {parts : List Part} {before : List UInt8} {ctx : Context} {store : LazyStore} {s : State},
      (∀ p ∈ parts, p.Verifies) → (Part.names parts).Nodup →
      buildFields input path parts ⟨.atEnd before, ctx, store⟩ = .ok () s →
      ∃ data ctx' store', s = ⟨.atEnd (before ++ data), ctx', store'⟩ ∧ ctx.Kept ctx' ∧
        (∀ k ∉ Part.names parts,
          Record.get? ctx'.innermost k = Record.get? ctx.innermost k) ∧
        (input = [] ∨ (∀ k ∈ Part.names parts, ∀ v,
            Record.get? ctx'.innermost k = some v → v.InRange) →
          ∃ record, Record.keys record = Part.names parts ∧
            ∀ near, ReadsFields near parts record data) := by
  intro parts
  induction parts with
  | nil =>
      intro before ctx store s _ _ built
      cases built
      exact ⟨[], ctx, store, by rw [List.append_nil], .refl ctx, fun _ _ => rfl,
        fun _ => ⟨[], rfl, fun _ => .nil⟩⟩
  | cons p rest ih =>
      intro before ctx store s each distinct built
      have here := each p List.mem_cons_self
      have others : ∀ q ∈ rest, q.Verifies := fun q mem => each q (List.mem_cons_of_mem p mem)
      -- A field with a name is built from what is given under it and noted; one without is built
      -- from nothing.
      rcases Format.first_of_buildFields here.flat built with
        ⟨name, u, w, s₁, hasName, given, first, later⟩ | ⟨w, s₁, hasNone, first, later⟩
      · rw [Part.names_cons_of_some hasName] at distinct ⊢
        obtain ⟨apart, distinct'⟩ := List.nodup_cons.mp distinct
        obtain ⟨part, store₁, rfl, reads⟩ := here.codec u _ before ctx store w s₁ first
        obtain ⟨data, ctx', store', rfl, kept, same, reads'⟩ := ih others distinct' later
        have noted : Record.get? ctx'.innermost name = some w :=
          (same name apart).trans (Record.get?_insert_self _ _ _)
        refine ⟨part ++ data, ctx', store', by rw [List.append_assoc],
          (ctx.kept_insert name w).trans kept, fun k absent => ?_, fun small => ?_⟩
        · obtain ⟨other, absent'⟩ := not_or.mp (mt List.mem_cons.mpr absent)
          exact (same k absent').trans
            (Record.get?_insert_of_ne (fun eq => other eq.symm) ctx.innermost w)
        · have found : input.get? name = some u := by
            rcases given with found | ⟨-, supplies, -⟩
            · exact found
            · rw [here.supplied] at supplies
              cases supplies
          have small' := small.resolve_left (by rintro rfl; cases found)
          obtain ⟨v, head⟩ := reads (Or.inr (small' name List.mem_cons_self w noted))
          obtain ⟨record, keys, tail⟩ := reads' (Or.inr fun k mem =>
            small' k (List.mem_cons_of_mem name mem))
          exact ⟨(name, v) :: record, congrArg (name :: ·) keys, fun near =>
            .named hasName here.flat (head.anywhere near) (tail _)⟩
      · rw [Part.names_cons_of_none hasNone] at distinct ⊢
        obtain ⟨part, store₁, rfl, reads⟩ := here.codec .none _ before ctx store w s₁ first
        obtain ⟨data, ctx', store', rfl, kept, same, reads'⟩ := ih others distinct later
        refine ⟨part ++ data, ctx', store', by rw [List.append_assoc], kept, same,
          fun small => ?_⟩
        obtain ⟨v, head⟩ := reads (Or.inl rfl)
        obtain ⟨record, keys, tail⟩ := reads' small
        exact ⟨record, keys, fun near => .unnamed hasNone here.flat (head.anywhere near) (tail _)⟩

/-- What a structure is built from; lazy members of it may have been resolved. -/
theorem state_of_containerInput {u : Value} {path : Path} {s s' : State} {input : Record Value}
    (h : e.containerInput u path s = .ok input s') :
    s' = { s with store := s'.store } ∧ (u = .none → input = []) ∧
      (∀ fields, u.fields? = some fields → input = fields ∧ s' = s) := by
  cases u with
  | container fields | flags fields =>
      cases h
      exact ⟨rfl, nofun, fun _ eq => by cases eq; exact ⟨rfl, rfl⟩⟩
  | none =>
      cases h
      exact ⟨rfl, fun _ => rfl, nofun⟩
  | lazyContainer handle names =>
      refine ⟨?_, nofun, nofun⟩
      obtain ⟨forced, s₁, run, rest⟩ := Run.bind_eq_ok_iff.mp h
      have left : s₁ = { s with store := s₁.store } := by
        simp only [Engine.force, Run.lookup] at run
        split at run
        · cases run
          rfl
        · cases run
      cases forced <;> cases rest <;> exact left
  | _ => cases h

private theorem verifies_struct {parts : List Part} (each : ∀ p ∈ parts, p.Verifies)
    (distinct : (Part.names parts).Nodup) (overwrite : Bool) :
    (struct e parts overwrite).Verifies := by
  intro u path before ctx store w s built
  obtain ⟨input, s₁, entered, run⟩ := Run.bind_eq_ok_iff.mp built
  obtain ⟨left, empty, -⟩ := state_of_containerInput entered
  rw [left] at run
  obtain ⟨⟨_, frame⟩, s₂, framed, last⟩ := Run.bind_eq_ok_iff.mp run
  obtain ⟨rfl, rfl⟩ := Run.pure_eq_ok_iff.mp last
  obtain ⟨s₃, inside, isFrame, rfl⟩ := Run.ok_of_inFrame framed
  obtain ⟨_, s₄, fields, resolved⟩ := Run.bind_eq_ok_iff.mp inside
  obtain ⟨data, ctx', store', rfl, kept, -, reads⟩ :=
    appended_of_buildFields each distinct fields
  rw [e.resolvePending_of_empty kept.deferred] at resolved
  cases resolved
  dsimp only at isFrame
  subst isFrame
  refine ⟨data, store', by rw [Context.pop_of_kept kept], fun small => ?_⟩
  have small' : input = [] ∨ (∀ k ∈ Part.names parts, ∀ v,
      Record.get? ctx'.innermost k = some v → v.InRange) := by
    rcases small with rfl | small
    · exact Or.inl (empty rfl)
    · exact Or.inr fun k _ v found => Value.InRangeFields.get? small found
  obtain ⟨record, keys, readsAll⟩ := reads small'
  exact ⟨.container record,
    reads_struct (by rwa [keys]) (readsAll ⟨fun _ => none, fun _ => none⟩)⟩

end Codec

namespace Format

mutual

/-- Integers and byte strings of constant size, and structures of them. -/
def Rigid : Format → Prop
  | integer width _ _ => ∃ n : Int, width = .const (.int n)
  | bytes length => ∃ n : Int, length = .const (.int n)
  | named _ of | documented _ of => Rigid of
  | struct fields _ => (fieldNames fields).Nodup ∧ RigidAll fields
  | _ => False

def RigidAll : List Format → Prop
  | [] => True
  | f :: rest => Rigid f ∧ RigidAll rest

end

theorem names_parts (e : Engine) (defs : Definitions) (fs : List Format) :
    Part.names (parts e defs fs) = fieldNames fs := by
  induction fs with
  | nil => rfl
  | cons f rest ih =>
      rw [parts]
      cases h : f.name? with
      | none =>
          rw [Part.names_cons_of_none (p := ⟨f, _⟩) h, ih]
          exact (List.filterMap_cons_none h).symm
      | some name =>
          rw [Part.names_cons_of_some (p := ⟨f, _⟩) h, ih]
          exact (List.filterMap_cons_some h).symm

theorem isEmbedded_of_rigid : ∀ {f : Format}, f.Rigid → f.isEmbedded = false :=
  isEmbedded_eq_false_of (P := Rigid) id id id

private theorem isSelfSupplying_of_rigid : ∀ {f : Format}, f.Rigid → f.isSelfSupplying = false := by
  intro f h
  cases f with
  | named name of =>
      rw [isSelfSupplying]
      exact isSelfSupplying_of_rigid (f := of) (by simpa only [Rigid] using h)
  | documented docs of =>
      rw [isSelfSupplying]
      exact isSelfSupplying_of_rigid (f := of) (by simpa only [Rigid] using h)
  | integer | bytes | struct => simp only [isSelfSupplying]
  | _ => simp only [Rigid] at h

mutual

theorem verifies_codec (e : Engine) (defs : Definitions) : ∀ {f : Format}, f.Rigid →
    (f.codec e defs).Verifies
  | integer width signed endian, h => by
      obtain ⟨n, rfl⟩ := h
      exact Codec.verifies_integer n signed endian
  | bytes length, h => by
      obtain ⟨n, rfl⟩ := h
      exact Codec.verifies_bytes n
  | named _ of, h => verifies_codec e defs (f := of) h
  | documented _ of, h => verifies_codec e defs (f := of) h
  | struct fields overwrite, h => Codec.verifies_struct (verifies_parts e defs h.2)
      (by rw [names_parts]; exact h.1) overwrite

theorem verifies_parts (e : Engine) (defs : Definitions) : ∀ {fs : List Format}, RigidAll fs →
    ∀ p ∈ parts e defs fs, p.Verifies
  | [], _, _, mem => nomatch mem
  | f :: _, h, p, mem => by
      rcases List.mem_cons.mp mem with rfl | mem
      · exact ⟨verifies_codec e defs h.1, isEmbedded_of_rigid h.1, isSelfSupplying_of_rigid h.1⟩
      · exact verifies_parts e defs h.2 p mem

end

end Format

end BinaryFormat
