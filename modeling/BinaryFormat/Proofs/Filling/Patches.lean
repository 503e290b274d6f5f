import BinaryFormat.Proofs.Filling

/-!
# The bytes that patches leave

Between the building of a field and the end, only the bytes of patches that are
still pending change, and each of these comes to hold a value of its field.
What is built is therefore judged by the bytes that are there in the end.
-/

namespace BinaryFormat

namespace Format

/-- A component of so many bytes that a patch can fill. -/
inductive Patchable : Nat → Format → Prop
  | integer {width : Nat} (narrow : width ≤ 16) (signed : Bool) (endian : Endian) :
      Patchable width (.integer (.const (.int width)) signed endian)
  | bytes {width : Nat} (room : width ≤ Value.maxSize) :
      Patchable width (.bytes (.const (.int width)))

/-- Every number of the component is in the range of values: the widest integers are too wide
without a sign. -/
def Holdable : Format → Bool
  | integer (.const (.int width)) signed _ => signed || width ≤ 15
  | _ => true

/-- These bytes of a component hold a value. -/
structure Bears (defs : Definitions) (of : Format) (w : Value) (stored : List UInt8) : Prop where
  atom : w.IsAtom
  present : w ≠ .none
  held : of.Holdable = true → w.InRange
  reads : w.InRange → ∀ e, Serves defs e → (of.codec e defs).ReadAs w stored

theorem Patchable.cell (defs : Definitions) {width : Nat} {of : Format} (h : of.Patchable width) :
    of.Cell defs width := by
  cases h with
  | integer narrow signed endian => exact cell_integer defs signed endian narrow
  | bytes room => exact cell_bytes defs room

private theorem fitsInt_of_holdable {width : Nat} {signed : Bool} {k : Int} (narrow : width ≤ 16)
    (fits : Integer.fits k (width * 8) signed = true) (holdable : signed = true ∨ width ≤ 15) :
    Value.fitsInt k = true := by
  have low : Value.minInt = -170141183460469231731687303715884105728 := rfl
  have high : Value.maxInt = 170141183460469231731687303715884105727 := rfl
  simp only [Value.fitsInt, Bool.and_eq_true, decide_eq_true_eq, low, high]
  cases signed with
  | true =>
      simp only [Integer.fits, if_true, Bool.and_eq_true, decide_eq_true_eq] at fits
      have most : Nat.pow 2 (width * 8 - 1) ≤ Nat.pow 2 127 :=
        Nat.pow_le_pow_right (by decide) (by omega)
      have whole : Nat.pow 2 127 = 170141183460469231731687303715884105728 := by decide
      omega
  | false =>
      simp only [Integer.fits, Bool.false_eq_true, if_false, Bool.and_eq_true,
        decide_eq_true_eq] at fits
      have most : Nat.pow 2 (width * 8) ≤ Nat.pow 2 120 :=
        Nat.pow_le_pow_right (by decide) (by simp at holdable; omega)
      have whole : Nat.pow 2 120 = 1329227995784915872903807060280344576 := by decide
      omega

theorem Patchable.bears {defs : Definitions} {e : Engine} {width : Nat} {of : Format}
    (h : of.Patchable width) {u w : Value} {path : Path} {data : List UInt8} {pos : Nat}
    {ctx : Context} {store : LazyStore} {s : State}
    (run : (of.codec e defs).build u path ⟨.growing data pos, ctx, store⟩ = .ok w s) :
    ∃ stored, stored.length = width ∧
      s = ⟨.growing (Medium.overlay data pos stored) (pos + width), ctx, store⟩ ∧
      of.Bears defs w stored ∧ u ≠ .none ∧
      (∀ n, u = .int n → w = u) ∧ ∀ payload, u = .bytes payload → w = u := by
  cases h with
  | integer narrow signed endian =>
      obtain ⟨n, k, same, positive, -, isNumber, fits, rfl, rfl⟩ := Codec.integer_of_build run
      obtain rfl : width = n := Int.ofNat.inj same
      refine ⟨_, by rw [Integer.length_inOrder, Bytes.length_ofNat], rfl,
        ⟨trivial, nofun, fun holdable => ?_, fun small e' _ =>
          Codec.readAs_integer positive narrow fits small⟩, ?_, ?_, ?_⟩
      · refine fitsInt_of_holdable narrow fits ?_
        simpa only [Holdable, Bool.or_eq_true, decide_eq_true_eq, Nat.cast_le_ofNat] using holdable
      · rintro rfl
        cases isNumber
      · rintro n rfl
        cases isNumber
        rfl
      · rintro payload rfl
        cases isNumber
  | bytes room =>
      obtain ⟨stored, same, -, rfl, rfl, rfl⟩ := Codec.bytes_of_build run
      obtain rfl : width = stored.length := Int.ofNat.inj same
      exact ⟨stored, rfl, rfl, ⟨trivial, nofun, fun _ => trivial,
        fun _ e' _ => Codec.readAs_bytes room⟩, nofun, fun _ _ => rfl, fun _ _ => rfl⟩

end Format

/-! ## Queues of patches -/

namespace Deferred

/-- The patch is to be written over this byte. -/
def Covers (d : Deferred) (i : Nat) : Prop := d.offset ≤ i ∧ i < d.offset + d.size

/-- The bytes that the patch is written over. -/
def region (d : Deferred) (data : List UInt8) : List UInt8 := (data.drop d.offset).take d.size

end Deferred

/-- Patches of components between two offsets that do not overlap. -/
structure Tidy (low high : Nat) (queue : List Deferred) : Prop where
  leaf : ∀ d ∈ queue, d.field.Patchable d.size
  front : ∀ d ∈ queue, low ≤ d.offset
  back : ∀ d ∈ queue, d.offset + d.size ≤ high
  apart : queue.Pairwise fun d d' => ∀ i, d.Covers i → ¬ d'.Covers i

/-- The bytes from an offset on are there in the end, but for those of pending patches, which
come to hold values. -/
structure Firm (defs : Definitions) (start : Nat) (part : List UInt8) (queue : List Deferred)
    (final : List UInt8) : Prop where
  long : start + part.length ≤ final.length
  kept : ∀ i < part.length, (∀ d ∈ queue, ¬ d.Covers (start + i)) → final[start + i]? = part[i]?
  filled : ∀ d ∈ queue, ∃ v, d.field.Bears defs v (d.region final)

namespace Tidy

variable {low middle high : Nat} {queue queue' : List Deferred}

theorem nil (low high : Nat) : Tidy low high [] := ⟨nofun, nofun, nofun, .nil⟩

theorem append (h : Tidy low middle queue) (h' : Tidy middle high queue') (le : middle ≤ high)
    (le' : low ≤ middle) : Tidy low high (queue ++ queue') where
  leaf d mem := (List.mem_append.mp mem).elim (h.leaf d) (h'.leaf d)
  front d mem := (List.mem_append.mp mem).elim (h.front d) fun mem => le'.trans (h'.front d mem)
  back d mem := (List.mem_append.mp mem).elim (fun mem => (h.back d mem).trans le) (h'.back d)
  apart := List.pairwise_append.mpr ⟨h.apart, h'.apart, fun d mem d' mem' i covers covers' => by
    have behind := h.back d mem
    have before := h'.front d' mem'
    have ended := covers.2
    have started := covers'.1
    omega⟩

theorem sublist (h : Tidy low high queue) (sub : queue'.Sublist queue) : Tidy low high queue' where
  leaf d mem := h.leaf d (sub.subset mem)
  front d mem := h.front d (sub.subset mem)
  back d mem := h.back d (sub.subset mem)
  apart := h.apart.sublist sub

/-- The frames that patches have left do not matter. -/
theorem moved (h : Tidy low high queue) (frame : Record Value) :
    Tidy low high (queue.map fun d => { d with scopes := frame :: d.scopes }) where
  leaf := by
    rintro _ moved
    obtain ⟨d, mem, rfl⟩ := List.mem_map.mp moved
    exact h.leaf d mem
  front := by
    rintro _ moved
    obtain ⟨d, mem, rfl⟩ := List.mem_map.mp moved
    exact h.front d mem
  back := by
    rintro _ moved
    obtain ⟨d, mem, rfl⟩ := List.mem_map.mp moved
    exact h.back d mem
  apart := List.pairwise_map.mpr (h.apart.imp fun apart => apart)

end Tidy

namespace Firm

variable {defs : Definitions} {start : Nat} {part part' final : List UInt8}
  {queue queue' : List Deferred}

theorem slice (h : Firm defs start part [] final) :
    (final.drop start).take part.length = part := by
  apply List.ext_getElem?
  intro i
  rw [List.getElem?_take]
  split
  · next inside => rw [List.getElem?_drop, h.kept i inside nofun]
  · next beyond => rw [List.getElem?_eq_none (Nat.le_of_not_lt beyond)]

theorem length_slice (h : Firm defs start part queue final) :
    ((final.drop start).take part.length).length = part.length := by
  have long := h.long
  rw [List.length_take, List.length_drop]
  omega

theorem refl (start : Nat) (before : List UInt8) (part : List UInt8)
    (at_start : before.length = start) : Firm defs start part [] (before ++ part) where
  long := by rw [List.length_append, at_start]
  kept i inside _ := by
    rw [← at_start, List.getElem?_append_right (Nat.le_add_right _ _), Nat.add_sub_cancel_left]
  filled := nofun

theorem first (h : Firm defs start (part ++ part') (queue ++ queue') final)
    (tidy : Tidy (start + part.length) (start + part.length + part'.length) queue') :
    Firm defs start part queue final where
  long := by
    have long := h.long
    rw [List.length_append] at long
    omega
  kept i inside apart := by
    rw [h.kept i (by rw [List.length_append]; omega) fun d mem => ?_,
      List.getElem?_append_left inside]
    rcases List.mem_append.mp mem with mem | mem
    · exact apart d mem
    · intro covers
      have front := tidy.front d mem
      have started := covers.1
      omega
  filled d mem := h.filled d (List.mem_append_left _ mem)

theorem second (h : Firm defs start (part ++ part') (queue ++ queue') final)
    (tidy : Tidy start (start + part.length) queue) :
    Firm defs (start + part.length) part' queue' final where
  long := by
    have long := h.long
    rw [List.length_append] at long
    omega
  kept i inside apart := by
    have there := h.kept (part.length + i) (by rw [List.length_append]; omega) fun d mem => ?_
    · rw [Nat.add_assoc, there, List.getElem?_append_right (Nat.le_add_right _ _),
        Nat.add_sub_cancel_left]
    · rw [← Nat.add_assoc]
      rcases List.mem_append.mp mem with mem | mem
      · intro covers
        have back := tidy.back d mem
        have ended := covers.2
        omega
      · exact apart d mem
  filled d mem := h.filled d (List.mem_append_right _ mem)

theorem slice_append (start : Nat) (part part' final : List UInt8) :
    (final.drop start).take (part ++ part').length =
      (final.drop start).take part.length ++
        (final.drop (start + part.length)).take part'.length := by
  rw [List.length_append, List.take_add, List.drop_drop]

theorem moved {frame : Record Value}
    (h : Firm defs start part (queue.map fun d => { d with scopes := frame :: d.scopes }) final) :
    Firm defs start part queue final where
  long := h.long
  kept i inside apart := h.kept i inside fun _ moved => by
    obtain ⟨d, mem, rfl⟩ := List.mem_map.mp moved
    exact apart d mem
  filled d mem := h.filled { d with scopes := frame :: d.scopes }
    (List.mem_map.mpr ⟨d, mem, rfl⟩)

private theorem congr (h : Firm defs start part queue final) (same : ∀ d, d ∈ queue ↔ d ∈ queue') :
    Firm defs start part queue' final where
  long := h.long
  kept i inside apart := h.kept i inside fun d mem => apart d ((same d).mp mem)
  filled d mem := h.filled d ((same d).mpr mem)

/-- Before a patch was applied it was pending, and its bytes hold what was written. -/
private theorem unapplied {d : Deferred} {front old stored back : List UInt8} {w : Value}
    (h : Firm defs start (front ++ (stored ++ back)) queue final)
    (offset : d.offset = start + front.length) (size : stored.length = d.size)
    (reserved : old.length = d.size) (bears : d.field.Bears defs w stored)
    (apart : ∀ d' ∈ queue, ∀ i, d.Covers i → ¬ d'.Covers i) :
    d.region final = stored ∧ Firm defs start (front ++ (old ++ back)) (d :: queue) final := by
  have length : (front ++ (old ++ back)).length = (front ++ (stored ++ back)).length := by
    simp only [List.length_append, size, reserved]
  have whole : d.region final = stored := by
    apply List.ext_getElem?
    intro i
    rw [Deferred.region, List.getElem?_take, List.getElem?_drop, offset]
    split
    · next inside =>
        have there := h.kept (front.length + i) (by
          simp only [List.length_append]
          omega) fun d' mem => apart d' mem _ ⟨by omega, by omega⟩
        rw [Nat.add_assoc, there, List.getElem?_append_right (Nat.le_add_right _ _),
          Nat.add_sub_cancel_left, List.getElem?_append_left (by omega)]
    · next beyond => rw [List.getElem?_eq_none (by omega)]
  refine ⟨whole, length ▸ h.long, fun i inside outside => ?_, fun d' mem => ?_⟩
  · have off := outside d List.mem_cons_self
    rw [h.kept i (length ▸ inside) fun d' mem => outside d' (List.mem_cons_of_mem d mem)]
    simp only [Deferred.Covers, offset] at off
    by_cases before : i < front.length
    · rw [List.getElem?_append_left before, List.getElem?_append_left before]
    · rw [List.getElem?_append_right (by omega), List.getElem?_append_right (by omega),
        List.getElem?_append_right (by omega), List.getElem?_append_right (by omega), size,
        reserved]
  · rcases List.mem_cons.mp mem with rfl | mem
    · exact ⟨w, whole.symm ▸ bears⟩
    · exact h.filled d' mem

end Firm

/-! ## Resolving -/

/-- Only a patch of the name changes what a frame shows under it, to a value. -/
def Claimed (queue : List Deferred) (before after : Record Value) (key : String) : Prop :=
  Record.get? after key = Record.get? before key ∨
    ∃ d ∈ queue, d.scopes = [] ∧ d.path.fieldName? = some key ∧
      ∃ v : Value, Record.get? after key = some v ∧ v.IsAtom ∧ v ≠ .none

/-- In the end a name of a frame shows what it showed, or what a patch of that name wrote. -/
def EndsAs (defs : Definitions) (queue : List Deferred) (final : List UInt8)
    (before after : Record Value) (key : String) : Prop :=
  Record.get? after key = Record.get? before key ∨
    ∃ d ∈ queue, d.scopes = [] ∧ d.path.fieldName? = some key ∧
      ∃ v, Record.get? after key = some v ∧ d.field.Bears defs v (d.region final)

/-- A patch could not be computed when others of the queue had been noted at most. -/
def Awaits (e : Engine) (queue : List Deferred) (ctx : Context) (d : Deferred) : Prop :=
  ∃ now : Context, now.below = ctx.below ∧
    (∀ key, Claimed queue ctx.innermost now.innermost key) ∧
    (∀ key, key ∈ Record.keys now.innermost ↔ key ∈ Record.keys ctx.innermost) ∧
    ∃ store failure store',
      d.patch.compute e.resolver (now.scopeOf d) d.path store = .error failure store' ∧
        failure.fault.isPending = true

/-- Patches are resolved but for those that wait.  They were pending before, so that what is there
in the end is the same; and they have been noted at most under their names. -/
structure Resolution (e : Engine) (defs : Definitions) (queue waiting : List Deferred)
    (start : Nat) (part part' : List UInt8) (ctx ctx' : Context) : Prop where
  length : part'.length = part.length
  below : ctx'.below = ctx.below
  sub : waiting.Sublist queue
  distinct : (Record.keys ctx.innermost).Nodup → (Record.keys ctx'.innermost).Nodup
  keys : ∀ key, key ∈ Record.keys ctx'.innermost ↔ key ∈ Record.keys ctx.innermost
  claims : ∀ key, Claimed queue ctx.innermost ctx'.innermost key
  pending : ∀ d ∈ waiting, Awaits e queue ctx d
  noted : ∀ d ∈ queue, d ∉ waiting → d.scopes = [] → d.depth = ctx.below.length →
    ∀ key, d.path.fieldName? = some key → key ∈ Record.keys ctx.innermost →
      Record.get? ctx'.innermost key ≠ some .none
  firm : ∀ left final, Tidy start (start + part.length) (left ++ queue) →
    Firm defs start part' (left ++ waiting) final →
      Firm defs start part (left ++ queue) final ∧
        ∀ key, EndsAs defs queue final ctx.innermost ctx'.innermost key

namespace Context

/-- A patch is noted under its own name only, where there is an entry. -/
private theorem noted_cases (ctx : Context) (d : Deferred) (built : Value) (key : String) :
    Record.get? (ctx.noted d built).innermost key = Record.get? ctx.innermost key ∨
      d.scopes = [] ∧ d.path.fieldName? = some key ∧
        Record.get? (ctx.noted d built).innermost key = some built := by
  unfold noted
  split
  · next registered =>
      have here : d.scopes = [] := by simpa using (Bool.and_eq_true_iff.mp registered).1
      split
      · next name own =>
          split
          · by_cases same : name = key
            · subst same
              exact Or.inr ⟨here, own, Record.get?_insert_self _ _ _⟩
            · exact Or.inl (Record.get?_insert_of_ne same _ _)
          · exact Or.inl rfl
      · exact Or.inl rfl
  · exact Or.inl rfl

private theorem get?_noted_self {ctx : Context} {d : Deferred} {built : Value} {key : String}
    (here : d.scopes = []) (depth : d.depth = ctx.below.length)
    (own : d.path.fieldName? = some key) (held : key ∈ Record.keys ctx.innermost) :
    Record.get? (ctx.noted d built).innermost key = some built := by
  obtain ⟨v, found⟩ := Record.mem_keys_iff.mp held
  have present : ctx.innermost.contains key = true := Option.isSome_iff_exists.mpr ⟨v, found⟩
  simp only [noted, here, List.isEmpty_nil, depth, BEq.rfl, Bool.and_self, if_true, own, present]
  exact Record.get?_insert_self _ _ _

private theorem keys_noted (ctx : Context) (d : Deferred) (built : Value) :
    ((Record.keys ctx.innermost).Nodup → (Record.keys (ctx.noted d built).innermost).Nodup) ∧
      ∀ key, key ∈ Record.keys (ctx.noted d built).innermost ↔ key ∈ Record.keys ctx.innermost := by
  unfold noted
  split
  · split
    · next name _ =>
        split
        · next held =>
            obtain ⟨v, found⟩ := Option.isSome_iff_exists.mp held
            have known := Record.mem_keys_iff.mpr ⟨v, found⟩
            refine ⟨fun distinct => Record.nodup_insert distinct name built, fun key => ?_⟩
            refine Record.mem_keys_insert.trans ⟨?_, Or.inr⟩
            rintro (rfl | mem)
            · exact known
            · exact mem
        · exact ⟨id, fun _ => Iff.rfl⟩
    · exact ⟨id, fun _ => Iff.rfl⟩
  · exact ⟨id, fun _ => Iff.rfl⟩

end Context

namespace Engine

open Format (BuildsPatches)

variable {defs : Definitions} {e : Engine}

/-- A patch that is applied exchanges its bytes for those of a value. -/
private theorem applied_of_leaf (patches : BuildsPatches defs e) {d : Deferred} {value : Value}
    {before part : List UInt8} {ctx : Context} {store : LazyStore} {s : State}
    (leaf : d.field.Patchable d.size) (front : before.length ≤ d.offset)
    (back : d.offset + d.size ≤ before.length + part.length)
    (run : e.applyPatch d value ⟨.atEnd (before ++ part), ctx, store⟩ = .ok () s) :
    ∃ w ahead old stored behind, part = ahead ++ (old ++ behind) ∧
      d.offset = before.length + ahead.length ∧ old.length = d.size ∧ stored.length = d.size ∧
      d.field.Bears defs w stored ∧
      s = ⟨.atEnd (before ++ (ahead ++ (stored ++ behind))), ctx.noted d w, store⟩ := by
  let ahead := part.take (d.offset - before.length)
  let rest := part.drop (d.offset - before.length)
  have split : part = ahead ++ (rest.take d.size ++ rest.drop d.size) := by
    rw [List.take_append_drop, List.take_append_drop]
  have length : ahead.length = d.offset - before.length := by
    rw [List.length_take]
    omega
  have reserved : (rest.take d.size).length = d.size := by
    rw [List.length_take, List.length_drop]
    omega
  have offset : d.offset = (before ++ ahead).length := by
    rw [List.length_append, length]
    omega
  rw [split, ← List.append_assoc] at run
  obtain ⟨w, stored, size, bears, rfl⟩ := Format.patched_of_apply patches reserved offset
    (fun e' _ _ _ _ _ _ _ _ made => by
      obtain ⟨stored, length, left, bears, -⟩ := leaf.bears made
      exact ⟨stored, length, left, bears⟩) run
  refine ⟨w, ahead, _, stored, _, split, by rw [offset, List.length_append], reserved, size, bears,
    by rw [List.append_assoc]⟩

end Engine

namespace Claimed

variable {ctx : Context} {d : Deferred} {rest : List Deferred} {w : Value} {frame : Record Value}
  {key : String}

private theorem refl (queue : List Deferred) (frame : Record Value) (key : String) :
    Claimed queue frame frame key := Or.inl rfl

private theorem cons (d : Deferred) {before : Record Value} (h : Claimed rest before frame key) :
    Claimed (d :: rest) before frame key :=
  h.imp_right fun ⟨d', mem, claim⟩ => ⟨d', List.mem_cons_of_mem d mem, claim⟩

private theorem unnoted (h : Claimed rest (ctx.noted d w).innermost frame key) (atom : w.IsAtom)
    (present : w ≠ .none) : Claimed (d :: rest) ctx.innermost frame key := by
  rcases h with same | claim
  · exact (ctx.noted_cases d w key).imp same.trans fun ⟨here, own, found⟩ =>
      ⟨d, List.mem_cons_self, here, own, w, same.trans found, atom, present⟩
  · exact cons d (Or.inr claim)

end Claimed

namespace Resolution

variable {e : Engine} {defs : Definitions} {d : Deferred} {rest waiting : List Deferred}
  {start : Nat} {part part' ahead old stored behind : List UInt8} {ctx ctx' : Context} {w : Value}

private theorem nil (e : Engine) (defs : Definitions) (start : Nat) (part : List UInt8)
    (ctx : Context) :
    Resolution e defs [] [] start part part ctx ctx where
  length := rfl
  below := rfl
  sub := .refl []
  distinct := id
  keys _ := Iff.rfl
  claims := .refl [] _
  pending := nofun
  noted := nofun
  firm _ _ _ firm := ⟨firm, fun _ => Or.inl rfl⟩

private theorem applied
    (h : Resolution e defs rest waiting start (ahead ++ (stored ++ behind)) part'
      (ctx.noted d w) ctx')
    (offset : d.offset = start + ahead.length) (size : stored.length = d.size)
    (reserved : old.length = d.size) (bears : d.field.Bears defs w stored) :
    Resolution e defs (d :: rest) waiting start (ahead ++ (old ++ behind)) part' ctx ctx' := by
  have same : (ahead ++ (stored ++ behind)).length = (ahead ++ (old ++ behind)).length := by
    simp only [List.length_append, size, reserved]
  have below : (ctx.noted d w).below = ctx.below := (ctx.kept_noted d w).below
  obtain ⟨distinct, keys⟩ := ctx.keys_noted d w
  refine ⟨h.length.trans same, h.below.trans below, h.sub.cons d, h.distinct ∘ distinct,
    fun key => (h.keys key).trans (keys key),
    fun key => (h.claims key).unnoted bears.atom bears.present, fun d' mem => ?_,
    fun d' mem => ?_, fun left final tidied ended => ?_⟩
  · obtain ⟨now, below', claims, keys', failed⟩ := h.pending d' mem
    exact ⟨now, below'.trans below, fun key => (claims key).unnoted bears.atom bears.present,
      fun key => (keys' key).trans (keys key), failed⟩
  · intro away here depth key own held
    rcases List.mem_cons.mp mem with rfl | mem
    · rcases h.claims key with same | ⟨_, _, _, _, v, found, _, present⟩
      · rw [same, Context.get?_noted_self here depth own held]
        exact fun none => bears.present (Option.some.inj none)
      · rw [found]
        exact fun none => present (Option.some.inj none)
    · exact h.noted d' mem away here (depth.trans (congrArg List.length below.symm)) key own
        ((keys key).mpr held)
  have inner := tidied.sublist ((List.Sublist.refl left).append (List.sublist_cons_self d rest))
  obtain ⟨firm, ends⟩ := h.firm left final (same ▸ inner) ended
  -- The patches lie apart, so no other one writes over the bytes of this one.
  have apart : ∀ d' ∈ left ++ rest, ∀ i, d.Covers i → ¬ d'.Covers i := by
    intro d' mem i covers covers'
    obtain ⟨-, own, cross⟩ := List.pairwise_append.mp tidied.apart
    rcases List.mem_append.mp mem with mem | mem
    · exact cross d' mem d List.mem_cons_self i covers' covers
    · exact (List.pairwise_cons.mp own).1 d' mem i covers covers'
  -- Before the patch was applied it was pending, and its bytes were to hold what it has written.
  obtain ⟨region, whole⟩ := firm.unapplied offset size reserved bears apart
  refine ⟨whole.congr fun d' => ?_, fun key => ?_⟩
  · simp only [List.mem_cons, List.mem_append]
    exact or_left_comm
  · rcases ends key with same | ⟨d', mem, wrote⟩
    · exact (ctx.noted_cases d w key).imp same.trans fun ⟨here, own, found⟩ =>
        ⟨d, List.mem_cons_self, here, own, w, same.trans found, region ▸ bears⟩
    · exact Or.inr ⟨d', List.mem_cons_of_mem d mem, wrote⟩

private theorem waits (h : Resolution e defs rest waiting start part part' ctx ctx')
    {store store' : LazyStore} {failure : Failure}
    (failed : d.patch.compute e.resolver (ctx.scopeOf d) d.path store = .error failure store')
    (waits : failure.fault.isPending = true) :
    Resolution e defs (d :: rest) (d :: waiting) start part part' ctx ctx' where
  length := h.length
  below := h.below
  sub := h.sub.cons_cons d
  distinct := h.distinct
  keys := h.keys
  claims key := (h.claims key).cons d
  pending d' mem := by
    rcases List.mem_cons.mp mem with rfl | mem
    · exact ⟨ctx, rfl, fun key => .refl _ _ key, fun _ => Iff.rfl, store, failure, store', failed,
        waits⟩
    · obtain ⟨now, below, claims, rest⟩ := h.pending d' mem
      exact ⟨now, below, fun key => (claims key).cons d, rest⟩
  noted d' mem away := by
    obtain ⟨other, away⟩ := not_or.mp (mt List.mem_cons.mpr away)
    exact h.noted d' ((List.mem_cons.mp mem).resolve_left other) away
  firm left final tidied ended := by
    have apart (queue : List Deferred) : left ++ d :: queue = left ++ [d] ++ queue := by
      rw [List.append_assoc]
      rfl
    rw [apart] at tidied ended ⊢
    obtain ⟨firm, ends⟩ := h.firm (left ++ [d]) final tidied ended
    exact ⟨firm, fun key => (ends key).imp_right fun ⟨d', mem, wrote⟩ =>
      ⟨d', List.mem_cons_of_mem d mem, wrote⟩⟩

end Resolution

namespace Engine

open Format (BuildsPatches)

variable {defs : Definitions} {e : Engine}

private theorem resolution_of_applyPatches (patches : BuildsPatches defs e) {strict : Bool}
    {before : List UInt8} : ∀ {queue waiting : List Deferred} {part : List UInt8}
      {ctx : Context} {store : LazyStore} {s : State},
      Tidy before.length (before.length + part.length) queue →
      e.applyPatches strict queue ⟨.atEnd (before ++ part), ctx, store⟩ = .ok waiting s →
      ∃ part' ctx' store', s = ⟨.atEnd (before ++ part'), ctx', store'⟩ ∧ ctx.Kept ctx' ∧
        (strict = true → waiting = []) ∧
        Resolution e defs queue waiting before.length part part' ctx ctx' := by
  intro queue
  induction queue with
  | nil =>
      intro waiting part ctx store s _ run
      cases run
      exact ⟨part, ctx, store, rfl, .refl ctx, fun _ => rfl, .nil e defs _ part ctx⟩
  | cons d rest ih =>
      intro waiting part ctx store s tidy run
      have tidy' := tidy.sublist (List.sublist_cons_self d rest)
      -- Computing a patch changes nothing but lazy members.
      rcases applied_or_left_of_applyPatches run with
        ⟨value, store₁, s₁, -, applied, later⟩ |
        ⟨failure, store₁, others, lenient, computed, waits, later, rfl⟩
      · obtain ⟨w, ahead, old, stored, behind, rfl, offset, reserved, size, bears, rfl⟩ :=
          applied_of_leaf patches (tidy.leaf d List.mem_cons_self)
            (tidy.front d List.mem_cons_self) (tidy.back d List.mem_cons_self) applied
        have same : (ahead ++ (old ++ behind)).length = (ahead ++ (stored ++ behind)).length := by
          simp only [List.length_append, size, reserved]
        rw [same] at tidy'
        obtain ⟨part', ctx', store', rfl, kept, none, resolution⟩ := ih tidy' later
        exact ⟨part', ctx', store', rfl, (ctx.kept_noted d w).trans kept, none,
          resolution.applied offset size reserved bears⟩
      · obtain ⟨part', ctx', store', rfl, kept, -, resolution⟩ := ih tidy' later
        exact ⟨part', ctx', store', rfl, kept,
          fun isStrict => Bool.noConfusion (lenient.symm.trans isStrict),
          resolution.waits computed waits⟩

/-- A resolution keeps what is in front, and leaves what it cannot compute on the queue. -/
theorem resolution_of_resolveSince (patches : BuildsPatches defs e) {strict : Bool}
    {before part : List UInt8} {ctx : Context} {store : LazyStore} {s : State}
    (tidy : Tidy before.length (before.length + part.length) ctx.top.deferred)
    (run : e.resolveSince 0 strict ⟨.atEnd (before ++ part), ctx, store⟩ = .ok () s) :
    ∃ part' ctx' store', s = ⟨.atEnd (before ++ part'), ctx', store'⟩ ∧
      (strict = true → ctx'.top.deferred = []) ∧
      Resolution e defs ctx.top.deferred ctx'.top.deferred before.length part part' ctx ctx' := by
  rw [resolveSince_apply] at run
  dsimp only at run
  rw [List.drop_zero] at run
  obtain ⟨waiting, s₁, applied, requeued⟩ := Run.bind_eq_ok_iff.mp run
  obtain ⟨part', ctx', store', rfl, kept, none, resolution⟩ :=
    resolution_of_applyPatches patches tidy applied
  cases requeued
  have queue : (ctx'.withDeferred (ctx'.top.deferred ++ waiting)).top.deferred = waiting := by
    have emptied : ctx'.top.deferred = [] := kept.deferred
    show ctx'.top.deferred ++ waiting = waiting
    rw [emptied, List.nil_append]
  refine ⟨part', _, store', rfl, fun isStrict => queue.trans (none isStrict), ?_⟩
  rw [queue]
  exact ⟨resolution.length, kept.below, resolution.sub, resolution.distinct, resolution.keys,
    resolution.claims, resolution.pending, resolution.noted, resolution.firm⟩

end Engine

/-! ## Leaving a frame -/

namespace Context

/-- The context with further patches on the queue of the innermost frame. -/
def queued (ctx : Context) (new : List Deferred) : Context :=
  ctx.withDeferred (ctx.top.deferred ++ new)

theorem queued_nil (ctx : Context) : ctx.queued [] = ctx := by
  simp [queued, withDeferred]

/-- Patches that are pending when a frame is left are queued on the one below. -/
theorem pop_eq_queued {ctx after : Context} (below : after.below = ctx.top :: ctx.below) :
    after.pop = ctx.queued (after.top.deferred.map fun d =>
      { d with scopes := after.innermost :: d.scopes }) := by
  rw [pop, below]
  rfl

end Context

end BinaryFormat
