import BinaryFormat.Codec.Basic
import BinaryFormat.Proofs.Twins.Expressions

/-!
# Lazy members of paired stores

A member is parsed over a stream of its own and in the frames that were kept for it,
so an engine that parses fairly resolves fairly.
-/

namespace BinaryFormat

open Lookup

variable {admitted : String → Prop}

/-- What an engine runs comes to the same from paired states, unless frames differ and the
format can tell. -/
structure Engine.Fair (admitted : String → Prop) (e : Engine) : Prop where
  parse : ∀ {loose : Bool} (w : Pairing admitted loose) (f : Format) (path : Path),
    (loose = true → f.Named admitted) → (e.parse f path).Fair w
  size : ∀ {loose : Bool} {depth : Nat} {ctx ctx' : Context},
    PairedContexts loose depth ctx ctx' → ∀ (f : Format) (path : Path),
      (loose = true → f.Named admitted) → (e.size f ctx path).Alike admitted (e.size f ctx' path)
  forceMember : ∀ v, (e.forceMember v).Alike admitted (e.forceMember v)

section

variable {e : Engine} (fair : e.Fair admitted) {loose : Bool}
include fair

namespace Slot

private theorem alike_parse_unindexed (name : Option String) (offset : Nat) {format : Format}
    (named : loose = true → format.Named admitted) (path : Path) (cache : Option Value)
    (data : List UInt8) (base : Nat) {ctx ctx' : Context}
    (contexts : PairedContexts loose 0 ctx ctx') :
    (parse e.parse ⟨name, offset, format, path, none, cache⟩ data base ctx).Alike admitted
      (parse e.parse ⟨name, offset, format, path, none, cache⟩ data base ctx') := by
  have parsed := (fair.parse ⟨Eq, faithful_eq, 0⟩ format path named).tagged
  intro store store' stores
  have outcomes := parsed ⟨.medium ⟨.snapshot base, data, offset⟩, ctx, store⟩
    ⟨.medium ⟨.snapshot base, data, offset⟩, ctx', store'⟩ ⟨rfl, contexts, stores⟩
  unfold parse
  dsimp only
  generalize Run.tagged (e.parse format path) ⟨_, _, store⟩ = r at outcomes
  generalize Run.tagged (e.parse format path) ⟨_, _, store'⟩ = r' at outcomes
  cases outcomes with
  | ok related states => exact .ok related states.store
  | error failure states => exact .error failure states.store

private theorem alike_parse {slot : Slot} (named : loose = true → slot.format.Named admitted)
    (data : List UInt8) (base : Nat) {ctx ctx' : Context}
    (contexts : PairedContexts loose 0 ctx ctx') :
    (slot.parse e.parse data base ctx).Alike admitted (slot.parse e.parse data base ctx') := by
  obtain ⟨name, offset, format, path, index, cache⟩ := slot
  cases index with
  | none => exact alike_parse_unindexed fair name offset named path cache data base contexts
  | some i =>
      exact alike_parse_unindexed fair name offset named path cache data base
        (contexts.insert "_index" (.ofNat i))

end Slot

namespace Members

private theorem alike_value (handle : Handle) {m m' : Members}
    (paired : PairedMembers admitted m m')
    (i : Nat) {slot : Slot} (named : loose = true → slot.format.Named admitted)
    {ctx ctx' : Context} (contexts : PairedContexts loose 0 ctx ctx') :
    (value e.parse handle m i slot ctx).Alike admitted (value e.parse handle m' i slot ctx') := by
  refine twins_get.bind fun store store' stores => ?_
  rw [stores.cached?]
  cases store'.cached? handle i with
  | some v => exact alike_pure v
  | none =>
      dsimp only
      rw [paired.data, paired.base]
      exact (slot.alike_parse fair named _ _ contexts).both fun v =>
        (alike_remember handle i v).both fun _ => alike_pure v

private theorem alike_chain (handle : Handle) {m m' : Members}
    (paired : PairedMembers admitted m m') :
    ∀ {slots : List Slot} (i more : Nat) {ctx ctx' : Context},
      (loose = true → ∀ slot ∈ slots, slot.format.Named admitted) →
      PairedContexts loose 0 ctx ctx' →
      (chain e.parse handle m slots i more ctx).Alike admitted
        (chain e.parse handle m' slots i more ctx')
  | [], _, _, _, _, _, _ => alike_pure _
  | slot :: _, i, 0, _, _, named, contexts =>
      alike_value fair handle paired i (fun differ => named differ slot List.mem_cons_self) contexts
  | slot :: rest, i, more + 1, _, _, named, contexts => by
      have later : loose = true → ∀ slot ∈ rest, slot.format.Named admitted :=
        fun differ slot mem => named differ slot (List.mem_cons_of_mem _ mem)
      rw [chain, chain]
      cases slot.name with
      | none => exact alike_chain handle paired (i + 1) more later contexts
      | some name =>
          have first := fun differ => named differ slot List.mem_cons_self
          exact (alike_value fair handle paired i first contexts).both fun v =>
            alike_chain handle paired (i + 1) more later (contexts.insert name v)

private theorem alike_resolve (handle : Handle) {m m' : Members}
    (paired : PairedMembers admitted m m')
    (i : Nat) : (m.resolve e.parse handle i).Alike admitted (m'.resolve e.parse handle i) := by
  obtain ⟨loose, contexts, named⟩ := paired.context
  refine twins_get.bind fun store store' stores => ?_
  rw [stores.cached?]
  cases store'.cached? handle i with
  | some v => exact alike_pure v
  | none =>
      dsimp only
      rw [paired.chained, paired.slots]
      rw [paired.slots] at named
      refine twins_ite (alike_chain fair handle paired 0 i named contexts) ?_
      cases found : m'.slots[i]? with
      | none => exact alike_pure _
      | some slot =>
          have known := fun differ => named differ slot (List.mem_of_getElem? found)
          exact alike_value fair handle paired i known contexts

end Members

private theorem Lookup.alike_resolve (handle : Handle) (i : Nat) :
    (Lookup.resolve e.parse handle i).Alike admitted (Lookup.resolve e.parse handle i) := by
  refine twins_get.bind fun store store' stores => ?_
  have members := stores.members? handle
  generalize store.members? handle = found at members
  generalize store'.members? handle = found' at members
  cases members with
  | none => exact alike_pure _
  | some paired => exact Members.alike_resolve fair handle paired i

end

/-! ## Forcing values -/

namespace Value

variable {r : Resolver}

private theorem alike_forceMembers (fair : r.Fair admitted) (handle : Handle) :
    ∀ (slots : List Slot) (i : Nat) (done : Record Value),
    (forceMembers r handle slots i done).Alike admitted (forceMembers r handle slots i done)
  | [], _, _ => alike_pure _
  | slot :: rest, i, done => by
      rw [forceMembers]
      cases slot.name with
      | none => exact alike_forceMembers fair handle rest (i + 1) done
      | some name =>
          exact (fair.resolve handle i).both fun v => (fair.force v).both fun v =>
            alike_forceMembers fair handle rest (i + 1) (done.insert name v)

private theorem alike_forceElements (fair : r.Fair admitted) (handle : Handle) : ∀ count i : Nat,
    (forceElements r handle count i).Alike admitted (forceElements r handle count i)
  | 0, _ => alike_pure _
  | count + 1, i => (fair.resolve handle i).both fun v => (fair.force v).both fun _ =>
      (alike_forceElements fair handle count (i + 1)).both fun _ => alike_pure _

mutual

private theorem alike_forceWith (fair : r.Fair admitted) : ∀ v : Value,
    (forceWith r v).Alike admitted (forceWith r v)
  | .lazyContainer handle _ => by
      rw [forceWith]
      refine twins_get.bind fun store store' stores => ?_
      rw [stores.slots handle]
      exact (alike_forceMembers fair handle _ 0 []).both fun _ => alike_pure _
  | .lazyList handle length => by
      rw [forceWith]
      exact (alike_forceElements fair handle length 0).both fun _ => alike_pure _
  | .list items => by
      rw [forceWith]
      exact (alike_forceItems fair items).both fun _ => alike_pure _
  | .container fields => by
      rw [forceWith]
      exact (alike_forceFields fair fields).both fun _ => alike_pure _
  | .flags fields => by
      rw [forceWith]
      exact (alike_forceFields fair fields).both fun _ => alike_pure _
  | .none | .bool _ | .int _ | .float _ | .bytes _ | .str _ => alike_pure _

theorem alike_forceItems (fair : r.Fair admitted) : ∀ items : List Value,
    (forceItems r items).Alike admitted (forceItems r items)
  | [] => alike_pure _
  | item :: rest => by
      rw [forceItems]
      exact (alike_forceWith fair item).both fun _ => (alike_forceItems fair rest).both fun _ =>
        alike_pure _

theorem alike_forceFields (fair : r.Fair admitted) : ∀ fields : List (String × Value),
    (forceFields r fields).Alike admitted (forceFields r fields)
  | [] => alike_pure _
  | (_, value) :: rest => by
      rw [forceFields]
      exact (alike_forceWith fair value).both fun _ => (alike_forceFields fair rest).both fun _ =>
        alike_pure _

end

end Value

theorem Engine.Fair.resolver {e : Engine} (fair : e.Fair admitted) : e.resolver.Fair admitted where
  resolve := Lookup.alike_resolve fair
  force := Value.alike_forceWith ⟨Lookup.alike_resolve fair, fair.forceMember⟩

end BinaryFormat
