import BinaryFormat.Proofs.Access.Known
import BinaryFormat.Proofs.Lazy.Resolve

/-!
# Resolving members

Engines that parse alike resolve alike, whatever either side knows already: what is
known was found by runs that are compared with those that find it now.  What they
record has its provenance again, and so has what is put down.
-/

namespace BinaryFormat

open Codec Lookup

variable {l : Lineage} {σ σ' τ τ' : LazyStore} {h k : Handle} {m m' : Members} {i j : Nat}
  {slot slot' : Slot} {ctx ctx' : Context} {v v' : Value} {e : Engine}

/-! ## Stores that grow soundly -/

private theorem Found.remember (members : σ.members? h = some m) (unknown : σ.cached? h i = none)
    (genuine : Genuine l σ h i v) : Found l (σ.remember h i v) h i v :=
  .intro (LazyStore.grown_remember σ h i v)
    (by rw [LazyStore.size_remember members unknown]; exact Nat.lt_succ_self _) genuine

private theorem Sound.remember (sound : Sound l σ) (members : σ.members? h = some m)
    (genuine : Genuine l σ h i v) : Sound l (σ.remember h i v) := by
  cases unknown : σ.cached? h i with
  | some w => rwa [LazyStore.remember_of_known unknown]
  | none =>
      have grown := LazyStore.grown_remember σ h i v
      obtain ⟨similar, ordered, found⟩ := sound
      refine ⟨fun h' m' known => ?_, fun h' m' known => ?_,
        fun h' m' j s w known here cache cached => ?_⟩
      · rw [LazyStore.members?_remember] at known
        exact (similar h' m' known).grown grown grown
      · rw [LazyStore.members?_remember] at known
        exact ordered h' m' known
      · rw [LazyStore.members?_remember] at known
        rcases LazyStore.cached?_of_remember cached with before | ⟨rfl, rfl, rfl⟩
        · exact (found h' m' j s w known here cache before).grown grown
        · exact .remember members unknown genuine

theorem Sound.add (sound : Sound l σ) (matched : m.Matches (Similar σ σ) m)
    (ordered : m.chained = true → Slot.Ordered m.slots) : Sound l (σ.add m).2 := by
  have grown := LazyStore.grown_add σ m
  obtain ⟨similar, before, found⟩ := sound
  refine ⟨fun h' m' known => ?_, fun h' m' known => ?_,
    fun h' m' j s w known here cache cached => ?_⟩
  · rcases LazyStore.members?_of_add known with known | ⟨rfl, rfl⟩
    · exact (similar h' m' known).grown grown grown
    · exact similar_add matched
  · rcases LazyStore.members?_of_add known with known | ⟨rfl, rfl⟩
    · exact before h' m' known
    · exact ordered
  · rcases LazyStore.members?_of_add known with known | ⟨rfl, rfl⟩
    · rw [LazyStore.cached?_add_of_lt (LazyStore.lt_of_members known)] at cached
      exact (found h' m' j s w known here cache cached).grown grown
    · rw [LazyStore.cached?_add_self, here, Option.bind_some, cache] at cached
      cases cached

private theorem Sound.found (sound : Sound l σ) (members : σ.members? h = some m)
    (here : m.slots[i]? = some slot) (cache : slot.cache = none) (cached : σ.cached? h i = some v) :
    Found l σ h i v := by
  obtain ⟨-, -, found⟩ := sound
  exact found h m i slot v members here cache cached

private theorem Sound.genuine (sound : Sound l σ) (members : σ.members? h = some m)
    (cached : σ.cached? h i = some v) : Genuine l σ h i v := by
  obtain ⟨slot, here⟩ := LazyStore.slot_of_cached members cached
  cases cache : slot.cache with
  | some w =>
      have known := LazyStore.cached?_of_cache members here cache
      rw [cached] at known
      cases known
      exact .scanned members here cache
  | none =>
      obtain ⟨earlier, -, genuine⟩ := sound.found members here cache cached
      exact genuine.grown earlier

private theorem cache_of_unknown (members : σ.members? h = some m) (here : m.slots[i]? = some slot)
    (unknown : σ.cached? h i = none) : slot.cache = none := by
  cases cache : slot.cache with
  | none => rfl
  | some w =>
      rw [LazyStore.cached?_of_cache members here cache] at unknown
      cases unknown

/-! ## The members before one -/

/-- Where a member is seen, the named members before it are known. -/
private theorem Seen.known (seen : Seen l σ h m i ctx) (chained : m.chained = true) (less : j < i)
    (here : m.slots[j]? = some slot) (named : slot.name ≠ none) : (σ.cached? h j).isSome := by
  induction i generalizing ctx with
  | zero => exact absurd less (Nat.not_lt_zero j)
  | succ i ih =>
      cases seen with
      | unchained _ free =>
          rw [chained] at free
          cases free
      | unnamed before _ at_i nameless =>
          rcases Nat.lt_succ_iff_lt_or_eq.mp less with less | rfl
          · exact ih before less
          · rw [here] at at_i
            cases at_i
            exact absurd nameless named
      | named before _ at_i _ _ known =>
          rcases Nat.lt_succ_iff_lt_or_eq.mp less with less | rfl
          · exact ih before less
          · exact known

theorem Sound.known_before (sound : Sound l σ) (members : σ.members? h = some m)
    (chained : m.chained = true) (known : σ.cached? h i = some v) (less : j < i)
    (here : m.slots[j]? = some slot) (named : slot.name ≠ none) : (σ.cached? h j).isSome := by
  have genuine := sound.genuine members known
  cases genuine with
  | scanned members' at_i cache =>
      rw [members] at members'
      cases members'
      obtain ⟨-, ordered, -⟩ := sound
      have order := ordered h m members chained
      obtain ⟨bound, rfl⟩ := List.getElem?_eq_some_iff.mp at_i
      obtain ⟨bound', rfl⟩ := List.getElem?_eq_some_iff.mp here
      have earlier := List.pairwise_iff_getElem.mp order j i bound' bound less (by rw [cache]; rfl)
      obtain ⟨w, cache'⟩ := Option.isSome_iff_exists.mp earlier
      rw [LazyStore.cached?_of_cache members here cache']
      rfl
  | ran sound' members' _ _ seen _ since later =>
      have grown := since.trans later
      have same := grown.members members'
      rw [members] at same
      cases same
      obtain ⟨w, known'⟩ := Option.isSome_iff_exists.mp (seen.known chained less here named)
      rw [grown.cached known']
      rfl

/-! ## The value of a member -/

private theorem value_of_parsed {parse : Format → Path → Run Value} (unknown : σ.cached? h i = none)
    (run : slot.parse parse m.data m.base ctx σ = .ok v σ') :
    Members.value parse h m i slot ctx σ = .ok v (σ'.remember h i v) := by
  rw [value_of_uncached unknown, Run.bind_of_ok run]
  rfl

private theorem value_of_refused {parse : Format → Path → Run Value} {failure : Failure}
    (unknown : σ.cached? h i = none)
    (run : slot.parse parse m.data m.base ctx σ = .error failure σ') :
    Members.value parse h m i slot ctx σ = .error failure σ' := by
  rw [value_of_uncached unknown, Run.bind_of_error run]

theorem lasts_value (lasting : e.Lasting) (h : Handle) (m : Members) (i : Nat) (slot : Slot)
    (ctx : Context) : Lasts (Members.value e.parse h m i slot ctx) := by
  intro σ
  cases known : σ.cached? h i with
  | some v =>
      rw [value_of_cached known]
      exact .refl σ
  | none =>
      have grown := lasts_slot_parse lasting slot m.data m.base ctx σ
      cases run : slot.parse e.parse m.data m.base ctx σ with
      | ok v σ' =>
          rw [run] at grown
          rw [value_of_parsed known run]
          exact grown.trans (LazyStore.grown_remember σ' h i v)
      | error failure σ' =>
          rw [run] at grown
          rw [value_of_refused known run]
          exact grown

theorem lasts_chain (lasting : e.Lasting) : ∀ (slots : List Slot) (i more : Nat) (ctx : Context),
    Lasts (Members.chain e.parse h m slots i more ctx)
  | [], _, _, _ => fun σ => .refl σ
  | _ :: _, _, 0, _ => lasts_value lasting _ _ _ _ _
  | slot :: rest, i, more + 1, ctx => by
      rw [Members.chain]
      cases slot.name with
      | none => exact lasts_chain lasting rest (i + 1) more ctx
      | some name => exact (lasts_value lasting _ _ _ _ _).bind fun {_ v _} _ =>
          lasts_chain lasting rest (i + 1) more (ctx.insert name v)

/-- A member of a lazy value, in the context that it sees. -/
structure Member (l : Lineage) (h : Handle) (m : Members) (i : Nat) (slot : Slot) (ctx : Context)
    (σ : LazyStore) : Prop where
  members : σ.members? h = some m
  here : m.slots[i]? = some slot
  seen : Seen l σ h m i ctx

private theorem Member.grown (member : Member l h m i slot ctx σ) (grown : σ.Grown σ') :
    Member l h m i slot ctx σ' :=
  ⟨grown.members member.members, member.here, member.seen.grown grown⟩

/-- What a run finds of a member has its provenance. -/
private theorem genuine_of_run {n : Nat} (lasting : (l.engine n).Lasting) (sound : Sound l σ)
    (member : Member l h m i slot ctx σ) (cache : slot.cache = none)
    (run : slot.parse (l.engine n).parse m.data m.base ctx σ = .ok v σ') : Genuine l σ' h i v := by
  have grown := lasts_slot_parse lasting slot m.data m.base ctx σ
  rw [run] at grown
  exact .ran sound member.members member.here cache member.seen run grown (.refl σ')

theorem known_of_value (lasting : e.Lasting) (members : σ.members? h = some m)
    (here : m.slots[i]? = some slot) (run : Members.value e.parse h m i slot ctx σ = .ok v σ') :
    (σ'.cached? h i).isSome := by
  cases known : σ.cached? h i with
  | some w =>
      rw [value_of_cached known] at run
      cases run
      rw [known]
      rfl
  | none =>
      cases ran : slot.parse e.parse m.data m.base ctx σ with
      | error failure σ₁ =>
          rw [value_of_refused known ran] at run
          cases run
      | ok w σ₁ =>
          have grown := lasts_slot_parse lasting slot m.data m.base ctx σ
          rw [ran] at grown
          rw [value_of_parsed known ran] at run
          cases run
          exact LazyStore.isSome_cached?_remember (grown.members members) here v

theorem genuine_of_value {n : Nat} (lasting : (l.engine n).Lasting) (sound : Sound l σ)
    (member : Member l h m i slot ctx σ)
    (run : Members.value (l.engine n).parse h m i slot ctx σ = .ok v σ') : Genuine l σ' h i v := by
  cases known : σ.cached? h i with
  | some w =>
      rw [value_of_cached known] at run
      cases run
      exact sound.genuine member.members known
  | none =>
      cases ran : slot.parse (l.engine n).parse m.data m.base ctx σ with
      | error failure σ₁ =>
          rw [value_of_refused known ran] at run
          cases run
      | ok w σ₁ =>
          rw [value_of_parsed known ran] at run
          cases run
          exact (genuine_of_run lasting sound member
            (cache_of_unknown member.members member.here known) ran).grown
              (LazyStore.grown_remember σ₁ h i v)

/-- What is found now of a member matches what was found of it earlier elsewhere. -/
private theorem matches_found {most n' : Nat} (agrees : ∀ less < most, l.Agrees less)
    (lasting : (l.engine n').Lasting) (sound : Sound l τ) (similar : Similar σ τ h k)
    (members : σ.members? h = some m) (here : m.slots[i]? = some slot) (cache : slot.cache = none)
    (found : Found l σ h i v) (member : Member l k m' i slot' ctx' τ) (clear : σ.Clear l.mark)
    {r : EStateM.Result Failure LazyStore Value}
    (run : slot'.parse (l.engine n').parse m'.data m'.base ctx' τ = r)
    (clear' : (ending r).Clear l.mark) (within : σ.size + (ending r).size ≤ most) :
    ∃ v' τ', r = .ok v' τ' ∧ v.Matches (Similar σ τ') v' ∧ Sound l τ' := by
  have grown' := lasts_slot_parse lasting slot' m'.data m'.base ctx' τ
  rw [run] at grown'
  obtain ⟨earlier, fewer, genuine⟩ := found
  cases genuine with
  | scanned members₀ at_i cached =>
      have same := earlier.members members₀
      rw [members] at same
      cases same
      rw [here] at at_i
      cases at_i
      rw [cache] at cached
      cases cached
  | @ran _ σ₀ σ₁ _ m₀ _ n slot₀ ctx _ sound₀ members₀ at_i _ seen ran since later =>
      have grown := (since.trans later).trans earlier
      have same := grown.members members₀
      rw [members] at same
      cases same
      rw [here] at at_i
      cases at_i
      have shorter := since.size
      have shorter' := later.size
      have longer : τ.size ≤ (ending r).size := grown'.size
      -- The run that has found the value started in an earlier store, where the members were
      -- similar already.
      have before : Similar σ₀ τ h k :=
        similar.earlier grown (.refl τ) (sound₀.similar members₀) (sound.similar member.members)
      have known : ∀ j, ValuesMatch l (σ₀.size + τ.size) j :=
        valuesMatch_of_agrees fun less within' => agrees less (by omega)
      have contexts := Seen.matches (fun j _ => known j) seen member.seen members₀ member.members
        before (clear.earlier grown) (clear'.earlier grown') (Nat.le_refl _)
      have matched := before.members_match members₀ member.members
      rw [← matched.data, ← matched.base] at run
      -- Both runs together find less than the limit, so their engines parse alike.
      have concur := concurs_slot_parse (w := .pair σ₀ τ)
        (agrees (σ₁.size + (ending r).size) (by omega) n n')
        (fun _ => matched.uniform slot (List.mem_of_getElem? here)) (matched.slot here member.here)
        contexts m.data m.base
      have outcomes := concur.meets (s := σ₀) (t := τ) (.refl _) ⟨sound₀, sound, trivial⟩
      rw [ran, run] at outcomes
      cases outcomes ⟨clear.earlier (later.trans earlier), clear', _, rfl, Nat.le_refl _⟩ with
      | @ok _ v' _ τ' related ends =>
          exact ⟨v', τ', rfl, related.mono fun _ _ similar =>
            similar.grown (later.trans earlier) (.refl τ'), ends.right⟩

private theorem matches_known {most : Nat} (agrees : ∀ less < most, l.Agrees less)
    (sound : Sound l σ)
    (sound' : Sound l τ) (similar : Similar σ τ h k) (members : σ.members? h = some m)
    (members' : τ.members? k = some m') (known : σ.cached? h i = some v)
    (known' : τ.cached? k i = some v') (clear : σ.Clear l.mark) (clear' : τ.Clear l.mark)
    (within : σ.size + τ.size ≤ most) : v.Matches (Similar σ τ) v' := by
  have matched := similar.members_match members members'
  obtain ⟨slot, here⟩ := LazyStore.slot_of_cached members known
  obtain ⟨slot', here'⟩ := LazyStore.slot_of_cached members' known'
  have caches := (matched.slot here here').cache
  cases cache : slot.cache with
  | some w =>
      cases cache' : slot'.cache with
      | none =>
          rw [cache, cache'] at caches
          cases caches
      | some w' =>
          have there := LazyStore.cached?_of_cache members here cache
          have there' := LazyStore.cached?_of_cache members' here' cache'
          rw [known] at there
          rw [known'] at there'
          cases there
          cases there'
          rw [cache, cache'] at caches
          cases caches with
          | some same => exact same
  | none =>
      cases cache' : slot'.cache with
      | some w' =>
          rw [cache, cache'] at caches
          cases caches
      | none =>
          have found := sound.found members here cache known
          have found' := sound'.found members' here' cache' known'
          cases found with
          | @intro _ before _ _ _ earlier fewer genuine =>
              cases found' with
              | @intro _ before' _ _ _ earlier' fewer' genuine' =>
                  have agrees' : ∀ less ≤ before.size + before'.size, l.Agrees less :=
                    fun less within' => agrees less (by omega)
                  exact valuesMatch_of_agrees agrees' i genuine genuine' earlier earlier' similar
                    clear clear' (Nat.le_refl _)

private theorem value_of_found {most n' : Nat} (agrees : ∀ less < most, l.Agrees less)
    (lasting : (l.engine n').Lasting) (sound : Sound l σ) (sound' : Sound l τ)
    (similar : Similar σ τ h k) (members : σ.members? h = some m) (known : σ.cached? h i = some v)
    (member : Member l k m' i slot' ctx' τ) (unknown : τ.cached? k i = none)
    (clear : σ.Clear l.mark)
    (clear' : (ending (Members.value (l.engine n').parse k m' i slot' ctx' τ)).Clear l.mark)
    (within : σ.size +
      (ending (Members.value (l.engine n').parse k m' i slot' ctx' τ)).size ≤ most) :
    ∃ v' τ', Members.value (l.engine n').parse k m' i slot' ctx' τ = .ok v' τ' ∧
      v.Matches (Similar σ τ') v' ∧ Sound l τ' := by
  have matched := similar.members_match members member.members
  obtain ⟨slot, here⟩ := LazyStore.slot_of_cached members known
  have cache : slot.cache = none := by
    have caches := (matched.slot here member.here).cache
    rw [cache_of_unknown member.members member.here unknown] at caches
    generalize slot.cache = c at caches
    cases caches
    rfl
  have found := sound.found members here cache known
  cases run : slot'.parse (l.engine n').parse m'.data m'.base ctx' τ with
  | error failure τ₁ =>
      rw [value_of_refused unknown run] at clear' within
      obtain ⟨_, _, impossible, -, -⟩ := matches_found agrees lasting sound' similar members here
        cache found member clear run clear' within
      cases impossible
  | ok v' τ₁ =>
      have grown := LazyStore.grown_remember τ₁ k i v'
      have longer := grown.size
      rw [value_of_parsed unknown run] at clear' within ⊢
      have within : σ.size + τ₁.size ≤ most := by
        have within : σ.size + (τ₁.remember k i v').size ≤ most := within
        omega
      obtain ⟨w', τ₂, same, matched, sound₁⟩ := matches_found agrees lasting sound' similar members
        here cache found member clear run (clear'.earlier grown) within
      cases same
      have grown' : τ.Grown τ₁ := by
        have grown' := lasts_slot_parse lasting slot' m'.data m'.base ctx' τ
        rwa [run] at grown'
      exact ⟨v', _, rfl, matched.mono fun _ _ similar => similar.grown (.refl σ) grown,
        sound₁.remember (grown'.members member.members)
          (genuine_of_run lasting sound' member
            (cache_of_unknown member.members member.here unknown) run)⟩

/-! ## Both sides -/

/-- Levels of which the engines parse alike; all levels do as far as less is found. -/
structure Peers (q : Setting) (n n' : Nat) : Prop where
  left : (q.engine n).Lasting
  right : (q.engine n').Lasting
  alike : Engine.ParsesAlike q (q.engine n) (q.engine n')
  agrees : ∀ most, q.limit = some most → ∀ less < most, q.Agrees less

section

variable {q : Setting} {w : World} {n n' : Nat}

/-- A value with its provenance, of a member that is there. -/
structure Traced (l : Lineage) (h : Handle) (i : Nat) (v : Value) (σ : LazyStore) : Prop where
  members : ∃ m, σ.members? h = some m
  genuine : Genuine l σ h i v

private theorem Traced.grown (traced : Traced l h i v σ) (grown : σ.Grown σ') : Traced l h i v σ' :=
  ⟨traced.members.imp fun _ => grown.members, traced.genuine.grown grown⟩

private theorem concurs_remember
    (traced : w.Holds (Traced q.toLineage h i v) (Traced q.toLineage k i v')) :
    Concurs q w .same (modify (·.remember h i v) : Lookup Failure Unit)
      (modify (·.remember k i v')) := by
  refine ⟨fun σ => LazyStore.grown_remember σ h i v, fun τ => LazyStore.grown_remember τ k i v',
    fun {σ τ} here meeting _ => ?_⟩
  obtain ⟨left, right⟩ : Traced q.toLineage h i v σ ∧ Traced q.toLineage k i v' τ :=
    here.holds traced (fun grown traced => traced.grown grown) fun grown traced =>
      traced.grown grown
  obtain ⟨⟨m, members⟩, genuine⟩ := left
  obtain ⟨⟨m', members'⟩, genuine'⟩ := right
  exact .ok rfl ⟨meeting.left.remember members genuine, meeting.right.remember members' genuine',
    trivial⟩

/-- What both sides find is recorded on both. -/
private theorem concurs_found (peers : Peers q n n') (member : Member q.toLineage h m i slot ctx σ)
    (member' : Member q.toLineage k m' i slot' ctx' τ) (similar : Similar σ τ h k)
    (cache : slot.cache = none) (cache' : slot'.cache = none)
    (contexts : ctx.Matches (Similar σ τ) ctx') :
    Concurs q (.pair σ τ) .value
      (do
        let v ← slot.parse (q.engine n).parse m.data m.base ctx
        modify (·.remember h i v)
        return v)
      (do
        let v' ← slot'.parse (q.engine n').parse m'.data m'.base ctx'
        modify (·.remember k i v')
        return v') := by
  have matched := similar.members_match member.members member'.members
  have parsed := concurs_slot_parse (w := .pair σ τ) peers.alike
    (fun _ => matched.uniform slot (List.mem_of_getElem? member.here))
    (matched.slot member.here member'.here) contexts m.data m.base
  rw [matched.data, matched.base] at parsed ⊢
  refine parsed.bind_known (Traced q.toLineage h i) (Traced q.toLineage k i) ?_ ?_
    fun _ _ v v' same traced => (concurs_remember traced).both fun _ later _ =>
      concurs_pure (same.mono later.related)
  · intro s t v s' here meeting run
    cases here with
    | grown left _ =>
        have member := member.grown left
        have grown := lasts_slot_parse peers.left slot m'.data m'.base ctx s
        rw [run] at grown
        rw [← matched.data, ← matched.base] at run
        exact ⟨⟨m, grown.members member.members⟩,
          genuine_of_run peers.left meeting.left member cache run⟩
  · intro s t v t' here meeting run
    cases here with
    | grown _ right =>
        have member' := member'.grown right
        have grown := lasts_slot_parse peers.right slot' m'.data m'.base ctx' t
        rw [run] at grown
        exact ⟨⟨m', grown.members member'.members⟩,
          genuine_of_run peers.right meeting.right member' cache' run⟩

theorem concurs_value (peers : Peers q n n') (related : w.Related h k)
    (standing : w.Holds (Member q.toLineage h m i slot ctx) (Member q.toLineage k m' i slot' ctx'))
    (contexts : ctx.Matches w.Related ctx') :
    Concurs q w .value (Members.value (q.engine n).parse h m i slot ctx)
      (Members.value (q.engine n').parse k m' i slot' ctx') := by
  refine ⟨lasts_value peers.left h m i slot ctx, lasts_value peers.right k m' i slot' ctx',
    fun {σ τ} here meeting allowed => ?_⟩
  have similar : Similar σ τ h k := here.related h k related
  obtain ⟨member, member'⟩ : Member q.toLineage h m i slot ctx σ ∧
      Member q.toLineage k m' i slot' ctx' τ :=
    here.holds standing (fun grown member => member.grown grown) fun grown member =>
      member.grown grown
  have sound : Sound q.toLineage σ := meeting.left
  have sound' : Sound q.toLineage τ := meeting.right
  obtain ⟨clear, clear', most, limit, within⟩ := allowed
  have agrees := peers.agrees most limit
  -- Either side may know the member or have to parse it. The mixed cases are one case and its
  -- mirror image.
  cases known : σ.cached? h i with
  | some v =>
      cases known' : τ.cached? k i with
      | some v' =>
          rw [value_of_cached known] at clear within ⊢
          rw [value_of_cached known'] at clear' within ⊢
          exact .ok (matches_known agrees sound sound' similar member.members member'.members known
            known' clear clear' within) meeting
      | none =>
          rw [value_of_cached known] at clear within ⊢
          obtain ⟨v', τ', run, matched, ends⟩ := value_of_found agrees peers.right sound sound'
            similar member.members known member' known' clear clear' within
          rw [run]
          exact .ok matched ⟨sound, ends, trivial⟩
  | none =>
      cases known' : τ.cached? k i with
      | some v' =>
          rw [value_of_cached known'] at clear' within ⊢
          obtain ⟨v, σ', run, matched, ends⟩ := value_of_found agrees peers.left sound' sound
            similar.symm member'.members known' member known clear' clear
              (by rwa [Nat.add_comm] at within)
          rw [run]
          exact .ok (matched.symm fun _ _ similar => similar.symm) ⟨ends, sound', trivial⟩
      | none =>
          rw [value_of_uncached known] at clear within ⊢
          rw [value_of_uncached known'] at clear' within ⊢
          exact (concurs_found peers member member' similar
            (cache_of_unknown member.members member.here known)
            (cache_of_unknown member'.members member'.here known')
            (contexts.mono here.related)).meets (.refl _) meeting
              ⟨clear, clear', most, limit, within⟩

end

end BinaryFormat
