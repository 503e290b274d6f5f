import BinaryFormat.Proofs.Filling.Rereading

/-!
# Components that are parsed as they were built

A component appends bytes, and whatever the patches in them come to, it is
parsed from them as what was built, with values for the placeholders.
-/

namespace BinaryFormat

/-- What a built value is in the end: itself, or what a patch of the frame around wrote. -/
def Becomes (defs : Definitions) (queue : List Deferred) (final : List UInt8) (w v : Value) :
    Prop :=
  v = w ∨ ∃ d ∈ queue, d.scopes = [] ∧ d.field.Bears defs v (d.region final)

namespace Format

/-- What was built is there in the end; or a value was not known yet, but is known as soon as the
fields show that come `later`. -/
def InTime (e : Engine) (defs : Definitions) (later : List (Record Format)) (ctx : Context)
    (start : Nat) (part : List UInt8) (new : List Deferred) (f : Format) (w : Value) : Prop :=
  (new = [] ∧ w.isFilled = true ∧
    ∀ final, Firm defs start part [] final → f.UpToDate final w) ∨
  ∃ d expr, new = [d] ∧ w = .none ∧ d.scopes = [] ∧ d.depth = ctx.below.length ∧
    d.patch = .value expr ∧ Known later expr ∧ (∀ final v, v ≠ .none → f.UpToDate final v) ∧
    ∃ path store failure store', expr.evaluate e.resolver ctx.scope path store =
      .error failure store' ∧ failure.fault.isPending = true

/-- Built at the end of a stream, the component appends bytes from which it is parsed as what it
becomes: if that is visible it has to be up to date, and else it is built from nothing. -/
def Fulfils (e : Engine) (defs : Definitions) (visible : Bool) (path : Path)
    (now later : List (Record Format)) (u : Value) (f : Format) : Prop :=
  ∀ (before : List UInt8) (ctx : Context) (store : LazyStore) (w : Value) (s : State),
    (f.codec e defs).build u path ⟨.atEnd before, ctx, store⟩ = .ok w s →
    ∃ part new store', s = ⟨.atEnd (before ++ part), ctx.queued new, store'⟩ ∧
      Tidy before.length (before.length + part.length) new ∧
      (∀ d ∈ new, d.scopes = [] → d.path = path ∧ f.Defers) ∧ f.Shapes w ∧
      (f.Timely now later → Shown now ctx.frames →
        InTime e defs later ctx before.length part new f w) ∧
      ∀ final v, Firm defs before.length part new final → Becomes defs new final w v →
        (visible = false ∧ u = .none ∨ f.UpToDate final v ∧ v.InRange) →
        ∀ (m : Medium) (suffix : List UInt8) (ctx₂ : Context) (store₂ : LazyStore) (path₂ : Path),
          m.pos = before.length →
          m.rest = (final.drop before.length).take part.length ++ suffix →
          Matches now ctx.frames ctx₂.frames →
          ∃ p ctx₃, (f.codec e defs).parse path₂ ⟨.medium m, ctx₂, store₂⟩ =
              .ok p ⟨.medium (m.skip part.length), ctx₃, store₂⟩ ∧ ctx₂.Quiet ctx₃ ∧
            w.FillsTo p ∧ v.FillsTo p

variable {e : Engine} {defs : Definitions} {visible : Bool} {path : Path}
  {sources later : List (Record Format)} {u : Value} {of : Format} {n : Nat}

theorem InTime.at_once {f : Format} {ctx : Context} {start : Nat} {part : List UInt8}
    {new : List Deferred} {w : Value} (h : InTime e defs later ctx start part new f w)
    (shown : Shown later ctx.frames) :
    new = [] ∧ w.isFilled = true ∧ ∀ final, Firm defs start part [] final → f.UpToDate final w := by
  refine h.resolve_right ?_
  rintro ⟨_, expr, -, -, -, -, -, known, -, path, store, failure, store', failed, waits⟩
  rw [known e.resolver ctx.frames path store store' failure shown failed] at waits
  cases waits

theorem eq_of_becomes {final : List UInt8} {w v : Value} (h : Becomes defs [] final w v) : v = w :=
  h.resolve_right fun ⟨_, mem, _⟩ => List.not_mem_nil mem

private theorem Bears.parse (serves : Serves defs e) {v : Value} {stored : List UInt8}
    (bears : of.Bears defs v stored) (small : v.InRange) {m : Medium} {suffix : List UInt8}
    (ctx₂ : Context) (store₂ : LazyStore) (path₂ : Path) (next : m.rest = stored ++ suffix) :
    ∃ p ctx₃, (of.codec e defs).parse path₂ ⟨.medium m, ctx₂, store₂⟩ =
      .ok p ⟨.medium (m.skip stored.length), ctx₃, store₂⟩ ∧ ctx₂.Quiet ctx₃ ∧ v.FillsTo p := by
  obtain ⟨ctx₃, run, quiet⟩ := bears.reads small e serves m suffix ctx₂ store₂ path₂ next
  exact ⟨v, ctx₃, run, quiet, bears.atom.fillsTo⟩

theorem fulfils_leaf (serves : Serves defs e) (leaf : of.Patchable n) :
    of.Fulfils e defs visible path sources later u := by
  intro before ctx store w s run
  obtain ⟨stored, rfl, rfl, bears, present, -⟩ := leaf.bears run
  refine ⟨stored, [], store, by rw [Stream.state_overlay_at_end _ rfl, Context.queued_nil],
    .nil _ _, List.forall_mem_nil _, shapes_of_nil (eq_nil_of_leaf leaf) w,
    fun _ _ => Or.inl ⟨rfl, bears.atom.isFilled bears.present,
      fun final _ => upToDate_of_leaf leaf final w⟩, ?_⟩
  intro final v firm becomes known m suffix ctx₂ store₂ path₂ _ next _
  obtain rfl := eq_of_becomes becomes
  rw [firm.slice] at next
  have small : v.InRange := by
    rcases known with ⟨-, rfl⟩ | ⟨-, small⟩
    · exact absurd rfl present
    · exact small
  obtain ⟨p, ctx₃, parsed, quiet, fills⟩ := bears.parse serves small ctx₂ store₂ path₂ next
  exact ⟨p, ctx₃, parsed, quiet, fills, fills⟩

theorem Fulfils.named {f : Format} (name : String)
    (h : f.Fulfils e defs visible path sources later u) :
    (named name f).Fulfils e defs visible path sources later u := by
  simpa only [Fulfils, codec, Defers, Shapes, Reaches, UpToDate, Timely, InTime] using h

theorem Fulfils.documented {f : Format} (docs : String)
    (h : f.Fulfils e defs visible path sources later u) :
    (documented docs f).Fulfils e defs visible path sources later u := by
  simpa only [Fulfils, codec, Defers, Shapes, Reaches, UpToDate, Timely, InTime] using h

/-! ## Constants -/

theorem fulfils_constant (serves : Serves defs e) (leaf : of.Patchable n) {value : Value}
    (atom : value.IsAtom) (small : value.InRange) :
    (constant of value).Fulfils e defs visible path sources later u := by
  intro before ctx store w s run
  obtain ⟨stored, rfl, rfl, bears, present, asInt, asBytes⟩ := leaf.bears run
  obtain rfl : w = value := by
    cases value with
    | int k => exact asInt k rfl
    | bytes payload => exact asBytes payload rfl
    | none => exact absurd rfl present
    | _ => exact atom.elim
  refine ⟨stored, [], store, by rw [Stream.state_overlay_at_end _ rfl, Context.queued_nil],
    .nil _ _, List.forall_mem_nil _, shapes_of_nil
      (fun names reaches => by simpa only [Reaches] using reaches) w,
    fun _ _ => Or.inl ⟨rfl, bears.atom.isFilled bears.present,
      fun _ _ => by simp only [UpToDate]⟩, ?_⟩
  intro final v firm becomes _ m suffix ctx₂ store₂ path₂ _ next _
  obtain rfl := eq_of_becomes becomes
  rw [firm.slice] at next
  obtain ⟨ctx₃, parsed, quiet⟩ := bears.reads small e serves m suffix ctx₂ store₂ path₂ next
  have equal : e.equal v v ⟨.medium (m.skip stored.length), ctx₃, store₂⟩ =
      .ok true ⟨.medium (m.skip stored.length), ctx₃, store₂⟩ := by
    have plain : v.isLazy = false := by cases v <;> first | rfl | exact atom.elim
    have same : v.same v = true := by
      cases v with
      | int | bytes => simp [Value.same]
      | none => rfl
      | _ => exact atom.elim
    rw [Engine.equal, Run.lookup, e.resolver.equal_atom plain atom, same]
  refine ⟨v, ctx₃, ?_, quiet, atom.fillsTo, atom.fillsTo⟩
  simp only [codec, Codec.constant]
  rw [Run.bind_of_ok parsed, Run.bind_of_ok equal]
  rfl

/-! ## Fields that are computed -/

private theorem tidy_reservation (leaf : of.Patchable n) (patch : Patch) (path : Path)
    (start depth : Nat)
    (codec : Codec) :
    Tidy start (start + (List.replicate n (0 : UInt8)).length)
      [{ Codec.reservation ⟨of, codec⟩ patch path start n with depth := depth }] where
  leaf d mem := by
    obtain rfl := List.mem_singleton.mp mem
    exact leaf
  front d mem := by
    obtain rfl := List.mem_singleton.mp mem
    exact le_rfl
  back d mem := by
    obtain rfl := List.mem_singleton.mp mem
    rw [List.length_replicate]
    exact le_rfl
  apart := List.pairwise_singleton _ _

theorem fulfils_rebuild (serves : Serves defs e) (leaf : of.Patchable n) (expr : Expr)
    (known : visible = true ∨ of.Holdable = true) :
    (rebuild of expr).Fulfils e defs visible path sources later u := by
  intro before ctx store w s run
  have nothing : ∀ names, (rebuild of expr).Reaches names → names = [] := fun names reaches => by
    simpa only [Reaches] using reaches
  have inRange {final stored : List UInt8} {v : Value} (bears : of.Bears defs v stored)
      (hyp : visible = false ∧ u = .none ∨ (rebuild of expr).UpToDate final v ∧ v.InRange) :
      v.InRange := by
    rcases hyp with ⟨hidden, -⟩ | ⟨-, small⟩
    · exact bears.held (known.resolve_left (by simp [hidden]))
    · exact small
  -- Either a value was built at once, and stays, or the bytes were reserved for a patch that is
  -- noted later.
  rcases Codec.built_or_reserved serves (leaf.cell defs) run with
    ⟨value, store', made⟩ | ⟨⟨failure, store₁, unseen, waits⟩, rfl, store', rfl⟩
  · obtain ⟨stored, rfl, rfl, bears, -⟩ := leaf.bears made
    refine ⟨stored, [], store', by rw [Stream.state_overlay_at_end _ rfl, Context.queued_nil],
      .nil _ _, List.forall_mem_nil _, shapes_of_nil nothing w,
      fun _ _ => Or.inl ⟨rfl, bears.atom.isFilled bears.present, fun _ _ => ?_⟩, ?_⟩
    · simp only [UpToDate]
      exact Or.inr bears.present
    intro final v firm becomes hyp m suffix ctx₂ store₂ path₂ _ next _
    obtain rfl := eq_of_becomes becomes
    rw [firm.slice] at next
    obtain ⟨p, ctx₃, parsed, quiet, fills⟩ :=
      bears.parse serves (inRange bears hyp) ctx₂ store₂ path₂ next
    exact ⟨p, ctx₃, parsed, quiet, fills, fills⟩
  · refine ⟨List.replicate n 0, _, store', rfl, tidy_reservation leaf _ _ _ _ _, fun d mem _ => ?_,
      shapes_of_nil nothing _, fun timely _ => ?_, ?_⟩
    · obtain rfl := List.mem_singleton.mp mem
      exact ⟨rfl, trivial⟩
    · simp only [Timely] at timely
      exact Or.inr ⟨_, expr, rfl, rfl, rfl, rfl, rfl, timely, fun final v present => by
        simp only [UpToDate]
        exact Or.inr present, path, store, failure, store₁, unseen, waits⟩
    intro final v firm becomes hyp m suffix ctx₂ store₂ path₂ _ next _
    have length := firm.length_slice
    rw [List.length_replicate] at next length ⊢
    rcases becomes with rfl | ⟨d, mem, -, bears⟩
    · -- The placeholder is left, but the bytes hold a value.
      obtain ⟨v, bears⟩ := firm.filled _ List.mem_cons_self
      have holdable : of.Holdable = true := by
        rcases hyp with ⟨hidden, -⟩ | ⟨current, -⟩
        · exact known.resolve_left (by simp [hidden])
        · simp only [UpToDate, ne_eq, not_true_eq_false, or_false] at current
          exact current
      obtain ⟨p, ctx₃, parsed, quiet, -⟩ :=
        bears.parse serves (bears.held holdable) ctx₂ store₂ path₂ next
      exact ⟨p, ctx₃, length ▸ parsed, quiet, Value.fillsTo_none p, Value.fillsTo_none p⟩
    · obtain rfl := List.mem_singleton.mp mem
      obtain ⟨p, ctx₃, parsed, quiet, fills⟩ :=
        bears.parse serves (inRange bears hyp) ctx₂ store₂ path₂ next
      exact ⟨p, ctx₃, length ▸ parsed, quiet, Value.fillsTo_none p, fills⟩

end Format

namespace Checksum

mutual

private theorem settled_of_input {fault : Fault} : ∀ {v : Value}, input v = .error fault →
    fault.isPending = false
  | .bytes _, h | .str _, h => by simp [input] at h
  | .list items, h => by
      simp only [input] at h
      split at h <;> cases h
      rfl
  | .container fields, h => settled_of_inputOfData (by simpa only [input] using h)
  | .none, h | .bool _, h | .int _, h | .float _, h | .flags _, h | .lazyContainer _ _, h
  | .lazyList _ _, h => by
      simp only [input, Except.error.injEq] at h
      subst h
      rfl

theorem settled_of_inputOfData {fault : Fault} : ∀ {fields : List (String × Value)},
    inputOfData fields = .error fault → fault.isPending = false
  | [], h => by
      cases h
      rfl
  | (key, v) :: rest, h => by
      rw [inputOfData] at h
      split at h
      · exact settled_of_input h
      · exact settled_of_inputOfData h

end

private theorem settled_of_digest {hash : Hash} {v : Value} {fault : Fault}
    (h : digest hash v = .error fault) : fault.isPending = false := by
  unfold digest at h
  cases covered : input v with
  | error fault' =>
      rw [covered] at h
      cases h
      exact settled_of_input covered
  | ok data =>
      rw [covered] at h
      cases h

end Checksum

private theorem Digest.inRange_value (d : Digest) : d.value.InRange := by
  cases d with
  | bytes data => trivial
  | number k =>
      have bound := k.toNat_lt
      have low : Value.minInt ≤ 0 := by decide
      have high : 18446744073709551616 ≤ Value.maxInt := by decide
      exact Bool.and_eq_true_iff.mpr ⟨decide_eq_true (by omega), decide_eq_true (by omega)⟩

namespace Format

variable {e : Engine} {defs : Definitions} {visible : Bool} {path : Path}
  {sources later : List (Record Format)} {u : Value} {of : Format} {n : Nat}

/-- A checksum is built from a digest, or its bytes are reserved because its data was not
there. -/
private theorem digested_or_reserved (serves : Serves defs e) (leaf : of.Patchable n) {hash : Hash}
    {data : Expr} {w : Value} {before : List UInt8} {ctx : Context} {store : LazyStore} {s : State}
    (run : ((checksum of hash data).codec e defs).build u path ⟨.atEnd before, ctx, store⟩ =
      .ok w s) :
    (∃ x digest store', data.evaluate e.resolver ctx.scope path store = .ok x store' ∧
      Checksum.digest hash x = .ok digest ∧
      (of.codec e defs).build digest path ⟨.atEnd before, ctx, store'⟩ = .ok w s) ∨
    (∃ failure store', data.evaluate e.resolver ctx.scope path store = .error failure store' ∧
      failure.fault.isPending = true) ∧ w = .none ∧
      ∃ store', s = ⟨.atEnd (before ++ List.replicate n 0),
        ctx.defer (Codec.reservation ⟨of, of.codec e defs⟩ (.checksum data hash) path
          before.length n), store'⟩ := by
  simp only [codec, Codec.checksum] at run
  cases seen : data.evaluate e.resolver ctx.scope path store with
  | ok x store' =>
      have eval : e.eval data path ⟨.atEnd before, ctx, store⟩ =
          .ok x ⟨.atEnd before, ctx, store'⟩ := by
        rw [Engine.eval_apply, Run.lookup, seen]
      cases digested : Checksum.digest hash x with
      | ok digest =>
          have computed : (do
              let input ← e.eval data path
              Run.ofExcept path (Checksum.digest hash input) : Run Value)
                ⟨.atEnd before, ctx, store⟩ = .ok digest ⟨.atEnd before, ctx, store'⟩ := by
            rw [Run.bind_of_ok eval, digested]
            rfl
          rw [Run.bind_of_ok (Run.outcome_of_ok computed)] at run
          exact Or.inl ⟨x, digest, store', rfl, digested, run⟩
      | error fault =>
          have computed : (do
              let input ← e.eval data path
              Run.ofExcept path (Checksum.digest hash input) : Run Value)
                ⟨.atEnd before, ctx, store⟩ =
                  .error (fault.atPath path) ⟨.atEnd before, ctx, store'⟩ := by
            rw [Run.bind_of_ok eval, digested]
            rfl
          -- A digest that is refused does not wait for anything, so the run fails.
          have settled : (fault.atPath path).fault.isPending = false :=
            Checksum.settled_of_digest digested
          rw [Run.bind_of_ok (Run.outcome_of_error computed)] at run
          simp only [settled, Bool.false_eq_true, if_false] at run
          cases run
  | error failure store' =>
      have computed : (do
          let input ← e.eval data path
          Run.ofExcept path (Checksum.digest hash input) : Run Value)
            ⟨.atEnd before, ctx, store⟩ = .error failure ⟨.atEnd before, ctx, store'⟩ := by
        refine Run.bind_of_error ?_ _
        rw [Engine.eval_apply, Run.lookup, seen]
      rw [Run.bind_of_ok (Run.outcome_of_error computed)] at run
      dsimp only at run
      split at run
      · next waits =>
          have known := (leaf.cell defs).size e serves ctx path store'
          exact Or.inr ⟨⟨failure, store', rfl, waits⟩, Codec.reserved_of_reserve known run⟩
      · cases run

theorem fulfils_checksum (serves : Serves defs e) (leaf : of.Patchable n) (hash : Hash)
    {data : Expr} (sighted : Sighted sources data) :
    (checksum of hash data).Fulfils e defs visible path sources later u := by
  intro before ctx store w s run
  have nothing : ∀ names, (checksum of hash data).Reaches names → names = [] :=
    fun names reaches => by simpa only [Reaches] using reaches
  rcases digested_or_reserved serves leaf run with
    ⟨x, digest, store', seen, digested, made⟩ | ⟨⟨failure, store₁, unseen, waits⟩, rfl, store', rfl⟩
  · obtain ⟨stored, rfl, rfl, bears, -, asInt, asBytes⟩ := leaf.bears made
    obtain ⟨d, rfl⟩ := Checksum.digest_cases digested
    obtain rfl : w = d.value := by
      cases d with
      | number k => exact asInt _ rfl
      | bytes payload => exact asBytes payload rfl
    refine ⟨stored, [], store', by rw [Stream.state_overlay_at_end _ rfl, Context.queued_nil],
      .nil _ _, List.forall_mem_nil _, shapes_of_nil nothing _,
      fun _ _ => Or.inl ⟨rfl, bears.atom.isFilled bears.present,
        fun _ _ => by simp only [UpToDate]⟩, ?_⟩
    intro final v firm becomes _ m suffix ctx₂ store₂ path₂ _ next same
    obtain rfl := eq_of_becomes becomes
    rw [firm.slice] at next
    obtain ⟨ctx₃, parsed, quiet⟩ :=
      bears.reads d.inRange_value e serves m suffix ctx₂ store₂ path₂ next
    let behind : State := ⟨.medium (m.skip stored.length), ctx₃, store₂⟩
    obtain ⟨x', y, yields, yields', fills⟩ := sighted.filled _ _ (same.quiet quiet)
    have sees : Engine.Sees behind data y := yields'
    obtain rfl : x = x' := by
      have again := seen.symm.trans (yields e.resolver path store)
      cases again
      rfl
    have agree : Codec.digestsAgree e d.value d.value behind = .ok true behind := by
      cases d with
      | number k => exact Codec.agree_int e _ _
      | bytes payload => exact Codec.agree_bytes e payload _
    refine ⟨d.value, ctx₃, ?_, quiet, bears.atom.fillsTo, bears.atom.fillsTo⟩
    simp only [codec, Codec.checksum]
    rw [Run.bind_of_ok parsed, Run.bind_of_ok (e.eval_of_sees sees),
      Checksum.digest_of_fillsTo fills digested, Run.bind_ofExcept_ok, Run.bind_of_ok agree]
    rfl
  · refine ⟨List.replicate n 0, _, store', rfl, tidy_reservation leaf _ _ _ _ _, fun d mem _ => ?_,
      shapes_of_nil nothing _, fun _ shown => ?_, ?_⟩
    · obtain rfl := List.mem_singleton.mp mem
      exact ⟨rfl, trivial⟩
    · have known := known_of_sighted sighted e.resolver ctx.frames path store store₁ failure shown
      rw [known unseen] at waits
      cases waits
    -- Behind the fields that it is over, a checksum is never reserved.
    intro final v firm becomes _ m suffix ctx₂ store₂ path₂ _ next same
    obtain ⟨x, -, yields, -⟩ := sighted.filled _ _ same
    cases unseen.symm.trans (yields e.resolver path store)

/-! ## Raw copies -/

theorem given_of_containerInput {s s' : State} {input : Record Value} (plain : u.isLazy = false)
    (h : e.containerInput u path s = .ok input s') :
    s' = s ∧ (u = .none ∧ input = [] ∨ u.fields? = some input) := by
  cases u with
  | container fields | flags fields =>
      cases h
      exact ⟨rfl, Or.inr rfl⟩
  | none =>
      cases h
      exact ⟨rfl, Or.inl ⟨rfl, rfl⟩⟩
  | lazyContainer => cases plain
  | _ => cases h

private theorem fillsTo_rawRecord {w p : Value} (fills : w.FillsTo p) (data : List UInt8)
    (start stop : Nat) :
    (Codec.rawRecord data w start stop).FillsTo (Codec.rawRecord data p start stop) := by
  have number (k : Nat) : (Value.ofNat k).FillsTo (.ofNat k) := Value.IsAtom.fillsTo trivial
  have distinct (v : Value) : (Record.keys [("length", Value.ofNat data.length),
      ("data", .bytes data), ("value", v), ("offset1", .ofNat start),
      ("offset2", .ofNat stop)]).Nodup := by
    simp [Record.keys]
  have octets : (Value.bytes data).FillsTo (.bytes data) := Value.IsAtom.fillsTo trivial
  unfold Codec.rawRecord
  rw [Value.FillsTo]
  refine ⟨distinct w, distinct p, fun _ mem _ => mem,
    Value.fillsToFields_iff.mpr fun key x mem _ => ?_⟩
  simp only [List.mem_cons, Prod.mk.injEq, List.not_mem_nil, or_false] at mem
  rcases mem with ⟨rfl, rfl⟩ | ⟨rfl, rfl⟩ | ⟨rfl, rfl⟩ | ⟨rfl, rfl⟩ | ⟨rfl, rfl⟩
  · exact ⟨_, rfl, number _⟩
  · exact ⟨_, rfl, octets⟩
  · exact ⟨_, rfl, fills⟩
  · exact ⟨_, rfl, number _⟩
  · exact ⟨_, rfl, number _⟩

private theorem rawRecord_inj {data data' : List UInt8} {v v' : Value}
    {start stop start' stop' : Nat}
    (h : Codec.rawRecord data v start stop = Codec.rawRecord data' v' start' stop') :
    data = data' ∧ v = v' ∧ start = start' ∧ stop = stop' := by
  simp only [Codec.rawRecord, Value.ofNat, Value.container.injEq, List.cons.injEq, Prod.mk.injEq,
    Value.bytes.injEq, Value.int.injEq, true_and, and_true, Int.natCast_inj] at h
  exact h.2

private theorem filled_rawRecord {w : Value} (filled : w.isFilled = true) (data : List UInt8)
    (start stop : Nat) : (Codec.rawRecord data w start stop).isFilled = true := by
  simp only [Codec.rawRecord, Value.ofNat, Value.isFilled, Value.haveFilled, filled,
    Bool.or_true, Bool.and_self]

private theorem shapes_rawRecord {v : Value} (shapes : of.Shapes v) (data : List UInt8)
    (start stop : Nat) :
    (rawCopy of).Shapes (Codec.rawRecord data v start stop) := by
  intro names reaches
  simp only [Reaches] at reaches
  simp only [List.mem_cons, List.not_mem_nil, or_false] at reaches
  rcases reaches with rfl | ⟨-, (rfl | rfl | rfl | rfl) | ⟨rest, rfl, reaches⟩⟩
  iterate 5 exact ⟨_, rfl⟩
  · obtain ⟨x, reached⟩ := shapes rest reaches
    exact ⟨x, reached⟩

/-- The bytes between the offsets of a raw copy are its data, where nothing is pending. -/
private theorem slice_of_firm {before part final : List UInt8}
    (firm : Firm defs before.length part [] final) :
    (final.drop before.length).take ((before ++ part).length - before.length) = part := by
  rw [List.length_append, Nat.add_sub_cancel_left, firm.slice]

private theorem parse_rawCopy {m : Medium} {data suffix : List UInt8} {ctx ctx' : Context}
    {store : LazyStore} {path : Path} {p : Value} (next : m.rest = data ++ suffix)
    (parsed : (of.codec e defs).parse path ⟨.medium m, ctx, store⟩ =
      .ok p ⟨.medium (m.skip data.length), ctx', store⟩) :
    ((rawCopy of).codec e defs).parse path ⟨.medium m, ctx, store⟩ =
      .ok (Codec.rawRecord data p m.pos (m.pos + data.length))
        ⟨.medium (m.skip data.length), ctx', store⟩ := by
  have copied : Codec.copySince m.pos path ⟨.medium (m.skip data.length), ctx', store⟩ =
      .ok data ⟨.medium (m.skip data.length), ctx', store⟩ :=
    Codec.copySince_skip next ctx' store path
  simp only [codec, Codec.rawCopy]
  rw [Run.bind_of_ok (Run.tell_medium _ _ _), Run.bind_of_ok (Part.parse_of_ok parsed),
    Run.bind_of_ok (Run.tell_medium _ _ _), Run.bind_of_ok copied]
  rfl

/-- A raw copy that is given its bytes writes them, and shows what they are parsed as. -/
private theorem fulfils_data (rereads : of.Rereads e defs sources) {data before : List UInt8}
    {ctx : Context} {store : LazyStore} {w : Value} {s : State} (whole : data.length = of.extent)
    (run : (do
        Run.write data path
        let offset2 ← Run.tell
        let (parsed, _) ← (of.codec e defs).parseSlice data path
        return Codec.rawRecord data parsed before.length offset2)
          ⟨.atEnd before, ctx, store⟩ = .ok w s) :
    ∃ v store', s = ⟨.atEnd (before ++ data), ctx, store'⟩ ∧
      w = Codec.rawRecord data v before.length (before ++ data).length ∧ of.Definite v ∧
      ∀ (m : Medium) (suffix : List UInt8) (ctx₂ : Context) (store₂ : LazyStore) (path₂ : Path),
        m.rest = data ++ suffix → Matches sources ctx.frames ctx₂.frames →
        (of.codec e defs).parse path₂ ⟨.medium m, ctx₂, store₂⟩ =
          .ok v ⟨.medium (m.skip data.length), ctx₂, store₂⟩ := by
  have written : Run.write data path ⟨.atEnd before, ctx, store⟩ =
      .ok () ⟨.atEnd (before ++ data), ctx, store⟩ := Run.write_atEnd before data
  rw [Run.bind_of_ok written, Run.bind_of_ok (Run.tell_atEnd _ _ _)] at run
  obtain ⟨⟨v, reached⟩, s₁, sliced, run⟩ := Run.bind_eq_ok_iff.mp run
  cases run
  obtain ⟨⟨v', stream⟩, s₂, alone, returned⟩ := Run.bind_eq_ok_iff.mp sliced
  cases returned
  unfold Run.onStream at alone
  dsimp only at alone
  split at alone
  · next a s₃ parsed =>
      cases alone
      obtain ⟨taken, suffix, store', split, length, rfl, definite, again⟩ :=
        rereads ⟨.growing, data, 0⟩ ctx store path _ _ parsed
      have start : data = taken ++ suffix := split
      have nothing : suffix = [] := List.length_eq_zero_iff.mp (by
        have total := congrArg List.length start
        rw [List.length_append] at total
        omega)
      rw [nothing, List.append_nil] at start
      subst start
      exact ⟨_, store', rfl, rfl, definite, again⟩
  · cases alone

theorem fulfils_rawCopy (accepts : (rawCopy of).Accepts u)
    (inner : ∀ v, of.Accepts v → of.Fulfils e defs visible path sources sources v)
    (rereads : of.isCopyless = true → of.Rereads e defs sources) :
    (rawCopy of).Fulfils e defs visible path sources later u := by
  intro before ctx store w s run
  simp only [Accepts] at accepts
  simp only [codec, Codec.rawCopy] at run
  obtain ⟨input, s₁, entered, run⟩ := Run.bind_eq_ok_iff.mp run
  obtain ⟨rfl, given⟩ := given_of_containerInput accepts.1 entered
  rw [Run.bind_of_ok (Run.tell_atEnd _ _ _)] at run
  rcases given with ⟨rfl, rfl⟩ | given
  · cases run
  have shown : ∀ {a b : Prop}, visible = false ∧ u = .none ∨ a ∧ b → a ∧ b := by
    rintro a b (⟨-, absent⟩ | shown)
    · rw [absent] at given
      cases given
    · exact shown
  obtain ⟨byValue, byData⟩ := accepts.2 input given
  cases value : ((Record.get? input "value").getD .none).isNone with
  | true =>
      simp only [value, Bool.not_true, Bool.false_eq_true, if_false] at run
      cases found : (Record.get? input "data").bind Value.bytes? with
      | none =>
          simp only [found] at run
          cases run
      | some data =>
          simp only [found] at run
          obtain ⟨copyless, whole⟩ := byData value data found
          obtain ⟨v, store', rfl, rfl, definite, again⟩ := fulfils_data (rereads copyless) whole run
          refine ⟨data, [], store', by rw [Context.queued_nil], .nil _ _,
            List.forall_mem_nil _, ?_,
            fun _ _ => Or.inl ⟨rfl, filled_rawRecord definite.filled _ _ _, fun final firm => ?_⟩,
            ?_⟩
          · exact shapes_rawRecord definite.shapes _ _ _
          · simp only [UpToDate]
            exact ⟨v, before.length, (before ++ data).length, by rw [slice_of_firm firm],
              definite.current final⟩
          intro final v' firm becomes hyp m suffix ctx₂ store₂ path₂ pos next same
          obtain rfl := eq_of_becomes becomes
          rw [firm.slice] at next
          have fills := fillsTo_rawRecord definite.fills data before.length (before ++ data).length
          refine ⟨_, ctx₂, parse_rawCopy next (again m suffix ctx₂ store₂ path₂ next same),
            .refl ctx₂, ?_, ?_⟩ <;>
          · rwa [pos, ← List.length_append]
  | false =>
      simp only [value, Bool.not_false, if_true] at run
      obtain ⟨built, s₂, made, run⟩ := Run.bind_eq_ok_iff.mp run
      obtain ⟨part, new, store', rfl, tidy, own, shapes, inTime, parses⟩ :=
        inner _ (byValue value) before ctx store built s₂ (Part.build_eq_ok_iff.mp made)
      rw [Run.bind_of_ok (Run.tell_atEnd _ _ _),
        Run.bind_of_ok (Codec.copySince_atEnd before part _ store' path)] at run
      cases run
      refine ⟨part, new, store', rfl, tidy, fun d mem here => ?_, ?_, fun timely showing => ?_, ?_⟩
      · simpa only [Defers] using own d mem here
      · exact shapes_rawRecord shapes _ _ _
      · simp only [Timely] at timely
        obtain ⟨rfl, filled, current⟩ := (inTime timely showing).at_once showing
        refine Or.inl ⟨rfl, filled_rawRecord filled _ _ _, fun final firm => ?_⟩
        simp only [UpToDate]
        exact ⟨built, before.length, (before ++ part).length, by rw [slice_of_firm firm],
          current final firm⟩
      intro final v' firm becomes hyp m suffix ctx₂ store₂ path₂ pos next same
      obtain ⟨current, small⟩ := shown hyp
      simp only [UpToDate] at current
      obtain ⟨x, start, stop, rfl, current⟩ := current
      -- The record is the one that was built: no patch writes a record.
      have whole := becomes.resolve_right fun claimed => by
        obtain ⟨_, _, _, bears⟩ := claimed
        exact bears.atom
      obtain ⟨slice, rfl, rfl, rfl⟩ := rawRecord_inj whole
      rw [List.length_append, Nat.add_sub_cancel_left] at slice
      have inRange : x.InRange := by
        simp only [Codec.rawRecord, Value.InRange] at small
        refine Value.InRangeFields.get? small (?_ : Record.get? _ "value" = some x)
        rfl
      obtain ⟨p, ctx₃, parsed, quiet, fills, -⟩ := parses final x firm (Or.inl rfl)
        (Or.inr ⟨current, inRange⟩) m suffix ctx₂ store₂ path₂ pos next same
      rw [slice] at next
      have fills' := fillsTo_rawRecord fills part before.length (before ++ part).length
      refine ⟨_, ctx₃, parse_rawCopy next parsed, quiet, ?_, ?_⟩
      · rwa [pos, ← List.length_append]
      · rwa [pos, ← List.length_append, whole]

end Format

end BinaryFormat
