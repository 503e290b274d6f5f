import BinaryFormat.Proofs.BackPatching.AnyLayer

/-!
# Building with a patch and building with its value

A field whose value is computed from later ones is deferred: its bytes are reserved, and a patch
travels with them through every scratch buffer and every frame around the field until its value
is known.  The bytes that are left are those that are built if the value stands in the format
from the start.
-/

namespace BinaryFormat

open Format (within parts PatchedWith Unread)

variable {e : Engine} {defs : Definitions} {of : Format} {width : Nat} {p : Patch} {v : Value}
  {stored : List UInt8} {layers : List Layer} {layer : Layer} {f g : Format} {path : Path}
  {s s' : State} {w b : Value}

/-! ## The field itself -/

namespace Format

private theorem Patchable.still {width : Nat} (cell : of.Patchable width) : of.Still := by
  cases cell <;> exact trivial

private theorem still_computedBy {width : Nat} (cell : of.Patchable width) (p : Patch) :
    (of.computedBy p).Still := by
  cases p <;> exact cell.still

private theorem isEmbedded_computedBy (of : Format) (p : Patch) :
    (of.computedBy p).isEmbedded = false := by
  cases p <;> rfl

private theorem name?_computedBy (of : Format) (p : Patch) : (of.computedBy p).name? = none := by
  cases p <;> rfl

end Format

namespace Layer

variable (he : e.Steady) (cell : of.Patchable width) (unread : Unread e (layer :: layers) path)
include he cell unread

private theorem carries_within (means : e.Means defs) (quiet : p.Quiet e)
    (writes : of.Writes defs v stored) :
    layer.Carries e defs of width p v stored layers path (within layers (of.computedBy p))
      (within layers (.constant of v)) :=
  carries he means quiet cell writes ((Format.facade_computedBy of p v).within layers)
    (Format.name?_within (Format.name?_computedBy of p) layers)
    (Format.isEmbedded_within (Format.isEmbedded_computedBy of p) layers)
    (Format.still_within e (Format.still_computedBy cell p) unread.2)
    (Format.still_within e (f := .constant of v) cell.still unread.2) unread

private theorem enters_within (calm : s.Calm) (eager : w.Eager)
    (run : ((layer.around (within layers (of.computedBy p))).codec e defs).build w path s =
      .ok b s') :
    (∃ u s₁, layer.Enters e defs (within layers (of.computedBy p)) w path s u s₁) ∨
      layer.isFrame = false ∧ s'.context = s.context :=
  enters he (Format.isEmbedded_within (Format.isEmbedded_computedBy of p) layers)
    (Format.still_within e (Format.still_computedBy cell p) unread.2) unread calm eager run

/-- Where a layer computes something, it has come to its component. -/
private theorem enters_of_computes (calm : s.Calm) (eager : w.Eager)
    (run : ((layer.around (within layers (of.computedBy p))).codec e defs).build w path s =
      .ok b s')
    (computed : layer.Computes e defs (within layers (of.computedBy p)) w path s v) :
    ∃ u s₁, layer.Enters e defs (within layers (of.computedBy p)) w path s u s₁ := by
  refine (enters_within he cell unread calm eager run).resolve_right fun ⟨frameless, _⟩ => ?_
  rw [isFrame_of_computes computed] at frameless
  cases frameless

end Layer

namespace Format

private theorem alongside_of_computedBy (quiet : p.Quiet e) (cell : of.Patchable width)
    (writes : of.Writes defs v stored) (long : stored.length = width) (calm : s.Calm)
    (run : ((of.computedBy p).codec e defs).build w path s = .ok b s')
    (waits : s'.context ≠ s.context) :
    ∃ b' t', ((constant of v).codec e defs).build w path s = .ok b' t' ∧
      State.Alongside of width p stored [] path s.context b b' s' t' := by
  obtain ⟨data, pos, growing⟩ := calm.growing
  obtain ⟨stream, ctx, store⟩ := s
  obtain rfl : stream = .growing data pos := growing
  rcases cell.of_computedBy quiet calm.eager run with ⟨v', built⟩ | ⟨-, rfl, rfl⟩
  · obtain ⟨_, _, _, _, rfl⟩ := cell.writes built
    exact absurd rfl waits
  · obtain ⟨b', known⟩ := writes e path data pos ctx store
    have zeros : (List.replicate width (0 : UInt8)).length = stored.length := by
      rw [List.length_replicate, long]
    refine ⟨b', _, known, trivial, trivial,
      [{ Codec.reservation ⟨of, of.codec e defs⟩ p path pos width with depth := ctx.below.length }],
      pos, stored,
      .patch ⟨rfl, rfl, rfl, rfl, fun _ => rfl, fun _ mem => absurd mem List.not_mem_nil⟩,
      ⟨_, pos + width, by omega, ?_, rfl, ?_⟩, ⟨?_, rfl⟩, rfl⟩
    · rw [Medium.length_overlay, List.length_replicate]
      omega
    · rw [Medium.overlay_again zeros, long]
    · obtain ⟨⟨values, queue⟩, below⟩ := ctx
      obtain rfl : queue = [] := calm.idle
      rfl

/-- Whether the patch still waits when the layers have been built, or was applied in them: with the
value in its place the layers come to the same. -/
private theorem known_of_computed (he : e.Steady) (means : e.Means defs) (quiet : p.Quiet e)
    (cell : of.Patchable width) (writes : of.Writes defs v stored) (long : stored.length = width) :
    ∀ {layers : List Layer} {path : Path} {w b : Value} {s s' : State}, s.Calm → w.Eager →
      Unread e layers path →
      ((within layers (of.computedBy p)).codec e defs).build w path s = .ok b s' →
      (s'.context ≠ s.context →
        ∃ b' t', ((within layers (constant of v)).codec e defs).build w path s = .ok b' t' ∧
          State.Alongside of width p stored layers path s.context b b' s' t') ∧
      (PatchedWith e defs of p v layers w path s → s'.context = s.context ∧
        ∃ b' t', ((within layers (constant of v)).codec e defs).build w path s = .ok b' t' ∧
          State.Alongside of width p stored layers path s.context b b' s' t')
  | [], path, w, b, s, s', calm, _, _, run =>
      ⟨alongside_of_computedBy quiet cell writes long calm run, nofun⟩
  | layer :: layers, path, w, b, s, s', calm, eager, unread, run => by
      -- By induction on the layers: what the component leaves, the layer carries along or applies.
      have carries := Layer.carries_within he cell unread means quiet writes
      have inner {path w b s s'} (calm : s.Calm) (eager : w.Eager) (unread : Unread e layers path)
          (run : ((within layers (of.computedBy p)).codec e defs).build w path s = .ok b s') :=
        known_of_computed he means quiet cell writes long calm eager unread run
      refine ⟨fun waits => ?_, fun patched => ?_⟩
      · obtain ⟨u, s₁, entered⟩ | ⟨-, same⟩ :=
          Layer.enters_within he cell unread calm eager run
        · obtain ⟨given, calm₁, b₁, s₂, child, dead, alive⟩ := carries calm eager run entered
          obtain ⟨b₂, t₂, known, met⟩ := (inner calm₁ given unread.2 child).1
            fun same => waits (dead same).1
          exact (alive b₂ t₂ known met).2 fun same => absurd same waits
        · exact absurd same waits
      · cases patched with
        | inside entered further =>
            obtain ⟨given, calm₁, b₁, s₂, child, dead, alive⟩ := carries calm eager run entered
            obtain ⟨same, b₂, t₂, known, met⟩ := (inner calm₁ given unread.2 child).2 further
            exact ⟨(dead same).1, (alive b₂ t₂ known met).2 fun _ v' computed =>
              absurd computed ((dead same).2 v')⟩
        | here computed =>
            obtain ⟨u, s₁, entered⟩ :=
              Layer.enters_of_computes he cell unread calm eager run computed
            obtain ⟨given, calm₁, b₁, s₂, child, dead, alive⟩ := carries calm eager run entered
            obtain ⟨b₂, t₂, known, met⟩ := (inner calm₁ given unread.2 child).1
              fun same => (dead same).2 v computed
            obtain ⟨applied, built⟩ := alive b₂ t₂ known met
            exact ⟨(applied v computed).1, built fun _ v' again => computed.unique again⟩

/-! ## The value that is written -/

/-- An integer of a fixed width, or a byte string of a fixed length. -/
inductive Reservable : Nat → Format → Prop
  | integer {width : Nat} (positive : 1 ≤ width) (narrow : width ≤ 16) (signed : Bool)
      (endian : Endian) : Reservable width (.integer (.const (.int width)) signed endian)
  | bytes {width : Nat} (room : width ≤ Value.maxSize) :
      Reservable width (.bytes (.const (.int width)))

private theorem Reservable.patchable (h : of.Reservable width) : of.Patchable width := by
  cases h with
  | integer positive narrow signed endian => exact .integer narrow signed endian
  | bytes room => exact .bytes room

private theorem Reservable.exists_writes (h : of.Reservable width) (defs : Definitions) :
    ∃ v stored, stored.length = width ∧ of.Writes defs v stored := by
  cases h with
  | integer positive narrow signed endian =>
      refine ⟨.int 0, Integer.inOrder endian (Bytes.ofNat width (Integer.toPattern 0 (width * 8))),
        by rw [Integer.length_inOrder, Bytes.length_ofNat],
        fun e path data pos ctx store => ⟨.int 0, ?_⟩⟩
      have fits : Integer.fits 0 (width * 8) signed = true := by
        have least : 0 < 2 ^ (width * 8 - 1) := by positivity
        have most : 0 < 2 ^ (width * 8) := by positivity
        cases signed <;> simp [Integer.fits]
      have pattern : Integer.checkedPattern 0 (width * 8) signed =
          .ok (Integer.toPattern 0 (width * 8)) := by rw [Integer.checkedPattern, if_pos fits]
      have number : Integer.ofValue (.int 0) = .ok 0 := rfl
      rw [codec, Codec.build_integer e signed endian positive narrow, number,
        Run.bind_ofExcept_ok, pattern, Run.bind_ofExcept_ok, Run.bind_of_ok (Run.write_growing _)]
      rfl
  | bytes room =>
      refine ⟨.bytes (List.replicate width 0), List.replicate width 0, List.length_replicate,
        fun e path data pos ctx store => ⟨.bytes (List.replicate width 0), ?_⟩⟩
      have full : (List.replicate width (0 : UInt8)).length = width := List.length_replicate
      simp only [codec, Codec.bytes]
      rw [Run.bind_of_ok (Codec.evalSize_const e path _ room)]
      simp only [full, ne_eq, not_true_eq_false, if_false]
      rw [Run.bind_of_ok (Run.write_growing _), full]
      rfl

/-- A value that a patch is applied with in one of the layers can be written. -/
private theorem writes_of_patched (he : e.Steady) (means : e.Means defs) (quiet : p.Quiet e)
    (reservable : of.Reservable width) :
    ∀ {layers : List Layer} {path : Path} {w b : Value} {s s' : State},
      s.Calm → w.Eager → Unread e layers path →
      ((within layers (of.computedBy p)).codec e defs).build w path s = .ok b s' →
      PatchedWith e defs of p v layers w path s → ∃ stored, of.Writes defs v stored
  | layer :: layers, path, w, b, s, s', calm, eager, unread, run, patched => by
      -- Until then the patch only waits, so the run beside it may know any value of the field.
      obtain ⟨zero, zeros, long, writes⟩ := reservable.exists_writes defs
      have cell := reservable.patchable
      have carries := Layer.carries_within he cell unread means quiet writes
      cases patched with
      | inside entered further =>
          obtain ⟨given, calm₁, b₁, s₂, child, -⟩ := carries calm eager run entered
          exact writes_of_patched he means quiet reservable calm₁ given unread.2 child further
      | here computed =>
          obtain ⟨u, s₁, entered⟩ :=
            Layer.enters_of_computes he cell unread calm eager run computed
          obtain ⟨given, calm₁, b₁, s₂, child, dead, alive⟩ := carries calm eager run entered
          obtain ⟨b₂, t₂, known, met⟩ := (known_of_computed he means quiet cell writes long calm₁
            given unread.2 child).1 fun same => (dead same).2 v computed
          exact ((alive b₂ t₂ known met).1 v computed).2

private theorem Writes.length {stored : List UInt8} (h : of.Writes defs v stored)
    (cell : of.Patchable width) : stored.length = width := by
  obtain ⟨_, written⟩ := h .exhausted .this [] 0 default .empty
  obtain ⟨stored', long, h', -⟩ := cell.writes written
  rw [h.unique h', long]

end Format

namespace State.Met

variable {ctx : Context} {t : State}

private theorem of_idle (h : s.Met of width p stored layers path ctx t)
    (idle : s.context.top.deferred = []) : t.stream = s.stream ∧ t.context = ctx := by
  obtain ⟨queue, offset, bytes, left, streams, ⟨here, there⟩, -⟩ := h
  obtain rfl : queue = [] := by rw [here] at idle; exact idle
  cases left
  exact ⟨(Stream.eq_of_replaced_nil streams).1.symm, there⟩

/-- A patch that waits is the one of the field, and its bytes are all that differs. -/
private theorem of_waits {d : Deferred} (h : s.Met of width p stored layers path ctx t)
    (waits : s.context.top.deferred = [d]) :
    d.Waits of width p layers path ∧ ∃ data pos store,
      s = ⟨.growing data pos, ctx.withDeferred [d], store⟩ ∧
      t = ⟨.growing (Medium.overlay data d.offset stored) pos, ctx, store⟩ := by
  obtain ⟨stream, context, store⟩ := s
  obtain ⟨stream', context', _⟩ := t
  obtain ⟨queue, offset, bytes, left, ⟨data, pos, -, -, same, same'⟩, ⟨here, there⟩, rfl⟩ := h
  dsimp only at same same' here there waits
  subst same same' here there
  obtain rfl : queue = [d] := waits
  cases left with
  | patch known => exact ⟨known, data, pos, store, rfl, rfl⟩

end State.Met

namespace Format

/-- While the format that these layers make of a computed field is built at this level, the field
is deferred, and its patch is applied with this value: where the members of a layer have been
built, or at the end. -/
inductive FinallyPatched (defs : Definitions) (n : Nat) (of : Format) (p : Patch) (v : Value)
    (layers : List Layer) (w : Value) (s : State) : Prop
  | inside (patched : PatchedWith (.level defs n) defs of p v layers w .this s) :
      FinallyPatched defs n of p v layers w s
  | atEnd {b : Value} {s₁ : State} {d : Deferred} {store : LazyStore}
      (built : ((within layers (of.computedBy p)).codec (.level defs n) defs).build w .this s =
        .ok b s₁)
      (waits : s₁.context.top.deferred = [d])
      (computed : d.patch.compute (Engine.level defs (n + 1)).resolver (s₁.context.scopeOf d)
        d.path s₁.store = .ok v store) :
      FinallyPatched defs n of p v layers w s

private theorem buildStream_of_ok {f : Format} {params : Record Value} {stream : Stream}
    {store : LazyStore}
    (made : e.build f v .this ⟨stream, .ofParams params, store⟩ = .ok b s)
    (resolved : e.resolveSince 0 true s = .ok () s') :
    f.buildStream e v params stream store = .ok b s' :=
  Run.bind_eq_ok_iff.mpr ⟨b, s, Run.tagged_eq_ok_iff.mpr made,
    Run.bind_eq_ok_iff.mpr ⟨(), s', resolved, rfl⟩⟩

/-- A field that is deferred leaves the bytes that are left if its value stands in the format from
the start: with a constant in its place, the same input is built to the same bytes at the same
position. -/
theorem patched_as_known {defs : Definitions} {n width : Nat} {of : Format} {p : Patch} {v : Value}
    {layers : List Layer} {w b : Value} {params : Record Value} {data : List UInt8} {pos : Nat}
    {store : LazyStore} {s : State} (reservable : of.Reservable width) (quiet : ∀ e, p.Quiet e)
    (unread : Unread (.level defs n) layers .this) (eager : w.Eager)
    (given : Value.EagerFields params)
    (patched : FinallyPatched defs n of p v layers w
      ⟨.growing data pos, .ofParams params, store⟩)
    (built : (within layers (of.computedBy p)).buildStream (.level defs (n + 1)) w params
      (.growing data pos) store = .ok b s) :
    ∃ b' s', (within layers (constant of v)).buildStream (.level defs (n + 1)) w params
        (.growing data pos) store = .ok b' s' ∧ s'.stream = s.stream := by
  have he := Engine.steady_level defs n
  have means := Engine.means_level defs n
  have cell := reservable.patchable
  have calm : State.Calm ⟨.growing data pos, .ofParams params, store⟩ :=
    ⟨⟨data, pos, rfl⟩, rfl, fun frame mem => by cases List.mem_singleton.mp mem; exact given⟩
  obtain ⟨x, s₁, made, rest⟩ := Run.bind_eq_ok_iff.mp built
  obtain ⟨_, s₂, resolved, last⟩ := Run.bind_eq_ok_iff.mp rest
  obtain ⟨rfl, rfl⟩ := Run.pure_eq_ok_iff.mp last
  have run : ((within layers (of.computedBy p)).codec (.level defs n) defs).build w .this
      ⟨.growing data pos, .ofParams params, store⟩ = .ok x s₁ := Run.tagged_eq_ok_iff.mp made
  have known {u : Value} {bytes : List UInt8} (writes : of.Writes defs u bytes) :=
    known_of_computed he means (quiet _) cell writes (writes.length cell) calm eager unread run
  cases patched with
  | inside patched =>
      obtain ⟨stored, writes⟩ :=
        writes_of_patched he means (quiet _) reservable calm eager unread run patched
      obtain ⟨same, b', t, now, alongside⟩ := (known writes).2 patched
      have idle : s₁.context.top.deferred = [] := by rw [same]; rfl
      obtain ⟨streams, settled⟩ := alongside.met.of_idle idle
      have idle' : t.context.top.deferred = [] := by rw [settled]; rfl
      rw [Engine.resolveSince_of_empty idle] at resolved
      cases resolved
      exact ⟨b', t, buildStream_of_ok now (Engine.resolveSince_of_empty idle' 0 true), streams⟩
  | @atEnd x' s₁' d store' built' waits computed =>
      obtain ⟨rfl, rfl⟩ : x = x' ∧ s₁ = s₁' := by
        rw [run] at built'
        cases built'
        exact ⟨rfl, rfl⟩
      have changed : s₁.context ≠ .ofParams params := fun same => by
        rw [same] at waits
        cases waits
      -- Where the bytes are is told by any value that can be written; which value is written, by
      -- the resolution.
      obtain ⟨zero, zeros, -, zeroWrites⟩ := reservable.exists_writes defs
      obtain ⟨zero', t₀, -, beside⟩ := (known zeroWrites).1 changed
      obtain ⟨inner, units, reached, left, rfl, -⟩ := beside.met.of_waits waits
      obtain ⟨refused, -⟩ | ⟨v', x', stored, computed', writes, -, rfl⟩ := Engine.of_resolveSince
        (Engine.means_level defs (n + 1)) (inner.patch ▸ quiet _) (inner.field ▸ cell)
        (inner.eager.reverse.append calm.eager) resolved
      · cases refused
      obtain rfl : v' = v := by
        cases computed'.symm.trans computed
        rfl
      rw [inner.field] at writes
      -- Both runs differ only in the bytes of the patch, and it writes those that the known value
      -- has.
      obtain ⟨b', t, now, alongside⟩ := (known writes).1 changed
      obtain ⟨-, units', reached', left', same, rfl⟩ := alongside.met.of_waits waits
      cases same
      exact ⟨b', _, buildStream_of_ok now (Engine.resolveSince_of_empty rfl 0 true), rfl⟩

/-! ### A number in a block -/

end Format

/-- One patch waits, and this number is its value. -/
def State.settlesTo (e : Engine) (k : Int) (s : State) : Bool :=
  match s.context.top.deferred with
  | [d] =>
      match d.patch.compute e.resolver (s.context.scopeOf d) d.path s.store with
      | .ok (.int value) _ => value == k
      | _ => false
  | _ => false

namespace Format

/-- Where the members of a structure leave a patch that is settled, it is applied there. -/
private theorem PatchedWith.of_yields {k : Int} {input : Record Value} {before after : List Format}
    {overwrite : Bool}
    (settled : Run.yields (Codec.buildFields input path
      (parts e defs (before ++ within layers (of.computedBy p) :: after))
      { s with context := s.context.push input }) (fun _ s => s.settlesTo e k) = true) :
    PatchedWith e defs of p (.int k) (.struct before after overwrite :: layers)
      (.container input) path s := by
  obtain ⟨_, s₁, done, settled⟩ := Run.ok_of_yields settled
  unfold State.settlesTo at settled
  split at settled
  · next d waits =>
      split at settled
      · next value store computed =>
          obtain rfl := eq_of_beq settled
          exact .here ⟨s₁, d, store, .struct rfl done, waits, computed⟩
      · cases settled
  · cases settled

/-- A block behind its length, and behind the block a byte. -/
def blockLayers : List Layer :=
  [.struct [] [.named "z" (.constant (.unsigned 1 .big) (.int 5))] false, .named "block",
    .prefixed (.unsigned 1 .big) false false, .struct [.named "a" (.unsigned 1 .big)] [] false,
    .named "n"]

private theorem unread_blockLayers (e : Engine) : Unread e blockLayers .this :=
  ⟨⟨trivial, ⟨⟨trivial, trivial⟩, trivial⟩, fun _ _ _ _ => ⟨fun _ => rfl, trivial⟩⟩, trivial,
    trivial, ⟨⟨trivial, trivial⟩, trivial, fun _ _ _ _ => trivial⟩, trivial, trivial⟩

/-- A number in the block is the byte behind the block: its patch leaves the structure and the
scratch buffer of the block. -/
theorem patched_as_known_block :
    let number := computedBy (.unsigned 1 .big) (.value (.attr (.attr .this "_") "z"))
    let input := Value.container [("block", .container [("a", .int 7)])]
    ∃ b s b' s', (within blockLayers number).buildStream (.level [] 2) input [] (.growing [] 0)
        .empty = .ok b s ∧
      (within blockLayers (constant (.unsigned 1 .big) (.int 5))).buildStream (.level [] 2) input []
        (.growing [] 0) .empty = .ok b' s' ∧
      s'.stream = s.stream ∧ s.stream.data = [2, 7, 5, 5] := by
  intro number input
  have reservable : (Format.unsigned 1 .big).Reservable 1 :=
    .integer (by decide) (by decide) false .big
  obtain ⟨b, s, built, data⟩ := Run.ok_of_yields (p := fun _ s => s.stream.data == [2, 7, 5, 5])
    (r := (within blockLayers number).buildStream (.level [] 2) input [] (.growing [] 0) .empty)
    (by decide +kernel)
  have quiet : ∀ e, Patch.Quiet e (.value (.attr (.attr .this "_") "z")) := fun e =>
    Patch.quiet_of_hostless e trivial
  obtain ⟨b', s', known, same⟩ := patched_as_known reservable quiet (unread_blockLayers _)
    (show Value.Eager input from ⟨⟨trivial, trivial⟩, trivial⟩)
    (show Value.EagerFields [] from trivial)
    (.inside (.of_yields (k := 5) (by decide +kernel))) built
  exact ⟨b, s, b', s', built, known, same, eq_of_beq data⟩

/-! ### Where it is not so -/

/-- A structure, and padding that goes by a member which has the name of the structure. -/
def namesakeLayers : List Layer :=
  [.struct [] [.named "b" (.padded (.attr (.field "a") "a") (.unsigned 1 .big) ⟨0, false⟩)] false,
    .named "a", .struct [] [.named "a" (.unsigned 1 .big),
      .named "z" (.constant (.unsigned 1 .big) (.int 3))] false]

/-- A number without a name is noted over the member that has the name of its structure, and what
goes by this member changes with it. -/
theorem patched_namesake_differs :
    let number := computedBy (.unsigned 1 .big) (.value (.field "z"))
    let input := Value.container [("a", .container [("a", .int 2)]), ("b", .int 9)]
    FinallyPatched [] 1 (.unsigned 1 .big) (.value (.field "z")) (.int 3) namesakeLayers input
        ⟨.growing [] 0, .ofParams [], .empty⟩ ∧
      Run.left? ((within namesakeLayers number).buildStream (.level [] 2) input [] (.growing [] 0)
        .empty) = some ([3, 2, 3, 9, 0, 0], 6) ∧
      Run.left? ((within namesakeLayers (constant (.unsigned 1 .big) (.int 3))).buildStream
        (.level [] 2) input [] (.growing [] 0) .empty) = some ([3, 2, 3, 9, 0], 5) :=
  ⟨.inside (.inside (.struct rfl rfl rfl) (.inside .named (.of_yields (by decide +kernel)))),
    by decide +kernel, by decide +kernel⟩

/-- The patch of a length is moved with the payload behind it. -/
example :
    let around (length : Format) := Format.struct [.named "p" (.prefixed length (.unsigned 1 .big)
      false false), .named "z" (.constant (.unsigned 1 .big) (.int 5))] false
    let input := Value.container [("p", .int 8)]
    Run.left? ((around (.rebuild (.unsigned 1 .big) (.field "z"))).buildStream (.level [] 2) input
        [] (.growing [] 0) .empty) = some ([0, 5, 5], 3) ∧
      Run.left? ((around (.constant (.unsigned 1 .big) (.int 5))).buildStream (.level [] 2) input
        [] (.growing [] 0) .empty) = some ([5, 8, 5], 3) :=
  ⟨by decide +kernel, by decide +kernel⟩

end Format

end BinaryFormat
