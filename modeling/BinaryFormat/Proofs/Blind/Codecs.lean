import BinaryFormat.Format.Meaning
import BinaryFormat.Proofs.Blind

/-!
# Components that only move forward

Numbers, text, structures, repetitions and envelopes that read or write at the
position and never go back.  They use nothing of their stream but reading or
writing, how far they have come, and a bound for loops, so they are blind to
every relation that reading or writing survives.
-/

namespace BinaryFormat

variable {R : Stream → Stream → Prop} {queue : List Deferred}

namespace Engine

variable (e : Engine)

private theorem blind_evalSize (x : Expr) (path : Path) : (e.evalSize x path).Blind R queue :=
  .bind Run.blind_scope fun _ => Run.blind_lookup _

private theorem blind_equal (a b : Value) : (e.equal a b).Blind R queue := Run.blind_lookup _

private theorem blind_force (v : Value) : (e.force v).Blind R queue := Run.blind_lookup _

private theorem blind_containerInput (v : Value) (path : Path) :
    (e.containerInput v path).Blind R queue := by
  cases v with
  | container fields | flags fields | none => exact Run.blind_pure _
  | lazyContainer handle names =>
      refine .bind (e.blind_force _) fun forced => ?_
      cases forced <;> exact Run.blind_pure _
  | _ => exact Run.blind_fail _ _

private theorem blind_listInput (v : Value) (path : Path) : (e.listInput v path).Blind R queue := by
  cases v with
  | list items | bytes data => exact Run.blind_pure _
  | lazyList handle length =>
      refine .bind (e.blind_force _) fun forced => ?_
      cases forced <;> exact Run.blind_pure _
  | _ => exact Run.blind_fail _ _

end Engine

namespace Codec

open Run

/-- Parsing is blind to whatever reading is blind to, and building to whatever writing is. -/
structure Blind (c : Codec) : Prop where
  parse : ∀ {R queue}, Readable R → ∀ path, (c.parse path).Blind R queue
  build : ∀ {R queue}, Writable R → ∀ v path, (c.build v path).Blind R queue

variable {e : Engine} {c d : Codec} {p : Part}

private theorem Blind.parsePart (h : p.codec.Blind) (readable : Readable R) (path : Path) :
    (p.parse path).Blind R queue := (h.parse readable path).tagged

private theorem Blind.buildPart (h : p.codec.Blind) (writable : Writable R) (v : Value)
    (path : Path) :
    (p.build v path).Blind R queue := (h.build writable v path).tagged

private theorem Blind.parseSlice (h : c.Blind) (data : List UInt8) (path : Path) :
    (c.parseSlice data path).Blind R queue :=
  .bind ((h.parse readable_identical path).onStream data) fun _ => blind_pure _

private theorem Blind.buildScratch (h : c.Blind) (v : Value) (path : Path) :
    (c.buildScratch v path).Blind R queue :=
  .bind ((h.build writable_identical v path).onStream []) fun _ => blind_pure _

private theorem blind_sizeNow (c : Codec) (path : Path) : (c.sizeNow path).Blind R queue :=
  .bind blind_context fun _ => blind_lookup _

/-! ## Bytes and numbers -/

private theorem blind_bytes (length : Expr) : (bytes e length).Blind where
  parse readable path := .bind (e.blind_evalSize length path) fun n =>
    .bind (readable.blind_read n path) fun _ => blind_pure _
  build writable v path := by
    refine .bind (e.blind_evalSize length path) fun n => ?_
    cases v with
    | bytes data =>
        exact blind_guard (.bind (writable.blind_write data path) fun _ => blind_pure _)
    | _ => exact blind_fail _ _

private theorem blind_integer (width : Expr) (signed : Bool) (endian : Endian) :
    (integer e width signed endian).Blind where
  parse readable path := .bind (e.blind_evalSize width path) fun n =>
    .bind (blind_ofExcept _ _) fun _ => .bind (readable.blind_read n path) fun _ =>
      .bind (blind_ofExcept _ _) fun _ => blind_pure _
  build writable _ path := .bind (e.blind_evalSize width path) fun _ =>
    .bind (blind_ofExcept _ _) fun _ => .bind (blind_ofExcept _ _) fun _ =>
      .bind (blind_ofExcept _ _) fun _ => .bind (writable.blind_write _ path) fun _ =>
        blind_pure _

private theorem blind_flag : flag.Blind where
  parse readable path := .bind (readable.blind_read 1 path) fun _ => blind_pure _
  build {R queue} writable v path := by
    have write : ∀ bit : Bool, (Run.write [Bits.unit bit] path >>= fun _ =>
        pure (Value.bool bit)).Blind R queue :=
      fun _ => .bind (writable.blind_write _ path) fun _ => blind_pure _
    cases v with
    | bool b => exact .bind (blind_pure b) write
    | int n => exact .bind (blind_pure (n != 0)) write
    | _ => exact .bind (blind_fail _ _) write

/-! ## Integers of variable length -/

/-- How often a reader may still read does not matter while it may read more often than there
is something left. -/
private theorem agree_readFrom (readable : Readable R) (maxBits : Nat) (path : Path) :
    ∀ (more more' acc shift : Nat) (seen : List UInt8) (s t : Stream) (ctx : Context)
      (store : LazyStore), R s t → s.available < more → t.available < more' →
      Agree R ctx (Varint.readFrom maxBits path more acc shift seen ⟨s, ctx, store⟩)
        (Varint.readFrom maxBits path more' acc shift seen ⟨t, ctx, store⟩) := by
  intro more
  induction more with
  | zero =>
      intro more' acc shift seen s t ctx store _ low
      exact absurd low (Nat.not_lt_zero _)
  | succ more ih =>
      intro more' acc shift seen s t ctx store related low low'
      obtain ⟨more', rfl⟩ := Nat.exists_eq_add_of_le' (Nat.lt_of_le_of_lt (Nat.zero_le _) low')
      rw [Varint.readFrom, Varint.readFrom]
      rcases readable.cases 1 path ctx store related with
        ⟨data, s', t', first, second, related', less⟩ | ⟨got, s₁, t₁, first, second⟩
      · rw [bind_of_ok first, bind_of_ok second]
        obtain ⟨less, less'⟩ := less Nat.one_pos
        dsimp only
        split
        · exact .error rfl
        · split
          · exact .ok related' (.refl ctx)
          · exact ih _ _ _ _ _ _ _ _ related' (Nat.lt_of_lt_of_le less (Nat.le_of_lt_succ low))
              (Nat.lt_of_lt_of_le less' (Nat.le_of_lt_succ low'))
      · rw [bind_of_error first, bind_of_error second]
        exact .error rfl

private theorem blind_readVarint (readable : Readable R) (maxBits : Nat) (path : Path) :
    (Varint.read maxBits path).Blind R queue := fun _ _ _ _ _ related =>
  agree_readFrom readable maxBits path _ _ _ _ _ _ _ _ _ related (Nat.lt_succ_self _)
    (Nat.lt_succ_self _)

private theorem blind_varint (maxBits : Nat) : (varint maxBits).Blind where
  parse readable path := .bind (blind_readVarint readable maxBits path) fun _ => blind_pure _
  build writable _ path := .bind (blind_ofExcept _ _) fun _ =>
    blind_guard (blind_guard (.bind (writable.blind_write _ path) fun _ => blind_pure _))

private theorem blind_zigzag : zigzag.Blind where
  parse readable path := .bind (blind_readVarint readable 128 path) fun _ => blind_pure _
  build writable _ path := .bind (blind_ofExcept _ _) fun _ =>
    .bind (writable.blind_write _ path) fun _ => blind_pure _

/-! ## Fixed values and text -/

private theorem blind_constant (h : c.Blind) (value : Value) : (constant e c value).Blind where
  parse readable path := by
    refine .bind (h.parse readable path) fun found => .bind (e.blind_equal _ _) fun same => ?_
    refine blind_ite ?_ (blind_pure _)
    exact .bind (blind_dump _) fun _ => .bind (blind_dump _) fun _ => .bind (blind_fail _ _)
      fun _ => blind_pure _
  build writable _ path := h.build writable value path

private theorem blind_prefixedText (h : p.codec.Blind) (encoding : Encoding) :
    (prefixedText p encoding).Blind where
  parse {R queue} readable path := by
    refine .bind (h.parsePart readable path) fun stored => ?_
    cases stored.int? with
    | none => exact .bind (blind_dump _) fun _ => blind_fail _ _
    | some n =>
        have text : (Run.read (n.toNat % Nat.pow 2 64) path >>= fun data =>
            Run.ofExcept path (TextField.decode encoding data)).Blind R queue :=
          .bind (readable.blind_read _ path) fun _ => blind_ofExcept _ _
        exact blind_ite (.bind (blind_dump _) fun _ => .bind (blind_fail _ _) fun _ => text) text
  build writable v path := .bind (blind_ofExcept _ _) fun data =>
    .bind (h.buildPart writable _ path) fun _ => .bind (writable.blind_write data path) fun _ =>
      blind_pure _

private theorem agree_readTerminated (readable : Readable R) {unit : Nat} (positive : 0 < unit)
    (terminators : List (List UInt8)) (path : Path) :
    ∀ (more more' : Nat) (data : List UInt8) (s t : Stream) (ctx : Context) (store : LazyStore),
      R s t → s.available < more → t.available < more' →
      Agree R ctx (readTerminated unit terminators path more data ⟨s, ctx, store⟩)
        (readTerminated unit terminators path more' data ⟨t, ctx, store⟩) := by
  intro more
  induction more with
  | zero =>
      intro more' data s t ctx store _ low
      exact absurd low (Nat.not_lt_zero _)
  | succ more ih =>
      intro more' data s t ctx store related low low'
      obtain ⟨more', rfl⟩ := Nat.exists_eq_add_of_le' (Nat.lt_of_le_of_lt (Nat.zero_le _) low')
      rw [readTerminated, readTerminated]
      rcases readable.cases unit path ctx store related with
        ⟨chunk, s', t', first, second, related', less⟩ | ⟨got, s₁, t₁, first, second⟩
      · rw [bind_of_ok (outcome_of_ok first), bind_of_ok (outcome_of_ok second)]
        obtain ⟨less, less'⟩ := less positive
        dsimp only
        split
        · exact .ok related' (.refl ctx)
        · exact ih _ _ _ _ _ _ related' (Nat.lt_of_lt_of_le less (Nat.le_of_lt_succ low))
            (Nat.lt_of_lt_of_le less' (Nat.le_of_lt_succ low'))
      · rw [bind_of_ok (outcome_of_error first), bind_of_ok (outcome_of_error second)]
        exact .error rfl

private theorem blind_terminatedText (terminators : List (List UInt8)) (encoding : Encoding) :
    (terminatedText terminators encoding).Blind where
  parse readable path := by
    have positive : 0 < encoding.unit := by cases encoding <;> decide
    intro s t ctx store queued related
    exact (agree_readTerminated readable positive terminators path _ _ _ _ _ _ _ related
      (Nat.lt_succ_self _) (Nat.lt_succ_self _)).bind fun data s t ctx store related _ =>
        blind_ofExcept path _ s t ctx store rfl related
  build {R queue} writable v path := by
    refine .bind (blind_ofExcept _ _) fun data => ?_
    cases terminators with
    | nil => exact blind_ite (.bind (blind_dump _) fun _ => .bind (blind_fail _ _) fun _ =>
        blind_fail _ _) (blind_fail _ _)
    | cons first others =>
      have write : Run.Blind R queue (Run.write (data ++ first) path >>= fun _ => pure v) :=
        .bind (writable.blind_write _ path) fun _ => blind_pure _
      exact blind_ite (.bind (blind_dump _) fun _ => .bind (blind_fail _ _) fun _ => write) write

/-! ## Repetition -/

private theorem blind_parseCounted (h : p.codec.Blind) (readable : Readable R) (path : Path) :
    ∀ count i : Nat, (parseCounted p path count i).Blind R queue
  | 0, _ => blind_pure _
  | count + 1, i => .bind (blind_insert _ _) fun _ =>
      .bind (h.parsePart readable (path.element i)) fun _ =>
        .bind (blind_parseCounted h readable path count (i + 1)) fun _ => blind_pure _

private theorem blind_buildElements (h : p.codec.Blind) (writable : Writable R) (path : Path) :
    ∀ (i : Nat) (items : List Value), (buildElements p path i items).Blind R queue
  | _, [] => blind_pure _
  | i, v :: rest => .bind (blind_insert _ _) fun _ =>
      .bind (h.buildPart writable v (path.element i)) fun _ =>
        .bind (blind_buildElements h writable path (i + 1) rest) fun _ => blind_pure _

private theorem blind_array (count : Expr) (h : p.codec.Blind) (discard : Bool) :
    (array e count p discard).Blind where
  parse readable path := .bind (e.blind_evalSize count path) fun n =>
    .bind (blind_parseCounted h readable path n 0) fun _ => blind_pure _
  build writable v path := .bind (e.blind_evalSize count path) fun _ =>
    .bind (e.blind_listInput v path) fun items =>
      blind_guard (.bind (blind_buildElements h writable path 0 items) fun _ => blind_pure _)

private theorem blind_prefixedArray {q : Part} (h : q.codec.Blind) (h' : p.codec.Blind) :
    (prefixedArray e q p).Blind where
  parse {R queue} readable path := by
    refine .bind (h.parsePart readable path) fun stored => ?_
    cases stored.int? with
    | none => exact .bind (blind_dump _) fun _ => blind_fail _ _
    | some n =>
        have elements : (parseCounted p path (n.toNat % Nat.pow 2 64) 0 >>= fun items =>
            pure (Value.list items)).Blind R queue :=
          .bind (blind_parseCounted h' readable path _ 0) fun _ => blind_pure _
        exact blind_ite (.bind (blind_dump _) fun _ => .bind (blind_fail _ _) fun _ => elements)
          elements
  build writable v path := .bind (e.blind_listInput v path) fun items =>
    .bind (h.buildPart writable _ path) fun _ =>
      .bind (blind_buildElements h' writable path 0 items) fun _ => blind_pure _

/-! ## Envelopes -/

private theorem blind_overhead (length : Part) (inclusive : Bool) (path : Path) :
    (overhead length inclusive path).Blind R queue :=
  blind_ite (blind_sizeNow _ path) (blind_pure 0)

private theorem blind_prefixed (h : p.codec.Blind) (h' : c.Blind) (inclusive lenient : Bool) :
    (prefixed p c inclusive lenient).Blind where
  parse readable path := by
    refine .bind (h.parsePart readable path) fun stored => ?_
    cases stored.int? with
    | none => exact blind_fail _ _
    | some n =>
        exact .bind (blind_overhead p inclusive path) fun _ => blind_guard <|
          .bind (readable.blind_read _ path) fun data => .bind (h'.parseSlice data path)
            fun _ => blind_guard (blind_pure _)
  build writable v path := blind_mark <| .bind (h'.buildScratch v path) fun scratch =>
    .bind (blind_overhead p inclusive path) fun _ => .bind (h.buildPart writable _ path)
      fun _ => .bind (writable.blind_splice scratch.2 path) fun _ => blind_pure _

private theorem blind_fixedSized (length : Expr) (h : c.Blind) : (fixedSized e length c).Blind where
  parse readable path := .bind (e.blind_evalSize length path) fun n =>
    .bind (readable.blind_read n path) fun data => .bind (h.parseSlice data path) fun _ =>
      blind_pure _
  build {R queue} writable v path := by
    refine .bind (e.blind_evalSize length path) fun n => blind_mark ?_
    refine .bind (h.buildScratch v path) fun scratch => ?_
    have copy : (Run.splice (scratch.2 ++ List.replicate (n - scratch.2.length) 0) queue.length
        path >>= fun _ => pure scratch.1).Blind R queue :=
      .bind (writable.blind_splice _ path) fun _ => blind_pure _
    exact blind_ite (.bind blind_discardSince fun _ => .bind (blind_fail _ _) fun _ => copy) copy

/-! ## Padding -/

private theorem blind_skipFill (fill : Fill) (readable : Readable R) (count : Nat) (path : Path) :
    (skipFill fill count path).Blind R queue := by
  refine .bind (readable.blind_read count path) fun data => blind_ite ?_ (blind_pure _)
  cases firstOther fill.pattern 0 data with
  | none => exact blind_pure _
  | some other => exact blind_fail _ _

private theorem blind_remainder (total used : Nat) (path : Path) :
    (remainder total used path).Blind R queue :=
  blind_ite (blind_pure _) (blind_fail _ _)

private theorem blind_padded (length : Expr) (h : c.Blind) (fill : Fill) :
    (padded e length c fill).Blind where
  parse {R queue} readable path := by
    refine .bind (e.blind_evalSize length path) fun n => ?_
    have rest (v : Value) (used : Nat) : (do
        skipFill fill (← remainder n used path) path
        return v : Run Value).Blind R queue :=
      .bind (blind_remainder n used path) fun _ =>
        .bind (blind_skipFill fill readable _ path) fun _ => blind_pure v
    exact .measured readable.shifted (h.parse readable path) rest
  build {R queue} writable v path := by
    refine .bind (e.blind_evalSize length path) fun n => ?_
    have rest (built : Value) (used : Nat) : (do
        writeFill fill (← remainder n used path) path
        return built : Run Value).Blind R queue :=
      .bind (blind_remainder n used path) fun _ =>
        .bind (writable.blind_write _ path) fun _ => blind_pure built
    exact .measured writable.shifted (h.build writable v path) rest

private theorem blind_evalModulus (modulus : Expr) (path : Path) :
    (evalModulus e modulus path).Blind R queue :=
  .bind (e.blind_evalSize modulus path) fun _ => blind_guard (blind_pure _)

private theorem blind_aligned (modulus : Expr) (h : c.Blind) (fill : Fill) :
    (aligned e modulus c fill).Blind where
  parse readable path := .bind (blind_evalModulus modulus path) fun m =>
    .measured readable.shifted (h.parse readable path) fun _ used =>
      .bind (blind_skipFill fill readable (toMultiple used m) path) fun _ => blind_pure _
  build writable v path := .bind (blind_evalModulus modulus path) fun m =>
    .measured writable.shifted (h.build writable v path) fun _ used =>
      .bind (writable.blind_write (List.replicate (toMultiple used m) fill.pattern) path)
        fun _ => blind_pure _

/-! ## Structures -/

private theorem blind_parseFields (readable : Readable R) (overwrite : Bool) (path : Path) :
    ∀ fields : List Part,
      (∀ p ∈ fields, p.codec.Blind ∧ p.format.isEmbedded = false) →
      (parseFields overwrite false path fields).Blind R queue
  | [], _ => blind_pure _
  | p :: rest, h => by
      obtain ⟨field, flat⟩ := h p List.mem_cons_self
      have others := blind_parseFields readable overwrite path rest
        fun q mem => h q (List.mem_cons_of_mem p mem)
      rw [parseFields, flat, if_neg Bool.false_ne_true]
      cases p.name? with
      | none => exact .bind (field.parsePart readable path) fun _ => others
      | some name =>
          exact .bind (field.parsePart readable _) fun v => .bind (blind_insert name v)
            fun _ => others

private theorem blind_fieldInput (input : Record Value) (field : Part) (name : String)
    (path : Path) :
    (fieldInput input field name path).Blind R queue := by
  unfold fieldInput
  cases input.get? name with
  | some v => exact blind_pure v
  | none => exact blind_ite (blind_pure _) (blind_fail _ _)

private theorem blind_buildFields (writable : Writable R) (input : Record Value) (path : Path) :
    ∀ fields : List Part,
      (∀ p ∈ fields, p.codec.Blind ∧ p.format.isEmbedded = false) →
      (buildFields input path fields).Blind R queue
  | [], _ => blind_pure _
  | p :: rest, h => by
      obtain ⟨field, flat⟩ := h p List.mem_cons_self
      have others := blind_buildFields writable input path rest
        fun q mem => h q (List.mem_cons_of_mem p mem)
      rw [buildFields, flat, if_neg Bool.false_ne_true]
      cases p.name? with
      | none => exact .bind (field.buildPart writable _ path) fun _ => others
      | some name =>
          exact .bind (blind_fieldInput input p name _) fun v =>
            .bind (field.buildPart writable v _) fun built => .bind (blind_insert name built)
              fun _ => others

private theorem blind_struct {fields : List Part}
    (h : ∀ p ∈ fields, p.codec.Blind ∧ p.format.isEmbedded = false) (overwrite : Bool) :
    (struct e fields overwrite).Blind where
  parse readable path :=
    .bind (.inFrame (blind_parseFields readable overwrite path fields h) []) fun _ =>
      blind_pure _
  build writable v path := .bind (e.blind_containerInput v path) fun input =>
    .bind (.inFrame (.bind (blind_buildFields writable input path fields h) fun _ =>
      blind_resolvePending e) input) fun _ => blind_pure _

private theorem blind_noteItem (p : Part) (v : Value) : (noteItem p v).Blind R queue := by
  unfold noteItem
  cases p.name? with
  | none => exact blind_pure _
  | some name => exact blind_insert name v

private theorem blind_parseItems (readable : Readable R) (path : Path) :
    ∀ (i : Nat) (items : List Part), (∀ p ∈ items, p.codec.Blind) →
      (parseItems path i items).Blind R queue
  | _, [], _ => blind_pure _
  | i, p :: rest, h => .bind ((h p List.mem_cons_self).parsePart readable _) fun v =>
      .bind (blind_noteItem p v) fun _ =>
        .bind (blind_parseItems readable path (i + 1) rest fun q mem =>
          h q (List.mem_cons_of_mem p mem)) fun _ => blind_pure _

private theorem blind_buildItems (writable : Writable R) (path : Path) :
    ∀ (i : Nat) (pairs : List (Part × Value)), (∀ pair ∈ pairs, pair.1.codec.Blind) →
      (buildItems path i pairs).Blind R queue
  | _, [], _ => blind_pure _
  | i, (p, v) :: rest, h => .bind ((h (p, v) List.mem_cons_self).buildPart writable v _)
      fun built => .bind (blind_noteItem p built) fun _ =>
        .bind (blind_buildItems writable path (i + 1) rest fun pair mem =>
          h pair (List.mem_cons_of_mem _ mem)) fun _ => blind_pure _

private theorem blind_sequence {items : List Part} (h : ∀ p ∈ items, p.codec.Blind) :
    (sequence e items).Blind where
  parse readable path :=
    .bind (.inFrame (blind_parseItems readable path 0 items h) []) fun _ => blind_pure _
  build writable v path := .bind (e.blind_listInput v path) fun input => blind_guard <|
    .bind (.inFrame (.bind (blind_buildItems writable path 0 (items.zip input)
        fun pair mem => h pair.1 (List.of_mem_zip mem).1) fun _ =>
      .bind (blind_resolvePending e) fun _ => blind_pure _) _) fun _ => blind_pure _

end Codec

/-! ## Formats -/

namespace Format

mutual

/-- The formats that only move forward: numbers, text, structures, repetitions and
envelopes, of whatever size and count. -/
def Forward : Format → Prop
  | bytes _ | integer _ _ _ | flag | varint _ | zigzag | terminatedText _ _ => True
  | prefixedText of _ | named _ of | documented _ of | constant of _ | array _ of _
  | fixedSized _ of | padded _ of _ | aligned _ of _ => Forward of
  | prefixedArray first of | prefixed first of _ _ => Forward first ∧ Forward of
  | struct fs _ | sequence fs => ForwardAll fs
  | _ => False

def ForwardAll : List Format → Prop
  | [] => True
  | f :: rest => Forward f ∧ ForwardAll rest

end

private theorem isEmbedded_of_forward : ∀ {f : Format}, f.Forward → f.isEmbedded = false :=
  isEmbedded_eq_false_of (P := Forward) id id id

mutual

theorem blind_codec (e : Engine) (defs : Definitions) : ∀ {f : Format}, f.Forward →
    (f.codec e defs).Blind
  | bytes length, _ => Codec.blind_bytes length
  | integer width signed endian, _ => Codec.blind_integer width signed endian
  | flag, _ => Codec.blind_flag
  | varint maxBits, _ => Codec.blind_varint maxBits
  | zigzag, _ => Codec.blind_zigzag
  | terminatedText terminators encoding, _ => Codec.blind_terminatedText terminators encoding
  | prefixedText length encoding, h =>
      Codec.blind_prefixedText (p := ⟨length, _⟩) (blind_codec e defs (f := length) h) encoding
  | named _ of, h => blind_codec e defs (f := of) h
  | documented _ of, h => blind_codec e defs (f := of) h
  | constant of value, h => Codec.blind_constant (blind_codec e defs (f := of) h) value
  | array count of discard, h =>
      Codec.blind_array count (p := ⟨of, _⟩) (blind_codec e defs (f := of) h) discard
  | fixedSized length _, h => Codec.blind_fixedSized length (blind_codec e defs h)
  | padded length of fill, h => Codec.blind_padded length (blind_codec e defs (f := of) h) fill
  | aligned modulus of fill, h =>
      Codec.blind_aligned modulus (blind_codec e defs (f := of) h) fill
  | prefixedArray count of, h =>
      Codec.blind_prefixedArray (p := ⟨of, _⟩) (q := ⟨count, _⟩) (blind_codec e defs h.1)
        (blind_codec e defs h.2)
  | prefixed length _ inclusive lenient, h =>
      Codec.blind_prefixed (p := ⟨length, _⟩) (blind_codec e defs h.1) (blind_codec e defs h.2)
        inclusive lenient
  | struct _ overwrite, h => Codec.blind_struct (blind_parts e defs h) overwrite
  | sequence _, h => Codec.blind_sequence fun p mem => (blind_parts e defs h p mem).1

theorem blind_parts (e : Engine) (defs : Definitions) : ∀ {fs : List Format}, ForwardAll fs →
    ∀ p ∈ parts e defs fs, p.codec.Blind ∧ p.format.isEmbedded = false
  | [], _, _, mem => nomatch mem
  | f :: _, h, p, mem => by
      rcases List.mem_cons.mp mem with rfl | mem
      · exact ⟨blind_codec e defs h.1, isEmbedded_of_forward h.1⟩
      · exact blind_parts e defs h.2 p mem

end

end Format

end BinaryFormat
