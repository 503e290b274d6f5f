import BinaryFormat.Proofs.Footprint

/-!
# The footprints of codecs

Components that write, hand on, repeat, choose or envelop others touch nothing
in front of where they start.
-/

namespace BinaryFormat

open Run

variable {c : Claims} {e : Engine} {k : Codec} {α : Type}

/-! ## Frames and streams beside -/

private theorem Codec.Steady.confined_parseSlice {t : Traits} (steady : k.Steady t)
    {data : List UInt8}
    {path : Path} : (k.parseSlice data path).Confined c := by
  refine confined_of_same fun s result s' run => ?_
  obtain ⟨⟨v, stream⟩, s₁, inside, last⟩ := bind_eq_ok_iff.mp run
  obtain ⟨-, rfl⟩ := pure_eq_ok_iff.mp last
  obtain ⟨s₂, parsed, -, rfl⟩ := ok_of_onStream inside
  have calm := (((steady.parse path s.context).of_ok
    (s := { s with stream := .memory data }) (.refl _)) parsed).1
  exact ⟨rfl, calm.quiet.kept⟩

theorem Codec.copySince_of_ok {offset : Nat} {path : Path} {data : List UInt8} {s s' : State}
    (growable : s.stream.Growable) (before : offset ≤ s.stream.pos)
    (run : Codec.copySince offset path s = .ok data s') :
    s' = s ∧ data.length = s.stream.pos - offset ∧
      (s.stream.source = none → data = (s.stream.data.drop offset).take data.length) := by
  obtain ⟨stream, ctx, store⟩ := s
  have reads : Run.read (Size.sub stream.pos offset) path ⟨stream.setPos offset, ctx, store⟩ =
      .ok data s' := run
  rw [Size.sub_of_le before, Run.read] at reads
  dsimp only at reads before growable ⊢
  split at reads
  · rename_i count
    cases reads
    cases stream with
    | medium m =>
        obtain ⟨backing, bytes, pos⟩ := m
        obtain rfl : backing = .growing := growable
        simp only [Stream.setPos, Stream.read, Medium.read, Medium.upTo, Medium.rest, Medium.base,
          Stream.pos] at count before ⊢
        simp only [Nat.not_lt_zero, if_false, Nat.sub_zero] at count ⊢
        refine ⟨?_, count, fun _ => ?_⟩
        · rw [count]
          simp only [State.mk.injEq, Stream.medium.injEq, Medium.mk.injEq, true_and, and_true]
          omega
        · rw [count]
          rfl
    | view v outer =>
        obtain ⟨fresh, empty, inside, -⟩ := growable
        have here : v.pos ≤ v.units.length := inside
        simp only [Stream.setPos, Stream.read, Stream.pos] at count before ⊢
        by_cases none : v.pos - offset = 0
        · simp only [none, if_true] at count ⊢
          obtain rfl : offset = v.pos := by omega
          exact ⟨rfl, rfl, fun flat => by cases flat⟩
        -- A growing view that is not at its start was written to, and asks its outer stream for
        -- nothing.
        · have written : v.written = true := by
            by_contra unwritten
            rw [empty (Bool.eq_false_iff.mpr unwritten)] at here
            exact none (by simp at here; omega)
          have request (upTo : Option Nat) :
              View.request { v with pos := offset } upTo = Option.none := by
            simp [View.request, written]
          simp only [request, Option.some.injEq, none, if_false, View.take] at count ⊢
          refine ⟨?_, count, fun flat => by cases flat⟩
          rw [count]
          simp only [State.mk.injEq, Stream.view.injEq, and_true]
          obtain ⟨recoding, units, pos, fetched, written, exhausted⟩ := v
          simp only [View.mk.injEq, true_and, and_true]
          dsimp only at before
          omega
  · cases reads

namespace Codec

theorem confined_of {k : Codec}
    (inline : ∀ input path, k.buildInline input path = Run.fail (.misshapen .embedding) path)
    (build : ∀ v path, (k.build v path).Confined c) : k.Confined c where
  build := build
  buildInline input path := by
    rw [inline]
    exact confined_fail

theorem Confined.part {of : Part} (h : of.codec.Confined c) (v : Value) (path : Path) :
    (of.build v path).Confined c := (h.build v path).tagged

theorem confined_units {units : List UInt8} {path : Path} {a : α} :
    (do
      Run.write units path
      return a).Confined c := .bind confined_write fun _ => confined_pure

private theorem confined_sizeNow (k : Codec) {path : Path} : (k.sizeNow path).Confined c :=
  .bind confined_context fun _ => confined_lookup

/-! ## Components without components -/

theorem confined_bytes (length : Expr) : (bytes e length).Confined c := by
  refine confined_of (fun _ _ => rfl) fun v path => .bind e.confined_evalSize fun n => ?_
  cases v with
  | bytes data => exact confined_guard confined_units
  | _ => exact confined_fail

theorem confined_greedyBytes : greedyBytes.Confined c := by
  refine confined_of (fun _ _ => rfl) fun v path => ?_
  cases v with
  | bytes data => exact confined_units
  | _ => exact confined_fail

theorem confined_integer (width : Expr) (signed : Bool) (endian : Endian) :
    (integer e width signed endian).Confined c :=
  confined_of (fun _ _ => rfl) fun _ _ => .bind e.confined_evalSize fun _ =>
    .bind confined_ofExcept fun _ => .bind confined_ofExcept fun _ =>
      .bind confined_ofExcept fun _ => confined_units

theorem confined_bitInteger (width : Expr) (signed swapped : Bool) :
    (bitInteger e width signed swapped).Confined c := by
  refine confined_of (fun _ _ => rfl) fun _ _ => .bind e.confined_evalSize fun _ =>
    .bind confined_ofExcept fun _ => .bind confined_ofExcept fun _ =>
      .bind confined_ofExcept fun _ => ?_
  cases swapped with
  | false => exact confined_units
  | true => exact .bind confined_ofExcept fun _ => confined_units

theorem confined_flag : flag.Confined c := by
  refine confined_of (fun _ _ => rfl) fun v path => ?_
  cases v with
  | bool b | int n => exact confined_units
  | _ => exact .bind confined_fail fun _ => confined_units

theorem confined_varint (maxBits : Nat) : (varint maxBits).Confined c :=
  confined_of (fun _ _ => rfl) fun _ _ => .bind confined_ofExcept fun _ =>
    confined_guard (confined_guard confined_units)

theorem confined_zigzag : zigzag.Confined c :=
  confined_of (fun _ _ => rfl) fun _ _ => .bind confined_ofExcept fun _ => confined_units

theorem confined_real (width : RealWidth) (endian : Endian) : (real width endian).Confined c := by
  refine confined_of (fun _ _ => rfl) fun v path => ?_
  unfold real
  dsimp only
  cases v.float? with
  | none => exact confined_fail
  | some x => exact .bind confined_ofExcept fun _ => confined_units

theorem confined_fixedText (length : Expr) (encoding : Encoding) (pad : Char) (side : PadSide)
    (trim : Option TrimEnd) : (fixedText e length encoding pad side trim).Confined c :=
  confined_of (fun _ _ => rfl) fun _ _ => .bind e.confined_evalSize fun _ =>
    .bind confined_ofExcept fun _ => .bind confined_ofExcept fun _ =>
      .bind confined_ofExcept fun _ => confined_units

theorem confined_prefixedText {p : Part} (h : p.codec.Confined c)
    (encoding : Encoding) : (prefixedText p encoding).Confined c :=
  confined_of (fun _ _ => rfl) fun _ _ => .bind confined_ofExcept fun _ =>
    .bind (h.part _ _) fun _ => confined_units

theorem confined_terminatedText (terminators : List (List UInt8)) (encoding : Encoding) :
    (terminatedText terminators encoding).Confined c := by
  refine confined_of (fun _ _ => rfl) fun _ _ => .bind confined_ofExcept fun _ =>
    confined_ite (.bind confined_lookup fun _ => fun _ _ _ _ run => nomatch run) ?_
  cases terminators with
  | nil => exact confined_fail
  | cons first rest => exact confined_units

theorem confined_greedyText (encoding : Encoding) : (greedyText encoding).Confined c :=
  confined_of (fun _ _ => rfl) fun _ _ => .bind confined_ofExcept fun _ => confined_units

theorem confined_pass : pass.Confined c :=
  confined_of (fun _ _ => rfl) fun _ _ => confined_pure

theorem confined_terminated : terminated.Confined c :=
  confined_of (fun _ _ => rfl) fun _ _ => confined_pure

theorem confined_tellCodec : Codec.tell.Confined c :=
  confined_of (fun _ _ => rfl) fun _ _ => .bind Run.confined_tell fun _ => confined_pure

theorem confined_peek (of : Part) : (peek of).Confined c :=
  confined_of (fun _ _ => rfl) fun _ _ => confined_pure

theorem confined_padding (length : Expr) (fill : Fill) : (padding e length fill).Confined c :=
  confined_of (fun _ _ => rfl) fun _ _ => .bind e.confined_evalSize fun _ => confined_units

theorem confined_computed (expr : Expr) : (computed e expr).Confined c :=
  confined_of (fun _ _ => rfl) fun _ _ => e.confined_eval

theorem confined_check (condition : Expr) : (check e condition).Confined c :=
  confined_of (fun _ _ => rfl) fun _ _ => .bind e.confined_evalHolds fun _ =>
    confined_ite confined_pure confined_fail

theorem confined_explicit (message : String) : (explicit message).Confined c :=
  confined_of (fun _ _ => rfl) fun _ _ => confined_fail

/-! ## Values behind others -/

theorem confined_constant (h : k.Confined c) (value : Value) : (constant e k value).Confined c :=
  confined_of (fun _ _ => rfl) fun _ => h.build value

theorem confined_fallback (h : k.Confined c) (value : Value) : (fallback k value).Confined c :=
  confined_of (fun _ _ => rfl) fun _ => h.build _

private theorem confined_reserve {p : Part} {patch : Patch} {path : Path}
    (suits : ∀ d : Deferred, d.field = p.format → d.Suits c) :
    (reserve p patch path).Confined c := by
  intro s w s' growable run
  obtain ⟨size, s₁, sizing, run⟩ := bind_eq_ok_iff.mp run
  have first := confined_sizeNow (c := c) p.codec s size s₁ growable sizing
  rw [Run.bind_of_ok (tell_apply _)] at run
  have growable₁ := first.stream.growable
  obtain ⟨-, extended, pos, inside⟩ :=
    Stream.extended_write growable₁ (List.replicate size 0)
  rw [Run.bind_of_ok (write_of_growable growable₁ _ path)] at run
  rw [List.length_replicate] at pos
  cases run
  have forward := first.stream.forward
  obtain ⟨new, queued, behind⟩ := first.queue
  have wrote := (Stream.keeps_write (c := c) growable₁ (List.replicate size 0)).mono forward
  refine ⟨first.stream.trans extended.advanced, first.kept.trans wrote extended.forward,
    first.below, new ++ [⟨s₁.stream.pos, size, p.format, patch, path, s₁.context.below.length,
      []⟩], ?_, fun d mem => ?_⟩
  · simp only [Context.defer, queued, List.append_assoc]
  · rcases List.mem_append.mp mem with mem | mem
    · exact (behind d mem).onward extended.advanced
    · obtain rfl := List.mem_singleton.mp mem
      exact ⟨fun _ => forward, pos.symm.trans_le inside, fun _ => pos.symm.le, suits _ rfl⟩

theorem confined_rebuild {p : Part} (h : p.codec.Confined c)
    (suits : ∀ d : Deferred, d.field = p.format → d.Suits c) (expr : Expr) :
    (rebuild e p expr).Confined c := by
  refine confined_of (fun _ _ => rfl) fun v path =>
    .bind (confined_outcome (e.same_eval expr path)) fun found => ?_
  cases found with
  | ok value => exact h.build value path
  | error failure =>
      refine confined_ite ?_ confined_throw
      refine .bind (confined_outcome fun s => (context_sizeNow p.codec path s).symm)
        fun size => ?_
      cases size with
      | error failure => exact confined_throw
      | ok n => exact confined_reserve suits

theorem confined_checksum {p : Part} (h : p.codec.Confined c)
    (suits : ∀ d : Deferred, d.field = p.format → d.Suits c) (hash : Hash) (data : Expr) :
    (checksum e p hash data).Confined c := by
  refine confined_of (fun _ _ => rfl) fun v path =>
    .bind (confined_outcome (e.same_digest hash data path)) fun found => ?_
  cases found with
  | ok digest => exact h.build digest path
  | error failure => exact confined_ite (confined_reserve suits) confined_throw

private theorem confined_isAmong {v : Value} (values : List Value) :
    (isAmong e v values).Confined c := by
  induction values with
  | nil => exact confined_pure
  | cons other rest ih =>
      exact .bind e.confined_equal fun same => confined_ite confined_pure ih

private theorem confined_validate (rule : Rule) {v : Value} {path : Path} :
    (validate e rule v path).Confined c := by
  have refused {fault : String → Fault} :
      (do Run.fail (fault (← Run.dump v)) path : Run Unit).Confined c :=
    .bind confined_lookup fun _ => confined_fail
  cases rule with
  | satisfies predicate =>
      exact .bind e.confined_evalOver fun _ => confined_ite refused confined_pure
  | oneOf allowed =>
      exact .bind (confined_isAmong allowed) fun _ => confined_ite refused confined_pure
  | noneOf denied =>
      exact .bind (confined_isAmong denied) fun _ => confined_ite refused confined_pure

theorem confined_validated (h : k.Confined c) (rule : Rule) : (validated e k rule).Confined c :=
  confined_of (fun _ _ => rfl) fun v path => .bind (confined_validate rule) fun _ => h.build v path

private theorem Confined.shown (h : k.Confined c) (raw v : Value) (path : Path) :
    (k.build raw path >>= fun _ => pure v).Confined c :=
  .bind (h.build raw path) fun _ => confined_pure

theorem confined_converted (h : k.Confined c) (conversion : Conversion) :
    (converted k conversion).Confined c :=
  confined_of (fun _ _ => rfl) fun v path => .bind confined_ofExcept fun raw => h.shown raw v path

theorem confined_convertedIn (h : k.Confined c) (conversion : ScopedConversion) :
    (convertedIn k conversion).Confined c :=
  confined_of (fun _ _ => rfl) fun v path => .bind confined_scope fun _ =>
    .bind confined_settle fun raw => h.shown raw v path

theorem confined_convertedBy (h : k.Confined c) (decode encode : Expr) :
    (convertedBy e k decode encode).Confined c :=
  confined_of (fun _ _ => rfl) fun v path => .bind e.confined_evalOver fun raw => h.shown raw v path

theorem confined_labelled (h : k.Confined c) (labels : List (String × Int))
    (unlabelled : Unlabelled) : (labelled k labels unlabelled).Confined c := by
  refine confined_of (fun _ _ => rfl) fun v path => ?_
  have shown := fun n : Int => h.shown (.int n) v path
  cases v with
  | str label =>
      unfold labelled
      dsimp only
      cases numberOf? labels label with
      | none => exact .bind confined_fail shown
      | some n => exact .bind confined_pure shown
  | int n => exact .bind confined_pure shown
  | _ => exact .bind confined_fail shown

private theorem confined_findPair {v : Value} (table : List (Value × Value)) :
    (findPair e v table).Confined c := by
  induction table with
  | nil => exact confined_pure
  | cons entry rest ih =>
      exact .bind e.confined_equal fun same => confined_ite confined_pure ih

theorem confined_mapped (h : k.Confined c) (table : List (Value × Value)) :
    (mapped e k table).Confined c := by
  refine confined_of (fun _ _ => rfl) fun v path => .bind (confined_findPair _) fun found => ?_
  cases found with
  | some raw => exact h.shown raw v path
  | none => exact .bind confined_lookup fun _ => confined_fail

theorem confined_flagSet (h : k.Confined c) (flags : List (String × Nat)) (strict : Bool) :
    (flagSet k flags strict).Confined c :=
  confined_of (fun _ _ => rfl) fun v path => .bind confined_ofExcept fun raw =>
    confined_guard (h.shown (.ofNat raw) v path)

/-! ## Structures -/

variable {parts : List Part}

private theorem confined_fieldInput {input : Record Value} {field : Part} {name : String}
    {path : Path} :
    (fieldInput input field name path).Confined c := by
  unfold fieldInput
  cases Record.get? input name with
  | none => exact confined_ite confined_pure confined_fail
  | some v => exact confined_pure

theorem confined_buildFields (h : ∀ p ∈ parts, p.codec.Confined c) (input : Record Value)
    (path : Path) : (buildFields input path parts).Confined c := by
  induction parts with
  | nil => exact confined_pure
  | cons field rest ih =>
      have first := h field List.mem_cons_self
      have later := ih fun p mem => h p (List.mem_cons_of_mem field mem)
      unfold buildFields
      refine confined_ite (.bind (first.buildInline input path) fun _ => later) ?_
      cases field.name? with
      | none => exact .bind (first.part _ path) fun _ => later
      | some name =>
          exact .bind confined_fieldInput fun v => .bind (first.part v _) fun built =>
            .bind confined_insert fun _ => later

theorem confined_struct (he : e.Steady) (confines : e.Confines)
    (h : ∀ p ∈ parts, p.codec.Confined c) (overwrite : Bool) :
    (struct e parts overwrite).Confined c where
  build v path := by
    refine .bind e.confined_containerInput fun input => .bind (confined_inFrame ?_) fun _ =>
      confined_pure
    intro s _ s' growable empty run
    obtain ⟨_, s₁, fields, resolved⟩ := bind_eq_ok_iff.mp run
    exact (confined_buildFields h input path s _ s₁ growable fields).resolved he confines empty
      resolved
  buildInline input path := confined_buildFields h input path

theorem confined_noteItem {item : Part} {value : Value} : (noteItem item value).Confined c := by
  unfold noteItem
  cases item.name? with
  | none => exact confined_pure
  | some name => exact confined_insert

theorem confined_buildItems {pairs : List (Part × Value)}
    (h : ∀ pair ∈ pairs, pair.1.codec.Confined c) (path : Path) (i : Nat) :
    (buildItems path i pairs).Confined c := by
  induction pairs generalizing i with
  | nil => exact confined_pure
  | cons pair rest ih =>
      obtain ⟨item, value⟩ := pair
      have first : item.codec.Confined c := h (item, value) List.mem_cons_self
      exact .bind (first.part value _) fun built => .bind confined_noteItem fun _ =>
        .bind (ih (fun pair mem => h pair (List.mem_cons_of_mem _ mem)) (i + 1)) fun _ =>
          confined_pure

private theorem confined_buildFrame (he : e.Steady) (confines : e.Confines)
    {pairs : List (Part × Value)} (h : ∀ pair ∈ pairs, pair.1.codec.Confined c)
    (values : Record Value) (path : Path) :
    (Run.inFrame values do
      let built ← buildItems path 0 pairs
      e.resolvePending
      return built).Confined c := by
  refine confined_inFrame fun s built s' growable empty run => ?_
  obtain ⟨items, s₁, built, run⟩ := bind_eq_ok_iff.mp run
  obtain ⟨_, s₂, resolved, last⟩ := bind_eq_ok_iff.mp run
  obtain ⟨-, rfl⟩ := pure_eq_ok_iff.mp last
  exact (confined_buildItems h path 0 s _ s₁ growable built).resolved he confines empty resolved

theorem confined_sequence (he : e.Steady) (confines : e.Confines)
    (h : ∀ p ∈ parts, p.codec.Confined c) : (sequence e parts).Confined c := by
  refine confined_of (fun _ _ => rfl) fun v path => .bind e.confined_listInput fun input =>
    confined_guard (.bind (confined_buildFrame he confines (fun pair mem => ?_) _ path) fun _ =>
      confined_pure)
  exact h pair.1 (List.of_mem_zip mem).1

theorem confined_focused (he : e.Steady) (confines : e.Confines)
    (h : ∀ p ∈ parts, p.codec.Confined c) (focus : Selector) :
    (focused e focus parts).Confined c := by
  refine confined_of (fun _ _ => rfl) fun v path => .bind ?_ fun i =>
    .bind (confined_buildFrame he confines (fun pair mem => ?_) _ path) fun _ => confined_pure
  · unfold focusIndex
    cases Select.index? focus parts with
    | none => exact confined_fail
    | some i => exact confined_pure
  · obtain ⟨⟨item, j⟩, mem', rfl⟩ := List.mem_map.mp mem
    exact h item (List.fst_mem_of_mem_zipIdx mem')

/-! ## Repetition -/

theorem confined_buildElements {p : Part} (h : p.codec.Confined c) (path : Path) (i : Nat)
    (items : List Value) : (buildElements p path i items).Confined c := by
  induction items generalizing i with
  | nil => exact confined_pure
  | cons v rest ih =>
      exact .bind confined_insert fun _ => .bind (h.part v _) fun _ => .bind (ih (i + 1)) fun _ =>
        confined_pure

theorem confined_array {p : Part} (h : p.codec.Confined c) (count : Expr) (discard : Bool) :
    (array e count p discard).Confined c :=
  confined_of (fun _ _ => rfl) fun _ path => .bind e.confined_evalSize fun _ =>
    .bind e.confined_listInput fun items => confined_guard
      (.bind (confined_buildElements h path 0 items) fun _ => confined_pure)

private theorem confined_bounds (least : Expr) (most : Option Expr) (path : Path) :
    (bounds e least most path).Confined c := by
  refine .bind e.confined_evalSize fun _ => ?_
  cases most with
  | none => exact .bind confined_pure fun _ => confined_guard confined_pure
  | some most => exact .bind e.confined_evalSize fun _ => confined_guard confined_pure

private theorem confined_buildRange {p : Part} (h : p.codec.Confined c) (least : Expr)
    (most : Option Expr) (v : Value) (path : Path) :
    (buildRange e least most p v path).Confined c :=
  .bind (confined_bounds least most path) fun _ => .bind e.confined_listInput fun items =>
    confined_guard (.bind (confined_buildElements h path 0 items) fun _ => confined_pure)

theorem confined_range {p : Part} (h : p.codec.Confined c) (least most : Expr)
    (discard : Bool) : (range e least most p discard).Confined c :=
  confined_of (fun _ _ => rfl) fun v path => confined_buildRange h least (some most) v path

theorem confined_greedyRange {p : Part} (h : p.codec.Confined c) (discard : Bool) :
    (greedyRange e p discard).Confined c :=
  confined_of (fun _ _ => rfl) fun v path => confined_buildRange h _ none v path

theorem confined_isLast (last : Expr) (v : Value) (items : List Value) (path : Path) :
    (isLast e last v items path).Confined c :=
  .bind confined_scope fun _ => confined_lookup

theorem confined_buildUntil {p : Part} (h : p.codec.Confined c) (last : Expr) (path : Path)
    (i : Nat) (items done : List Value) :
    (buildUntil e last p path i items done).Confined c := by
  induction items generalizing i done with
  | nil => exact confined_fail
  | cons v rest ih =>
      exact .bind confined_insert fun _ => .bind (h.part v _) fun built =>
        .bind (confined_isLast last built _ path) fun _ => confined_ite confined_pure (ih _ _)

theorem confined_repeatUntil {p : Part} (h : p.codec.Confined c) (last : Expr)
    (discard : Bool) : (repeatUntil e last p discard).Confined c :=
  confined_of (fun _ _ => rfl) fun _ path => .bind e.confined_listInput fun items =>
    .bind (confined_buildUntil h last path 0 items []) fun _ => confined_pure

theorem confined_prefixedArray {q p : Part} (first : q.codec.Confined c)
    (h : p.codec.Confined c) : (prefixedArray e q p).Confined c :=
  confined_of (fun _ _ => rfl) fun _ path => .bind e.confined_listInput fun items =>
    .bind (first.part _ path) fun _ => .bind (confined_buildElements h path 0 items) fun _ =>
      confined_pure

/-! ## Choice -/

theorem confined_branch {yes no : Codec} (h : yes.Confined c) (h' : no.Confined c)
    (condition : Expr) : (branch e condition yes no).Confined c :=
  confined_of (fun _ _ => rfl) fun v path => .bind e.confined_evalHolds fun _ =>
    confined_ite (h.build v path) (h'.build v path)

theorem confined_switch {cases : List (Value × Part)} {otherwise : Option Part}
    (h : ∀ p, p ∈ cases.map Prod.snd ∨ otherwise = some p → p.codec.Confined c) (key : Expr) :
    (switch e key cases otherwise).Confined c := by
  refine confined_of (fun _ _ => rfl) fun v path => .bind confined_scope fun scope =>
    .bind_of_ok confined_lookup fun part s s' chosen => ?_
  unfold Run.lookup at chosen
  cases found : chooseCase e.resolver key cases otherwise scope path s.store with
  | error failure store =>
      rw [found] at chosen
      cases chosen
  | ok p store =>
      rw [found] at chosen
      cases chosen
      exact (h part (mem_of_chooseCase found)).build v path

private theorem confined_tryBuild {tagged : Bool} {alternative : Part}
    (h : alternative.codec.Confined c)
    (v : Value) (path : Path) : (tryBuild tagged alternative v path).Confined c := by
  intro s w s' growable run
  obtain ⟨_, data, s₁, scratch, spliced, -⟩ := scratch_of_tryBuild run
  rw [← List.append_nil data] at spliced
  exact (h.scratch growable scratch).1.splice spliced

/-- What fails leaves the stream to the next alternative. -/
private theorem confined_buildFirst {tagged : Bool} {alternatives : List Part}
    (steady : ∀ p ∈ alternatives, p.codec.Steady .unclaimed)
    (h : ∀ p ∈ alternatives, p.codec.Confined c)
    (v : Value) (path : Path) {w : Value} {s s' : State} (growable : s.stream.Growable)
    (run : buildFirst tagged v path alternatives s = .ok (some w) s') :
    s.Confined c s.stream.pos s' := by
  induction alternatives generalizing s with
  | nil => cases run
  | cons alternative rest ih =>
      rcases tried_of_buildFirst run with tried | ⟨failure, s₁, tried, later⟩
      · exact confined_tryBuild (h alternative List.mem_cons_self) v path s _ _ growable tried
      · obtain ⟨stream, below, queue, -⟩ := untouched_of_tryBuild
          (steady alternative List.mem_cons_self)
          (fun _ data _ _ => (Stream.extended_write growable data).1) tried
        have further := ih (fun p mem => steady p (List.mem_cons_of_mem _ mem))
          (fun p mem => h p (List.mem_cons_of_mem _ mem)) (by rwa [stream]) later
        rw [stream] at further
        exact (State.confined_of_same growable stream ⟨below, queue⟩).trans further

theorem confined_select {alternatives : List Part}
    (steady : ∀ p ∈ alternatives, p.codec.Steady .unclaimed)
    (h : ∀ p ∈ alternatives, p.codec.Confined c) (tagged : Bool) :
    (select alternatives tagged).Confined c := by
  refine confined_of (fun _ _ => rfl) fun v path s w s' growable run => ?_
  rcases attempt_of_select run with ⟨p, inner, -, named, tried⟩ | ⟨-, first⟩
  · exact confined_tryBuild (h p (mem_of_namedAlternative named)) inner path s w s' growable tried
  · exact confined_buildFirst steady h v path growable first

/-- Without a key the stream goes on behind the largest known size. -/
private theorem confined_buildUnion {alternatives : List Part}
    (h : ∀ p ∈ alternatives, p.codec.Confined c)
    {key : Option Selector} (keyed : c.tight → key ≠ none) (input : Record Value) (path : Path) :
    (buildUnion key alternatives input path).Confined c := by
  unfold buildUnion
  dsimp only
  split
  · exact confined_fail
  · rename_i a found
    have first := h a (List.mem_of_find?_eq_some found)
    cases key with
    | some selector =>
        refine .bind Run.confined_tell fun _ => .bind (first.part _ _) fun _ =>
          .bind confined_insert fun _ => ?_
        unfold unionKey
        dsimp only
        cases Select.index? selector alternatives with
        | none => exact fun _ _ _ _ run => nomatch run
        | some i => exact confined_pure
    | none =>
        intro s _ s' growable run
        have loose : ¬ c.tight := fun tight => keyed tight rfl
        rw [Run.bind_of_ok (tell_apply s)] at run
        obtain ⟨built, s₁, made, run⟩ := bind_eq_ok_iff.mp run
        have here := first.part _ _ s built s₁ growable made
        have start := here.stream.forward
        obtain ⟨advance, s₂, sized, run⟩ : ∃ advance s₂,
            Run.lookup (fixedAdvance (s₁.context.insert (a.name?.getD "") built) path alternatives)
              { s₁ with context := s₁.context.insert (a.name?.getD "") built } = .ok advance s₂ ∧
            (if Size.sub s₂.stream.pos s.stream.pos < advance then do
                Run.write (List.replicate (advance - Size.sub s₂.stream.pos s.stream.pos) 0) path
                Run.goTo (s.stream.pos + advance)
              else Run.goTo (s.stream.pos + advance)) s₂ = .ok () s' :=
          bind_eq_ok_iff.mp run
        have same : s₂.stream = s₁.stream ∧ s₁.context.Kept s₂.context := by
          unfold Run.lookup at sized
          split at sized <;> cases sized
          exact ⟨rfl, Context.kept_insert _ _ _⟩
        obtain ⟨stream, kept⟩ := same
        have noted : s.Confined c s.stream.pos s₂ :=
          here.trans (State.confined_of_same here.stream.growable stream kept)
        rw [← stream] at start
        rw [Size.sub_of_le start] at run
        split at run
        -- The alternative was shorter than the advance, and zeros fill the rest of it.
        · obtain ⟨_, s₃, wrote, run⟩ := bind_eq_ok_iff.mp run
          cases run
          have growable₂ := noted.stream.growable
          have filled := confined_write (c := c) s₂ _ s₃ growable₂ wrote
          have pos := (Stream.extended_write growable₂
            (List.replicate (advance - (s₂.stream.pos - s.stream.pos)) 0)).2.2.1
          cases (write_of_growable growable₂ _ path).symm.trans wrote
          rw [List.length_replicate] at pos
          exact (noted.trans (filled.mono start)).goTo loose (Nat.le_add_right _ _)
            (by dsimp only; omega)
        · cases run
          exact noted.goTo loose (Nat.le_add_right _ _) (by omega)

theorem confined_union {alternatives : List Part} (h : ∀ p ∈ alternatives, p.codec.Confined c)
    {key : Option Selector} (keyed : c.tight → key ≠ none) :
    (union e key alternatives).Confined c where
  build _ path := .bind e.confined_containerInput fun input => .bind
    (confined_inFrame fun s a s' growable _ run =>
      confined_buildUnion h keyed input path s a s' growable run) fun _ => confined_pure
  buildInline input path := confined_buildUnion h keyed input path

/-! ## Padding -/

private theorem confined_writeFill (fill : Fill) (count : Nat) (path : Path) :
    (writeFill fill count path).Confined c := confined_write

theorem confined_padded (h : k.Confined c) (length : Expr) (fill : Fill) :
    (padded e length k fill).Confined c := by
  refine confined_of (fun _ _ => rfl) fun v path => .bind e.confined_evalSize fun _ =>
    .bind Run.confined_tell fun _ => .bind (h.build v path) fun _ =>
      .bind Run.confined_tell fun _ =>
      .bind ?_ fun _ => .bind (confined_writeFill fill _ path) fun _ => confined_pure
  unfold remainder
  exact confined_ite confined_pure confined_fail

theorem confined_aligned (h : k.Confined c) (modulus : Expr) (fill : Fill) :
    (aligned e modulus k fill).Confined c :=
  confined_of (fun _ _ => rfl) fun v path => .bind (.bind e.confined_evalSize fun _ =>
    confined_guard confined_pure) fun _ => .bind Run.confined_tell fun _ =>
      .bind (h.build v path) fun _ => .bind Run.confined_tell fun _ =>
        .bind (confined_writeFill fill _ path) fun _ => confined_pure

/-! ## Envelopes -/

theorem confined_delimited (h : k.Confined c) (d : Delimiter) : (delimited k d).Confined c :=
  confined_of (fun _ _ => rfl) fun v path => .bind (h.build v path) fun _ => confined_units

theorem confined_stripped (h : k.Confined c) (pad : List UInt8) : (stripped k pad).Confined c :=
  confined_of (fun _ _ => rfl) fun v path => h.build v path

theorem confined_rawCopy {p : Part} {t : Traits} (steady : p.codec.Steady t)
    (h : p.codec.Confined c) : (rawCopy e p).Confined c := by
  refine confined_of (fun _ _ => rfl) fun v path => .bind e.confined_containerInput fun input => ?_
  intro s w s' growable run
  rw [Run.bind_of_ok (tell_apply s)] at run
  dsimp only at run
  split at run
  · obtain ⟨built, s₁, made, run⟩ := bind_eq_ok_iff.mp run
    have first := h.part _ path s built s₁ growable made
    rw [Run.bind_of_ok (tell_apply s₁)] at run
    obtain ⟨data, s₂, copied, last⟩ := bind_eq_ok_iff.mp run
    obtain ⟨-, rfl⟩ := pure_eq_ok_iff.mp last
    obtain ⟨rfl, -⟩ := copySince_of_ok first.stream.growable first.stream.forward copied
    exact first
  · cases given : (input.get? "data").bind Value.bytes? with
    | none =>
        rw [given] at run
        cases run
    | some data =>
        rw [given] at run
        have confined {x : Run Value} (h : x.Confined c) (ran : x s = .ok w s') :
            s.Confined c s.stream.pos s' := h s w s' growable ran
        refine confined ?_ run
        exact .bind confined_write fun _ => .bind Run.confined_tell fun _ =>
          .bind steady.confined_parseSlice fun _ => confined_pure

theorem confined_fixedSized (h : k.Confined c) (length : Expr) :
    (fixedSized e length k).Confined c := by
  refine confined_of (fun _ _ => rfl) fun v path => .bind e.confined_evalSize fun n => ?_
  intro s w s' growable run
  obtain ⟨_, _, marked, run⟩ := bind_eq_ok_iff.mp run
  cases marked
  obtain ⟨⟨built, data⟩, s₁, scratch, run⟩ := bind_eq_ok_iff.mp run
  dsimp only at run
  split at run
  · cases run
  · obtain ⟨_, s₂, spliced, last⟩ := bind_eq_ok_iff.mp run
    obtain ⟨-, rfl⟩ := pure_eq_ok_iff.mp last
    exact (h.scratch growable scratch).1.splice spliced

theorem confined_prefixed {q : Part} {inclusive lenient : Bool}
    (steady : q.codec.Steady ⟨False, False, True, False⟩) (first : q.codec.Confined c)
    (h : k.Confined c) : (prefixed q k inclusive lenient).Confined c := by
  refine confined_of (fun _ _ => rfl) fun v path s w s' growable run => ?_
  obtain ⟨_, _, marked, run⟩ := bind_eq_ok_iff.mp run
  cases marked
  obtain ⟨⟨built, data⟩, s₁, scratch, run⟩ := bind_eq_ok_iff.mp run
  obtain ⟨own, s₂, measured, run⟩ := bind_eq_ok_iff.mp run
  obtain ⟨_, s₃, written, run⟩ := bind_eq_ok_iff.mp run
  obtain ⟨_, s₄, spliced, last⟩ := bind_eq_ok_iff.mp run
  obtain ⟨-, rfl⟩ := pure_eq_ok_iff.mp last
  obtain ⟨aside, stream⟩ := h.scratch growable scratch
  obtain ⟨stream', context⟩ := looks_overhead q inclusive path s₁
  rw [Run.after, measured] at stream' context
  dsimp only at stream' context
  have growable₂ : s₂.stream.Growable := by rwa [stream', stream]
  have further := first.part _ path s₂ _ s₃ growable₂ written
  have grown := (((steady.build _ path s₂.context (Or.rec False.elim False.elim)).tagged.of_ok
    (.refl _)) written).1
  obtain ⟨none, queue, -, free⟩ := grown.queue
  rw [free trivial, List.append_nil, context] at queue
  rw [← List.append_nil data] at spliced
  have aside' : s.Aside c data s₃ := by
    refine ⟨?_, ?_, ?_, ?_⟩
    · rw [← stream, ← stream']
      exact further.stream
    · have kept := further.kept
      rwa [stream', stream] at kept
    · rw [further.below, context, aside.below]
    · rw [queue]
      exact aside.queue
  exact aside'.splice spliced

private theorem confined_buildResolved (he : e.Steady) (confines : e.Confines)
    (h : k.Confined ⟨False, True⟩) {v w : Value} {path : Path} {s s' : State}
    (growable : s.stream.Growable)
    (run : (do
      let built ← k.build v path
      e.resolveSince s.context.mark true
      return built) s = .ok w s') :
    s.stream.Advanced s'.stream ∧ s.context.Kept s'.context := by
  obtain ⟨built, s₁, made, run⟩ := bind_eq_ok_iff.mp run
  obtain ⟨_, s₂, resolved, last⟩ := bind_eq_ok_iff.mp run
  obtain ⟨-, rfl⟩ := pure_eq_ok_iff.mp last
  obtain ⟨confined, -, queue⟩ := Engine.confined_resolveSince he confines
    (h.build v path s built s₁ growable made) resolved
  exact ⟨confined.stream, confined.below, queue trivial rfl⟩

private theorem confined_applyTransform (transform : Transform) {inverse : Bool} {data : List UInt8}
    {path : Path} : (applyTransform e inverse data path transform).Confined c := by
  cases transform with
  | reverseBytes => exact confined_pure
  | reverseBits => exact confined_pure
  | xor key =>
      refine .bind (.bind e.confined_eval fun v => ?_) fun _ => confined_pure
      split
      · exact confined_ite confined_pure confined_fail
      · exact confined_ite confined_fail confined_pure
      · exact confined_fail
  | rotateLeft amount group =>
      exact confined_guard (.bind e.confined_evalSize fun _ => confined_pure)

theorem confined_transformed (he : e.Steady) (confines : e.Confines)
    (h : k.Confined ⟨False, True⟩) (transform : Transform) (extent : Extent) :
    (transformed e k transform extent).Confined c := by
  refine confined_of (fun _ _ => rfl) fun v path s w s' growable run => ?_
  obtain ⟨_, _, marked, run⟩ := bind_eq_ok_iff.mp run
  cases marked
  obtain ⟨⟨built, scratch⟩, s₁, beside, run⟩ := bind_eq_ok_iff.mp run
  obtain ⟨s₂, made, -, rfl⟩ := ok_of_onStream beside
  obtain ⟨-, kept⟩ := confined_buildResolved (s := { s with stream := .memory [] }) he confines h
    (Stream.growable_memory []) made
  have before : s.Confined c s.stream.pos { s₂ with stream := s.stream } :=
    State.confined_of_same growable rfl kept
  suffices rest : Run.Confined c _ from
    before.trans (rest { s₂ with stream := s.stream } w s' growable run)
  refine .bind (confined_applyTransform transform) fun encoded => .bind ?_ fun found => ?_
  · cases extent with
    | ofChild => exact .bind (confined_sizeNow k) fun _ => confined_pure
    | toEnd => exact confined_pure
    | fixed x => exact .bind e.confined_evalSize fun _ => confined_pure
  · cases found with
    | none => exact confined_units
    | some n => exact confined_guard confined_units

private theorem advanced_finish {s s' : Stream} {r : Recoding} (growable : s.Growable)
    (h : (s.viewed r).Advanced s') (fine : s'.finish.1 = none) :
    s.Advanced s'.finish.2 ∧ s.Keeps c s.pos s'.finish.2 := by
  cases s' with
  | medium m => cases h.source
  | view v outer =>
      have same : (v.recoding, outer) = (r, s) := Option.some.inj h.source
      cases same
      obtain ⟨fresh, -⟩ := h.growable
      have stays : s.giveBack 0 = s := by
        cases s <;> rfl
      simp only [Stream.finish] at fine ⊢
      split
      · split
        · exact ⟨.refl growable, .refl _⟩
        · exact ⟨Stream.advanced_write growable _, Stream.keeps_write growable _⟩
      · split
        · exact ⟨.refl growable, .refl _⟩
        · rw [fresh, Nat.zero_sub, Nat.zero_mul, stays]
          exact ⟨.refl growable, .refl _⟩

private theorem confined_checkEntry (r : Recoding) (path : Path) : (checkEntry r path).Confined c :=
  .bind Run.confined_tell fun _ => confined_ite confined_fail confined_pure

theorem confined_recoded (he : e.Steady) (confines : e.Confines) (h : k.Confined ⟨False, True⟩)
    (r : Recoding) (checked : Bool) : (recoded e k r checked).Confined c := by
  have viewed (v : Value) (path : Path) : Run.Confined c (do
      let mark ← Run.mark
      inView r path do
        let built ← k.build v path
        e.resolveSince mark true
        return built) := by
    intro s w s' growable run
    obtain ⟨_, _, marked, run⟩ := bind_eq_ok_iff.mp run
    cases marked
    unfold inView at run
    dsimp only at run
    split at run
    · rename_i built s₁ inside
      obtain ⟨advanced, kept⟩ := confined_buildResolved
        (s := { s with stream := s.stream.viewed r }) he confines h (growable.viewed r) inside
      have flushed := advanced_finish (c := c) growable advanced
      rcases left : s₁.stream.finish with ⟨_ | fault, outer⟩
      · rw [left] at run flushed
        cases run
        obtain ⟨further, keeps⟩ := flushed rfl
        exact ⟨further, keeps, kept.below, [], by rw [kept.deferred, List.append_nil], nofun⟩
      · rw [left] at run
        cases run
    · cases run
  refine confined_of (fun _ _ => rfl) fun v path => ?_
  cases checked with
  | false => exact viewed v path
  | true => exact .bind (confined_checkEntry r path) fun _ => viewed v path

end Codec

end BinaryFormat
