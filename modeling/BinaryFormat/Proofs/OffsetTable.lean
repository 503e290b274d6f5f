import BinaryFormat.Proofs.DeferredScope
import BinaryFormat.Proofs.Number

/-!
# Tables of offsets

A table in front of a list of blobs is built from the offsets that the blobs
turn out to have.  Its entries are deferred until the blobs are built, and by
then the frame around both lists holds the last index that was noted.
-/

namespace BinaryFormat

/-- The offset of the blob whose index is the one at hand. -/
def Expr.blobOffset : Expr :=
  .attr (.index (.attr (.attr .this "_") "blobs") (.attr .this "_index")) "offset1"

namespace Expr

variable {inner outer : Record Value} {path : Path} {blobs : List Value} {i : Nat}
  {fields : Record Value}

private theorem denote_blob (r : Resolver) (rest : List (Record Value)) (store : LazyStore)
    (list : Record.get? outer "blobs" = some (.list blobs))
    (unbound : Record.get? inner "_index" = none)
    (index : Record.get? outer "_index" = some (.ofNat i)) (h : i < blobs.length) :
    denote r ⟨inner :: outer :: rest, none, none⟩
      (.index (.attr (.attr .this "_") "blobs") (.attr .this "_index")) store =
        .ok (.value blobs[i]) store := by
  have place : Resolver.position i blobs.length = .ok i := by
    have least : ¬ (i : Int) < 0 := by omega
    simp [Resolver.position, least]
    omega
  simp [denote, member, Denoted.ofFrame, bind, EStateM.bind, pure, EStateM.pure,
    Lookup.ofExcept, list, unbound, index, Value.ofNat, Denoted.toValue, atKey, Resolver.item,
    place, h]

private theorem denote_blobOffset (r : Resolver) (rest : List (Record Value)) (store : LazyStore)
    (list : Record.get? outer "blobs" = some (.list blobs))
    (unbound : Record.get? inner "_index" = none)
    (index : Record.get? outer "_index" = some (.ofNat i)) (h : i < blobs.length)
    (blob : blobs[i] = .container fields) :
    denote r ⟨inner :: outer :: rest, none, none⟩ blobOffset store =
      match Record.get? fields "offset1" with
      | some v => .ok (.value v) store
      | none => .error (.unevaluable (.noField "offset1")) store := by
  have found := denote_blob r rest store list unbound index h
  rw [blobOffset, denote, Run.bind_of_ok found, blob]
  cases offset : Record.get? fields "offset1" <;>
    simp [member, Resolver.attr, offset, bind, EStateM.bind, pure, EStateM.pure]

variable {r : Resolver} {rest : List (Record Value)} {store : LazyStore}

private theorem evaluate_blobOffset {v : Value}
    (list : Record.get? outer "blobs" = some (.list blobs))
    (unbound : Record.get? inner "_index" = none)
    (index : Record.get? outer "_index" = some (.ofNat i)) (h : i < blobs.length)
    (blob : blobs[i] = .container fields) (offset : Record.get? fields "offset1" = some v) :
    blobOffset.evaluate r ⟨inner :: outer :: rest, none, none⟩ path store = .ok v store := by
  have denoted := denote_blobOffset r rest store list unbound index h blob
  rw [offset, blobOffset] at denoted
  simp [blobOffset, evaluate, Lookup.atPath, bind, EStateM.bind, pure, EStateM.pure, denoted,
    Denoted.toValue]

private theorem pending_blobOffset (list : Record.get? outer "blobs" = some (.list blobs))
    (unbound : Record.get? inner "_index" = none)
    (index : Record.get? outer "_index" = some (.ofNat i)) (h : i < blobs.length)
    (blob : blobs[i] = .container fields) (missing : Record.get? fields "offset1" = none) :
    (blobOffset.evaluate r ⟨inner :: outer :: rest, none, none⟩ path).Pending store := by
  have denoted := denote_blobOffset r rest store list unbound index h blob
  rw [missing, blobOffset] at denoted
  refine ⟨(Fault.unevaluable (.noField "offset1")).atPath path, ?_, rfl⟩
  simp [blobOffset, evaluate, Lookup.atPath, bind, EStateM.bind, denoted]

end Expr

namespace Format

/-- A record without an entry of a name. -/
def Lacks (name : String) (v : Value) : Prop :=
  ∃ fields, v = .container fields ∧ Record.get? fields name = none

variable (width : Nat) (signed : Bool) (endian : Endian)

/-- The number in an entry of a table. -/
def tableOffset : Format := integer (.const (.int width)) signed endian

def tableEntry : Format :=
  struct [named "off" (rebuild (tableOffset width signed endian) Expr.blobOffset)] false

/-- So many blobs behind a table of their offsets. -/
def offsetTable (count : Nat) (blob : Format) : Format :=
  struct
    [named "entries" (array (.const (.int count)) (tableEntry width signed endian) false),
      named "blobs" (array (.const (.int count)) (rawCopy blob) false)] false

/-- The bytes of an offset. -/
def offsetBytes (offset : Nat) : List UInt8 :=
  Integer.inOrder endian (Bytes.ofNat width (Integer.toPattern offset (width * 8)))

/-- The patch of an entry that has left the frame of the entry. -/
def entryPatch (offset : Nat) (path : Path) (depth : Nat) (frame : Record Value) : Deferred :=
  ⟨offset, width, tableOffset width signed endian, .value Expr.blobOffset, path, depth, [frame]⟩

/-- The patches of the entries of a table from an offset on. -/
def TablePatches : Nat → List Deferred → Prop
  | _, [] => True
  | offset, d :: rest =>
      (∃ path depth frame, d = entryPatch width signed endian offset path depth frame ∧
        Record.get? frame "_index" = none) ∧
      TablePatches (offset + width) rest

/-! ## The entries are deferred -/

variable {width signed endian} {e e' : Engine} {defs : Definitions} {outer : Record Value}
  {below : List Frame} {store : LazyStore} {data : List UInt8} {pos : Nat} {blobs : List Value}

private theorem build_tableEntry (small : width ≤ Value.maxSize) {fields : Record Value}
    {queue : List Deferred} {i : Nat} {path : Path} {blob : Record Value}
    (list : Record.get? outer "blobs" = some (.list blobs))
    (unbound : Record.get? fields "_index" = none)
    (index : Record.get? outer "_index" = some (.ofNat i)) (h : i < blobs.length)
    (here : blobs[i] = .container blob) (missing : Record.get? blob "offset1" = none) :
    ((tableEntry width signed endian).codec e defs).build (.container fields) path
        ⟨.growing data pos, ⟨⟨outer, queue⟩, below⟩, store⟩ =
      .ok (.container (fields.insert "off" .none))
        ⟨.growing (Medium.overlay data pos (List.replicate width 0)) (pos + width),
          ⟨⟨outer, queue ++ [entryPatch width signed endian pos (path.member "off")
            (below.length + 1) (fields.insert "off" .none)]⟩, below⟩, store⟩ := by
  have unbound' : Record.get? (fields.insert "off" .none) "_index" = none := by
    rw [Record.get?_insert_of_ne (by decide)]
    exact unbound
  let part : Part := ⟨tableOffset width signed endian,
    (tableOffset width signed endian).codec e defs⟩
  let field : Part := ⟨named "off" (rebuild part.format Expr.blobOffset),
    Codec.rebuild e part Expr.blobOffset⟩
  let frame : Context := ⟨⟨fields, []⟩, ⟨outer, queue⟩ :: below⟩
  let patch : Deferred := ⟨pos, width, tableOffset width signed endian,
    .value Expr.blobOffset, path.member "off", below.length + 1, []⟩
  let written : Stream :=
    .growing (Medium.overlay data pos (List.replicate width 0)) (pos + width)
  obtain ⟨v, input⟩ : ∃ v, Codec.fieldInput fields field "off" (path.member "off")
      ⟨.growing data pos, frame, store⟩ = .ok v ⟨.growing data pos, frame, store⟩ := by
    unfold Codec.fieldInput
    cases Record.get? fields "off" with
    | some v => exact ⟨v, rfl⟩
    | none => exact ⟨.none, rfl⟩
  have reserved : field.build v (path.member "off") ⟨.growing data pos, frame, store⟩ =
      .ok .none ⟨written, ⟨⟨fields, [patch]⟩, ⟨outer, queue⟩ :: below⟩, store⟩ :=
    Run.tagged_of_ok (Codec.rebuild_of_pending v
      (Expr.pending_blobOffset list unbound index h here missing)
      (e.staticSize_const small frame (path.member "off") store))
  -- Leaving the frame of the entry resolves nothing, since the list still lacks the offset.
  have stays : e.resolvePending
      ⟨written, ⟨⟨fields.insert "off" .none, [patch]⟩, ⟨outer, queue⟩ :: below⟩, store⟩ =
      .ok () ⟨written, ⟨⟨fields.insert "off" .none, [patch]⟩, ⟨outer, queue⟩ :: below⟩, store⟩ := by
    refine Engine.resolvePending_of_pending fun d hd => ?_
    obtain rfl := List.mem_singleton.mp hd
    exact Expr.pending_blobOffset list unbound' index h here missing
  have inside : (do
      Codec.buildFields fields path [field]
      e.resolvePending : Run Unit) ⟨.growing data pos, frame, store⟩ =
      .ok () ⟨written, ⟨⟨fields.insert "off" .none, [patch]⟩, ⟨outer, queue⟩ :: below⟩, store⟩ := by
    have fieldsBuilt : Codec.buildFields fields path [field]
        ⟨.growing data pos, frame, store⟩ =
        .ok () ⟨written, ⟨⟨fields.insert "off" .none, [patch]⟩,
          ⟨outer, queue⟩ :: below⟩, store⟩ := by
      have plain : field.format.isEmbedded = false := rfl
      have own : field.name? = some "off" := rfl
      simp only [Codec.buildFields, plain, own, Bool.false_eq_true, if_false]
      rw [Run.bind_of_ok input, Run.bind_of_ok reserved]
      rfl
    rw [Run.bind_of_ok fieldsBuilt, stays]
  have framed := @Run.inFrame_of_ok _ _ fields _ _ ⟨⟨outer, queue⟩, below⟩ _ _ _ _ inside
  exact Run.bind_of_ok framed _

private theorem build_tableEntries (small : width ≤ Value.maxSize) {entries : List Value}
    {queue : List Deferred} {i : Nat} (path : Path)
    (unbound : ∀ x ∈ entries, Lacks "_index" x) (fresh : ∀ b ∈ blobs, Lacks "offset1" b)
    (list : Record.get? outer "blobs" = some (.list blobs))
    (room : i + entries.length ≤ blobs.length) :
    ∃ built outer' patches data',
      Codec.buildElements ⟨tableEntry width signed endian,
          (tableEntry width signed endian).codec e defs⟩ path i entries
          ⟨.growing data pos, ⟨⟨outer, queue⟩, below⟩, store⟩ =
        .ok built ⟨.growing data' (pos + entries.length * width),
          ⟨⟨outer', queue ++ patches⟩, below⟩, store⟩ ∧
      TablePatches width signed endian pos patches ∧ patches.length = entries.length := by
  induction entries generalizing outer queue i data pos with
  | nil =>
      refine ⟨[], outer, [], data, ?_, trivial, rfl⟩
      rw [List.append_nil, List.length_nil, Nat.zero_mul, Nat.add_zero]
      rfl
  | cons entry rest ih =>
      obtain ⟨fields, rfl, own⟩ := unbound entry List.mem_cons_self
      rw [List.length_cons] at room
      have here : i < blobs.length := by omega
      obtain ⟨blob, found, missing⟩ := fresh blobs[i] (List.getElem_mem here)
      let noted : Record Value := outer.insert "_index" (.ofNat i)
      let frame : Record Value := Record.insert fields "off" .none
      let patch := entryPatch width signed endian pos ((path.element i).member "off")
        (below.length + 1) frame
      let written := Medium.overlay data pos (List.replicate width 0)
      have list' : Record.get? noted "blobs" = some (.list blobs) := by
        rw [Record.get?_insert_of_ne (by decide)]
        exact list
      have first : Part.build ⟨tableEntry width signed endian,
          (tableEntry width signed endian).codec e defs⟩ (.container fields) (path.element i)
            ⟨.growing data pos, ⟨⟨noted, queue⟩, below⟩, store⟩ =
          .ok (.container frame) ⟨.growing written (pos + width),
            ⟨⟨noted, queue ++ [patch]⟩, below⟩, store⟩ :=
        Run.tagged_of_ok (build_tableEntry small list' own
          (Record.get?_insert_self outer "_index" (.ofNat i)) here found missing)
      obtain ⟨built, outer', patches, data', later, placed, count⟩ :=
        @ih noted written (pos + width) (queue ++ [patch]) (i + 1)
          (fun x hx => unbound x (List.mem_cons_of_mem _ hx)) list' (by omega)
      have unbound' : Record.get? frame "_index" = none := by
        rw [Record.get?_insert_of_ne (by decide)]
        exact own
      refine ⟨.container frame :: built, outer', patch :: patches, data', ?_,
        ⟨⟨_, _, frame, rfl, unbound'⟩, placed⟩, congrArg (· + 1) count⟩
      have index : Codec.noteIndex i ⟨.growing data pos, ⟨⟨outer, queue⟩, below⟩, store⟩ =
          .ok () ⟨.growing data pos, ⟨⟨noted, queue⟩, below⟩, store⟩ := rfl
      rw [Codec.buildElements, Run.bind_of_ok index, Run.bind_of_ok first, Run.bind_of_ok later,
        List.append_assoc, List.length_cons, Nat.succ_mul, Nat.add_assoc pos, Nat.add_comm width]
      rfl

/-! ## The blobs -/

private theorem rawRecord_of_build {p : Part} {v w : Value} {path : Path} {s s' : State}
    (run : (Codec.rawCopy e p).build v path s = .ok w s') :
    ∃ data inner start stop, w = Codec.rawRecord data inner start stop := by
  obtain ⟨input, s₁, -, run⟩ := Run.bind_eq_ok_iff.mp run
  obtain ⟨start, s₂, -, run⟩ := Run.bind_eq_ok_iff.mp run
  dsimp only at run
  split at run
  · obtain ⟨built, s₃, -, run⟩ := Run.bind_eq_ok_iff.mp run
    obtain ⟨stop, s₄, -, run⟩ := Run.bind_eq_ok_iff.mp run
    obtain ⟨data, s₅, -, run⟩ := Run.bind_eq_ok_iff.mp run
    obtain ⟨rfl, -⟩ := Run.pure_eq_ok_iff.mp run
    exact ⟨data, built, start, stop, rfl⟩
  · cases bytes : (input.get? "data").bind Value.bytes? with
    | none =>
        simp only [bytes] at run
        cases run
    | some data =>
        simp only [bytes] at run
        obtain ⟨_, s₃, -, run⟩ := Run.bind_eq_ok_iff.mp run
        obtain ⟨stop, s₄, -, run⟩ := Run.bind_eq_ok_iff.mp run
        obtain ⟨⟨parsed, _⟩, s₅, -, run⟩ := Run.bind_eq_ok_iff.mp run
        obtain ⟨rfl, -⟩ := Run.pure_eq_ok_iff.mp run
        exact ⟨data, parsed, start, stop, rfl⟩

private theorem build_blobs {p : Part} {t : Traits} {path : Path} {i : Nat} {ws : List Value}
    {s s' : State} (steady : (Codec.rawCopy e p).Steady t) (free : t.free)
    (run : Codec.buildElements ⟨rawCopy p.format, Codec.rawCopy e p⟩ path i blobs s =
      .ok ws s') :
    ws.length = blobs.length ∧
      (∀ w ∈ ws, ∃ data inner start stop, w = Codec.rawRecord data inner start stop) ∧
      s'.context.below = s.context.below ∧
      s'.context.top.deferred = s.context.top.deferred ∧
      s.stream.Alike s'.stream ∧
      (t.still → 0 < blobs.length →
        s'.context.index? = some (.ofNat (i + blobs.length - 1))) := by
  induction blobs generalizing i s ws with
  | nil =>
      obtain ⟨rfl, rfl⟩ := Run.pure_eq_ok_iff.mp run
      exact ⟨rfl, by simp, rfl, rfl, Stream.Alike.refl _, by simp⟩
  | cons b rest ih =>
      let noted : State := { s with context := s.context.insert "_index" (.ofNat i) }
      have index : Codec.noteIndex i s = .ok () noted := rfl
      rw [Codec.buildElements, Run.bind_of_ok index] at run
      obtain ⟨w, s₁, here, run⟩ := Run.bind_eq_ok_iff.mp run
      obtain ⟨others, s₂, later, run⟩ := Run.bind_eq_ok_iff.mp run
      obtain ⟨rfl, rfl⟩ := Run.pure_eq_ok_iff.mp run
      obtain ⟨count, raw, below, queue, alike, last⟩ := ih later
      have alone := Part.build_eq_ok_iff.mp here
      obtain ⟨grown, alike'⟩ := (steady.build b (path.element i) noted.context
        (Context.anchors_element path i)).of_ok (Context.Grows.refl _) alone
      obtain ⟨new, queued, -, none⟩ := grown.queue
      refine ⟨congrArg (· + 1) count, ?_, below.trans grown.below, ?_, alike'.trans alike, ?_⟩
      · intro x hx
        rcases List.mem_cons.mp hx with rfl | hx
        · exact rawRecord_of_build alone
        · exact raw x hx
      · rw [queue, queued, none free, List.append_nil]
        rfl
      · intro still _
        by_cases more : 0 < rest.length
        · rw [last still more, List.length_cons]
          congr 2
          omega
        · obtain rfl : rest = [] := List.eq_nil_of_length_eq_zero (by omega)
          obtain ⟨-, rfl⟩ := Run.pure_eq_ok_iff.mp later
          rw [grown.index still]
          exact Record.get?_insert_self _ _ _

/-! ## The patches are applied -/

private theorem length_offsetBytes (width : Nat) (endian : Endian) (offset : Nat) :
    (offsetBytes width endian offset).length = width := by
  rw [offsetBytes, Integer.length_inOrder, Bytes.length_ofNat]

private theorem build_tableOffset {offset place : Nat} {path : Path} {ctx : Context} {built : Value}
    {s' : State} (positive : 1 ≤ width) (narrow : width ≤ 16)
    (run : ((tableOffset width signed endian).codec e defs).build (.ofNat offset) path
      ⟨.growing data place, ctx, store⟩ = .ok built s') :
    s' = ⟨.growing (Medium.overlay data place (offsetBytes width endian offset))
      (place + width), ctx, store⟩ := by
  have room : width ≤ Value.maxSize := Nat.le_trans narrow (by decide)
  simp only [tableOffset, codec, Codec.integer] at run
  rw [Run.bind_of_ok (Codec.evalSize_const e path _ room),
    Codec.checkWidth_of_le positive narrow, Run.bind_ofExcept_ok, Run.bind_eq_ok_iff] at run
  obtain ⟨n, s₁, number, run⟩ := run
  obtain ⟨number, rfl⟩ := Run.ofExcept_eq_ok_iff.mp number
  obtain ⟨pattern, s₂, checked, run⟩ := Run.bind_eq_ok_iff.mp run
  obtain ⟨checked, rfl⟩ := Run.ofExcept_eq_ok_iff.mp checked
  obtain rfl : (offset : Int) = n := by
    cases number
    rfl
  obtain rfl : Integer.toPattern offset (width * 8) = pattern := by
    unfold Integer.checkedPattern at checked
    split at checked <;> cases checked
    rfl
  rw [Run.bind_of_ok (Run.write_growing _)] at run
  obtain ⟨-, rfl⟩ := Run.pure_eq_ok_iff.mp run
  have length := length_offsetBytes width endian offset
  rw [offsetBytes] at length ⊢
  rw [length]

/-- The patches of a table have left the frames of their entries, so none of them is noted. -/
private theorem keeps_tablePatches {patches : List Deferred} {place : Nat} {ctx : Context}
    (runs : ∀ f v path, e.build f v path = (f.codec e' defs).build v path)
    (placed : TablePatches width signed endian place patches) :
    (e.applyPatches false patches).Keeps (· = ctx) := by
  induction patches generalizing place with
  | nil => exact Run.keeps_pure
  | cons d rest ih =>
      obtain ⟨⟨path, depth, frame, rfl, -⟩, placed⟩ := placed
      have entry : ∀ v path,
        (e.build (tableOffset width signed endian) v path).Keeps (· = ctx) := by
        intro v path
        rw [runs]
        exact .bind e'.keeps_evalSize fun _ => .bind Run.keeps_ofExcept fun _ =>
          .bind Run.keeps_ofExcept fun _ => .bind Run.keeps_ofExcept fun _ =>
          .bind Run.keeps_write fun _ => Run.keeps_pure
      unfold Engine.applyPatches
      refine .bind Run.keeps_context fun _ => .bind Run.keeps_lookup.outcome fun found => ?_
      cases found with
      | ok value =>
          refine .bind (.bind Run.keeps_tell fun _ => .bind Run.keeps_seek fun _ =>
            .bind (entry _ _) fun built => .bind Run.keeps_tell fun _ =>
            .bind Run.keeps_goTo fun _ => Run.keeps_guard ?_) fun _ => ih placed
          refine Run.keeps_modify fun now same => ?_
          rw [Context.noted_of_left (by simp [entryPatch])]
          exact same
      | error failure =>
          exact Run.keeps_ite (.bind (ih placed) fun _ => Run.keeps_pure) Run.keeps_throw

private theorem take_overlay_next {place : Nat} (bytes : List UInt8)
    (before : (data.take place).length = place) :
    (Medium.overlay data place bytes).take (place + bytes.length) = data.take place ++ bytes := by
  have room : place ≤ data.length := by
    rw [List.length_take] at before
    omega
  have full : (data.take place ++ bytes).length = place + bytes.length := by
    rw [List.length_append, before]
  rw [Medium.overlay, Nat.sub_eq_zero_of_le room, List.replicate_zero, List.append_nil, ← full,
    List.take_left]

private theorem apply_tablePatches {patches unresolved : List Deferred} {place offset : Nat}
    {ctx : Context} {s' : State} (positive : 1 ≤ width) (narrow : width ≤ 16)
    (runs : ∀ f v path, e.build f v path = (f.codec e' defs).build v path)
    (known : ∀ frame path, Record.get? frame "_index" = none →
      Expr.blobOffset.evaluate e.resolver ⟨frame :: ctx.frames, none, none⟩ path store =
        .ok (.ofNat offset) store)
    (placed : TablePatches width signed endian place patches)
    (before : (data.take place).length = place)
    (run : e.applyPatches false patches ⟨.growing data pos, ctx, store⟩ = .ok unresolved s') :
    unresolved = [] ∧ ∃ data', s' = ⟨.growing data' pos, ctx, store⟩ ∧
      data'.take (place + patches.length * width) = data.take place ++
        (List.replicate patches.length (offsetBytes width endian offset)).flatten := by
  induction patches generalizing data place unresolved with
  | nil =>
      obtain ⟨rfl, rfl⟩ := Run.pure_eq_ok_iff.mp run
      exact ⟨rfl, data, rfl, by simp⟩
  | cons d rest ih =>
      obtain ⟨⟨path, depth, frame, rfl, unbound⟩, placed⟩ := placed
      rw [Engine.applyPatches_of_value
        (d := entryPatch width signed endian place path depth frame)
        (s := ⟨.growing data pos, ctx, store⟩) (known frame path unbound)] at run
      obtain ⟨_, s₁, applied, run⟩ := Run.bind_eq_ok_iff.mp run
      obtain ⟨reached, s₂, built, s₃, sought, made, -, rfl⟩ := Engine.applyPatch_of_ok applied
      obtain rfl := Run.seek_growing sought
      rw [runs] at made
      obtain rfl := build_tableOffset positive narrow made
      have entry := length_offsetBytes width endian offset
      have next := take_overlay_next (offsetBytes width endian offset) before
      rw [entry] at next
      have done : ((Medium.overlay data place (offsetBytes width endian offset)).take
          (place + width)).length = place + width := by
        rw [next, List.length_append, before, entry]
      rw [Context.noted_of_left (by simp [entryPatch])] at run
      obtain ⟨rfl, data', rfl, last⟩ := ih placed done run
      refine ⟨rfl, data', rfl, ?_⟩
      rw [List.length_cons, Nat.succ_mul, Nat.add_comm _ width, ← Nat.add_assoc, last, next,
        List.replicate_succ, List.flatten_cons, List.append_assoc]

/-! ## The whole table -/

private theorem entry_of_replicate {count i : Nat} {entry : List UInt8} (own : entry.length = width)
    (table : data.take (count * width) = (List.replicate count entry).flatten) (h : i < count) :
    (data.drop (i * width)).take width = entry := by
  have inside : (i + 1) * width ≤ count * width := Nat.mul_le_mul_right width h
  have split : List.replicate count entry =
      List.replicate i entry ++ entry :: List.replicate (count - (i + 1)) entry := by
    rw [← List.replicate_succ, List.replicate_append_replicate]
    congr 1
    omega
  have before : ((List.replicate i entry).flatten).length = i * width := by
    simp [own]
  have cut : (data.drop (i * width)).take width =
      ((data.take (count * width)).drop (i * width)).take width := by
    rw [List.drop_take, List.take_take, Nat.min_eq_left]
    rw [Nat.succ_mul] at inside
    omega
  rw [cut, table, split, List.flatten_append, List.flatten_cons, ← before, List.drop_left, ← own,
    List.take_left]

private theorem buildElements_of_array {p : Part} {count : Nat} {discard : Bool}
    {items : List Value}
    {w : Value} {path : Path} {s s' : State}
    (run : (Codec.array e (.const (.int count)) p discard).build (.list items) path s =
      .ok w s') :
    items.length = count ∧ ∃ ws, w = .list ws ∧
      Codec.buildElements p path 0 items s = .ok ws s' := by
  obtain ⟨n, s₁, known, run⟩ := Run.bind_eq_ok_iff.mp run
  obtain ⟨eq, -, rfl⟩ := (e.evalSize_eq_ok_iff (Engine.sees_const s _)).mp known
  obtain rfl : count = n := by omega
  obtain ⟨given, s₂, taken, run⟩ := Run.bind_eq_ok_iff.mp run
  obtain ⟨rfl, rfl⟩ := Run.pure_eq_ok_iff.mp taken
  obtain ⟨counted, run⟩ := Run.guard_eq_ok_iff.mp run
  obtain ⟨ws, s₃, elements, run⟩ := Run.bind_eq_ok_iff.mp run
  obtain ⟨rfl, rfl⟩ := Run.pure_eq_ok_iff.mp run
  exact ⟨Decidable.not_not.mp counted, ws, rfl, elements⟩

/-- Where a raw copy says that it starts. -/
def start? : Value → Option Value
  | .container fields => Record.get? fields "offset1"
  | _ => none

private theorem container_of_start {v x : Value} (h : start? v = some x) :
    ∃ fields, v = .container fields ∧ Record.get? fields "offset1" = some x := by
  cases v with
  | container fields => exact ⟨fields, rfl, h⟩
  | _ => cases h

private theorem starts_of_raw (raw : ∀ w ∈ blobs, ∃ data inner start stop,
    w = Codec.rawRecord data inner start stop) :
    ∃ offsets : Nat → Nat, ∀ i (h : i < blobs.length),
      start? blobs[i] = some (.ofNat (offsets i)) := by
  refine ⟨fun i => (((start? (blobs.getD i .none)).bind Value.int?).getD 0).toNat,
    fun i h => ?_⟩
  obtain ⟨data, v, start, stop, eq⟩ := raw blobs[i] (List.getElem_mem h)
  have known : start? blobs[i] = some (.ofNat start) := by
    rw [eq]
    rfl
  simp [h, known, Value.ofNat, Value.int?]

/-- Every entry of a table of offsets is the offset of one and the same blob: that whose index
was noted last. -/
private theorem offsetTable_of_buildBytes {count : Nat} {blob : Format}
    {input params : Record Value}
    {entries given : List Value} {built : Value} {s : State} (positive : 1 ≤ width)
    (narrow : width ≤ 16) (free : blob.PatchFree)
    (own : Record.get? input "entries" = some (.list entries))
    (unbound : ∀ x ∈ entries, Lacks "_index" x)
    (list : Record.get? input "blobs" = some (.list given))
    (fresh : ∀ b ∈ given, Lacks "offset1" b)
    (run : (offsetTable width signed endian count blob).buildBytes (.ofDefinitions defs)
      (.container input) params store = .ok built s) :
    ∃ (frame : Record Value) (blobs : List Value) (offsets : Nat → Nat),
      built = .container frame ∧ Record.get? frame "blobs" = some (.list blobs) ∧
      blobs.length = count ∧
      (∀ i (h : i < blobs.length), start? blobs[i] = some (.ofNat (offsets i))) ∧
      (blob.Still → 0 < count → Record.get? frame "_index" = some (.ofNat (count - 1))) ∧
      ∀ j < count, Record.get? frame "_index" = some (.ofNat j) → ∀ i < count,
        (s.stream.data.drop (i * width)).take width = offsetBytes width endian (offsets j) := by
  obtain ⟨s₁, run, resolved⟩ := build_of_buildBytes run
  simp only [offsetTable, codec, parts, Codec.struct] at run
  obtain ⟨fields, s₂, taken, run⟩ := Run.bind_eq_ok_iff.mp run
  obtain ⟨rfl, rfl⟩ := Run.pure_eq_ok_iff.mp taken
  obtain ⟨⟨_, frame⟩, s₃, framed, run⟩ := Run.bind_eq_ok_iff.mp run
  obtain ⟨rfl, rfl⟩ := Run.pure_eq_ok_iff.mp run
  obtain ⟨s₄, inside, left, popped⟩ := Run.ok_of_inFrame framed
  obtain ⟨_, s₅, fieldsBuilt, settled⟩ := Run.bind_eq_ok_iff.mp inside
  obtain ⟨first, s₆, entriesBuilt, fieldsBuilt⟩ := buildFields_of_given rfl rfl own fieldsBuilt
  obtain ⟨second, s₇, blobsBuilt, fieldsBuilt⟩ := buildFields_of_given rfl rfl list fieldsBuilt
  obtain ⟨-, rfl⟩ := Run.pure_eq_ok_iff.mp fieldsBuilt
  obtain ⟨rfl, ws₁, rfl, entriesRun⟩ :=
    buildElements_of_array (Part.build_eq_ok_iff.mp entriesBuilt)
  obtain ⟨counted, blobs, rfl, blobsRun⟩ :=
    buildElements_of_array (Part.build_eq_ok_iff.mp blobsBuilt)
  have room : width ≤ Value.maxSize := Nat.le_trans narrow (by decide)
  obtain ⟨ws, outer, patches, data, forward, placed, queued⟩ :=
    @build_tableEntries width signed endian (inner defs) defs input [⟨params, []⟩] store [] 0
      given room entries [] 0 (Path.this.member "entries") unbound fresh list (by omega)
  cases entriesRun.symm.trans forward
  have steady : (Codec.rawCopy (inner defs) ⟨blob, blob.codec (inner defs) defs⟩).Steady
      ⟨False, False, True, blob.Still⟩ :=
    steady_codec (Engine.steady_level defs _) defs _ (rawCopy blob)
      ⟨False.elim, False.elim, fun _ => ⟨trivial, free⟩, id⟩
  obtain ⟨length, raw, below, queue, alike, last⟩ := build_blobs steady trivial blobsRun
  obtain ⟨stream, ⟨⟨values, deferred⟩, rest⟩, store'⟩ := s₇
  obtain ⟨data', pos, rfl⟩ := Stream.growing_of_alike alike
  obtain rfl : deferred = patches := queue
  obtain rfl : rest = [⟨params, []⟩] := below
  obtain ⟨offsets, starts⟩ := starts_of_raw raw
  let ctx : Context := ⟨⟨Record.insert values "blobs" (.list blobs), []⟩, [⟨params, []⟩]⟩
  have applying : ((inner defs).applyPatches false deferred >>= fun unresolved =>
      Run.modifyContext fun ctx => ctx.withDeferred (ctx.top.deferred ++ unresolved))
      ⟨.growing data' pos, ctx, store'⟩ = .ok () s₄ := settled
  obtain ⟨unresolved, s₈, applied, queued'⟩ := Run.bind_eq_ok_iff.mp applying
  -- The patches have left the frames of their entries, so applying them notes nothing.
  have same : s₈.context = ctx :=
    ((keeps_tablePatches (fun _ _ _ => rfl) placed).of_ok (P := (· = ctx)) rfl applied).1
  cases queued'
  have shown : frame = Record.insert values "blobs" (.list blobs) := left.trans (by
    simp only [Context.innermost, Context.withDeferred, same]
    rfl)
  have index : Record.get? frame "_index" = Record.get? values "_index" := by
    rw [shown, Record.get?_insert_of_ne (by decide)]
  refine ⟨frame, blobs, offsets, rfl, ?_, by omega, starts, fun still some => ?_,
    fun j h noted i here => ?_⟩
  · rw [shown]
    exact Record.get?_insert_self _ _ _
  · have noted := last still (by omega)
    rw [Nat.zero_add, counted] at noted
    rw [index]
    exact noted
  · rw [index] at noted
    -- Every entry asks for the blob at the index that this frame holds, whichever entry it is.
    have known : ∀ frame path, Record.get? frame "_index" = none →
        Expr.blobOffset.evaluate (inner defs).resolver ⟨frame :: ctx.frames, none, none⟩ path
          store' = .ok (.ofNat (offsets j)) store' := by
      intro frame path unbound'
      have within : j < blobs.length := by omega
      obtain ⟨fields, container, offset⟩ := container_of_start (starts _ within)
      refine Expr.evaluate_blobOffset (Record.get?_insert_self _ _ _) unbound' ?_ within
        container offset
      rw [Record.get?_insert_of_ne (by decide)]
      exact noted
    obtain ⟨rfl, data'', rfl, table⟩ := apply_tablePatches positive narrow (fun _ _ _ => rfl)
      known placed rfl applied
    rw [popped, Engine.resolveSince_of_empty rfl] at resolved
    cases resolved
    rw [Nat.zero_add, queued] at table
    exact entry_of_replicate (length_offsetBytes width endian _) table here

/-! ## Which index is seen -/

/-- A deferred expression keeps the frames that it was registered under, wherever its patch
moves, but not the index of its element: it sees the one that the nearest frame holds when
the patch is applied.  A repetition is built as a run over its elements; behind it that is the
index of the last element, and a table of offsets repeats the offset of the blob that it belongs
to. -/
theorem scope_of_deferred (defs : Definitions) :
    (∀ (ctx : Context) (d : Deferred), ctx.below ≠ [] →
      ctx.pop.scopeOf { d with scopes := ctx.top.values :: d.scopes } = ctx.scopeOf d) ∧
    (∀ (ctx : Context) (d : Deferred) (i : Nat),
      (∀ frame ∈ d.scopes, Record.get? frame "_index" = none) →
      (ctx.SeesIndex d i ↔ Context.nearestIndex? ctx.frames = some (.ofNat i))) ∧
    (∀ (n : Nat) (of f : Format) (v w : Value) (path : Path) (s s' : State), Repeats of f →
      (f.codec (.level defs n) defs).build v path s = .ok w s' →
      ∃ items s₀ us ws s₁ store, Prepares (.level defs n) defs v path f s items s₀ ∧
        us <+: items ∧ w = .list ws ∧ s' = { s₁ with store := store } ∧
        ElementRuns ⟨of, of.codec (.level defs n) defs⟩ path 0 s₀ us ws s₁ ∧
        KeepsPatches ⟨of, of.codec (.level defs n) defs⟩ path us ws s₀ s₁) ∧
    ∀ (width : Nat) (signed : Bool) (endian : Endian) (count : Nat) (blob : Format)
      (input params : Record Value) (store : LazyStore) (entries given : List Value)
      (built : Value) (s : State), 1 ≤ width → width ≤ 16 → blob.PatchFree →
      Record.get? input "entries" = some (.list entries) →
      (∀ x ∈ entries, Lacks "_index" x) →
      Record.get? input "blobs" = some (.list given) →
      (∀ b ∈ given, Lacks "offset1" b) →
      (offsetTable width signed endian count blob).buildBytes (.ofDefinitions defs)
        (.container input) params store = .ok built s →
      ∃ (frame : Record Value) (blobs : List Value) (offsets : Nat → Nat),
        built = .container frame ∧ Record.get? frame "blobs" = some (.list blobs) ∧
        blobs.length = count ∧
        (∀ i (h : i < blobs.length), start? blobs[i] = some (.ofNat (offsets i))) ∧
        (blob.Still → 0 < count → Record.get? frame "_index" = some (.ofNat (count - 1))) ∧
        ∀ j < count, Record.get? frame "_index" = some (.ofNat j) → ∀ i < count,
          (s.stream.data.drop (i * width)).take width =
            offsetBytes width endian (offsets j) := by
  refine ⟨fun ctx d inner => Context.scopeOf_pop inner d,
    fun ctx d i unbound => Context.seesIndex_iff unbound,
    fun n of f v w path s s' repeats run => keepsPatches_of_build repeats run, ?_⟩
  intro width signed endian count blob input params store entries given built s positive narrow
    free own unbound list fresh run
  exact offsetTable_of_buildBytes positive narrow free own unbound list fresh run

/-- Two octets behind a table of their offsets. -/
def octetTable : Format := offsetTable 1 false .big 2 (integer (.const (.int 1)) false .big)

/-- What `octetTable` is built from here. -/
def octetInput : Record Value :=
  [("entries", .list [.container [], .container []]),
    ("blobs", .list [.container [("value", .int 1)], .container [("value", .int 2)]])]

private theorem octetTable_bytes : Run.left? (octetTable.buildBytes (.ofDefinitions [])
    (.container octetInput) [] .empty) = some ([3, 3, 1, 2], 4) := by
  decide +kernel

theorem scope_of_deferred_octets :
    ∃ frame s, octetTable.buildBytes (.ofDefinitions []) (.container octetInput) [] .empty =
        .ok (.container frame) s ∧
      Record.get? frame "_index" = some (.ofNat 1) ∧
      ∃ last, ∀ i < 2, (s.stream.data.drop (i * 1)).take 1 = offsetBytes 1 .big last := by
  obtain ⟨w, s, run, -, -⟩ := Run.ok_of_left? octetTable_bytes
  have lacks : ∀ name : String, ∀ x ∈ [Value.container [], Value.container []],
      Lacks name x := by
    intro name x hx
    simp only [List.mem_cons, List.not_mem_nil, or_false, or_self] at hx
    exact ⟨[], hx, rfl⟩
  have fresh : ∀ b ∈ [Value.container [("value", .int 1)], Value.container [("value", .int 2)]],
      Lacks "offset1" b := by
    intro b hb
    simp only [List.mem_cons, List.not_mem_nil, or_false] at hb
    rcases hb with rfl | rfl <;> exact ⟨_, rfl, by decide⟩
  obtain ⟨frame, blobs, offsets, rfl, -, -, -, last, entries⟩ :=
    (scope_of_deferred []).2.2.2 1 false .big 2 (integer (.const (.int 1)) false .big)
      octetInput [] .empty _ _ w s (by decide) (by decide) trivial rfl (lacks "_index") rfl fresh
      run
  have index := last trivial (by decide)
  exact ⟨frame, s, run, index, offsets 1, entries 1 (by decide) index⟩

/-- Where the first blob of a table starts. -/
def firstStart? : Value → Option Int
  | .container fields =>
    match Record.get? fields "blobs" with
    | some (.list (blob :: _)) => (start? blob).bind Value.int?
    | _ => none
  | _ => none

/-- The first entry of a table of two is not the offset of the first blob. -/
theorem octetTable_first_entry :
    (match octetTable.buildBytes (.ofDefinitions []) (.container octetInput) [] .empty with
      | .ok w s => (firstStart? w).map fun start => (start, s.stream.data.take 1)
      | .error _ _ => none) = some (2, [3]) ∧
    offsetBytes 1 .big 2 ≠ [3] := by
  refine ⟨by decide +kernel, by decide +kernel⟩

end Format

end BinaryFormat
