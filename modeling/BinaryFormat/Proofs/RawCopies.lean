import BinaryFormat.Proofs.Attempts
import BinaryFormat.Proofs.Legible
import BinaryFormat.Proofs.Regions

/-!
# Raw copies of what is built

A raw copy notes the bytes of its component when that has been built.  They are
the bytes that stand there in the end, unless a patch that is still pending lies
among them or something behind goes back: the component may have left zeros for
a patch of a structure around it.
-/

namespace BinaryFormat

open Run

/-! ## On the way to a component -/

/-- A format that is built, with the engine of a level. -/
structure Site where
  level : Nat
  format : Format
  value : Value
  path : Path
  state : State

/-- What is built at a site. -/
def Site.build (defs : Definitions) (site : Site) : EStateM.Result Failure State Value :=
  (site.format.codec (.level defs site.level) defs).build site.value site.path site.state

/-- Building the first format comes down to building the second one, in the same place: what is
done before does not write, and what is done behind writes no other format. -/
inductive Hands (e : Engine) (defs : Definitions) :
    Format → Value → Path → State → Format → Value → State → Prop
  | named {name : String} {of : Format} {v : Value} {path : Path} {s : State} :
      Hands e defs (.named name of) v path s of v s
  | documented {docs : String} {of : Format} {v : Value} {path : Path} {s : State} :
      Hands e defs (.documented docs of) v path s of v s
  | embedded {of : Format} {v : Value} {path : Path} {s : State} :
      Hands e defs (.embedded of) v path s of v s
  | lazyStruct {fields : List Format} {v : Value} {path : Path} {s : State} :
      Hands e defs (.lazyStruct fields) v path s (.struct fields false) v s
  | lazySequence {items : List Format} {v : Value} {path : Path} {s : State} :
      Hands e defs (.lazySequence items) v path s (.sequence items) v s
  | lazyArray {count : Expr} {of : Format} {v : Value} {path : Path} {s : State} :
      Hands e defs (.lazyArray count of) v path s (.array count of false) v s
  | lazyRange {least most : Expr} {of : Format} {v : Value} {path : Path} {s : State} :
      Hands e defs (.lazyRange least most of) v path s (.range least most of false) v s
  | constant {of : Format} {value v : Value} {path : Path} {s : State} :
      Hands e defs (.constant of value) v path s of value s
  | fallback {of : Format} {value v : Value} {path : Path} {s : State} :
      Hands e defs (.fallback of value) v path s of (if v.isNone then value else v) s
  | rebuild {of : Format} {expr : Expr} {u v : Value} {path : Path} {s s₁ : State}
      (known : e.eval expr path s = .ok u s₁) : Hands e defs (.rebuild of expr) v path s of u s₁
  | checksum {of : Format} {hash : Hash} {data : Expr} {input u v : Value} {path : Path}
      {s s₁ : State} (known : e.eval data path s = .ok input s₁)
      (digested : Checksum.digest hash input = .ok u) :
      Hands e defs (.checksum of hash data) v path s of u s₁
  | converted {of : Format} {conversion : Conversion} {u v : Value} {path : Path} {s : State}
      (encoded : conversion.encode v = .ok u) :
      Hands e defs (.converted of conversion) v path s of u s
  | convertedIn {of : Format} {conversion : ScopedConversion} {u v : Value} {path : Path}
      {s : State} (encoded : conversion.encode s.context.scope path v = .ok u) :
      Hands e defs (.convertedIn of conversion) v path s of u s
  | convertedBy {of : Format} {decode encode : Expr} {u v : Value} {path : Path} {s s₁ : State}
      (encoded : e.evalOver encode v path s = .ok u s₁) :
      Hands e defs (.convertedBy of decode encode) v path s of u s₁
  | validated {of : Format} {rule : Rule} {v : Value} {path : Path} {s s₁ : State}
      (valid : Codec.validate e rule v path s = .ok () s₁) :
      Hands e defs (.validated of rule) v path s of v s₁
  | label {of : Format} {labels : List (String × Int)} {unlabelled : Unlabelled} {label : String}
      {n : Int} {path : Path} {s : State} (number : Codec.numberOf? labels label = some n) :
      Hands e defs (.labelled of labels unlabelled) (.str label) path s of (.int n) s
  | number {of : Format} {labels : List (String × Int)} {unlabelled : Unlabelled} {n : Int}
      {path : Path} {s : State} :
      Hands e defs (.labelled of labels unlabelled) (.int n) path s of (.int n) s
  | mapped {of : Format} {table : List (Value × Value)} {u v : Value} {path : Path} {s s₁ : State}
      (found : Codec.findPair e v (table.map fun (shown, raw) => (raw, shown)) s =
        .ok (some u) s₁) :
      Hands e defs (.mapped of table) v path s of u s₁
  | flagSet {of : Format} {flags : List (String × Nat)} {strict : Bool} {raw : Nat} {v : Value}
      {path : Path} {s : State} (bits : Codec.flagBits flags v = .ok raw) :
      Hands e defs (.flagSet of flags strict) v path s of (.ofNat raw) s
  | delimited {of : Format} {delimiter : Delimiter} {v : Value} {path : Path} {s : State} :
      Hands e defs (.delimited of delimiter) v path s of v s
  | stripped {of : Format} {pad : List UInt8} {v : Value} {path : Path} {s : State} :
      Hands e defs (.stripped of pad) v path s of v s
  | rawCopy {of : Format} {input : Record Value} {u v : Value} {path : Path} {s s₁ : State}
      (given : e.containerInput v path s = .ok input s₁)
      (value : Record.get? input "value" = some u)
      (present : u.isNone = false) : Hands e defs (.rawCopy of) v path s of u s₁
  | padded {length : Expr} {of : Format} {fill : Fill} {n : Nat} {v : Value} {path : Path}
      {s s₁ : State} (sized : e.evalSize length path s = .ok n s₁) :
      Hands e defs (.padded length of fill) v path s of v s₁
  | aligned {modulus : Expr} {of : Format} {fill : Fill} {n : Nat} {v : Value} {path : Path}
      {s s₁ : State} (multiple : Codec.evalModulus e modulus path s = .ok n s₁) :
      Hands e defs (.aligned modulus of fill) v path s of v s₁
  | branch {condition : Expr} {yes no : Format} {holds : Bool} {v : Value} {path : Path}
      {s s₁ : State} (decided : e.evalHolds condition path s = .ok holds s₁) :
      Hands e defs (.branch condition yes no) v path s (if holds then yes else no) v s₁
  | switch {key : Expr} {cases : List (Value × Format)} {otherwise : Option Format} {p : Part}
      {v : Value} {path : Path} {s s₁ : State}
      (chosen : Run.lookup (Codec.chooseCase e.resolver key (Format.casesOf e defs cases)
        (Format.partIf e defs otherwise) s.context.scope path) s = .ok p s₁) :
      Hands e defs (.switch key cases otherwise) v path s p.format v s₁
  | prefixedText {length : Format} {encoding : Encoding} {data : List UInt8} {v : Value}
      {path : Path} {s : State} (encoded : TextField.encode encoding v = .ok data) :
      Hands e defs (.prefixedText length encoding) v path s length (.ofNat data.length) s
  | prefixed {length of : Format} {inclusive lenient : Bool} {data : List UInt8} {own : Nat}
      {built v : Value} {path : Path} {s s₁ s₂ : State}
      (payload : (of.codec e defs).buildScratch v path s = .ok (built, data) s₁)
      (overhead : Codec.overhead ⟨length, length.codec e defs⟩ inclusive path s₁ = .ok own s₂) :
      Hands e defs (.prefixed length of inclusive lenient) v path s length
        (.ofNat (Size.add data.length own)) s₂

/-- The run succeeds, and what is written when it has ended is still there in a later state. -/
def Run.LastsTo {α : Type} (x : Run α) (s s' : State) : Prop :=
  ∃ a s₁, x s = .ok a s₁ ∧ ∀ r, s₁.Holds r → s'.Holds r

namespace Run

variable {α β : Type} {x : Run α} {s s₁ s' : State}

private theorem lastsTo_of_ok {a : α} (run : x s = .ok a s') : x.LastsTo s s' :=
  ⟨a, s', run, fun _ holds => holds⟩

private theorem LastsTo.trans (h : x.LastsTo s s₁) (later : ∀ r, s₁.Holds r → s'.Holds r) :
    x.LastsTo s s' := by
  obtain ⟨a, s₂, run, lasts⟩ := h
  exact ⟨a, s₂, run, fun r holds => later r (lasts r holds)⟩

private theorem LastsTo.of_part {p : Part} {v : Value} {path : Path}
    (h : (p.build v path).LastsTo s s') : (p.codec.build v path).LastsTo s s' := by
  obtain ⟨a, s₁, run, lasts⟩ := h
  exact ⟨a, s₁, Part.build_eq_ok_iff.mp run, lasts⟩

/-- Nothing behind the first part of a run writes to where something stands. -/
private theorem lastsTo_of_bind {f : α → Run β} {b : β} (run : (x >>= f) s = .ok b s')
    (later : ∀ a r, (f a).Preserves r) : x.LastsTo s s' := by
  obtain ⟨a, s₁, first, rest⟩ := bind_eq_ok_iff.mp run
  exact ⟨a, s₁, first, fun r holds => later a r s₁ b s' holds rest⟩

private theorem Keeps.alike {a : α} (h : x.Keeps fun _ => True) (run : x s = .ok a s') :
    s.stream.Alike s'.stream := (h.of_ok trivial run).2

end Run

private theorem Codec.preserves_copySince {r : Region} (offset : Nat) (path : Path) :
    (copySince offset path).Preserves r := by
  intro s data s' holds run
  obtain ⟨stream, ctx, store⟩ := s
  cases stream with
  | view v outer => cases holds.flat
  | medium m =>
      have reads : Run.read (Size.sub m.pos offset) path
          ⟨.medium { m with pos := offset }, ctx, store⟩ = .ok data s' := run
      have reaches := Size.le_add_of_sub_eq (Eq.refl (Size.sub m.pos offset))
      unfold Run.read at reads
      dsimp only at reads
      split at reads
      · rename_i count
        cases reads
        have taken : (Medium.upTo (some (Size.sub m.pos offset))
            (Medium.rest { m with pos := offset })).length = Size.sub m.pos offset := count
        have behind : r.stop ≤ m.pos := holds.behind
        refine ⟨holds.growable, rfl, ?_, holds.bytes, holds.clear⟩
        change r.stop ≤ offset + _
        rw [taken]
        omega
      · cases reads

private theorem Format.codec_of_mem_casesOf {e : Engine} {defs : Definitions}
    {cases : List (Value × Format)} {p : Part}
    (mem : p ∈ (casesOf e defs cases).map Prod.snd) : p.codec = p.format.codec e defs := by
  induction cases with
  | nil => cases mem
  | cons entry rest ih =>
      rcases List.mem_cons.mp mem with rfl | mem
      · rfl
      · exact ih mem

private theorem Format.codec_of_partIf {e : Engine} {defs : Definitions} {otherwise : Option Format}
    {p : Part} (found : partIf e defs otherwise = some p) : p.codec = p.format.codec e defs := by
  cases otherwise with
  | none => cases found
  | some f =>
      cases found
      rfl

variable {e : Engine} {defs : Definitions}

/-- What a component wrote is still there when the format around it is built. -/
private theorem Hands.lasts {f of : Format} {u v w : Value} {path : Path} {s s₁ s' : State}
    (h : Hands e defs f v path s of u s₁) (run : (f.codec e defs).build v path s = .ok w s') :
    s.stream.Alike s₁.stream ∧ ((of.codec e defs).build u path).LastsTo s₁ s' := by
  -- Most of them only show another value, or write bytes of their own behind the component.
  have shown (v : Value) (_ : Value) (r : Region) : (pure v : Run Value).Preserves r :=
    preserves_pure
  have wrote (bytes : List UInt8) (v : Value) (r : Region) : (do
      Run.write bytes path
      return v : Run Value).Preserves r := (Codec.confined_units).preserves
  cases h with
  | named | documented | embedded | lazyStruct | lazySequence | lazyArray | lazyRange | constant
    | fallback | stripped => exact ⟨.refl _, lastsTo_of_ok run⟩
  | rebuild known =>
      have run := rest_of_bind (outcome_of_ok known) run
      exact ⟨Keeps.alike e.keeps_eval known, lastsTo_of_ok run⟩
  | @checksum _ hash data input _ _ _ _ _ known digested =>
      have computed : (e.eval data path >>= fun input =>
          Run.ofExcept path (Checksum.digest hash input)) s = .ok u s₁ := by
        rw [bind_of_ok known, digested]
        rfl
      have run := rest_of_bind (outcome_of_ok computed) run
      exact ⟨Keeps.alike e.keeps_eval known, lastsTo_of_ok run⟩
  | converted encoded =>
      have run := rest_of_bind (ofExcept_eq_ok_iff.mpr ⟨encoded, rfl⟩) run
      exact ⟨.refl _, lastsTo_of_bind run (shown v)⟩
  | convertedIn encoded =>
      obtain ⟨scope, s₂, here, run⟩ := bind_eq_ok_iff.mp run
      cases here
      obtain ⟨raw, s₂, taken, run⟩ := bind_eq_ok_iff.mp run
      rw [encoded] at taken
      cases taken
      exact ⟨.refl _, lastsTo_of_bind run (shown v)⟩
  | convertedBy encoded =>
      have run := rest_of_bind encoded run
      exact ⟨Keeps.alike e.keeps_evalOver encoded, lastsTo_of_bind run (shown v)⟩
  | validated valid =>
      have run := rest_of_bind valid run
      exact ⟨Keeps.alike (Codec.keeps_validate _ _ path) valid, lastsTo_of_ok run⟩
  | label number =>
      unfold Format.codec Codec.labelled at run
      simp only [number] at run
      exact ⟨.refl _, lastsTo_of_bind run (shown _)⟩
  | number =>
      obtain ⟨found, s₂, taken, run⟩ := bind_eq_ok_iff.mp run
      cases taken
      exact ⟨.refl _, lastsTo_of_bind run (shown _)⟩
  | mapped found =>
      have run := rest_of_bind found run
      exact ⟨Keeps.alike (Codec.keeps_findPair _ _) found, lastsTo_of_bind run (shown v)⟩
  | flagSet bits =>
      have run := rest_of_bind (ofExcept_eq_ok_iff.mpr ⟨bits, rfl⟩) run
      obtain ⟨-, run⟩ := guard_eq_ok_iff.mp run
      exact ⟨.refl _, lastsTo_of_bind run (shown v)⟩
  | delimited => exact ⟨.refl _, lastsTo_of_bind run fun built r => wrote _ built r⟩
  | rawCopy given value present =>
      have run := rest_of_bind given run
      rw [bind_of_ok (tell_apply _)] at run
      simp only [value, Option.getD_some, present, Bool.not_false, if_true] at run
      refine ⟨Keeps.alike e.keeps_containerInput given, ?_⟩
      refine LastsTo.of_part (lastsTo_of_bind run fun built r => ?_)
      exact .bind confined_tell.preserves fun _ => .bind (Codec.preserves_copySince _ path)
        fun _ => preserves_pure
  | padded sized =>
      have run := rest_of_bind sized run
      rw [bind_of_ok (tell_apply _)] at run
      refine ⟨Keeps.alike e.keeps_evalSize sized, lastsTo_of_bind run fun built r => ?_⟩
      refine .bind confined_tell.preserves fun _ => .bind (Confined.preserves ?_) fun _ =>
        wrote _ built r
      unfold Codec.remainder
      exact confined_ite confined_pure confined_fail
  | aligned multiple =>
      have run := rest_of_bind multiple run
      rw [bind_of_ok (tell_apply _)] at run
      refine ⟨Keeps.alike (Codec.keeps_evalModulus _ path) multiple,
        lastsTo_of_bind run fun built r => .bind confined_tell.preserves fun _ => wrote _ built r⟩
  | @branch _ _ _ holds _ _ _ _ decided =>
      have run := rest_of_bind decided run
      refine ⟨Keeps.alike e.keeps_evalHolds decided, ?_⟩
      cases holds <;> exact lastsTo_of_ok run
  | @switch _ _ _ p _ _ _ _ chosen =>
      obtain ⟨scope, s₂, here, run⟩ := bind_eq_ok_iff.mp run
      cases here
      have run := rest_of_bind chosen run
      refine ⟨Keeps.alike keeps_lookup chosen, ?_⟩
      have same : p.codec = p.format.codec e defs := by
        unfold Run.lookup at chosen
        split at chosen
        · rename_i found
          cases chosen
          exact (Codec.mem_of_chooseCase found).elim Format.codec_of_mem_casesOf
            Format.codec_of_partIf
        · cases chosen
      exact same ▸ lastsTo_of_ok run
  | prefixedText encoded =>
      have run := rest_of_bind (ofExcept_eq_ok_iff.mpr ⟨encoded, rfl⟩) run
      exact ⟨.refl _, (lastsTo_of_bind run fun _ r => wrote _ v r).of_part⟩
  | prefixed payload overhead =>
      obtain ⟨mark, s₂, marked, run⟩ := bind_eq_ok_iff.mp run
      cases marked
      have run := rest_of_bind payload run
      have run := rest_of_bind overhead run
      refine ⟨?_, (lastsTo_of_bind run fun _ r => .bind preserves_splice fun _ =>
        preserves_pure).of_part⟩
      obtain ⟨⟨w', stream⟩, s₃, inside, last⟩ := bind_eq_ok_iff.mp payload
      obtain ⟨-, rfl⟩ := pure_eq_ok_iff.mp last
      obtain ⟨s₄, -, -, rfl⟩ := ok_of_onStream inside
      exact Keeps.alike (s := ⟨s.stream, s₄.context, s₄.store⟩) (Codec.keeps_overhead _ _ path)
        overhead

/-! ## Members and elements -/

namespace Format

/-- The fields that an embedded component hands to the structure around it. -/
def inlinedFields : Format → Option (List Format)
  | named _ of | documented _ of | embedded of => inlinedFields of
  | struct fields _ => some fields
  | _ => none

/-- The alternatives of an embedded union with a key. -/
def inlinedUnion : Format → Option (Selector × List Format)
  | named _ of | documented _ of | embedded of => inlinedUnion of
  | union (some key) alternatives => some (key, alternatives)
  | _ => none

private theorem buildInline_of_inlinedFields {fields : List Format} (input : Record Value)
    (path : Path) :
    ∀ {f : Format}, inlinedFields f = some fields → (f.codec e defs).buildInline input path =
      Codec.buildFields input path (parts e defs fields)
  | named _ of, h => buildInline_of_inlinedFields input path (f := of) h
  | documented _ of, h => buildInline_of_inlinedFields input path (f := of) h
  | embedded of, h => buildInline_of_inlinedFields input path (f := of) h
  | struct _ _, h => by
      cases h
      rfl

private theorem buildInline_of_inlinedUnion {key : Selector} {alternatives : List Format}
    (input : Record Value) (path : Path) : ∀ {f : Format},
      inlinedUnion f = some (key, alternatives) → (f.codec e defs).buildInline input path =
        Codec.buildUnion (some key) (parts e defs alternatives) input path
  | named _ of, h => buildInline_of_inlinedUnion input path (f := of) h
  | documented _ of, h => buildInline_of_inlinedUnion input path (f := of) h
  | embedded of, h => buildInline_of_inlinedUnion input path (f := of) h
  | union (some _) _, h => by
      cases h
      rfl

end Format

namespace Codec

/-- The alternative that a union builds: the first one that the input supplies. -/
def supplied? (alternatives : List Part) (input : Record Value) : Option Part :=
  alternatives.find? fun a => a.name?.any input.contains

/-- Builds elements none of which is the last one. -/
def buildAhead (e : Engine) (last : Expr) (of : Part) (path : Path) :
    Nat → List Value → List Value → Run (List Value)
  | _, [], done => return done
  | i, v :: rest, done => do
    noteIndex i
    let built ← of.build v (path.element i)
    if ← isLast e last built (built :: done) path then Run.fail (.miscount .endless) path
    buildAhead e last of path (i + 1) rest (built :: done)

end Codec

/-- While fields are built from a state, control comes to one of them; the formats listed are
built behind it. -/
inductive AtField (e : Engine) (defs : Definitions) (input : Record Value) (path : Path) :
    List Format → State → List Format → Format → Value → Path → State → Prop
  | named {before after : List Format} {field : Format} {name : String} {u : Value}
      {s s₁ s₂ : State} (plain : field.isEmbedded = false) (called : field.name? = some name)
      (done : Codec.buildFields input path (Format.parts e defs before) s = .ok () s₁)
      (given : Codec.fieldInput input ⟨field, field.codec e defs⟩ name (path.member name) s₁ =
        .ok u s₂) :
      AtField e defs input path (before ++ field :: after) s after field u (path.member name) s₂
  | unnamed {before after : List Format} {field : Format} {s s₁ : State}
      (plain : field.isEmbedded = false) (uncalled : field.name? = none)
      (done : Codec.buildFields input path (Format.parts e defs before) s = .ok () s₁) :
      AtField e defs input path (before ++ field :: after) s after field .none path s₁
  | inlined {before after fields behind : List Format} {field g : Format} {u : Value}
      {place : Path} {s s₁ s₂ : State} (embedded : field.isEmbedded = true)
      (own : field.inlinedFields = some fields)
      (done : Codec.buildFields input path (Format.parts e defs before) s = .ok () s₁)
      (further : AtField e defs input path fields s₁ behind g u place s₂) :
      AtField e defs input path (before ++ field :: after) s (behind ++ after) g u place s₂
  | overlaid {before after alternatives : List Format} {field : Format} {key : Selector}
      {a : Part} {s s₁ : State} (embedded : field.isEmbedded = true)
      (own : field.inlinedUnion = some (key, alternatives))
      (done : Codec.buildFields input path (Format.parts e defs before) s = .ok () s₁)
      (supplied : Codec.supplied? (Format.parts e defs alternatives) input = some a) :
      AtField e defs input path (before ++ field :: after) s after a.format
        ((Record.get? input (a.name?.getD "")).getD .none) (path.member (a.name?.getD "")) s₁

/-- The items that are built, each with its input, the frame that they start with, and the state
outside of it. -/
inductive Items (e : Engine) (defs : Definitions) :
    Format → Value → Path → State → List (Part × Value) → Record Value → State → Prop
  | sequence {items : List Format} {input : List Value} {v : Value} {path : Path} {s s₁ : State}
      (given : e.listInput v path s = .ok input s₁) :
      Items e defs (.sequence items) v path s ((Format.parts e defs items).zip input)
        (Codec.preload ((Format.parts e defs items).zip input)) s₁
  | focused {focus : Selector} {items : List Format} {i : Nat} {v : Value} {path : Path}
      {s s₁ : State}
      (chosen : Codec.focusIndex focus (Format.parts e defs items) path s = .ok i s₁) :
      Items e defs (.focused focus items) v path s
        ((Format.parts e defs items).zipIdx.map fun (item, j) =>
          (item, if j = i then v else .none))
        (Codec.preload ((((Format.parts e defs items).zipIdx.map fun (item, j) =>
          (item, if j = i then v else .none)).drop i).take 1)) s₁

/-- The elements that a repeater builds, and the state in which it starts with them. -/
inductive Repeats (e : Engine) (defs : Definitions) :
    Format → Value → Path → State → Format → List Value → State → Prop
  | array {count : Expr} {of : Format} {discard : Bool} {n : Nat} {items : List Value} {v : Value}
      {path : Path} {s s₁ s₂ : State} (counted : e.evalSize count path s = .ok n s₁)
      (given : e.listInput v path s₁ = .ok items s₂) :
      Repeats e defs (.array count of discard) v path s of items s₂
  | range {least most : Expr} {of : Format} {discard : Bool} {bounds : Nat × Nat}
      {items : List Value} {v : Value} {path : Path} {s s₁ s₂ : State}
      (bounded : Codec.bounds e least (some most) path s = .ok bounds s₁)
      (given : e.listInput v path s₁ = .ok items s₂) :
      Repeats e defs (.range least most of discard) v path s of items s₂
  | greedyRange {of : Format} {discard : Bool} {bounds : Nat × Nat} {items : List Value}
      {v : Value} {path : Path} {s s₁ s₂ : State}
      (bounded : Codec.bounds e (.const (.int 0)) none path s = .ok bounds s₁)
      (given : e.listInput v path s₁ = .ok items s₂) :
      Repeats e defs (.greedyRange of discard) v path s of items s₂
  | prefixedArray {count of : Format} {items : List Value} {v w : Value} {path : Path}
      {s s₁ s₂ : State} (given : e.listInput v path s = .ok items s₁)
      (counted : Part.build ⟨count, count.codec e defs⟩ (.ofNat items.length) path s₁ =
        .ok w s₂) :
      Repeats e defs (.prefixedArray count of) v path s of items s₂

/-- While something is built at the first site, control comes to the second one, neither beside
the stream nor through a component that goes back; the formats listed are built behind it. -/
inductive Within (defs : Definitions) : Site → List Format → Site → Prop
  | here (site : Site) : Within defs site [] site
  | hands {n : Nat} {f of : Format} {u v : Value} {path : Path} {s s₁ : State}
      {behind : List Format} {inner : Site}
      (step : Hands (.level defs n) defs f v path s of u s₁)
      (further : Within defs ⟨n, of, u, path, s₁⟩ behind inner) :
      Within defs ⟨n, f, v, path, s⟩ behind inner
  | field {n : Nat} {fields after behind : List Format} {overwrite : Bool} {g : Format}
      {input : Record Value} {u v : Value} {path place : Path} {s s₁ s₂ : State} {inner : Site}
      (given : (Engine.level defs n).containerInput v path s = .ok input s₁)
      (reached : AtField (.level defs n) defs input path fields
        { s₁ with context := s₁.context.push input } after g u place s₂)
      (further : Within defs ⟨n, g, u, place, s₂⟩ behind inner) :
      Within defs ⟨n, .struct fields overwrite, v, path, s⟩ (behind ++ after) inner
  | alternative {n : Nat} {key : Selector} {alternatives behind : List Format} {a : Part}
      {input : Record Value} {v : Value} {path : Path} {s s₁ : State} {inner : Site}
      (given : (Engine.level defs n).containerInput v path s = .ok input s₁)
      (supplied : Codec.supplied? (Format.parts (.level defs n) defs alternatives) input = some a)
      (further : Within defs ⟨n, a.format, (Record.get? input (a.name?.getD "")).getD .none,
        path.member (a.name?.getD ""), { s₁ with context := s₁.context.push input }⟩ behind inner) :
      Within defs ⟨n, .union (some key) alternatives, v, path, s⟩ behind inner
  | item {n : Nat} {f : Format} {before after : List (Part × Value)} {p : Part}
      {behind : List Format} {frame : Record Value} {values : List Value} {u v : Value}
      {path : Path} {s s₁ s₂ : State} {inner : Site}
      (listed : Items (.level defs n) defs f v path s (before ++ (p, u) :: after) frame s₁)
      (done : Codec.buildItems path 0 before { s₁ with context := s₁.context.push frame } =
        .ok values s₂)
      (further : Within defs ⟨n, p.format, u, path.item p.name? before.length, s₂⟩ behind inner) :
      Within defs ⟨n, f, v, path, s⟩ (behind ++ after.map fun pair => pair.1.format) inner
  | element {n : Nat} {f of : Format} {before after built : List Value} {behind : List Format}
      {u v : Value} {path : Path} {s s₁ s₂ : State} {inner : Site}
      (repeated : Repeats (.level defs n) defs f v path s of (before ++ u :: after) s₁)
      (done : Codec.buildElements ⟨of, of.codec (.level defs n) defs⟩ path 0 before s₁ =
        .ok built s₂)
      (further : Within defs ⟨n, of, u, path.element before.length,
        { s₂ with context := s₂.context.insert "_index" (.ofNat before.length) }⟩ behind inner) :
      Within defs ⟨n, f, v, path, s⟩ (behind ++ after.map fun _ => of) inner
  | count {n : Nat} {count of : Format} {items : List Value} {behind : List Format} {v : Value}
      {path : Path} {s s₁ : State} {inner : Site}
      (given : (Engine.level defs n).listInput v path s = .ok items s₁)
      (further : Within defs ⟨n, count, .ofNat items.length, path, s₁⟩ behind inner) :
      Within defs ⟨n, .prefixedArray count of, v, path, s⟩ (behind ++ items.map fun _ => of) inner
  | elementUntil {n : Nat} {last : Expr} {of : Format} {discard : Bool}
      {before after built : List Value} {behind : List Format} {u v : Value} {path : Path}
      {s s₁ s₂ : State} {inner : Site}
      (given : (Engine.level defs n).listInput v path s = .ok (before ++ u :: after) s₁)
      (done : Codec.buildAhead (.level defs n) last ⟨of, of.codec (.level defs n) defs⟩ path 0
        before [] s₁ = .ok built s₂)
      (further : Within defs ⟨n, of, u, path.element before.length,
        { s₂ with context := s₂.context.insert "_index" (.ofNat before.length) }⟩ behind inner) :
      Within defs ⟨n, .repeatUntil last of discard, v, path, s⟩
        (behind ++ after.map fun _ => of) inner
  | reference {n : Nat} {name : String} {behind : List Format} {v : Value} {path : Path}
      {s : State} {inner : Site}
      (further : Within defs ⟨n, (Record.get? defs name).getD .pass, v, path, s⟩ behind inner) :
      Within defs ⟨n + 1, .reference name, v, path, s⟩ behind inner

/-! ## What is built behind a component -/

namespace Codec

variable {p : Part} {path : Path}

theorem buildItems_append (path : Path) (i : Nat) (first second : List (Part × Value)) :
    buildItems path i (first ++ second) = (do
      let built ← buildItems path i first
      let others ← buildItems path (i + first.length) second
      return built ++ others) := by
  induction first generalizing i with
  | nil => simp [buildItems]
  | cons pair rest ih =>
      obtain ⟨item, value⟩ := pair
      simp only [List.cons_append, buildItems, ih, bind_assoc, pure_bind, List.length_cons,
        Nat.add_assoc, Nat.add_comm 1]

private theorem buildElements_append (p : Part) (path : Path) (i : Nat)
    (first second : List Value) :
    buildElements p path i (first ++ second) = (do
      let built ← buildElements p path i first
      let others ← buildElements p path (i + first.length) second
      return built ++ others) := by
  induction first generalizing i with
  | nil => simp [buildElements]
  | cons v rest ih =>
      simp only [List.cons_append, buildElements, ih, bind_assoc, pure_bind, List.length_cons,
        Nat.add_assoc, Nat.add_comm 1]

private theorem buildUntil_of_buildAhead {last : Expr} {before after done built : List Value}
    {i : Nat}
    {s s₁ : State} (ahead : buildAhead e last p path i before done s = .ok built s₁) :
    buildUntil e last p path i (before ++ after) done s =
      buildUntil e last p path (i + before.length) after built s₁ := by
  induction before generalizing i done s with
  | nil =>
      obtain ⟨rfl, rfl⟩ := pure_eq_ok_iff.mp ahead
      rfl
  | cons v rest ih =>
      obtain ⟨_, s₂, noted, ahead⟩ := bind_eq_ok_iff.mp ahead
      obtain ⟨w, s₃, made, ahead⟩ := bind_eq_ok_iff.mp ahead
      obtain ⟨stop, s₄, judged, ahead⟩ := bind_eq_ok_iff.mp ahead
      cases stop with
      | true => cases ahead
      | false =>
          rw [List.cons_append, buildUntil, bind_of_ok noted, bind_of_ok made, bind_of_ok judged]
          have later := ih ahead
          rw [List.length_cons, ← Nat.add_assoc, Nat.add_right_comm]
          exact later

private theorem Steady.alike_build {k : Codec} (steady : k.Steady .unclaimed) {v w : Value}
    {s s' : State}
    (run : k.build v path s = .ok w s') : s.stream.Alike s'.stream :=
  ((steady.build v path s.context (Traits.anchors_unclaimed _ _)).of_ok (.refl _) run).2

private theorem alike_buildAhead (steady : p.codec.Steady .unclaimed) {last : Expr} {i : Nat}
    {items done built : List Value} {s s' : State}
    (run : buildAhead e last p path i items done s = .ok built s') :
    s.stream.Alike s'.stream := by
  induction items generalizing i done s with
  | nil =>
      obtain ⟨-, rfl⟩ := pure_eq_ok_iff.mp run
      exact .refl _
  | cons v rest ih =>
      obtain ⟨_, s₁, noted, run⟩ := bind_eq_ok_iff.mp run
      cases noted
      obtain ⟨w, s₂, made, run⟩ := bind_eq_ok_iff.mp run
      obtain ⟨stop, s₃, judged, run⟩ := bind_eq_ok_iff.mp run
      cases stop with
      | true => cases run
      | false =>
          have here : s.stream.Alike s₂.stream :=
            steady.alike_build (s := { s with context := s.context.insert "_index" (.ofNat i) })
              (Part.build_eq_ok_iff.mp made)
          exact (here.trans (Keeps.alike (keeps_isLast last w _ path) judged)).trans (ih run)

private theorem alike_buildElements (steady : p.codec.Steady .unclaimed) {i : Nat}
    {items built : List Value} {s s' : State}
    (run : buildElements p path i items s = .ok built s') : s.stream.Alike s'.stream :=
  ((keeps_buildElements steady id path i items).of_ok (Context.Grows.refl s.context) run).2

end Codec

private theorem Format.confined_of_onward (he : e.Steady) (confines : e.Confines)
    (onward : defs.Onward)
    {f : Format} (h : f.Onward) : (f.codec e defs).Confined ⟨False, False⟩ :=
  f.confined_codec he confines onward _ ⟨h, False.elim, False.elim⟩

private theorem Format.confined_parts_of_onward (he : e.Steady) (confines : e.Confines)
    (onward : defs.Onward) {fs : List Format} (h : ∀ f ∈ fs, f.Onward) :
    ∀ p ∈ parts e defs fs, p.codec.Confined ⟨False, False⟩ := fun p mem => by
  obtain ⟨of, same⟩ := mem_of_mem_parts mem
  rw [same]
  exact confined_of_onward he confines onward (h p.format of)

private theorem Codec.preserves_rest (he : e.Steady) (confines : e.Confines) (onward : defs.Onward)
    {after : List Format} (later : ∀ f ∈ after, f.Onward) (input : Record Value) (path : Path)
    (r : Region) : (buildFields input path (Format.parts e defs after)).Preserves r :=
  (confined_buildFields (Format.confined_parts_of_onward he confines onward later) input
    path).preserves

theorem Codec.buildFields_of_done {input : Record Value} {path : Path}
    {before after : List Format} {field : Format} {s s₁ : State}
    (done : buildFields input path (Format.parts e defs before) s = .ok () s₁) :
    buildFields input path (Format.parts e defs (before ++ field :: after)) s =
      buildFields input path (⟨field, field.codec e defs⟩ :: Format.parts e defs after) s₁ := by
  rw [Format.parts_append, buildFields_append, bind_of_ok done]
  rfl

/-- A union with a key stays where its alternative has ended. -/
private theorem Codec.lasts_buildUnion {key : Selector} {alternatives : List Format} {a : Part}
    {input : Record Value} {path : Path} {s s' : State}
    (supplied : supplied? (Format.parts e defs alternatives) input = some a)
    (run : buildUnion (some key) (Format.parts e defs alternatives) input path s = .ok () s') :
    ((a.format.codec e defs).build ((Record.get? input (a.name?.getD "")).getD .none)
      (path.member (a.name?.getD ""))).LastsTo s s' := by
  have same := (Format.mem_of_mem_parts (List.mem_of_find?_eq_some supplied)).2
  unfold supplied? at supplied
  unfold buildUnion at run
  simp only [supplied] at run
  rw [bind_of_ok (tell_apply s)] at run
  refine same ▸ (lastsTo_of_bind run fun built r => ?_).of_part
  refine .bind confined_insert.preserves fun _ => ?_
  unfold unionKey
  dsimp only
  cases Select.index? key (Format.parts e defs alternatives) with
  | none =>
      intro _ _ _ _ run
      cases run
  | some i => exact preserves_pure

private theorem AtField.lasts (he : e.Steady) (confines : e.Confines) (onward : defs.Onward)
    {input : Record Value} {path place : Path} {fields after : List Format} {g : Format} {u : Value}
    {s s₁ s' : State} (h : AtField e defs input path fields s after g u place s₁)
    (later : ∀ f ∈ after, f.Onward) (deep : s.context.below ≠ [])
    (run : Codec.buildFields input path (Format.parts e defs fields) s = .ok () s') :
    s.stream.Alike s₁.stream ∧ ((g.codec e defs).build u place).LastsTo s₁ s' := by
  have kept {s s₁ : State} {before : List Format} (deep : s.context.below ≠ [])
      (done : Codec.buildFields input path (Format.parts e defs before) s = .ok () s₁) :
      s.stream.Alike s₁.stream ∧ s₁.context.below ≠ [] := by
    obtain ⟨grown, alike⟩ := (Codec.keeps_buildFields (t := .unclaimed) input path _
      (Format.steady_parts he defs .unclaimed before (Traits.unclaimed_within _)) deep).of_ok
      (.refl _) done
    exact ⟨alike, grown.below ▸ deep⟩
  have rest {after : List Format} (later : ∀ f ∈ after, f.Onward) (r : Region) :=
    Codec.preserves_rest he confines onward later input path r
  -- By the way to the field: directly, or through embedded components that hand their fields over.
  induction h generalizing s' with
  | @named _ _ field name _ _ _ _ plain called done given =>
      rw [Codec.buildFields_of_done done, Codec.buildFields, if_neg (Bool.eq_false_iff.mp plain),
        show Part.name? ⟨field, field.codec e defs⟩ = some name from called] at run
      dsimp only at run
      rw [bind_of_ok given] at run
      refine ⟨(kept deep done).1.trans
        (Keeps.alike (Codec.keeps_fieldInput input _ _ _) given), ?_⟩
      exact (lastsTo_of_bind run fun built r => .bind confined_insert.preserves fun _ =>
        rest later r).of_part
  | @unnamed _ _ field _ _ plain uncalled done =>
      rw [Codec.buildFields_of_done done, Codec.buildFields, if_neg (Bool.eq_false_iff.mp plain),
        show Part.name? ⟨field, field.codec e defs⟩ = none from uncalled] at run
      exact ⟨(kept deep done).1, (lastsTo_of_bind run fun _ r => rest later r).of_part⟩
  | @inlined _ _ fields _ field _ _ _ _ _ _ embedded own done further ih =>
      rw [Codec.buildFields_of_done done, Codec.buildFields, if_pos embedded] at run
      obtain ⟨_, s₃, inside, run⟩ := bind_eq_ok_iff.mp run
      rw [Format.buildInline_of_inlinedFields input path own] at inside
      obtain ⟨alike, below⟩ := kept deep done
      obtain ⟨alike', lasts⟩ := ih (fun f mem => later f (List.mem_append_left _ mem)) below inside
      refine ⟨alike.trans alike', lasts.trans fun r holds => ?_⟩
      exact rest (fun f mem => later f (List.mem_append_right _ mem)) r _ _ _ holds run
  | @overlaid _ _ _ field key a _ _ embedded own done supplied =>
      rw [Codec.buildFields_of_done done, Codec.buildFields, if_pos embedded] at run
      obtain ⟨_, s₃, inside, run⟩ := bind_eq_ok_iff.mp run
      rw [Format.buildInline_of_inlinedUnion input path own] at inside
      refine ⟨(kept deep done).1, (Codec.lasts_buildUnion supplied inside).trans fun r holds => ?_⟩
      exact rest later r _ _ _ holds run

private theorem Items.framed {f : Format} {pairs : List (Part × Value)} {frame : Record Value}
    {v w : Value} {path : Path} {s s₁ s' : State} (h : Items e defs f v path s pairs frame s₁)
    (run : (f.codec e defs).build v path s = .ok w s') :
    s.stream.Alike s₁.stream ∧
      (∀ pair ∈ pairs, pair.1.codec = pair.1.format.codec e defs) ∧
      ∃ values s₂ s₃, Codec.buildItems path 0 pairs
          { s₁ with context := s₁.context.push frame } = .ok values s₂ ∧
        e.resolvePending s₂ = .ok () s₃ ∧ s' = { s₃ with context := s₃.context.pop } := by
  have inside {pairs : List (Part × Value)} {frame : Record Value} {s₁ : State}
      (g : List Value → Value) (run : (do
        let framed ← Run.inFrame frame do
          let values ← Codec.buildItems path 0 pairs
          e.resolvePending
          return values
        return g framed.1 : Run Value) s₁ = .ok w s') :
      ∃ values s₂ s₃, Codec.buildItems path 0 pairs
          { s₁ with context := s₁.context.push frame } = .ok values s₂ ∧
        e.resolvePending s₂ = .ok () s₃ ∧ s' = { s₃ with context := s₃.context.pop } := by
    obtain ⟨_, s₂, framed, last⟩ := bind_eq_ok_iff.mp run
    obtain ⟨-, rfl⟩ := pure_eq_ok_iff.mp last
    obtain ⟨s₃, inside, -, rfl⟩ := ok_of_inFrame framed
    obtain ⟨values, s₄, built, settled⟩ := bind_eq_ok_iff.mp inside
    obtain ⟨_, s₅, resolved, last⟩ := bind_eq_ok_iff.mp settled
    obtain ⟨-, rfl⟩ := pure_eq_ok_iff.mp last
    exact ⟨values, s₄, s₅, built, resolved, rfl⟩
  cases h with
  | sequence given =>
      have run := rest_of_bind given run
      obtain ⟨-, run⟩ := guard_eq_ok_iff.mp run
      exact ⟨Keeps.alike e.keeps_listInput given, fun pair mem =>
        (Format.mem_of_mem_parts (List.of_mem_zip mem).1).2, inside .list run⟩
  | focused chosen =>
      have run := rest_of_bind chosen run
      refine ⟨Keeps.alike (Codec.keeps_focusIndex _ _ path) chosen, fun pair mem => ?_,
        inside (fun values => values.getD _ .none) run⟩
      obtain ⟨⟨item, j⟩, mem', rfl⟩ := List.mem_map.mp mem
      exact (Format.mem_of_mem_parts (List.fst_mem_of_mem_zipIdx mem')).2

/-- What comes behind an item are the other items and the patches of the frame. -/
private theorem Items.lasts (he : e.Steady) (confines : e.Confines) (onward : defs.Onward)
    {f : Format} {before after : List (Part × Value)} {p : Part} {frame : Record Value}
    {values : List Value} {u v w : Value} {path : Path} {s s₁ s₂ s' : State}
    (h : Items e defs f v path s (before ++ (p, u) :: after) frame s₁)
    (later : ∀ pair ∈ after, pair.1.format.Onward)
    (done : Codec.buildItems path 0 before { s₁ with context := s₁.context.push frame } =
      .ok values s₂)
    (run : (f.codec e defs).build v path s = .ok w s') :
    s.stream.Alike s₂.stream ∧
      ((p.format.codec e defs).build u (path.item p.name? before.length)).LastsTo s₂ s' := by
  obtain ⟨alike, codecs, all, s₃, s₄, built, resolved, rfl⟩ := h.framed run
  have same {pair : Part × Value} (mem : pair ∈ before ++ (p, u) :: after) := codecs pair mem
  have keeps : (Codec.buildItems path 0 before).Keeps
      (Context.Grows Traits.unclaimed.loose (s₁.context.push frame)) :=
    Codec.keeps_buildItems path 0 before (fun pair mem => by
      rw [same (List.mem_append_left _ mem)]
      exact Format.steady_of he defs pair.1.format) (List.cons_ne_nil _ _)
  have further := keeps.of_ok (.refl _) done
  rw [Codec.buildItems_append, bind_of_ok done, Nat.zero_add] at built
  obtain ⟨others, s₅, rest, last⟩ := bind_eq_ok_iff.mp built
  obtain ⟨-, rfl⟩ := pure_eq_ok_iff.mp last
  rw [Codec.buildItems] at rest
  refine ⟨alike.trans further.2, ?_⟩
  rw [← same (List.mem_append_right _ List.mem_cons_self)]
  refine ((lastsTo_of_bind rest fun w r => ?_).of_part).trans fun r holds => ?_
  · have confined : (Codec.buildItems path (before.length + 1) after).Confined ⟨False, False⟩ :=
      Codec.confined_buildItems (fun pair mem => by
        rw [same (List.mem_append_right _ (List.mem_cons_of_mem _ mem))]
        exact Format.confined_of_onward he confines onward (later pair mem)) path _
    exact .bind Codec.confined_noteItem.preserves fun _ => .bind confined.preserves fun _ =>
      preserves_pure
  · exact (Engine.preserves_resolveSince confines 0 false _ _ _ holds resolved).pop

private theorem Repeats.elements (he : e.Steady) {f of : Format} {items : List Value} {v w : Value}
    {path : Path} {s s₁ s' : State} (h : Repeats e defs f v path s of items s₁)
    (run : (f.codec e defs).build v path s = .ok w s') :
    s.stream.Alike s₁.stream ∧ ∃ built,
      Codec.buildElements ⟨of, of.codec e defs⟩ path 0 items s₁ = .ok built s' := by
  have last {s₁ : State} {p : Part} {items : List Value} (run : (do
        return .list (← Codec.buildElements p path 0 items) : Run Value) s₁ = .ok w s') :
      ∃ built, Codec.buildElements p path 0 items s₁ = .ok built s' := by
    obtain ⟨built, s₂, made, last⟩ := bind_eq_ok_iff.mp run
    obtain ⟨-, rfl⟩ := pure_eq_ok_iff.mp last
    exact ⟨built, made⟩
  have ranged {least : Expr} {most : Option Expr} {bounds : Nat × Nat} {s₂ : State} {p : Part}
      (bounded : Codec.bounds e least most path s = .ok bounds s₂)
      (given : e.listInput v path s₂ = .ok items s₁)
      (run : Codec.buildRange e least most p v path s = .ok w s') :
      s.stream.Alike s₁.stream ∧ ∃ built,
        Codec.buildElements p path 0 items s₁ = .ok built s' := by
    have run := rest_of_bind bounded run
    have run := rest_of_bind given run
    exact ⟨(Keeps.alike (Codec.keeps_bounds least most path) bounded).trans
      (Keeps.alike e.keeps_listInput given), last (guard_eq_ok_iff.mp run).2⟩
  cases h with
  | array counted given =>
      have run := rest_of_bind counted run
      have run := rest_of_bind given run
      exact ⟨(Keeps.alike e.keeps_evalSize counted).trans (Keeps.alike e.keeps_listInput given),
        last (guard_eq_ok_iff.mp run).2⟩
  | range bounded given => exact ranged bounded given run
  | greedyRange bounded given => exact ranged bounded given run
  | @prefixedArray count _ _ _ _ _ _ _ _ given counted =>
      have run := rest_of_bind given run
      have run := rest_of_bind counted run
      exact ⟨(Keeps.alike e.keeps_listInput given).trans
        ((Format.steady_of he defs count).alike_build
        (Part.build_eq_ok_iff.mp counted)), last run⟩

/-- What comes behind an element are the other elements. -/
private theorem Codec.lasts_buildElements {p : Part} {path : Path}
    {before after built all : List Value}
    {u : Value} {s s₁ s' : State} (later : after ≠ [] → p.codec.Confined ⟨False, False⟩)
    (done : buildElements p path 0 before s = .ok built s₁)
    (run : buildElements p path 0 (before ++ u :: after) s = .ok all s') :
    (p.codec.build u (path.element before.length)).LastsTo
      { s₁ with context := s₁.context.insert "_index" (.ofNat before.length) } s' := by
  rw [buildElements_append, bind_of_ok done, Nat.zero_add] at run
  obtain ⟨others, s₂, rest, last⟩ := bind_eq_ok_iff.mp run
  obtain ⟨-, rfl⟩ := pure_eq_ok_iff.mp last
  obtain ⟨_, s₃, noted, rest⟩ := bind_eq_ok_iff.mp rest
  cases noted
  refine (lastsTo_of_bind rest fun w r => ?_).of_part
  refine .bind ?_ fun _ => preserves_pure
  cases after with
  | nil => exact preserves_pure
  | cons _ _ =>
      exact (confined_buildElements (later (List.cons_ne_nil _ _)) path _ _).preserves

private theorem mem_map_const {α β : Type} {xs : List α} {b : β} (some : xs ≠ []) :
    b ∈ xs.map fun _ => b :=
  have ⟨a, mem⟩ := List.exists_mem_of_ne_nil xs some
  List.mem_map.mpr ⟨a, mem, rfl⟩

/-- What is written at a site inside of another one is still there when that one is built. -/
private theorem Within.lasts (onward : defs.Onward) {site inner : Site} {behind : List Format}
    (h : Within defs site behind inner) (later : ∀ g ∈ behind, g.Onward) {w : Value} {s' : State}
    (run : site.build defs = .ok w s') :
    site.state.stream.Alike inner.state.stream ∧
      ((inner.format.codec (.level defs inner.level) defs).build inner.value inner.path).LastsTo
        inner.state s' := by
  induction h generalizing w s' with
  | here site => exact ⟨.refl _, lastsTo_of_ok run⟩
  | hands step further ih =>
      obtain ⟨alike, a, s₁, made, lasts⟩ := step.lasts run
      obtain ⟨alike', rest⟩ := ih later made
      exact ⟨alike.trans alike', rest.trans lasts⟩
  | @field n _ _ _ _ _ _ _ _ _ _ _ _ _ _ given reached further ih =>
      have run := rest_of_bind given run
      obtain ⟨_, s₃, framed, last⟩ := bind_eq_ok_iff.mp run
      obtain ⟨-, rfl⟩ := pure_eq_ok_iff.mp last
      obtain ⟨s₄, inside, -, rfl⟩ := ok_of_inFrame framed
      obtain ⟨_, s₅, built, resolved⟩ := bind_eq_ok_iff.mp inside
      have confines := Engine.confines_level onward n
      obtain ⟨alike, a, s₆, made, lasts⟩ :=
        reached.lasts (Engine.steady_level defs n) confines onward
        (fun g mem => later g (List.mem_append_right _ mem)) (List.cons_ne_nil _ _) built
      obtain ⟨alike', rest⟩ := ih (fun g mem => later g (List.mem_append_left _ mem)) made
      refine ⟨((Keeps.alike (Engine.keeps_containerInput _) given).trans alike).trans alike',
        rest.trans fun r holds => ?_⟩
      exact (Engine.preserves_resolveSince confines 0 false _ _ _ (lasts r holds) resolved).pop
  | alternative given supplied further ih =>
      have run := rest_of_bind given run
      obtain ⟨_, s₃, framed, last⟩ := bind_eq_ok_iff.mp run
      obtain ⟨-, rfl⟩ := pure_eq_ok_iff.mp last
      obtain ⟨s₄, inside, -, rfl⟩ := ok_of_inFrame framed
      obtain ⟨a, s₅, made, lasts⟩ := Codec.lasts_buildUnion supplied inside
      obtain ⟨alike, rest⟩ := ih later made
      exact ⟨(Keeps.alike (Engine.keeps_containerInput _) given).trans alike,
        rest.trans fun r holds => (lasts r holds).pop⟩
  | @item n _ _ _ _ _ _ _ _ _ _ _ _ _ _ listed done further ih =>
      obtain ⟨alike, a, s₃, made, lasts⟩ := listed.lasts (Engine.steady_level defs n)
        (Engine.confines_level onward n) onward (fun pair mem =>
          later _ (List.mem_append_right _ (List.mem_map_of_mem mem))) done run
      obtain ⟨alike', rest⟩ := ih (fun g mem => later g (List.mem_append_left _ mem)) made
      exact ⟨alike.trans alike', rest.trans lasts⟩
  | @element n _ of _ after _ _ _ _ _ _ _ _ _ repeated done further ih =>
      have steady := Engine.steady_level defs n
      obtain ⟨alike, all, elements⟩ := repeated.elements steady run
      obtain ⟨a, s₃, made, lasts⟩ := Codec.lasts_buildElements (fun some =>
        Format.confined_of_onward steady (Engine.confines_level onward n) onward
          (later of (List.mem_append_right _ (mem_map_const some)))) done elements
      obtain ⟨alike', rest⟩ := ih (fun g mem => later g (List.mem_append_left _ mem)) made
      exact ⟨(alike.trans (Codec.alike_buildElements (Format.steady_of steady defs of) done)).trans
        alike', rest.trans lasts⟩
  | @count n _ of items _ _ path _ _ _ given further ih =>
      have run := rest_of_bind given run
      have others (r : Region) : (Codec.buildElements ⟨of, of.codec (.level defs n) defs⟩ path 0
          items).Preserves r := by
        cases items with
        | nil => exact preserves_pure
        | cons _ _ =>
            exact (Codec.confined_buildElements (Format.confined_of_onward
              (Engine.steady_level defs n) (Engine.confines_level onward n) onward
              (later of (List.mem_append_right _ (mem_map_const (List.cons_ne_nil _ _))))) path 0
                _).preserves
      obtain ⟨a, s₃, made, lasts⟩ := (lastsTo_of_bind run fun _ r =>
        .bind (others r) fun _ => preserves_pure).of_part
      obtain ⟨alike, rest⟩ := ih (fun g mem => later g (List.mem_append_left _ mem)) made
      exact ⟨(Keeps.alike (Engine.keeps_listInput _) given).trans alike, rest.trans lasts⟩
  | @elementUntil n last of _ _ after _ _ _ _ path _ _ _ _ given done further ih =>
      have steady := Engine.steady_level defs n
      have others (i : Nat) (done : List Value) (stop : Bool) (r : Region) : (if stop = true then
          pure done.reverse else Codec.buildUntil (.level defs n) last
            ⟨of, of.codec (.level defs n) defs⟩ path i after done).Preserves r := by
        cases stop with
        | true => exact preserves_pure
        | false =>
            cases after with
            | nil =>
                intro _ _ _ _ run
                cases run
            | cons _ _ =>
                exact (Codec.confined_buildUntil (Format.confined_of_onward steady
                  (Engine.confines_level onward n) onward (later of (List.mem_append_right _
                    (mem_map_const (List.cons_ne_nil _ _))))) last path _ _ _).preserves
      have run := rest_of_bind given run
      obtain ⟨all, s₃, elements, ended⟩ := bind_eq_ok_iff.mp run
      obtain ⟨-, rfl⟩ := pure_eq_ok_iff.mp ended
      rw [Codec.buildUntil_of_buildAhead done, Nat.zero_add] at elements
      obtain ⟨_, s₄, noted, elements⟩ := bind_eq_ok_iff.mp elements
      cases noted
      obtain ⟨a, s₅, made, lasts⟩ := (lastsTo_of_bind elements fun w r => .bind
        (Codec.confined_isLast last w _ path).preserves fun stop => others _ _ stop r).of_part
      obtain ⟨alike, rest⟩ := ih (fun g mem => later g (List.mem_append_left _ mem)) made
      exact ⟨((Keeps.alike (Engine.keeps_listInput _) given).trans
        (Codec.alike_buildAhead (Format.steady_of steady defs of) done)).trans alike,
        rest.trans lasts⟩
  | reference further ih => exact ih later run

/-! ## The record of a raw copy -/

private theorem Medium.getElem?_overlay_self (data : List UInt8) (index : Nat) (bytes : List UInt8)
    {i : Nat} {b : UInt8} (found : bytes[i]? = some b) :
    (overlay data index bytes)[index + i]? = some b := by
  have inside := (List.getElem?_eq_some_iff.mp found).1
  rw [getElem?_overlay, if_neg (by omega), if_pos (by omega), Nat.add_sub_cancel_left, found]

/-- A raw copy shows the bytes between its offsets as they are when it has been built. -/
private theorem Codec.rawCopy_of_ok {p : Part} (confined : p.codec.Confined ⟨False, False⟩)
    {v w : Value}
    {path : Path} {data : List UInt8} {pos : Nat} {s s' : State}
    (growing : s.stream = .growing data pos) (run : (rawCopy e p).build v path s = .ok w s') :
    ∃ bytes inner, w = rawRecord bytes inner pos s'.stream.pos ∧
      pos + bytes.length = s'.stream.pos ∧ s'.stream.Growable ∧ s'.stream.source = none ∧
      ∀ i b, bytes[i]? = some b → s'.stream.data[pos + i]? = some b := by
  obtain ⟨input, s₁, given, rest⟩ := bind_eq_ok_iff.mp run
  rw [(state_of_containerInput given).1] at rest
  obtain ⟨stream, ctx, store⟩ := s
  obtain rfl : stream = .growing data pos := growing
  rw [bind_of_ok (tell_apply _)] at rest
  dsimp only at rest
  split at rest
  -- With a value the component is built and its bytes are read back; without one the bytes are
  -- given.
  · obtain ⟨built, s₂, made, rest⟩ := bind_eq_ok_iff.mp rest
    have laid := confined.part _ path _ built s₂ (by exact rfl) made
    have flat : s₂.stream.source = none := laid.stream.source
    rw [bind_of_ok (tell_apply s₂)] at rest
    obtain ⟨bytes, s₃, copied, last⟩ := bind_eq_ok_iff.mp rest
    obtain ⟨rfl, rfl⟩ := pure_eq_ok_iff.mp last
    have forward : pos ≤ s₂.stream.pos := laid.stream.forward
    obtain ⟨rfl, length, there⟩ := copySince_of_ok laid.stream.growable forward copied
    refine ⟨bytes, built, rfl, by omega, laid.stream.growable, flat, fun i b found => ?_⟩
    have inside := (List.getElem?_eq_some_iff.mp found).1
    rwa [there flat, List.getElem?_take_of_lt inside, List.getElem?_drop] at found
  · cases supplied : (Record.get? input "data").bind Value.bytes? with
    | none =>
        rw [supplied] at rest
        cases rest
    | some bytes =>
        rw [supplied] at rest
        have wrote : Run.write bytes path ⟨.growing data pos, ctx, s₁.store⟩ =
            .ok () ⟨.growing (Medium.overlay data pos bytes) (pos + bytes.length), ctx,
              s₁.store⟩ := rfl
        have rest := rest_of_bind wrote rest
        rw [bind_of_ok (tell_apply _)] at rest
        obtain ⟨⟨parsed, used⟩, s₂, beside, last⟩ := bind_eq_ok_iff.mp rest
        obtain ⟨rfl, rfl⟩ := pure_eq_ok_iff.mp last
        obtain ⟨⟨_, stream⟩, s₃, inside, last⟩ := bind_eq_ok_iff.mp beside
        obtain ⟨-, rfl⟩ := pure_eq_ok_iff.mp last
        obtain ⟨s₄, -, -, rfl⟩ := ok_of_onStream inside
        exact ⟨bytes, _, rfl, rfl, rfl, rfl, fun i b found =>
          Medium.getElem?_overlay_self data pos bytes found⟩

/-- Every raw copy that is built into a byte string that grows, neither beside the stream nor
through a component that goes back, shows bytes of the length between its offsets; what is behind
it has to go forward.  They are those that stand there in the end, if every patch that waits when
the copy has been built writes behind them or, with a component that ends where it stops writing,
in front of them. -/
theorem Format.raw_copy_records (onward : defs.Onward) {n m : Nat} {f of : Format}
    {behind : List Format} {u v w : Value} {params : Record Value} {place : Path}
    {data : List UInt8} {pos : Nat} {store : LazyStore} {s s' : State}
    (within : Within defs ⟨n, f, v, .this, ⟨.growing data pos, .ofParams params, store⟩⟩ behind
      ⟨m, .rawCopy of, u, place, s⟩)
    (later : ∀ g ∈ behind, g.Onward) (inside : of.Onward)
    (built : f.buildStream (.level defs (n + 1)) v params (.growing data pos) store = .ok w s') :
    ∃ bytes inner start stop s₁,
      Site.build defs ⟨m, .rawCopy of, u, place, s⟩ =
        .ok (Codec.rawRecord bytes inner start stop) s₁ ∧
      start + bytes.length = stop ∧
      ((∀ d ∈ s₁.context.pending, d.Clear ⟨start, bytes⟩) →
        (s'.stream.data.drop start).take (stop - start) = bytes) := by
  obtain ⟨built, s₂, made, rest⟩ := bind_eq_ok_iff.mp built
  obtain ⟨_, s₃, resolved, last⟩ := bind_eq_ok_iff.mp rest
  obtain ⟨-, rfl⟩ := pure_eq_ok_iff.mp last
  obtain ⟨alike, x, s₁, copied, lasts⟩ := within.lasts onward later (tagged_eq_ok_iff.mp made)
  obtain ⟨data', start, growing⟩ := Stream.growing_of_alike alike
  have confined := confined_of_onward (Engine.steady_level defs m)
    (Engine.confines_level onward m) onward inside
  obtain ⟨bytes, inner, rfl, length, growable, flat, there⟩ :=
    Codec.rawCopy_of_ok (p := ⟨of, _⟩) confined growing copied
  refine ⟨bytes, inner, start, s₁.stream.pos, s₁, copied, length, fun clear => ?_⟩
  have written : s₁.Holds ⟨start, bytes⟩ := ⟨growable, flat, length.le, there, clear⟩
  have final := Engine.preserves_resolveSince (Engine.confines_level onward (n + 1)) 0 true _ _ _
    (lasts _ written) resolved
  rw [← length, Nat.add_sub_cancel_left]
  exact final.read

namespace Format

/-- A byte with its raw copy, behind the number of its bytes. -/
def measuredCopy : Format :=
  .struct ([.named "n" (.rebuild (.unsigned 1 .big) (.attr (.field "r") "length"))] ++
    .named "r" (.rawCopy (.unsigned 1 .big)) :: []) false

/-- The number waits in front of the raw copy. -/
theorem raw_copy_records_measured : ∃ w s',
    measuredCopy.buildStream (.level [] 2) (.container [("r", .container [("value", .int 9)])]) []
      (.growing [] 0) .empty = .ok w s' ∧ s'.stream.data = [1, 9] ∧
    ∃ s s₁, Site.build [] ⟨1, .rawCopy (.unsigned 1 .big), .container [("value", .int 9)],
        Path.this.member "r", s⟩ = .ok (Codec.rawRecord [9] (.int 9) 1 2) s₁ ∧
      s₁.context.pending.length = 1 ∧ (s'.stream.data.drop 1).take (2 - 1) = [9] := by
  let input : Record Value := [("r", .container [("value", .int 9)])]
  let waiting : Deferred := ⟨0, 1, .unsigned 1 .big, .value (.attr (.field "r") "length"),
    Path.this.member "n", 1, []⟩
  let state (data : List UInt8) (pos : Nat) : State := ⟨.growing data pos,
    ⟨⟨input.insert "n" .none, [waiting]⟩, [⟨[], []⟩]⟩, .empty⟩
  have before : Codec.buildFields input .this (parts (.level [] 1) []
      [.named "n" (.rebuild (.unsigned 1 .big) (.attr (.field "r") "length"))])
      ⟨.growing [] 0, (Context.ofParams []).push input, .empty⟩ = .ok () (state [0] 1) := rfl
  have within : Within [] ⟨1, measuredCopy, .container input, .this, ⟨.growing [] 0, .ofParams [],
      .empty⟩⟩ [] ⟨1, .rawCopy (.unsigned 1 .big), .container [("value", .int 9)],
        Path.this.member "r", state [0] 1⟩ :=
    .field rfl (.named rfl rfl before rfl) (.hands .named (.here _))
  obtain ⟨w, s', built, data⟩ := Run.ok_of_yields (p := fun _ s => s.stream.data == [1, 9])
    (r := measuredCopy.buildStream (.level [] 2) (.container input) [] (.growing [] 0) .empty)
    (by decide +kernel)
  have onward : Definitions.Onward [] := fun _ mem => absurd mem List.not_mem_nil
  obtain ⟨bytes, inner, start, stop, s₁, copied, -, final⟩ :=
    raw_copy_records onward within (fun _ mem => absurd mem List.not_mem_nil) trivial built
  have there : Site.build [] ⟨1, .rawCopy (.unsigned 1 .big), .container [("value", .int 9)],
      Path.this.member "r", state [0] 1⟩ =
        .ok (Codec.rawRecord [9] (.int 9) 1 2) (state [0, 9] 2) := rfl
  injection there.symm.trans copied with same left
  subst left
  simp only [Codec.rawRecord, Value.ofNat, Value.container.injEq, List.cons.injEq, Prod.mk.injEq,
    Value.bytes.injEq, Value.int.injEq, true_and, and_true] at same
  obtain ⟨-, rfl, -, first, second⟩ := same
  obtain rfl : 1 = start := by omega
  obtain rfl : 2 = stop := by omega
  refine ⟨w, s', built, eq_of_beq data, state [0] 1, state [0, 9] 2, there, rfl,
    final fun d mem => ?_⟩
  cases List.mem_singleton.mp mem
  exact ⟨trivial, Or.inr ⟨le_rfl, trivial⟩⟩

/-- The bytes that the raw copy of a name shows, and its offsets. -/
def shownCopy? (w : Value) (name : String) : Option (List UInt8 × Int × Int) := do
  let copy ← (← Record.get? (← w.fields?) name).fields?
  let data ← (← copy.get? "data").bytes?
  return (data, ← (← copy.get? "offset1").int?, ← (← copy.get? "offset2").int?)

/-- A raw copy of a byte that waits for a field of the structure around it. -/
def patchedCopy : Format :=
  .struct [.named "r" (.rawCopy (.struct [.named "n" (.rebuild (.unsigned 1 .big)
      (.attr (.attr (.attr .this "_") "x") "length"))] false)),
    .named "x" (.rawCopy (.unsigned 1 .big))] false

/-- The raw copy shows the zero that was reserved, not the byte that stands there in the end. -/
theorem patchedCopy_shows_placeholder :
    (match patchedCopy.buildBytes (.ofDefinitions []) (.container
        [("r", .container [("value", .container [("n", .int 1)])]),
          ("x", .container [("value", .int 9)])]) [] .empty with
      | .ok w s => (shownCopy? w "r").map fun copy => (copy, s.stream.data)
      | .error _ _ => none) = some (([0], 0, 1), [1, 9]) ∧
    ([1, 9].drop 0).take 1 ≠ [0] := by
  refine ⟨by decide +kernel, by decide⟩

end Format

end BinaryFormat
