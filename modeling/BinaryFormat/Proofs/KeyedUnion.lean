import BinaryFormat.Proofs.Legible
import BinaryFormat.Proofs.Restored

/-!
# Unions that go on where one alternative ends

A union builds the first alternative that the input supplies.  If that is the one
its key names, what is built is that alternative alone, and a union whose key
names its first alternative is written as the bytes that were parsed.
-/

namespace BinaryFormat

namespace Codec

variable {e : Engine}

/-! ## Building -/

theorem unionKey_of_index {ε : Type} {refuse : Fault → EStateM Failure ε (Option Nat)}
    {key : Selector} {alternatives : List Part} {i : Nat}
    (found : Select.index? key alternatives = some i) :
    unionKey refuse (some key) alternatives = pure (some i) := by
  simp only [unionKey, found]

private theorem find?_supplied {input : Record Value} {front behind : List Part} {chosen : Part}
    {name : String} {v : Value} (own : chosen.name? = some name)
    (given : Record.get? input name = some v)
    (missing : ∀ k ∈ Part.names front, Record.get? input k = none) :
    (front ++ chosen :: behind).find? (fun a => a.name?.any input.contains) = some chosen := by
  rw [List.find?_append, List.find?_eq_none.mpr, Option.none_or, List.find?_cons_of_pos]
  · simp [own, Record.contains, given]
  · intro a mem supplied
    cases isName : a.name? with
    | none => simp [isName] at supplied
    | some k =>
        have absent := missing k (List.mem_filterMap.mpr ⟨a, mem, isName⟩)
        simp [isName, Record.contains, absent] at supplied

/-- Where the first supplied alternative is the one that the key names, it is built alone. -/
private theorem buildUnion_of_supplied {key : Selector} {input : Record Value} {path : Path}
    {front behind : List Part} {chosen : Part} {name : String} {v : Value} {i : Nat}
    (own : chosen.name? = some name) (given : Record.get? input name = some v)
    (missing : ∀ k ∈ Part.names front, Record.get? input k = none)
    (found : Select.index? key (front ++ chosen :: behind) = some i) :
    buildUnion (some key) (front ++ chosen :: behind) input path = (do
      let built ← chosen.build v (path.member name)
      Run.insert name built) := by
  funext s
  simp only [buildUnion, find?_supplied own given missing, own, Option.getD_some, given,
    unionKey_of_index found]
  rw [Run.bind_of_ok (Run.tell_apply s)]
  simp only [pure_bind]
  rfl

/-- A union whose first supplied alternative is the one that its key names writes what this
alternative writes, and nothing else. -/
private theorem build_union_iff {key : Selector} {input : Record Value} {front behind : List Part}
    {chosen : Part} {name : String} {v : Value} {i : Nat} (own : chosen.name? = some name)
    (given : Record.get? input name = some v)
    (missing : ∀ k ∈ Part.names front, Record.get? input k = none)
    (found : Select.index? key (front ++ chosen :: behind) = some i) (path : Path) (s : State)
    (stream : Stream) :
    (∃ w s', (union e (some key) (front ++ chosen :: behind)).build (.container input) path s =
        .ok w s' ∧ s'.stream = stream) ↔
      ∃ w s', chosen.codec.build v (path.member name)
          { s with context := s.context.push input } = .ok w s' ∧ s'.stream = stream := by
  have run : (union e (some key) (front ++ chosen :: behind)).build (.container input) path s =
      (Run.inFrame input (do
          let built ← chosen.build v (path.member name)
          Run.insert name built) >>= fun left => pure (Value.container left.2)) s := by
    rw [← buildUnion_of_supplied own given missing found]
    rfl
  rw [run]
  constructor
  · rintro ⟨w, s', built, rfl⟩
    obtain ⟨⟨_, frame⟩, s₁, framed, built⟩ := Run.bind_eq_ok_iff.mp built
    cases built
    obtain ⟨s₂, inside, -, rfl⟩ := Run.ok_of_inFrame framed
    obtain ⟨w', s₃, alone, noted⟩ := Run.bind_eq_ok_iff.mp inside
    cases noted
    exact ⟨w', s₃, Part.build_eq_ok_iff.mp alone, rfl⟩
  · rintro ⟨w, s', alone, rfl⟩
    have framed : Run.inFrame input (do
        let built ← chosen.build v (path.member name)
        Run.insert name built) s = .ok ((), (s'.context.insert name w).innermost)
          ⟨s'.stream, (s'.context.insert name w).pop, s'.store⟩ := by
      apply Run.inFrame_of_ok
      rw [Run.bind_of_ok (Part.build_of_ok alone)]
      rfl
    rw [Run.bind_of_ok framed]
    exact ⟨_, _, rfl, rfl⟩

/-! ## Parsing -/

/-- An alternative that was parsed: the bytes that it takes from the start, and its value as it
was noted. -/
def Overlaid (m : Medium) (frame : Record Value) (a : Part) (part : List UInt8) : Prop :=
  ∃ name p v rest, a.name? = some name ∧ m.rest = part ++ rest ∧
    Record.get? frame name = some p ∧ a.codec.Writes .nothing p v part

/-- All alternatives are parsed from one place; where the one at the key ends is told. -/
private theorem overlaid_of_parse {key : Option Nat} {m m' : Medium} {path : Path}
    {store : LazyStore}
    {alternatives : List Part} {i : Nat} {ctx : Context} {r : Option Nat} {s : State}
    (each : ∀ a ∈ alternatives, a.Restores) (distinct : (Part.names alternatives).Nodup)
    (sameBytes : m'.backing = m.backing ∧ m'.data = m.data)
    (parsed : parseOverlaid none key m.pos path i alternatives ⟨.medium m', ctx, store⟩ =
      .ok r s) :
    ∃ m'' ctx', s = ⟨.medium m'', ctx', store⟩ ∧ m''.backing = m.backing ∧ m''.data = m.data ∧
      ctx.Kept ctx' ∧
      ((Record.keys ctx.innermost).Nodup → (Record.keys ctx'.innermost).Nodup) ∧
      (∀ k ∉ Part.names alternatives,
        Record.get? ctx'.innermost k = Record.get? ctx.innermost k) ∧
      ∀ j a, alternatives[j]? = some a → ∃ part, Overlaid m ctx'.innermost a part ∧
        (key = some (i + j) → r = some (m.pos + part.length)) := by
  induction alternatives generalizing i m' ctx r with
  | nil =>
      cases parsed
      exact ⟨m', ctx, rfl, sameBytes.1, sameBytes.2, .refl ctx, id, fun _ _ => rfl, nofun⟩
  | cons a rest ih =>
      have here := each a List.mem_cons_self
      obtain ⟨name, own⟩ := here.labelled
      rw [Part.names_cons_of_some own] at distinct ⊢
      obtain ⟨apart, distinct'⟩ := List.nodup_cons.mp distinct
      -- Whatever the alternatives in front have read, each one starts from the same place.
      have returned : Run.goTo m.pos ⟨.medium m', ctx, store⟩ = .ok () ⟨.medium m, ctx, store⟩ := by
        obtain ⟨backing, data, pos⟩ := m
        obtain ⟨rfl, rfl⟩ := sameBytes
        rfl
      rw [parseOverlaid, Run.bind_of_ok returned] at parsed
      simp only [own] at parsed
      obtain ⟨p, s₁, first, parsed⟩ := Run.bind_eq_ok_iff.mp parsed
      obtain ⟨part, after, v, next, rfl, written⟩ :=
        here.codec m ctx store _ p s₁ (Run.tagged_eq_ok_iff.mp first)
      rw [Run.bind_of_ok (Run.tell_apply _)] at parsed
      obtain ⟨_, s₂, noted, parsed⟩ := Run.bind_eq_ok_iff.mp parsed
      cases noted
      obtain ⟨later, s₃, others, parsed⟩ := Run.bind_eq_ok_iff.mp parsed
      cases parsed
      obtain ⟨m'', ctx', rfl, backing, data, kept, unique, same, found⟩ :=
        ih (fun q mem => each q (List.mem_cons_of_mem a mem)) distinct'
          (show (m.skip part.length).backing = _ ∧ _ from ⟨rfl, rfl⟩) others
      refine ⟨m'', ctx', rfl, backing, data, (ctx.kept_insert name p).trans kept,
        fun start => unique (Record.nodup_insert start name p), fun k absent => ?_,
        fun j b at_j => ?_⟩
      · obtain ⟨other, absent'⟩ := not_or.mp (mt List.mem_cons.mpr absent)
        exact (same k absent').trans
          (Record.get?_insert_of_ne (fun eq => other eq.symm) ctx.innermost p)
      · cases j with
        | zero =>
            cases at_j
            refine ⟨part, ⟨name, p, v, after, own, next,
              (same name apart).trans (Record.get?_insert_self _ _ _), written⟩, fun isKey => ?_⟩
            rw [isKey, Nat.add_zero, if_pos rfl]
            rfl
        | succ j =>
            obtain ⟨part', overlaid, reached⟩ := found j b at_j
            refine ⟨part', overlaid, fun isKey => ?_⟩
            have elsewhere : key ≠ some i := by
              rw [isKey]
              simp only [ne_eq, Option.some.injEq]
              omega
            rw [if_neg elsewhere, reached (by rw [isKey, Nat.add_right_comm, Nat.add_assoc])]

/-- A union whose key names its first alternative ends where this one ends, and what was parsed
is written as the bytes up to there. -/
private theorem restored_of_union {key : Selector} {chosen : Part} {behind : List Part} {m : Medium}
    {ctx : Context} {store : LazyStore} {path : Path} {p : Value} {s : State}
    (each : ∀ a ∈ chosen :: behind, a.Restores)
    (distinct : (Part.names (chosen :: behind)).Nodup)
    (found : Select.index? key (chosen :: behind) = some 0)
    (parsed : (union e (some key) (chosen :: behind)).parse path ⟨.medium m, ctx, store⟩ =
      .ok p s) :
    ∃ data rest, m.rest = data ++ rest ∧ s = ⟨.medium (m.skip data.length), ctx, store⟩ ∧
      ∀ before ctx' store' path', ∃ w s', (union e (some key) (chosen :: behind)).build p path'
          ⟨.atEnd before, ctx', store'⟩ = .ok w s' ∧ s'.stream = .atEnd (before ++ data) := by
  obtain ⟨⟨_, frame⟩, s₁, framed, parsed⟩ := Run.bind_eq_ok_iff.mp parsed
  cases parsed
  obtain ⟨s₂, inside, isFrame, rfl⟩ := Run.ok_of_inFrame framed
  dsimp only at isFrame
  subst isFrame
  rw [parseUnion, unionKey_of_index found, pure_bind, Run.bind_of_ok (Run.tell_apply _)] at inside
  obtain ⟨reached, s₃, alternatives, inside⟩ := Run.bind_eq_ok_iff.mp inside
  obtain ⟨m', ctx', rfl, backing, bytes, kept, -, -, overlaid⟩ :=
    overlaid_of_parse each distinct ⟨rfl, rfl⟩ alternatives
  obtain ⟨data, ⟨name, p, v, rest, own, next, noted, written⟩, ends⟩ :=
    overlaid 0 chosen rfl
  rw [ends rfl] at inside
  cases inside
  have ended : (Stream.medium m').setPos (m.pos + data.length) = .medium (m.skip data.length) := by
    obtain ⟨backing', data', pos'⟩ := m'
    obtain rfl : backing' = m.backing := backing
    obtain rfl : data' = m.data := bytes
    rfl
  refine ⟨data, rest, next, ?_, fun before ctx₂ store₂ path₂ => ?_⟩
  · rw [Context.pop_of_kept kept]
    exact congrArg (State.mk · ctx store) ended
  · have only := build_union_iff (e := e) own noted
      (fun k (absent : k ∈ Part.names []) => nomatch absent) found path₂
      ⟨.atEnd before, ctx₂, store₂⟩ (.atEnd (before ++ data))
    refine only.mpr ?_
    obtain ⟨w, ctx₃, built, -⟩ := written before (ctx₂.push ctx'.innermost) store₂
      (path₂.member name) (Surroundings.held_nothing _) (Surroundings.counted_nothing _)
    exact ⟨w, _, built, rfl⟩

end Codec

/-! ## Formats -/

namespace Format

/-- Where no alternative stands in front of the one that the key names, what was parsed is
written as the bytes that the parse went over.  From any other input a union writes what the
alternative at its key writes whenever no alternative in front of it is supplied. -/
theorem keyed_union (e : Engine) (defs : Definitions) (key : Selector)
    (front behind : List Format) (chosen : Format) (name : String)
    (own : chosen.name? = some name)
    (found : Codec.Select.index? key (parts e defs (front ++ chosen :: behind)) =
      some front.length)
    (rigid : RigidAll (front ++ chosen :: behind))
    (labelled : LabelledAll (front ++ chosen :: behind))
    (distinct : (fieldNames (front ++ chosen :: behind)).Nodup) :
    (front = [] → ∀ m ctx store path p s,
      ((union (some key) (front ++ chosen :: behind)).codec e defs).parse path
          ⟨.medium m, ctx, store⟩ = .ok p s →
        ∃ data rest, m.rest = data ++ rest ∧
          s = ⟨.medium (m.skip data.length), ctx, store⟩ ∧
          ∀ before ctx' store' path', ∃ w s',
            ((union (some key) (front ++ chosen :: behind)).codec e defs).build p path'
              ⟨.atEnd before, ctx', store'⟩ = .ok w s' ∧ s'.stream = .atEnd (before ++ data)) ∧
    ∀ input v path s stream, Record.get? input name = some v →
      (∀ k ∈ fieldNames front, Record.get? input k = none) →
      ((∃ w s', ((union (some key) (front ++ chosen :: behind)).codec e defs).build
          (.container input) path s = .ok w s' ∧ s'.stream = stream) ↔
        ∃ w s', (chosen.codec e defs).build v (path.member name)
          { s with context := s.context.push input } = .ok w s' ∧ s'.stream = stream) := by
  have split : parts e defs (front ++ chosen :: behind) =
      parts e defs front ++ ⟨chosen, chosen.codec e defs⟩ :: parts e defs behind := by
    rw [parts_append, parts]
  constructor
  · rintro rfl m ctx store path p s parsed
    exact Codec.restored_of_union (restores_parts e defs rigid labelled)
      (by rwa [← names_parts e defs] at distinct) found parsed
  · intro input v path s stream given missing
    rw [split] at found
    rw [← names_parts e defs] at missing
    simp only [codec, split]
    have labelled : Part.name? ⟨chosen, chosen.codec e defs⟩ = some name := own
    exact Codec.build_union_iff labelled given missing found path s stream

/-- A word over its first octet, which goes on behind the alternative at the key. -/
def wordUnion (key : Nat) : Format :=
  .union (some (.position key))
    [.named "a" (.unsigned 1 .big), .named "b" (.unsigned 2 .big)]

theorem keyed_union_words :
    (∃ p s, ((wordUnion 0).codec (inner []) []).parse .this
        ⟨.memory [1, 2], .ofParams [], .empty⟩ = .ok p s ∧ s.stream.pos = 1 ∧
      ∃ w s', ((wordUnion 0).codec (inner []) []).build p .this
          ⟨.atEnd [7], .ofParams [], .empty⟩ = .ok w s' ∧ s'.stream = .atEnd [7, 1]) ∧
    ∃ w s, ((wordUnion 1).codec (inner []) []).build (.container [("b", .int 258)]) .this
      ⟨.atEnd [7], .ofParams [], .empty⟩ = .ok w s ∧ s.stream.data = [7, 1, 2] ∧
        s.stream.pos = 3 := by
  have rigid : RigidAll [.named "a" (.unsigned 1 .big), .named "b" (.unsigned 2 .big)] :=
    ⟨⟨1, rfl⟩, ⟨2, rfl⟩, trivial⟩
  have labelled : LabelledAll [.named "a" (.unsigned 1 .big), .named "b" (.unsigned 2 .big)] :=
    ⟨⟨"a", rfl⟩, trivial, ⟨"b", rfl⟩, trivial, trivial⟩
  constructor
  · have run : Run.yields (((wordUnion 0).codec (inner []) []).parse .this
        ⟨.memory [1, 2], .ofParams [], .empty⟩) (fun _ s => decide (s.stream.pos = 1)) = true := by
      decide +kernel
    obtain ⟨p, s, parsed, pos⟩ := Run.ok_of_yields run
    have pos := of_decide_eq_true pos
    obtain ⟨data, rest, next, rfl, built⟩ :=
      (keyed_union (inner []) [] (.position 0) [] [.named "b" (.unsigned 2 .big)]
        (.named "a" (.unsigned 1 .big)) "a" rfl rfl rigid labelled (by decide)).1 rfl
        ⟨.growing, [1, 2], 0⟩ _ _ .this p s parsed
    obtain ⟨w, s', again, ended⟩ := built [7] (.ofParams []) .empty .this
    obtain ⟨b, rfl⟩ := List.length_eq_one_iff.mp ((Nat.zero_add data.length).symm.trans pos)
    cases (show [1, 2] = [b] ++ rest from next)
    exact ⟨p, _, parsed, pos, w, s', again, ended⟩
  · have run : Run.left? (((Format.unsigned 2 .big).codec (inner []) []).build (.int 258)
        (Path.this.member "b") ⟨.atEnd [7], (Context.ofParams []).push [("b", .int 258)], .empty⟩) =
          some ([7, 1, 2], 3) := by
      decide +kernel
    obtain ⟨w, s, built, data, pos⟩ := Run.ok_of_left? run
    obtain ⟨w', s', whole, stream⟩ :=
      ((keyed_union (inner []) [] (.position 1) [.named "a" (.unsigned 1 .big)] []
        (.named "b" (.unsigned 2 .big)) "b" rfl rfl rigid labelled (by decide)).2
        [("b", .int 258)] (.int 258) .this ⟨.atEnd [7], .ofParams [], .empty⟩ s.stream rfl
        (by decide)).mpr ⟨w, s, built, rfl⟩
    exact ⟨w', s', whole, by rw [stream, data], by rw [stream, pos]⟩

/-- What was parsed is not written again where another alternative stands in front of the one
that the key names. -/
theorem wordUnion_writes_first :
    Run.yields ((wordUnion 1).parseBytes (.ofDefinitions []) [] [1, 2] .empty)
      (fun p s => decide (s.stream.pos = 2) &&
        decide (Run.left? ((wordUnion 1).buildBytes (.ofDefinitions []) p [] .empty) =
          some ([1], 1))) = true := by
  decide +kernel

end Format

end BinaryFormat
