import BinaryFormat.Proofs.Growth
import BinaryFormat.Proofs.Lazy.Scan
import BinaryFormat.Proofs.StoredCounts

/-!
# Payloads that may be read in part

A lenient payload takes all the bytes that were stored for it, and its component
may leave some of them.  Its size is that of the component all the same, so a
scan that passes it by its size finds the next member only behind a payload
without such a rest.
-/

namespace BinaryFormat

namespace Codec

open Run Sizes

variable {params : Record Value} {depth : Nat} {base : Stream} {e : Engine} {of : Codec}
  {length : Part} {l c : Nat} {path : Path} {ctx : Context} {s s' : State}

private theorem overhead_of_ok {inclusive : Bool} {extra : Nat}
    (sized : length.codec.Measured params (some l))
    (ruled : s.context.Ruled params depth) (run : overhead length inclusive path s = .ok extra s') :
    extra = if inclusive then l else 0 := by
  cases inclusive with
  | false =>
      cases run
      rfl
  | true =>
      obtain ⟨_, found, -⟩ := lookup_eq_ok_iff.mp run
      exact (sized depth s.context path ruled).eq_of_ok rfl found

private theorem leads_prefixed (h : length.codec.Paced params (some l))
    (h' : of.Paced params (some c))
    (inclusive lenient : Bool) (p : Nat) :
    ((prefixed length of inclusive lenient).parse path).Leads params depth base (· = p)
      fun _ q => p + l + c ≤ q := by
  refine .bind (h.part path depth base p) fun stored => ?_
  cases stored.int? with
  | none => exact leads_fail
  | some stored =>
      refine leads_from fun q first => .bind leads_overhead fun _ => leads_guard fun fits =>
        .bind leads_readUnits fun data => leads_assuming fun length =>
          .bind (leads_parseSlice h' data path) fun found => leads_assuming fun inside =>
            leads_guard fun _ => leads_pure fun r there => ?_
      have start := first.2 l rfl
      have consumed := inside.1.2 c rfl
      omega

variable {inclusive lenient : Bool} {v : Value} {m : Medium} {store : LazyStore}

/-- The stored number decides where parsing ends. -/
private theorem end_of_prefixed (length : Part) (sized : length.codec.Measured params (some l))
    (h : length.codec.Paced params (some l)) (h' : of.Paced params (some c))
    (ruled : ctx.Ruled params depth)
    (parsed : (prefixed length of inclusive lenient).parse path ⟨.medium m, ctx, store⟩ =
      .ok v s) :
    ∃ stored payload s₁, length.parse path ⟨.medium m, ctx, store⟩ = .ok stored s₁ ∧
      stored.int? = some (((if inclusive then l else 0) + payload : Nat) : Int) ∧
      c ≤ payload ∧ s.stream.pos = m.pos + l + payload := by
  obtain ⟨stored, extra, payload, -, s₁, s₂, -, first, counted, number, -, -, ahead⟩ :=
    payload_of_prefixed parsed
  obtain ⟨ruled₁, -, start⟩ := (h.part path depth (.medium m) m.pos).of_ok
    (s := ⟨.medium m, ctx, store⟩) ruled (.refl _) rfl first
  obtain ⟨-, -, reached⟩ := (leads_prefixed h h' inclusive lenient m.pos).of_ok
    (s := ⟨.medium m, ctx, store⟩) ruled (.refl _) rfl parsed
  have last := ahead.pos_eq
  rw [start.2 l rfl] at last
  rw [overhead_of_ok sized ruled₁ counted] at number
  exact ⟨stored, payload, s₁, first, number, by omega, last⟩

/-! ## Scanning -/

variable {f : Format} {i n : Nat} {isStruct : Bool} {rest : List Part} {slots : List Slot}

private theorem skippable_of_sized (f : Format) (path : Path) (sized : of.Measured params (some n))
    (positive : 0 < n) (ruled : ctx.Ruled params depth) (stream : Stream) (store : LazyStore) :
    ∃ store', skippable? ⟨f, of⟩ path ⟨stream, ctx, store⟩ =
      .ok (some n) ⟨stream, ctx, store'⟩ := by
  obtain ⟨store', known⟩ := sized depth ctx path ruled n rfl store
  refine ⟨store', ?_⟩
  have now : Run.outcome (of.sizeNow path) ⟨stream, ctx, store⟩ =
      .ok (.ok n) ⟨stream, ctx, store'⟩ :=
    outcome_of_ok (lookup_of_ok (s := ⟨stream, ctx, store⟩) known)
  rw [skippable?, Run.bind_of_ok now]
  dsimp only
  rw [if_neg (Nat.ne_of_gt positive)]
  rfl

/-- A scan passes a member by its size, whatever stands there. -/
private theorem scanMembers_of_sized (sized : of.Measured params (some n)) (positive : 0 < n)
    (plain : f.isEmbedded = false) (ruled : ctx.Ruled params depth)
    (within : m.pos + n < Nat.pow 2 63) :
    ∃ store', scanMembers e isStruct path i (⟨f, of⟩ :: rest) slots ⟨.medium m, ctx, store⟩ =
      scanMembers e isStruct path (i + 1) rest
        (slots ++ [⟨f.name?, m.pos, f, placed isStruct path i f.name?, none, none⟩])
        ⟨.medium (m.skip n), ctx, store'⟩ := by
  obtain ⟨store', known⟩ := skippable_of_sized f (placed isStruct path i f.name?) sized positive
    ruled (.medium m) store
  have sought : m.seek (.current n) = .ok (m.skip n) := by
    apply Medium.seek_current
    exact within.trans (by decide)
  have told : Run.tell ⟨.medium m, ctx, store⟩ = .ok m.pos ⟨.medium m, ctx, store⟩ := rfl
  refine ⟨store', ?_⟩
  rw [scanMembers_cons e isStruct path i of plain, Run.bind_of_ok told, Run.bind_of_ok known]
  dsimp only
  rw [if_neg (by omega), Run.bind_of_ok (Run.seek_of_medium sought)]

end Codec

namespace Format

open Codec

/-- A lenient payload is passed over by its size, and parsed up to its end: it is taken whole
whatever its component takes. The two agree where, and only where, the component takes all of it,
as long as no sum or product of sizes passes the largest one. -/
theorem lenient_prefix_advances (e : Engine) (defs : Definitions) (length of : Format)
    (inclusive : Bool) (name : String) {params : Record Value} (settled : length.Settled params)
    (settled' : of.Settled params)
    (fits : ((prefixed length of inclusive true).sizeIn params).isSome)
    {depth : Nat} {ctx : Context} (ruled : ctx.Ruled params depth)
    {place : Path} {n : Nat} {store store' : LazyStore}
    (sized : ((prefixed length of inclusive true).codec e defs).size ctx place store =
      .ok n store') :
    ∃ l c, n = l + c ∧ (length.codec e defs).Measured params (some l) ∧
      (of.codec e defs).Measured params (some c) ∧
    let member : Part :=
      ⟨named name (prefixed length of inclusive true),
        (prefixed length of inclusive true).codec e defs⟩
    ∀ {depth : Nat} {ctx : Context}, ctx.Ruled params depth →
      ∀ (m : Medium) (path : Path) (store : LazyStore),
        (∀ (v : Value) (s : State),
          member.codec.parse (path.member name) ⟨.medium m, ctx, store⟩ = .ok v s →
          ∃ stored payload s₁,
            Part.parse ⟨length, length.codec e defs⟩ (path.member name) ⟨.medium m, ctx, store⟩ =
              .ok stored s₁ ∧
            stored.int? = some (((if inclusive then l else 0) + payload : Nat) : Int) ∧
            c ≤ payload ∧ s.stream.pos = m.pos + l + payload ∧
            (s.stream.pos = m.pos + n ↔ payload = c) ∧
            ∀ rest : List Part,
              parseFields false false path (member :: rest) ⟨.medium m, ctx, store⟩ =
                (do Run.insert name v; parseFields false false path rest) s) ∧
        (0 < n → m.pos + n < Nat.pow 2 63 → ∀ (i : Nat) (rest : List Part) (slots : List Slot),
          ∃ store', scanMembers e true path i (member :: rest) slots ⟨.medium m, ctx, store⟩ =
            scanMembers e true path (i + 1) rest
              (slots ++ [⟨some name, m.pos, member.format, path.member name, none, none⟩])
              ⟨.medium (m.skip n), ctx, store'⟩) := by
  have inner := regular_codec e defs length settled
  have of' := regular_codec e defs of settled'
  obtain ⟨total, known⟩ := Option.isSome_iff_exists.mp fits
  have measured : (Codec.prefixed ⟨length, length.codec e defs⟩ (of.codec e defs) inclusive
      true).Measured params (some total) :=
    known ▸ measured_prefixed inner.measured of'.measured inclusive true
  obtain rfl := (measured depth ctx place ruled).eq_of_ok rfl sized
  -- The size that was found is that of the length and that of the component, both of which are
  -- settled.
  obtain ⟨l, c, first, second, rfl⟩ := Sizes.plus_eq_some.mp (Sizes.bind_fitted.mp known).1
  rw [first] at inner
  rw [second] at of'
  refine ⟨l, c, rfl, inner.measured, of'.measured, ?_⟩
  intro member depth ctx ruled m path store
  constructor
  · intro v s parsed
    obtain ⟨stored, payload, s₁, first, number, enough, last⟩ := end_of_prefixed
      ⟨length, length.codec e defs⟩ inner.measured inner.paced of'.paced ruled parsed
    refine ⟨stored, payload, s₁, first, number, enough, last, by omega, fun rest => ?_⟩
    have tagged : member.parse (path.member name) ⟨.medium m, ctx, store⟩ = .ok v s :=
      Run.tagged_eq_ok_iff.mpr parsed
    have flat : member.format.isEmbedded = false := rfl
    have named : member.name? = some name := rfl
    rw [parseFields, flat, named]
    simp only [Bool.false_eq_true, if_false]
    rw [Run.bind_of_ok tagged]
  · intro positive within i rest slots
    exact scanMembers_of_sized measured positive rfl ruled within

/-- A byte behind its length, of which some may be left. -/
def lenientByte : Format := named "a" (prefixed (unsigned 1 .big) (unsigned 1 .big) false true)

/-- A payload of one byte is passed by its size. -/
theorem lenient_prefix_advances_whole :
    ∃ v s, (lenientByte.codec (inner []) []).parse (.member .this "a")
      ⟨.memory [1, 7, 9], .ofParams [], .empty⟩ = .ok v s ∧ s.stream.pos = 2 := by
  have ruled := Context.ruled_ofParams []
  have sized : ((prefixed (unsigned 1 .big) (unsigned 1 .big) false true).codec (inner []) []).size
      (.ofParams []) .this .empty = .ok 2 .empty := rfl
  have byte : ((unsigned 1 .big).codec (inner []) []).size (.ofParams []) .this .empty =
      .ok 1 .empty := rfl
  obtain ⟨l, c, -, -, of, member⟩ := lenient_prefix_advances (inner []) []
    (unsigned 1 .big) (unsigned 1 .big) false "a" trivial trivial rfl ruled sized
  have parsed : Run.left? ((lenientByte.codec (inner []) []).parse (.member .this "a")
      ⟨.memory [1, 7, 9], .ofParams [], .empty⟩) = some ([1, 7, 9], 2) := by decide +kernel
  obtain ⟨v, s, parsed, -⟩ := Run.ok_of_left? parsed
  obtain ⟨reads, -⟩ := member ruled ⟨.growing, [1, 7, 9], 0⟩ .this .empty
  obtain ⟨stored, payload, s₁, first, number, -, -, agrees, -⟩ := reads v s parsed
  have size : 1 = c := (of 0 (.ofParams []) .this ruled).eq_of_ok rfl byte
  have one : Part.parse ⟨unsigned 1 .big, (unsigned 1 .big).codec (inner []) []⟩
      (.member .this "a") ⟨.memory [1, 7, 9], .ofParams [], .empty⟩ = .ok (.int 1) _ := rfl
  cases first.symm.trans one
  refine ⟨v, s, parsed, agrees.mpr ?_⟩
  simp [Value.int?] at number
  omega

/-- The number in an entry of a record. -/
def numberAt? (name : String) (v : Value) : Option Int :=
  (v.fields?.bind fun fields => Record.get? fields name).bind Value.int?

/-- Behind a payload of two bytes the structure finds the next member one byte further on than its
size says, and the lazy structure takes the rest of the payload for it. -/
theorem lenient_prefix_runs_past :
    let members := [lenientByte, named "b" (unsigned 1 .big)]
    let start (data : List UInt8) : State := ⟨.memory data, .ofParams [], .empty⟩
    (∃ store, lenientByte.sizeOf (.ofDefinitions []) [] .empty = .ok 2 store) ∧
    Run.left? (lenientByte.parseBytes (.ofDefinitions []) [] [2, 1, 2] .empty) =
      some ([2, 1, 2], 3) ∧
    Run.yields (((struct members false).codec (inner []) []).parse .this (start [2, 1, 2, 3]))
      (fun v _ => numberAt? "b" v == some 3) ∧
    Run.yields ((do
      let v ← ((lazyStruct members).codec (inner []) []).parse .this
      Run.lookup ((inner []).resolver.force v) : Run Value) (start [2, 1, 2, 3]))
      (fun v _ => numberAt? "b" v == some 2) := by
  refine ⟨⟨_, rfl⟩, ?_⟩
  decide +kernel

end Format

end BinaryFormat
