import BinaryFormat.Format.Meaning
import BinaryFormat.Proofs.Frames

/-!
# Positions on the way out

Components that look elsewhere come back, whatever they met there: a pointer and a look-ahead
always, a view whenever it fails, and a range to the end of the last element that it has
accepted.  Nothing is assumed of the component inside, nor of the stream.
-/

namespace BinaryFormat

namespace Stream

private theorem pos_fillAll (s : Stream) : s.fillAll.pos = s.pos := by
  cases s with
  | medium m => rfl
  | view v outer =>
      rw [fillAll]
      cases v.request none <;> rfl

private theorem pos_of_refused {s s' : Stream} {dest : SeekTo} {fault : StreamFault}
    (refused : s.seek dest = (.error fault, s')) : s'.pos = s.pos := by
  have moved : ∀ t : Stream, t.moved dest = (.error fault, s') → s'.pos = t.pos := by
    intro t h
    unfold Stream.moved at h
    split at h <;> split at h <;> cases h <;> rfl
  cases dest with
  | start n => exact moved s refused
  | current d => exact moved s refused
  | fromEnd d => exact (moved s.fillAll refused).trans s.pos_fillAll

end Stream

/-! ## Runs that come back -/

namespace Run

variable {α β : Type}

/-- A run that can do no more than resolve lazy members. -/
def Looks (x : Run α) : Prop :=
  ∀ s, (x.after s).stream = s.stream ∧ (x.after s).context = s.context

/-- However the run ends, the position is the one at which it started. -/
def Stays (x : Run α) : Prop := ∀ s, (x.after s).stream.pos = s.stream.pos

/-- Where the run fails, the position is the one at which it started. -/
def Returns (x : Run α) : Prop :=
  ∀ s failure s', x s = .error failure s' → s'.stream.pos = s.stream.pos

theorem after_of_ok {x : Run α} {s s' : State} {a : α} (h : x s = .ok a s') :
    x.after s = s' := by
  rw [after, h]

private theorem after_of_error {x : Run α} {s s' : State} {failure : Failure}
    (h : x s = .error failure s') : x.after s = s' := by
  rw [after, h]

private theorem after_bind_of_ok {x : Run α} {f : α → Run β} {s s' : State} {a : α}
    (h : x s = .ok a s') : (x >>= f).after s = (f a).after s' := by
  rw [after, bind_of_ok h, after]

private theorem after_bind_of_error {x : Run α} {f : α → Run β} {s s' : State} {failure : Failure}
    (h : x s = .error failure s') : (x >>= f).after s = s' := by
  rw [after, bind_of_error h]

private theorem Stays.of_ok {x : Run α} (stays : x.Stays) {s s' : State} {a : α}
    (h : x s = .ok a s') :
    s'.stream.pos = s.stream.pos := after_of_ok h ▸ stays s

private theorem Stays.returns {x : Run α} (stays : x.Stays) : x.Returns :=
  fun s _ _ h => after_of_error h ▸ stays s

private theorem Stays.bind {x : Run α} {f : α → Run β} (first : x.Stays)
    (second : ∀ a, (f a).Stays) :
    (x >>= f).Stays := by
  intro s
  cases run : x s with
  | ok a s' => rw [after_bind_of_ok run, second a s', first.of_ok run]
  | error failure s' => rw [after_bind_of_error run, first.returns s failure s' run]

private theorem Looks.stays {x : Run α} (looks : x.Looks) : x.Stays :=
  fun s => congrArg Stream.pos (looks s).1

private theorem looks_lookup (x : Lookup Failure α) : (lookup x).Looks := by
  intro s
  unfold after lookup
  cases x s.store <;> exact ⟨rfl, rfl⟩

private theorem looks_pure (a : α) : (pure a : Run α).Looks := fun _ => ⟨rfl, rfl⟩

private theorem Looks.bind {x : Run α} {f : α → Run β} (first : x.Looks)
    (second : ∀ a, (f a).Looks) :
    (x >>= f).Looks := by
  intro s
  have start := first s
  cases run : x s with
  | ok a s' =>
      rw [after_of_ok run] at start
      rw [after_bind_of_ok run, (second a s').1, (second a s').2]
      exact start
  | error failure s' =>
      rw [after_of_error run] at start
      rw [after_bind_of_error run]
      exact start

private theorem Returns.bind_stays {x : Run α} {f : α → Run β} (first : x.Stays)
    (second : ∀ a, (f a).Returns) : (x >>= f).Returns := by
  intro s failure s' failed
  cases run : x s with
  | ok a s₁ =>
      rw [bind_of_ok run] at failed
      rw [second a s₁ failure s' failed, first.of_ok run]
  | error failure' s₁ =>
      rw [bind_of_error run] at failed
      cases failed
      exact first.returns s failure s' run

/-- A run whose outcome is put off until the position was set back. -/
private theorem pos_after_goTo (x : Run α) (f : Except Failure α → Run β) (back : Nat)
    (settles : ∀ result, (f result).Stays) (s : State) :
    ((do
      let result ← outcome x
      goTo back
      f result : Run β).after s).stream.pos = back := by
  cases run : x s with
  | ok a s' =>
      rw [after_bind_of_ok (outcome_of_ok run)]
      exact (settles _ _).trans (s'.stream.pos_setPos back)
  | error failure s' =>
      rw [after_bind_of_ok (outcome_of_error run)]
      exact (settles _ _).trans (s'.stream.pos_setPos back)

end Run

namespace Engine

variable (e : Engine)

private theorem looks_evalInt (x : Expr) (path : Path) : (e.evalInt x path).Looks :=
  .bind (fun _ => ⟨rfl, rfl⟩) fun _ => Run.looks_lookup _

theorem looks_evalSize (x : Expr) (path : Path) : (e.evalSize x path).Looks :=
  .bind (fun _ => ⟨rfl, rfl⟩) fun _ => Run.looks_lookup _

end Engine

namespace Codec

variable {α : Type} (e : Engine)

private theorem stays_atOffset (offset : Expr) (path : Path) (x : Run α) :
    (atOffset e offset path x).Stays := by
  refine .bind (e.looks_evalInt offset path).stays fun offset s => ?_
  have told : Run.tell s = .ok s.stream.pos s := rfl
  rw [Run.after_bind_of_ok told]
  -- The position is kept in `back` from here on, so nothing that moves it matters.
  cases there : Whence.target .start offset with
  | error fault => rfl
  | ok dest =>
      have chosen : Run.ofExcept path (.ok dest) s = .ok dest s := rfl
      rw [Run.after_bind_of_ok chosen]
      rcases sought : s.stream.seek dest with ⟨fault | pos, stream⟩
      · have refused : Run.seek dest path s =
            .error ((Fault.stream fault).atPath path) { s with stream := stream } := by
          simp only [Run.seek, sought]
        rw [Run.after_bind_of_error refused]
        exact Stream.pos_of_refused sought
      · have found : Run.seek dest path s = .ok pos { s with stream := stream } := by
          simp only [Run.seek, sought]
        rw [Run.after_bind_of_ok found]
        refine Run.pos_after_goTo x _ _ (fun result => ?_) _
        cases result <;> exact fun _ => rfl

private theorem stays_parse_peek (of : Part) (path : Path) : ((peek of).parse path).Stays := by
  intro s
  have told : Run.tell s = .ok s.stream.pos s := rfl
  refine (congrArg (·.stream.pos) (Run.after_bind_of_ok told)).trans ?_
  refine Run.pos_after_goTo (of.parse path) _ _ (fun result => ?_) _
  cases result with
  | ok v => exact fun _ => rfl
  | error failure =>
      dsimp only
      split <;> exact fun _ => rfl

private theorem stays_checkEntry (recoding : Recoding) (path : Path) :
    (checkEntry recoding path).Stays := by
  refine .bind (fun _ => rfl) fun pos => ?_
  split <;> exact fun _ => rfl

private theorem returns_inView (recoding : Recoding) (path : Path) (x : Run α) :
    (inView recoding path x).Returns := by
  intro s failure s' failed
  unfold inView at failed
  dsimp only at failed
  split at failed
  · split at failed
    · cases failed
    · cases failed
      exact Stream.pos_setPos _ _
  · cases failed
    exact Stream.pos_setPos _ _

private theorem returns_checked (recoding : Recoding) (checked : Bool) (path : Path) {x : Run α}
    (returns : x.Returns) :
    (do
      if checked then checkEntry recoding path
      x : Run α).Returns := by
  cases checked with
  | false => exact returns
  | true => exact .bind_stays (stays_checkEntry recoding path) fun _ => returns

private theorem returns_parse_recoded (of : Codec) (recoding : Recoding) (checked : Bool)
    (path : Path) : ((recoded e of recoding checked).parse path).Returns :=
  returns_checked recoding checked path (returns_inView recoding path _)

private theorem returns_build_recoded (of : Codec) (recoding : Recoding) (checked : Bool)
    (v : Value)
    (path : Path) : ((recoded e of recoding checked).build v path).Returns := by
  refine returns_checked recoding checked path (.bind_stays (fun _ => rfl) fun mark => ?_)
  exact returns_inView recoding path _

/-! ## Ranges -/

/-- Elements from index `i` on that a range accepts one after the other: each of them is parsed,
with its index noted, and moves the position. -/
inductive Accepts (of : Part) (path : Path) : Nat → State → List Value → State → Prop
  | nothing (i : Nat) (s : State) : Accepts of path i s [] s
  | next {i : Nat} {s s₁ s₂ : State} {v : Value} {items : List Value}
      (parsed : (noteIndex i >>= fun _ => of.parse (path.element i)) s = .ok v s₁)
      (moved : s₁.stream.pos ≠ s.stream.pos) (further : Accepts of path (i + 1) s₁ items s₂) :
      Accepts of path i s (v :: items) s₂

/-- What a range leaves of an attempt at the element of index `i` that it does not accept. -/
inductive Stops (of : Part) (path : Path) (i : Nat) (s : State) : State → Prop
  | idle {v : Value} {s' : State}
      (parsed : (noteIndex i >>= fun _ => of.parse (path.element i)) s = .ok v s')
      (still : s'.stream.pos = s.stream.pos) : Stops of path i s s'
  | swallowed {failure : Failure} {s' : State}
      (failed : (noteIndex i >>= fun _ => of.parse (path.element i)) s = .error failure s')
      (implicit : failure.fault.isExplicit = false) :
      Stops of path i s { s' with stream := s'.stream.setPos s.stream.pos }

variable {of : Part} {path : Path}

private theorem Stops.pos_eq {i : Nat} {s s' : State} (h : Stops of path i s s') :
    s'.stream.pos = s.stream.pos := by
  cases h with
  | idle _ still => exact still
  | swallowed => exact Stream.pos_setPos _ _

/-- How a range goes on at index `i` with room for so many elements, and what it comes to. -/
inductive Ranges (of : Part) (path : Path) (most i : Nat) (s : State) :
    EStateM.Result Failure State (List Value) → Prop
  | full {items : List Value} {s' : State} (accepts : Accepts of path i s items s')
      (count : items.length = most) : Ranges of path most i s (.ok items s')
  | stopped {items : List Value} {s₁ s' : State} (accepts : Accepts of path i s items s₁)
      (room : items.length < most) (stops : Stops of path (i + items.length) s₁ s') :
      Ranges of path most i s (.ok items s')
  | refused {failure : Failure} {s' : State} (explicit : failure.fault.isExplicit = true) :
      Ranges of path most i s (.error failure s')

section Steps

variable {i : Nat} {s s₁ : State}

private theorem noteIndex_bind (i : Nat) (s : State) (f : Unit → Run Value) :
    (noteIndex i >>= f) s = f () { s with context := s.context.insert "_index" (.ofNat i) } := rfl

theorem parseGreedy_of_parsed {v : Value} (most : Nat)
    (parsed : (noteIndex i >>= fun _ => of.parse (path.element i)) s = .ok v s₁) :
    parseGreedy of path (most + 1) i s =
      (do if s₁.stream.pos = s.stream.pos then return []
          return v :: (← parseGreedy of path most (i + 1)) : Run (List Value)) s₁ := by
  have noted : noteIndex i s = .ok ()
      { s with context := s.context.insert "_index" (.ofNat i) } := rfl
  have told : Run.tell s = .ok s.stream.pos s := rfl
  rw [noteIndex_bind] at parsed
  rw [parseGreedy, Run.bind_of_ok told, Run.bind_of_ok noted,
    Run.bind_of_ok (Run.outcome_of_ok parsed)]
  rfl

theorem parseGreedy_of_failed {failure : Failure} (most : Nat)
    (failed : (noteIndex i >>= fun _ => of.parse (path.element i)) s = .error failure s₁) :
    parseGreedy of path (most + 1) i s =
      if failure.fault.isExplicit then .error failure s₁
      else .ok [] { s₁ with stream := s₁.stream.setPos s.stream.pos } := by
  have noted : noteIndex i s = .ok ()
      { s with context := s.context.insert "_index" (.ofNat i) } := rfl
  have told : Run.tell s = .ok s.stream.pos s := rfl
  rw [noteIndex_bind] at failed
  rw [parseGreedy, Run.bind_of_ok told, Run.bind_of_ok noted,
    Run.bind_of_ok (Run.outcome_of_error failed)]
  cases explicit : failure.fault.isExplicit <;> simp only [explicit] <;> rfl

end Steps

private theorem ranges_parseGreedy (of : Part) (path : Path) (most i : Nat) (s : State) :
    Ranges of path most i s (parseGreedy of path most i s) := by
  induction most generalizing i s with
  | zero => exact .full (.nothing i s) rfl
  | succ most ih =>
      cases run : (noteIndex i >>= fun _ => of.parse (path.element i)) s with
      | ok v s₁ =>
          rw [parseGreedy_of_parsed most run]
          by_cases still : s₁.stream.pos = s.stream.pos
          · rw [if_pos still]
            exact .stopped (.nothing i s) (Nat.zero_lt_succ most) (.idle run still)
          · rw [if_neg still]
            have further := ih (i + 1) s₁
            cases rest : parseGreedy of path most (i + 1) s₁ with
            | ok items s₂ =>
                rw [rest] at further
                have all : (do return v :: (← parseGreedy of path most (i + 1)) :
                    Run (List Value)) s₁ = .ok (v :: items) s₂ := Run.bind_of_ok rest _
                refine Eq.mpr (congrArg _ all) ?_
                cases further with
                | full accepts count =>
                    exact .full (.next run still accepts) (congrArg (· + 1) count)
                | stopped accepts room stops =>
                    refine .stopped (.next run still accepts) (Nat.succ_lt_succ room) ?_
                    rwa [List.length_cons, Nat.add_comm items.length, ← Nat.add_assoc]
            | error failure s₂ =>
                rw [rest] at further
                have all : (do return v :: (← parseGreedy of path most (i + 1)) :
                    Run (List Value)) s₁ = .error failure s₂ := Run.bind_of_error rest _
                refine Eq.mpr (congrArg _ all) ?_
                cases further with
                | refused explicit => exact .refused explicit
      | error failure s₁ =>
          rw [parseGreedy_of_failed most run]
          cases explicit : failure.fault.isExplicit with
          | true => exact .refused explicit
          | false => exact .stopped (.nothing i s) (Nat.zero_lt_succ most) (.swallowed run explicit)

/-- A range has ended behind the elements that it has accepted, and its position is the end of the
last one. -/
def EndsBehind (of : Part) (path : Path) (s ended : State) : Prop :=
  ∃ s₀ items s₁, s₀.stream = s.stream ∧ s₀.context = s.context ∧
    Accepts of path 0 s₀ items s₁ ∧ (ended = s₁ ∨ Stops of path items.length s₁ ended) ∧
    ended.stream.pos = s₁.stream.pos

/-- A run of a range ends behind what was accepted, unless it is refused for good. -/
def EndsOrRefuses (of : Part) (path : Path) (x : Run Value) : Prop :=
  ∀ s, EndsBehind of path s (x.after s) ∨
    ∃ failure s', x s = .error failure s' ∧ failure.fault.isExplicit = true

private theorem Ranges.endsBehind {most : Nat} {s s₀ s' : State} {items : List Value}
    (stream : s₀.stream = s.stream) (context : s₀.context = s.context)
    (h : Ranges of path most 0 s₀ (.ok items s')) : EndsBehind of path s s' := by
  cases h with
  | full accepts count => exact ⟨s₀, items, s', stream, context, accepts, .inl rfl, rfl⟩
  | stopped accepts room stops =>
      rw [Nat.zero_add] at stops
      exact ⟨s₀, items, _, stream, context, accepts, .inr stops, stops.pos_eq⟩

/-- Where only the store has changed, no element was accepted yet. -/
private theorem endsBehind_of_same {s s' : State} (stream : s'.stream = s.stream)
    (context : s'.context = s.context) : EndsBehind of path s s' :=
  ⟨s', [], s', stream, context, .nothing 0 s', .inl rfl, rfl⟩

private theorem looks_bounds (least : Expr) (most : Option Expr) (path : Path) :
    (bounds e least most path).Looks := by
  have checked : ∀ least most : Nat, (do
      if most < least then Run.fail (.miscount (.bounds least most)) path
      return (least, most) : Run (Nat × Nat)).Looks := by
    intro least most s
    by_cases wrong : most < least
    · rw [if_pos wrong]
      exact ⟨rfl, rfl⟩
    · rw [if_neg wrong]
      exact ⟨rfl, rfl⟩
  refine .bind (e.looks_evalSize least path) fun least => ?_
  cases most with
  | none => exact .bind (Run.looks_pure _) fun most => checked least most
  | some most => exact .bind (e.looks_evalSize most path) fun most => checked least most

/-- A range that is not refused ends behind the elements that it has accepted, also where they
are too few. -/
private theorem endsOrRefuses_parseRange (least : Expr) (most : Option Expr) (of : Part)
    (discard : Bool) (path : Path) :
    EndsOrRefuses of path (parseRange e least most of discard path) := by
  intro s
  obtain ⟨stream, context⟩ := looks_bounds e least most path s
  cases start : bounds e least most path s with
  | error failure s₀ =>
      rw [Run.after_of_error start] at stream context
      rw [parseRange, Run.after_bind_of_error start]
      exact .inl (endsBehind_of_same stream context)
  | ok found s₀ =>
      obtain ⟨fewest, room⟩ := found
      rw [Run.after_of_ok start] at stream context
      rw [parseRange, Run.after_bind_of_ok start]
      have ranges := ranges_parseGreedy of path room 0 s₀
      cases greedy : parseGreedy of path room 0 s₀ with
      | error failure s' =>
          rw [greedy] at ranges
          cases ranges with
          | refused explicit =>
              refine .inr ⟨failure, s', ?_, explicit⟩
              rw [Run.bind_of_ok start]
              exact Run.bind_of_error greedy _
      | ok items s' =>
          rw [greedy] at ranges
          refine .inl ?_
          rw [Run.after_bind_of_ok greedy]
          by_cases few : items.length < fewest
          · rw [if_pos few]
            exact ranges.endsBehind stream context
          · rw [if_neg few]
            exact ranges.endsBehind stream context

/-- Whatever the component inside does and wherever it fails, on any stream: a pointer leaves the
position where it was, a look-ahead does so too and builds nothing, a view that fails leaves the
outer position where it was, and a range that swallows a failure, or stops for another reason,
stands at the end of the last element that it has accepted. -/
theorem positions_restored (of : Part) (path : Path) (s : State) :
    (∀ offset, (((pointer e offset of).parse path).after s).stream.pos = s.stream.pos ∧
      ∀ v, (((pointer e offset of).build v path).after s).stream.pos = s.stream.pos) ∧
    (((peek of).parse path).after s).stream.pos = s.stream.pos ∧
    (∀ v, (peek of).build v path s = .ok v s) ∧
    (∀ recoding checked failure s',
      ((recoded e of.codec recoding checked).parse path s = .error failure s' →
        s'.stream.pos = s.stream.pos) ∧
      ∀ v, (recoded e of.codec recoding checked).build v path s = .error failure s' →
        s'.stream.pos = s.stream.pos) ∧
    ∀ discard, EndsOrRefuses of path ((greedyRange e of discard).parse path) ∧
      ∀ least most, EndsOrRefuses of path ((range e least most of discard).parse path) := by
  refine ⟨fun offset => ⟨stays_atOffset e offset path _ s, fun v => ?_⟩,
    stays_parse_peek of path s, fun v => rfl, fun recoding checked failure s' => ⟨?_, ?_⟩,
    fun discard => ⟨?_, fun least most => ?_⟩⟩
  · exact stays_atOffset e offset path _ s
  · exact returns_parse_recoded e of.codec recoding checked path s failure s'
  · exact fun v => returns_build_recoded e of.codec recoding checked v path s failure s'
  · exact endsOrRefuses_parseRange e _ none of discard path
  · exact endsOrRefuses_parseRange e least (some most) of discard path

/-- Four of the bits of a byte, and nothing else: the view cannot be left, and the byte is still
in front of the stream. -/
theorem positions_restored_nibble :
    let nibble : Part := ⟨.nibble, Format.codec .exhausted [] .nibble⟩
    ∃ failure s', (recoded .exhausted nibble.codec ⟨.bits, .msbFirst⟩ false).parse .this
        ⟨.medium ⟨.fixed, [0xaa, 0xbb], 1⟩, .ofParams [], .empty⟩ = .error failure s' ∧
      s'.stream.pos = 1 := by
  intro nibble
  obtain ⟨failure, s', failed⟩ : ∃ failure s',
      (recoded .exhausted nibble.codec ⟨.bits, .msbFirst⟩ false).parse .this
        ⟨.medium ⟨.fixed, [0xaa, 0xbb], 1⟩, .ofParams [], .empty⟩ = .error failure s' :=
    ⟨_, _, rfl⟩
  have restored := positions_restored .exhausted nibble .this
    ⟨.medium ⟨.fixed, [0xaa, 0xbb], 1⟩, .ofParams [], .empty⟩
  exact ⟨failure, s', failed, (restored.2.2.2.1 _ _ _ _).1 failed⟩

end Codec

end BinaryFormat
