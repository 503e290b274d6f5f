import BinaryFormat.Proofs.Frames
import BinaryFormat.Proofs.Leaving
import BinaryFormat.Proofs.Settled

/-!
# How far parsing goes

A component whose size the parameters settle moves the stream by its size
whenever it is parsed: behind attempts that failed and were taken back, in
payloads and in views.  One whose size depends on the data still moves it
forward.
-/

namespace BinaryFormat

/-! ## Streams that are read and set back -/

namespace Stream

/-- What may become of a stream that is read and set back: a position that was not behind the
end is not behind it afterwards.  A view has fetched what it holds. -/
def Onward : Stream → Stream → Prop
  | medium m, medium m' =>
      m'.backing = m.backing ∧ m'.data = m.data ∧
        (m.pos ≤ m.base + m.data.length → m'.pos ≤ m.base + m.data.length)
  | view v outer, view v' outer' =>
      (∀ base r chunks, Viewing base r chunks v outer →
        ∃ chunks', Viewing base r chunks' v' outer') ∧
      v.units.length ≤ v'.units.length ∧
      (v.pos ≤ v.units.length → v'.pos ≤ v'.units.length) ∧ Onward outer outer'
  | _, _ => False

theorem Onward.refl (s : Stream) : s.Onward s := by
  induction s with
  | medium m => exact ⟨rfl, rfl, id⟩
  | view v outer ih => exact ⟨fun _ _ chunks h => ⟨chunks, h⟩, Nat.le_refl _, id, ih⟩

private theorem Onward.trans {a b c : Stream} (h : a.Onward b) (h' : b.Onward c) : a.Onward c := by
  induction a generalizing b c with
  | medium m =>
      cases b with
      | medium m' =>
          cases c with
          | medium m'' =>
              obtain ⟨backing, data, within⟩ := h
              obtain ⟨backing', data', within'⟩ := h'
              refine ⟨backing'.trans backing, data'.trans data, fun start => ?_⟩
              have base : m'.base = m.base := by simp only [Medium.base, backing]
              rw [base, data] at within'
              exact within' (within start)
          | view v outer => exact h'.elim
      | view v outer => exact h.elim
  | view v outer ih =>
      cases b with
      | medium m => exact h.elim
      | view v' outer' =>
          cases c with
          | medium m => exact h'.elim
          | view v'' outer'' =>
              obtain ⟨viewing, longer, within, below⟩ := h
              obtain ⟨viewing', longer', within', below'⟩ := h'
              refine ⟨fun base r chunks start => ?_, longer.trans longer', within' ∘ within,
                ih below below'⟩
              obtain ⟨chunks', middle⟩ := viewing base r chunks start
              exact viewing' base r chunks' middle

private theorem onward_giveBack (s : Stream) (count : Nat) : s.Onward (s.giveBack count) := by
  cases s with
  | medium m => exact ⟨rfl, rfl, (Nat.sub_le _ _).trans⟩
  | view v outer =>
      exact ⟨fun _ _ chunks h => ⟨chunks, h.moved _⟩, Nat.le_refl _,
        fun within => (Nat.sub_le _ _).trans within, Onward.refl outer⟩

private theorem Onward.setPos {s s' : Stream} (h : s.Onward s') : s.Onward (s'.setPos s.pos) := by
  cases s with
  | medium m =>
      cases s' with
      | medium m' => exact ⟨h.1, h.2.1, id⟩
      | view v outer => exact h.elim
  | view v outer =>
      cases s' with
      | medium m => exact h.elim
      | view v' outer' =>
          obtain ⟨viewing, longer, -, below⟩ := h
          refine ⟨fun base r chunks start => ?_, longer, fun within => within.trans longer, below⟩
          obtain ⟨chunks', now⟩ := viewing base r chunks start
          exact ⟨chunks', now.moved _⟩

private theorem onward_read (s : Stream) (limit : Option Nat) : s.Onward (s.read limit).2 := by
  induction s generalizing limit with
  | medium m =>
      refine ⟨rfl, rfl, fun within => ?_⟩
      have room := Medium.length_upTo_le limit m.rest
      have left : m.rest.length ≤ m.base + m.data.length - m.pos := by
        unfold Medium.rest
        split
        · exact Nat.zero_le _
        · rw [List.length_drop]
          omega
      show m.pos + (Medium.upTo limit m.rest).length ≤ _
      omega
  | view v outer ih =>
      by_cases nothing : limit = some 0
      · rw [nothing]
        exact Onward.refl _
      · obtain ⟨exhausted, outer', fetch, fetched⟩ :=
          fetch_eq outer.honest v (limit.map (v.pos + ·))
        have below : outer.Onward outer' := by
          have other : outer' = (Stream.fetch v outer (limit.map (v.pos + ·))).2 := by rw [fetch]
          rw [other, Stream.fetch]
          cases v.request (limit.map (v.pos + ·)) with
          | none => exact Onward.refl outer
          | some asked => exact (ih asked).trans (onward_giveBack _ _)
        have length : (v.extended outer.left (v.due outer.left (limit.map (v.pos + ·)))
            exhausted).units.length = _ := View.length_extended fetched.enough
        rw [read_view v outer nothing, fetch]
        refine ⟨fun base r chunks viewing => ⟨_, viewing.fetch fetched _⟩, ?_, fun within => ?_,
          below⟩
        · dsimp only
          omega
        · have room := Medium.length_upTo_le limit ((v.extended outer.left
            (v.due outer.left (limit.map (v.pos + ·))) exhausted).units.drop v.pos)
          rw [List.length_drop] at room
          dsimp only
          have same : (v.extended outer.left (v.due outer.left (limit.map (v.pos + ·)))
            exhausted).pos = v.pos := rfl
          rw [same]
          omega

variable {s s' : Stream} {r : Recoding}

private theorem Onward.abandon (h : (s.viewed r).Onward s') : s.Onward s'.abandon := by
  cases s' with
  | medium m => exact h.elim
  | view v outer => exact h.2.2.2

/-- A view that was read and is left has passed the chunks before its position. -/
private theorem Onward.finish (h : (s.viewed r).Onward s') :
    s.Onward s'.finish.2 ∧ (s'.finish.1 = none →
      s'.pos % r.inner = 0 ∧ s'.finish.2.pos = s.pos + s'.pos / r.inner * r.outer) := by
  cases s' with
  | medium m => exact h.elim
  | view v outer =>
      obtain ⟨viewing, -, within, below⟩ := h
      obtain ⟨chunks, now⟩ := viewing s r 0 (viewing_viewed s r)
      have inside : v.pos ≤ chunks * r.inner := now.held ▸ within (Nat.zero_le _)
      obtain ⟨fails, leaves⟩ := now.finish
      constructor
      · refine below.trans ?_
        unfold Stream.finish
        simp only [now.unwritten, Bool.false_eq_true, if_false]
        split
        · exact Onward.refl _
        · exact onward_giveBack _ _
      · intro fine
        by_cases aligned : v.pos % r.inner = 0
        · have passed : v.pos / r.inner ≤ chunks := Nat.div_le_of_le_mul (Nat.mul_comm _ _ ▸ inside)
          obtain ⟨-, ahead⟩ := leaves aligned
          rw [Nat.min_eq_left passed] at ahead
          exact ⟨aligned, ahead.pos_eq⟩
        · rw [fails aligned] at fine
          cases fine

end Stream

/-! ## Runs from one position to another -/

namespace Run

variable {α β : Type} {params : Record Value} {depth : Nat} {base : Stream}
  {P : Nat → Prop} {Q : α → Nat → Prop} {R : β → Nat → Prop}

/-- From a position of the one kind, on a stream that came from `base`, a run that succeeds
reaches a position of the other kind, which may depend on the result.  However it ends, the stream
can be set back to where `base` was. -/
def Leads (params : Record Value) (depth : Nat) (base : Stream) (P : Nat → Prop)
    (Q : α → Nat → Prop) (x : Run α) : Prop :=
  ∀ s, s.context.Ruled params depth → base.Onward s.stream → P s.stream.pos →
    (x.after s).context.Ruled params depth ∧ base.Onward (x.after s).stream ∧
      ∀ a s', x s = .ok a s' → Q a s'.stream.pos

theorem Leads.of_ok {x : Run α} (h : x.Leads params depth base P Q) {s s' : State} {a : α}
    (ruled : s.context.Ruled params depth) (onward : base.Onward s.stream) (start : P s.stream.pos)
    (run : x s = .ok a s') :
    s'.context.Ruled params depth ∧ base.Onward s'.stream ∧ Q a s'.stream.pos := by
  obtain ⟨ruled', onward', reached⟩ := h s ruled onward start
  rw [after, run] at ruled' onward'
  exact ⟨ruled', onward', reached a s' run⟩

private theorem Leads.of_error {x : Run α} (h : x.Leads params depth base P Q) {s s' : State}
    {failure : Failure} (ruled : s.context.Ruled params depth) (onward : base.Onward s.stream)
    (start : P s.stream.pos) (run : x s = .error failure s') :
    s'.context.Ruled params depth ∧ base.Onward s'.stream := by
  obtain ⟨ruled', onward', -⟩ := h s ruled onward start
  rw [after, run] at ruled' onward'
  exact ⟨ruled', onward'⟩

private theorem leads_of {x : Run α}
    (ok : ∀ s a s', s.context.Ruled params depth → base.Onward s.stream → P s.stream.pos →
      x s = .ok a s' → s'.context.Ruled params depth ∧ base.Onward s'.stream ∧ Q a s'.stream.pos)
    (error : ∀ s failure s', s.context.Ruled params depth → base.Onward s.stream →
      P s.stream.pos → x s = .error failure s' →
      s'.context.Ruled params depth ∧ base.Onward s'.stream) :
    x.Leads params depth base P Q := by
  intro s ruled onward start
  unfold after
  cases run : x s with
  | ok a s' =>
      obtain ⟨ruled', onward', reached⟩ := ok s a s' ruled onward start run
      refine ⟨ruled', onward', fun b s'' same => ?_⟩
      cases same
      exact reached
  | error failure s' =>
      obtain ⟨ruled', onward'⟩ := error s failure s' ruled onward start run
      exact ⟨ruled', onward', nofun⟩

private theorem Leads.mono {x : Run α} {P' : Nat → Prop} {Q' : α → Nat → Prop}
    (h : x.Leads params depth base P Q) (start : ∀ p, P' p → P p)
    (reach : ∀ a p, Q a p → Q' a p) : x.Leads params depth base P' Q' := by
  intro s ruled onward here
  obtain ⟨ruled', onward', reached⟩ := h s ruled onward (start _ here)
  exact ⟨ruled', onward', fun a s' run => reach a _ (reached a s' run)⟩

private theorem leads_throw {failure : Failure} :
    (throw failure : Run α).Leads params depth base P Q :=
  fun _ ruled onward _ => ⟨ruled, onward, nofun⟩

theorem leads_fail {fault : Fault} {path : Path} :
    (fail fault path : Run α).Leads params depth base P Q := leads_throw

theorem leads_pure {a : α} (reach : ∀ p, P p → Q a p) :
    (pure a : Run α).Leads params depth base P Q := by
  refine fun s ruled onward start => ⟨ruled, onward, fun b s' run => ?_⟩
  cases run
  exact reach _ start

private theorem Leads.bind_of_ok {x : Run α} {f : α → Run β} (hx : x.Leads params depth base P Q)
    (hf : ∀ a s s', x s = .ok a s' → s.context.Ruled params depth → P s.stream.pos →
      (f a).Leads params depth base (Q a) R) : (x >>= f).Leads params depth base P R := by
  refine leads_of (fun s b s' ruled onward start run => ?_)
    fun s failure s' ruled onward start run => ?_
  · obtain ⟨a, s₁, first, later⟩ := bind_eq_ok_iff.mp run
    obtain ⟨ruled', onward', reached⟩ := hx.of_ok ruled onward start first
    exact (hf a s s₁ first ruled start).of_ok ruled' onward' reached later
  · cases first : x s with
    | error failure' s₁ =>
        rw [Run.bind_of_error first] at run
        cases run
        exact hx.of_error ruled onward start first
    | ok a s₁ =>
        rw [Run.bind_of_ok first] at run
        obtain ⟨ruled', onward', reached⟩ := hx.of_ok ruled onward start first
        exact (hf a s s₁ first ruled start).of_error ruled' onward' reached run

theorem Leads.bind {x : Run α} {f : α → Run β} (hx : x.Leads params depth base P Q)
    (hf : ∀ a, (f a).Leads params depth base (Q a) R) : (x >>= f).Leads params depth base P R :=
  hx.bind_of_ok fun a _ _ _ _ _ => hf a

private theorem leads_lookup {x : Lookup Failure α} :
    (lookup x).Leads params depth base P fun _ => P := by
  refine leads_of (fun s a s' ruled onward start run => ?_)
    fun s failure s' ruled onward _ run => ?_ <;> unfold lookup at run <;>
    cases found : x s.store <;> rw [found] at run <;> cases run
  · exact ⟨ruled, onward, start⟩
  · exact ⟨ruled, onward⟩

private theorem leads_settled {x : Context → Lookup Failure α} {f : α → Run β} {known : Option α}
    (settles : ∀ ctx, Context.Ruled params depth ctx → (x ctx).Settles known)
    (later : ∀ a, known = some a → (f a).Leads params depth base P R) :
    ((do lookup (x (← context))) >>= f).Leads params depth base P R := by
  have looked : (do lookup (x (← context)) : Run α).Leads params depth base P fun _ => P :=
    fun s => leads_lookup (x := x s.context) s
  refine looked.bind_of_ok fun a s s' found ruled _ => later a ?_
  obtain ⟨store, result, -⟩ := lookup_eq_ok_iff.mp found
  exact (settles s.context ruled).of_ok result

/-- Where a size is taken, it is the one that is known. -/
private theorem leads_yields {x : Context → Lookup Failure α} {f : α → Run β} {known : Option α}
    (yields : ∀ ctx, Context.Ruled params depth ctx → (x ctx).Yields known)
    (later : ∀ a, (∀ b, known = some b → a = b) → (f a).Leads params depth base P R) :
    ((do lookup (x (← context))) >>= f).Leads params depth base P R := by
  have looked : (do lookup (x (← context)) : Run α).Leads params depth base P fun _ => P :=
    fun s => leads_lookup (x := x s.context) s
  refine looked.bind_of_ok fun a s s' found ruled _ => later a fun b same => ?_
  obtain ⟨store, result, -⟩ := lookup_eq_ok_iff.mp found
  exact (yields s.context ruled).eq_of_ok same result

private theorem leads_ofExcept {path : Path} {x : Except Fault α} :
    (ofExcept path x).Leads params depth base P fun _ => P := by
  cases x with
  | ok a => exact leads_pure fun _ => id
  | error fault => exact leads_fail

private theorem leads_ite {c : Prop} [Decidable c] {x y : Run α}
    (hx : c → x.Leads params depth base P Q)
    (hy : ¬ c → y.Leads params depth base P Q) :
    (if c then x else y).Leads params depth base P Q := by
  split
  · exact hx ‹_›
  · exact hy ‹_›

private theorem leads_throw_bind {failure : Failure} {f : β → Run α} :
    (throw failure >>= f).Leads params depth base P Q :=
  fun _ ruled onward _ => ⟨ruled, onward, fun _ _ run => by cases run⟩

theorem leads_assuming {c : Prop} {x : Run α} (h : c → x.Leads params depth base P Q) :
    x.Leads params depth base (fun p => c ∧ P p) Q :=
  fun s ruled onward start => h start.1 s ruled onward start.2

theorem leads_guard {c : Prop} [Decidable c] {fault : Fault} {path : Path} {f : β → Run α}
    {x : Run α} (hx : ¬ c → x.Leads params depth base P Q) :
    (if c then fail fault path >>= f else x).Leads params depth base P Q :=
  leads_ite (fun _ => leads_throw_bind) hx

private theorem Leads.tagged {x : Run α} (h : x.Leads params depth base P Q) :
    x.tagged.Leads params depth base P Q := by
  refine leads_of (fun s a s' ruled onward start run => ?_)
    fun s failure s' ruled onward start run => ?_
  · exact h.of_ok ruled onward start (tagged_eq_ok_iff.mp run)
  · unfold Run.tagged at run
    cases first : x s with
    | ok a s₁ =>
        rw [first] at run
        cases run
    | error failure' s₁ =>
        rw [first] at run
        cases run
        exact h.of_error ruled onward start first

/-- A failure may be caught; then nothing is known of the position. -/
private theorem Leads.attempt {x : Run α} {f : Except Failure α → Run β}
    (h : x.Leads params depth base P Q) (ok : ∀ a, (f (.ok a)).Leads params depth base (Q a) R)
    (error : ∀ failure, (f (.error failure)).Leads params depth base (fun _ => True) R) :
    (x.outcome >>= f).Leads params depth base P R := by
  intro s ruled onward start
  unfold after
  cases run : x s with
  | ok a s₁ =>
      rw [Run.bind_of_ok (outcome_of_ok run)]
      obtain ⟨ruled', onward', reached⟩ := h.of_ok ruled onward start run
      exact ok a s₁ ruled' onward' reached
  | error failure s₁ =>
      rw [Run.bind_of_ok (outcome_of_error run)]
      obtain ⟨ruled', onward'⟩ := h.of_error ruled onward start run
      exact error failure s₁ ruled' onward' trivial

/-! ### Streams -/

private theorem leads_tell {f : Nat → Run β}
    (h : ∀ p, P p → (f p).Leads params depth base (· = p) R) :
    (tell >>= f).Leads params depth base P R :=
  fun s ruled onward start => h s.stream.pos start s ruled onward rfl

private theorem leads_goTo {start : Nat} (same : base.pos = start) :
    (goTo start).Leads params depth base P fun _ => (· = start) := by
  subst same
  refine fun s ruled onward _ => ⟨ruled, onward.setPos, fun a s' run => ?_⟩
  cases run
  cases s.stream <;> rfl

theorem leads_readUnits {count : Nat} {path : Path} {p : Nat} :
    (read count path).Leads params depth base (· = p)
      fun data q => data.length = count ∧ q = p + count := by
  intro s ruled onward start
  have further := onward.trans (s.stream.onward_read (some count))
  have reached := (s.stream.honest (some count)).2.pos_eq
  have split : read count path s = if (s.stream.read (some count)).1.length = count
      then .ok (s.stream.read (some count)).1 { s with stream := (s.stream.read (some count)).2 }
      else .error ((Fault.shortage (.read count (s.stream.read (some count)).1.length)).atPath path)
        { s with stream := (s.stream.read (some count)).2 } := rfl
  unfold after
  by_cases length : (s.stream.read (some count)).1.length = count
  · rw [if_pos length] at split
    rw [length, start] at reached
    rw [split]
    refine ⟨ruled, further, fun a s' same => ?_⟩
    cases same
    exact ⟨length, reached⟩
  · rw [if_neg length] at split
    rw [split]
    exact ⟨ruled, further, nofun⟩

private theorem leads_read {count : Nat} {path : Path} {p : Nat} :
    (read count path).Leads params depth base (· = p) fun _ => (· = p + count) :=
  leads_readUnits.mono (fun _ => id) fun _ _ => And.right

private theorem Leads.onStream {x : Run α} {stream : Stream}
    (h : x.Leads params depth stream (· = stream.pos) Q) :
    (Run.onStream stream x).Leads params depth base P fun _ => P := by
  intro s ruled onward start
  have inside := h { s with stream } ruled (Stream.Onward.refl stream) rfl
  unfold after at inside
  unfold after Run.onStream
  cases run : x { s with stream } with
  | ok a s' =>
      rw [run] at inside
      refine ⟨inside.1, onward, fun b s'' same => ?_⟩
      cases same
      exact start
  | error failure s' =>
      rw [run] at inside
      exact ⟨inside.1, onward, nofun⟩

/-- A view that is left has moved its outer stream by the chunks before its position. -/
private theorem Leads.inView {x : Run α} {r : Recoding} {path : Path} {p : Nat}
    {Q' : α → Nat → Prop} (h : ∀ base, x.Leads params depth base (· = 0) Q)
    (reach : ∀ a units, Q a units → units % r.inner = 0 →
      Q' a (p + units / r.inner * r.outer)) :
    (Codec.inView r path x).Leads params depth base (· = p) Q' := by
  intro s ruled onward start
  have inside := h (s.stream.viewed r) { s with stream := s.stream.viewed r } ruled
    (Stream.Onward.refl _) rfl
  unfold after at inside
  unfold after Codec.inView
  dsimp only
  cases run : x { s with stream := s.stream.viewed r } with
  | error failure s' =>
      rw [run] at inside
      obtain ⟨ruled', viewed, -⟩ := inside
      have back := viewed.abandon.setPos
      exact ⟨ruled', onward.trans back, nofun⟩
  | ok a s' =>
      rw [run] at inside
      obtain ⟨ruled', viewed, reached⟩ := inside
      have reached := reached a s' rfl
      obtain ⟨outer, passed⟩ := viewed.finish
      dsimp only
      cases left : s'.stream.finish with
      | mk fault stream =>
          rw [left] at outer passed
          cases fault with
          | some fault => exact ⟨ruled', onward.trans outer.setPos, nofun⟩
          | none =>
              obtain ⟨aligned, pos⟩ := passed rfl
              refine ⟨ruled', onward.trans outer, fun b s'' same => ?_⟩
              cases same
              rw [start] at pos
              have there : stream.pos = _ := pos
              rw [there]
              exact reach a _ reached aligned

/-! ### Frames -/

private theorem Leads.inFrame {x : Run α} {values : Record Value}
    (h : x.Leads params (depth + 1) base P Q) :
    (Run.inFrame values x).Leads params depth base P fun result => Q result.1 := by
  intro s ruled onward start
  have inside := h { s with context := s.context.push values } (ruled.push values) onward start
  unfold after at inside
  unfold after Run.inFrame
  cases run : x { s with context := s.context.push values } with
  | ok a s' =>
      rw [run] at inside
      obtain ⟨ruled', onward', reached⟩ := inside
      refine ⟨ruled'.pop, onward', fun b s'' same => ?_⟩
      cases same
      exact reached a s' rfl
  | error failure s' =>
      rw [run] at inside
      exact ⟨inside.1.pop, inside.2.1, nofun⟩

private theorem leads_insert {name : String} {value : Value} :
    (Run.insert name value).Leads params (depth + 1) base P fun _ => P := by
  refine fun s ruled onward start => ⟨ruled.kept rfl, onward, fun a s' run => ?_⟩
  cases run
  exact start

private theorem leads_noteIndex {i : Nat} :
    (Codec.noteIndex i).Leads params depth base P fun _ => P := by
  refine fun s ruled onward start =>
    ⟨ruled.quiet (s.context.quiet_insert (by decide) (.ofNat i)), onward, fun a s' run => ?_⟩
  cases run
  exact start

end Run

/-! ### Expressions and comparisons -/

namespace Engine

variable {params : Record Value} {depth : Nat} {base : Stream} {P : Nat → Prop} {α : Type}
  {R : α → Nat → Prop} (e : Engine)

private theorem leads_eval {x : Expr} {path : Path} :
    (e.eval x path).Leads params depth base P fun _ => P :=
  fun s => Run.leads_lookup (x := x.evaluate e.resolver s.context.scope path) s

private theorem leads_evalOver {x : Expr} {object : Value} {path : Path} :
    (e.evalOver x object path).Leads params depth base P fun _ => P :=
  fun s => Run.leads_lookup
    (x := x.evaluate e.resolver { s.context.scope with object := some object } path) s

private theorem leads_holds {x : Expr} {path : Path} :
    (e.evalHolds x path).Leads params depth base P fun _ => P :=
  fun s => Run.leads_lookup (x := x.evaluateHolds e.resolver s.context.scope path) s

private theorem leads_equal {a b : Value} : (e.equal a b).Leads params depth base P fun _ => P :=
  Run.leads_lookup

private theorem leads_evalSize {x : Expr} (settled : x.Settled) {path : Path} {f : Nat → Run α}
    (later : ∀ n, x.sizeIn params = some n → (f n).Leads params depth base P R) :
    (e.evalSize x path >>= f).Leads params depth base P R :=
  Run.leads_settled (x := fun ctx => x.evaluateSize e.resolver ctx.scope path)
    (fun _ ruled => Expr.settles_evaluateSize settled ruled e.resolver path) later

private theorem leads_evalHolds {x : Expr} (settled : x.Settled) {path : Path} {f : Bool → Run α}
    (later : ∀ v, x.valueIn params = some v → (f v.holds).Leads params depth base P R) :
    (e.evalHolds x path >>= f).Leads params depth base P R := by
  refine Run.leads_settled (x := fun ctx => x.evaluateHolds e.resolver ctx.scope path)
    (fun _ ruled => Expr.settles_evaluateHolds settled ruled e.resolver path) fun holds known => ?_
  obtain ⟨v, value, rfl⟩ := Option.map_eq_some_iff.mp known
  exact later v value

end Engine

/-! ## Sizes and positions -/

namespace Sizes

/-- From one position to another by the size, if it is known. -/
def Reaches (known : Option Nat) (p q : Nat) : Prop := p ≤ q ∧ ∀ n, known = some n → q = p + n

variable {j k : Option Nat} {p q r n : Nat}

theorem reaches_add (p n : Nat) : Reaches (some n) p (p + n) :=
  ⟨Nat.le_add_right p n, fun m same => by cases same; rfl⟩

private theorem reaches_refl (p : Nat) : Reaches (some 0) p p := reaches_add p 0

theorem Reaches.trans (h : Reaches j p q) (h' : Reaches k q r) : Reaches (plus j k) p r := by
  refine ⟨h.1.trans h'.1, fun n known => ?_⟩
  obtain ⟨a, b, first, second, rfl⟩ := plus_eq_some.mp known
  rw [h'.2 b second, h.2 a first, Nat.add_assoc]

/-- Whatever was used of a room, the rest of it is passed over as well. -/
theorem Reaches.fill (h : Reaches j p q) (within : q - p ≤ n) :
    Reaches (some n) p (q + (n - (q - p))) := by
  have further := h.1
  have whole : q + (n - (q - p)) = p + n := by omega
  rw [whole]
  exact reaches_add p n

/-- From a known size it is known how far it is to the next multiple. -/
theorem Reaches.align {m : Nat} (h : Reaches j p q) (positive : m ≠ 0) :
    Reaches (j.map fun used => used + Codec.toMultiple used (max m 1)) p
      (q + Codec.toMultiple (q - p) m) := by
  refine ⟨h.1.trans (Nat.le_add_right _ _), fun n same => ?_⟩
  obtain ⟨used, known, rfl⟩ := Option.map_eq_some_iff.mp same
  have consumed := h.2 used known
  have one : max m 1 = m := by omega
  have passed : q - p = used := by omega
  rw [one, passed, consumed, Nat.add_assoc]

theorem Reaches.mono (h : Reaches j p q) (known : ∀ n, k = some n → j = some n) :
    Reaches k p q := ⟨h.1, fun n same => h.2 n (known n same)⟩

theorem Reaches.fitted (h : Reaches j p q) : Reaches (j.bind fitted) p q :=
  h.mono fun _ known => (bind_fitted.mp known).1

end Sizes

/-! ## Parsing -/

/-- Parsing reaches the position that the size says. -/
structure Codec.Paced (params : Record Value) (c : Codec) (known : Option Nat) : Prop where
  parse : ∀ path depth base p,
    (c.parse path).Leads params depth base (· = p) fun _ => Sizes.Reaches known p
  parseInline : ∀ path overwrite depth base p,
    (c.parseInline path overwrite).Leads params (depth + 1) base (· = p)
      fun _ => Sizes.Reaches known p

namespace Codec

open Run Sizes

variable {params : Record Value} {depth : Nat} {base : Stream} {P : Nat → Prop} {e : Engine}
  {c : Codec} {j k : Option Nat}

private theorem paced_of {c : Codec} {known : Option Nat}
    (inline : ∀ path overwrite, c.parseInline path overwrite =
      Run.fail (.misshapen .embedding) path)
    (parse : ∀ path depth base p,
      (c.parse path).Leads params depth base (· = p) fun _ => Reaches known p) :
    c.Paced params known where
  parse := parse
  parseInline path overwrite depth base p := by
    rw [inline]
    exact leads_fail

private theorem Paced.fitted (h : c.Paced params j) : c.Paced params (j.bind fitted) where
  parse path depth base p :=
    (h.parse path depth base p).mono (fun _ => id) fun _ _ => Reaches.fitted
  parseInline path overwrite depth base p :=
    (h.parseInline path overwrite depth base p).mono (fun _ => id) fun _ _ => Reaches.fitted

theorem Paced.part {of : Part} (h : of.codec.Paced params j) (path : Path) (depth : Nat)
    (base : Stream) (p : Nat) :
    (of.parse path).Leads params depth base (· = p) fun _ => Reaches j p :=
  (h.parse path depth base p).tagged

/-! ### Components without components -/

private theorem paced_bytes {length : Expr} (settled : length.Settled) :
    (bytes e length).Paced params (length.sizeIn params) := by
  refine paced_of (fun _ _ => rfl) fun path depth base p =>
    e.leads_evalSize settled fun n known => .bind leads_read fun data => leads_pure ?_
  rintro _ rfl
  rw [known]
  exact reaches_add p n

private theorem paced_integer {width : Expr} (settled : width.Settled) (signed : Bool)
    (endian : Endian) :
    (integer e width signed endian).Paced params (width.sizeIn params) := by
  refine paced_of (fun _ _ => rfl) fun path depth base p =>
    e.leads_evalSize settled fun n known => .bind leads_ofExcept fun _ =>
      .bind leads_read fun data => .bind leads_ofExcept fun v => leads_pure ?_
  rintro _ rfl
  rw [known]
  exact reaches_add p n

private theorem paced_bitInteger {width : Expr} (settled : width.Settled) (signed swapped : Bool) :
    (bitInteger e width signed swapped).Paced params (width.sizeIn params) := by
  refine paced_of (fun _ _ => rfl) fun path depth base p =>
    e.leads_evalSize settled fun n known => .bind leads_ofExcept fun _ =>
      .bind leads_read fun units => ?_
  have shown : ∀ units, (do
      let v ← Run.ofExcept path (Integer.ofPattern (Bits.toNat units) n signed)
      return .int v : Run Value).Leads params depth base (· = p + n)
        fun _ => Reaches (width.sizeIn params) p := by
    refine fun units => .bind leads_ofExcept fun v => leads_pure ?_
    rintro _ rfl
    rw [known]
    exact reaches_add p n
  exact leads_ite (fun _ => .bind leads_ofExcept shown)
    fun _ => .bind (leads_pure fun _ => id) shown

private theorem paced_flag : flag.Paced params (some 1) := by
  refine paced_of (fun _ _ => rfl) fun path depth base p =>
    .bind leads_read fun data => leads_pure ?_
  rintro _ rfl
  exact reaches_add p 1

private theorem paced_fixedText {length : Expr} (settled : length.Settled) (encoding : Encoding)
    (pad : Char) (side : PadSide) (trim : Option TrimEnd) :
    (fixedText e length encoding pad side trim).Paced params (length.sizeIn params) := by
  refine paced_of (fun _ _ => rfl) fun path depth base p =>
    e.leads_evalSize settled fun n known => .bind leads_read fun data =>
      .bind leads_ofExcept fun unit => leads_ofExcept.mono (fun _ => id) ?_
  rintro _ _ rfl
  rw [known]
  exact reaches_add p n

theorem reaches_here {p : Nat} {q : Nat} (same : q = p) : Reaches (some 0) p q := by
  subst same
  exact reaches_refl q

private theorem paced_pass : pass.Paced params (some 0) :=
  paced_of (fun _ _ => rfl) fun _ _ _ _ => leads_pure fun _ => reaches_here

private theorem paced_tell : Codec.tell.Paced params (some 0) :=
  paced_of (fun _ _ => rfl) fun _ _ _ _ => leads_tell fun _ same => leads_pure fun _ here =>
    reaches_here (here.trans same)

private theorem paced_computed (expr : Expr) : (computed e expr).Paced params (some 0) :=
  paced_of (fun _ _ => rfl) fun _ _ _ _ => e.leads_eval.mono (fun _ => id) fun _ _ => reaches_here

private theorem paced_check (condition : Expr) : (check e condition).Paced params (some 0) :=
  paced_of (fun _ _ => rfl) fun _ _ _ _ => .bind e.leads_holds fun _ =>
    leads_ite (fun _ => leads_pure fun _ => reaches_here) fun _ => leads_fail

private theorem leads_skipFill {fill : Fill} {count p : Nat} {path : Path} :
    (skipFill fill count path).Leads params depth base (· = p) fun _ => (· = p + count) := by
  refine .bind leads_read fun data => leads_ite (fun _ => ?_) fun _ => leads_pure fun _ => id
  cases firstOther fill.pattern 0 data with
  | none => exact leads_pure fun _ => id
  | some found => exact leads_fail

private theorem paced_padding {length : Expr} (settled : length.Settled) (fill : Fill) :
    (padding e length fill).Paced params (length.sizeIn params) := by
  refine paced_of (fun _ _ => rfl) fun path depth base p =>
    e.leads_evalSize settled fun n known => .bind leads_skipFill fun _ => leads_pure ?_
  rintro _ rfl
  rw [known]
  exact reaches_add p n

/-! ### Values behind others -/

private theorem paced_constant (h : c.Paced params j) (value : Value) :
    (constant e c value).Paced params j :=
  paced_of (fun _ _ => rfl) fun path depth base p => .bind (h.parse path depth base p) fun _ =>
    .bind e.leads_equal fun _ => leads_ite
      (fun _ => .bind leads_lookup fun _ => .bind leads_lookup fun _ => .bind leads_fail fun _ =>
        leads_pure fun _ => id)
      fun _ => leads_pure fun _ => id

private theorem paced_fallback (h : c.Paced params j) (value : Value) :
    (fallback c value).Paced params j :=
  paced_of (fun _ _ => rfl) h.parse

private theorem paced_rebuild {of : Part} (h : of.codec.Paced params j) (expr : Expr) :
    (rebuild e of expr).Paced params j :=
  paced_of (fun _ _ => rfl) h.parse

private theorem leads_digestsAgree {stored computed : Value} :
    (digestsAgree e stored computed).Leads params depth base P fun _ => P := by
  unfold digestsAgree
  split
  · exact leads_pure fun _ => id
  · exact leads_pure fun _ => id
  · exact e.leads_equal

private theorem paced_checksum {of : Part} (h : of.codec.Paced params j) (hash : Hash)
    (data : Expr) :
    (checksum e of hash data).Paced params j :=
  paced_of (fun _ _ => rfl) fun path depth base p => .bind (h.parse path depth base p) fun _ =>
    .bind e.leads_eval fun _ => .bind leads_ofExcept fun _ =>
      .bind leads_digestsAgree fun _ => leads_ite
        (fun _ => .bind leads_lookup fun _ => .bind leads_lookup fun _ => .bind leads_fail fun _ =>
          leads_pure fun _ => id)
        fun _ => leads_pure fun _ => id

private theorem leads_isAmong {v : Value} (values : List Value) :
    (isAmong e v values).Leads params depth base P fun _ => P := by
  induction values with
  | nil => exact leads_pure fun _ => id
  | cons other rest ih =>
      exact .bind e.leads_equal fun same => leads_ite (fun _ => leads_pure fun _ => id) fun _ => ih

private theorem leads_validate (rule : Rule) {v : Value} {path : Path} :
    (validate e rule v path).Leads params depth base P fun _ => P := by
  cases rule with
  | satisfies predicate =>
      exact .bind e.leads_evalOver fun _ => leads_ite
        (fun _ => .bind leads_lookup fun _ => leads_fail) fun _ => leads_pure fun _ => id
  | oneOf allowed =>
      exact .bind (leads_isAmong allowed) fun _ => leads_ite
        (fun _ => .bind leads_lookup fun _ => leads_fail) fun _ => leads_pure fun _ => id
  | noneOf denied =>
      exact .bind (leads_isAmong denied) fun _ => leads_ite
        (fun _ => .bind leads_lookup fun _ => leads_fail) fun _ => leads_pure fun _ => id

private theorem paced_validated (h : c.Paced params j) (rule : Rule) :
    (validated e c rule).Paced params j :=
  paced_of (fun _ _ => rfl) fun path depth base p => .bind (h.parse path depth base p) fun _ =>
    .bind (leads_validate rule) fun _ => leads_pure fun _ => id

private theorem paced_labelled (h : c.Paced params j) (labels : List (String × Int))
    (unlabelled : Unlabelled) : (labelled c labels unlabelled).Paced params j := by
  refine paced_of (fun _ _ => rfl) fun path depth base p =>
    .bind (h.parse path depth base p) fun raw => ?_
  cases raw.int? with
  | none => exact leads_fail
  | some n =>
      dsimp only
      split
      · exact leads_pure fun _ => id
      · exact leads_pure fun _ => id
      · exact leads_pure fun _ => id
      · exact leads_fail

private theorem leads_findPair {v : Value} (table : List (Value × Value)) :
    (findPair e v table).Leads params depth base P fun _ => P := by
  induction table with
  | nil => exact leads_pure fun _ => id
  | cons entry rest ih =>
      exact .bind e.leads_equal fun same => leads_ite (fun _ => leads_pure fun _ => id) fun _ => ih

private theorem paced_mapped (h : c.Paced params j) (table : List (Value × Value)) :
    (mapped e c table).Paced params j := by
  refine paced_of (fun _ _ => rfl) fun path depth base p =>
    .bind (h.parse path depth base p) fun raw => .bind (leads_findPair table) fun found => ?_
  cases found with
  | some shown => exact leads_pure fun _ => id
  | none => exact .bind leads_lookup fun _ => leads_fail

private theorem paced_flagSet (h : c.Paced params j) (flags : List (String × Nat)) (strict : Bool) :
    (flagSet c flags strict).Paced params j := by
  refine paced_of (fun _ _ => rfl) fun path depth base p =>
    .bind (h.parse path depth base p) fun v => ?_
  cases v.int? with
  | none => exact leads_fail
  | some n =>
      refine leads_guard fun _ => leads_ite (fun _ => leads_pure fun _ => id) fun _ => ?_
      exact leads_guard fun _ => leads_pure fun _ => id

/-! ### Structures -/

/-- Components with their sizes. -/
abbrev PacedAll (params : Record Value) : List Part → List (Option Nat) → Prop :=
  List.Forall₂ fun p known => p.codec.Paced params known

variable {parts : List Part} {knowns : List (Option Nat)}

theorem leads_from {α : Type} {x : Run α} {R : α → Nat → Prop}
    (h : ∀ p, P p → x.Leads params depth base (· = p) R) : x.Leads params depth base P R :=
  fun s ruled onward start => h s.stream.pos start s ruled onward rfl

private theorem leads_context : Run.context.Leads params depth base P fun _ => P := by
  refine fun s ruled onward start => ⟨ruled, onward, fun a s' run => ?_⟩
  cases run
  exact start

private theorem leads_insertInline {name : String} {value : Value} {overwrite : Bool}
    {path : Path} :
    (Run.insertInline name value overwrite path).Leads params (depth + 1) base P fun _ => P :=
  .bind leads_context fun _ => leads_guard fun _ => leads_insert

private theorem leads_trans {α β : Type} {x : Run α} {f : α → Run β} {p : Nat}
    (hx : x.Leads params depth base (· = p) fun _ => Reaches j p)
    (hf : ∀ a q, (f a).Leads params depth base (· = q) fun _ => Reaches k q) :
    (x >>= f).Leads params depth base (· = p) fun _ => Reaches (plus j k) p :=
  hx.bind fun a => leads_from fun q first => (hf a q).mono (fun _ => id) fun _ _ => first.trans

private theorem leads_parseFields (h : PacedAll params parts knowns) (overwrite inlined : Bool)
    (path : Path) (p : Nat) :
    (parseFields overwrite inlined path parts).Leads params (depth + 1) base (· = p)
      fun _ => Reaches (total knowns) p := by
  induction h generalizing p with
  | nil => exact leads_pure fun _ => reaches_here
  | @cons field j rest knowns first _ ih =>
      rw [parseFields]
      have later : ∀ (_ : Unit) q,
        (parseFields overwrite inlined path rest).Leads params (depth + 1)
          base (· = q) fun _ => Reaches (total knowns) q := fun _ => ih
      refine leads_ite (fun _ => leads_trans (first.parseInline path overwrite depth base p) later)
        fun _ => ?_
      cases field.name? with
      | none =>
          exact leads_trans (first.part path (depth + 1) base p) fun _ => ih
      | some name =>
          refine (first.part (path.member name) (depth + 1) base p).bind fun value =>
            leads_from fun q reached => ?_
          have rest : (parseFields overwrite inlined path rest).Leads params (depth + 1) base
              (· = q) fun _ => Reaches (total (j :: knowns)) p :=
            (ih q).mono (fun _ => id) fun _ _ => reached.trans
          exact leads_ite (fun _ => .bind leads_insertInline fun _ => rest)
            fun _ => .bind leads_insert fun _ => rest

private theorem paced_struct (h : PacedAll params parts knowns) (overwrite : Bool) :
    (struct e parts overwrite).Paced params (total knowns) where
  parse path _ _ p :=
    .bind (leads_parseFields h overwrite false path p).inFrame fun _ => leads_pure fun _ => id
  parseInline path overwrite _ _ p := leads_parseFields h overwrite true path p

private theorem leads_noteItem {item : Part} {value : Value} :
    (noteItem item value).Leads params (depth + 1) base P fun _ => P := by
  unfold noteItem
  cases item.name? with
  | none => exact leads_pure fun _ => id
  | some name => exact leads_insert

private theorem leads_parseItems (h : PacedAll params parts knowns) (path : Path) (i p : Nat) :
    (parseItems path i parts).Leads params (depth + 1) base (· = p)
      fun _ => Reaches (total knowns) p := by
  induction h generalizing i p with
  | nil => exact leads_pure fun _ => reaches_here
  | @cons item j rest knowns first _ ih =>
      rw [parseItems]
      refine leads_trans (first.part _ (depth + 1) base p) fun value q =>
        .bind leads_noteItem fun _ => .bind (ih (i + 1) q) fun _ => leads_pure fun _ => id

private theorem paced_sequence (h : PacedAll params parts knowns) :
    (sequence e parts).Paced params (total knowns) :=
  paced_of (fun _ _ => rfl) fun path _ _ p =>
    .bind (leads_parseItems h path 0 p).inFrame fun _ => leads_pure fun _ => id

private theorem paced_focused (h : PacedAll params parts knowns) (focus : Selector) :
    (focused e focus parts).Paced params (total knowns) := by
  refine paced_of (fun _ _ => rfl) fun path depth base p =>
    .bind (Q := fun _ => (· = p)) ?_ fun i =>
      .bind (leads_parseItems h path 0 p).inFrame fun _ => leads_pure fun _ => id
  unfold focusIndex
  cases Select.index? focus parts with
  | none => exact leads_fail
  | some i => exact leads_pure fun _ => id

/-! ### Repetition -/

private theorem leads_parseCounted {of : Part} (h : of.codec.Paced params j) (path : Path)
    (count i p : Nat) : (parseCounted of path count i).Leads params depth base (· = p)
      fun _ => Reaches (times count j) p := by
  induction count generalizing i p with
  | zero =>
      refine leads_pure ?_
      rintro _ rfl
      refine ⟨Nat.le_refl _, fun n known => ?_⟩
      cases j <;> simp [times] at known
      omega
  | succ count ih =>
      have sum : ∀ n, times (count + 1) j = some n → plus j (times count j) = some n := by
        intro n known
        cases j <;> simp [times, plus] at known ⊢
        rw [← known, Nat.succ_mul, Nat.add_comm]
      rw [parseCounted]
      refine .bind leads_noteIndex fun _ => ?_
      refine Leads.mono (leads_trans (h.part _ depth base p) fun v q =>
        .bind (ih (i + 1) q) fun _ => leads_pure fun _ => id) (fun _ => id) fun _ _ reached => ?_
      exact reached.mono sum

private theorem paced_array {count : Expr} (settled : count.Settled) {of : Part}
    (h : of.codec.Paced params j) (discard : Bool) :
    (array e count of discard).Paced params ((count.sizeIn params).bind fun count =>
      (times count j).bind fitted) := by
  refine paced_of (fun _ _ => rfl) fun path depth base p =>
    e.leads_evalSize settled fun n known =>
      .bind (leads_parseCounted h path n 0 p) fun items => leads_pure fun q reached => ?_
  rw [known]
  exact reached.fitted

/-- Where a run starts is a base of its own. -/
private theorem leads_rebase {α : Type} {x : Run α} {R : α → Nat → Prop} {p : Nat}
    (h : ∀ here : Stream, here.pos = p → x.Leads params depth here (· = p) R) :
    x.Leads params depth base (· = p) R := by
  intro s ruled onward start
  obtain ⟨ruled', onward', reached⟩ := h s.stream start s ruled (Stream.Onward.refl _) start
  exact ⟨ruled', onward.trans onward', reached⟩

private theorem leads_parseGreedy {of : Part} (h : of.codec.Paced params j) (path : Path)
    (most i p : Nat) : (parseGreedy of path most i).Leads params depth base (· = p)
      fun items q => items.length ≤ most ∧ Reaches (times items.length j) p q := by
  have none : ∀ p, Reaches (times 0 j) p p := by
    refine fun p => ⟨Nat.le_refl p, fun n known => ?_⟩
    cases j <;> simp [times] at known
    omega
  induction most generalizing base i p with
  | zero =>
      refine leads_pure ?_
      rintro _ rfl
      exact ⟨Nat.le_refl 0, none _⟩
  | succ most ih =>
      rw [parseGreedy]
      refine leads_rebase fun here start => leads_tell ?_
      rintro p rfl
      refine .bind leads_noteIndex fun _ => .attempt (h.part _ depth here p) (fun v => ?_)
        fun failure => ?_
      · refine leads_tell fun q reached => leads_ite (fun same => leads_pure ?_) fun _ => ?_
        · rintro _ rfl
          subst same
          exact ⟨Nat.zero_le _, none _⟩
        · refine .bind (ih (i + 1) q) fun items => leads_pure fun r later => ?_
          obtain ⟨few, later⟩ := later
          refine ⟨Nat.succ_le_succ few, (reached.trans later).mono fun n known => ?_⟩
          cases j <;> simp [times, plus] at known ⊢
          rw [← known, Nat.succ_mul, Nat.add_comm]
      · refine leads_ite (fun _ => leads_throw_bind) fun _ => .bind (leads_goTo start) fun _ =>
          leads_pure fun q same => ?_
        subst same
        exact ⟨Nat.zero_le _, none _⟩

private theorem leads_bounds {least most : Expr} (settled : least.Settled) (settled' : most.Settled)
    (path : Path) : (bounds e least (some most) path).Leads params depth base P fun found q =>
      (least.sizeIn params = some found.1 ∧ most.sizeIn params = some found.2) ∧ P q :=
  e.leads_evalSize settled fun _ known => e.leads_evalSize settled' fun _ known' =>
    leads_guard fun _ => leads_pure fun _ start => ⟨⟨known, known'⟩, start⟩

private theorem paced_range {least most : Expr} (settled : least.Settled) (settled' : most.Settled)
    {of : Part} (h : of.codec.Paced params j) (discard : Bool) :
    (range e least most of discard).Paced params ((least.sizeIn params).bind fun least =>
      (most.sizeIn params).bind fun most =>
        if least ≠ most then none else (times least j).bind fitted) := by
  refine paced_of (fun _ _ => rfl) fun path depth base p => ?_
  refine .bind (leads_bounds settled settled' path) fun found => leads_assuming fun known =>
    .bind (leads_parseGreedy h path found.2 0 p) fun items => leads_guard fun enough =>
      leads_pure fun q reached => ?_
  obtain ⟨few, reached⟩ := reached
  refine reached.mono fun n same => ?_
  rw [known.1, known.2] at same
  simp only [Option.bind_some] at same
  split at same
  · cases same
  · have count : items.length = found.1 := by omega
    rw [count, (bind_fitted.mp same).1]

/-! ### Choice -/

private theorem leads_parseFirst (h : PacedAll params parts knowns)
    (common : ∀ n, k = some n → ∀ j ∈ knowns, j = some n) (tagged : Bool) {start : Nat}
    (here : base.pos = start) (path : Path) :
    (parseFirst tagged start path parts).Leads params depth base (· = start)
      fun found q => ∀ v, found = some v → Reaches k start q := by
  induction h with
  | nil => exact leads_pure fun _ _ => nofun
  | @cons alternative j rest knowns first _ ih =>
      have later := ih fun n known i mem => common n known i (List.mem_cons_of_mem _ mem)
      rw [parseFirst]
      refine .attempt (first.part path depth base start) (fun v => ?_) fun failure => ?_
      · refine leads_pure fun q reached v _ => reached.mono fun n known => ?_
        exact common n known j List.mem_cons_self
      · exact leads_ite (fun _ => leads_throw_bind) fun _ => .bind (leads_goTo here) fun _ => later

private theorem paced_select (h : PacedAll params parts knowns) (tagged : Bool) :
    (select parts tagged).Paced params ((all knowns).bind commonSize) := by
  refine paced_of (fun _ _ => rfl) fun path depth base p => leads_rebase fun here start =>
    leads_tell ?_
  rintro p rfl
  refine .bind (leads_parseFirst h (fun n known => eq_of_common known) tagged start path)
    fun found => ?_
  cases found with
  | some v => exact leads_pure fun q reached => reached v rfl
  | none => exact leads_fail

private theorem paced_branch {condition : Expr} (settled : condition.Settled) {yes no : Codec}
    (h : yes.Paced params j) (h' : no.Paced params k) :
    (branch e condition yes no).Paced params ((condition.valueIn params).bind fun v =>
      if v.holds then j else k) := by
  refine paced_of (fun _ _ => rfl) fun path depth base p =>
    e.leads_evalHolds settled fun v value => ?_
  rw [value]
  dsimp only [Option.bind_some]
  split
  · exact h.parse path depth base p
  · exact h'.parse path depth base p

private theorem leads_choose {α : Type} {key : Expr} (plain : key.Plain params)
    {cases : List (Value × Part)}
    (keys : ∀ c ∈ cases, c.1.Eager) {fallback : Option Part} {path : Path} {f : Part → Run α}
    {R : α → Nat → Prop}
    (later : ∀ v part, key.valueIn params = some v → caseOf v cases fallback = some part →
      (f part).Leads params depth base P R) :
    (do
      let scope ← Run.scope
      let part ← Run.lookup (chooseCase e.resolver key cases fallback scope path)
      f part).Leads params depth base P R := by
  have next : ∀ part, ((key.valueIn params).bind fun v => caseOf v cases fallback) = some part →
      (f part).Leads params depth base P R := by
    intro part found
    obtain ⟨v, value, found⟩ := Option.bind_eq_some_iff.mp found
    exact later v part value found
  exact leads_settled (x := fun ctx => chooseCase e.resolver key cases fallback ctx.scope path)
    (fun _ ruled => settles_chooseCase e.resolver plain keys fallback ruled path) next

private theorem paced_switch {key : Expr} (plain : key.Plain params)
    {cases : List (Value × Part)} (keys : ∀ c ∈ cases, c.1.Eager) {fallback : Option Part}
    {chosen : Option Nat}
    (known : ∀ v part, key.valueIn params = some v → caseOf v cases fallback = some part →
      part.codec.Paced params chosen) :
    (switch e key cases fallback).Paced params chosen :=
  paced_of (fun _ _ => rfl) fun path depth base p => leads_choose plain keys
    fun v part value found => (known v part value found).parse path depth base p

/-! ### Look-ahead and padding -/

private theorem paced_peek {of : Part} (h : of.codec.Paced params j) :
    (peek of).Paced params (some 0) := by
  refine paced_of (fun _ _ => rfl) fun path depth base p => leads_rebase fun here start =>
    leads_tell ?_
  rintro p rfl
  refine .attempt (h.part path depth here p) (fun v => ?_) fun failure => ?_
  · exact .bind (leads_goTo start) fun _ => leads_pure fun _ => reaches_here
  · exact .bind (leads_goTo start) fun _ => leads_ite (fun _ => leads_throw) fun _ =>
      leads_pure fun _ => reaches_here

private theorem leads_remainder {total used : Nat} {path : Path} :
    (remainder total used path).Leads params depth base P
      fun rest q => (used ≤ total ∧ rest = total - used) ∧ P q :=
  leads_ite (fun within => leads_pure fun _ start => ⟨⟨within, rfl⟩, start⟩) fun _ => leads_fail

private theorem paced_padded {length : Expr} (settled : length.Settled) (h : c.Paced params j)
    (fill : Fill) : (padded e length c fill).Paced params (length.sizeIn params) := by
  refine paced_of (fun _ _ => rfl) fun path depth base p =>
    e.leads_evalSize settled fun n known => leads_tell ?_
  rintro p rfl
  refine .bind (h.parse path depth base p) fun v => leads_tell fun q reached =>
    .bind leads_remainder fun rest => leads_assuming fun fits => .bind leads_skipFill fun _ =>
      leads_pure fun r there => ?_
  obtain ⟨within, rfl⟩ := fits
  rw [known, there]
  rw [Size.sub_of_le reached.1] at within ⊢
  exact reached.fill within

private theorem leads_evalModulus {modulus : Expr} (settled : modulus.Settled) {path : Path} :
    (evalModulus e modulus path).Leads params depth base P
      fun m q => (modulus.sizeIn params = some m ∧ m ≠ 0) ∧ P q :=
  e.leads_evalSize settled fun _ known => leads_guard fun positive =>
    leads_pure fun _ start => ⟨⟨known, positive⟩, start⟩

private theorem paced_aligned {modulus : Expr} (settled : modulus.Settled) (h : c.Paced params j)
    (fill : Fill) :
    (aligned e modulus c fill).Paced params ((modulus.sizeIn params).bind fun m =>
      (j.map fun used => used + toMultiple used (max m 1)).bind Sizes.fitted) := by
  refine paced_of (fun _ _ => rfl) fun path depth base p =>
    .bind (leads_evalModulus settled) fun m => leads_assuming fun modulus => leads_tell ?_
  rintro p rfl
  refine .bind (h.parse path depth base p) fun v => leads_tell fun q reached =>
    .bind leads_skipFill fun _ => leads_pure fun r there => ?_
  obtain ⟨known, positive⟩ := modulus
  rw [known, there, Size.sub_of_le reached.1]
  exact (reached.align positive).fitted

/-! ### Envelopes -/

theorem leads_parseSlice (h : c.Paced params j) (data : List UInt8) (path : Path) :
    (c.parseSlice data path).Leads params depth base P
      fun found q => (Reaches j 0 found.2 ∧ found.2 ≤ data.length) ∧ P q := by
  refine leads_of (fun s a s' ruled onward start run => ?_)
    fun s failure s' ruled onward start run => ?_
  · obtain ⟨⟨v, stream⟩, s₁, inside, last⟩ := bind_eq_ok_iff.mp run
    obtain ⟨rfl, rfl⟩ := pure_eq_ok_iff.mp last
    obtain ⟨s₂, parsed, left, rfl⟩ := ok_of_onStream inside
    obtain ⟨ruled', within, reached⟩ := (h.parse path depth (.memory data) 0).of_ok
      (s := { s with stream := .memory data }) ruled (Stream.Onward.refl _) rfl parsed
    dsimp only at left
    subst left
    refine ⟨ruled', onward, ⟨reached, ?_⟩, start⟩
    cases stream : s₂.stream with
    | medium m =>
        rw [stream] at within
        obtain ⟨-, -, inside⟩ := within
        have bound := inside (Nat.zero_le _)
        simp only [Medium.base, Nat.zero_add] at bound
        exact bound
    | view v outer =>
        rw [stream] at within
        exact within.elim
  · have kept : (Run.onStream (.memory data) (c.parse path)).Leads params depth base P
        fun _ => P := (h.parse path depth (.memory data) 0).onStream
    have step : (c.parseSlice data path).Leads params depth base P fun _ => P :=
      .bind kept fun _ => leads_pure fun _ => id
    exact step.of_error ruled onward start run

theorem leads_overhead {length : Part} {inclusive : Bool} {path : Path} :
    (overhead length inclusive path).Leads params depth base P fun _ => P :=
  leads_ite (fun _ s => leads_lookup (x := length.codec.size s.context path) s)
    fun _ => leads_pure fun _ => id

private theorem paced_prefixed {length : Part} (h : length.codec.Paced params j)
    (h' : c.Paced params k)
    (inclusive : Bool) : (prefixed length c inclusive false).Paced params (plus j k) := by
  refine paced_of (fun _ _ => rfl) fun path depth base p =>
    .bind (h.part path depth base p) fun stored => ?_
  cases stored.int? with
  | none => exact leads_fail
  | some stored =>
      refine leads_from fun q first => .bind leads_overhead fun _ => leads_guard fun fits =>
        .bind leads_readUnits fun data => leads_assuming fun length =>
          .bind (leads_parseSlice h' data path) fun found => leads_assuming fun inside =>
            leads_guard fun whole => leads_pure fun r there => ?_
      have here : Reaches k q r := by
        refine ⟨by omega, fun n known => ?_⟩
        have consumed := inside.1.2 n known
        simp only [Bool.not_false, Bool.true_and, decide_eq_true_eq] at whole
        omega
      exact first.trans here

private theorem paced_fixedSized {length : Expr} (settled : length.Settled) (h : c.Paced params j) :
    (fixedSized e length c).Paced params (length.sizeIn params) := by
  refine paced_of (fun _ _ => rfl) fun path depth base p =>
    e.leads_evalSize settled fun n known => .bind leads_read fun data =>
      .bind (leads_parseSlice h data path) fun found => leads_assuming fun _ => leads_pure ?_
  rintro _ rfl
  rw [known]
  exact reaches_add p n

private theorem leads_applyTransform (transform : Transform) {inverse : Bool} {data : List UInt8}
    {path : Path} :
    (applyTransform e inverse data path transform).Leads params depth base P fun _ => P := by
  cases transform with
  | reverseBytes => exact leads_pure fun _ => id
  | reverseBits => exact leads_pure fun _ => id
  | xor key =>
      refine .bind (Q := fun _ => P) ?_ fun _ => leads_pure fun _ => id
      refine .bind e.leads_eval fun v => ?_
      split
      · exact leads_ite (fun _ => leads_pure fun _ => id) fun _ => leads_fail
      · exact leads_ite (fun _ => leads_fail) fun _ => leads_pure fun _ => id
      · exact leads_fail
  | rotateLeft amount group =>
      refine leads_guard fun _ => .bind (Q := fun _ => P) (fun s => ?_) fun _ =>
        leads_pure fun _ => id
      exact leads_lookup (x := amount.evaluateSize e.resolver s.context.scope path) s

private theorem leads_evalExtent (h : c.Measured params j) {extent : Extent}
    (settled : ∀ x, extent = .fixed x → x.Settled) (bounded : extent ≠ .toEnd) {path : Path} :
    (evalExtent e extent c path).Leads params depth base P fun found q =>
      (∃ n, found = some n ∧ ∀ m, extentSize params j extent = some m → n = m) ∧ P q := by
  cases extent with
  | ofChild =>
      exact leads_yields (x := fun ctx => c.size ctx path) (fun ctx ruled => h depth ctx path ruled)
        fun n known => leads_pure fun _ start => ⟨⟨n, rfl, known⟩, start⟩
  | toEnd => exact absurd rfl bounded
  | fixed x =>
      exact e.leads_evalSize (settled x rfl) fun n known => leads_pure fun _ start =>
        ⟨⟨n, rfl, fun m same => Option.some.inj (known.symm.trans same)⟩, start⟩

private theorem paced_transformed (h : c.Paced params j) (sized : c.Measured params j)
    (transform : Transform) {extent : Extent} (settled : ∀ x, extent = .fixed x → x.Settled)
    (bounded : extent ≠ .toEnd) :
    (transformed e c transform extent).Paced params (extentSize params j extent) := by
  refine paced_of (fun _ _ => rfl) fun path depth base p =>
    .bind (leads_evalExtent sized settled bounded) fun found => leads_assuming fun known => ?_
  obtain ⟨n, rfl, same⟩ := known
  refine .bind leads_read fun data => .bind (leads_applyTransform transform) fun decoded =>
    .bind (leads_parseSlice h decoded path) fun found => leads_assuming fun _ => leads_pure ?_
  rintro _ rfl
  exact (reaches_add p n).mono fun m known => congrArg some (same m known)

private theorem paced_recoded (h : c.Paced params j) (r : Recoding) (checked : Bool) :
    (recoded e c r checked).Paced params (j.bind (recodedSize r)) := by
  have view : ∀ path depth base p, (inView r path (c.parse path)).Leads params depth base (· = p)
      fun _ => Reaches (j.bind (recodedSize r)) p := by
    intro path depth base p
    refine Leads.inView (fun base => h.parse path depth base 0) fun _ units reached aligned => ?_
    refine ⟨Nat.le_add_right _ _, fun n same => ?_⟩
    cases j with
    | none => cases same
    | some size =>
        have passed := reached.2 size rfl
        rw [Nat.zero_add] at passed
        subst passed
        simp only [Option.bind_some, recodedSize, aligned, ne_eq, not_true_eq_false, if_false,
          Option.some.injEq] at same
        rw [same]
  refine paced_of (fun _ _ => rfl) fun path depth base p =>
    leads_ite (fun _ => ?_) fun _ => view path depth base p
  refine .bind (leads_tell fun q here => leads_ite (fun _ => leads_fail) fun _ =>
    leads_pure fun _ there => there.trans here) fun _ => view path depth base p

end Codec

/-! ## Formats -/

namespace Format

mutual

/-- A component every length, count, modulus, condition and key of which is a literal or a
parameter. -/
def Settled (params : Record Value) : Format → Prop
  | bytes length | integer length _ _ | bitInteger length _ _ | padding length _
  | fixedText length _ _ _ _ => length.Settled
  | flag | pass | tell | computed _ | check _ => True
  | named _ of | documented _ of | embedded of | peek of | constant of _ | rebuild of _
  | fallback of _ | checksum of _ _ | validated of _ | labelled of _ _ | mapped of _
  | flagSet of _ _ | recoded of _ _ => Settled params of
  | struct members _ | sequence members | focused _ members | select members _ =>
      SettledAll params members
  | array count of _ => count.Settled ∧ Settled params of
  | range least most of _ => least.Settled ∧ most.Settled ∧ Settled params of
  | branch condition yes no => condition.Settled ∧ Settled params yes ∧ Settled params no
  | switch key cases otherwise =>
      key.Plain params ∧ SettledCases params cases ∧ SettledIf params otherwise
  | padded length of _ | aligned length of _ | fixedSized length of =>
      length.Settled ∧ Settled params of
  | prefixed length of _ lenient => lenient = false ∧ Settled params length ∧ Settled params of
  | transformed of _ extent =>
      extent ≠ .toEnd ∧ (∀ x, extent = .fixed x → x.Settled) ∧ Settled params of
  | _ => False

def SettledAll (params : Record Value) : List Format → Prop
  | [] => True
  | f :: rest => Settled params f ∧ SettledAll params rest

def SettledCases (params : Record Value) : List (Value × Format) → Prop
  | [] => True
  | (key, f) :: rest => key.Eager ∧ Settled params f ∧ SettledCases params rest

def SettledIf (params : Record Value) : Option Format → Prop
  | none => True
  | some f => Settled params f

end

mutual

/-- How large a settled component is, if no sum or product of sizes in it passes the largest
size. -/
def sizeIn (params : Record Value) : Format → Option Nat
  | bytes length | integer length _ _ | bitInteger length _ _ | padding length _
  | fixedText length _ _ _ _ | padded length _ _ | fixedSized length _ => length.sizeIn params
  | flag => some 1
  | pass | tell | computed _ | check _ | peek _ => some 0
  | named _ of | documented _ of | embedded of | constant of _ | rebuild of _ | fallback of _
  | checksum of _ _ | validated of _ | labelled of _ _ | mapped of _ | flagSet of _ _ =>
      sizeIn params of
  | struct members _ | sequence members | focused _ members =>
      (Sizes.total (sizesIn params members)).bind Sizes.fitted
  | select members _ => (Sizes.all (sizesIn params members)).bind Codec.commonSize
  | array count of _ => (count.sizeIn params).bind fun count =>
      (Sizes.times count (sizeIn params of)).bind Sizes.fitted
  | range least most of _ => (least.sizeIn params).bind fun least =>
      (most.sizeIn params).bind fun most =>
        if least ≠ most then none else (Sizes.times least (sizeIn params of)).bind Sizes.fitted
  | branch condition yes no => (condition.valueIn params).bind fun v =>
      if v.holds then sizeIn params yes else sizeIn params no
  | switch key cases otherwise =>
      Codec.switchSize (key.valueIn params) (sizesOfCasesIn params cases)
        (sizeIfIn params otherwise)
  | aligned modulus of _ => (modulus.sizeIn params).bind fun m =>
      ((sizeIn params of).map fun used => used + Codec.toMultiple used (max m 1)).bind
        Sizes.fitted
  | prefixed length of _ _ =>
      (Sizes.plus (sizeIn params length) (sizeIn params of)).bind Sizes.fitted
  | transformed of _ taken => Codec.extentSize params (sizeIn params of) taken
  | recoded of recoding _ =>
      ((sizeIn params of).bind (Codec.recodedSize recoding)).bind Sizes.fitted
  | _ => none

def sizesIn (params : Record Value) : List Format → List (Option Nat)
  | [] => []
  | f :: rest => sizeIn params f :: sizesIn params rest

def sizesOfCasesIn (params : Record Value) : List (Value × Format) → List (Value × Option Nat)
  | [] => []
  | (key, f) :: rest => (key, sizeIn params f) :: sizesOfCasesIn params rest

def sizeIfIn (params : Record Value) : Option Format → Option (Option Nat)
  | none => none
  | some f => some (sizeIn params f)

end

end Format

/-- The size is settled, and parsing moves the stream by it. -/
structure Codec.Regular (params : Record Value) (c : Codec) (known : Option Nat) : Prop where
  measured : c.Measured params known
  paced : c.Paced params known

namespace Codec

variable {params : Record Value}

abbrev RegularAll (params : Record Value) : List Part → List (Option Nat) → Prop :=
  List.Forall₂ fun p known => p.codec.Regular params known

variable {parts : List Part} {knowns : List (Option Nat)}

private theorem RegularAll.measured (h : RegularAll params parts knowns) :
    MeasuredAll params parts knowns := List.Forall₂.imp (fun _ _ => Regular.measured) h

private theorem RegularAll.paced (h : RegularAll params parts knowns) :
    PacedAll params parts knowns :=
  List.Forall₂.imp (fun _ _ => Regular.paced) h

theorem exists_of_forall₂ {R : Part → Option Nat → Prop} (h : List.Forall₂ R parts knowns)
    {p : Part} (mem : p ∈ parts) : ∃ known ∈ knowns, R p known := by
  induction h with
  | nil => exact absurd mem List.not_mem_nil
  | @cons _ known _ _ first _ ih =>
      rcases List.mem_cons.mp mem with rfl | mem
      · exact ⟨known, List.mem_cons_self, first⟩
      · obtain ⟨other, among, related⟩ := ih mem
        exact ⟨other, List.mem_cons_of_mem _ among, related⟩

private theorem CasesWith.imp {R S : Part → Option Nat → Prop} {cases : List (Value × Part)}
    {sizes : List (Value × Option Nat)} (weaker : ∀ p known, R p known → S p known)
    (h : CasesWith R cases sizes) : CasesWith S cases sizes :=
  List.Forall₂.imp (fun _ _ same => ⟨same.1, weaker _ _ same.2⟩) h

private theorem rel_imp {R S : Part → Option Nat → Prop} {fallback : Option Part}
    {otherwise : Option (Option Nat)} (weaker : ∀ p known, R p known → S p known)
    (h : Option.Rel R fallback otherwise) : Option.Rel S fallback otherwise := by
  cases h with
  | none => exact .none
  | some same => exact .some (weaker _ _ same)

private theorem regular_switch {e : Engine} {key : Expr} (plain : key.Plain params)
    {cases : List (Value × Part)} (keys : ∀ c ∈ cases, c.1.Eager) {fallback : Option Part}
    {sizes : List (Value × Option Nat)} {otherwise : Option (Option Nat)}
    (h : CasesWith (fun p known => p.codec.Regular params known) cases sizes)
    (other : Option.Rel (fun p known => p.codec.Regular params known) fallback otherwise) :
    (switch e key cases fallback).Regular params
      (switchSize (key.valueIn params) sizes otherwise) where
  measured := measured_switch plain keys (h.imp fun _ _ => Regular.measured)
    (rel_imp (fun _ _ => Regular.measured) other)
  paced := paced_switch plain keys fun _ _ value chosen =>
    (switchSize_of_caseOf h other value chosen).paced

end Codec

namespace Format

variable {params : Record Value}

mutual

theorem regular_codec (e : Engine) (defs : Definitions) :
    (f : Format) → f.Settled params → (f.codec e defs).Regular params (f.sizeIn params)
  | bytes _, h => ⟨Codec.measured_static h fun _ _ => rfl, Codec.paced_bytes h⟩
  | integer _ signed endian, h =>
      ⟨Codec.measured_static h fun _ _ => rfl, Codec.paced_integer h signed endian⟩
  | bitInteger _ signed swapped, h =>
      ⟨Codec.measured_static h fun _ _ => rfl, Codec.paced_bitInteger h signed swapped⟩
  | padding _ fill, h =>
      ⟨Codec.measured_static h fun _ _ => rfl, Codec.paced_padding h fill⟩
  | fixedText _ encoding pad side trim, h =>
      ⟨Codec.measured_static h fun _ _ => rfl, Codec.paced_fixedText h encoding pad side trim⟩
  | flag, _ => ⟨Codec.measured_pure fun _ _ => rfl, Codec.paced_flag⟩
  | pass, _ => ⟨Codec.measured_pure fun _ _ => rfl, Codec.paced_pass⟩
  | tell, _ => ⟨Codec.measured_pure fun _ _ => rfl, Codec.paced_tell⟩
  | computed expr, _ => ⟨Codec.measured_pure fun _ _ => rfl, Codec.paced_computed expr⟩
  | check condition, _ => ⟨Codec.measured_pure fun _ _ => rfl, Codec.paced_check condition⟩
  | named _ of, h => regular_codec e defs of h
  | documented _ of, h => regular_codec e defs of h
  | embedded of, h => regular_codec e defs of h
  | peek of, h =>
      ⟨Codec.measured_pure fun _ _ => rfl, Codec.paced_peek (regular_codec e defs of h).paced⟩
  | constant of value, h =>
      have inner := regular_codec e defs of h
      ⟨inner.measured, Codec.paced_constant inner.paced value⟩
  | rebuild of expr, h =>
      have inner := regular_codec e defs of h
      ⟨inner.measured, Codec.paced_rebuild inner.paced expr⟩
  | fallback of value, h =>
      have inner := regular_codec e defs of h
      ⟨inner.measured, Codec.paced_fallback inner.paced value⟩
  | checksum of hash data, h =>
      have inner := regular_codec e defs of h
      ⟨inner.measured, Codec.paced_checksum inner.paced hash data⟩
  | validated of rule, h =>
      have inner := regular_codec e defs of h
      ⟨inner.measured, Codec.paced_validated inner.paced rule⟩
  | labelled of labels unlabelled, h =>
      have inner := regular_codec e defs of h
      ⟨inner.measured, Codec.paced_labelled inner.paced labels unlabelled⟩
  | mapped of table, h =>
      have inner := regular_codec e defs of h
      ⟨inner.measured, Codec.paced_mapped inner.paced table⟩
  | flagSet of flags strict, h =>
      have inner := regular_codec e defs of h
      ⟨inner.measured, Codec.paced_flagSet inner.paced flags strict⟩
  | recoded of recoding checked, h =>
      have inner := regular_codec e defs of h
      ⟨Codec.measured_recoded inner.measured recoding checked,
        (Codec.paced_recoded inner.paced recoding checked).fitted⟩
  | struct members overwrite, h =>
      have members := regular_parts e defs members h
      ⟨Codec.measured_struct members.measured overwrite,
        (Codec.paced_struct members.paced overwrite).fitted⟩
  | sequence members, h =>
      have members := regular_parts e defs members h
      ⟨Codec.measured_sequence members.measured, (Codec.paced_sequence members.paced).fitted⟩
  | focused focus members, h =>
      have members := regular_parts e defs members h
      ⟨Codec.measured_focused members.measured focus,
        (Codec.paced_focused members.paced focus).fitted⟩
  | select members tagged, h =>
      have members := regular_parts e defs members h
      ⟨Codec.measured_select members.measured tagged, Codec.paced_select members.paced tagged⟩
  | array _ of discard, h =>
      have inner := regular_codec e defs of h.2
      ⟨Codec.measured_array h.1 inner.measured discard,
        Codec.paced_array h.1 inner.paced discard⟩
  | range _ _ of discard, h =>
      have inner := regular_codec e defs of h.2.2
      ⟨Codec.measured_range h.1 h.2.1 inner.measured discard,
        Codec.paced_range h.1 h.2.1 inner.paced discard⟩
  | branch _ yes no, h =>
      have yes := regular_codec e defs yes h.2.1
      have no := regular_codec e defs no h.2.2
      ⟨Codec.measured_branch h.1 yes.measured no.measured,
        Codec.paced_branch h.1 yes.paced no.paced⟩
  | switch _ cases otherwise, h =>
      have cases := regular_cases e defs cases h.2.1
      Codec.regular_switch h.1 cases.1 cases.2 (regular_partIf e defs otherwise h.2.2)
  | padded _ of fill, h =>
      have inner := regular_codec e defs of h.2
      ⟨Codec.measured_static h.1 fun _ _ => rfl, Codec.paced_padded h.1 inner.paced fill⟩
  | aligned _ of fill, h =>
      have inner := regular_codec e defs of h.2
      ⟨Codec.measured_aligned h.1 inner.measured fill,
        Codec.paced_aligned h.1 inner.paced fill⟩
  | fixedSized _ of, h =>
      have inner := regular_codec e defs of h.2
      ⟨Codec.measured_static h.1 fun _ _ => rfl, Codec.paced_fixedSized h.1 inner.paced⟩
  | prefixed length of inclusive lenient, h => by
      obtain ⟨rfl, settled, settled'⟩ := h
      have length := regular_codec e defs length settled
      have inner := regular_codec e defs of settled'
      exact ⟨Codec.measured_prefixed length.measured inner.measured inclusive false,
        (Codec.paced_prefixed length.paced inner.paced inclusive).fitted⟩
  | transformed of transform extent, h => by
      obtain ⟨bounded, settled, inner⟩ := h
      have inner := regular_codec e defs of inner
      exact ⟨Codec.measured_transformed transform settled inner.measured,
        Codec.paced_transformed inner.paced inner.measured transform settled bounded⟩

theorem regular_parts (e : Engine) (defs : Definitions) :
    (fs : List Format) → SettledAll params fs →
      Codec.RegularAll params (parts e defs fs) (sizesIn params fs)
  | [], _ => .nil
  | f :: rest, h => .cons (regular_codec e defs f h.1) (regular_parts e defs rest h.2)

theorem regular_cases (e : Engine) (defs : Definitions) :
    (cases : List (Value × Format)) → SettledCases params cases →
      (∀ c ∈ casesOf e defs cases, c.1.Eager) ∧
        Codec.CasesWith (fun p known => p.codec.Regular params known) (casesOf e defs cases)
          (sizesOfCasesIn params cases)
  | [], _ => ⟨fun _ mem => absurd mem List.not_mem_nil, .nil⟩
  | (key, f) :: rest, h => by
      have first := regular_codec e defs f h.2.1
      obtain ⟨keys, others⟩ := regular_cases e defs rest h.2.2
      refine ⟨fun c mem => ?_, .cons ⟨rfl, first⟩ others⟩
      rcases List.mem_cons.mp mem with rfl | mem
      · exact h.1
      · exact keys c mem

theorem regular_partIf (e : Engine) (defs : Definitions) :
    (otherwise : Option Format) → SettledIf params otherwise →
      Option.Rel (fun p known => p.codec.Regular params known) (partIf e defs otherwise)
        (sizeIfIn params otherwise)
  | none, _ => .none
  | some f, h => .some (regular_codec e defs f h)

end

end Format

end BinaryFormat
