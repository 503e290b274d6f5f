import BinaryFormat.Format.Meaning
import BinaryFormat.Proofs.Locality

/-!
# Codecs that depend on nothing but what they read

A local codec parses the same value wherever the bytes that it reads stand,
whatever the engine, and in every context that carries the names that its
expressions read.  Where it has a size, it reads so many bytes, unless it reads
more than a size can say.
-/

namespace BinaryFormat

open Lookup (Carried)

/-! ## Known sizes -/

namespace Lookup.Carried

variable {α β : Type} {good : α → Prop} {good' : β → Prop} {x y : Engine → Lookup Failure α}

private theorem caught {f g : Engine → Except Failure α → Lookup Failure β} (h : Carried good x y)
    (next : ∀ a, good a → Carried good' (fun e => f e (.ok a)) (fun e => g e (.ok a)))
    (refused : ∀ failure, ∃ failure', ∀ e, f e (.error failure) = throw failure') :
    Carried good' (fun e => (x e).outcome >>= f e) (fun e => (y e).outcome >>= g e) := by
  obtain ⟨result, first, carried⟩ := h
  cases result with
  | error failure =>
      obtain ⟨failure', thrown⟩ := refused failure
      refine ⟨.error failure', fun e => ?_, fun _ ok => nomatch ok⟩
      beta_reduce
      rw [first e]
      exact thrown e
  | ok a =>
      obtain ⟨ok, second⟩ := carried a rfl
      obtain ⟨result, last, carried⟩ := next a ok
      refine ⟨result, fun e => ?_, fun b eq => ⟨(carried b eq).1, fun e => ?_⟩⟩
      · beta_reduce
        rw [first e]
        exact last e
      · beta_reduce
        rw [second e]
        exact (carried b eq).2 e

/-- A look-up that succeeds once does so always. -/
theorem eq_pure (h : Carried good x y) {e : Engine} {store store' : LazyStore} {a : α}
    (ok : x e store = .ok a store') : good a ∧ store' = store ∧ (∀ e, x e = pure a) ∧
      ∀ e, y e = pure a := by
  obtain ⟨result, first, carried⟩ := h
  rw [first e] at ok
  cases result with
  | error failure => cases ok
  | ok b =>
      cases ok
      exact ⟨(carried a rfl).1, rfl, first, (carried a rfl).2⟩

end Lookup.Carried

namespace Expr

variable {near : Reach} {ctx ctx' : Context} (h : near.Carries ctx.frames ctx'.frames) {x : Expr}
  (reads : x.Reads near) (path path' : Path)
include h reads

theorem carried_staticSize :
    Carried (fun _ => True) (fun e => e.staticSize x ctx path)
      (fun e => e.staticSize x ctx' path') :=
  .caught (carried_evaluateSize h reads path path') (fun _ _ => .pure trivial)
    fun failure => ⟨(Fault.unsized (.count x.text failure.fault)).atPath path, fun _ => rfl⟩

end Expr

namespace Codec

/-- The size is known in a context, whatever the engine and the path. -/
def HasSize (c : Engine → Codec) (ctx : Context) (n : Nat) : Prop :=
  ∀ e path, (c e).size ctx path = pure n

theorem HasSize.apply {c : Engine → Codec} {ctx : Context} {n : Nat} (h : HasSize c ctx n)
    (e : Engine) (path : Path) (store : LazyStore) :
    (c e).size ctx path store = .ok n store := by
  rw [h e path]
  rfl

private theorem eq_of_pure {x : Lookup Failure Nat} {a b : Nat} (h : x = pure a) (h' : x = pure b) :
    a = b := by
  rw [h] at h'
  have results := congrFun h' (default : LazyStore)
  cases results
  rfl

private theorem not_hasSize {c : Engine → Codec} {ctx : Context} {cause : Unsized}
    (h : ∀ e path, (c e).size ctx path = unsized cause path) (n : Nat) : ¬ HasSize c ctx n := by
  intro known
  have sized := known Engine.exhausted .this
  rw [h] at sized
  have results := congrFun sized (default : LazyStore)
  cases results

/-! ## Local codecs -/

/-- What a local codec yields: a value without lazy parts, from as many bytes as its size
says if it has one. -/
def Yields (c : Engine → Codec) (ctx : Context) (v : Value) (n : Nat) : Prop :=
  v.Eager ∧ (n ≤ Value.maxSize → ∀ k, HasSize c ctx k → n = k)

/-- A codec that depends on the bytes that it reads and on the names within reach, and on
nothing else. -/
structure Local (near : Reach) (c : Engine → Codec) : Prop where
  size : ∀ {ctx ctx' : Context}, near.Carries ctx.frames ctx'.frames → ∀ path path' : Path,
    Carried (fun _ => True) (fun e => (c e).size ctx path) (fun e => (c e).size ctx' path')
  parse : ∀ {ctx ctx' : Context}, near.Carries ctx.frames ctx'.frames →
    ∀ (e e' : Engine) (path path' : Path),
      Run.FollowedBy (· = "_index") (Yields c ctx) ((c e).parse path) ((c e').parse path')
        ctx ctx'

variable {near : Reach} {c d : Engine → Codec} {ctx ctx' : Context}

theorem Local.hasSize (h : Local near c) (carries : near.Carries ctx.frames ctx.frames)
    {e : Engine} {path : Path} {store store' : LazyStore} {n : Nat}
    (ok : (c e).size ctx path store = .ok n store') : HasSize c ctx n ∧ store' = store := by
  obtain ⟨-, same, -, -⟩ := (h.size carries path path).eq_pure ok
  refine ⟨fun e' path' => ?_, same⟩
  exact ((h.size carries path path').eq_pure ok).2.2.2 e'

/-- A known size stays in every context that carries the names within reach. -/
theorem HasSize.carried {n : Nat} (known : HasSize c ctx n) (h : Local near c)
    (carries : near.Carries ctx.frames ctx'.frames) : HasSize c ctx' n := by
  intro e path
  have ok : (c e).size ctx path default = .ok n default := by
    rw [known e path]
    rfl
  exact ((h.size carries path path).eq_pure ok).2.2.2 e

theorem Local.carried_size (h : Local near c) (carries : near.Carries ctx.frames ctx'.frames)
    (path path' : Path) :
    Carried (HasSize c ctx) (fun e => (c e).size ctx path) (fun e => (c e).size ctx' path') := by
  obtain ⟨result, sized, carried⟩ := h.size carries path path'
  refine ⟨result, sized, fun n ok => ⟨?_, (carried n ok).2⟩⟩
  have once : (c .exhausted).size ctx path default = .ok n default := by
    have known : (c .exhausted).size ctx path = Lookup.ofExcept result := sized .exhausted
    rw [known, ok]
    rfl
  exact (h.hasSize carries.self once).1

section Steps

variable {e e' : Engine} {path path' : Path}

open Run (Agrees)

private theorem agrees_of_carried {α : Type} {good : α → Prop} {x y : Engine → Lookup Failure α}
    {X Y : Run α} (e e' : Engine) (h : Carried good x y)
    (first : ∀ s : State, s.context = ctx → X s = Run.lookup (x e) s)
    (second : ∀ s : State, s.context = ctx' → Y s = Run.lookup (y e') s) :
    Agrees (fun a => good a ∧ ∀ e, x e = pure a) X Y ctx ctx' := by
  intro s s' a here ran
  rw [first s here] at ran
  unfold Run.lookup at ran
  split at ran
  · next b store found =>
    cases ran
    obtain ⟨ok, rfl, here, there⟩ := h.eq_pure found
    refine ⟨rfl, ⟨ok, here⟩, fun t at_t => ?_⟩
    rw [second t at_t]
    unfold Run.lookup
    rw [there e']
    rfl
  · cases ran

theorem agrees_eval (carries : near.Carries ctx.frames ctx'.frames) {x : Expr}
    (reads : x.Reads near) : Agrees Value.Eager (e.eval x path) (e'.eval x path') ctx ctx' := by
  have value : Agrees _ (e.eval x path) (e'.eval x path') ctx ctx' :=
    agrees_of_carried e e' (Expr.carried_evaluate carries reads path path')
      (fun s here => by subst here; rfl) (fun s here => by subst here; rfl)
  intro s s' v here ran
  obtain ⟨same, ok, there⟩ := value s s' v here ran
  exact ⟨same, ok.1, there⟩

private theorem agrees_evalHolds (carries : near.Carries ctx.frames ctx'.frames) {x : Expr}
    (reads : x.Reads near) :
    Agrees (fun b => ∀ (e : Engine) path, x.evaluateHolds e.resolver ctx.scope path = pure b)
      (e.evalHolds x path) (e'.evalHolds x path') ctx ctx' := by
  have value : Agrees _ (e.evalHolds x path) (e'.evalHolds x path') ctx ctx' :=
    agrees_of_carried e e' (Expr.carried_evaluateHolds carries reads path path')
      (fun s here => by subst here; rfl) (fun s here => by subst here; rfl)
  intro s s' b here ran
  obtain ⟨same, ok, there⟩ := value s s' b here ran
  refine ⟨same, fun e path' => ?_, there⟩
  have everywhere := Expr.carried_evaluateHolds carries.self reads path path'
  have once : x.evaluateHolds e.resolver ctx.scope path default = .ok b default := by
    have known : x.evaluateHolds e.resolver ctx.scope path = pure b := ok.2 e
    rw [known]
    rfl
  exact (everywhere.eq_pure once).2.2.2 e

theorem agrees_evalSize (carries : near.Carries ctx.frames ctx'.frames) {x : Expr}
    (reads : x.Reads near) :
    Agrees (fun k => ∀ (e : Engine) path, e.staticSize x ctx path = pure k)
      (e.evalSize x path) (e'.evalSize x path') ctx ctx' := by
  have value : Agrees _ (e.evalSize x path) (e'.evalSize x path') ctx ctx' :=
    agrees_of_carried e e' (Expr.carried_evaluateSize carries reads path path')
      (fun s here => by subst here; rfl) (fun s here => by subst here; rfl)
  intro s s' k here ran
  obtain ⟨same, ok, there⟩ := value s s' k here ran
  refine ⟨same, fun e path' => ?_, there⟩
  have static := Expr.carried_staticSize carries.self reads path path'
  have sized : e.staticSize x ctx path default = .ok k default := by
    have known : x.evaluateSize e.resolver ctx.scope path = pure k := ok.2 e
    unfold Engine.staticSize
    rw [known]
    rfl
  exact (static.eq_pure sized).2.2.2 e

private theorem agrees_equal {a b : Value} (ha : a.Eager) (hb : b.Eager) :
    Agrees (fun answer => True ∧ ∀ e : Engine, e.resolver.equal a b = pure answer)
      (e.equal a b) (e'.equal a b) ctx ctx' :=
  agrees_of_carried e e' (Resolver.carried_equal ha hb) (fun _ _ => rfl) (fun _ _ => rfl)

end Steps

/-! ## Bytes and numbers -/

section Atoms

open Run.FollowedBy

private theorem carried_unsized (cause : Unsized) (path path' : Path) :
    Carried (fun _ => True) (fun _ => unsized cause path) (fun _ => unsized cause path') :=
  .throw _ _

theorem local_bytes {length : Expr} (h : length.Reads near) :
    Local near (fun e => bytes e length) where
  size carries path path' := Expr.carried_staticSize carries h path path'
  parse carries e e' path path' := by
    refine after (agrees_evalSize carries h) fun k sized => ?_
    refine then_read fun data size => .pure ⟨trivial, fun _ j known => ?_⟩
    exact eq_of_pure (sized e path) (known e path)

theorem local_integer {width : Expr} (h : width.Reads near) (signed : Bool) (endian : Endian) :
    Local near (fun e => integer e width signed endian) where
  size carries path path' := Expr.carried_staticSize carries h path path'
  parse carries e e' path path' := by
    refine after (agrees_evalSize carries h) fun k sized => ?_
    refine after (Run.agrees_ofExcept _ path path' _ _) fun _ _ => ?_
    refine then_read fun data size => ?_
    refine after (Run.agrees_ofExcept _ path path' _ _) fun v _ => .pure
      ⟨trivial, fun _ j known => ?_⟩
    exact eq_of_pure (sized e path) (known e path)

theorem local_flag : Local near (fun _ => flag) where
  size _ _ _ := .pure trivial
  parse _ e e' path path' := by
    refine then_read fun data size => .pure ⟨trivial, fun _ j known => ?_⟩
    exact eq_of_pure (x := pure 1) rfl (known e path)

theorem local_pass : Local near (fun _ => pass) where
  size _ _ _ := .pure trivial
  parse _ e _ path _ :=
    .pure ⟨trivial, fun _ _ known => eq_of_pure (x := pure 0) rfl (known e path)⟩

theorem local_computed {x : Expr} (h : x.Reads near) : Local near (fun e => computed e x) where
  size _ _ _ := .pure trivial
  parse carries e _ path _ :=
    of_agrees (agrees_eval carries h) fun _ eager =>
      ⟨eager, fun _ _ known => eq_of_pure (x := pure 0) rfl (known e path)⟩

/-! ### Integers of variable length -/

/-- A numeral is read again wherever its bytes stand, by a reader that may read as many. -/
private theorem readFrom_again (maxBits : Nat) (path path' : Path) (ctx ctx' : Context) :
    ∀ (more acc shift : Nat) (seen : List UInt8) (m : Medium) (store : LazyStore) (v : Nat)
      (s : State),
      Varint.readFrom maxBits path more acc shift seen ⟨.medium m, ctx, store⟩ = .ok v s →
        ∃ n, s = ⟨.medium (m.skip n), ctx, store⟩ ∧ n ≤ m.rest.length ∧
          ∀ (m' : Medium) (store' : LazyStore) (more' : Nat), n ≤ more' → m.Offers m' n →
            Varint.readFrom maxBits path' more' acc shift seen ⟨.medium m', ctx', store'⟩ =
              .ok v ⟨.medium (m'.skip n), ctx', store'⟩ := by
  intro more
  induction more with
  | zero =>
      intro acc shift seen m store v s ran
      cases ran
  | succ more ih =>
      intro acc shift seen m store v s ran
      obtain ⟨data, s₁, first, rest⟩ := Run.bind_eq_ok_iff.mp ran
      obtain ⟨enough, rfl, rfl⟩ := Run.read_eq_ok_iff.mp first
      obtain ⟨within, rest⟩ := Run.guard_eq_ok_iff.mp rest
      -- The byte is the last one, or a shorter numeral follows it.
      by_cases last : ((m.rest.take 1).headD 0).toNat < 128
      · rw [if_pos last] at rest
        cases rest
        refine ⟨1, rfl, enough, fun m' store' more' fuel offers => ?_⟩
        obtain ⟨more', rfl⟩ := Nat.exists_eq_add_of_le' fuel
        refine Run.bind_eq_ok_iff.mpr ⟨_, _, offers.taken enough path' ctx' store', ?_⟩
        refine Run.guard_eq_ok_iff.mpr ⟨within, ?_⟩
        rw [if_pos last]
        rfl
      · rw [if_neg last] at rest
        obtain ⟨n, rfl, short, again⟩ := ih _ _ _ _ _ _ _ rest
        have total : 1 + n ≤ m.rest.length := by
          rw [Medium.rest_skip_of_le enough, List.length_drop] at short
          omega
        refine ⟨1 + n, by rw [Medium.skip_skip], total, fun m' store' more' fuel offers => ?_⟩
        obtain ⟨more', rfl⟩ := Nat.exists_eq_add_of_le' (Nat.le_of_add_right_le fuel)
        refine Run.bind_eq_ok_iff.mpr ⟨_, _, offers.take.taken enough path' ctx' store', ?_⟩
        refine Run.guard_eq_ok_iff.mpr ⟨within, ?_⟩
        rw [if_neg last, again _ store' more' (by omega) (offers.skip enough), Medium.skip_skip]

private theorem followed_varintRead (maxBits : Nat) (path path' : Path) (ctx ctx' : Context) :
    Run.FollowedBy (· = "_index") (fun _ _ => True) (Varint.read maxBits path)
      (Varint.read maxBits path') ctx ctx' := by
  intro m store v s ran
  obtain ⟨n, left, short, again⟩ :=
    readFrom_again maxBits path path' ctx ctx' _ _ _ _ m store v s ran
  refine ⟨n, [], left, short, trivial, .nil, fun m' store' offers => ?_⟩
  exact again m' store' _ (Nat.le_succ_of_le (offers.length_le short)) offers

theorem local_varint (maxBits : Nat) : Local near (fun _ => varint maxBits) where
  size _ path path' := carried_unsized _ path path'
  parse _ _ _ path path' :=
    (followed_varintRead maxBits path path' _ _).bind fun _ _ _ _ _ =>
      .pure ⟨trivial, fun _ k known => absurd known (not_hasSize (fun _ _ => rfl) k)⟩

theorem local_zigzag : Local near (fun _ => zigzag) where
  size _ path path' := carried_unsized _ path path'
  parse _ _ _ path path' :=
    (followed_varintRead 128 path path' _ _).bind fun _ _ _ _ _ =>
      .pure ⟨trivial, fun _ k known => absurd known (not_hasSize (fun _ _ => rfl) k)⟩

/-! ### Text -/

theorem eager_of_decode {encoding : Encoding} {data : List UInt8} {v : Value}
    (h : TextField.decode encoding data = .ok v) : v.Eager := by
  unfold TextField.decode at h
  split at h <;> cases h
  exact trivial

private theorem readTerminated_again {unit : Nat} (positive : 0 < unit)
    (terminators : List (List UInt8)) (path path' : Path) (ctx ctx' : Context) :
    ∀ (more : Nat) (data : List UInt8) (m : Medium) (store : LazyStore) (v : List UInt8)
      (s : State),
      readTerminated unit terminators path more data ⟨.medium m, ctx, store⟩ = .ok v s →
        ∃ n, s = ⟨.medium (m.skip n), ctx, store⟩ ∧ n ≤ m.rest.length ∧
          ∀ (m' : Medium) (store' : LazyStore) (more' : Nat), n ≤ more' → m.Offers m' n →
            readTerminated unit terminators path' more' data ⟨.medium m', ctx', store'⟩ =
              .ok v ⟨.medium (m'.skip n), ctx', store'⟩ := by
  intro more
  induction more with
  | zero =>
      intro data m store v s ran
      cases ran
  | succ more ih =>
      intro data m store v s ran
      rw [readTerminated] at ran
      cases first : Run.read unit path ⟨.medium m, ctx, store⟩ with
      | error failure s₁ =>
          rw [Run.bind_of_ok (Run.outcome_of_error first)] at ran
          dsimp only at ran
          generalize failure.fault = fault at ran
          cases fault <;> cases ran
      | ok chunk s₁ =>
          rw [Run.bind_of_ok (Run.outcome_of_ok first)] at ran
          dsimp only at ran
          obtain ⟨enough, rfl, rfl⟩ := Run.read_eq_ok_iff.mp first
          -- The chunk ends the text or belongs to it; in both cases the same chunk is read from the
          -- other byte string.
          by_cases last : terminators.contains (m.rest.take unit) = true
          · rw [if_pos last] at ran
            cases ran
            refine ⟨unit, rfl, enough, fun m' store' more' fuel offers => ?_⟩
            obtain ⟨more', rfl⟩ := Nat.exists_eq_add_of_le' (Nat.le_trans positive fuel)
            have taken := offers.taken enough path' ctx' store'
            rw [readTerminated, Run.bind_of_ok (Run.outcome_of_ok taken)]
            dsimp only
            rw [if_pos last]
            rfl
          · rw [if_neg last] at ran
            obtain ⟨n, rfl, short, again⟩ := ih _ _ _ _ _ ran
            have total : unit + n ≤ m.rest.length := by
              rw [Medium.rest_skip_of_le enough, List.length_drop] at short
              omega
            refine ⟨unit + n, by rw [Medium.skip_skip], total, ?_⟩
            intro m' store' more' fuel offers
            obtain ⟨more', rfl⟩ := Nat.exists_eq_add_of_le'
              (Nat.le_trans positive (Nat.le_of_add_right_le fuel))
            have taken := offers.take.taken enough path' ctx' store'
            rw [readTerminated, Run.bind_of_ok (Run.outcome_of_ok taken)]
            dsimp only
            rw [if_neg last, again _ store' more' (by omega) (offers.skip enough),
              Medium.skip_skip]

theorem local_terminatedText (terminators : List (List UInt8)) (encoding : Encoding) :
    Local near (fun _ => terminatedText terminators encoding) where
  size _ path path' := carried_unsized _ path path'
  parse _ _ _ path path' := by
    have positive : 0 < encoding.unit := by cases encoding <;> decide
    intro m store v s ran
    obtain ⟨_, _, told, ran⟩ := Run.bind_eq_ok_iff.mp ran
    cases told
    obtain ⟨data, s₁, first, second⟩ := Run.bind_eq_ok_iff.mp ran
    obtain ⟨n, rfl, short, again⟩ :=
      readTerminated_again positive terminators path path' _ _ _ _ m store data s₁ first
    obtain ⟨decoded, rfl⟩ := Run.ofExcept_eq_ok_iff.mp second
    refine ⟨n, [], rfl, short, ⟨eager_of_decode decoded, ?_⟩, .nil, ?_⟩
    · exact fun _ k known => absurd known (not_hasSize (fun _ _ => rfl) k)
    · intro m' store' offers
      have fuel : n ≤ m'.rest.length + 1 := Nat.le_succ_of_le (offers.length_le short)
      have here := again m' store' _ fuel offers
      exact Run.bind_eq_ok_iff.mpr ⟨_, _, rfl, Run.bind_eq_ok_iff.mpr ⟨data, _, here,
        Run.ofExcept_eq_ok_iff.mpr ⟨decoded, rfl⟩⟩⟩

/-! ### Values that are verified or converted -/

theorem local_constant (h : Local near c) {value : Value} (eager : value.Eager) :
    Local near (fun e => constant e (c e) value) where
  size carries path path' := h.size carries path path'
  parse carries e e' path path' := by
    refine (h.parse carries e e' path path').bind fun found n entries yields noted => ?_
    refine after (agrees_equal yields.1 eager) fun answer _ => ?_
    cases answer with
    | true => exact .pure yields
    | false => exact of_error fun s => ⟨_, _, rfl⟩

theorem local_prefixedText (h : Local near c) (of : Format) (encoding : Encoding) :
    Local near (fun e => prefixedText ⟨of, c e⟩ encoding) where
  size _ path path' := carried_unsized _ path path'
  parse carries e e' path path' := by
    refine (h.parse carries e e' path path').tagged.bind fun stored n entries _ _ => ?_
    cases stored.int? with
    | none => exact of_error fun s => ⟨_, _, rfl⟩
    | some k =>
        refine .ite (fun _ => of_error fun s => ⟨_, _, rfl⟩) fun _ => ?_
        refine then_read fun data _ => ?_
        refine of_agrees (Run.agrees_ofExcept _ path path' _ _) fun v decoded => ?_
        exact ⟨eager_of_decode decoded,
          fun _ j known => absurd known (not_hasSize (fun _ _ => rfl) j)⟩

end Atoms

/-! ## Repetition -/

section Repetition

open Run.FollowedBy

private theorem followed_noteIndex (i : Nat) :
    Run.FollowedBy (· = "_index") (fun _ n => n = 0) (noteIndex i) (noteIndex i) ctx ctx' := by
  have eager : (Value.ofNat i).Eager := trivial
  have allowed : (· = "_index") "_index" := rfl
  exact .insert allowed eager

theorem followed_parseCounted (h : Local near c) (of : Format) (e e' : Engine)
    (path path' : Path) : ∀ (count i : Nat) {ctx ctx' : Context},
      near.Carries ctx.frames ctx'.frames →
        Run.FollowedBy (· = "_index")
          (fun items n => Value.EagerItems items ∧
            (n ≤ Value.maxSize → ∀ k, HasSize c ctx k → n = count * k))
          (parseCounted ⟨of, c e⟩ path count i) (parseCounted ⟨of, c e'⟩ path' count i)
          ctx ctx'
  | 0, _, _, _, _ => .pure ⟨trivial, fun _ k _ => (Nat.zero_mul k).symm⟩
  | count + 1, i, ctx, ctx', carries => by
      refine (followed_noteIndex i).bind fun _ n entries none noted => ?_
      subst none
      have next := carries.extend noted
      refine (h.parse next e e' (path.element i) (path'.element i)).tagged.bind
        fun v n more yields noted' => ?_
      have rest := followed_parseCounted h of e e' path path' count (i + 1) (next.extend noted')
      refine rest.bind fun items k _ tail _ =>
        .pure ⟨⟨yields.1, tail.1⟩, fun small size known => ?_⟩
      have here := known.carried h (carries.self.noted noted)
      have there := here.carried h ((carries.self.extend noted).noted noted')
      rw [yields.2 (by omega) size here, tail.2 (by omega) size there, Nat.succ_mul]
      omega

theorem local_array {count : Expr} (reads : count.Reads near) (h : Local near c) (of : Format)
    (discard : Bool) : Local near (fun e => array e count ⟨of, c e⟩ discard) where
  size carries path path' := by
    refine (Expr.carried_staticSize carries reads path path').bind fun k _ => ?_
    refine (h.size carries (path.element 0) (path'.element 0)).bind fun n _ => ?_
    by_cases fits : k * n ≤ Value.maxSize
    · simp only [if_pos fits]
      exact .pure trivial
    · simp only [if_neg fits]
      exact .throw _ _
  parse carries e e' path path' := by
    refine after (agrees_evalSize carries reads) fun k sized => ?_
    refine (followed_parseCounted h of e e' path path' k 0 carries).bind
      fun items n _ parsed _ => .pure ⟨?_, fun total j known => ?_⟩
    · unfold kept
      cases discard with
      | true => exact trivial
      | false => exact parsed.1
    · obtain ⟨_, _, counted, product⟩ := Run.bind_eq_ok_iff.mp (known.apply e path default)
      rw [sized e path] at counted
      cases counted
      obtain ⟨each, _, one, rest⟩ := Run.bind_eq_ok_iff.mp product
      obtain ⟨sizes, -⟩ := h.hasSize carries.self one
      have product : k * each = j := by
        split at rest <;> cases rest
        rfl
      rw [← product, parsed.2 (by omega) each sizes, Nat.add_zero]

theorem local_prefixedArray (h : Local near c) (h' : Local near d) (count of : Format) :
    Local near (fun e => prefixedArray e ⟨count, c e⟩ ⟨of, d e⟩) where
  size _ path path' := carried_unsized _ path path'
  parse carries e e' path path' := by
    refine (h.parse carries e e' path path').tagged.bind fun stored n entries _ noted => ?_
    cases stored.int? with
    | none => exact of_error fun s => ⟨_, _, rfl⟩
    | some k =>
        refine .ite (fun _ => of_error fun s => ⟨_, _, rfl⟩) fun _ => ?_
        refine (followed_parseCounted h' of e e' path path' _ 0 (carries.extend noted)).bind
          fun items _ _ parsed _ => .pure ⟨parsed.1, fun _ j known => ?_⟩
        exact absurd known (not_hasSize (fun _ _ => rfl) j)

end Repetition

/-! ## Envelopes -/

section Envelopes

open Run.FollowedBy

private theorem followed_parseSlice (h : Local near c) {data : List UInt8} (e e' : Engine)
    (path path' : Path) (carries : near.Carries ctx.frames ctx'.frames) :
    Run.FollowedBy (· = "_index")
      (fun result n => (Yields c ctx result.1 result.2 ∧ result.2 ≤ data.length) ∧ n = 0)
      ((c e).parseSlice data path) ((c e').parseSlice data path') ctx ctx' :=
  slice (h.parse carries e e' path path') fun _ _ yields short => ⟨⟨yields, short⟩, rfl⟩

theorem local_fixedSized {length : Expr} (reads : length.Reads near) (h : Local near c) :
    Local near (fun e => fixedSized e length (c e)) where
  size carries path path' := Expr.carried_staticSize carries reads path path'
  parse carries e e' path path' := by
    refine after (agrees_evalSize carries reads) fun k sized => ?_
    refine then_read fun data size => ?_
    refine (followed_parseSlice h e e' path path' carries).bind fun result n _ yields _ => ?_
    refine .pure ⟨yields.1.1.1, fun _ j known => ?_⟩
    rw [yields.2]
    exact eq_of_pure (sized e path) (known e path)

private theorem agrees_overhead (h : Local near c) (carries : near.Carries ctx.frames ctx'.frames)
    (length : Format) (inclusive : Bool) (e e' : Engine) (path path' : Path) :
    Run.Agrees (fun _ => True) (overhead ⟨length, c e⟩ inclusive path)
      (overhead ⟨length, c e'⟩ inclusive path') ctx ctx' := by
  cases inclusive with
  | false =>
      intro s s' k _ ran
      cases ran
      exact ⟨rfl, trivial, fun _ _ => rfl⟩
  | true =>
      have value : Run.Agrees _ ((c e).sizeNow path) ((c e').sizeNow path') ctx ctx' :=
        agrees_of_carried e e' (h.size carries path path')
          (fun s here => by subst here; rfl) (fun s here => by subst here; rfl)
      intro s s' k here ran
      obtain ⟨same, -, there⟩ := value s s' k here ran
      exact ⟨same, trivial, there⟩

theorem local_prefixed (h : Local near c) (h' : Local near d) (length : Format)
    (inclusive : Bool) :
    Local near (fun e => prefixed ⟨length, c e⟩ (d e) inclusive false) where
  size carries path path' :=
    (h.size carries path path').bind fun _ _ =>
      (h'.size carries path path').bind fun _ _ => .pure trivial
  parse carries e e' path path' := by
    refine (h.parse carries e e' path path').tagged.bind fun stored n entries first noted => ?_
    cases stored.int? with
    | none => exact of_error fun s => ⟨_, _, rfl⟩
    | some stored =>
        have next := carries.extend noted
        refine after (agrees_overhead h next length inclusive e e' path path') fun _ _ => ?_
        refine .ite (fun _ => of_error fun s => ⟨_, _, rfl⟩) fun bounded => ?_
        refine then_read fun data size => ?_
        refine (followed_parseSlice h' e e' path path' next).bind fun result m _ second _ => ?_
        obtain ⟨v, consumed⟩ := result
        obtain ⟨⟨yields, short⟩, rfl⟩ := second
        refine .ite (fun _ => of_error fun s => ⟨_, _, rfl⟩) fun whole => ?_
        refine .pure ⟨yields.1, fun small j known => ?_⟩
        obtain ⟨a, _, one, rest⟩ := Run.bind_eq_ok_iff.mp (known.apply e path default)
        obtain ⟨sizes, rfl⟩ := h.hasSize carries.self one
        obtain ⟨b, _, two, rest⟩ := Run.bind_eq_ok_iff.mp rest
        obtain ⟨sizes', -⟩ := h'.hasSize carries.self two
        have total : Size.add a b = j := by
          cases rest
          rfl
        simp only [Bool.not_false, Bool.true_and, decide_eq_true_eq] at whole
        dsimp only at short
        have inner : consumed = b :=
          yields.2 (by omega) b (sizes'.carried h' (carries.self.noted noted))
        have outer : n = a := first.2 (by omega) a sizes
        have fits : a + b ≤ Value.maxSize := by omega
        rw [← total, Size.add_of_le fits]
        omega

/-! ### Padding -/

private theorem followed_skipFill (fill : Fill) (count : Nat) (path path' : Path) :
    Run.FollowedBy (· = "_index") (fun _ n => n = count) (skipFill fill count path)
      (skipFill fill count path') ctx ctx' := by
  refine then_read fun data _ => ?_
  refine .ite (fun _ => ?_) fun _ => .pure (Nat.add_zero count)
  cases firstOther fill.pattern 0 data with
  | none => exact .pure (Nat.add_zero count)
  | some other => exact .fail _ _ path path'

theorem local_padded {length : Expr} (reads : length.Reads near) (h : Local near c)
    (fill : Fill) : Local near (fun e => padded e length (c e) fill) where
  size carries path path' := Expr.carried_staticSize carries reads path path'
  parse carries e e' path path' := by
    refine after (agrees_evalSize carries reads) fun k sized => ?_
    refine measured (fun v used => do skipFill fill (← remainder k used path) path; return v)
      (fun v used => do skipFill fill (← remainder k used path') path'; return v)
      (h.parse carries e e' path path') fun v n entries yields noted => ?_
    by_cases fits : n ≤ k
    · simp only [remainder, if_pos fits]
      refine (followed_skipFill fill (k - n) path path').bind fun _ m _ all _ => ?_
      refine .pure ⟨yields.1, fun _ j known => ?_⟩
      have total : k = j := eq_of_pure (sized e path) (known e path)
      omega
    · simp only [remainder, if_neg fits]
      exact of_error fun s => ⟨_, _, rfl⟩

private theorem agrees_evalModulus {modulus : Expr} (carries : near.Carries ctx.frames ctx'.frames)
    (reads : modulus.Reads near) (e e' : Engine) (path path' : Path) :
    Run.Agrees (fun k => k ≠ 0 ∧ ∀ (e : Engine) path, e.staticSize modulus ctx path = pure k)
      (evalModulus e modulus path) (evalModulus e' modulus path') ctx ctx' := by
  intro s s' k here ran
  obtain ⟨m, s₁, counted, rest⟩ := Run.bind_eq_ok_iff.mp ran
  have value : Run.Agrees _ (e.evalSize modulus path) (e'.evalSize modulus path') ctx ctx' :=
    agrees_evalSize carries reads
  obtain ⟨rfl, sized, there⟩ := value s s₁ m here counted
  obtain ⟨positive, rest⟩ := Run.guard_eq_ok_iff.mp rest
  cases rest
  refine ⟨rfl, ⟨positive, sized⟩, fun t at_t => ?_⟩
  exact Run.bind_eq_ok_iff.mpr ⟨_, _, there t at_t, Run.guard_eq_ok_iff.mpr ⟨positive, rfl⟩⟩

theorem local_aligned {modulus : Expr} (reads : modulus.Reads near) (h : Local near c)
    (fill : Fill) : Local near (fun e => aligned e modulus (c e) fill) where
  size carries path path' :=
    (Expr.carried_staticSize carries reads path path').bind fun _ _ =>
      (h.size carries path path').bind fun _ _ => .pure trivial
  parse carries e e' path path' := by
    refine after (agrees_evalModulus carries reads e e' path path') fun m sized => ?_
    refine measured (fun v used => do skipFill fill (toMultiple used m) path; return v)
      (fun v used => do skipFill fill (toMultiple used m) path'; return v)
      (h.parse carries e e' path path') fun v n entries yields noted => ?_
    refine (followed_skipFill fill _ path path').bind fun _ _ _ all _ => ?_
    refine .pure ⟨yields.1, fun small j known => ?_⟩
    obtain ⟨_, _, counted, rest⟩ := Run.bind_eq_ok_iff.mp (known.apply e path default)
    rw [sized.2 e path] at counted
    cases counted
    obtain ⟨used, _, one, rest⟩ := Run.bind_eq_ok_iff.mp rest
    obtain ⟨sizes, -⟩ := h.hasSize carries.self one
    have total : Size.add used (toMultiple used (max m 1)) = j := by
      cases rest
      rfl
    have modulus : max m 1 = m := Nat.max_eq_left (Nat.one_le_iff_ne_zero.mpr sized.1)
    obtain rfl : n = used := yields.2 (by omega) used sizes
    have fits : n + toMultiple n m ≤ Value.maxSize := by omega
    rw [← total, modulus, all, Size.add_of_le fits, Nat.add_zero]

end Envelopes

/-! ## Choice -/

section Choice

open Run.FollowedBy

theorem local_branch {condition : Expr} (reads : condition.Reads near) (h : Local near c)
    (h' : Local near d) : Local near (fun e => branch e condition (c e) (d e)) where
  size carries path path' := by
    refine .caught (Expr.carried_evaluateHolds carries reads path path') (fun answer _ => ?_)
      fun failure => ⟨_, fun _ => rfl⟩
    cases answer with
    | true => exact h.size carries path path'
    | false => exact h'.size carries path path'
  parse := @fun ctx ctx' carries e e' path path' => by
    refine after (agrees_evalHolds carries reads) fun answer holds => ?_
    have chosen (e : Engine) (path : Path) :
        (branch e condition (c e) (d e)).size ctx path =
          if answer then (c e).size ctx path else (d e).size ctx path := by
      unfold branch
      dsimp only
      rw [holds e path]
      cases answer <;> rfl
    cases answer with
    | true =>
        refine (h.parse carries e e' path path').imp fun v n yields =>
          ⟨yields.1, fun small k known => ?_⟩
        exact yields.2 small k fun e path => (chosen e path).symm.trans (known e path)
    | false =>
        refine (h'.parse carries e e' path path').imp fun v n yields =>
          ⟨yields.1, fun small k known => ?_⟩
        exact yields.2 small k fun e path => (chosen e path).symm.trans (known e path)

end Choice

end Codec

end BinaryFormat
