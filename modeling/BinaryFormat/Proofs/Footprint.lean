import BinaryFormat.Proofs.Growth.Envelopes
import BinaryFormat.Proofs.Frames.Formats
import BinaryFormat.Proofs.Writing

/-!
# The footprint of a build

What is built into a stream that grows lies behind the position where the build
started, and so does every patch that the build leaves pending.  Applying a
patch touches nothing in front of its reserved bytes and, if its component ends
where it has stopped writing, nothing behind them either.
-/

namespace BinaryFormat

/-! ## Formats that only go forward -/

namespace Format

/-- Building neither moves back nor leaves a patch where its bytes are not. -/
def IsOnward : Format → Prop
  | seek _ _ | pointer _ _ => False
  | prefixed length _ _ _ => length.PatchFree
  | transformed of _ _ | recoded of _ _ => of.Single
  | _ => True

def Onward (f : Format) : Prop := f.All IsOnward

/-- Building ends where it has stopped writing. -/
def IsTight : Format → Prop
  | union none _ | reference _ => False
  | _ => True

def Tight (f : Format) : Prop := f.All IsTight

end Format

/-- What is claimed of a build beside that it goes forward. -/
structure Claims where
  /-- It ends where it has stopped writing. -/
  tight : Prop
  /-- No patch is queued while a patch is built. -/
  simple : Prop

/-- The format lives up to the claims. -/
structure Format.Meets (c : Claims) (f : Format) : Prop where
  onward : f.Onward
  tight : c.tight → f.Tight
  simple : c.simple → f.Single

/-- The component of a patch lives up to the claims. -/
structure Deferred.Suits (c : Claims) (d : Deferred) : Prop where
  onward : d.field.Onward
  tight : c.tight → d.field.Tight
  simple : c.simple → d.field.PatchFree

/-- A patch within a stream, behind a position of it and, if that is claimed, in front of the
one that it has reached.  Of the positions of a view nothing is said. -/
structure Deferred.Behind (c : Claims) (start : Nat) (stream : Stream) (d : Deferred) : Prop where
  front : stream.source = none → start ≤ d.offset
  within : d.offset + d.size ≤ stream.span
  back : c.tight → d.offset + d.size ≤ stream.pos
  suits : d.Suits c

/-- A stream after something was built: it may have become longer, and its position has not moved
back. -/
structure Stream.Advanced (s s' : Stream) : Prop where
  growable : s'.Growable
  source : s'.source = s.source
  forward : s.pos ≤ s'.pos
  longer : s.span ≤ s'.span

/-- Bytes in front of `start` stay, and so do, if that is claimed, those behind the position. -/
def Stream.Keeps (c : Claims) (start : Nat) (s s' : Stream) : Prop :=
  ∀ (i : Nat) (b : UInt8), s.data[i]? = some b → i < start ∨ c.tight ∧ s'.pos ≤ i →
    s'.data[i]? = some b

/-- What has happened since a state is confined to what lies behind a position. -/
structure State.Confined (c : Claims) (start : Nat) (s s' : State) : Prop where
  stream : s.stream.Advanced s'.stream
  kept : s.stream.Keeps c start s'.stream
  below : s'.context.below = s.context.below
  queue : ∃ new, s'.context.top.deferred = s.context.top.deferred ++ new ∧
    ∀ d ∈ new, d.Behind c start s'.stream

variable {c : Claims} {start : Nat} {e : Engine}

/-! ## Streams -/

namespace Stream

variable {s s' s'' : Stream}

theorem data_setPos (s : Stream) (pos : Nat) : (s.setPos pos).data = s.data := by
  cases s <;> rfl

theorem source_setPos (s : Stream) (pos : Nat) : (s.setPos pos).source = s.source := by
  cases s <;> rfl

theorem Extended.advanced (h : s.Extended s') : s.Advanced s' :=
  ⟨h.growable, h.source, h.forward, h.longer⟩

theorem Advanced.refl (growable : s.Growable) : s.Advanced s := (Extended.refl growable).advanced

theorem Advanced.trans (h : s.Advanced s') (h' : s'.Advanced s'') : s.Advanced s'' :=
  ⟨h'.growable, h'.source.trans h.source, h.forward.trans h'.forward, h.longer.trans h'.longer⟩

theorem advanced_write (growable : s.Growable) (bytes : List UInt8) :
    s.Advanced (s.write bytes).2 := (extended_write growable bytes).2.1.advanced

/-- Something may be built elsewhere if the position is set back afterwards. -/
private theorem Advanced.setBack {pos : Nat} (growable : s.Growable)
    (h : (s.setPos pos).Advanced s') :
    s.Advanced (s'.setPos s.pos) where
  growable := by
    cases s' with
    | medium m => exact h.growable
    | view v' outer' =>
        cases s with
        | medium m => cases h.source
        | view v outer =>
            obtain ⟨-, -, inside, -⟩ := growable
            have longer : v.units.length ≤ v'.units.length := h.longer
            exact Growable.setPos h.growable (inside.trans longer)
  source := (source_setPos s' s.pos).trans (h.source.trans (source_setPos s pos))
  forward := (pos_setPos s' s.pos).ge
  longer := by
    have longer := h.longer
    rwa [span_setPos] at longer ⊢

theorem Keeps.refl (s : Stream) : s.Keeps c start s := fun _ _ found _ => found

theorem Keeps.trans (h : s.Keeps c start s') (h' : s'.Keeps c start s'')
    (forward : s'.pos ≤ s''.pos) : s.Keeps c start s'' := by
  intro i b found apart
  refine h' i b (h i b found (apart.imp_right fun behind => ⟨behind.1, ?_⟩)) apart
  exact forward.trans behind.2

theorem Keeps.mono {first : Nat} (h : s.Keeps c start s') (le : first ≤ start) :
    s.Keeps c first s' :=
  fun i b found apart => h i b found (apart.imp_left fun front => front.trans_le le)

private theorem keeps_of_view {v : View} {outer : Stream} (h : (view v outer).Advanced s') :
    (view v outer).Keeps c start s' := by
  cases s' with
  | medium m => cases h.source
  | view v' outer' =>
      have same : (v'.recoding, outer') = (v.recoding, outer) := Option.some.inj h.source
      obtain rfl : outer' = outer := congrArg Prod.snd same
      exact fun i b found _ => found

theorem keeps_write (growable : s.Growable) (bytes : List UInt8) :
    s.Keeps c s.pos (s.write bytes).2 := by
  cases s with
  | view v outer => exact keeps_of_view (advanced_write growable bytes)
  | medium m =>
      obtain ⟨backing, data, pos⟩ := m
      obtain rfl : backing = .growing := growable
      intro i b found apart
      simp only [write, Medium.write, Stream.data, Stream.pos] at found apart ⊢
      rw [Medium.getElem?_overlay]
      rcases apart with front | ⟨-, back⟩
      · rw [if_pos front, found]
        rfl
      · rw [if_neg (by omega), if_neg (by omega)]
        exact found

end Stream

/-! ## States -/

theorem Deferred.Behind.onward {d : Deferred} {a b : Stream} (h : d.Behind c start a)
    (further : a.Advanced b) : d.Behind c start b :=
  ⟨fun flat => h.front (further.source.symm.trans flat), h.within.trans further.longer,
    fun claim => (h.back claim).trans further.forward, h.suits⟩

namespace State

variable {s s' s'' : State}

private theorem Confined.refl (growable : s.stream.Growable) : s.Confined c start s where
  stream := .refl growable
  kept := .refl _
  below := rfl
  queue := ⟨[], (List.append_nil _).symm, nofun⟩

theorem Confined.trans (h : s.Confined c start s') (h' : s'.Confined c start s'') :
    s.Confined c start s'' where
  stream := h.stream.trans h'.stream
  kept := h.kept.trans h'.kept h'.stream.forward
  below := h'.below.trans h.below
  queue := by
    obtain ⟨new, queued, behind⟩ := h.queue
    obtain ⟨new', queued', behind'⟩ := h'.queue
    refine ⟨new ++ new', by rw [queued', queued, List.append_assoc], fun d mem => ?_⟩
    rcases List.mem_append.mp mem with mem | mem
    · exact (behind d mem).onward h'.stream
    · exact behind' d mem

theorem Confined.mono {first : Nat} (h : s.Confined c start s') (le : first ≤ start) :
    s.Confined c first s' where
  stream := h.stream
  kept := h.kept.mono le
  below := h.below
  queue := by
    obtain ⟨new, queued, behind⟩ := h.queue
    exact ⟨new, queued, fun d mem =>
      { behind d mem with front := fun flat => le.trans ((behind d mem).front flat) }⟩

theorem confined_of_same (growable : s.stream.Growable) (stream : s'.stream = s.stream)
    (context : s.context.Kept s'.context) : s.Confined c start s' := by
  obtain ⟨stream', ctx, store⟩ := s'
  obtain rfl : stream' = s.stream := stream
  exact ⟨.refl growable, .refl _, context.below, [], by rw [context.deferred, List.append_nil],
    nofun⟩

theorem Confined.goTo (loose : ¬ c.tight) (h : s.Confined c start s') {pos : Nat}
    (back : s.stream.pos ≤ pos) (inside : pos ≤ s'.stream.pos) :
    s.Confined c start { s' with stream := s'.stream.setPos pos } where
  stream := by
    refine ⟨?_, (Stream.source_setPos _ _).trans h.stream.source,
      back.trans (Stream.pos_setPos _ _).ge,
      h.stream.longer.trans (Stream.span_setPos _ _).ge⟩
    have growable := h.stream.growable
    cases there : s'.stream with
    | medium m => rwa [there] at growable
    | view v outer =>
        rw [there] at growable inside
        exact growable.setPos (inside.trans growable.2.2.1)
  kept i b found apart := by
    rw [Stream.data_setPos]
    exact h.kept i b found (apart.imp_right fun behind => absurd behind.1 loose)
  below := h.below
  queue := by
    obtain ⟨new, queued, behind⟩ := h.queue
    refine ⟨new, queued, fun d mem => ⟨fun flat => ?_, ?_, (absurd · loose), (behind d mem).suits⟩⟩
    · exact (behind d mem).front ((Stream.source_setPos _ _).symm.trans flat)
    · rw [Stream.span_setPos]
      exact (behind d mem).within

end State

/-! ## Runs -/

namespace Run

variable {α β : Type} {x y : Run α} {f : α → Run β}

/-- Whatever a run does when it succeeds is confined to what lies behind where it started. -/
def Confined (c : Claims) (x : Run α) : Prop :=
  ∀ s a s', s.stream.Growable → x s = .ok a s' → s.Confined c s.stream.pos s'

theorem confined_of_same (h : ∀ s a s', x s = .ok a s' →
    s'.stream = s.stream ∧ s.context.Kept s'.context) : x.Confined c := by
  intro s a s' growable run
  obtain ⟨stream, context⟩ := h s a s' run
  exact State.confined_of_same growable stream context

theorem Confined.bind_of_ok (hx : x.Confined c)
    (hf : ∀ a s s', x s = .ok a s' → (f a).Confined c) : (x >>= f).Confined c := by
  intro s b s' growable run
  obtain ⟨a, s₁, first, later⟩ := bind_eq_ok_iff.mp run
  have here := hx s a s₁ growable first
  exact here.trans ((hf a s s₁ first s₁ b s' here.stream.growable later).mono here.stream.forward)

theorem Confined.bind (hx : x.Confined c) (hf : ∀ a, (f a).Confined c) :
    (x >>= f).Confined c := hx.bind_of_ok fun a _ _ _ => hf a

theorem confined_pure {a : α} : (pure a : Run α).Confined c :=
  confined_of_same fun s b s' run => by
    cases run
    exact ⟨rfl, .refl _⟩

theorem confined_throw {failure : Failure} : (throw failure : Run α).Confined c :=
  fun _ _ _ _ run => nomatch run

theorem confined_fail {fault : Fault} {path : Path} : (fail fault path : Run α).Confined c :=
  confined_throw

theorem confined_ofExcept {path : Path} {r : Except Fault α} : (ofExcept path r).Confined c := by
  cases r with
  | ok a => exact confined_pure
  | error fault => exact confined_fail

theorem confined_settle {r : Except Failure α} : (settle r).Confined c := by
  cases r with
  | ok a => exact confined_pure
  | error failure => exact confined_throw

theorem confined_lookup {l : Lookup Failure α} : (lookup l).Confined c := by
  refine confined_of_same fun s a s' run => ?_
  unfold lookup at run
  cases found : l s.store <;> rw [found] at run <;> cases run
  exact ⟨rfl, .refl _⟩

theorem confined_context : context.Confined c :=
  confined_of_same fun s b s' run => by
    cases run
    exact ⟨rfl, .refl _⟩

theorem confined_scope : scope.Confined c :=
  confined_of_same fun s b s' run => by
    cases run
    exact ⟨rfl, .refl _⟩

theorem confined_tell : tell.Confined c :=
  confined_of_same fun s b s' run => by
    cases run
    exact ⟨rfl, .refl _⟩

theorem confined_insert {name : String} {value : Value} : (insert name value).Confined c :=
  confined_of_same fun s b s' run => by
    cases run
    exact ⟨rfl, Context.kept_insert _ _ _⟩

theorem confined_ite {p : Prop} [Decidable p] (hx : x.Confined c) (hy : y.Confined c) :
    (if p then x else y).Confined c := by
  split
  · exact hx
  · exact hy

theorem confined_guard {p : Prop} [Decidable p] {fault : Fault} {path : Path} {g : β → Run α}
    (hx : x.Confined c) : (if p then fail fault path >>= g else x).Confined c :=
  confined_ite (fun _ _ _ _ run => nomatch run) hx

theorem Confined.tagged (h : x.Confined c) : x.tagged.Confined c :=
  fun s a s' growable run => h s a s' growable (tagged_eq_ok_iff.mp run)

/-- The failure of a run that changes nothing else may be caught. -/
theorem confined_outcome (same : ∀ s, (x.after s).stream = s.stream ∧
    (x.after s).context = s.context) : x.outcome.Confined c := by
  refine confined_of_same fun s r s' run => ?_
  obtain ⟨stream, context⟩ := same s
  unfold after at stream context
  unfold outcome at run
  cases first : x s <;> rw [first] at run stream context <;> cases run <;>
    exact ⟨stream, by rw [context]; exact .refl _⟩

theorem confined_write {bytes : List UInt8} {path : Path} : (write bytes path).Confined c := by
  intro s a s' growable run
  cases (write_of_growable growable bytes path).symm.trans run
  exact ⟨Stream.advanced_write growable bytes, Stream.keeps_write growable bytes,
    rfl, [], (List.append_nil _).symm, nofun⟩

end Run

namespace Engine

variable (e : Engine)

theorem confined_eval {x : Expr} {path : Path} : (e.eval x path).Confined c :=
  .bind Run.confined_scope fun _ => Run.confined_lookup

theorem confined_evalSize {x : Expr} {path : Path} : (e.evalSize x path).Confined c :=
  .bind Run.confined_scope fun _ => Run.confined_lookup

theorem confined_evalHolds {x : Expr} {path : Path} : (e.evalHolds x path).Confined c :=
  .bind Run.confined_scope fun _ => Run.confined_lookup

theorem confined_evalOver {x : Expr} {object : Value} {path : Path} :
    (e.evalOver x object path).Confined c :=
  .bind Run.confined_scope fun _ => Run.confined_lookup

theorem confined_equal {a b : Value} : (e.equal a b).Confined c := Run.confined_lookup

theorem confined_containerInput {v : Value} {path : Path} :
    (e.containerInput v path).Confined c := by
  cases v with
  | container fields | flags fields => exact Run.confined_pure
  | none => exact Run.confined_pure
  | lazyContainer handle names =>
      refine .bind Run.confined_lookup fun forced => ?_
      cases forced <;> exact Run.confined_pure
  | _ => exact Run.confined_fail

theorem confined_listInput {v : Value} {path : Path} : (e.listInput v path).Confined c := by
  cases v with
  | list items | bytes data => exact Run.confined_pure
  | lazyList handle count =>
      refine .bind Run.confined_lookup fun forced => ?_
      cases forced <;> exact Run.confined_pure
  | _ => exact Run.confined_fail

end Engine

/-- Whatever a codec builds is confined to what lies behind where it started. -/
structure Codec.Confined (c : Claims) (k : Codec) : Prop where
  build : ∀ v path, (k.build v path).Confined c
  buildInline : ∀ input path, (k.buildInline input path).Confined c

/-- Engines that confine every format that lives up to the claims. -/
def Engine.Confines (e : Engine) : Prop :=
  ∀ (c : Claims) (f : Format) v path, f.Meets c → (e.build f v path).Confined c

/-! ## Patches -/

namespace Engine

variable {s s' : State}

theorem offset_of_seek {offset reached pos : Nat} {path : Path} (growable : s.stream.Growable)
    (flat : s.stream.source = none) (run : Run.seek (.start offset) path s = .ok reached
      { s with stream := s.stream.setPos pos }) : pos = offset := by
  obtain ⟨stream, ctx, store⟩ := s
  cases stream with
  | view v outer => cases flat
  | medium m =>
      obtain ⟨backing, data, here⟩ := m
      obtain rfl : backing = .growing := growable
      have there := congrArg (·.stream.pos) (Run.seek_growing run)
      exact there

private theorem queue_of_patchFree (he : e.Steady) {f : Format} (free : f.PatchFree) {v w : Value}
    {path : Path} (run : e.build f v path s = .ok w s') :
    s'.context.top.deferred = s.context.top.deferred := by
  have within : Traits.Within ⟨False, False, True, False⟩ f.traits :=
    ⟨False.elim, False.elim, fun _ => free, False.elim⟩
  have kept := he.build f v path _ s.context within (Or.rec False.elim False.elim)
  obtain ⟨new, queued, -, none⟩ := (kept.of_ok (.refl _) run).1.queue
  rw [queued, none trivial, List.append_nil]

/-- A patch touches nothing in front of its reserved bytes and, if its component ends where it
stops writing, nothing behind them. -/
private theorem confined_applyPatch (he : e.Steady) (confines : e.Confines) {d : Deferred}
    {value : Value}
    (growable : s.stream.Growable) (behind : d.Behind c start s.stream)
    (run : e.applyPatch d value s = .ok () s') :
    s.Confined c start s' ∧ s'.stream.pos = s.stream.pos ∧
      (c.simple → s'.context.top.deferred = s.context.top.deferred) := by
  obtain ⟨reached, s₁, built, s₂, sought, made, full, rfl⟩ := applyPatch_of_ok run
  obtain ⟨pos, early, rfl⟩ := setPos_of_seek growable sought
  have room := behind.within
  have inside : pos ≤ s.stream.span := by omega
  -- The patch is built with the position at its bytes, and confined to what lies behind that.
  have laid := confines ⟨c.tight, False⟩ d.field value d.path
    ⟨behind.suits.onward, behind.suits.tight, False.elim⟩ _ _ _ (growable.setPos inside) made
  dsimp only at laid
  rw [Stream.pos_setPos] at laid
  have stop : s₂.stream.pos ≤ d.offset + d.size := Size.le_add_of_sub_eq full
  have patched := laid.stream.setBack growable
  have none : c.simple → s₂.context.top.deferred = s.context.top.deferred := fun simple =>
    queue_of_patchFree (s := { s with stream := s.stream.setPos pos }) he
      (behind.suits.simple simple) made
  have noted := s₂.context.kept_noted d built
  have there (flat : s.stream.source = Option.none) : pos = d.offset :=
    offset_of_seek growable flat sought
  refine ⟨⟨patched, ?_, noted.below.trans laid.below, ?_⟩, Stream.pos_setPos _ _, fun simple =>
    noted.deferred.trans (none simple)⟩
  -- In a byte string only what lies in front of the patch, or behind a tight one, is claimed; of a
  -- view nothing.
  · cases flat : s.stream with
    | view v outer =>
        rw [flat] at patched
        exact Stream.keeps_of_view patched
    | medium m =>
        obtain rfl := there (by rw [flat]; rfl)
        have front := behind.front (by rw [flat]; rfl)
        intro i b found apart
        rw [← flat] at found
        rw [Stream.pos_setPos, ← flat] at apart
        rw [Stream.data_setPos]
        refine laid.kept i b ((Stream.data_setPos _ _).symm ▸ found) ?_
        rcases apart with front' | ⟨tight, back⟩
        · exact .inl (front'.trans_le front)
        · exact .inr ⟨tight, stop.trans ((behind.back tight).trans back)⟩
  · obtain ⟨new, queued, each⟩ := laid.queue
    refine ⟨new, noted.deferred.trans queued, fun d' mem => ?_⟩
    have here := each d' mem
    refine ⟨fun flat => ?_, ?_, fun tight => ?_, here.suits.onward, here.suits.tight,
      fun simple => ?_⟩
    · have flat' : s.stream.source = Option.none := patched.source.symm.trans flat
      have front := behind.front flat'
      rw [← there flat'] at front
      exact front.trans (here.front (laid.stream.source.trans (by rwa [Stream.source_setPos])))
    · rw [Stream.span_setPos]
      exact here.within
    · rw [Stream.pos_setPos]
      exact (here.back tight).trans (stop.trans (behind.back tight))
    · rw [List.append_right_eq_self.mp (queued.symm.trans (none simple))] at mem
      cases mem

private theorem confined_applyPatches (he : e.Steady) (confines : e.Confines) {strict : Bool}
    {pending unresolved : List Deferred} (growable : s.stream.Growable)
    (behind : ∀ d ∈ pending, d.Behind c start s.stream)
    (run : e.applyPatches strict pending s = .ok unresolved s') :
    s.Confined c start s' ∧ s'.stream.pos = s.stream.pos ∧
      (c.simple → s'.context.top.deferred = s.context.top.deferred) := by
  induction pending generalizing s unresolved with
  | nil =>
      obtain ⟨-, rfl⟩ := Run.pure_eq_ok_iff.mp run
      exact ⟨.refl growable, rfl, fun _ => rfl⟩
  | cons d rest ih =>
      -- Computing the value leaves all but the store.
      rcases applied_or_left_of_applyPatches run with
        ⟨value, store, s₁, -, applied, later⟩ | ⟨_, store, _, -, -, -, later, -⟩
      · obtain ⟨first, pos, queue⟩ := confined_applyPatch (s := { s with store := store }) he
          confines growable (behind d List.mem_cons_self) applied
        obtain ⟨further, pos', queue'⟩ := ih first.stream.growable
          (fun d' mem => (behind d' (List.mem_cons_of_mem d mem)).onward first.stream) later
        exact ⟨State.Confined.trans (s := s) ⟨first.stream, first.kept, first.below, first.queue⟩
          further, pos'.trans pos, fun simple => (queue' simple).trans (queue simple)⟩
      · obtain ⟨⟨stream, kept, below, queue⟩, others⟩ := ih (s := { s with store := store })
          growable (fun d' mem => behind d' (List.mem_cons_of_mem d mem)) later
        exact ⟨⟨stream, kept, below, queue⟩, others⟩

/-- Resolving the patches that were queued since a state. -/
theorem confined_resolveSince (he : e.Steady) (confines : e.Confines) {strict : Bool}
    {base : State} (confined : base.Confined c start s)
    (run : e.resolveSince base.context.mark strict s = .ok () s') :
    base.Confined c start s' ∧ s'.stream.pos = s.stream.pos ∧
      (c.simple → strict = true → s'.context.top.deferred = base.context.top.deferred) := by
  obtain ⟨new, queued, behind⟩ := confined.queue
  rw [resolveSince_apply, Context.drop_mark queued] at run
  obtain ⟨unresolved, s₁, applied, run⟩ := Run.bind_eq_ok_iff.mp run
  cases run
  have cleared : (s.context.discardSince base.context.mark).top.deferred =
      base.context.top.deferred := Context.take_mark queued
  obtain ⟨further, pos, none⟩ := confined_applyPatches
    (s := { s with context := s.context.discardSince base.context.mark }) he confines
    confined.stream.growable behind applied
  refine ⟨⟨confined.stream.trans further.stream,
    confined.kept.trans further.kept further.stream.forward, further.below.trans confined.below,
    ?_⟩, pos, fun simple once => ?_⟩
  · obtain ⟨new', queued', behind'⟩ := further.queue
    have left := sublist_of_applyPatches applied
    refine ⟨new' ++ unresolved, ?_, fun d mem => ?_⟩
    · dsimp only [Context.withDeferred]
      rw [queued', cleared, List.append_assoc]
    · rcases List.mem_append.mp mem with mem | mem
      · exact behind' d mem
      · exact (behind d (left.subset mem)).onward further.stream
  · subst once
    dsimp only [Context.withDeferred]
    rw [resolved_of_strict applied, List.append_nil, none simple, cleared]

end Engine

/-! ## Frames and buffers -/

theorem State.Confined.resolved {s s₁ s' : State} (he : e.Steady) (confines : e.Confines)
    (h : s.Confined c start s₁) (empty : s.context.top.deferred = [])
    (run : e.resolvePending s₁ = .ok () s') : s.Confined c start s' := by
  have mark : s.context.mark = 0 := by rw [Context.mark, empty, List.length_nil]
  rw [Engine.resolvePending, ← mark] at run
  exact (Engine.confined_resolveSince he confines h run).1

/-- Patches that are left over in a frame move to the one below. -/
theorem Run.confined_inFrame {α : Type} {x : Run α} {values : Record Value}
    (h : ∀ s a s', s.stream.Growable → s.context.top.deferred = [] → x s = .ok a s' →
      s.Confined c s.stream.pos s') : (Run.inFrame values x).Confined c := by
  intro s result s' growable run
  obtain ⟨s₁, inside, -, rfl⟩ := Run.ok_of_inFrame run
  obtain ⟨stream, kept, below, new, queued, behind⟩ :=
    h { s with context := s.context.push values } _ s₁ growable rfl inside
  obtain ⟨stream', ⟨⟨top, queue⟩, rest⟩, store⟩ := s₁
  obtain rfl : rest = s.context.top :: s.context.below := below
  obtain rfl : queue = new := queued
  refine ⟨stream, kept, rfl, _, rfl, fun d mem => ?_⟩
  obtain ⟨d', mem', rfl⟩ := List.mem_map.mp mem
  have here := behind d' mem'
  exact ⟨here.front, here.within, here.back, here.suits.onward, here.suits.tight,
    here.suits.simple⟩

/-- While something was built beside the stream, patches were queued that lie within its bytes. -/
structure State.Aside (c : Claims) (data : List UInt8) (s s' : State) : Prop where
  stream : s.stream.Advanced s'.stream
  kept : s.stream.Keeps c s.stream.pos s'.stream
  below : s'.context.below = s.context.below
  queue : ∃ new, s'.context.top.deferred = s.context.top.deferred ++ new ∧
    ∀ d ∈ new, d.offset + d.size ≤ data.length ∧ d.Suits c

theorem Codec.Confined.scratch {k : Codec} (h : k.Confined c) {v w : Value} {path : Path}
    {data : List UInt8} {s s' : State} (growable : s.stream.Growable)
    (run : k.buildScratch v path s = .ok (w, data) s') :
    s.Aside c data s' ∧ s'.stream = s.stream := by
  obtain ⟨⟨w', stream⟩, s₁, inside, last⟩ := Run.bind_eq_ok_iff.mp run
  obtain ⟨same, rfl⟩ := Run.pure_eq_ok_iff.mp last
  cases same
  obtain ⟨s₂, built, left, rfl⟩ := Run.ok_of_onStream inside
  dsimp only at left built
  subst left
  obtain ⟨extended, -, below, new, queued, behind⟩ :=
    h.build v path { s with stream := .memory [] } w s₂ (Stream.growable_memory []) built
  refine ⟨⟨.refl growable, .refl _, below, new, queued, fun d mem => ?_⟩, rfl⟩
  refine ⟨?_, (behind d mem).suits⟩
  have within := (behind d mem).within
  cases flat : s₂.stream with
  | view v outer =>
      rw [flat] at extended
      cases extended.source
  | medium m =>
      rw [flat] at within
      exact within

/-- Copied into the stream, the bytes bring their patches along. -/
theorem State.Aside.splice {data tail : List UInt8} {s s₁ s' : State} {path : Path}
    (h : s.Aside c data s₁)
    (run : Run.splice (data ++ tail) s.context.mark path s₁ = .ok () s') :
    s.Confined c s.stream.pos s' := by
  have growable := h.stream.growable
  obtain ⟨-, extended, pos, inside⟩ := Stream.extended_write growable (data ++ tail)
  rw [Run.splice, Run.bind_of_ok (Run.tell_apply _),
    Run.bind_of_ok (Run.write_of_growable growable _ _)] at run
  cases run
  have onward := h.stream.forward
  have wrote : s₁.stream.Keeps c s.stream.pos (s₁.stream.write (data ++ tail)).2 :=
    (Stream.keeps_write growable (data ++ tail)).mono onward
  obtain ⟨new, queued, each⟩ := h.queue
  refine ⟨h.stream.trans extended.advanced, h.kept.trans wrote extended.forward, h.below,
    new.map fun d => { d with offset := d.offset + s₁.stream.pos }, ?_, fun d mem => ?_⟩
  · dsimp only [Context.rebaseSince, Context.withDeferred]
    rw [Context.take_mark queued, Context.drop_mark queued]
  · obtain ⟨d', mem', rfl⟩ := List.mem_map.mp mem
    obtain ⟨within, suits⟩ := each d' mem'
    rw [List.length_append] at pos
    refine ⟨fun _ => ?_, ?_, fun _ => ?_, suits.onward, suits.tight, suits.simple⟩ <;>
      dsimp only <;> omega

end BinaryFormat
