import BinaryFormat.Proofs.Footprint.Formats

/-!
# Regions of the output

A region that has been written keeps its bytes as long as everything that is
built lies behind it and every patch that is still pending writes elsewhere.
-/

namespace BinaryFormat

/-- A region of the output, with the bytes that stand there. -/
structure Region where
  start : Nat
  bytes : List UInt8

/-- Where a region ends. -/
def Region.stop (r : Region) : Nat := r.start + r.bytes.length

/-- A patch writes nothing into a region: it lies behind, or in front of it and ends where it
stops writing. -/
def Deferred.Clear (r : Region) (d : Deferred) : Prop :=
  d.field.Onward ∧ (r.stop ≤ d.offset ∨ d.offset + d.size ≤ r.start ∧ d.field.Tight)

/-- The patches that wait on any frame. -/
def Context.pending (ctx : Context) : List Deferred :=
  ctx.top.deferred ++ ctx.below.flatMap Frame.deferred

/-- The region has been written, and nothing that is left to do writes to it. -/
structure State.Holds (r : Region) (s : State) : Prop where
  growable : s.stream.Growable
  flat : s.stream.source = none
  behind : r.stop ≤ s.stream.pos
  bytes : ∀ i b, r.bytes[i]? = some b → s.stream.data[r.start + i]? = some b
  clear : ∀ d ∈ s.context.pending, d.Clear r

variable {r : Region} {e : Engine} {α β : Type}

private theorem Region.lt_stop {i : Nat} {b : UInt8} (found : r.bytes[i]? = some b) :
    r.start + i < r.stop :=
  Nat.add_lt_add_left (List.getElem?_eq_some_iff.mp found).1 r.start

private theorem Context.mem_pending {ctx : Context} {d : Deferred} :
    d ∈ ctx.pending ↔ d ∈ ctx.top.deferred ∨ ∃ frame ∈ ctx.below, d ∈ frame.deferred := by
  simp [pending]

private theorem Deferred.Behind.clear {c : Claims} {start : Nat} {stream : Stream} {d : Deferred}
    (h : d.Behind c start stream) (flat : stream.source = none) (behind : r.stop ≤ start) :
    d.Clear r := ⟨h.suits.onward, Or.inl (behind.trans (h.front flat))⟩

private theorem Stream.growable_setPos_of_flat {s : Stream} (growable : s.Growable)
    (flat : s.source = none) (pos : Nat) : (s.setPos pos).Growable := by
  cases s with
  | medium m => exact growable
  | view v outer => cases flat

namespace State

variable {s s' : State}

theorem Holds.read (h : s.Holds r) :
    (s.stream.data.drop r.start).take r.bytes.length = r.bytes := by
  apply List.ext_getElem?
  intro i
  rw [List.getElem?_take]
  split
  · rename_i inside
    rw [List.getElem?_drop, h.bytes i _ (List.getElem?_eq_getElem inside),
      List.getElem?_eq_getElem inside]
  · rename_i beyond
    rw [List.getElem?_eq_none (Nat.le_of_not_lt beyond)]

/-- Only the contexts and their queues matter, not the values in them. -/
private theorem Holds.withContext (h : s.Holds r) {ctx : Context} {store : LazyStore}
    (clear : ∀ d ∈ ctx.pending, d.Clear r) : State.Holds r ⟨s.stream, ctx, store⟩ :=
  ⟨h.growable, h.flat, h.behind, h.bytes, clear⟩

private theorem Holds.of_confined {start : Nat} (h : s.Holds r) (behind : r.stop ≤ start)
    (further : s.Confined ⟨False, False⟩ start s') : s'.Holds r where
  growable := further.stream.growable
  flat := further.stream.source.trans h.flat
  behind := h.behind.trans further.stream.forward
  bytes i b found := further.kept _ b (h.bytes i b found)
    (Or.inl ((Region.lt_stop found).trans_le behind))
  clear d mem := by
    obtain ⟨new, queued, each⟩ := further.queue
    rw [Context.mem_pending, queued, further.below, List.mem_append] at mem
    rcases mem with (old | fresh) | below
    · exact h.clear d (Context.mem_pending.mpr (Or.inl old))
    · exact (each d fresh).clear (further.stream.source.trans h.flat) behind
    · exact h.clear d (Context.mem_pending.mpr (Or.inr below))

theorem Holds.pop (h : s.Holds r) : State.Holds r { s with context := s.context.pop } := by
  refine h.withContext fun d mem => ?_
  unfold Context.pop at mem
  cases below : s.context.below with
  | nil =>
      rw [below] at mem
      exact h.clear d mem
  | cons next rest =>
      rw [below] at mem
      simp only [Context.mem_pending, List.mem_append, List.mem_map] at mem
      have deeper {frame : Frame} (at_frame : frame ∈ s.context.below) {d : Deferred}
          (mem : d ∈ frame.deferred) : d.Clear r :=
        h.clear d (Context.mem_pending.mpr (Or.inr ⟨frame, at_frame, mem⟩))
      rcases mem with (here | ⟨d', moved, rfl⟩) | ⟨frame, at_frame, there⟩
      · exact deeper (below ▸ List.mem_cons_self) here
      · exact h.clear d' (Context.mem_pending.mpr (Or.inl moved))
      · exact deeper (below ▸ List.mem_cons_of_mem next at_frame) there

end State

namespace Run

/-- A region that has been written stays through the run. -/
def Preserves (r : Region) (x : Run α) : Prop :=
  ∀ s a s', s.Holds r → x s = .ok a s' → s'.Holds r

theorem Preserves.bind {x : Run α} {f : α → Run β} (hx : x.Preserves r)
    (hf : ∀ a, (f a).Preserves r) : (x >>= f).Preserves r := by
  intro s b s' holds run
  obtain ⟨a, s₁, first, later⟩ := bind_eq_ok_iff.mp run
  exact hf a s₁ b s' (hx s a s₁ holds first) later

theorem Confined.preserves {x : Run α} (h : x.Confined ⟨False, False⟩) : x.Preserves r :=
  fun s a s' holds run => holds.of_confined holds.behind (h s a s' holds.growable run)

theorem preserves_pure {a : α} : (pure a : Run α).Preserves r := confined_pure.preserves

private theorem confined_outcome_lookup {c : Claims} (l : Lookup Failure α) :
    (lookup l).outcome.Confined c := by
  refine confined_outcome fun s => ?_
  unfold after lookup
  cases l s.store <;> exact ⟨rfl, rfl⟩

/-- What is copied over from a buffer lands behind the region, with its patches. -/
theorem preserves_splice {data : List UInt8} {mark : Nat} {path : Path} :
    (splice data mark path).Preserves r := by
  intro s _ s' holds run
  have growable := holds.growable
  rw [splice, Run.bind_of_ok (tell_apply s),
    Run.bind_of_ok (write_of_growable growable data path)] at run
  have wrote := confined_write (c := ⟨False, False⟩) s () _ growable
    (write_of_growable growable data path)
  have held := holds.of_confined holds.behind wrote
  cases run
  refine held.withContext fun d mem => ?_
  have clear := holds.clear
  simp only [Context.rebaseSince, Context.withDeferred, Context.mem_pending, List.mem_append,
    List.mem_map] at mem clear
  rcases mem with (kept | ⟨d', moved, rfl⟩) | below
  · exact clear d (Or.inl (List.mem_of_mem_take kept))
  · refine ⟨(clear d' (Or.inl (List.mem_of_mem_drop moved))).1, Or.inl ?_⟩
    exact holds.behind.trans (Nat.le_add_left _ _)
  · exact clear d (Or.inr below)

end Run

namespace Engine

/-- A patch that stays out of the region leaves it alone, and so does what it queues. -/
private theorem preserves_applyPatch (confines : e.Confines) {d : Deferred} (value : Value)
    (clear : d.Clear r) : (e.applyPatch d value).Preserves r := by
  intro s _ s' holds run
  obtain ⟨reached, s₁, built, s₂, sought, made, full, rfl⟩ := applyPatch_of_ok run
  obtain ⟨pos, -, rfl⟩ := setPos_of_seek holds.growable sought
  obtain rfl := offset_of_seek holds.growable holds.flat sought
  obtain ⟨onward, apart⟩ := clear
  have stop := Size.le_add_of_sub_eq full
  -- In front of the region the component has to end where it stops writing.
  have laid := confines ⟨d.offset + d.size ≤ r.start ∧ d.field.Tight, False⟩ d.field value d.path
    ⟨onward, And.right, False.elim⟩ _ _ _
    (Stream.growable_setPos_of_flat holds.growable holds.flat d.offset) made
  dsimp only at laid
  rw [Stream.pos_setPos] at laid
  have flat : s₂.stream.source = none :=
    laid.stream.source.trans ((Stream.source_setPos _ _).trans holds.flat)
  refine ⟨Stream.growable_setPos_of_flat laid.stream.growable flat _,
    (Stream.source_setPos _ _).trans flat, (Stream.pos_setPos _ _).symm ▸ holds.behind,
    fun i b found => ?_, fun d' mem => ?_⟩
  · have inside := Region.lt_stop found
    dsimp only
    rw [Stream.data_setPos]
    refine laid.kept _ b ((Stream.data_setPos _ _).symm ▸ holds.bytes i b found) ?_
    rcases apart with behind | ⟨front, tight⟩
    · exact Or.inl (inside.trans_le behind)
    · exact Or.inr ⟨⟨front, tight⟩, by omega⟩
  · have noted := s₂.context.kept_noted d built
    obtain ⟨new, queued, each⟩ := laid.queue
    rw [Context.mem_pending, noted.deferred, noted.below, laid.below, queued,
      List.mem_append] at mem
    rcases mem with (old | fresh) | below
    · exact holds.clear d' (Context.mem_pending.mpr (Or.inl old))
    · have here := each d' fresh
      refine ⟨here.suits.onward, apart.imp (fun behind => behind.trans (here.front flat)) ?_⟩
      exact fun front => ⟨(here.back front).trans (by omega), here.suits.tight front⟩
    · exact holds.clear d' (Context.mem_pending.mpr (Or.inr below))

private theorem preserves_applyPatches (confines : e.Confines) (strict : Bool)
    {patches : List Deferred}
    (clear : ∀ d ∈ patches, d.Clear r) : (e.applyPatches strict patches).Preserves r := by
  induction patches with
  | nil => exact Run.preserves_pure
  | cons d rest ih =>
      have later := ih fun d' mem => clear d' (List.mem_cons_of_mem d mem)
      refine .bind Run.confined_context.preserves fun ctx => .bind
        (Run.confined_outcome_lookup _).preserves fun found => ?_
      cases found with
      | ok value =>
          exact .bind (preserves_applyPatch confines value (clear d List.mem_cons_self)) fun _ =>
            later
      | error failure =>
          dsimp only
          split
          · exact .bind later fun _ => Run.preserves_pure
          · exact fun _ _ _ _ run => nomatch run

theorem preserves_resolveSince (confines : e.Confines) (mark : Nat) (strict : Bool) :
    (e.resolveSince mark strict).Preserves r := by
  intro s _ s' holds run
  rw [resolveSince_apply] at run
  have queued {d : Deferred} (mem : d ∈ s.context.top.deferred) : d.Clear r :=
    holds.clear d (Context.mem_pending.mpr (Or.inl mem))
  have dropped : State.Holds r { s with context := s.context.discardSince mark } := by
    refine holds.withContext fun d mem => ?_
    rw [Context.mem_pending] at mem
    rcases mem with top | below
    · exact queued (List.mem_of_mem_take top)
    · exact holds.clear d (Context.mem_pending.mpr (Or.inr below))
  obtain ⟨unresolved, s₁, applied, run⟩ := Run.bind_eq_ok_iff.mp run
  have left := sublist_of_applyPatches applied
  have held := preserves_applyPatches confines strict
    (fun d mem => queued (List.mem_of_mem_drop mem)) _ _ _ dropped applied
  cases run
  refine held.withContext fun d mem => ?_
  simp only [Context.withDeferred, Context.mem_pending, List.mem_append] at mem
  rcases mem with (kept | waiting) | below
  · exact held.clear d (Context.mem_pending.mpr (Or.inl kept))
  · exact queued (List.mem_of_mem_drop (left.subset waiting))
  · exact held.clear d (Context.mem_pending.mpr (Or.inr below))

end Engine

end BinaryFormat
