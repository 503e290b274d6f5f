import BinaryFormat.Proofs.Scripts

/-!
# Leaving a view

A view that is left hands back the chunks that it fetched and that its position has not
passed.  It cannot hand on chunks that it never fetched: a position that was reached by seeking
forward alone leaves the outer stream behind the last chunk that a read, or a seek from the end,
made the view fetch.
-/

namespace BinaryFormat

/-! ## Chunks that a script needs -/

namespace Recoding

variable (r : Recoding)

/-- Chunks that hold so many units. -/
def chunksFor (count : Nat) : Nat := (count + r.inner - 1) / r.inner

private theorem chunksFor_zero : r.chunksFor 0 = 0 := by
  have positive := r.inner_pos
  exact Nat.div_eq_of_lt (by omega)

private theorem chunksFor_mul (chunks : Nat) : r.chunksFor (chunks * r.inner) = chunks := by
  have positive := r.inner_pos
  rw [chunksFor, Nat.add_sub_assoc positive, Nat.add_comm, Nat.add_mul_div_right _ _ positive,
    Nat.div_eq_of_lt (by omega), Nat.zero_add]

private theorem chunksFor_le {a b : Nat} (le : a ≤ b) : r.chunksFor a ≤ r.chunksFor b :=
  Nat.div_le_div_right (by omega)

private theorem chunksFor_max (a b : Nat) :
    r.chunksFor (max a b) = max (r.chunksFor a) (r.chunksFor b) := by
  rcases Nat.le_total a b with le | le
  · rw [Nat.max_eq_right le, Nat.max_eq_right (r.chunksFor_le le)]
  · rw [Nat.max_eq_left le, Nat.max_eq_left (r.chunksFor_le le)]

private theorem chunksFor_sub (count chunks : Nat) :
    r.chunksFor (count - chunks * r.inner) = r.chunksFor count - chunks := by
  have positive := r.inner_pos
  rcases Nat.le_total (chunks * r.inner) count with more | enough
  · have shift : count - chunks * r.inner + r.inner - 1 =
        count + r.inner - 1 - r.inner * chunks := by
      rw [Nat.mul_comm r.inner]
      omega
    rw [chunksFor, shift, Nat.sub_mul_div]
    rfl
  · have few := r.chunksFor_le enough
    rw [chunksFor_mul] at few
    rw [Nat.sub_eq_zero_of_le enough, chunksFor_zero, Nat.sub_eq_zero_of_le few]

private theorem div_le_chunksFor {count : Nat} {pos : Nat} (aligned : pos % r.inner = 0) :
    pos / r.inner ≤ r.chunksFor count ↔ pos < count + r.inner := by
  have positive := r.inner_pos
  have whole : pos = pos / r.inner * r.inner :=
    (Nat.div_mul_cancel (Nat.dvd_of_mod_eq_zero aligned)).symm
  rw [chunksFor, Nat.le_div_iff_mul_le positive, ← whole]
  omega

end Recoding

/-- Up to which unit an access makes a view of so many units fetch. -/
def Access.reach (total pos : Nat) : Access → Nat
  | .exactly count => if count = 0 then 0 else pos + count
  | .all | .seek (.fromEnd _) => total
  | .seek _ => 0

/-- Up to which unit a script makes a view fetch. -/
def Stream.reach (total : Nat) (s : Stream) : List Access → Nat
  | [] => 0
  | a :: rest => max (a.reach total s.pos) ((s.access a).2.reach total rest)

namespace Stream

variable {outer s : Stream} {r : Recoding} {chunks : Nat}

/-- A view of the outer stream that has fetched so many chunks of it, and was not written to. -/
structure Viewing (outer : Stream) (r : Recoding) (chunks : Nat) (v : View) (outer' : Stream) :
    Prop where
  recoding : v.recoding = r
  fetched : v.fetched = chunks
  shown : v.units = r.decode (outer.left.take (chunks * r.outer))
  unwritten : v.written = false
  drained : v.exhausted = true → outer'.left.length < r.outer
  ahead : outer.Ahead (chunks * r.outer) outer'

theorem viewing_viewed (outer : Stream) (r : Recoding) :
    Viewing outer r 0 ⟨r, [], 0, 0, false, false⟩ outer where
  recoding := rfl
  fetched := rfl
  shown := by rw [Nat.zero_mul, List.take_zero, r.decode_nil]
  unwritten := rfl
  drained := Bool.noConfusion
  ahead := by
    rw [Nat.zero_mul]
    exact .refl outer

/-- So many chunks are fetched in all, once the view has to hold the units up to `reach`. -/
def reached (outer : Stream) (r : Recoding) (reach : Nat) : Nat :=
  min (outer.left.length / r.outer) (r.chunksFor reach)

theorem reached_max (outer : Stream) (r : Recoding) (a b : Nat) :
    outer.reached r (max a b) = max (outer.reached r a) (outer.reached r b) := by
  simp only [reached, r.chunksFor_max]
  omega

theorem reached_zero (outer : Stream) (r : Recoding) : outer.reached r 0 = 0 := by
  rw [reached, r.chunksFor_zero, Nat.min_zero]

private theorem reached_total (outer : Stream) (r : Recoding) :
    outer.reached r (outer.left.length / r.outer * r.inner) = outer.left.length / r.outer := by
  rw [reached, r.chunksFor_mul, Nat.min_self]

variable {v : View} {outer' : Stream}

theorem Viewing.held (h : Viewing outer r chunks v outer') :
    v.units.length = chunks * r.inner := by
  rw [h.shown, r.length_decode chunks]
  rw [List.length_take, Nat.min_eq_left h.ahead.enough]

/-- A view that takes in further chunks, and moves. -/
theorem Viewing.fetch {outer'' : Stream} {more : Nat} {exhausted : Bool}
    (h : Viewing outer r chunks v outer') (fetched : Fetched v outer' more exhausted outer'')
    (pos : Nat) :
    Viewing outer r (chunks + more) ((v.extended outer'.left more exhausted).moved pos)
      outer'' where
  recoding := h.recoding
  fetched := congrArg (· + more) h.fetched
  shown := by
    have first : (outer.left.take (chunks * r.outer)).length = chunks * r.outer := by
      rw [List.length_take, Nat.min_eq_left h.ahead.enough]
    have split : outer.left.take ((chunks + more) * r.outer) =
        outer.left.take (chunks * r.outer) ++ outer'.left.take (more * r.outer) := by
      rw [Nat.add_mul, List.take_add, h.ahead.left_eq]
    have enough := fetched.enough
    show v.units ++ v.recoding.decode ((v.further outer'.left).take _) = _
    rw [split, r.decode_append chunks first, ← h.shown, h.recoding]
    -- A view that can fetch no more has fetched nothing.
    by_cases shut : (v.written || v.exhausted) = true
    · rw [View.further_of_shut shut, List.length_nil, h.recoding] at enough
      rw [Nat.le_zero.mp enough, List.take_zero, List.take_zero]
    · rw [View.further_of_open (Bool.eq_false_iff.mpr shut)]
  unwritten := h.unwritten
  drained none := by
    have none : exhausted = true := none
    have unwritten := h.unwritten
    by_cases before : v.exhausted = true
    · have short := h.drained before
      rw [fetched.ahead.left_eq, List.length_drop]
      omega
    · have unshut : (v.written || v.exhausted) = false := by simp [unwritten, before]
      have short := fetched.drained unshut none
      rwa [h.recoding] at short
  ahead := by
    have further := fetched.ahead
    rw [h.recoding] at further
    rw [Nat.add_mul]
    exact h.ahead.trans further

theorem Viewing.moved (h : Viewing outer r chunks v outer') (pos : Nat) :
    Viewing outer r chunks (v.moved pos) outer' :=
  ⟨h.recoding, h.fetched, h.shown, h.unwritten, h.drained, h.ahead⟩

private theorem Viewing.most (h : Viewing outer r chunks v outer') :
    chunks ≤ outer.left.length / r.outer :=
  (Nat.le_div_iff_mul_le r.outer_pos).mpr h.ahead.enough

/-- The chunks that can still be fetched are those beyond the ones that were. -/
private theorem Viewing.remaining (h : Viewing outer r chunks v outer') :
    (v.further outer'.left).length / r.outer = outer.left.length / r.outer - chunks := by
  have left : outer'.left.length / r.outer = outer.left.length / r.outer - chunks := by
    rw [h.ahead.left_eq, List.length_drop, Nat.mul_comm, Nat.sub_mul_div]
  by_cases none : v.exhausted = true
  · rw [Nat.div_eq_of_lt (h.drained none)] at left
    rw [View.further_of_shut (by simp [none]), ← left]
    exact Nat.zero_div _
  · rw [View.further_of_open (by simp [h.unwritten, none]), left]

private theorem Viewing.due_eq (h : Viewing outer r chunks v outer') :
    (chunks + v.due outer'.left none = outer.left.length / r.outer) ∧
      ∀ n, chunks + v.due outer'.left (some n) = max chunks (outer.reached r n) := by
  have most := h.most
  have remaining := h.remaining
  obtain rfl := h.recoding
  constructor
  · rw [View.due, remaining]
    omega
  · intro n
    have more := v.recoding.chunksFor_sub n chunks
    rw [Recoding.chunksFor] at more
    rw [View.due, remaining, h.held, more, reached]
    omega

theorem access_seek (s : Stream) (dest : SeekTo) :
    (s.access (.seek dest)).2 = (s.seek dest).2 := by
  rw [access]
  split <;> simp_all

/-- A read makes a view fetch what it reaches. -/
theorem Viewing.read (h : Viewing outer r chunks v outer') (limit : Option Nat) :
    ∃ chunks' v' outer'', ((view v outer').read limit).2 = view v' outer'' ∧
      Viewing outer r chunks' v' outer'' ∧
      (limit = none → chunks' = outer.left.length / r.outer) ∧
      ∀ count, limit = some count →
        chunks' = max chunks (outer.reached r (if count = 0 then 0 else v.pos + count)) := by
  obtain ⟨exhausted, outer'', read, fetched⟩ := read_eq outer'.honest v limit
  obtain ⟨all, upTo⟩ := h.due_eq
  rw [read]
  refine ⟨_, _, outer'', rfl, h.fetch fetched _, ?_, ?_⟩
  · rintro rfl
    exact all
  · rintro count rfl
    by_cases nothing : count = 0
    · simp [nothing, View.dueFor, reached_zero]
    · have some : ¬ Option.some count = Option.some 0 :=
        fun same => nothing (Option.some.inj same)
      rw [View.dueFor, if_neg some, if_neg nothing]
      exact upTo _

private theorem Viewing.sought (h : Viewing outer r chunks v outer') (dest : SeekTo) :
    ∃ v', ((view v outer').moved dest).2 = view v' outer' ∧ Viewing outer r chunks v' outer' := by
  rw [Stream.moved, v.seek_eq]
  by_cases before : v.target dest < 0
  · rw [if_pos before]
    exact ⟨v, rfl, h⟩
  · rw [if_neg before]
    exact ⟨_, rfl, h.moved _⟩

/-- One access makes a view fetch what the access reaches. -/
theorem Viewing.access (h : Viewing outer r chunks v outer') (a : Access) :
    ∃ v' outer'', ((view v outer').access a).2 = view v' outer'' ∧
      Viewing outer r
        (max chunks (outer.reached r (a.reach (outer.left.length / r.outer * r.inner) v.pos)))
        v' outer'' := by
  have full : max chunks (outer.left.length / r.outer) = outer.left.length / r.outer :=
    Nat.max_eq_right h.most
  cases a with
  | exactly count =>
      obtain ⟨chunks', v', outer'', read, viewing, -, fetched⟩ := h.read (some count)
      rw [fetched count rfl] at viewing
      exact ⟨v', outer'', read, viewing⟩
  | all =>
      obtain ⟨chunks', v', outer'', read, viewing, fetched, -⟩ := h.read none
      rw [fetched rfl] at viewing
      rw [Access.reach, reached_total, full]
      exact ⟨v', outer'', read, viewing⟩
  | seek dest =>
      rw [access_seek]
      cases dest with
      | start n =>
          obtain ⟨v', moved, viewing⟩ := h.sought (.start n)
          refine ⟨v', outer', moved, ?_⟩
          simpa [Access.reach, reached_zero] using viewing
      | current d =>
          obtain ⟨v', moved, viewing⟩ := h.sought (.current d)
          refine ⟨v', outer', moved, ?_⟩
          simpa [Access.reach, reached_zero] using viewing
      | fromEnd d =>
          obtain ⟨exhausted, outer'', fetch, fetched⟩ := fetch_eq outer'.honest v none
          have viewing := h.fetch fetched v.pos
          rw [h.due_eq.1] at viewing
          obtain ⟨v', moved, viewing⟩ := viewing.sought (.fromEnd d)
          have seek : (view v outer').seek (.fromEnd d) =
              (view v outer').fillAll.moved (.fromEnd d) := rfl
          rw [Access.reach, reached_total, full, seek, fillAll_view, fetch]
          exact ⟨v', outer'', moved, viewing⟩

/-- A script makes a view fetch what it reaches. -/
private theorem Viewing.accesses (h : Viewing outer r chunks v outer') (script : List Access) :
    ∃ v' outer'', ((view v outer').accesses script).2 = view v' outer'' ∧
      Viewing outer r
        (max chunks (outer.reached r
          ((view v outer').reach (outer.left.length / r.outer * r.inner) script))) v' outer'' := by
  induction script generalizing v outer' chunks with
  | nil =>
      rw [reach, reached_zero, Nat.max_zero]
      exact ⟨v, outer', rfl, h⟩
  | cons a rest ih =>
      obtain ⟨v', outer'', step, viewing⟩ := h.access a
      rw [reach, reached_max, ← Nat.max_assoc, step]
      simp only [Stream.accesses, step]
      exact ih viewing

/-- Finishing gives back the chunks that were fetched and not passed. -/
theorem Viewing.finish (h : Viewing outer r chunks v outer') :
    (v.pos % r.inner ≠ 0 →
      (view v outer').finish.1 = some (.misaligned (.consumed v.pos r.inner))) ∧
    (v.pos % r.inner = 0 → (view v outer').finish.1 = none ∧
      outer.Ahead (min (v.pos / r.inner) chunks * r.outer) (view v outer').finish.2) := by
  have unwritten := h.unwritten
  have ahead := h.ahead
  obtain rfl := h.recoding
  obtain rfl := h.fetched
  constructor
  · intro partly
    simp [Stream.finish, unwritten, partly]
  · intro aligned
    simp only [Stream.finish, unwritten, aligned, ne_eq, not_true_eq_false, if_false,
      Bool.false_eq_true, true_and]
    have unused := ahead.giveBack (Nat.mul_le_mul_right v.recoding.outer
      (Nat.sub_le v.fetched (v.pos / v.recoding.inner)))
    rw [← Nat.sub_mul] at unused
    have count : v.fetched - (v.fetched - v.pos / v.recoding.inner) =
        min (v.pos / v.recoding.inner) v.fetched := by
      generalize v.pos / v.recoding.inner = passed
      omega
    rwa [count] at unused

/-- A view that is left behind a script fails to finish if its position is inside of a chunk.
Otherwise the outer stream is behind the chunks that the position has passed, as far as the
script made the view fetch them: where the position is one that exists, these are all of them
just if the script has reached the last of them. -/
theorem finish_accesses (outer : Stream) (r : Recoding) (script : List Access) :
    let s := ((outer.viewed r).accesses script).2
    let chunks := outer.left.length / r.outer
    let reach := (outer.viewed r).reach (chunks * r.inner) script
    (s.pos % r.inner ≠ 0 → s.finish.1 = some (.misaligned (.consumed s.pos r.inner))) ∧
    (s.pos % r.inner = 0 → s.finish.1 = none ∧
      outer.Ahead (min (s.pos / r.inner) (outer.reached r reach) * r.outer) s.finish.2 ∧
      (s.pos ≤ chunks * r.inner →
        (s.finish.2.pos = outer.pos + s.pos / r.inner * r.outer ↔ s.pos < reach + r.inner))) := by
  intro s chunks reach
  obtain ⟨v, outer', same, viewing⟩ := (viewing_viewed outer r).accesses script
  rw [Nat.zero_max] at viewing
  have same : s = view v outer' := same
  rw [same]
  obtain ⟨fails, leaves⟩ := viewing.finish
  refine ⟨fails, fun aligned => ?_⟩
  obtain ⟨fine, ahead⟩ := leaves aligned
  refine ⟨fine, ahead, fun inside => ?_⟩
  have aligned : v.pos % r.inner = 0 := aligned
  have within : v.pos / r.inner ≤ chunks := Nat.div_le_of_le_mul (Nat.mul_comm _ _ ▸ inside)
  show _ = outer.pos + v.pos / r.inner * r.outer ↔ v.pos < reach + r.inner
  rw [ahead.pos_eq, Nat.add_left_cancel_iff, Nat.mul_left_inj r.outer_pos.ne',
    ← r.div_le_chunksFor aligned, min_eq_left_iff, reached, le_min_iff]
  exact ⟨And.right, fun needed => ⟨within, needed⟩⟩

/-- Twelve bits are read and four of them are given up again: the view has passed one byte. -/
theorem finish_accesses_bits :
    (((memory [0xaa, 0xbb]).viewed ⟨.bits, .msbFirst⟩).accesses
      [.exactly 12, .seek (.current (-4))]).2.finish.2.pos = 0 + 8 / 8 * 1 :=
  (((finish_accesses (memory [0xaa, 0xbb]) ⟨.bits, .msbFirst⟩
    [.exactly 12, .seek (.current (-4))]).2 (by decide)).2.2 (by decide)).mpr (by decide)

/-- A bit view that seeks over its first byte without reading it leaves the bytes where they
were. -/
theorem finish_seek_forward :
    let s := (((memory [0xaa, 0xbb, 0xcc]).viewed ⟨.bits, .msbFirst⟩).accesses
      [.seek (.start 8)]).2
    s.pos = 8 ∧ s.finish = (none, memory [0xaa, 0xbb, 0xcc]) ∧
      s.finish.2.pos ≠ (memory [0xaa, 0xbb, 0xcc]).pos + s.pos / 8 * 1 :=
  ⟨by decide, rfl, by decide⟩

end Stream

end BinaryFormat
