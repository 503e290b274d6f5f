import BinaryFormat.Proofs.Scripts

/-!
# Streams that readers cannot tell apart

Two streams may hold the same units and stand at the same position, and yet one
of them may have fetched more of what lies below it.  Whoever only reads and
moves cannot tell them apart, and neither can whoever reads through a view of
them.
-/

namespace BinaryFormat

/-- A relation between streams that readers cannot tell apart; it survives whatever they do. -/
structure Faithful (R : Stream → Stream → Prop) : Prop where
  pos : ∀ {s t}, R s t → s.pos = t.pos
  left : ∀ {s t}, R s t → s.left = t.left
  read : ∀ {s t}, R s t → ∀ limit, R (s.read limit).2 (t.read limit).2
  seek : ∀ {s t}, R s t → ∀ dest,
    (s.seek dest).1 = (t.seek dest).1 ∧ R (s.seek dest).2 (t.seek dest).2
  setPos : ∀ {s t}, R s t → ∀ pos, R (s.setPos pos) (t.setPos pos)
  size : ∀ {s t}, R s t → s.size.1 = t.size.1 ∧ R s.size.2 t.size.2
  giveBack : ∀ {s t}, R s t → ∀ count, R (s.giveBack count) (t.giveBack count)

theorem faithful_eq : Faithful Eq where
  pos same := congrArg Stream.pos same
  left same := congrArg Stream.left same
  read same limit := congrArg (fun s : Stream => (s.read limit).2) same
  seek same dest := ⟨congrArg (fun s : Stream => (s.seek dest).1) same,
    congrArg (fun s : Stream => (s.seek dest).2) same⟩
  setPos same pos := congrArg (fun s : Stream => s.setPos pos) same
  size same := ⟨congrArg (fun s : Stream => s.size.1) same,
    congrArg (fun s : Stream => s.size.2) same⟩
  giveBack same count := congrArg (fun s : Stream => s.giveBack count) same

private theorem Medium.eq_of_seek {m m' : Medium} {dest : SeekTo} (h : m.seek dest = .ok m') :
    m' = { m with pos := m'.pos } := by
  unfold Medium.seek at h
  dsimp only at h
  split at h <;> split at h <;> first
    | contradiction
    | cases h; rfl

namespace Faithful

variable {R : Stream → Stream → Prop} {s t : Stream}

theorem units (h : Faithful R) (related : R s t) (limit : Option Nat) :
    (s.read limit).1 = (t.read limit).1 := by
  rw [(s.honest limit).1, (t.honest limit).1, h.left related]

end Faithful

namespace Stream

/-! ## Views of related streams -/

/-- The same view, of related streams; nothing was written to it. -/
inductive Viewed (R : Stream → Stream → Prop) : Stream → Stream → Prop
  | intro (v : View) {s t : Stream} (unwritten : v.written = false) (related : R s t) :
      Viewed R (view v s) (view v t)

section

variable {R : Stream → Stream → Prop} {s t : Stream}

theorem viewed_viewed (related : R s t) (r : Recoding) : Viewed R (s.viewed r) (t.viewed r) :=
  .intro _ rfl related

/-- A view fetches the same from related streams. -/
private theorem fetch_twin (h : Faithful R) (related : R s t) {v : View}
    (unwritten : v.written = false)
    (upTo : Option Nat) :
    (fetch v s upTo).1 = (fetch v t upTo).1 ∧ (fetch v s upTo).1.written = false ∧
      R (fetch v s upTo).2 (fetch v t upTo).2 := by
  unfold fetch
  cases v.request upTo with
  | none => exact ⟨rfl, unwritten, related⟩
  | some asked =>
      have units := h.units related asked
      have later := h.read related asked
      dsimp only
      generalize s.read asked = read at units later
      generalize t.read asked = read' at units later
      obtain ⟨data, s'⟩ := read
      obtain ⟨data', t'⟩ := read'
      cases units
      exact ⟨rfl, unwritten, h.giveBack later _⟩

private theorem Viewed.fillAll (h : Faithful R) {v : View} (unwritten : v.written = false)
    (related : R s t) :
    ∃ v' s' t', (view v s).fillAll = view v' s' ∧ (view v t).fillAll = view v' t' ∧
      v'.written = false ∧ R s' t' := by
  obtain ⟨same, unwritten', related'⟩ := fetch_twin h related unwritten none
  refine ⟨(fetch v s none).1, _, _, fillAll_view v s, ?_, unwritten', related'⟩
  rw [same, fillAll_view]

private theorem Viewed.moved {v : View} (unwritten : v.written = false) (related : R s t)
    (dest : SeekTo) :
    ((view v s).moved dest).1 = ((view v t).moved dest).1 ∧
      Viewed R ((view v s).moved dest).2 ((view v t).moved dest).2 := by
  simp only [Stream.moved]
  cases found : v.seek dest with
  | error fault => exact ⟨rfl, .intro v unwritten related⟩
  | ok v' =>
      rw [View.seek_eq] at found
      split at found
      · cases found
      · cases found
        exact ⟨rfl, .intro _ unwritten related⟩

/-- Who cannot tell two streams apart cannot tell their views apart. -/
theorem faithful_viewed (h : Faithful R) : Faithful (Viewed R) where
  pos := by
    rintro _ _ ⟨v, -, -⟩
    rfl
  left := by
    rintro _ _ ⟨v, -, related⟩
    rw [left, left, h.left related]
  read := by
    rintro _ _ ⟨v, unwritten, related⟩ limit
    by_cases nothing : limit = some 0
    · subst nothing
      exact .intro v unwritten related
    -- Both views fetch the same from their streams and are then the same view.
    · obtain ⟨same, unwritten', related'⟩ :=
        fetch_twin h related unwritten (limit.map (v.pos + ·))
      rw [read_view v _ nothing, read_view v _ nothing]
      dsimp only
      rw [← same]
      exact .intro _ unwritten' related'
  seek := by
    rintro _ _ ⟨v, unwritten, related⟩ dest
    cases dest with
    | start n => exact Viewed.moved unwritten related (.start n)
    | current d => exact Viewed.moved unwritten related (.current d)
    | fromEnd d =>
        obtain ⟨v', s', t', first, second, unwritten', related'⟩ :=
          Viewed.fillAll h unwritten related
        rw [Stream.seek, Stream.seek, first, second]
        exact Viewed.moved unwritten' related' (.fromEnd d)
  setPos := by
    rintro _ _ ⟨v, unwritten, related⟩ pos
    exact .intro { v with pos := pos } unwritten related
  size := by
    rintro _ _ ⟨v, unwritten, related⟩
    obtain ⟨v', s', t', first, second, unwritten', related'⟩ :=
      Viewed.fillAll h unwritten related
    rw [size, size, first, second]
    exact ⟨rfl, .intro v' unwritten' related'⟩
  giveBack := by
    rintro _ _ ⟨v, unwritten, related⟩ count
    exact .intro { v with pos := v.pos - count } unwritten related

/-- Leaving views of related streams leads back to related streams. -/
theorem Viewed.finish (h : Faithful R) {s t : Stream} (viewed : Viewed R s t) :
    s.finish.1 = t.finish.1 ∧ R s.finish.2 t.finish.2 := by
  obtain ⟨v, unwritten, related⟩ := viewed
  simp only [Stream.finish, unwritten, Bool.false_eq_true, if_false]
  by_cases partly : v.pos % v.recoding.inner ≠ 0
  · rw [if_pos partly, if_pos partly]
    exact ⟨rfl, related⟩
  · rw [if_neg partly, if_neg partly]
    exact ⟨rfl, h.giveBack related _⟩

theorem Viewed.abandon {s t : Stream} (viewed : Viewed R s t) : R s.abandon t.abandon := by
  obtain ⟨v, -, related⟩ := viewed
  exact related

end

/-! ## The same units -/

def isView : Stream → Bool
  | medium _ => false
  | view _ _ => true

/-- A view, or a byte string itself, that amounts to a byte string. -/
structure Is (viewing : Bool) (m : Medium) (s : Stream) : Prop where
  plain : s.plain = m
  isView : s.isView = viewing

/-- Two streams of one kind over the same units, at the same position. -/
def Same (viewing : Bool) (units : Medium) (s t : Stream) : Prop :=
  ∃ pos, s.Is viewing { units with pos := pos } ∧ t.Is viewing { units with pos := pos }

variable {s t : Stream} {viewing : Bool} {m : Medium}

theorem Is.pos (h : s.Is viewing m) : s.pos = m.pos := by
  rw [← pos_plain, h.plain]

theorem Is.left (h : s.Is viewing m) : s.left = m.rest := by
  rw [← rest_plain, h.plain]

private theorem isView_read (s : Stream) (limit : Option Nat) :
    (s.read limit).2.isView = s.isView := by
  cases s with
  | medium m => rfl
  | view v outer =>
      obtain ⟨_, _, read, -⟩ := read_eq outer.honest v limit
      rw [read]
      rfl

private theorem Is.read (h : s.Is viewing m) (limit : Option Nat) :
    (s.read limit).2.Is viewing (m.read limit).2 where
  plain := by
    have both := congrArg Prod.snd (read_plain s limit)
    rw [h.plain] at both
    injection both with same
    exact same.symm
  isView := (isView_read s limit).trans h.isView

theorem Is.setPos (h : s.Is viewing m) (pos : Nat) :
    (s.setPos pos).Is viewing { m with pos := pos } := by
  obtain ⟨rfl, rfl⟩ := h
  cases s <;> exact ⟨rfl, rfl⟩

private theorem Is.giveBack (h : s.Is viewing m) (count : Nat) :
    (s.giveBack count).Is viewing { m with pos := m.pos - count } := by
  obtain ⟨rfl, rfl⟩ := h
  cases s <;> exact ⟨rfl, rfl⟩

private theorem Is.fillAll {v : View} {outer : Stream} (h : (view v outer).Is viewing m) :
    ∃ v' outer', (view v outer).fillAll = view v' outer' ∧ v'.units = m.data ∧
      (view v' outer').Is viewing m := by
  obtain ⟨v', outer', filled, held, whole, pos⟩ := filled_of_fromEnd v outer
  obtain ⟨rfl, rfl⟩ := h
  refine ⟨v', outer', filled, held.trans whole, ?_, rfl⟩
  simp only [Stream.plain, whole, pos]

theorem Is.size (h : s.Is viewing m) :
    s.size.1 = m.base + m.data.length ∧ s.size.2.Is viewing m := by
  cases s with
  | medium m' =>
      obtain ⟨rfl, rfl⟩ := h
      exact ⟨rfl, rfl, rfl⟩
  | view v outer =>
      obtain ⟨v', outer', filled, held, is⟩ := h.fillAll
      have growing : m.base = 0 := by
        rw [← h.plain]
        rfl
      simp only [Stream.size, filled]
      refine ⟨?_, is⟩
      rw [held, growing, Nat.zero_add]

theorem left_size (s : Stream) : s.size.2.left = s.left := by
  have is : s.Is s.isView s.plain := ⟨rfl, rfl⟩
  rw [is.size.2.left, is.left]

/-- What a seek comes to, and where it leads. -/
def seekOf (viewing : Bool) (m : Medium) (dest : SeekTo) : Except StreamFault Nat × Medium :=
  if viewing then
    if m.target dest < 0 then (.error .beforeView, m)
    else (.ok ((m.target dest).toNat % Nat.pow 2 64),
      { m with pos := (m.target dest).toNat % Nat.pow 2 64 })
  else
    match m.seek dest with
    | .ok m' => (.ok m'.pos, m')
    | .error fault => (.error fault, m)

private theorem moved_of_held {v : View} {outer : Stream} {dest : SeekTo}
    (h : (view v outer).Is viewing m)
    (held : ∀ d, dest = .fromEnd d → v.units = m.data) :
    ((view v outer).moved dest).1 = (seekOf viewing m dest).1 ∧
      ((view v outer).moved dest).2.Is viewing (seekOf viewing m dest).2 := by
  obtain ⟨rfl, rfl⟩ := h
  have target : v.target dest = (view v outer).plain.target dest := by
    cases dest with
    | start n => rfl
    | current d => rfl
    | fromEnd d => simp [View.target, held d rfl, Medium.target, Medium.base, Stream.plain]
  simp only [Stream.moved, View.seek_eq, target, seekOf, Stream.isView, if_true]
  split
  · rename_i _ found
    split at found
    · cases found
    · cases found
      rename_i inside
      rw [if_neg inside]
      exact ⟨rfl, rfl, rfl⟩
  · rename_i _ found
    split at found
    · cases found
      rename_i before
      rw [if_pos before]
      exact ⟨rfl, rfl, rfl⟩
    · cases found

theorem Is.seek (h : s.Is viewing m) (dest : SeekTo) :
    (s.seek dest).1 = (seekOf viewing m dest).1 ∧
      (s.seek dest).2.Is viewing (seekOf viewing m dest).2 := by
  cases s with
  | medium m' =>
      obtain ⟨rfl, rfl⟩ := h
      rw [seek_medium]
      simp only [Stream.moved, seekOf, Stream.isView, Stream.plain, Bool.false_eq_true, if_false]
      cases m'.seek dest <;> exact ⟨rfl, rfl, rfl⟩
  | view v outer =>
      cases dest with
      | start n =>
          have held : ∀ d, SeekTo.start n = .fromEnd d → v.units = m.data := by
            intro _ other
            cases other
          exact moved_of_held h held
      | current d =>
          have held : ∀ d', SeekTo.current d = .fromEnd d' → v.units = m.data := by
            intro _ other
            cases other
          exact moved_of_held h held
      | fromEnd d =>
          obtain ⟨v', outer', filled, held, is⟩ := h.fillAll
          have sought : (view v outer).seek (.fromEnd d) = (view v' outer').moved (.fromEnd d) := by
            rw [Stream.seek, filled]
            rfl
          rw [sought]
          exact moved_of_held is fun _ _ => held

private theorem seekOf_units (viewing : Bool) (units : Medium) (pos : Nat) (dest : SeekTo) :
    ∃ pos', (seekOf viewing { units with pos := pos } dest).2 = { units with pos := pos' } := by
  unfold seekOf
  cases viewing with
  | true =>
      simp only [if_true]
      split
      · exact ⟨pos, rfl⟩
      · exact ⟨_, rfl⟩
  | false =>
      simp only [Bool.false_eq_true, if_false]
      split
      · rename_i m' found
        have same := Medium.eq_of_seek found
        exact ⟨m'.pos, same⟩
      · exact ⟨pos, rfl⟩

theorem same_refl (s : Stream) : s.Same s.isView s.plain s := ⟨s.plain.pos, ⟨rfl, rfl⟩, rfl, rfl⟩

theorem faithful_same (viewing : Bool) (units : Medium) : Faithful (Same viewing units) where
  pos := by
    rintro s t ⟨pos, first, second⟩
    rw [first.pos, second.pos]
  left := by
    rintro s t ⟨pos, first, second⟩
    rw [first.left, second.left]
  read := by
    rintro s t ⟨pos, first, second⟩ limit
    exact ⟨_, first.read limit, second.read limit⟩
  seek := by
    rintro s t ⟨pos, first, second⟩ dest
    obtain ⟨answer, there⟩ := first.seek dest
    obtain ⟨answer', there'⟩ := second.seek dest
    obtain ⟨pos', reached⟩ := seekOf_units viewing units pos dest
    rw [reached] at there there'
    exact ⟨answer.trans answer'.symm, pos', there, there'⟩
  setPos := by
    rintro s t ⟨_, first, second⟩ pos
    exact ⟨pos, first.setPos pos, second.setPos pos⟩
  size := by
    rintro s t ⟨pos, first, second⟩
    obtain ⟨length, there⟩ := first.size
    obtain ⟨length', there'⟩ := second.size
    exact ⟨length.trans length'.symm, pos, there, there'⟩
  giveBack := by
    rintro s t ⟨pos, first, second⟩ count
    exact ⟨_, first.giveBack count, second.giveBack count⟩

end Stream

end BinaryFormat
