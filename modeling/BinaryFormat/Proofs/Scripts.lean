import BinaryFormat.Proofs.Views

/-!
# Views under reads and seeks

A view that nothing was written to shows the units that it holds and behind them those that
its outer stream still has to give, chunk by chunk.  Which of them were fetched is its own
affair: reads and seeks have the answers of a byte string that consists of these units, at
the position of the view.
-/

namespace BinaryFormat

/-! ## Whole chunks -/

namespace Recoding

variable (r : Recoding)

theorem decode_append (chunks : Nat) {first : List UInt8}
    (whole : first.length = chunks * r.outer) (second : List UInt8) :
    r.decode (first ++ second) = r.decode first ++ r.decode second := by
  obtain ⟨granularity, order⟩ := r
  cases granularity with
  | bits => exact Bits.expand_append order first second
  | bytes => exact Bits.pack_append order chunks whole second

theorem length_encode (chunks : Nat) {units : List UInt8}
    (whole : units.length = chunks * r.inner) :
    (r.encode units).length = chunks * r.outer := by
  obtain ⟨granularity, order⟩ := r
  cases granularity with
  | bits => exact (Bits.length_pack order chunks whole).trans (Nat.mul_one chunks).symm
  | bytes =>
      have all : units.length = chunks := whole.trans (Nat.mul_one chunks)
      simp only [encode, outer, Bits.length_expand, all]
      exact Nat.mul_comm 8 chunks

theorem length_decode (chunks : Nat) {units : List UInt8}
    (whole : units.length = chunks * r.outer) :
    (r.decode units).length = chunks * r.inner := by
  obtain ⟨granularity, order⟩ := r
  cases granularity with
  | bits =>
      have all : units.length = chunks := whole.trans (Nat.mul_one chunks)
      simp only [decode, inner, Bits.length_expand, all]
      exact Nat.mul_comm 8 chunks
  | bytes => exact (Bits.length_pack order chunks whole).trans (Nat.mul_one chunks).symm

theorem decode_nil : r.decode [] = [] := by
  obtain ⟨granularity, order⟩ := r
  cases granularity <;> rfl

/-- The units of a view, from units of its outer stream; an incomplete last chunk is dropped. -/
def contents (units : List UInt8) : List UInt8 :=
  r.decode (units.take (units.length / r.outer * r.outer))

variable {r} {units : List UInt8}

theorem length_contents : (r.contents units).length = units.length / r.outer * r.inner := by
  refine r.length_decode _ ?_
  rw [List.length_take, Nat.min_eq_left (Nat.div_mul_le_self _ _)]

theorem contents_of_short (short : units.length < r.outer) : r.contents units = [] := by
  rw [contents, Nat.div_eq_of_lt short, Nat.zero_mul, List.take_zero, decode_nil]

theorem contents_eq {chunks : Nat} (enough : chunks * r.outer ≤ units.length) :
    r.contents units =
      r.decode (units.take (chunks * r.outer)) ++ r.contents (units.drop (chunks * r.outer)) := by
  have first : (units.take (chunks * r.outer)).length = chunks * r.outer := by
    rw [List.length_take, Nat.min_eq_left enough]
  have others : units.length / r.outer * r.outer =
      chunks * r.outer + (units.drop (chunks * r.outer)).length / r.outer * r.outer := by
    have most : chunks ≤ units.length / r.outer :=
      (Nat.le_div_iff_mul_le r.outer_pos).mpr enough
    rw [List.length_drop, Nat.mul_comm chunks, Nat.sub_mul_div,
      Nat.sub_mul, Nat.mul_comm r.outer, Nat.add_sub_cancel' (Nat.mul_le_mul_right _ most)]
  rw [contents, contents, others, List.take_add, r.decode_append chunks first]

private theorem min_mul_div (r : Recoding) (chunks length : Nat) :
    min (chunks * r.outer) length / r.outer = min (length / r.outer) chunks := by
  rcases Nat.le_total (chunks * r.outer) length with enough | short
  · have most := (Nat.le_div_iff_mul_le r.outer_pos).mpr enough
    rw [Nat.min_eq_left enough, Nat.mul_div_cancel _ r.outer_pos, Nat.min_eq_right most]
  · have fewer := Nat.div_le_of_le_mul (Nat.mul_comm _ _ ▸ short)
    rw [Nat.min_eq_right short, Nat.min_eq_left fewer]

theorem le_chunks (r : Recoding) (n : Nat) : n ≤ (n + r.inner - 1) / r.inner * r.inner := by
  have split := Nat.div_add_mod (n + r.inner - 1) r.inner
  have small := Nat.mod_lt (n + r.inner - 1) r.inner_pos
  rw [Nat.mul_comm]
  omega

end Recoding

/-! ## What is left of a stream -/

namespace View

/-- What a view can still fetch of what is left of its outer stream. -/
def further (v : View) (left : List UInt8) : List UInt8 :=
  if v.written || v.exhausted then [] else left

/-- All units of a view, given what is left of its outer stream. -/
def whole (v : View) (left : List UInt8) : List UInt8 :=
  v.units ++ v.recoding.contents (v.further left)

/-- How many chunks are fetched for the view to hold so many units, or all. -/
def due (v : View) (left : List UInt8) : Option Nat → Nat
  | none => (v.further left).length / v.recoding.outer
  | some n => min ((v.further left).length / v.recoding.outer)
      ((n - v.units.length + v.recoding.inner - 1) / v.recoding.inner)

/-- How many chunks are fetched for a read of so many units, or all. -/
def dueFor (v : View) (left : List UInt8) (limit : Option Nat) : Nat :=
  if limit = some 0 then 0 else v.due left (limit.map (v.pos + ·))

/-- A view after so many chunks were fetched. -/
def extended (v : View) (left : List UInt8) (chunks : Nat) (exhausted : Bool) : View :=
  { v with
    units := v.units ++ v.recoding.decode ((v.further left).take (chunks * v.recoding.outer))
    fetched := v.fetched + chunks
    exhausted := exhausted }

/-- A view at another position. -/
def moved (v : View) (pos : Nat) : View := { v with pos := pos }

variable {v : View} {left : List UInt8} {chunks n : Nat} {exhausted : Bool}

theorem whole_moved (pos : Nat) : (v.moved pos).whole left = v.whole left := rfl

theorem further_of_shut (shut : (v.written || v.exhausted) = true) : v.further left = [] :=
  if_pos shut

theorem further_of_open (unshut : (v.written || v.exhausted) = false) : v.further left = left :=
  if_neg (by simp [unshut])

theorem length_further_le (v : View) (left : List UInt8) :
    (v.further left).length ≤ left.length := by
  unfold further
  split
  · exact Nat.zero_le _
  · exact Nat.le_refl _

private theorem due_le (upTo : Option Nat) :
    v.due left upTo * v.recoding.outer ≤ (v.further left).length := by
  refine (Nat.le_div_iff_mul_le v.recoding.outer_pos).mp ?_
  cases upTo with
  | none => exact Nat.le_refl _
  | some n => exact Nat.min_le_left _ _

private theorem dueFor_le (limit : Option Nat) :
    v.dueFor left limit * v.recoding.outer ≤ (v.further left).length := by
  by_cases none : limit = some 0
  · simp [dueFor, none]
  · rw [dueFor, if_neg none]
    exact due_le _

private theorem due_of_held (held : n ≤ v.units.length) : v.due left (some n) = 0 := by
  have positive := v.recoding.inner_pos
  have none : (n - v.units.length + v.recoding.inner - 1) / v.recoding.inner = 0 :=
    Nat.div_eq_of_lt (by omega)
  rw [due, none, Nat.min_zero]

private theorem due_of_shut (shut : (v.written || v.exhausted) = true) (upTo : Option Nat) :
    v.due left upTo = 0 := by
  cases upTo <;> simp [due, further_of_shut shut]

private theorem extended_zero : v.extended left 0 v.exhausted = v := by
  simp [extended, Recoding.decode_nil]

theorem length_extended (enough : chunks * v.recoding.outer ≤ (v.further left).length) :
    (v.extended left chunks exhausted).units.length =
      v.units.length + chunks * v.recoding.inner := by
  have taken : ((v.further left).take (chunks * v.recoding.outer)).length =
      chunks * v.recoding.outer := by
    rw [List.length_take, Nat.min_eq_left enough]
  rw [extended, List.length_append, v.recoding.length_decode chunks taken]

private theorem whole_eq (enough : chunks * v.recoding.outer ≤ (v.further left).length) :
    v.whole left = (v.extended left chunks exhausted).units ++
      v.recoding.contents ((v.further left).drop (chunks * v.recoding.outer)) := by
  simp only [whole, extended, List.append_assoc]
  rw [Recoding.contents_eq enough]

private theorem upTo_extended (upTo : Option Nat) :
    Medium.upTo upTo (v.extended left (v.due left upTo) exhausted).units =
      Medium.upTo upTo (v.whole left) := by
  rw [whole_eq (v.due_le upTo)]
  -- Either nothing is left behind the chunks that were fetched, or they are enough.
  by_cases all : v.due left upTo = (v.further left).length / v.recoding.outer
  · have short : ((v.further left).drop (v.due left upTo * v.recoding.outer)).length <
        v.recoding.outer := by
      rw [List.length_drop, all, Nat.mul_comm, ← Nat.mod_eq_sub]
      exact Nat.mod_lt _ v.recoding.outer_pos
    rw [Recoding.contents_of_short short, List.append_nil]
  · cases upTo with
    | none => exact absurd rfl all
    | some n =>
        have wanted : v.due left (some n) =
            (n - v.units.length + v.recoding.inner - 1) / v.recoding.inner := by
          rw [due] at all ⊢
          omega
        have enough : n ≤ (v.extended left (v.due left (some n)) exhausted).units.length := by
          rw [length_extended (v.due_le _), wanted]
          have covered := v.recoding.le_chunks (n - v.units.length)
          omega
        exact (List.take_append_of_le_length enough).symm

end View

namespace Medium

private theorem rest_skip_of_enough (m : Medium) {n : Nat} (enough : n ≤ m.rest.length) :
    (m.skip n).rest = m.rest.drop n := by
  have next := rest_skip (List.take_append_drop n m.rest).symm
  rwa [List.length_take, Nat.min_eq_left enough] at next

theorem length_upTo_le (limit : Option Nat) (units : List UInt8) :
    (upTo limit units).length ≤ units.length := by
  cases limit with
  | none => exact Nat.le_refl _
  | some n => exact List.length_take_le' n units

private theorem upTo_drop {a b : List UInt8} (pos : Nat) (limit : Option Nat)
    (same : upTo (limit.map (pos + ·)) a = upTo (limit.map (pos + ·)) b) :
    upTo limit (a.drop pos) = upTo limit (b.drop pos) := by
  cases limit with
  | none => exact congrArg (List.drop pos) same
  | some n =>
      simp only [Option.map_some, upTo] at same ⊢
      rw [List.take_drop, List.take_drop, same]

private theorem upTo_eq_take (limit : Option Nat) (units : List UInt8) :
    upTo limit units = units.take (upTo limit units).length := by
  cases limit with
  | none => exact List.take_length.symm
  | some n =>
      rw [upTo, List.length_take]
      exact List.take_eq_take_min

end Medium

namespace Stream

/-- The units that can still be read. -/
def left : Stream → List UInt8
  | medium m => m.rest
  | view v outer => (v.whole outer.left).drop v.pos

/-- The byte string that a stream amounts to. -/
def plain : Stream → Medium
  | medium m => m
  | view v outer => ⟨.growing, v.whole outer.left, v.pos⟩

theorem rest_plain (s : Stream) : s.plain.rest = s.left := by
  cases s with
  | medium m => rfl
  | view v outer => simp [plain, left, Medium.rest, Medium.base]

theorem pos_plain (s : Stream) : s.plain.pos = s.pos := by
  cases s <;> rfl

/-- A stream some more units of which were read. -/
structure Ahead (s : Stream) (n : Nat) (s' : Stream) : Prop where
  enough : n ≤ s.left.length
  plain : s'.plain = s.plain.skip n

variable {s s' t : Stream} {n k back : Nat}

theorem Ahead.refl (s : Stream) : s.Ahead 0 s := ⟨Nat.zero_le _, rfl⟩

theorem Ahead.left_eq (h : s.Ahead n s') : s'.left = s.left.drop n := by
  have enough := h.enough
  rw [← rest_plain] at enough
  rw [← rest_plain, h.plain, s.plain.rest_skip_of_enough enough, rest_plain]

theorem Ahead.pos_eq (h : s.Ahead n s') : s'.pos = s.pos + n := by
  rw [← pos_plain, h.plain, Medium.skip_pos, pos_plain]

theorem Ahead.trans (h : s.Ahead n s') (h' : s'.Ahead k t) : s.Ahead (n + k) t where
  enough := by
    have enough := h'.enough
    rw [h.left_eq, List.length_drop] at enough
    have := h.enough
    omega
  plain := by rw [h'.plain, h.plain, Medium.skip_skip]

private theorem plain_giveBack (s : Stream) (count : Nat) :
    (s.giveBack count).plain = { s.plain with pos := s.plain.pos - count } := by
  cases s <;> rfl

theorem Ahead.giveBack (h : s.Ahead n s') (within : back ≤ n) :
    s.Ahead (n - back) (s'.giveBack back) where
  enough := (Nat.sub_le n back).trans h.enough
  plain := by
    rw [plain_giveBack, h.plain]
    simp only [Medium.skip]
    congr 1
    omega

/-! ## Fetching -/

/-- A view and its outer stream once the view holds so many units, or all. -/
def fetch (v : View) (outer : Stream) (upTo : Option Nat) : View × Stream :=
  match v.request upTo with
  | none => (v, outer)
  | some asked =>
    let (units, outer) := outer.read asked
    let (v, back) := v.receive asked units
    (v, outer.giveBack back)

theorem read_view (v : View) (outer : Stream) {limit : Option Nat} (some : limit ≠ some 0) :
    (view v outer).read limit =
      let (v, outer) := fetch v outer (limit.map (v.pos + ·))
      let (data, v) := v.take limit
      (data, view v outer) := by
  simp only [read, if_neg some, fetch]
  cases v.request (limit.map (v.pos + ·)) <;> rfl

theorem fillAll_view (v : View) (outer : Stream) :
    (view v outer).fillAll = view (fetch v outer none).1 (fetch v outer none).2 := by
  simp only [fillAll, fetch]
  cases v.request none <;> rfl

/-- A stream whose reads yield what is left of it. -/
def Honest (s : Stream) : Prop :=
  ∀ limit, (s.read limit).1 = Medium.upTo limit s.left ∧
    s.Ahead (s.read limit).1.length (s.read limit).2

end Stream

namespace View

variable {v : View} {left : List UInt8} {upTo asked : Option Nat}

private theorem due_of_quiet (quiet : v.request upTo = none) : v.due left upTo = 0 := by
  by_cases shut : (v.written || v.exhausted) = true
  · exact due_of_shut shut upTo
  · cases upTo with
    | none => simp [request, shut] at quiet
    | some n =>
        by_cases held : n ≤ v.units.length
        · exact due_of_held held
        · simp [request, shut, held] at quiet

private theorem open_of_request (asking : v.request upTo = some asked) :
    (v.written || v.exhausted) = false := by
  unfold request at asking
  split at asking
  · cases asking
  · exact Bool.eq_false_iff.mpr ‹_›

private theorem length_div_of_request (asking : v.request upTo = some asked) :
    (Medium.upTo asked left).length / v.recoding.outer = v.due left upTo := by
  have all : v.further left = left := further_of_open (open_of_request asking)
  unfold request at asking
  split at asking
  · cases asking
  · cases upTo with
    | none =>
        cases asking
        rw [due, all]
        rfl
    | some n =>
        dsimp only at asking
        split at asking
        · cases asking
        · cases asking
          simp only [Medium.upTo, List.length_take, due, all]
          exact v.recoding.min_mul_div _ _

private theorem length_of_unmet {asked : Option Nat}
    (unmet : asked.all ((Medium.upTo asked left).length < ·) = true) :
    (Medium.upTo asked left).length = left.length := by
  cases asked with
  | none => rfl
  | some n =>
      simp only [Medium.upTo, Option.all_some, decide_eq_true_eq, List.length_take] at unmet ⊢
      omega

private theorem receive_eq (unshut : (v.written || v.exhausted) = false) (asked : Option Nat)
    (left : List UInt8) :
    v.receive asked (Medium.upTo asked left) =
      (v.extended left ((Medium.upTo asked left).length / v.recoding.outer)
          (asked.all ((Medium.upTo asked left).length < ·)),
        (Medium.upTo asked left).length -
          (Medium.upTo asked left).length / v.recoding.outer * v.recoding.outer) := by
  have within := Nat.div_mul_le_self (Medium.upTo asked left).length v.recoding.outer
  have whole : (Medium.upTo asked left).take
      ((Medium.upTo asked left).length / v.recoding.outer * v.recoding.outer) =
        left.take ((Medium.upTo asked left).length / v.recoding.outer * v.recoding.outer) := by
    rw [Medium.upTo_eq_take asked left, List.take_take, ← Medium.upTo_eq_take asked left,
      Nat.min_eq_left within]
  have count := List.length_take
    (i := (Medium.upTo asked left).length / v.recoding.outer * v.recoding.outer)
    (l := Medium.upTo asked left)
  rw [Nat.min_eq_left within] at count
  rw [whole] at count
  simp only [receive, extended, further_of_open unshut, whole, count]

end View

namespace Stream

/-- A view and its outer stream, after so many more chunks were fetched. -/
structure Fetched (v : View) (outer : Stream) (chunks : Nat) (exhausted : Bool)
    (outer' : Stream) : Prop where
  enough : chunks * v.recoding.outer ≤ (v.further outer.left).length
  ahead : outer.Ahead (chunks * v.recoding.outer) outer'
  shut : (v.written || v.exhausted) = true → exhausted = v.exhausted
  drained : (v.written || v.exhausted) = false → exhausted = true →
    outer'.left.length < v.recoding.outer

variable {v : View} {outer outer' : Stream} {chunks : Nat} {exhausted : Bool}

private theorem Fetched.whole (h : Fetched v outer chunks exhausted outer') :
    (v.extended outer.left chunks exhausted).whole outer'.left = v.whole outer.left := by
  rw [View.whole_eq h.enough, View.whole]
  congr 1
  show v.recoding.contents _ = _
  by_cases shut : (v.written || v.exhausted) = true
  · have still : ((v.extended outer.left chunks exhausted).written ||
        (v.extended outer.left chunks exhausted).exhausted) = true := by
      rw [h.shut shut]
      exact shut
    rw [View.further_of_shut still, View.further_of_shut shut, List.drop_nil]
  · have unshut := Bool.eq_false_iff.mpr shut
    rw [View.further_of_open unshut, ← h.ahead.left_eq]
    cases exhausted with
    | true =>
        have nothing : v.recoding.contents [] = [] :=
          Recoding.contents_of_short v.recoding.outer_pos
        rw [View.further_of_shut (by simp [View.extended]), nothing,
          Recoding.contents_of_short (h.drained unshut rfl)]
    | false =>
        have unwritten : v.written = false := (Bool.or_eq_false_iff.mp unshut).1
        rw [View.further_of_open (by simp [View.extended, unwritten])]

/-- Fetching takes as many chunks as are due, and whatever of a further one was read goes
back. -/
theorem fetch_eq (honest : outer.Honest) (v : View) (upTo : Option Nat) :
    ∃ exhausted outer', fetch v outer upTo =
        (v.extended outer.left (v.due outer.left upTo) exhausted, outer') ∧
      Fetched v outer (v.due outer.left upTo) exhausted outer' := by
  cases requested : v.request upTo with
  | none =>
      have zero : v.due outer.left upTo = 0 := View.due_of_quiet requested
      refine ⟨v.exhausted, outer, ?_, View.due_le _, ?_, fun _ => rfl, fun unshut none => ?_⟩
      · simp only [fetch, requested, zero, View.extended_zero]
      · rw [zero, Nat.zero_mul]
        exact Ahead.refl outer
      · rw [none, Bool.or_true] at unshut
        cases unshut
  | some asked =>
      obtain ⟨units, ahead⟩ := honest asked
      have unshut := View.open_of_request requested
      have within := Nat.div_mul_le_self (Medium.upTo asked outer.left).length v.recoding.outer
      have enough : v.due outer.left upTo * v.recoding.outer ≤ (v.further outer.left).length :=
        View.due_le upTo
      rw [units] at ahead
      have kept := ahead.giveBack (Nat.sub_le _ (v.due outer.left upTo * v.recoding.outer))
      rw [← View.length_div_of_request requested] at kept enough ⊢
      rw [Nat.sub_sub_self within] at kept
      refine ⟨asked.all ((Medium.upTo asked outer.left).length < ·), _, ?_, enough, kept,
        fun shut => absurd shut (by simp [unshut]), fun _ unmet => ?_⟩
      · simp only [fetch, requested, units, View.receive_eq unshut]
      · rw [kept.left_eq, List.length_drop, View.length_of_unmet unmet, Nat.mul_comm,
          ← Nat.mod_eq_sub]
        exact Nat.mod_lt _ v.recoding.outer_pos

/-- What reading from a view yields, and how it leaves the view. -/
theorem read_eq (honest : outer.Honest) (v : View) (limit : Option Nat) :
    ∃ exhausted outer', (view v outer).read limit =
        (Medium.upTo limit (view v outer).left,
          view ((v.extended outer.left (v.dueFor outer.left limit) exhausted).moved
            (v.pos + (Medium.upTo limit (view v outer).left).length)) outer') ∧
      Fetched v outer (v.dueFor outer.left limit) exhausted outer' := by
  by_cases nothing : limit = some 0
  · have zero : v.dueFor outer.left limit = 0 := if_pos nothing
    refine ⟨v.exhausted, outer, ?_, View.dueFor_le limit, ?_, fun _ => rfl, fun unshut none => ?_⟩
    · rw [zero, View.extended_zero, nothing]
      rfl
    · rw [zero, Nat.zero_mul]
      exact Ahead.refl outer
    · rw [none, Bool.or_true] at unshut
      cases unshut
  · obtain ⟨exhausted, outer', fetched, grown⟩ := fetch_eq honest v (limit.map (v.pos + ·))
    have due : v.dueFor outer.left limit = v.due outer.left (limit.map (v.pos + ·)) :=
      if_neg nothing
    rw [due]
    refine ⟨exhausted, outer', ?_, grown⟩
    have shown : Medium.upTo limit ((v.extended outer.left
        (v.due outer.left (limit.map (v.pos + ·))) exhausted).units.drop v.pos) =
          Medium.upTo limit (view v outer).left :=
      Medium.upTo_drop v.pos limit (View.upTo_extended _)
    rw [read_view v outer nothing, fetched, ← shown]
    rfl

theorem honest (s : Stream) : s.Honest := by
  induction s with
  | medium m =>
      intro limit
      exact ⟨rfl, Medium.length_upTo_le limit m.rest, rfl⟩
  | view v outer ih =>
      intro limit
      obtain ⟨exhausted, outer', read, fetched⟩ := read_eq ih v limit
      rw [read]
      refine ⟨rfl, Medium.length_upTo_le _ _, ?_⟩
      simp only [plain, Medium.skip, View.whole_moved, fetched.whole]
      rfl

end Stream

/-! ## Scripts -/

/-- What can be done to a stream without writing. -/
inductive Access where
  /-- Reads exactly so many units. -/
  | exactly (count : Nat)
  /-- Reads up to the end. -/
  | all
  | seek (dest : SeekTo)
  deriving DecidableEq, Repr

inductive Answer where
  | units (data : List UInt8)
  /-- Fewer units were found than asked for. -/
  | short (found : Nat)
  | position (pos : Nat)
  /-- A seek that leads nowhere. -/
  | refused
  deriving DecidableEq, Repr

namespace Stream

def access (s : Stream) : Access → Answer × Stream
  | .exactly count =>
    let (data, s) := s.read (some count)
    (if data.length = count then .units data else .short data.length, s)
  | .all =>
    let (data, s) := s.read none
    (.units data, s)
  | .seek dest =>
    match s.seek dest with
    | (.ok pos, s) => (.position pos, s)
    | (.error _, s) => (.refused, s)

/-- The answers to a script, and the stream behind it. -/
def accesses (s : Stream) : List Access → List Answer × Stream
  | [] => ([], s)
  | a :: rest =>
    let (answer, s) := s.access a
    let (answers, s) := s.accesses rest
    (answer :: answers, s)

end Stream

/-- Positions have 64 bits: no seek leads beyond them. -/
def Access.Addressed (m : Medium) : Access → Prop
  | .seek dest => m.target dest < Nat.pow 2 64
  | _ => True

instance (m : Medium) (a : Access) : Decidable (a.Addressed m) :=
  match a with
  | .seek dest => inferInstanceAs (Decidable (m.target dest < Nat.pow 2 64))
  | .exactly _ | .all => inferInstanceAs (Decidable True)

def Stream.Addressed (s : Stream) : List Access → Prop
  | [] => True
  | a :: rest => a.Addressed s.plain ∧ (s.access a).2.Addressed rest

def Stream.decidableAddressed (s : Stream) :
    (script : List Access) → Decidable (s.Addressed script)
  | [] => inferInstanceAs (Decidable True)
  | a :: rest =>
    have := (s.access a).2.decidableAddressed rest
    inferInstanceAs (Decidable (a.Addressed s.plain ∧ (s.access a).2.Addressed rest))

instance (s : Stream) (script : List Access) : Decidable (s.Addressed script) :=
  s.decidableAddressed script

namespace View

/-- The position that a seek leads to, among the units that the view holds. -/
def target (v : View) : SeekTo → Int
  | .start n => n
  | .current d => v.pos + d
  | .fromEnd d => v.units.length + d

theorem seek_eq (v : View) (dest : SeekTo) :
    v.seek dest = if v.target dest < 0 then .error .beforeView
      else .ok (v.moved ((v.target dest).toNat % Nat.pow 2 64)) := by
  cases dest <;> rfl

/-- A seek in a view leads where it leads in the byte string, or it is refused by both. -/
private theorem seek_cases (v : View) {left : List UInt8} {dest : SeekTo}
    (held : ∀ d, dest = .fromEnd d → v.units = v.whole left)
    (fits : (Access.seek dest).Addressed ⟨.growing, v.whole left, v.pos⟩) :
    (∃ pos, v.seek dest = .ok (v.moved pos) ∧
      Medium.seek ⟨.growing, v.whole left, v.pos⟩ dest = .ok ⟨.growing, v.whole left, pos⟩) ∨
    (∃ fault fault', v.seek dest = .error fault ∧
      Medium.seek ⟨.growing, v.whole left, v.pos⟩ dest = .error fault') := by
  have same : v.target dest = Medium.target ⟨.growing, v.whole left, v.pos⟩ dest := by
    cases dest with
    | start n => rfl
    | current d => rfl
    | fromEnd d => simp [target, held d rfl, Medium.target, Medium.base]
  simp only [Access.Addressed] at fits
  simp only [seek_eq, same, Medium.seek]
  generalize Medium.target ⟨.growing, v.whole left, v.pos⟩ dest = t at fits ⊢
  generalize Nat.pow 2 64 = limit at fits ⊢
  by_cases before : t < 0
  · right
    refine ⟨.beforeView, .outside, if_pos before, if_neg ?_⟩
    omega
  · left
    have small : t.toNat % limit = t.toNat := Nat.mod_eq_of_lt (by omega)
    refine ⟨t.toNat, ?_, if_pos ⟨by omega, fits⟩⟩
    rw [if_neg before, small]

end View

namespace Stream

variable {s : Stream}

/-- Reading goes the same way in a stream and in the byte string that it amounts to. -/
theorem read_plain (s : Stream) (limit : Option Nat) :
    (medium s.plain).read limit = ((s.read limit).1, medium (s.read limit).2.plain) := by
  obtain ⟨data, ahead⟩ := s.honest limit
  rw [ahead.plain, data, Stream.read, Medium.read, rest_plain]
  rfl

theorem filled_of_fromEnd (v : View) (outer : Stream) :
    ∃ v' outer', (view v outer).fillAll = view v' outer' ∧ v'.units = v'.whole outer'.left ∧
      v'.whole outer'.left = v.whole outer.left ∧ v'.pos = v.pos := by
  obtain ⟨exhausted, outer', fetch, fetched⟩ := fetch_eq outer.honest v none
  refine ⟨_, outer', ?_, ?_, fetched.whole, rfl⟩
  · rw [fillAll_view, fetch]
  · rw [fetched.whole]
    exact View.upTo_extended none

/-- What a seek has to say about a stream and the byte string that it amounts to. -/
inductive SeekAlike : Except StreamFault Nat × Stream → Except StreamFault Nat × Stream → Prop
  | found {t : Stream} (pos : Nat) : SeekAlike (.ok pos, t) (.ok pos, medium t.plain)
  | refused {t : Stream} (fault fault' : StreamFault) :
      SeekAlike (.error fault, t) (.error fault', medium t.plain)

theorem seek_medium (m : Medium) (dest : SeekTo) :
    (medium m).seek dest = (medium m).moved dest := by
  cases dest <;> rfl

private theorem moved_held {v : View} {outer : Stream} {dest : SeekTo}
    (held : ∀ d, dest = .fromEnd d → v.units = v.whole outer.left)
    (fits : (Access.seek dest).Addressed (view v outer).plain) :
    SeekAlike ((view v outer).moved dest) ((medium (view v outer).plain).moved dest) := by
  rcases v.seek_cases held fits with ⟨pos, here, there⟩ | ⟨fault, fault', here, there⟩
  · simp only [moved, plain, here, there]
    exact .found (t := view (v.moved pos) outer) pos
  · simp only [moved, plain, here, there]
    exact .refused (t := view v outer) fault fault'

private theorem seek_plain {dest : SeekTo} (fits : (Access.seek dest).Addressed s.plain) :
    SeekAlike (s.seek dest) ((medium s.plain).seek dest) := by
  rw [seek_medium]
  cases s with
  | medium m =>
      rw [seek_medium, plain, moved]
      cases m.seek dest with
      | ok m' => exact .found (t := medium m') m'.pos
      | error fault => exact .refused (t := medium m) fault fault
  | view v outer =>
      cases dest with
      | start n => exact moved_held (fun _ other => by cases other) fits
      | current d => exact moved_held (fun _ other => by cases other) fits
      | fromEnd d =>
          obtain ⟨v', outer', filled, held, whole, pos⟩ := filled_of_fromEnd v outer
          have same : (view v outer).plain = (view v' outer').plain := by
            simp only [plain, whole, pos]
          have seek : (view v outer).seek (.fromEnd d) = (view v' outer').moved (.fromEnd d) := by
            rw [Stream.seek, filled]
            rfl
          rw [same] at fits ⊢
          rw [seek]
          exact moved_held (fun _ _ => held) fits

/-- Every access has the answer of the byte string that the stream amounts to. -/
theorem access_plain {a : Access} (fits : a.Addressed s.plain) :
    (medium s.plain).access a = ((s.access a).1, medium (s.access a).2.plain) := by
  cases a with
  | exactly count => simp only [access, read_plain]
  | all => simp only [access, read_plain]
  | seek dest =>
      have alike := seek_plain fits
      simp only [access]
      generalize s.seek dest = here at alike
      generalize (medium s.plain).seek dest = there at alike
      cases alike with
      | found pos => rfl
      | refused fault fault' => rfl

/-- A script has the answers of the byte string that the stream amounts to. -/
private theorem accesses_plain {script : List Access} (fits : (medium s.plain).Addressed script) :
    (medium s.plain).accesses script =
      ((s.accesses script).1, medium (s.accesses script).2.plain) := by
  induction script generalizing s with
  | nil => rfl
  | cons a rest ih =>
      obtain ⟨first, others⟩ := fits
      have step := access_plain (s := s) first
      rw [step] at others
      simp only [accesses, step, ih others]

private theorem access_negative {dest : SeekTo} (ahead : s.plain.target dest < 0)
    (growing : s.plain.backing = .growing) :
    (s.access (.seek dest)).1 = .refused ∧ (s.access (.seek dest)).2.pos = s.pos := by
  have limit : (0 : Int) ≤ Nat.pow 2 64 := by positivity
  have step := access_plain (a := .seek dest) (ahead.trans_le limit)
  have refused : s.plain.seek dest = .error .outside := by
    rw [Medium.seek, growing]
    exact if_neg fun within => absurd within.1 (Int.not_le.mpr ahead)
  have plainly : (medium s.plain).access (.seek dest) = (.refused, medium s.plain) := by
    simp only [access, seek_medium, moved, refused]
  rw [plainly, Prod.mk.injEq, medium.injEq] at step
  obtain ⟨answer, same⟩ := step
  exact ⟨answer.symm, by rw [← pos_plain, ← same, pos_plain]⟩

/-! ## Stacks of views -/

private theorem left_viewed (s : Stream) (r : Recoding) :
    (s.viewed r).left = r.contents s.left := by
  simp [viewed, left, View.whole, View.further]

theorem plain_viewed (s : Stream) (r : Recoding) :
    medium (s.viewed r).plain = memory (r.contents s.left) := by
  simp [viewed, plain, View.whole, View.further, memory]

/-- A stack of views over a byte string, the innermost view last. -/
def stack (m : Medium) (rs : List Recoding) : Stream := rs.foldl viewed (medium m)

/-- The units of a stack of views. -/
def decoded (m : Medium) (rs : List Recoding) : List UInt8 :=
  rs.foldl (fun units r => r.contents units) m.rest

private theorem stack_append (m : Medium) (rs : List Recoding) (r : Recoding) :
    stack m (rs ++ [r]) = (stack m rs).viewed r := by
  simp [stack]

private theorem decoded_append (m : Medium) (rs : List Recoding) (r : Recoding) :
    decoded m (rs ++ [r]) = r.contents (decoded m rs) := by
  simp [decoded]

private theorem left_stack (m : Medium) (rs : List Recoding) :
    (stack m rs).left = decoded m rs := by
  induction rs using List.reverseRecOn with
  | nil => rfl
  | append_singleton rs r ih => rw [stack_append, left_viewed, ih, decoded_append]

private theorem plain_stack (m : Medium) {rs : List Recoding} (stacked : rs ≠ []) :
    medium (stack m rs).plain = memory (decoded m rs) := by
  induction rs using List.reverseRecOn with
  | nil => exact absurd rfl stacked
  | append_singleton rs r _ => rw [stack_append, plain_viewed, left_stack, decoded_append]

theorem alike_access (s : Stream) (a : Access) : s.Alike (s.access a).2 := by
  cases a with
  | exactly count => exact s.alike_read _
  | all => exact s.alike_read _
  | seek dest =>
      have alike := s.alike_seek dest
      rw [access]
      split <;> simp_all

private theorem alike_accesses (s : Stream) (script : List Access) :
    s.Alike (s.accesses script).2 := by
  induction script generalizing s with
  | nil => exact .refl s
  | cons a rest ih => exact (s.alike_access a).trans (ih _)

/-- Below the limit of positions, a script has the same answers from a stack of views as from
the byte string of its units, and leaves both at the same position; seeking before the start is
refused and moves nothing. -/
theorem accesses_stack (m : Medium) {rs : List Recoding} (stacked : rs ≠ [])
    {script : List Access} (fits : (memory (decoded m rs)).Addressed script) :
    let there := (memory (decoded m rs)).accesses script
    let here := (stack m rs).accesses script
    here.1 = there.1 ∧ here.2.pos = there.2.pos ∧
      ∀ dest, there.2.plain.target dest < 0 →
        (here.2.access (.seek dest)).1 = .refused ∧
          (here.2.access (.seek dest)).2.pos = here.2.pos := by
  have alike := alike_accesses (memory (decoded m rs)) script
  rw [← plain_stack m stacked] at fits alike ⊢
  rw [accesses_plain fits] at alike ⊢
  refine ⟨rfl, (pos_plain _).symm, fun dest ahead => access_negative ahead ?_⟩
  rw [plain_stack m stacked] at alike
  exact alike

theorem accesses_stack_regained :
    ((stack ⟨.growing, [0, 0xe1, 0x55], 1⟩ [⟨.bits, .msbFirst⟩, ⟨.bytes, .lsbFirst⟩]).accesses
        [.exactly 1, .seek (.fromEnd (-2)), .all, .seek (.current 7), .exactly 1]).1 =
      ((memory (decoded ⟨.growing, [0, 0xe1, 0x55], 1⟩
          [⟨.bits, .msbFirst⟩, ⟨.bytes, .lsbFirst⟩])).accesses
        [.exactly 1, .seek (.fromEnd (-2)), .all, .seek (.current 7), .exactly 1]).1 :=
  (accesses_stack ⟨.growing, [0, 0xe1, 0x55], 1⟩ (by decide) (by decide +kernel)).1

/-- A view over one byte, at the end of what can be addressed: the view starts over where the
byte string refuses to go on. -/
theorem accesses_wrap :
    ((stack ⟨.growing, [0xaa], 0⟩ [⟨.bits, .msbFirst⟩]).accesses
        [.seek (.start (2 ^ 63 - 1)), .seek (.current (2 ^ 63 - 1)), .seek (.current 2)]).1 ≠
      ((memory (decoded ⟨.growing, [0xaa], 0⟩ [⟨.bits, .msbFirst⟩])).accesses
        [.seek (.start (2 ^ 63 - 1)), .seek (.current (2 ^ 63 - 1)), .seek (.current 2)]).1 := by
  decide +kernel

end Stream

end BinaryFormat
