import BinaryFormat.Proofs.Bits.Packing
import BinaryFormat.Proofs.Blind.Codecs

/-!
# Bytes regained from bits

A view of bytes over a view of bits over a byte string shows the bytes of the
string.  Whoever only moves forward reads and writes through both views what
would be read and written without them, and once they are left the byte string
is where it would be.
-/

namespace BinaryFormat

namespace Recoding

/-- Bits out of bytes. -/
def toBits : Recoding := ⟨.bits, .msbFirst⟩

/-- Bytes out of bits. -/
def toBytes : Recoding := ⟨.bytes, .msbFirst⟩

theorem inner_pos (r : Recoding) : 0 < r.inner := by
  obtain ⟨granularity, order⟩ := r
  cases granularity <;> exact Nat.succ_pos _

theorem outer_pos (r : Recoding) : 0 < r.outer := by
  obtain ⟨granularity, order⟩ := r
  cases granularity <;> exact Nat.succ_pos _

end Recoding

/-! ## Reading on through a view -/

namespace View

variable {v : View} {n : Nat}

private theorem request_chunks (fresh : v.written = false) (more : v.exhausted = false)
    (shown : v.pos = v.units.length) (some : 0 < n) :
    v.request (.some (v.pos + n * v.recoding.inner)) = .some (.some (n * v.recoding.outer)) := by
  have positive := v.recoding.inner_pos
  have needed : ¬ v.units.length + n * v.recoding.inner ≤ v.units.length := by
    have := Nat.mul_pos some positive
    omega
  have chunks : (n * v.recoding.inner + v.recoding.inner - 1) / v.recoding.inner = n := by
    rw [Nat.add_sub_assoc positive, Nat.add_comm, Nat.add_mul_div_right _ _ positive,
      Nat.div_eq_of_lt (by omega), Nat.zero_add]
  simp only [request, fresh, more, shown, needed, Bool.or_self, Bool.false_eq_true, if_false,
    Nat.add_sub_cancel_left, chunks]

private theorem receive_chunks {data : List UInt8} {k asked : Nat}
    (whole : data.length = k * v.recoding.outer) :
    v.receive (.some asked) data =
      ({ v with
          units := v.units ++ v.recoding.decode data
          fetched := v.fetched + k
          exhausted := decide (data.length < asked) }, 0) := by
  have chunks : data.length / v.recoding.outer = k := by
    rw [whole, Nat.mul_div_cancel _ v.recoding.outer_pos]
  simp only [receive, chunks, ← whole, List.take_length, Nat.sub_self, Option.all_some]

end View

namespace Stream

theorem giveBack_zero (s : Stream) : s.giveBack 0 = s := by
  cases s <;> rfl

/-- Reading chunks through a view that has shown all it holds. -/
theorem read_chunks {v : View} {outer outer' : Stream} {data : List UInt8} {n k : Nat}
    (fresh : v.written = false) (more : v.exhausted = false) (shown : v.pos = v.units.length)
    (some : 0 < n) (got : outer.read (.some (n * v.recoding.outer)) = (data, outer'))
    (whole : data.length = k * v.recoding.outer)
    (within : (v.recoding.decode data).length ≤ n * v.recoding.inner) :
    (view v outer).read (.some (n * v.recoding.inner)) =
      (v.recoding.decode data,
        view { v with
          units := v.units ++ v.recoding.decode data
          pos := (v.units ++ v.recoding.decode data).length
          fetched := v.fetched + k
          exhausted := decide (data.length < n * v.recoding.outer) } outer') := by
  have limit : ¬ Option.some (n * v.recoding.inner) = Option.some 0 := by
    have := Nat.mul_pos some v.recoding.inner_pos
    simp only [Option.some.injEq]
    omega
  have request := View.request_chunks fresh more shown some
  simp only [read, if_neg limit, Option.map_some, request, got, View.receive_chunks whole,
    giveBack_zero]
  simp only [View.take, Medium.upTo, shown, List.drop_left, List.take_of_length_le within,
    List.length_append]

/-! ## Both views -/

/-- The bits of a byte string once the bytes `seen` before its position were read through the
view. -/
def bitsRead (m : Medium) (seen : List UInt8) : Stream :=
  view ⟨.toBits, Bits.expand .msbFirst seen, (Bits.expand .msbFirst seen).length, seen.length,
    false, false⟩ (medium m)

/-- The bytes regained from these bits. -/
def bytesRead (m : Medium) (seen : List UInt8) : Stream :=
  view ⟨.toBytes, seen, seen.length, seen.length, false, false⟩ (bitsRead m seen)

private theorem read_bitsRead (m : Medium) (seen : List UInt8) {n : Nat} (some : 0 < n)
    {data : List UInt8} (next : m.rest.take n = data) :
    (bitsRead m seen).read (.some (n * 8)) =
      (Bits.expand .msbFirst data,
        view ⟨.toBits, Bits.expand .msbFirst (seen ++ data),
          (Bits.expand .msbFirst (seen ++ data)).length, (seen ++ data).length, false,
          decide (data.length < n)⟩ (medium (m.skip data.length))) := by
  have got : (medium m).read (.some (n * 1)) = (data, medium (m.skip data.length)) := by
    rw [Nat.mul_one, ← next]
    rfl
  have within : (Bits.expand .msbFirst data).length ≤ n * 8 := by
    rw [Bits.length_expand, ← next, List.length_take]
    omega
  have total : (seen ++ data).length = seen.length + data.length := List.length_append
  rw [Bits.expand_append, total, bitsRead]
  have read := read_chunks (v := ⟨.toBits, Bits.expand .msbFirst seen,
    (Bits.expand .msbFirst seen).length, seen.length, false, false⟩) (k := data.length)
    rfl rfl rfl some got (Nat.mul_one _).symm within
  have unit : n * Recoding.toBits.outer = n := Nat.mul_one n
  rw [unit] at read
  exact read

private theorem read_bytesRead (m : Medium) (seen : List UInt8) {n : Nat} (some : 0 < n)
    {data : List UInt8} (next : m.rest.take n = data) :
    (bytesRead m seen).read (.some n) =
      (data,
        view ⟨.toBytes, seen ++ data, (seen ++ data).length, (seen ++ data).length, false,
          decide (data.length * 8 < n * 8)⟩
        (view ⟨.toBits, Bits.expand .msbFirst (seen ++ data),
          (Bits.expand .msbFirst (seen ++ data)).length, (seen ++ data).length, false,
          decide (data.length < n)⟩ (medium (m.skip data.length)))) := by
  have size : (Bits.expand .msbFirst data).length = data.length * 8 := by
    rw [Bits.length_expand, Nat.mul_comm]
  have back : Recoding.toBytes.decode (Bits.expand .msbFirst data) = data :=
    Bits.pack_expand .msbFirst data
  have within : (Recoding.toBytes.decode (Bits.expand .msbFirst data)).length ≤ n * 1 := by
    rw [back, ← next, List.length_take]
    omega
  have read := read_chunks (v := ⟨.toBytes, seen, seen.length, seen.length, false, false⟩)
    (k := data.length) rfl rfl rfl some (read_bitsRead m seen some next) size within
  have inner : n * Recoding.toBytes.inner = n := Nat.mul_one n
  simp only [back, size, inner] at read
  have total : (seen ++ data).length = seen.length + data.length := List.length_append
  rw [total] at read ⊢
  exact read

/-- The byte string on the one side, both views of it on the other, after the same bytes. -/
def ReadThrough (m : Medium) (s t : Stream) : Prop :=
  ∃ seen, seen <+: m.rest ∧ s = .medium (m.skip seen.length) ∧
    t = bytesRead (m.skip seen.length) seen

private theorem available_bytesRead (m : Medium) (seen : List UInt8) :
    (bytesRead m seen).available = 8 * (8 * m.rest.length) := by
  simp [bytesRead, bitsRead, available]

private theorem readable_readThrough (m : Medium) : Run.Readable (ReadThrough m) where
  shifted := by
    refine ⟨m.pos, ?_⟩
    rintro _ _ ⟨seen, -, rfl, rfl⟩
    exact Nat.add_comm m.pos seen.length
  read := by
    rintro _ _ n ⟨seen, ahead, rfl, rfl⟩
    obtain ⟨rest, split⟩ := ahead
    have left : (m.skip seen.length).rest = rest := Medium.rest_skip split.symm
    rcases Nat.eq_zero_or_pos n with rfl | some
    · refine .inl ⟨[], _, _, ?_, ?_, rfl, ⟨seen, ⟨rest, split⟩, rfl, rfl⟩,
        fun more => absurd more (Nat.lt_irrefl 0)⟩ <;> rfl
    have one : (medium (m.skip seen.length)).read (.some n) =
        (rest.take n, medium ((m.skip seen.length).skip (rest.take n).length)) := by
      rw [← left]
      rfl
    have two := read_bytesRead (m.skip seen.length) seen some (congrArg (List.take n) left)
    -- Where enough is left both sides get the same bytes and less is left on both; otherwise
    -- neither gets its fill.
    rcases Nat.lt_or_ge rest.length n with short | enough
    · refine .inr ⟨_, _, _, _, one, two, rfl, ?_⟩
      rw [List.length_take]
      omega
    · have size : (rest.take n).length = n := List.length_take_of_le enough
      have place : (m.skip seen.length).skip (rest.take n).length =
          m.skip (seen ++ rest.take n).length := by
        rw [Medium.skip_skip, List.length_append]
      have open_ : decide ((rest.take n).length < n) = false := by simp [size]
      have open' : decide ((rest.take n).length * 8 < n * 8) = false := by simp [size]
      rw [open_, open', place] at two
      rw [place] at one
      have split' : m.rest = (seen ++ rest.take n) ++ rest.drop n := by
        rw [List.append_assoc, List.take_append_drop, split]
      have left' : (m.skip (seen ++ rest.take n).length).rest = rest.drop n :=
        Medium.rest_skip split'
      refine .inl ⟨_, _, _, one, two, size, ⟨_, ⟨_, split'.symm⟩, rfl, rfl⟩, fun _ => ?_⟩
      have less : (rest.drop n).length < rest.length := by
        rw [List.length_drop]
        omega
      have outside : (medium (m.skip (seen ++ rest.take n).length)).available <
          (medium (m.skip seen.length)).available := by
        show (m.skip (seen ++ rest.take n).length).rest.length < (m.skip seen.length).rest.length
        rw [left, left']
        exact less
      refine ⟨outside, ?_⟩
      show (bytesRead (m.skip (seen ++ rest.take n).length) (seen ++ rest.take n)).available < _
      rw [available_bytesRead, available_bytesRead, left, left']
      omega

/-! ## Writing through both views -/

/-- The bits of a byte string once the bytes `written` were written through them. -/
def bytesWritten (s : Stream) (written : List UInt8) : Stream :=
  view ⟨.toBytes, written, written.length, 0, !written.isEmpty, false⟩ (viewed s .toBits)

/-- The byte string after some bytes on the one side, both views with these bytes on the
other. -/
def WrittenThrough (data : List UInt8) (pos : Nat) (s t : Stream) : Prop :=
  ∃ written, s = growing (Medium.overlay data pos written) (pos + written.length) ∧
    t = bytesWritten (growing data pos) written

end Stream

private theorem Medium.overlay_append {data : List UInt8} {pos : Nat} (inside : pos ≤ data.length)
    (first second : List UInt8) :
    overlay (overlay data pos first) (pos + first.length) second =
      overlay data pos (first ++ second) := by
  have gap : pos - data.length = 0 := by omega
  have before : (data.take pos).length = pos := List.length_take_of_le inside
  have reached : (data.take pos ++ first).length = pos + first.length := by
    rw [List.length_append, before]
  have gap' : pos + first.length - (overlay data pos first).length = 0 := by
    rw [length_overlay]
    omega
  have start : (overlay data pos first).take (pos + first.length) = data.take pos ++ first := by
    rw [overlay, gap, List.replicate_zero, List.append_nil, ← reached, List.take_left]
  have behind : (overlay data pos first).drop (pos + first.length + second.length) =
      data.drop (pos + (first ++ second).length) := by
    rw [← List.drop_drop, drop_overlay, List.drop_drop, List.length_append, Nat.add_assoc]
  rw [overlay, start, gap', behind]
  simp only [overlay, gap, List.replicate_zero, List.append_nil, List.append_assoc]

private theorem Medium.overlay_nil {data : List UInt8} {pos : Nat} (inside : pos ≤ data.length) :
    overlay data pos [] = data := by
  have gap : pos - data.length = 0 := by omega
  simp [overlay, gap]

namespace Stream

private theorem writable_writtenThrough {data : List UInt8} {pos : Nat}
    (inside : pos ≤ data.length) :
    Run.Writable (WrittenThrough data pos) where
  shifted := by
    refine ⟨pos, ?_⟩
    rintro _ _ ⟨written, rfl, rfl⟩
    exact Nat.add_comm pos written.length
  write := by
    rintro _ _ bytes ⟨written, rfl, rfl⟩
    refine ⟨_, _, rfl, ?_, written ++ bytes, ?_, rfl⟩
    · by_cases none : bytes = []
      · subst none
        simp [write, bytesWritten]
      · have more : (written ++ bytes).isEmpty = false := by simp [none]
        simp [write, bytesWritten, View.write, Medium.overlay_at_end, none]
    · show growing _ _ = _
      rw [Medium.overlay_append inside, List.length_append, Nat.add_assoc]

end Stream

/-! ## Leaving both views -/

namespace Stream

private theorem finish_bytesRead (m : Medium) (seen : List UInt8) :
    (bytesRead m seen).finish = (none, bitsRead m seen) := by
  simp [bytesRead, finish, Recoding.inner, Recoding.toBytes, giveBack_zero, Nat.mod_one]

private theorem finish_bitsRead (m : Medium) (seen : List UInt8) :
    (bitsRead m seen).finish = (none, medium m) := by
  simp [bitsRead, finish, Recoding.inner, Recoding.toBits, Bits.length_expand, giveBack_zero]

/-- The bits of a byte string once the bytes `written` were written as bits. -/
def bitsWritten (s : Stream) (written : List UInt8) : Stream :=
  view ⟨.toBits, Bits.expand .msbFirst written, (Bits.expand .msbFirst written).length, 0,
    !written.isEmpty, false⟩ s

private theorem finish_bytesWritten (s : Stream) (written : List UInt8) :
    (bytesWritten s written).finish = (none, bitsWritten s written) := by
  cases written with
  | nil => rfl
  | cons byte rest =>
      have some : (Bits.expand .msbFirst (byte :: rest)).isEmpty = false := rfl
      simp only [bytesWritten, finish, List.isEmpty_cons, Bool.not_false, if_true,
        Recoding.inner, Recoding.toBytes, Recoding.encode, Nat.mod_one, ne_eq, not_true,
        if_false, write, viewed, some, Bool.false_eq_true, View.write]
      simp [bitsWritten, Medium.overlay]

private theorem finish_bitsWritten {data : List UInt8} {pos : Nat} (inside : pos ≤ data.length)
    (written : List UInt8) : (bitsWritten (growing data pos) written).finish =
      (none, growing (Medium.overlay data pos written) (pos + written.length)) := by
  cases written with
  | nil =>
      rw [Medium.overlay_nil inside]
      rfl
  | cons byte rest =>
      have whole : (Bits.expand .msbFirst (byte :: rest)).length % 8 = 0 := by
        rw [Bits.length_expand, Nat.mul_mod_right]
      simp only [bitsWritten, finish, List.isEmpty_cons, Bool.not_false, if_true, Recoding.inner,
        Recoding.toBits, Recoding.encode, whole, ne_eq, not_true, if_false, Bits.pack_expand]
      rfl

end Stream

/-! ## Runs through both views -/

/-- Two outcomes with the same value and the same state, or with the same fault. -/
inductive SameOutcome {α : Type} :
    EStateM.Result Failure State α → EStateM.Result Failure State α → Prop
  | ok (a : α) (s : State) : SameOutcome (.ok a s) (.ok a s)
  | error {f g : Failure} {s t : State} (same : f.fault = g.fault) :
      SameOutcome (.error f s) (.error g t)

private theorem SameOutcome.tagged {α : Type} {x y : Run α} {s : State}
    (h : SameOutcome (x s) (y s)) :
    SameOutcome (Run.tagged x s) (Run.tagged y s) := by
  unfold Run.tagged
  generalize x s = r at h
  generalize y s = r' at h
  cases h with
  | ok => exact .ok _ _
  | error same => exact .error same

private theorem SameOutcome.bind {α β : Type} {x y : Run α} {s : State}
    (h : SameOutcome (x s) (y s))
    (f : α → Run β) : SameOutcome ((x >>= f) s) ((y >>= f) s) := by
  simp only [Bind.bind, EStateM.bind]
  generalize x s = r at h
  generalize y s = r' at h
  cases h with
  | ok a s₁ =>
      show SameOutcome (f a s₁) (f a s₁)
      cases f a s₁ with
      | ok b s₂ => exact .ok b s₂
      | error failure s₂ => exact .error rfl
  | error same => exact .error same

namespace Codec

variable {α : Type} {recoding : Recoding} {x : Run α} {s outer : Stream}
  {ctx ctx' : Context} {store store' : LazyStore}

theorem inView_of_ok {a : α} {left : Stream} (path : Path)
    (h : x ⟨s.viewed recoding, ctx, store⟩ = .ok a ⟨left, ctx', store'⟩)
    (done : left.finish = (none, outer)) :
    inView recoding path x ⟨s, ctx, store⟩ = .ok a ⟨outer, ctx', store'⟩ := by
  simp [inView, h, done]

theorem inView_of_error {failure : Failure} {s₁ : State} (path : Path)
    (h : x ⟨s.viewed recoding, ctx, store⟩ = .error failure s₁) :
    ∃ s₂, inView recoding path x ⟨s, ctx, store⟩ = .error failure s₂ := by
  simp [inView, h]

/-- A run over bytes regained from bits, with what follows in the view of bits. -/
def throughBoth (path : Path) (x : Run α) (after : α → Run α) : Run α :=
  inView .toBits path do
    checkEntry .toBytes path
    after (← inView .toBytes path x)

private theorem throughBoth_of_ok {a : α} {left bits : Stream} (path : Path) (after : α → Run α)
    (h : x ⟨(s.viewed .toBits).viewed .toBytes, ctx, store⟩ = .ok a ⟨left, ctx', store'⟩)
    (done : left.finish = (none, bits))
    (last : after a ⟨bits, ctx', store'⟩ = .ok a ⟨bits, ctx', store'⟩)
    (done' : bits.finish = (none, outer)) :
    throughBoth path x after ⟨s, ctx, store⟩ = .ok a ⟨outer, ctx', store'⟩ := by
  have entered : checkEntry .toBytes path ⟨s.viewed .toBits, ctx, store⟩ =
      .ok () ⟨s.viewed .toBits, ctx, store⟩ := rfl
  refine inView_of_ok path ?_ done'
  rw [Run.bind_of_ok entered, Run.bind_of_ok (inView_of_ok path h done), last]

private theorem throughBoth_of_error {failure : Failure} {s₁ : State} (path : Path)
    (after : α → Run α)
    (h : x ⟨(s.viewed .toBits).viewed .toBytes, ctx, store⟩ = .error failure s₁) :
    ∃ s₂, throughBoth path x after ⟨s, ctx, store⟩ = .error failure s₂ := by
  have entered : checkEntry .toBytes path ⟨s.viewed .toBits, ctx, store⟩ =
      .ok () ⟨s.viewed .toBits, ctx, store⟩ := rfl
  obtain ⟨s₂, failed⟩ := inView_of_error path h
  have inner := Run.bind_of_error failed after
  rw [← Run.bind_of_ok entered fun _ => inView .toBytes path x >>= after] at inner
  exact inView_of_error path inner

variable {e : Engine} {c : Codec}

/-- A component seen as bytes regained from bits. -/
def regained (e : Engine) (c : Codec) : Codec :=
  recoded e (recoded e c .toBytes true) .toBits false

private theorem parse_regained (h : c.Blind) (path : Path) (m : Medium) (ctx : Context)
    (store : LazyStore) :
    SameOutcome (c.parse path ⟨.medium m, ctx, store⟩)
      ((regained e c).parse path ⟨.medium m, ctx, store⟩) := by
  have agree := h.parse (Stream.readable_readThrough m) path (.medium m) (Stream.bytesRead m [])
    ctx store rfl ⟨[], List.nil_prefix, rfl, rfl⟩
  have views : (regained e c).parse path = throughBoth path (c.parse path) pure := by
    simp only [regained, recoded, throughBoth, if_true, Bool.false_eq_true, if_false, bind_pure]
  rw [views]
  cases direct : c.parse path ⟨.medium m, ctx, store⟩ with
  | ok v s₁ =>
      obtain ⟨t, through, ⟨seen, -, left, rfl⟩, -⟩ := agree.of_ok direct
      have both := throughBoth_of_ok path pure through (Stream.finish_bytesRead _ seen) rfl
        (Stream.finish_bitsRead _ seen)
      rw [← left] at both
      rw [both]
      exact .ok v s₁
  | error failure s₁ =>
      obtain ⟨failure', t, through, same⟩ := agree.of_error direct
      obtain ⟨s₂, failed⟩ := throughBoth_of_error path pure through
      rw [failed]
      exact .error same.symm

/-- What a view does with what was built in it. -/
def settling (e : Engine) (mark : Nat) (built : Value) : Run Value := do
  e.resolveSince mark true
  return built

theorem settling_of_kept (kept : ctx.Kept ctx') (s : Stream) (store : LazyStore) (built : Value) :
    settling e ctx.mark built ⟨s, ctx', store⟩ = .ok built ⟨s, ctx', store⟩ :=
  Run.bind_of_ok (Run.resolveSince_of_queue e kept.deferred true) _

/-- What is built through both views has no patches left to resolve in either. -/
private theorem build_regained (h : c.Blind) (v : Value) (path : Path) {data : List UInt8}
    {pos : Nat}
    (inside : pos ≤ data.length) (ctx : Context) (store : LazyStore) :
    SameOutcome (c.build v path ⟨.growing data pos, ctx, store⟩)
      ((regained e c).build v path ⟨.growing data pos, ctx, store⟩) := by
  have views : (regained e c).build v path ⟨.growing data pos, ctx, store⟩ =
      throughBoth path (c.build v path >>= settling e ctx.mark) (settling e ctx.mark)
        ⟨.growing data pos, ctx, store⟩ := rfl
  have start : Stream.WrittenThrough data pos (.growing data pos)
      (Stream.bytesWritten (.growing data pos) []) :=
    ⟨[], by rw [Medium.overlay_nil inside]; rfl, rfl⟩
  have agree := h.build (Stream.writable_writtenThrough inside) v path _ _ ctx store rfl start
  rw [views]
  cases direct : c.build v path ⟨.growing data pos, ctx, store⟩ with
  | ok w s₁ =>
      obtain ⟨t, through, ⟨written, left, rfl⟩, kept⟩ := agree.of_ok direct
      have through' := Run.bind_of_ok through (settling e ctx.mark)
      rw [settling_of_kept kept] at through'
      have both := throughBoth_of_ok path (settling e ctx.mark) through'
        (Stream.finish_bytesWritten _ written) (settling_of_kept kept _ _ w)
        (Stream.finish_bitsWritten inside written)
      rw [← left] at both
      rw [both]
      exact .ok w s₁
  | error failure s₁ =>
      obtain ⟨failure', t, through, same⟩ := agree.of_error direct
      obtain ⟨s₂, failed⟩ := throughBoth_of_error path (settling e ctx.mark)
        (Run.bind_of_error through (settling e ctx.mark))
      rw [failed]
      exact .error same.symm

/-- Eight times a size may be more than the largest one; what is left of it is an eighth of what
was not cut off. -/
private theorem mul_div_eight (n : Nat) :
    Size.mul n 8 % 8 = 0 ∧ Size.mul (Size.mul n 8 / 8) 1 = n % Nat.pow 2 61 := by
  have word : Nat.pow 2 64 = 8 * Nat.pow 2 61 := by decide
  have whole : Size.mul n 8 = 8 * (n % Nat.pow 2 61) := by
    rw [Size.mul, word, Nat.mul_comm n 8, Nat.mul_mod_mul_left]
  have small : n % Nat.pow 2 61 * 1 ≤ Nat.pow 2 64 - 1 := by
    have below := Nat.mod_lt n (show 0 < Nat.pow 2 61 by decide)
    omega
  rw [whole]
  refine ⟨Nat.mul_mod_right 8 _, ?_⟩
  rw [Nat.mul_div_cancel_left _ (by decide), Size.mul_of_le small, Nat.mul_one]

private theorem size_regained {ctx : Context} {path : Path} {store store' : LazyStore} {n : Nat}
    (sized : c.size ctx path store = .ok n store') :
    (regained e c).size ctx path store = .ok (n % Nat.pow 2 61) store' := by
  have bits : (recoded e c ⟨.bytes, .msbFirst⟩ true).size ctx path store =
      .ok (Size.mul n 8) store' := by
    refine (Run.bind_of_ok sized _).trans ?_
    simp [Recoding.inner, Recoding.outer, Nat.mod_one, pure, EStateM.pure]
  obtain ⟨aligned, back⟩ := mul_div_eight n
  refine (Run.bind_of_ok bits _).trans ?_
  simp [Recoding.inner, Recoding.outer, Recoding.toBits, aligned, back, pure, EStateM.pure]

private theorem size_regained_of_error {ctx : Context} {path : Path} {store store' : LazyStore}
    {failure : Failure} (unsized : c.size ctx path store = .error failure store') :
    (regained e c).size ctx path store = .error failure store' :=
  Run.bind_of_error (Run.bind_of_error unsized _) _

end Codec

namespace Format

/-- Going over to bits and back to bytes changes nothing for a format that only moves forward:
parsing any byte string from anywhere and building into a growing one from anywhere within it
end with the same value in the same state or with the same fault.  A size is counted in bits on
the way, so what is over 2^61 bytes is cut off: the sizes are the same just where it is less. -/
theorem bitwise_bytewise (defs : Definitions) {f : Format} (h : f.Forward)
    (params : Record Value) :
    (∀ (m : Medium) (store : LazyStore),
      SameOutcome (f.parseStream (.ofDefinitions defs) params (.medium m) store)
        ((bitwise (bytewise f)).parseStream (.ofDefinitions defs) params (.medium m) store)) ∧
    (∀ (v : Value) (data : List UInt8) (pos : Nat) (store : LazyStore), pos ≤ data.length →
      SameOutcome (f.buildStream (.ofDefinitions defs) v params (.growing data pos) store)
        ((bitwise (bytewise f)).buildStream (.ofDefinitions defs) v params (.growing data pos)
          store)) ∧
    ∀ store store' : LazyStore,
      (∀ failure, f.sizeOf (.ofDefinitions defs) params store = .error failure store' →
        (bitwise (bytewise f)).sizeOf (.ofDefinitions defs) params store =
          .error failure store') ∧
      ∀ n, f.sizeOf (.ofDefinitions defs) params store = .ok n store' →
        (bitwise (bytewise f)).sizeOf (.ofDefinitions defs) params store =
          .ok (n % Nat.pow 2 61) store' ∧
        ((bitwise (bytewise f)).sizeOf (.ofDefinitions defs) params store = .ok n store' ↔
          n < Nat.pow 2 61) := by
  have blind := blind_codec (inner defs) defs h
  refine ⟨fun m store => ?_, fun v data pos store inside => ?_, fun store store' =>
    ⟨fun failure => Codec.size_regained_of_error, fun n sized => ?_⟩⟩
  · exact (Codec.parse_regained blind .this m _ store).tagged
  · exact (Codec.build_regained blind v .this inside _ store).tagged.bind _
  · have cut : (bitwise (bytewise f)).sizeOf (.ofDefinitions defs) params store =
        .ok (n % Nat.pow 2 61) store' := Codec.size_regained sized
    refine ⟨cut, fun same => ?_, fun small => by rw [cut, Nat.mod_eq_of_lt small]⟩
    rw [cut] at same
    have whole : n % Nat.pow 2 61 = n := (EStateM.Result.ok.inj same).1
    exact whole ▸ Nat.mod_lt n (by decide)

/-- Records behind their count, each with a checked byte, a text and a block of its own. -/
def blocks : Format :=
  prefixedArray (varint 64) (struct [
    named "kind" (literal [7]),
    named "name" (prefixedText (unsigned 2 .big) .utf8),
    named "block" (fixedSized (.const (.int 4))
      (aligned (.const (.int 2)) zigzag ⟨0, true⟩))] false)

private theorem forward_blocks : blocks.Forward := by
  simp [blocks, literal, unsigned, Forward, ForwardAll]

theorem bitwise_bytewise_blocks :
    let v := Value.list [.container [("name", .str "ab"), ("block", .int (-3))]]
    blocks.Forward ∧ 1 ≤ [(9 : UInt8), 9].length ∧
    SameOutcome
      (blocks.buildStream (.ofDefinitions []) v [] (.growing [9, 9] 1) .empty)
      ((bitwise (bytewise blocks)).buildStream (.ofDefinitions []) v [] (.growing [9, 9] 1)
        .empty) ∧
    (literal [7]).Forward ∧
    (literal [7]).sizeOf (.ofDefinitions []) [] .empty = .ok 1 .empty ∧
    (bitwise (bytewise (literal [7]))).sizeOf (.ofDefinitions []) [] .empty = .ok 1 .empty := by
  have forward : (literal [7]).Forward := by simp [literal, Forward]
  refine ⟨forward_blocks, by decide,
    (bitwise_bytewise [] forward_blocks []).2.1 _ _ _ _ (by decide), forward, rfl, ?_⟩
  exact (((bitwise_bytewise [] forward []).2.2 .empty .empty).2 1 rfl).2.mpr (by decide)

/-- As many bytes as have more bits than a size can say. -/
def vast : Format := bytes (.const (.int (Nat.pow 2 61)))

theorem vast_cut :
    vast.Forward ∧
    vast.sizeOf (.ofDefinitions []) [] .empty = .ok (Nat.pow 2 61) .empty ∧
    (bitwise (bytewise vast)).sizeOf (.ofDefinitions []) [] .empty = .ok 0 .empty :=
  ⟨trivial, rfl, rfl⟩

end Format

end BinaryFormat
