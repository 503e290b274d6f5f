import BinaryFormat.Proofs.Reading

/-!
# Runs that depend on nothing but what they read

One run is followed by another if, whenever the first one succeeds, it has read
some bytes and noted some entries in the innermost frame, and the second one
does the same wherever those bytes stand.  The two runs may differ in their
engine, their path, their store and the rest of the stream.
-/

namespace BinaryFormat

/-! ## Noting entries -/

namespace Record

variable {α : Type}

theorem extend_append (fields first second : Record α) :
    extend fields (first ++ second) = extend (extend fields first) second :=
  List.foldl_append

theorem get?_extend_of_not_mem {fields entries : Record α} {name : String}
    (h : ∀ entry ∈ entries, entry.1 ≠ name) :
    get? (extend fields entries) name = get? fields name := by
  induction entries generalizing fields with
  | nil => rfl
  | cons entry rest ih =>
      have later : get? (extend (insert fields entry.1 entry.2) rest) name =
          get? (insert fields entry.1 entry.2) name :=
        ih fun other mem => h other (List.mem_cons_of_mem entry mem)
      exact later.trans (get?_insert_of_ne (h entry List.mem_cons_self) fields entry.2)

end Record

namespace Value

theorem EagerFields.extend {fields entries : Record Value} (h : EagerFields fields)
    (eager : EagerFields entries) : EagerFields (Record.extend fields entries) := by
  induction entries generalizing fields with
  | nil => exact h
  | cons entry rest ih => exact ih (h.insert entry.1 eager.1) eager.2

end Value

namespace Context

/-- The context once the entries are noted in the innermost frame. -/
def extend (ctx : Context) (entries : Record Value) : Context :=
  { ctx with top := { ctx.top with values := Record.extend ctx.top.values entries } }

@[simp] theorem extend_nil (ctx : Context) : ctx.extend [] = ctx := rfl

theorem extend_append (ctx : Context) (first second : Record Value) :
    ctx.extend (first ++ second) = (ctx.extend first).extend second := by
  simp [extend, Record.extend_append]

@[simp] theorem innermost_extend (ctx : Context) (entries : Record Value) :
    (ctx.extend entries).innermost = Record.extend ctx.innermost entries := rfl

theorem kept_extend (ctx : Context) (entries : Record Value) : ctx.Kept (ctx.extend entries) :=
  ⟨rfl, rfl⟩

private theorem pop_extend_push (ctx : Context) (values entries : Record Value) :
    ((ctx.push values).extend entries).pop = ctx :=
  pop_of_kept ⟨rfl, rfl⟩

end Context

/-- Entries without lazy parts, of the allowed names. -/
def Notes (allowed : String → Prop) (entries : Record Value) : Prop :=
  ∀ entry ∈ entries, entry.2.Eager ∧ allowed entry.1

namespace Notes

variable {allowed : String → Prop}

theorem nil : Notes allowed [] := fun _ mem => nomatch mem

theorem append {first second : Record Value} (h : Notes allowed first)
    (h' : Notes allowed second) : Notes allowed (first ++ second) := by
  intro entry mem
  rcases List.mem_append.mp mem with mem | mem
  · exact h entry mem
  · exact h' entry mem

theorem eager {entries : Record Value} (h : Notes allowed entries) : Value.EagerFields entries :=
  Value.eagerFields_iff.mpr fun entry mem => (h entry mem).1

end Notes

namespace Reach

theorem Carries.fresh {near : Reach} {ctx ctx' : Context}
    (h : near.Carries ctx.frames ctx'.frames) {entries : Record Value}
    (eager : Value.EagerFields entries) (names : List String) :
    Reach.Carries (names :: near) (ctx.push []).frames ((ctx'.push []).extend entries).frames := by
  have nothing : Value.EagerFields ([] : Record Value) := trivial
  have inner : ∀ name ∈ names, Record.isReserved name = false → ∀ v : Value,
      (Record.get? [] name = some v →
        Record.get? (Record.extend [] entries) name = some v) ∧
      (Record.get? (Record.extend [] entries) name = some v → v.Eager) := by
    intro name _ _ v
    exact ⟨fun found => (nomatch found), fun found => (nothing.extend eager).get? found⟩
  exact ⟨inner, h⟩

theorem Carries.push {near : Reach} {ctx ctx' : Context}
    (h : near.Carries ctx.frames ctx'.frames) (names : List String) :
    Reach.Carries (names :: near) (ctx.push []).frames (ctx'.push []).frames :=
  h.fresh (show Value.EagerFields [] from trivial) names

theorem Carries.insert {names : List String} {near : Reach} {ctx ctx' : Context}
    (h : Reach.Carries (names :: near) ctx.frames ctx'.frames) (name : String) {v : Value}
    (eager : v.Eager) :
    Reach.Carries ((name :: names) :: near) (ctx.insert name v).frames
      (ctx'.insert name v).frames := by
  refine ⟨fun other mem plain w => ?_, h.2⟩
  show (Record.get? (Record.insert ctx.innermost name v) other = some w →
      Record.get? (Record.insert ctx'.innermost name v) other = some w) ∧
    (Record.get? (Record.insert ctx'.innermost name v) other = some w → w.Eager)
  by_cases eq : name = other
  · subst eq
    rw [Record.get?_insert_self, Record.get?_insert_self]
    refine ⟨id, fun found => ?_⟩
    cases found
    exact eager
  · rw [Record.get?_insert_of_ne eq, Record.get?_insert_of_ne eq]
    have known : other ∈ names :=
      (List.mem_cons.mp mem).resolve_left fun same => eq same.symm
    exact h.1 other known plain w

theorem Carries.extend {near : Reach} {ctx ctx' : Context}
    (h : near.Carries ctx.frames ctx'.frames) {allowed : String → Prop} {entries : Record Value}
    (noted : Notes allowed entries) :
    near.Carries (ctx.extend entries).frames (ctx'.extend entries).frames := by
  cases near with
  | nil => trivial
  | cons names near =>
      induction entries generalizing ctx ctx' with
      | nil => exact h
      | cons entry rest ih =>
          obtain ⟨name, v⟩ := entry
          have eager : v.Eager := (noted (name, v) List.mem_cons_self).1
          have step := h.insert name eager
          have weaker : Reach.Carries (names :: near) (ctx.insert name v).frames
              (ctx'.insert name v).frames :=
            ⟨fun other mem => step.1 other (List.mem_cons_of_mem name mem), step.2⟩
          exact ih (fun other mem => noted other (List.mem_cons_of_mem _ mem)) weaker

theorem Carries.noted {near : Reach} {ctx ctx' : Context}
    (h : near.Carries ctx.frames ctx'.frames) {entries : Record Value}
    (noted : Notes (· = "_index") entries) :
    near.Carries ctx.frames (ctx'.extend entries).frames := by
  cases near with
  | nil => trivial
  | cons names near =>
      refine ⟨fun name mem plain v => ?_, h.2⟩
      have other : ∀ entry ∈ entries, entry.1 ≠ name := by
        intro entry mem same
        rw [← same, (noted entry mem).2] at plain
        cases plain
      have same : Record.get? (Record.extend ctx'.innermost entries) name =
          Record.get? ctx'.innermost name := Record.get?_extend_of_not_mem other
      show (Record.get? ctx.innermost name = some v →
          Record.get? (Record.extend ctx'.innermost entries) name = some v) ∧
        (Record.get? (Record.extend ctx'.innermost entries) name = some v → v.Eager)
      rw [same]
      exact h.1 name mem plain v

end Reach

/-! ## Bytes that stand elsewhere -/

namespace Medium

theorem rest_skip_of_le {m : Medium} {n : Nat} (h : n ≤ m.rest.length) :
    (m.skip n).rest = m.rest.drop n := by
  have split := rest_skip (m := m) (List.take_append_drop n m.rest).symm
  rwa [List.length_take, Nat.min_eq_left h] at split

/-- The next bytes of one byte string are the next ones of another, too. -/
def Offers (m m' : Medium) (n : Nat) : Prop := m.rest.take n <+: m'.rest

private theorem Offers.self (m : Medium) (n : Nat) : m.Offers m n := List.take_prefix n m.rest

theorem Offers.take {m m' : Medium} {n k : Nat} (h : m.Offers m' (n + k)) : m.Offers m' n := by
  refine List.IsPrefix.trans ?_ h
  exact List.take_prefix_take_left (Nat.le_add_right n k)

theorem Offers.length_le {m m' : Medium} {n : Nat} (h : m.Offers m' n)
    (short : n ≤ m.rest.length) : n ≤ m'.rest.length := by
  have bound := List.IsPrefix.length_le h
  rwa [List.length_take, Nat.min_eq_left short] at bound

private theorem Offers.take_eq {m m' : Medium} {n : Nat} (h : m.Offers m' n)
    (short : n ≤ m.rest.length) : m'.rest.take n = m.rest.take n := by
  have size : (m.rest.take n).length = n := by
    rw [List.length_take, Nat.min_eq_left short]
  have cut := List.prefix_iff_eq_take.mp h
  rw [size] at cut
  exact cut.symm

theorem Offers.skip {m m' : Medium} {n k : Nat} (h : m.Offers m' (n + k))
    (short : n ≤ m.rest.length) : (m.skip n).Offers (m'.skip n) k := by
  have short' := h.take.length_le short
  unfold Offers at h ⊢
  rw [rest_skip_of_le short, rest_skip_of_le short']
  obtain ⟨tail, eq⟩ := h
  have cut : n ≤ (m.rest.take (n + k)).length := by
    rw [List.length_take]
    omega
  rw [← eq, List.drop_append_of_le_length cut, List.drop_take, Nat.add_sub_cancel_left]
  exact List.prefix_append _ tail

end Medium

/-! ## One run after the example of another -/

namespace Run

variable {α β : Type}

theorem read_eq_ok_iff {m : Medium} {ctx : Context} {store : LazyStore} {path : Path}
    {count : Nat} {data : List UInt8} {s : State} :
    Run.read count path ⟨.medium m, ctx, store⟩ = .ok data s ↔
      count ≤ m.rest.length ∧ data = m.rest.take count ∧
        s = ⟨.medium (m.skip count), ctx, store⟩ := by
  by_cases enough : count ≤ m.rest.length
  · have size : (m.rest.take count).length = count := by
      rw [List.length_take, Nat.min_eq_left enough]
    have split : Run.read count path ⟨.medium m, ctx, store⟩ = _ :=
      read_of_rest_of_eq (List.take_append_drop count m.rest).symm size.symm
    rw [split, size]
    constructor
    · intro h
      cases h
      exact ⟨enough, rfl, rfl⟩
    · rintro ⟨-, rfl, rfl⟩
      rfl
  · have short : min count m.rest.length ≠ count := by omega
    simp [Run.read, Stream.read, Medium.read, Medium.upTo, short, enough]

end Run

namespace Medium

theorem Offers.taken {m m' : Medium} {count : Nat}
    (h : m.Offers m' count) (enough : count ≤ m.rest.length) (path : Path) (ctx : Context)
    (store : LazyStore) :
    Run.read count path ⟨.medium m', ctx, store⟩ =
      .ok (m.rest.take count) ⟨.medium (m'.skip count), ctx, store⟩ :=
  Run.read_eq_ok_iff.mpr ⟨h.length_le enough, (h.take_eq enough).symm, rfl⟩

end Medium

namespace Run

variable {α β : Type}

/-- Whenever the first run succeeds, it has read some bytes, noted entries of the allowed
names in the innermost frame and changed nothing else, with a result that is good for that
many bytes.  The second run does the same wherever those bytes stand. -/
def FollowedBy (allowed : String → Prop) (good : α → Nat → Prop) (x y : Run α)
    (ctx ctx' : Context) : Prop :=
  ∀ (m : Medium) (store : LazyStore) (a : α) (s : State),
    x ⟨.medium m, ctx, store⟩ = .ok a s →
      ∃ (n : Nat) (entries : Record Value),
        s = ⟨.medium (m.skip n), ctx.extend entries, store⟩ ∧ n ≤ m.rest.length ∧
        good a n ∧ Notes allowed entries ∧
        ∀ (m' : Medium) (store' : LazyStore), m.Offers m' n →
          y ⟨.medium m', ctx', store'⟩ =
            .ok a ⟨.medium (m'.skip n), ctx'.extend entries, store'⟩

/-- A step that changes nothing and has one result, whose other run has it, too. -/
def Agrees (known : α → Prop) (x y : Run α) (ctx ctx' : Context) : Prop :=
  ∀ (s s' : State) (a : α), s.context = ctx → x s = .ok a s' →
    s' = s ∧ known a ∧ ∀ t : State, t.context = ctx' → y t = .ok a t

theorem agrees_ofExcept (result : Except Fault α) (path path' : Path) (ctx ctx' : Context) :
    Agrees (fun a => result = .ok a) (ofExcept path result) (ofExcept path' result) ctx ctx' := by
  intro s s' a _ ran
  obtain ⟨rfl, rfl⟩ := ofExcept_eq_ok_iff.mp ran
  exact ⟨rfl, rfl, fun _ _ => rfl⟩

namespace FollowedBy

variable {allowed : String → Prop} {good good' : α → Nat → Prop} {x y : Run α}
  {ctx ctx' : Context}

theorem imp (h : FollowedBy allowed good x y ctx ctx')
    (weaker : ∀ a n, good a n → good' a n) : FollowedBy allowed good' x y ctx ctx' := by
  intro m store a s ran
  obtain ⟨n, entries, left, short, fine, noted, again⟩ := h m store a s ran
  exact ⟨n, entries, left, short, weaker a n fine, noted, again⟩

theorem of_error (h : ∀ s, ∃ failure s', x s = .error failure s') :
    FollowedBy allowed good x y ctx ctx' := by
  intro m store a s ran
  obtain ⟨failure, s', failed⟩ := h ⟨.medium m, ctx, store⟩
  rw [failed] at ran
  cases ran

theorem allow {others : String → Prop} (h : FollowedBy allowed good x y ctx ctx')
    (more : ∀ name, allowed name → others name) : FollowedBy others good x y ctx ctx' := by
  intro m store a s ran
  obtain ⟨n, entries, left, short, fine, noted, again⟩ := h m store a s ran
  exact ⟨n, entries, left, short, fine,
    fun entry mem => ⟨(noted entry mem).1, more _ (noted entry mem).2⟩, again⟩

/-- Runs that do the same in the two contexts may stand for the two. -/
theorem congr {x' y' : Run α} (h : FollowedBy allowed good x y ctx ctx')
    (first : ∀ s : State, s.context = ctx → x' s = x s)
    (second : ∀ s : State, s.context = ctx' → y' s = y s) :
    FollowedBy allowed good x' y' ctx ctx' := by
  intro m store a s ran
  rw [first _ rfl] at ran
  obtain ⟨n, entries, left, short, fine, noted, again⟩ := h m store a s ran
  refine ⟨n, entries, left, short, fine, noted, fun m' store' offers => ?_⟩
  rw [second _ rfl]
  exact again m' store' offers

protected theorem fail (fault fault' : Fault) (path path' : Path) :
    FollowedBy allowed good (fail fault path) (fail fault' path') ctx ctx' :=
  of_error fun _ => ⟨_, _, rfl⟩

protected theorem pure {a : α} (fine : good a 0) :
    FollowedBy allowed good (pure a) (pure a) ctx ctx' := by
  intro m store b s ran
  cases ran
  exact ⟨0, [], rfl, Nat.zero_le _, fine, .nil, fun _ _ _ => rfl⟩

protected theorem bind {f g : α → Run β} {fine : β → Nat → Prop}
    (h : FollowedBy allowed good x y ctx ctx')
    (next : ∀ a n entries, good a n → Notes allowed entries →
      FollowedBy allowed (fun b k => fine b (n + k)) (f a) (g a) (ctx.extend entries)
        (ctx'.extend entries)) :
    FollowedBy allowed fine (x >>= f) (y >>= g) ctx ctx' := by
  intro m store b s ran
  obtain ⟨a, s₁, first, second⟩ := bind_eq_ok_iff.mp ran
  obtain ⟨n, entries, rfl, short, ok, noted, again⟩ := h m store a s₁ first
  obtain ⟨k, more, rfl, short', ok', noted', again'⟩ :=
    next a n entries ok noted (m.skip n) store b s second
  have total : n + k ≤ m.rest.length := by
    rw [Medium.rest_skip_of_le short, List.length_drop] at short'
    omega
  refine ⟨n + k, entries ++ more, ?_, total, ok', noted.append noted', ?_⟩
  · rw [Medium.skip_skip, Context.extend_append]
  · intro m' store' offers
    rw [bind_of_ok (again m' store' offers.take)]
    rw [again' (m'.skip n) store' (offers.skip short), Medium.skip_skip, Context.extend_append]

theorem after {f g : α → Run β} {fine : β → Nat → Prop} {known : α → Prop}
    (h : Agrees known x y ctx ctx')
    (next : ∀ a, known a → FollowedBy allowed fine (f a) (g a) ctx ctx') :
    FollowedBy allowed fine (x >>= f) (y >>= g) ctx ctx' := by
  intro m store b s ran
  obtain ⟨a, s₁, first, second⟩ := bind_eq_ok_iff.mp ran
  obtain ⟨rfl, ok, there⟩ := h _ s₁ a rfl first
  obtain ⟨n, entries, left, short, fine, noted, again⟩ := next a ok m store b s second
  refine ⟨n, entries, left, short, fine, noted, fun m' store' offers => ?_⟩
  rw [bind_of_ok (there ⟨.medium m', ctx', store'⟩ rfl)]
  exact again m' store' offers

theorem of_agrees {known : α → Prop} (h : Agrees known x y ctx ctx')
    (fine : ∀ a, known a → good a 0) : FollowedBy allowed good x y ctx ctx' := by
  intro m store a s ran
  obtain ⟨rfl, ok, there⟩ := h _ s a rfl ran
  exact ⟨0, [], rfl, Nat.zero_le _, fine a ok, .nil, fun m' store' _ =>
    there ⟨.medium m', ctx', store'⟩ rfl⟩


protected theorem ite {c : Prop} [Decidable c] {x' y' : Run α}
    (h : c → FollowedBy allowed good x y ctx ctx')
    (h' : ¬ c → FollowedBy allowed good x' y' ctx ctx') :
    FollowedBy allowed good (if c then x else x') (if c then y else y') ctx ctx' := by
  by_cases hc : c
  · rw [if_pos hc, if_pos hc]
    exact h hc
  · rw [if_neg hc, if_neg hc]
    exact h' hc

theorem then_read {count : Nat} {path path' : Path} {f g : List UInt8 → Run β}
    {fine : β → Nat → Prop}
    (next : ∀ data, data.length = count →
      FollowedBy allowed (fun b k => fine b (count + k)) (f data) (g data) ctx ctx') :
    FollowedBy allowed fine (Run.read count path >>= f) (Run.read count path' >>= g) ctx ctx' := by
  intro m store b s ran
  obtain ⟨data, s₁, first, second⟩ := bind_eq_ok_iff.mp ran
  obtain ⟨enough, rfl, rfl⟩ := read_eq_ok_iff.mp first
  have size : (m.rest.take count).length = count := by
    rw [List.length_take, Nat.min_eq_left enough]
  obtain ⟨k, entries, rfl, short, ok, noted, again⟩ :=
    next _ size (m.skip count) store b s second
  have total : count + k ≤ m.rest.length := by
    rw [Medium.rest_skip_of_le enough, List.length_drop] at short
    omega
  refine ⟨count + k, entries, by rw [Medium.skip_skip], total, ok, noted, ?_⟩
  intro m' store' offers
  rw [bind_of_ok (offers.take.taken enough path' ctx' store'),
    again _ store' (offers.skip enough), Medium.skip_skip]

protected theorem tagged (h : FollowedBy allowed good x y ctx ctx') :
    FollowedBy allowed good (tagged x) (tagged y) ctx ctx' := by
  intro m store a s ran
  obtain ⟨n, entries, left, short, fine, noted, again⟩ :=
    h m store a s (tagged_eq_ok_iff.mp ran)
  exact ⟨n, entries, left, short, fine, noted, fun m' store' offers =>
    tagged_of_ok (again m' store' offers)⟩

protected theorem insert {name : String} {v : Value} (ok : allowed name) (eager : v.Eager) :
    FollowedBy allowed (fun _ n => n = 0) (insert name v) (insert name v) ctx ctx' := by
  intro m store a s ran
  cases ran
  refine ⟨0, [(name, v)], rfl, Nat.zero_le _, rfl, fun entry mem => ?_, fun _ _ _ => rfl⟩
  cases List.mem_singleton.mp mem
  exact ⟨eager, ok⟩

/-- A run in a frame of its own yields the entries that it notes there. -/
protected theorem inFrame {good : α × Record Value → Nat → Prop} {inner : α → Nat → Prop}
    (h : FollowedBy (fun _ => True) inner x y (ctx.push []) (ctx'.push []))
    (fine : ∀ a n frame, inner a n → Value.EagerFields frame → good (a, frame) n) :
    FollowedBy allowed good (inFrame [] x) (inFrame [] y) ctx ctx' := by
  intro m store result s ran
  obtain ⟨s₁, inside, frame, left⟩ := ok_of_inFrame ran
  obtain ⟨a, values⟩ := result
  dsimp only at inside frame
  obtain ⟨n, entries, rfl, short, ok, noted, again⟩ := h m store a s₁ inside
  have nothing : Value.EagerFields ([] : Record Value) := trivial
  subst frame left
  refine ⟨n, [], ?_, short, fine a n _ ok (nothing.extend noted.eager), .nil, ?_⟩
  · rw [Context.pop_extend_push]
    rfl
  · intro m' store' offers
    rw [inFrame_of_ok (again m' store' offers), Context.pop_extend_push]
    rfl

theorem slice {data : List UInt8} {inner : α → Nat → Prop} {good : α × Nat → Nat → Prop}
    (h : FollowedBy allowed inner x y ctx ctx')
    (fine : ∀ a n, inner a n → n ≤ data.length → good (a, n) 0) :
    FollowedBy allowed good
      (onStream (.memory data) x >>= fun result => pure (result.1, result.2.pos))
      (onStream (.memory data) y >>= fun result => pure (result.1, result.2.pos))
      ctx ctx' := by
  intro m store result s ran
  obtain ⟨⟨a, stream⟩, s₁, outside, last⟩ := bind_eq_ok_iff.mp ran
  cases last
  obtain ⟨s₂, inside, rfl, rfl⟩ := ok_of_onStream outside
  obtain ⟨n, entries, left, short, ok, noted, again⟩ :=
    h ⟨.growing, data, 0⟩ store a s₂ inside
  subst left
  have reached : (Stream.medium ((⟨.growing, data, 0⟩ : Medium).skip n)).pos = n :=
    Nat.zero_add n
  refine ⟨0, entries, rfl, Nat.zero_le _, ?_, noted, fun m' store' _ => ?_⟩
  · rw [reached]
    exact fine a n ok short
  · have inside' := again ⟨.growing, data, 0⟩ store' (Medium.Offers.self _ n)
    exact bind_of_ok (onStream_of_ok inside') _

protected theorem counted (h : FollowedBy allowed good x y ctx ctx') :
    FollowedBy allowed (fun result n => good result.1 n ∧ result.2 = n) (counted x)
      (counted y) ctx ctx' := by
  intro m store result s ran
  obtain ⟨first, moved⟩ := counted_eq_ok_iff.mp ran
  obtain ⟨a, k⟩ := result
  obtain ⟨n, entries, rfl, short, ok, noted, again⟩ := h m store a s first
  have used (m : Medium) : Size.sub (m.skip n).pos m.pos = n := Size.add_sub_cancel_left m.pos n
  have moved : k = n := moved.trans (used m)
  subst moved
  refine ⟨k, entries, rfl, short, ⟨ok, rfl⟩, noted, fun m' store' offers => ?_⟩
  exact counted_eq_ok_iff.mpr ⟨again m' store' offers, (used m').symm⟩

/-- A run between two looks at the position, in front of what depends on how far it went. -/
theorem measured (f g : α → Nat → Run β) {fine : β → Nat → Prop}
    (h : FollowedBy allowed good x y ctx ctx')
    (next : ∀ a n entries, good a n → Notes allowed entries →
      FollowedBy allowed (fun b k => fine b (n + k)) (f a n) (g a n) (ctx.extend entries)
        (ctx'.extend entries)) :
    FollowedBy allowed fine
      (do
        let start ← tell
        let a ← x
        let used := Size.sub (← tell) start
        f a used)
      (do
        let start ← tell
        let a ← y
        let used := Size.sub (← tell) start
        g a used) ctx ctx' := by
  rw [bind_counted, bind_counted]
  refine h.counted.bind fun result n entries ok noted => ?_
  obtain ⟨a, k⟩ := result
  obtain ⟨ok, rfl⟩ := ok
  exact next a _ entries ok noted

end FollowedBy

end Run

end BinaryFormat
