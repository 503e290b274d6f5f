import BinaryFormat.Proofs.Leaving

/-!
# Writing through a view

Whatever is written to a view stays in it until the view is left.  From the first write on it
fetches nothing: it holds the chunks that it has fetched before, with what is written laid over
them, and answers like a byte string of these units.  Its outer stream stands behind those
chunks, and that is where everything goes in the end.
-/

namespace BinaryFormat

/-! ## Units laid over others -/

namespace Medium

theorem getElem?_overlay (data : List UInt8) (index : Nat) (bytes : List UInt8) (i : Nat) :
    (overlay data index bytes)[i]? =
      if i < index then some (data[i]?.getD 0)
      else if i < index + bytes.length then bytes[i - index]? else data[i]? := by
  have first : (data.take index).length = min index data.length := List.length_take
  have second : (data.take index ++ List.replicate (index - data.length) 0).length = index := by
    rw [List.length_append, List.length_replicate, first]
    omega
  rw [overlay, List.append_assoc, List.getElem?_append, second]
  by_cases before : i < index
  · rw [if_pos before, if_pos before, List.getElem?_append, first]
    by_cases there : i < data.length
    · rw [if_pos (by omega), List.getElem?_take_of_lt before, List.getElem?_eq_getElem there]
      rfl
    · rw [if_neg (by omega), List.getElem?_replicate, if_pos (by omega),
        List.getElem?_eq_none (by omega)]
      rfl
  · rw [if_neg before, if_neg before, List.getElem?_append]
    by_cases inside : i < index + bytes.length
    · rw [if_pos (by omega), if_pos inside]
    · rw [if_neg (by omega), if_neg inside, List.getElem?_drop]
      congr 1
      omega

end Medium

/-- Units with what was written laid over them, one write after the other. -/
def lay (units : List UInt8) (writes : List (Nat × List UInt8)) : List UInt8 :=
  writes.foldl (fun units write => Medium.overlay units write.1 write.2) units

/-- How far what was written reaches. -/
def extent : List (Nat × List UInt8) → Nat
  | [] => 0
  | write :: rest => max (write.1 + write.2.length) (extent rest)

/-- Some write goes to the position. -/
def Written (writes : List (Nat × List UInt8)) (i : Nat) : Prop :=
  ∃ write ∈ writes, write.1 ≤ i ∧ i < write.1 + write.2.length

instance (writes : List (Nat × List UInt8)) (i : Nat) : Decidable (Written writes i) :=
  inferInstanceAs (Decidable (∃ write ∈ writes, write.1 ≤ i ∧ i < write.1 + write.2.length))

section Lay

variable {units : List UInt8} {writes : List (Nat × List UInt8)} {i : Nat}

theorem length_lay (units : List UInt8) (writes : List (Nat × List UInt8)) :
    (lay units writes).length = max units.length (extent writes) := by
  induction writes generalizing units with
  | nil => simp [lay, extent]
  | cons write rest ih =>
      refine (ih (Medium.overlay units write.1 write.2)).trans ?_
      rw [Medium.length_overlay, extent, Nat.max_assoc]

private theorem written_cons (write : Nat × List UInt8) :
    Written (write :: writes) i ↔
      (write.1 ≤ i ∧ i < write.1 + write.2.length) ∨ Written writes i := by
  simp [Written]

private theorem lt_extent_of_written (h : Written writes i) : i < extent writes := by
  induction writes with
  | nil => simp [Written] at h
  | cons write rest ih =>
      rw [extent]
      rcases (written_cons write).mp h with here | later
      · omega
      · have further := ih later
        omega

private theorem getElem?_lay_of_unwritten (there : i < units.length)
    (unwritten : ¬ Written writes i) :
    (lay units writes)[i]? = units[i]? := by
  induction writes generalizing units with
  | nil => rfl
  | cons write rest ih =>
      rw [written_cons, not_or] at unwritten
      obtain ⟨here, later⟩ := unwritten
      have longer : i < (Medium.overlay units write.1 write.2).length := by
        rw [Medium.length_overlay]
        omega
      refine (ih longer later).trans ?_
      rw [Medium.getElem?_overlay]
      by_cases before : i < write.1
      · rw [if_pos before, List.getElem?_eq_getElem there]
        rfl
      · rw [if_neg before, if_neg (by omega)]

private theorem getElem?_lay_of_written (written : Written writes i) (other : List UInt8) :
    (lay units writes)[i]? = (lay other writes)[i]? := by
  induction writes generalizing units other with
  | nil => simp [Written] at written
  | cons write rest ih =>
      by_cases later : Written rest i
      · exact ih later _
      · -- The last write to the position is this one.
        obtain ⟨behind, inside⟩ := ((written_cons write).mp written).resolve_right later
        have here : ∀ units, (lay units (write :: rest))[i]? = write.2[i - write.1]? := by
          intro units
          have there : i < (Medium.overlay units write.1 write.2).length := by
            rw [Medium.length_overlay]
            omega
          refine (getElem?_lay_of_unwritten there later).trans ?_
          rw [Medium.getElem?_overlay, if_neg (by omega), if_pos inside]
        rw [here, here]

/-- Where nothing is left out, what was written stands in front of what is behind it. -/
theorem lay_of_gapless (gapless : ∀ i < extent writes, Written writes i)
    (units : List UInt8) :
    lay units writes = lay [] writes ++ units.drop (extent writes) := by
  have length : (lay [] writes).length = extent writes := by
    rw [length_lay, List.length_nil, Nat.zero_max]
  apply List.ext_getElem?
  intro i
  rw [List.getElem?_append, length]
  by_cases inside : i < extent writes
  · rw [if_pos inside]
    exact getElem?_lay_of_written (gapless i inside) []
  · rw [if_neg inside, List.getElem?_drop, Nat.add_sub_cancel' (Nat.le_of_not_lt inside)]
    by_cases there : i < units.length
    · exact getElem?_lay_of_unwritten there fun written => inside (lt_extent_of_written written)
    · rw [List.getElem?_eq_none (Nat.le_of_not_lt there), List.getElem?_eq_none]
      rw [length_lay]
      omega

end Lay

/-! ## Scripts with writes -/

/-- What can be done to a stream. -/
inductive Step where
  | access (a : Access)
  | write (units : List UInt8)
  deriving DecidableEq, Repr

inductive Reply where
  | answer (a : Answer)
  /-- Whether all units found room. -/
  | written (all : Bool)
  deriving DecidableEq, Repr

namespace Stream

def step (s : Stream) : Step → Reply × Stream
  | .access a => (.answer (s.access a).1, (s.access a).2)
  | .write units => (.written (s.write units).1.isNone, (s.write units).2)

/-- The replies to a script, and the stream behind it. -/
def steps (s : Stream) : List Step → List Reply × Stream
  | [] => ([], s)
  | first :: rest =>
    let (reply, s) := s.step first
    let (replies, s) := s.steps rest
    (reply :: replies, s)

/-- What a script writes, each with the position that it goes to. -/
def writes (s : Stream) : List Step → List (Nat × List UInt8)
  | [] => []
  | .access a :: rest => (s.access a).2.writes rest
  | .write units :: rest => (s.pos, units) :: (s.write units).2.writes rest

end Stream

/-- What a script does before it writes. -/
def accessesBefore : List Step → List Access
  | .access a :: rest => a :: accessesBefore rest
  | _ => []

/-- Positions have 64 bits: no seek leads beyond them. -/
def Step.Addressed (m : Medium) : Step → Prop
  | .access a => a.Addressed m
  | .write _ => True

instance (m : Medium) (step : Step) : Decidable (step.Addressed m) :=
  match step with
  | .access a => inferInstanceAs (Decidable (a.Addressed m))
  | .write _ => inferInstanceAs (Decidable True)

def Stream.AddressedSteps (s : Stream) : List Step → Prop
  | [] => True
  | first :: rest => first.Addressed s.plain ∧ (s.step first).2.AddressedSteps rest

def Stream.decidableAddressedSteps (s : Stream) :
    (script : List Step) → Decidable (s.AddressedSteps script)
  | [] => inferInstanceAs (Decidable True)
  | first :: rest =>
    have := (s.step first).2.decidableAddressedSteps rest
    inferInstanceAs (Decidable (first.Addressed s.plain ∧ (s.step first).2.AddressedSteps rest))

instance (s : Stream) (script : List Step) : Decidable (s.AddressedSteps script) :=
  s.decidableAddressedSteps script

namespace Stream

variable {v : View} {outer outer' : Stream} {script : List Step}

/-! ## Views that were written to -/

private theorem access_written (written : v.written = true) (outer : Stream) (a : Access) :
    ∃ pos, ((view v outer).access a).2 = view (v.moved pos) outer := by
  have quiet : ∀ upTo, v.request upTo = none := fun upTo => by simp [View.request, written]
  have read : ∀ limit, ∃ pos, ((view v outer).read limit).2 = view (v.moved pos) outer := by
    intro limit
    by_cases nothing : limit = some 0
    · exact ⟨v.pos, by rw [nothing]; rfl⟩
    · rw [read_view v outer nothing, fetch, quiet]
      exact ⟨_, rfl⟩
  have sought : ∀ dest, ∃ pos, ((view v outer).moved dest).2 = view (v.moved pos) outer := by
    intro dest
    rw [moved, v.seek_eq]
    by_cases before : v.target dest < 0
    · rw [if_pos before]
      exact ⟨v.pos, rfl⟩
    · rw [if_neg before]
      exact ⟨_, rfl⟩
  cases a with
  | exactly count => exact read (some count)
  | all => exact read none
  | seek dest =>
      rw [access_seek]
      cases dest with
      | start n => exact sought (.start n)
      | current d => exact sought (.current d)
      | fromEnd d =>
          have filled : (view v outer).fillAll = view v outer := by
            rw [fillAll_view, fetch, quiet]
          have seek : (view v outer).seek (.fromEnd d) =
              (view v outer).fillAll.moved (.fromEnd d) := rfl
          rw [seek, filled]
          exact sought (.fromEnd d)

theorem write_view {units : List UInt8} (some : units ≠ []) :
    (view v outer).write units = (none, view (v.write units) outer) := by
  simp [write, some]

/-- A view that was written to and now holds these units, at a position. -/
def drafted (v : View) (units : List UInt8) (pos : Nat) : View :=
  { v with units := units, pos := pos, written := true }

/-- A script leaves a view that was written to with its writes laid over the units, and its outer
stream alone. -/
private theorem steps_written (written : v.written = true) (outer : Stream)
    (nonempty : .write [] ∉ script) :
    ∃ pos, ((view v outer).steps script).2 =
      view (drafted v (lay v.units ((view v outer).writes script)) pos) outer := by
  induction script generalizing v with
  | nil =>
      obtain ⟨recoding, units, pos, fetched, was, exhausted⟩ := v
      obtain rfl : was = true := written
      exact ⟨pos, rfl⟩
  | cons first rest ih =>
      have further : .write [] ∉ rest := fun mem => nonempty (List.mem_cons_of_mem _ mem)
      cases first with
      | access a =>
          obtain ⟨pos, next⟩ := access_written written outer a
          simp only [steps, step, writes, next]
          exact ih (v := v.moved pos) written further
      | write units =>
          have some : units ≠ [] := fun none => nonempty (by simp [none])
          simp only [steps, step, writes, write_view some]
          exact ih (v := v.write units) rfl further

/-! ## Up to the first write -/

theorem eq_of_ahead {m : Medium} {n : Nat} {s : Stream} (ahead : (medium m).Ahead n s)
    (alike : (medium m).Alike s) : s = medium (m.skip n) := by
  cases s with
  | medium m' => exact congrArg medium ahead.plain
  | view v outer => exact alike.elim

/-- The chunks that a script makes a view fetch before it writes to it. -/
def fetchedBefore (outer : Stream) (r : Recoding) (script : List Step) : Nat :=
  outer.reached r
    ((outer.viewed r).reach (outer.left.length / r.outer * r.inner) (accessesBefore script))

/-- A script that writes leaves a view with the writes laid over the chunks that it has fetched
before the first of them. -/
private theorem Viewing.drafts {m : Medium} {r : Recoding} {chunks : Nat}
    (h : Viewing (medium m) r chunks v outer') (alike : (medium m).Alike outer')
    (nonempty : .write [] ∉ script) (writes : (view v outer').writes script ≠ []) :
    let fetched := max chunks ((medium m).reached r ((view v outer').reach
      ((medium m).left.length / r.outer * r.inner) (accessesBefore script)))
    ∃ v', ((view v outer').steps script).2 =
        view v' (medium (m.skip (fetched * r.outer))) ∧
      v'.recoding = r ∧ v'.written = true ∧
      v'.units = lay (r.decode (m.rest.take (fetched * r.outer)))
        ((view v outer').writes script) := by
  induction script generalizing v outer' chunks with
  | nil => exact absurd rfl writes
  | cons first rest ih =>
      have further : .write [] ∉ rest := fun mem => nonempty (List.mem_cons_of_mem _ mem)
      cases first with
      | access a =>
          obtain ⟨v₁, outer₁, next, viewing⟩ := h.access a
          have alike₁ : (medium m).Alike outer₁ := by
            have kept := alike_access (view v outer') a
            rw [next] at kept
            exact alike.trans kept.2
          simp only [Stream.writes, accessesBefore, reach, reached_max, ← Nat.max_assoc, steps,
            step, next] at writes ⊢
          exact ih viewing alike₁ further writes
      | write units =>
          have some : units ≠ [] := fun none => nonempty (by simp [none])
          obtain ⟨pos, left⟩ := steps_written (v := v.write units) rfl outer' further
          have still : max chunks ((medium m).reached r 0) = chunks := by
            rw [reached_zero, Nat.max_zero]
          have shown : v.units = r.decode (m.rest.take (chunks * r.outer)) := h.shown
          have recoding := h.recoding
          obtain rfl := eq_of_ahead h.ahead alike
          simp only [Stream.writes, accessesBefore, reach, still, steps, step, write_view some]
          refine ⟨_, left, recoding, rfl, ?_⟩
          rw [← shown]
          rfl

theorem drafts_viewed (m : Medium) (r : Recoding) (nonempty : .write [] ∉ script)
    (writes : ((medium m).viewed r).writes script ≠ []) :
    ∃ v, (((medium m).viewed r).steps script).2 =
        view v (medium (m.skip ((medium m).fetchedBefore r script * r.outer))) ∧
      v.recoding = r ∧ v.written = true ∧
      v.units = lay (r.decode (m.rest.take ((medium m).fetchedBefore r script * r.outer)))
        (((medium m).viewed r).writes script) := by
  have drafts := (viewing_viewed (medium m) r).drafts (Alike.refl _) nonempty writes
  rw [Nat.zero_max] at drafts
  exact drafts

/-! ## Leaving a view that was written to -/

end Stream

namespace Recoding

variable (r : Recoding)

private theorem encode_append (chunks : Nat) {first : List UInt8}
    (whole : first.length = chunks * r.inner)
    (second : List UInt8) : r.encode (first ++ second) = r.encode first ++ r.encode second := by
  obtain ⟨granularity, order⟩ := r
  cases granularity with
  | bits => exact Bits.pack_append order chunks whole second
  | bytes => exact Bits.expand_append order first second

private theorem encode_eq_flatMap (chunks : Nat) {units : List UInt8}
    (whole : units.length = chunks * r.inner) :
    r.encode units = (Bytes.chunks r.inner units).flatMap r.encode := by
  have each : ∀ most, chunks ≤ most →
      r.encode units = (Bytes.chunksUpTo r.inner most units).flatMap r.encode := by
    induction chunks generalizing units with
    | zero =>
        intro most _
        rw [Nat.zero_mul, List.length_eq_zero_iff] at whole
        subst whole
        obtain ⟨granularity, order⟩ := r
        cases most <;> cases granularity <;> rfl
    | succ chunks ih =>
        intro most enough
        obtain ⟨most, rfl⟩ : ∃ k, most = k + 1 := ⟨most - 1, by omega⟩
        have positive := r.inner_pos
        rw [Nat.succ_mul] at whole
        have first : (units.take r.inner).length = 1 * r.inner := by
          rw [List.length_take]
          omega
        have shorter : (units.drop r.inner).length = chunks * r.inner := by
          rw [List.length_drop]
          omega
        have some : units.isEmpty = false := by
          cases units with
          | nil => simp only [List.length_nil] at whole; omega
          | cons unit rest => rfl
        have split := r.encode_append 1 first (units.drop r.inner)
        rw [List.take_append_drop] at split
        rw [Bytes.chunksUpTo, some, if_neg Bool.false_ne_true, List.flatMap_cons,
          ← ih shorter most (by omega), split]
  refine each units.length ?_
  have positive := r.inner_pos
  rw [whole]
  exact Nat.le_mul_of_pos_right chunks positive

/-- What becomes of a unit that is encoded: of a bit only the lowest one counts. -/
def stored (unit : UInt8) : UInt8 :=
  match r.granularity with
  | .bits => unit % 2
  | .bytes => unit

theorem decode_encode (chunks : Nat) {units : List UInt8}
    (whole : units.length = chunks * r.inner) :
    r.decode (r.encode units) = units.map r.stored := by
  obtain ⟨granularity, order⟩ := r
  cases granularity with
  | bits => exact Bits.expand_pack order chunks whole
  | bytes => exact (Bits.pack_expand order units).trans (List.map_id' units).symm

end Recoding

namespace Stream

variable {v : View} {outer outer' : Stream} {script : List Step}

theorem finish_written (written : v.written = true) (outer : Stream) :
    (view v outer).finish =
      if v.units.length % v.recoding.inner ≠ 0 then
        (some (.misaligned (.written v.units.length v.recoding.inner)), outer)
      else outer.write (v.recoding.encode v.units) := by
  simp [finish, written]

private theorem writes_ne_nil {s : Stream} {bytes : List UInt8} (mem : .write bytes ∈ script) :
    s.writes script ≠ [] := by
  induction script generalizing s with
  | nil => cases mem
  | cons first rest ih =>
      cases first with
      | access a =>
          rcases List.mem_cons.mp mem with here | later
          · cases here
          · exact ih later
      | write units => exact List.cons_ne_nil _ _

/-! ## Fresh views -/

/-- A view that shows no units but those that it holds. -/
def Holds (v : View) (outer : Stream) : Prop := v.written = true ∨ v.whole outer.left = []

private theorem Holds.whole (h : Holds v outer) : v.whole outer.left = v.units := by
  rcases h with written | none
  · have nothing : v.recoding.contents [] = [] :=
      Recoding.contents_of_short v.recoding.outer_pos
    rw [View.whole, View.further_of_shut (by simp [written]), nothing, List.append_nil]
  · rw [none]
    exact (List.append_eq_nil_iff.mp none).1.symm

private theorem access_medium (m : Medium) (a : Access) :
    ∃ pos, ((medium m).access a).2 = medium { m with pos := pos } := by
  have sought : ∀ dest, ∃ pos, ((medium m).moved dest).2 = medium { m with pos := pos } := by
    intro dest
    rw [moved]
    cases found : m.seek dest with
    | error fault => exact ⟨m.pos, rfl⟩
    | ok m' =>
        refine ⟨m'.pos, ?_⟩
        obtain ⟨backing, data, pos⟩ := m
        unfold Medium.seek at found
        split at found <;> dsimp only at found <;> split at found <;> cases found <;> rfl
  cases a with
  | exactly count => exact ⟨_, rfl⟩
  | all => exact ⟨_, rfl⟩
  | seek dest =>
      rw [access_seek, seek_medium]
      exact sought dest

/-- A view that shows what it holds does what the byte string of its units does, and still shows
what it holds. -/
private theorem step_plain {first : Step} (holds : Holds v outer) (some : first ≠ .write [])
    (fits : first.Addressed (view v outer).plain) :
    (medium (view v outer).plain).step first =
        (((view v outer).step first).1, medium ((view v outer).step first).2.plain) ∧
      ∃ v' outer', ((view v outer).step first).2 = view v' outer' ∧ Holds v' outer' := by
  cases first with
  | access a =>
      have same := access_plain (s := view v outer) (a := a) fits
      refine ⟨by simp only [step, same], ?_⟩
      rcases holds with written | none
      · obtain ⟨pos, next⟩ := access_written written outer a
        exact ⟨_, _, next, .inl written⟩
      · obtain ⟨pos, still⟩ := access_medium (view v outer).plain a
        have alike := alike_access (view v outer) a
        rw [same] at still
        cases next : ((view v outer).access a).2 with
        | medium m =>
            rw [next] at alike
            exact alike.elim
        | view v' outer' =>
            rw [next] at still
            have data := congrArg Stream.data still
            exact ⟨v', outer', next, .inr (data.trans none)⟩
  | write units =>
      have given : units ≠ [] := fun none => some (by rw [none])
      have written : Holds (v.write units) outer := .inl rfl
      refine ⟨?_, v.write units, outer, by rw [step, write_view given], written⟩
      simp only [step, write_view given, plain, written.whole, holds.whole]
      rfl

private theorem steps_plain (holds : Holds v outer) (nonempty : .write [] ∉ script)
    (fits : (medium (view v outer).plain).AddressedSteps script) :
    (medium (view v outer).plain).steps script =
      (((view v outer).steps script).1, medium ((view v outer).steps script).2.plain) := by
  induction script generalizing v outer with
  | nil => rfl
  | cons first rest ih =>
      obtain ⟨here, later⟩ := fits
      have some : first ≠ .write [] := fun same => nonempty (by simp [same])
      obtain ⟨same, v', outer', next, holds'⟩ := step_plain holds some here
      rw [same, next] at later
      rw [next] at same
      simp only [steps, same, next, ih holds' (fun mem => nonempty (List.mem_cons_of_mem _ mem))
        later]

/-- Over a byte string without further units a view leaves its outer stream alone. -/
private theorem Viewing.untouched {m : Medium} {r : Recoding} (done : m.rest = [])
    (h : Viewing (medium m) r 0 v (medium m)) (nonempty : .write [] ∉ script) :
    ∃ v', ((view v (medium m)).steps script).2 = view v' (medium m) := by
  induction script generalizing v with
  | nil => exact ⟨v, rfl⟩
  | cons first rest ih =>
      have further : .write [] ∉ rest := fun mem => nonempty (List.mem_cons_of_mem _ mem)
      cases first with
      | access a =>
          obtain ⟨v', outer', next, viewing⟩ := h.access a
          have none : (medium m).left.length / r.outer = 0 := by
            rw [← rest_plain, plain, done]
            exact Nat.zero_div _
          have alike := alike_access (view v (medium m)) a
          rw [reached, none, Nat.zero_min, Nat.max_zero] at viewing
          rw [next] at alike
          obtain rfl : outer' = medium m := by
            have ahead := viewing.ahead
            rw [Nat.zero_mul] at ahead
            exact eq_of_ahead ahead alike.2
          simp only [steps, step, next]
          exact ih viewing further
      | write units =>
          have some : units ≠ [] := fun none => nonempty (by simp [none])
          obtain ⟨pos, left⟩ := steps_written (v := v.write units) rfl (medium m) further
          simp only [steps, step, write_view some]
          exact ⟨_, left⟩

private theorem rest_atEnd (data : List UInt8) :
    Medium.rest ⟨.growing, data, data.length⟩ = [] := by
  simp [Medium.rest, Medium.base]

/-- A fresh view at the end of a growing byte string answers like an empty byte string of units.
Nothing of what is written to it goes on before it is left; then the units are encoded chunk by
chunk behind the end, or refused if they are no whole number of chunks. -/
theorem finish_fresh (data : List UInt8) (r : Recoding) {script : List Step}
    (nonempty : .write [] ∉ script) (fits : (memory []).AddressedSteps script) :
    let here := ((atEnd data).viewed r).steps script
    let there := (memory []).steps script
    let units := there.2.data
    here.1 = there.1 ∧ here.2.pos = there.2.pos ∧ here.2.abandon = atEnd data ∧
    ((∃ bytes, .write bytes ∈ script) →
      (units.length % r.inner ≠ 0 →
        here.2.finish =
          (some (.misaligned (.written units.length r.inner)), atEnd data)) ∧
      (units.length % r.inner = 0 →
        here.2.finish =
          (none, atEnd (data ++ (Bytes.chunks r.inner units).flatMap r.encode)))) := by
  intro here there units
  have none : r.contents (atEnd data).left = [] := by
    have nothing : (atEnd data).left = [] := rest_atEnd data
    rw [nothing]
    exact Recoding.contents_of_short r.outer_pos
  have fresh : medium ((atEnd data).viewed r).plain = memory [] := by
    rw [plain_viewed, none]
  have viewing := viewing_viewed (atEnd data) r
  have holds : Holds ⟨r, [], 0, 0, false, false⟩ (atEnd data) := by
    refine .inr ?_
    rw [View.whole, View.further_of_open rfl, List.nil_append]
    exact none
  -- At the end of a stream a view has no units but those that were written, so it does as an empty
  -- byte string does.
  have same : there = (here.1, medium here.2.plain) := by
    show (memory []).steps script = _
    rw [← fresh] at fits ⊢
    exact steps_plain holds nonempty fits
  obtain ⟨v, left⟩ : ∃ v, here.2 = view v (atEnd data) :=
    viewing.untouched (rest_atEnd data) nonempty
  refine ⟨(congrArg Prod.fst same).symm, ?_, ?_, ?_⟩
  · rw [same]
    exact (pos_plain here.2).symm
  · rw [left]
    rfl
  · rintro ⟨bytes, mem⟩
    obtain ⟨v', drafted, recoding, written, -⟩ :=
      drafts_viewed ⟨.growing, data, data.length⟩ r nonempty (writes_ne_nil mem)
    obtain ⟨rfl, -⟩ : v = v' ∧ _ := by
      rw [← view.injEq, ← left]
      exact drafted
    have held : units = v.units := by
      have all : Holds v (atEnd data) := .inl written
      show there.2.data = _
      rw [same, left]
      exact all.whole
    rw [left, finish_written written, recoding, ← held]
    refine ⟨fun partly => if_pos partly, fun whole => ?_⟩
    have chunks : units.length = units.length / r.inner * r.inner :=
      (Nat.div_mul_cancel (Nat.dvd_of_mod_eq_zero whole)).symm
    rw [if_neg (not_not_intro whole), r.encode_eq_flatMap _ chunks, atEnd, write, Medium.write,
      Medium.overlay_at_end, atEnd, List.length_append]

/-- Twelve bits are written, of which eight are overwritten, and a gap of four is left. -/
theorem finish_fresh_nibbles :
    (((atEnd [0x55]).viewed ⟨.bits, .msbFirst⟩).steps
        [.write [1, 0, 1, 0, 1, 0, 1, 0], .access (.seek (.start 2)), .access (.exactly 3),
          .write [1, 1, 1], .access (.seek (.fromEnd 4)), .write [0, 0, 1, 1]]).2.finish =
      (none, atEnd [0x55, 0xaf, 0x03]) :=
  ((finish_fresh [0x55] ⟨.bits, .msbFirst⟩ (by decide) (by decide +kernel)).2.2.2
    ⟨_, List.mem_cons_self⟩).2 (by decide)

/-- A fresh view, at the end of what can be addressed: the view starts over where the byte string
refuses to go on. -/
theorem steps_wrap :
    (((atEnd []).viewed ⟨.bits, .msbFirst⟩).steps
        [.write [1, 1, 1, 1, 1, 1, 1, 1], .access (.seek (.start (2 ^ 63 - 1))),
          .access (.seek (.current (2 ^ 63 - 1))), .access (.seek (.current 2))]).1 ≠
      ((memory []).steps
        [.write [1, 1, 1, 1, 1, 1, 1, 1], .access (.seek (.start (2 ^ 63 - 1))),
          .access (.seek (.current (2 ^ 63 - 1))), .access (.seek (.current 2))]).1 := by
  decide +kernel

end Stream

end BinaryFormat
