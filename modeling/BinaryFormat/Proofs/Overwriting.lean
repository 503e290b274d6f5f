import BinaryFormat.Proofs.Writing

/-!
# Writing through a view over existing data

A view that was written to is laid over its outer stream behind the chunks that it had fetched
before it was written to, and as a whole: these chunks are written once more, and units that were
passed over without a write are written as zeros.  Only a script that writes before it reads, and
leaves out nothing up to the last unit that it writes, changes no more than what it writes.
-/

namespace BinaryFormat

namespace Medium

private theorem take_overlay_of_le {data : List UInt8} {before index : Nat} (le : before ≤ index)
    (inside : before ≤ data.length) (bytes : List UInt8) :
    (overlay data index bytes).take before = data.take before := by
  apply List.ext_getElem?
  intro i
  by_cases there : i < before
  · rw [List.getElem?_take_of_lt there, List.getElem?_take_of_lt there, getElem?_overlay,
      if_pos (there.trans_le le), List.getElem?_eq_getElem (there.trans_le inside)]
    rfl
  · rw [List.getElem?_eq_none, List.getElem?_eq_none] <;> rw [List.length_take] <;> omega

private theorem drop_overlay_at {data : List UInt8} {index : Nat} (inside : index ≤ data.length)
    (bytes : List UInt8) :
    (overlay data index bytes).drop index = bytes ++ data.drop (index + bytes.length) := by
  have gap : index - data.length = 0 := by omega
  have before : (data.take index).length = index := List.length_take_of_le inside
  rw [overlay, gap, List.replicate_zero, List.append_nil, List.append_assoc]
  exact (congrArg (List.drop · _) before.symm).trans List.drop_left

end Medium

namespace Recoding

variable {r : Recoding}

private theorem contents_encode_append (chunks : Nat) {units : List UInt8}
    (whole : units.length = chunks * r.inner) (rest : List UInt8) :
    r.contents (r.encode units ++ rest) = units.map r.stored ++ r.contents rest := by
  have length := r.length_encode chunks whole
  have enough : chunks * r.outer ≤ (r.encode units ++ rest).length := by
    rw [List.length_append, length]
    omega
  rw [contents_eq enough, ← length, List.take_left, List.drop_left, r.decode_encode chunks whole]

private theorem contents_drop (chunks : Nat) (units : List UInt8) :
    r.contents (units.drop (chunks * r.outer)) = (r.contents units).drop (chunks * r.inner) := by
  by_cases enough : chunks * r.outer ≤ units.length
  · have first : (units.take (chunks * r.outer)).length = chunks * r.outer :=
      List.length_take_of_le enough
    rw [contents_eq enough, ← r.length_decode chunks first, List.drop_left]
  · have none : units.drop (chunks * r.outer) = [] := List.drop_eq_nil_of_le (by omega)
    have few : units.length / r.outer ≤ chunks :=
      Nat.div_le_of_le_mul (by rw [Nat.mul_comm]; omega)
    have nothing : r.contents [] = [] := contents_of_short r.outer_pos
    rw [none, nothing, List.drop_eq_nil_of_le]
    rw [length_contents]
    exact Nat.mul_le_mul_right _ few

end Recoding

/-- Writes, with what becomes of each unit. -/
def storedWrites (r : Recoding) (writes : List (Nat × List UInt8)) : List (Nat × List UInt8) :=
  writes.map fun write => (write.1, write.2.map r.stored)

section Lay

variable {r : Recoding} {writes : List (Nat × List UInt8)} {i : Nat}

private theorem stored_zero (r : Recoding) : r.stored 0 = 0 := by
  obtain ⟨granularity, order⟩ := r
  cases granularity <;> rfl

private theorem map_overlay (units : List UInt8) (index : Nat) (bytes : List UInt8) :
    (Medium.overlay units index bytes).map r.stored =
      Medium.overlay (units.map r.stored) index (bytes.map r.stored) := by
  simp [Medium.overlay, stored_zero]

private theorem map_lay (units : List UInt8) :
    (lay units writes).map r.stored = lay (units.map r.stored) (storedWrites r writes) := by
  induction writes generalizing units with
  | nil => rfl
  | cons write rest ih =>
      refine (ih (Medium.overlay units write.1 write.2)).trans ?_
      rw [map_overlay]
      rfl

private theorem written_storedWrites : Written (storedWrites r writes) i ↔ Written writes i := by
  simp [Written, storedWrites]

private theorem extent_storedWrites : extent (storedWrites r writes) = extent writes := by
  induction writes with
  | nil => rfl
  | cons write rest ih =>
      have step : extent (storedWrites r (write :: rest)) =
          max (write.1 + (write.2.map r.stored).length) (extent (storedWrites r rest)) := rfl
      rw [step, ih, List.length_map, extent]

end Lay

namespace Stream

variable {v : View} {outer outer' : Stream} {script : List Step}

/-- A script that writes nothing leaves a view that was not written to. -/
private theorem Viewing.steps {r : Recoding} {chunks : Nat} (h : Viewing outer r chunks v outer')
    (none : (view v outer').writes script = []) :
    ∃ chunks' v' outer'', ((view v outer').steps script).2 = view v' outer'' ∧
      Viewing outer r chunks' v' outer'' := by
  induction script generalizing v outer' chunks with
  | nil => exact ⟨chunks, v, outer', rfl, h⟩
  | cons first rest ih =>
      cases first with
      | access a =>
          obtain ⟨v₁, outer₁, next, viewing⟩ := h.access a
          simp only [writes, Stream.steps, step, next] at none ⊢
          exact ih viewing none
      | write units => exact absurd none (List.cons_ne_nil _ _)

private theorem alike_steps (s : Stream) (script : List Step) : s.Alike (s.steps script).2 := by
  induction script generalizing s with
  | nil => exact .refl s
  | cons first rest ih =>
      refine Alike.trans ?_ (ih (s.step first).2)
      cases first with
      | access a => exact s.alike_access a
      | write units => exact s.alike_write units

private theorem data_finish_of_unwritten (m : Medium) (r : Recoding)
    (none : ((medium m).viewed r).writes script = [])
    (fine : (((medium m).viewed r).steps script).2.finish.1 = Option.none) :
    (((medium m).viewed r).steps script).2.finish.2.data = m.data := by
  have alike := alike_steps ((medium m).viewed r) script
  obtain ⟨chunks, v, outer, left, viewing⟩ := (viewing_viewed (medium m) r).steps none
  have left : (((medium m).viewed r).steps script).2 = view v outer := left
  rw [left] at fine alike ⊢
  obtain ⟨fails, leaves⟩ := viewing.finish
  have aligned : v.pos % r.inner = 0 := by
    by_contra partly
    rw [fails partly] at fine
    cases fine
  have back : (medium m).Alike (view v outer).finish.2 := alike_finish alike
  rw [eq_of_ahead (leaves aligned).2 back]
  rfl

/-- A script that writes lays what it leaves behind the chunks that it has fetched before. -/
private theorem finish_of_written (m : Medium) (r : Recoding) (nonempty : .write [] ∉ script)
    (some : ((medium m).viewed r).writes script ≠ [])
    (fine : (((medium m).viewed r).steps script).2.finish.1 = none) :
    let kept := (medium m).fetchedBefore r script * r.outer
    let units := lay (r.decode (m.rest.take kept)) (((medium m).viewed r).writes script)
    units.length % r.inner = 0 ∧
      (((medium m).viewed r).steps script).2.finish =
        (medium (m.skip kept)).write (r.encode units) := by
  intro kept units
  obtain ⟨v, left, recoding, written, held⟩ := drafts_viewed m r nonempty some
  rw [left, finish_written written, recoding, held] at fine ⊢
  by_cases whole : units.length % r.inner = 0
  · exact ⟨whole, if_neg (not_not_intro whole)⟩
  · rw [if_pos whole] at fine
    cases fine

/-- Whole chunks that were laid over a byte string, and what they show there. -/
private theorem contents_overlay {data : List UInt8} {pos : Nat} (inside : pos ≤ data.length)
    (r : Recoding) {writes : List (Nat × List UInt8)}
    (gapless : ∀ i < extent writes, Written writes i) (whole : extent writes % r.inner = 0) :
    let ended := Medium.overlay data pos (r.encode (lay [] writes))
    ended.length = max data.length (pos + extent writes / r.inner * r.outer) ∧
      r.contents (ended.drop pos) = lay (r.contents (data.drop pos)) (storedWrites r writes) := by
  intro ended
  have chunks : extent writes = extent writes / r.inner * r.inner :=
    (Nat.div_mul_cancel (Nat.dvd_of_mod_eq_zero whole)).symm
  have length : (lay [] writes).length = extent writes / r.inner * r.inner := by
    rw [length_lay, List.length_nil, Nat.zero_max, ← chunks]
  have bytes := r.length_encode _ length
  have gapless' : ∀ i < extent (storedWrites r writes), Written (storedWrites r writes) i := by
    intro i reached
    rw [extent_storedWrites] at reached
    exact written_storedWrites.mpr (gapless i reached)
  constructor
  · rw [Medium.length_overlay, bytes]
  · calc r.contents (ended.drop pos)
        = (lay [] writes).map r.stored ++
            r.contents ((data.drop pos).drop (extent writes / r.inner * r.outer)) := by
          rw [Medium.drop_overlay_at inside, Recoding.contents_encode_append _ length, bytes,
            List.drop_drop]
      _ = lay [] (storedWrites r writes) ++
            (r.contents (data.drop pos)).drop (extent (storedWrites r writes)) := by
          rw [Recoding.contents_drop, ← chunks, map_lay, extent_storedWrites, List.map_nil]
      _ = lay (r.contents (data.drop pos)) (storedWrites r writes) :=
          (lay_of_gapless gapless' _).symm

/-- A script over a view of existing data leaves what stands before the view, and lays what it
leaves behind the chunks that it had fetched when it first wrote.  Where these are none, and it
left out no unit up to the last that it wrote, the data are longer only if it wrote past their
end, and from the view on they show the old units with exactly what it wrote laid over them. -/
theorem finish_over {data : List UInt8} {pos : Nat} (inside : pos ≤ data.length) (r : Recoding)
    {script : List Step} (nonempty : .write [] ∉ script) :
    let there := (growing data pos).viewed r
    let writes := there.writes script
    let fetched := (growing data pos).fetchedBefore r script
    let ended := (there.steps script).2.finish
    ended.1 = none →
      (writes = [] → ended.2.data = data) ∧
      (writes ≠ [] → ended.2.data = Medium.overlay data (pos + fetched * r.outer)
        (r.encode (lay (r.decode ((data.drop pos).take (fetched * r.outer))) writes))) ∧
      ended.2.data.take pos = data.take pos ∧
      ((writes ≠ [] → fetched = 0) → (∀ i < extent writes, Written writes i) →
        ended.2.data.length = max data.length (pos + extent writes / r.inner * r.outer) ∧
        r.contents (ended.2.data.drop pos) =
          lay (r.contents (data.drop pos)) (storedWrites r writes)) := by
  intro there writes fetched ended fine
  by_cases none : writes = []
  · have same : ended.2.data = data := data_finish_of_unwritten ⟨.growing, data, pos⟩ r none fine
    refine ⟨fun _ => same, fun some => absurd none some, by rw [same], fun _ _ => ?_⟩
    rw [same, none]
    refine ⟨?_, rfl⟩
    have zero : extent [] / r.inner * r.outer = 0 := by rw [extent, Nat.zero_div, Nat.zero_mul]
    rw [zero]
    exact (Nat.max_eq_left inside).symm
  · obtain ⟨whole, left⟩ := finish_of_written ⟨.growing, data, pos⟩ r nonempty none fine
    have rest : Medium.rest ⟨.growing, data, pos⟩ = data.drop pos := rfl
    have laid : ended.2.data = Medium.overlay data (pos + fetched * r.outer)
        (r.encode (lay (r.decode ((data.drop pos).take (fetched * r.outer))) writes)) :=
      congrArg (·.2.data) left
    refine ⟨fun empty => absurd empty none, fun _ => laid, ?_, fun early gapless => ?_⟩
    · rw [laid]
      exact Medium.take_overlay_of_le (Nat.le_add_right _ _) inside _
    -- Nothing was fetched before the first write, so the units behind the writes are those that
    -- were there.
    · have none : fetched = 0 := early none
      have zero : fetched * r.outer = 0 := by rw [none, Nat.zero_mul]
      have nothing : r.decode ((data.drop pos).take 0) = [] := by rw [List.take_zero, r.decode_nil]
      have units : (lay [] writes).length = extent writes := by
        rw [length_lay, List.length_nil, Nat.zero_max]
      have whole : (lay (r.decode ((data.drop pos).take (fetched * r.outer))) writes).length %
          r.inner = 0 := whole
      rw [zero, nothing, units] at whole
      rw [laid, zero, nothing, Nat.add_zero]
      exact contents_overlay inside r gapless whole

/-- The second of three bytes is written as bits, the last four of them first. -/
theorem finish_over_bits :
    let ended := (((growing [0xaa, 0xbb, 0xcc] 1).viewed ⟨.bits, .lsbFirst⟩).steps
      [.access (.seek (.start 4)), .write [1, 0, 1, 0], .access (.seek (.start 0)),
        .write [1, 1, 1, 1], .access .all]).2.finish.2
    ended.data.length = 3 ∧
      Recoding.contents ⟨.bits, .lsbFirst⟩ (ended.data.drop 1) =
        [1, 1, 1, 1, 1, 0, 1, 0] ++ Bits.expand .lsbFirst [0xcc] := by
  have inside : 1 ≤ [(0xaa : UInt8), 0xbb, 0xcc].length := by decide
  have nonempty : Step.write [] ∉ [.access (.seek (.start 4)), .write [1, 0, 1, 0],
      .access (.seek (.start 0)), .write [1, 1, 1, 1], .access .all] := by decide
  have laid := (finish_over inside ⟨.bits, .lsbFirst⟩ nonempty rfl).2.2.2
  exact laid (fun _ => by decide) (by decide)

/-- Eight bits are read and the next eight are written: the byte that was read is written once
more, where the second one belongs.  Eight bits are passed over and the next eight are written:
the byte that was passed over becomes zero. -/
theorem finish_over_others :
    let there := (growing [0xaa, 0xbb] 0).viewed ⟨.bits, .msbFirst⟩
    let read := [.access (.exactly 8), .write [1, 1, 1, 1, 1, 1, 1, 1]]
    let passed := [.access (.seek (.start 8)), .write [1, 1, 1, 1, 1, 1, 1, 1]]
    (there.steps read).2.finish = (none, growing [0xaa, 0xaa, 0xff] 3) ∧
      (there.steps passed).2.finish = (none, growing [0x00, 0xff] 2) ∧
      ∀ script ∈ [read, passed],
        Bits.expand .msbFirst (there.steps script).2.finish.2.data ≠
          lay (Bits.expand .msbFirst [0xaa, 0xbb]) (there.writes script) :=
  ⟨rfl, rfl, by decide +kernel⟩

end Stream

end BinaryFormat
