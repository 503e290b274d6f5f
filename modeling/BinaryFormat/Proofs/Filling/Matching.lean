import BinaryFormat.Proofs.Filling.Formats

/-!
# Frames that show the same fields

Building and parsing a structure fill a frame each, field after field.  What the
fields in front come to is noted in both under the same names.
-/

namespace BinaryFormat

namespace Context

/-- Notes a component in the innermost frame if it has a name. -/
def noting (ctx : Context) (name : Option String) (v : Value) : Context :=
  match name with
  | some name => ctx.insert name v
  | none => ctx

variable {ctx : Context} {name : Option String}

theorem get?_noting {key : String} {v : Value} (other : name ≠ some key) :
    Record.get? (ctx.noting name v).innermost key = Record.get? ctx.innermost key := by
  cases name with
  | none => rfl
  | some name =>
      refine Record.get?_insert_of_ne ?_ ctx.innermost v
      rintro rfl
      exact other rfl

theorem kept_noting (ctx : Context) (name : Option String) (v : Value) :
    ctx.Kept (ctx.noting name v) := by
  cases name with
  | none => exact .refl ctx
  | some name => exact ctx.kept_insert name v

theorem frames_noting_queued (ctx : Context) (new : List Deferred) (name : Option String)
    (v : Value) : ((ctx.queued new).noting name v).frames = (ctx.noting name v).frames := by
  cases name <;> rfl

theorem distinct_noting (name : Option String) (v : Value)
    (start : (Record.keys ctx.innermost).Nodup) :
    (Record.keys (ctx.noting name v).innermost).Nodup := by
  cases name with
  | none => exact start
  | some name => exact Record.nodup_insert start name v

end Context

namespace Matches

variable {sources : List (Record Format)} {front : Record Format} {ctx ctx₂ : Context}

theorem nil (built parsed : List (Record Value)) : Matches [] built parsed := nofun

theorem push (h : Matches sources ctx.frames ctx₂.frames) (values values' : Record Value) :
    Matches ([] :: sources) (ctx.push values).frames (ctx₂.push values').frames := by
  intro j front at_j
  cases j with
  | zero =>
      cases at_j
      exact ⟨values, values', rfl, rfl, nofun⟩
  | succ j => exact h j front at_j

theorem quiet {ctx₃ : Context} (h : Matches sources ctx.frames ctx₂.frames)
    (same : ctx₂.Quiet ctx₃) : Matches sources ctx.frames ctx₃.frames := by
  intro j front at_j
  obtain ⟨frame, frame', built, parsed, each⟩ := h j front at_j
  cases j with
  | zero =>
      cases parsed
      refine ⟨frame, ctx₃.innermost, built, rfl, fun name f found shown => ?_⟩
      obtain ⟨w, p, noted, read, fills⟩ := each name f found shown
      exact ⟨w, p, noted, (same.shown name shown).trans read, fills⟩
  | succ j =>
      refine ⟨frame, frame', built, ?_, each⟩
      have below : ctx₃.frames[j + 1]? = ctx₂.frames[j + 1]? := by
        simp only [Context.frames, same.below, List.getElem?_cons_succ]
      rw [below, parsed]

/-- What is built and what is parsed of a component are noted under the same name. -/
theorem note (h : Matches (front :: sources) ctx.frames ctx₂.frames) {f : Format} {w p : Value}
    (fills : w.FillsTo p) (shapes : f.Shapes w) :
    Matches (f.note front :: sources) (ctx.noting f.name? w).frames
      (ctx₂.noting f.name? p).frames := by
  unfold Format.note Context.noting
  cases f.name? with
  | none => exact h
  | some name =>
      intro j front' at_j
      cases j with
      | succ j => exact h (j + 1) front' at_j
      | zero =>
          obtain ⟨frame, frame', built, parsed, each⟩ := h 0 front rfl
          cases built
          cases parsed
          cases at_j
          refine ⟨_, _, rfl, rfl, fun key g found shown => ?_⟩
          by_cases same : name = key
          · subst same
            cases (Record.get?_insert_self front name f).symm.trans found
            exact ⟨w, p, Record.get?_insert_self _ _ _, Record.get?_insert_self _ _ _, fills,
              shapes⟩
          · obtain ⟨v, q, noted, read, rest⟩ :=
              each key g ((Record.get?_insert_of_ne same front f).symm.trans found) shown
            exact ⟨v, q, (Record.get?_insert_of_ne same _ _).trans noted,
              (Record.get?_insert_of_ne same _ _).trans read, rest⟩

end Matches

namespace Format.Shown

variable {sources : List (Record Format)} {front : Record Format} {ctx : Context}

theorem push (h : Shown sources ctx.frames) (values : Record Value) :
    Shown ([] :: sources) (ctx.push values).frames := by
  intro j front at_j
  cases j with
  | zero =>
      cases at_j
      exact ⟨values, rfl, nofun⟩
  | succ j => exact h j front at_j

theorem note (h : Shown (front :: sources) ctx.frames) {f : Format} {w : Value}
    (shapes : f.Shapes w) : Shown (f.note front :: sources) (ctx.noting f.name? w).frames := by
  unfold Format.note Context.noting
  cases f.name? with
  | none => exact h
  | some name =>
      intro j front' at_j
      cases j with
      | succ j => exact h (j + 1) front' at_j
      | zero =>
          obtain ⟨frame, built, each⟩ := h 0 front rfl
          cases built
          cases at_j
          refine ⟨_, rfl, fun key g found shown => ?_⟩
          by_cases same : name = key
          · subst same
            cases (Record.get?_insert_self front name f).symm.trans found
            exact ⟨w, Record.get?_insert_self _ _ _, shapes⟩
          · obtain ⟨v, noted, leads⟩ :=
              each key g ((Record.get?_insert_of_ne same front f).symm.trans found) shown
            exact ⟨v, (Record.get?_insert_of_ne same _ _).trans noted, leads⟩

end Format.Shown

namespace Format

theorem known_of_sighted {sources : List (Record Format)} {data : Expr}
    (h : Sighted sources data) : Known sources data := by
  intro r frames path store store' failure showing failed
  obtain ⟨x, yields⟩ := h.shown frames showing
  cases failed.symm.trans (yields r path store)

end Format

end BinaryFormat
