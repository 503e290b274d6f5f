import BinaryFormat.Expr.Host
import BinaryFormat.Format.Meaning
import BinaryFormat.Proofs.Run
import Mathlib

/-!
# Dotted paths

A path in dots stands for the names between its dots, which are followed one after another
from the innermost frame.  A path that starts with `this.` names just what follows.  Without
that prefix the first name loses its first four letters if they spell `this`.
-/

namespace BinaryFormat

namespace Expr

/-! ## Segments -/

/-- What can stand between two dots. -/
structure IsSegment (name : String) : Prop where
  nonempty : name ≠ ""
  dotless : '.' ∉ name.toList

/-- The names from the innermost frame on. -/
def along (names : List String) : Expr := names.foldl attr this

private theorem splitDots_eq (path : List Char) : splitDots path = path.splitOn '.' := by
  induction path with
  | nil => simp [splitDots]
  | cons c rest ih =>
      rw [List.splitOn_eq_splitOnP] at ih ⊢
      by_cases dot : c = '.'
      · simp [splitDots, dot, ih, List.splitOnP_cons_eq_if_modifyHead]
      · simp only [splitDots, dot, ih]
        cases later : List.splitOnP (· == '.') rest <;>
          simp_all [List.splitOnP_cons_eq_if_modifyHead]

private theorem splitDots_intercalate {names : List String} (nonempty : names ≠ [])
    (segments : ∀ name ∈ names, IsSegment name) :
    splitDots (".".intercalate names).toList = names.map String.toList := by
  have dotless : ∀ s ∈ names.map String.toList, '.' ∉ s := by
    intro s mem
    obtain ⟨name, within, rfl⟩ := List.mem_map.mp mem
    exact (segments name within).dotless
  rw [splitDots_eq, String.toList_intercalate]
  exact List.splitOn_intercalate '.' dotless (by simpa using nonempty)

private theorem foldl_segments {names : List String} (segments : ∀ name ∈ names, IsSegment name)
    (base : Expr) :
    ((names.map String.toList).filter fun segment => !segment.isEmpty).foldl
      (fun base segment => attr base (String.ofList segment)) base = names.foldl attr base := by
  induction names generalizing base with
  | nil => rfl
  | cons name rest ih =>
      have shown : name.toList ≠ [] := by simpa using (segments name List.mem_cons_self).nonempty
      have later := fun other mem => segments other (List.mem_cons_of_mem name mem)
      simp [shown, ih later]

/-! ## The keyword in front -/

private theorem dropThis_keyword (rest : List Char) : dropThis ("this".toList ++ rest) = rest := rfl

private theorem dropThis_of_not_prefix {path : List Char} (other : ¬ "this".toList <+: path) :
    dropThis path = path := by
  unfold dropThis
  split
  · rename_i rest
    exact absurd (List.prefix_append "this".toList rest) other
  · rfl

private theorem prefix_before_dot {word first rest : List Char} (dotless : '.' ∉ word) :
    word <+: first ++ '.' :: rest ↔ word <+: first := by
  constructor
  · intro begins
    rcases List.prefix_or_prefix_of_prefix begins (List.prefix_append first _) with within | beyond
    · exact within
    · obtain ⟨more, rfl⟩ := beyond
      rw [List.prefix_append_right_inj] at begins
      cases more with
      | nil => simp
      | cons c more =>
          have dot : c = '.' := (List.cons_prefix_cons.mp begins).1
          simp [dot] at dotless
  · intro begins
    exact begins.trans (List.prefix_append _ _)

/-- A path begins with the keyword only if its first segment does. -/
private theorem keyword_prefix_iff (first : String) (others : List String) :
    "this".toList <+: (".".intercalate (first :: others)).toList ↔
      "this".toList <+: first.toList := by
  cases others with
  | nil => simp
  | cons second others =>
      have dotless : '.' ∉ "this".toList := by decide
      have parts : (".".intercalate (first :: second :: others)).toList =
          first.toList ++ '.' :: (".".intercalate (second :: others)).toList := by
        simp [String.intercalate_cons_cons]
      rw [parts, prefix_before_dot dotless]

/-! ## Reading a path -/

variable {first : String} {others names : List String}

private theorem ofPath_keyword (nonempty : names ≠ []) (segments : ∀ name ∈ names, IsSegment name) :
    ofPath ("this." ++ ".".intercalate names) = along names := by
  have rest : dropThis ("this." ++ ".".intercalate names).toList =
      '.' :: (".".intercalate names).toList := by
    rw [String.toList_append]
    rfl
  rw [ofPath, rest, splitDots, if_pos rfl, splitDots_intercalate nonempty segments]
  exact foldl_segments segments this

private theorem ofPath_plain (segments : ∀ name ∈ first :: others, IsSegment name)
    (plain : ¬ "this".toList <+: first.toList) :
    ofPath (".".intercalate (first :: others)) = along (first :: others) := by
  rw [ofPath, dropThis_of_not_prefix (mt (keyword_prefix_iff first others).mp plain),
    splitDots_intercalate (List.cons_ne_nil first others) segments]
  exact foldl_segments segments this

/-- A first segment that begins with the keyword is cut, dot or no dot. -/
private theorem ofPath_cut {rest : String} (nonempty : rest ≠ "")
    (segments : ∀ name ∈ ("this" ++ rest) :: others, IsSegment name) :
    ofPath (".".intercalate (("this" ++ rest) :: others)) = along (rest :: others) := by
  have cut : IsSegment rest := by
    refine ⟨nonempty, fun dot => (segments _ List.mem_cons_self).dotless ?_⟩
    rw [String.toList_append]
    exact List.mem_append_right _ dot
  have left : ∀ name ∈ rest :: others, IsSegment name :=
    List.forall_mem_cons.mpr ⟨cut, (List.forall_mem_cons.mp segments).2⟩
  have behind : (".".intercalate (("this" ++ rest) :: others)).toList =
      "this".toList ++ (".".intercalate (rest :: others)).toList := by
    cases others <;> simp [String.intercalate_cons_cons]
  rw [ofPath, behind, dropThis_keyword, splitDots_intercalate (List.cons_ne_nil _ _) left]
  exact foldl_segments left this

/-! ## The text of a path -/

private theorem text_foldl_attr (names : List String) (base : Expr) :
    (names.foldl attr base).text = ".".intercalate (base.text :: names) := by
  induction names generalizing base with
  | nil => simp
  | cons name rest ih =>
      rw [List.foldl_cons, ih, text]
      cases rest <;> simp [String.intercalate_cons_cons, String.append_assoc]

private theorem text_along (nonempty : names ≠ []) :
    (along names).text = "this." ++ ".".intercalate names := by
  rw [along, text_foldl_attr, String.intercalate_cons_of_ne_nil nonempty]
  rfl

private theorem along_injective : Function.Injective along := by
  intro names
  induction names using List.reverseRecOn with
  | nil =>
      intro other same
      induction other using List.reverseRecOn with
      | nil => rfl
      | append_singleton front last _ => simp [along] at same
  | append_singleton front last ih =>
      intro other same
      induction other using List.reverseRecOn with
      | nil => simp [along] at same
      | append_singleton front' last' _ =>
          simp only [along, List.foldl_append, List.foldl_cons, List.foldl_nil,
            attr.injEq] at same
          rw [ih same.1, same.2]

end Expr

/-! ## Following names -/

namespace Denoted

variable {r : Resolver} {frames rest : List (Record Value)}

/-- Where a name leads: from a frame to the frame around it, to the outermost structure, to the
parameters, to the index of the nearest element or to an entry of its own; from a value to its
member, which is resolved if it has to be. -/
inductive LeadsTo (r : Resolver) (frames : List (Record Value)) :
    Denoted → String → LazyStore → Denoted → LazyStore → Prop
  | parent {frame next : Record Value} {rest : List (Record Value)} {σ : LazyStore} :
      LeadsTo r frames (.frame (frame :: next :: rest)) "_" σ (.frame (next :: rest)) σ
  | root {inner stack : List (Record Value)} {outermost params : Record Value} {σ : LazyStore}
      (all : frames = inner ++ [outermost, params]) :
      LeadsTo r frames (.frame stack) "_root" σ (.frame [outermost, params]) σ
  /-- Outside of all structures. -/
  | bareRoot {stack : List (Record Value)} {params : Record Value} {σ : LazyStore}
      (all : frames = [params]) :
      LeadsTo r frames (.frame stack) "_root" σ (.frame [params]) σ
  | parameters {inner stack : List (Record Value)} {params : Record Value} {σ : LazyStore}
      (all : frames = inner ++ [params]) :
      LeadsTo r frames (.frame stack) "_params" σ (.frame [params]) σ
  | elementIndex {nearer rest : List (Record Value)} {holder : Record Value} {v : Value}
      {σ : LazyStore} (absent : ∀ frame ∈ nearer, Record.get? frame "_index" = none)
      (found : Record.get? holder "_index" = some v) :
      LeadsTo r frames (.frame (nearer ++ holder :: rest)) "_index" σ (.value v) σ
  | entry {frame : Record Value} {rest : List (Record Value)} {name : String} {v : Value}
      {σ : LazyStore} (own : name ∉ ["_", "_root", "_params", "_index"])
      (found : Record.get? frame name = some v) :
      LeadsTo r frames (.frame (frame :: rest)) name σ (.value v) σ
  | member {v w : Value} {fields : Record Value} {name : String} {σ : LazyStore}
      (record : v.fields? = some fields) (found : Record.get? fields name = some w) :
      LeadsTo r frames (.value v) name σ (.value w) σ
  | lazyMember {handle : Handle} {keys : List String} {name : String} {w : Value}
      {σ τ : LazyStore} (found : r.member? handle name σ = .ok (some w) τ) :
      LeadsTo r frames (.value (.lazyContainer handle keys)) name σ (.value w) τ

/-- Where names lead, one after another. -/
inductive Follows (r : Resolver) (frames : List (Record Value)) :
    Denoted → List String → LazyStore → Denoted → LazyStore → Prop
  | here {d : Denoted} {σ : LazyStore} : Follows r frames d [] σ d σ
  | onward {d e f : Denoted} {name : String} {names : List String} {σ τ υ : LazyStore}
      (step : LeadsTo r frames d name σ e τ) (others : Follows r frames e names τ f υ) :
      Follows r frames d (name :: names) σ f υ

private theorem root_concat (inner : List (Record Value)) (outermost params : Record Value) :
    root (inner ++ [outermost, params]) = .frame [outermost, params] := by
  simp [root]

private theorem parameters_concat (inner : List (Record Value)) (params : Record Value) :
    parameters (inner ++ [params]) = .frame [params] := by
  simp [parameters]

private theorem leadsTo_root (nonempty : frames ≠ []) (stack : List (Record Value))
    (σ : LazyStore) :
    LeadsTo r frames (.frame stack) "_root" σ (root frames) σ := by
  rcases List.eq_nil_or_concat frames with none | ⟨front, params, rfl⟩
  · exact absurd none nonempty
  · rcases List.eq_nil_or_concat front with rfl | ⟨inner, outermost, rfl⟩
    · exact .bareRoot rfl
    · have last : (inner.concat outermost).concat params = inner ++ [outermost, params] := by simp
      rw [last, root_concat]
      exact .root rfl

private theorem leadsTo_parameters (nonempty : frames ≠ []) (stack : List (Record Value))
    (σ : LazyStore) : LeadsTo r frames (.frame stack) "_params" σ (parameters frames) σ := by
  rcases List.eq_nil_or_concat frames with none | ⟨inner, params, rfl⟩
  · exact absurd none nonempty
  · rw [List.concat_eq_append, parameters_concat]
    exact .parameters rfl

private theorem leadsTo_index {stack : List (Record Value)} {v : Value}
    (held : (stack.findSome? fun f => Record.get? f "_index") = some v) (σ : LazyStore) :
    LeadsTo r frames (.frame stack) "_index" σ (.value v) σ := by
  obtain ⟨nearer, holder, rest, rfl, here, absent⟩ := List.findSome?_eq_some_iff.mp held
  exact .elementIndex absent here

private theorem leadsTo_entry {stack : List (Record Value)} {name : String} {v : Value}
    (own : name ∉ ["_", "_root", "_params", "_index"])
    (held : Record.get? (stack.headD []) name = some v) (σ : LazyStore) :
    LeadsTo r frames (.frame stack) name σ (.value v) σ := by
  cases stack with
  | nil => cases held
  | cons frame rest => exact .entry own held

private theorem leadsTo_of_ofFrame (nonempty : frames ≠ []) {stack : List (Record Value)}
    {name : String}
    {d : Denoted} (found : ofFrame frames stack name = .ok d) (σ : LazyStore) :
    LeadsTo r frames (.frame stack) name σ d σ := by
  unfold ofFrame at found
  split_ifs at found with parent toRoot toParameters index
  · subst parent
    split at found
    · cases found
      exact .parent
    · cases found
  · subst toRoot
    cases found
    exact leadsTo_root nonempty stack σ
  · subst toParameters
    cases found
    exact leadsTo_parameters nonempty stack σ
  · subst index
    split at found
    · rename_i v held
      cases found
      exact leadsTo_index held σ
    · cases found
  · split at found
    · rename_i v held
      cases found
      exact leadsTo_entry (by simp [parent, toRoot, toParameters, index]) held σ
    · cases found

private theorem ofFrame_of_leadsTo {stack : List (Record Value)} {name : String} {d : Denoted}
    {σ τ : LazyStore} (leads : LeadsTo r frames (.frame stack) name σ d τ) :
    ofFrame frames stack name = .ok d ∧ σ = τ := by
  cases leads with
  | parent => exact ⟨rfl, rfl⟩
  | root all =>
      rw [all]
      simp [ofFrame, root_concat]
  | bareRoot all =>
      rw [all]
      exact ⟨rfl, rfl⟩
  | parameters all =>
      rw [all]
      simp [ofFrame, parameters_concat]
  | @elementIndex nearer rest holder v _ absent found =>
      have nearest : (nearer ++ holder :: rest).findSome? (fun f => Record.get? f "_index") =
          some v := List.findSome?_eq_some_iff.mpr ⟨nearer, holder, rest, rfl, found, absent⟩
      simp [ofFrame, nearest]
  | entry own found =>
      simp only [List.mem_cons, List.not_mem_nil, or_false, not_or] at own
      simp [ofFrame, own, found]

end Denoted

/-! ## The value of a path -/

namespace Expr

open Denoted

variable {r : Resolver} {scope : Scope} {names : List String} {σ τ : LazyStore}

private theorem attr_record {v : Value} {fields : Record Value} (record : v.fields? = some fields)
    (name : String) :
    r.attr v name =
      match Record.get? fields name with
      | some w => pure w
      | none => throw (.unevaluable (.noField name)) := by
  cases v <;> cases record <;> rfl

private theorem attr_lazy (handle : Handle) (keys : List String) (name : String) :
    r.attr (.lazyContainer handle keys) name = (r.member? handle name).unplaced >>= fun
      | some w => pure w
      | none => throw (.unevaluable (.noField name)) := by
  rfl

private theorem unplaced_eq_ok_iff {α : Type} {x : Lookup Failure α} {a : α} :
    x.unplaced σ = .ok a τ ↔ x σ = .ok a τ := by
  unfold Lookup.unplaced
  cases x σ <;> simp

private theorem attr_eq_ok_iff {frames : List (Record Value)} {v w : Value} {name : String} :
    r.attr v name σ = .ok w τ ↔ LeadsTo r frames (.value v) name σ (.value w) τ := by
  constructor
  · intro read
    cases v with
    | container fields | flags fields =>
        rw [attr_record rfl] at read
        cases held : Record.get? fields name with
        | none => simp [held] at read
        | some member =>
            rw [held] at read
            obtain ⟨rfl, rfl⟩ := Run.pure_eq_ok_iff.mp read
            exact .member rfl held
    | lazyContainer handle keys =>
        obtain ⟨found, ρ, looked, taken⟩ := Run.bind_eq_ok_iff.mp read
        cases found with
        | none => simp at taken
        | some member =>
            obtain ⟨rfl, rfl⟩ := Run.pure_eq_ok_iff.mp taken
            exact .lazyMember (unplaced_eq_ok_iff.mp looked)
    | _ => cases read
  · intro leads
    cases leads with
    | member record found =>
        rw [attr_record record, found]
        rfl
    | lazyMember found =>
        rw [attr_lazy, Run.bind_of_ok (unplaced_eq_ok_iff.mpr found)]
        rfl

private theorem member_frame (stack : List (Record Value)) (name : String) :
    member r scope (.frame stack) name = Lookup.ofExcept (ofFrame scope.frames stack name) := rfl

private theorem member_value (v : Value) (name : String) :
    member r scope (.value v) name = do return .value (← r.attr v name) := rfl

private theorem member_eq_ok_iff (nonempty : scope.frames ≠ []) {d e : Denoted} {name : String} :
    member r scope d name σ = .ok e τ ↔ LeadsTo r scope.frames d name σ e τ := by
  constructor
  · intro found
    cases d with
    | frame stack =>
        rw [member_frame] at found
        cases denoted : ofFrame scope.frames stack name with
        | error fault =>
            rw [denoted] at found
            cases found
        | ok d =>
            rw [denoted] at found
            obtain ⟨rfl, rfl⟩ := Run.pure_eq_ok_iff.mp found
            exact leadsTo_of_ofFrame nonempty denoted _
    | value v =>
        rw [member_value] at found
        obtain ⟨w, ρ, read, taken⟩ := Run.bind_eq_ok_iff.mp found
        obtain ⟨rfl, rfl⟩ := Run.pure_eq_ok_iff.mp taken
        exact attr_eq_ok_iff.mp read
  · intro leads
    cases d with
    | frame stack =>
        obtain ⟨denoted, rfl⟩ := ofFrame_of_leadsTo leads
        rw [member_frame, denoted]
        rfl
    | value v =>
        obtain ⟨w, rfl⟩ : ∃ w, e = .value w := by cases leads <;> exact ⟨_, rfl⟩
        rw [member_value, Run.bind_of_ok (attr_eq_ok_iff.mpr leads)]
        rfl

private theorem denote_foldl_iff (nonempty : scope.frames ≠ []) (names : List String) (base : Expr)
    {e : Denoted} :
    (names.foldl attr base).denote r scope σ = .ok e τ ↔
      ∃ d ρ, base.denote r scope σ = .ok d ρ ∧ Follows r scope.frames d names ρ e τ := by
  induction names generalizing base with
  | nil =>
      constructor
      · intro has
        exact ⟨e, τ, has, .here⟩
      · rintro ⟨d, ρ, has, follows⟩
        cases follows
        exact has
  | cons name rest ih =>
      rw [List.foldl_cons, ih, denote]
      constructor
      · rintro ⟨d, ρ, has, follows⟩
        obtain ⟨first, between, before, step⟩ := Run.bind_eq_ok_iff.mp has
        exact ⟨first, between, before, .onward ((member_eq_ok_iff nonempty).mp step) follows⟩
      · rintro ⟨first, between, before, follows⟩
        cases follows with
        | onward step others =>
            have here := (member_eq_ok_iff nonempty).mpr step
            exact ⟨_, _, (Run.bind_of_ok before (member r scope · name)).trans here, others⟩

private theorem evaluate_along (names : List String) (path : Path) :
    (along names).evaluate r scope path = do
      return (← ((along names).denote r scope).atPath path).toValue := by
  unfold evaluate
  split
  · rename_i run form
    rcases List.eq_nil_or_concat names with rfl | ⟨front, last, rfl⟩ <;> simp [along] at form
  · rfl

/-- The value of a path is what its names lead to. -/
private theorem evaluate_along_iff (nonempty : scope.frames ≠ []) {path : Path} {v : Value} :
    (along names).evaluate r scope path σ = .ok v τ ↔
      ∃ d, Follows r scope.frames (.frame scope.frames) names σ d τ ∧ d.toValue = v := by
  have denoted : ∀ d, (along names).denote r scope σ = .ok d τ ↔
      Follows r scope.frames (.frame scope.frames) names σ d τ := by
    intro d
    rw [along, denote_foldl_iff nonempty]
    constructor
    · rintro ⟨start, ρ, here, follows⟩
      rw [denote] at here
      obtain ⟨rfl, rfl⟩ := Run.pure_eq_ok_iff.mp here
      exact follows
    · intro follows
      exact ⟨_, _, by rw [denote]; rfl, follows⟩
  rw [evaluate_along]
  constructor
  · intro has
    obtain ⟨d, ρ, placed, taken⟩ := Run.bind_eq_ok_iff.mp has
    obtain ⟨rfl, rfl⟩ := Run.pure_eq_ok_iff.mp taken
    refine ⟨d, (denoted d).mp ?_, rfl⟩
    unfold Lookup.atPath at placed
    split at placed <;> simp_all
  · rintro ⟨d, follows, rfl⟩
    simp [Lookup.atPath, (denoted d).mpr follows, bind, EStateM.bind, pure, EStateM.pure]

/-- Where the names lead nowhere the path fails, at the place of the component. -/
private theorem failure_of_along {path : Path} {failure : Failure}
    (fails : (along names).evaluate r scope path σ = .error failure τ) :
    ∃ fault : Fault, failure = fault.atPath path := by
  rw [evaluate_along] at fails
  unfold Lookup.atPath at fails
  cases has : (along names).denote r scope σ <;>
    simp [bind, EStateM.bind, pure, EStateM.pure, has] at fails
  exact ⟨_, fails.1.symm⟩

/-- A path names exactly its segments.  Spelled with `this.` in front it always does; spelled
without it does so unless the first segment begins with the keyword, which is then cut from
that segment.  The chain of the segments prints as the path with `this.` in front, and its value
is what the names lead to, one after another. -/
theorem paths_name_segments {first : String} {others : List String}
    (segments : ∀ name ∈ first :: others, IsSegment name) (proper : first ≠ "this") :
    let names := first :: others
    let path := ".".intercalate names
    ofPath ("this." ++ path) = along names ∧
    (ofPath path = along names ↔ ¬ "this".toList <+: first.toList) ∧
    (∀ rest, first = "this" ++ rest → ofPath path = along (rest :: others)) ∧
    (along names).text = "this." ++ path ∧
    ∀ (r : Resolver) (scope : Scope) (place : Path) (σ : LazyStore), scope.frames ≠ [] →
      (∀ v τ, (along names).evaluate r scope place σ = .ok v τ ↔
        ∃ d, Follows r scope.frames (.frame scope.frames) names σ d τ ∧ d.toValue = v) ∧
      ∀ failure τ, (along names).evaluate r scope place σ = .error failure τ →
        ∃ fault : Fault, failure = fault.atPath place := by
  intro names path
  have nonempty : names ≠ [] := List.cons_ne_nil first others
  have cut : ∀ rest, first = "this" ++ rest → ofPath path = along (rest :: others) := by
    rintro rest rfl
    apply ofPath_cut _ segments
    rintro rfl
    exact proper rfl
  refine ⟨ofPath_keyword nonempty segments, ⟨?_, ofPath_plain segments⟩, cut, text_along nonempty,
    fun r scope place σ framed => ⟨fun v τ => evaluate_along_iff framed,
      fun failure τ => failure_of_along⟩⟩
  -- What is left of the first segment is shorter, so the two chains differ.
  rintro whole ⟨letters, parts⟩
  have begins : first = "this" ++ String.ofList letters := by
    apply String.toList_injective
    simpa using parts.symm
  rw [cut _ begins] at whole
  have same : String.ofList letters = first := (List.cons.inj (along_injective whole)).1
  have lengths := congrArg String.length (same.trans begins)
  simp at lengths

/-- A field of the structure outside whose name begins with the keyword. -/
theorem paths_name_segments_outside :
    let r := (Engine.ofDefinitions []).resolver
    let header : Value := .container [("size", .int 5)]
    let scope : Scope := ⟨[[], [("thisHeader", header)], []], none, none⟩
    ofPath "_.thisHeader.size" = along ["_", "thisHeader", "size"] ∧
      (along ["_", "thisHeader", "size"]).text = "this._.thisHeader.size" ∧
      (along ["_", "thisHeader", "size"]).evaluate r scope .this .empty = .ok (.int 5) .empty := by
  intro r header scope
  have segments : ∀ name ∈ ["_", "thisHeader", "size"], IsSegment name := by
    simp only [List.forall_mem_cons]
    exact ⟨⟨by decide, by decide⟩, ⟨by decide, by decide⟩, ⟨by decide, by decide⟩, by simp⟩
  obtain ⟨-, plain, -, text, value⟩ := paths_name_segments segments (by decide)
  have framed : scope.frames ≠ [] := List.cons_ne_nil _ _
  refine ⟨plain.mpr (by decide), text, ((value r scope .this .empty framed).1 _ _).mpr ?_⟩
  exact ⟨_, .onward .parent (.onward (.entry (by decide) rfl) (.onward (.member rfl rfl) .here)),
    rfl⟩

/-- A field whose name begins with the keyword is not found under its name alone: another one
is read, or none. -/
theorem path_loses_keyword :
    let r := (Engine.ofDefinitions []).resolver
    let scope : Scope := ⟨[[("thisx", .int 1), ("x", .int 2)]], none, none⟩
    IsSegment "thisx" ∧ "thisx" ≠ "this" ∧ (ofPath "thisx").text = "this.x" ∧
      (ofPath "thisx").evaluate r scope .this .empty = .ok (.int 2) .empty ∧
      (ofPath "this.thisx").text = "this.thisx" ∧
      (ofPath "this.thisx").evaluate r scope .this .empty = .ok (.int 1) .empty := by
  refine ⟨⟨by decide, by decide⟩, by decide, ?_, ?_, ?_, ?_⟩ <;> rfl

end Expr

end BinaryFormat
