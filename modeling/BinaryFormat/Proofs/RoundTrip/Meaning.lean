import BinaryFormat.Proofs.RoundTrip.Tame
import BinaryFormat.Proofs.RoundTrip.Write

/-!
# What encodes is written and read

`Encodes` is put together like the codecs are, so each of its rules is an
application of what was shown of the codec: the bytes that it names are those
that building writes, and parsing reads them back as the value.  The value, or
anything that extends it, encodes to the same bytes once more.
-/

namespace BinaryFormat

namespace Format

variable (e : Engine) (defs : Definitions)

private theorem EncodesFields.keys_record {near : Surroundings} {input : Record Value}
    {fields : List Format} {record : Record Value} {data : List UInt8}
    (h : EncodesFields near input fields record data) : Record.keys record = fieldNames fields := by
  induction fields generalizing near record data with
  | nil =>
      cases h
      rfl
  | cons f fields ih =>
      cases h with
      | named hasName _ _ _ tail =>
          rw [fieldNames, List.filterMap_cons_some hasName]
          exact congrArg _ (ih tail)
      | unnamed hasNone _ _ tail =>
          rw [fieldNames, List.filterMap_cons_none hasNone]
          exact ih tail

private theorem EncodesEach.length_eq {near : Surroundings} {of : Format} {us vs : List Value}
    {parts : List (List UInt8)} : EncodesEach near of us vs parts → us.length = vs.length
  | .nil => rfl
  | .cons _ tail => congrArg Nat.succ tail.length_eq

/-! ## Reading -/

theorem proper_ofNat {n : Nat} (small : n ≤ Value.maxSize) : (Value.ofNat n).Proper := by
  have limit : Value.maxSize < Nat.pow 2 127 := by decide
  simp only [Value.ofNat, Value.Proper, Value.fitsInt, Value.minInt, Value.maxInt,
    Bool.and_eq_true]
  refine ⟨decide_eq_true ?_, decide_eq_true ?_⟩ <;> omega

private theorem fitsInt_of_proper {u : Value} {n : Int} (proper : u.Proper)
    (given : u.int? = some n) :
    Value.fitsInt n = true := by
  cases u with
  | int k =>
      cases given
      exact proper
  | bool b =>
      cases b <;> cases given <;> decide
  | _ => cases given

private theorem properItems_iff {items : List Value} :
    Value.ProperItems items ↔ ∀ u ∈ items, u.Proper := by
  induction items with
  | nil => simp [Value.ProperItems]
  | cons u rest ih => simp [Value.ProperItems, ih]

theorem properFields_iff {fields : List (String × Value)} :
    Value.ProperFields fields ↔ ∀ entry ∈ fields, entry.2.Proper := by
  induction fields with
  | nil => simp [Value.ProperFields]
  | cons entry rest ih => simp [Value.ProperFields, ih]

theorem proper_elements {u : Value} {us : List Value} (proper : u.Proper)
    (given : u.elements? = some us) : us.length ≤ Value.maxSize ∧ Value.ProperItems us := by
  cases u with
  | list items =>
      cases given
      exact proper
  | bytes data =>
      cases given
      have room : data.length ≤ Value.maxSize := proper
      refine ⟨by simpa [Value.ofBytes] using room, properItems_iff.mpr ?_⟩
      intro u hu
      obtain ⟨b, -, rfl⟩ := List.mem_map.mp hu
      have small : b.toNat ≤ Value.maxSize := Nat.le_trans (Nat.le_of_lt b.toNat_lt) (by decide)
      exact proper_ofNat small
  | _ => cases given

theorem proper_entries {u : Value} {input : Record Value} (proper : u.Proper)
    (given : u.entries? = some input) :
    (Record.keys input).Nodup ∧ Value.ProperFields input := by
  cases u with
  | container fields | flags fields =>
      cases given
      exact proper
  | none =>
      cases given
      exact ⟨List.nodup_nil, trivial⟩
  | _ => cases given

theorem proper_given {input : Record Value} {f : Format} {name : String} {u : Value}
    (proper : Value.ProperFields input)
    (given : input.get? name = some u ∨
      input.get? name = none ∧ f.isSelfSupplying = true ∧ u = .none) : u.Proper := by
  rcases given with found | ⟨-, -, rfl⟩
  · exact properFields_iff.mp proper (name, u) (Record.mem_of_get?_eq_some found)
  · trivial

private theorem Encodes.length_overhead {near : Surroundings} {length : Format} {inclusive : Bool}
    {extra : Nat} {u v : Value} {stored : List UInt8} (h : Overhead inclusive length extra)
    (counted : Encodes false near length u v stored) : extra ≤ stored.length := by
  cases inclusive with
  | false =>
      simp only [Overhead, Bool.false_eq_true, if_false] at h
      omega
  | true =>
      simp only [Overhead, if_true] at h
      obtain ⟨-, signed, endian, rfl⟩ := h
      generalize hw : Expr.const (.int (extra : Nat)) = width at counted
      cases counted with
      | integer =>
          cases hw
          simp [Integer.length_inOrder, Bytes.length_ofNat]

mutual

theorem Encodes.reads {toEnd : Bool} {near : Surroundings} {f : Format} {u v : Value}
    {data : List UInt8} :
    Encodes toEnd near f u v data → u.Proper → data.length ≤ Value.maxSize →
      (f.codec e defs).Reads toEnd near v data
  | .integer positive narrow given fits, proper, _ =>
      Codec.reads_integer positive narrow fits (fitsInt_of_proper proper given)
  | .flag _, _, _ => Codec.reads_flag
  | .varint _ small _, _, _ => Codec.reads_varint small
  | .zigzag given, proper, _ => Codec.reads_zigzag (fitsInt_of_proper proper given)
  | .bytes size, _, _ => Codec.reads_bytes size
  | .literal small, _, _ => Codec.reads_literal small
  | .prefixedText encoded counted, _, room => by
      rw [List.length_append] at room
      exact Codec.reads_prefixedText encoded (by omega)
        (Encodes.reads counted (proper_ofNat (by omega)) (by omega))
  | .terminatedText encoded units clear, _, _ => Codec.reads_terminatedText encoded units clear
  | .named inner, proper, room => by
      have h := Encodes.reads inner proper room
      exact h
  | .documented inner, proper, room => by
      have h := Encodes.reads inner proper room
      exact h
  | .array given size each, proper, room => by
      have items := (proper_elements proper given).2
      rw [each.length_eq] at size
      exact Codec.reads_array size (EncodesEach.reads each items room)
  | .prefixedArray given small counted each, proper, room => by
      have items := (proper_elements proper given).2
      rw [List.length_append] at room
      have first := Encodes.reads counted (proper_ofNat small) (by omega)
      have rest := EncodesEach.reads each items (by omega)
      rw [each.length_eq] at small first
      exact Codec.reads_prefixedArray small first rest
  | @Encodes.enclosed _ _ _ _ _ _ _ _ data _ extra inner overhead counted, proper, room => by
      have own := counted.length_overhead overhead
      rw [List.length_append] at room
      have whole : Size.add data.length extra = data.length + extra :=
        Size.add_of_le (show data.length + extra ≤ Value.maxSize by omega)
      have first := Encodes.reads counted (proper_ofNat (by omega)) (by omega)
      rw [whole] at first
      exact Codec.reads_prefixed (Encodes.reads inner proper (by omega)) overhead (by omega) first
  | .fixedSized inner fit small, proper, _ =>
      Codec.reads_fixedSized (Encodes.reads inner proper (Nat.le_trans fit small)) fit small
  | .padded inner fit small, proper, _ =>
      Codec.reads_padded (Encodes.reads inner proper (Nat.le_trans fit small)) fit small
  | .aligned inner positive small, proper, room => by
      rw [List.length_append] at room
      exact Codec.reads_aligned (Encodes.reads inner proper (by omega)) positive small
  | .sequence given each, proper, room =>
      Codec.reads_sequence (EncodesItems.reads each (proper_elements proper given).2 room)
  | .struct given _ distinct _ each, proper, room => by
      refine Codec.reads_struct ?_ (EncodesFields.reads each (proper_entries proper given).2 room)
      rw [each.keys_record]
      exact distinct.1
  | .branch shown known inner, proper, room => by
      refine Codec.reads_branch shown known ?_
      have h := Encodes.reads inner proper room
      split at h <;> simp_all
  | .switch shown known eager chosen inner, proper, room =>
      Codec.reads_switch shown known eager chosen (Encodes.reads inner proper room)
  | .rebuild _ _ small inner, _, room =>
      Codec.reads_rebuild (Encodes.reads inner (proper_ofNat small) room)
  | .pass, _, _ => Codec.reads_pass
  | .greedyBytes, _, _ => Codec.reads_greedyBytes
  | .greedyRange given small each productive plain known, proper, room => by
      have items := (proper_elements proper given).2
      rw [each.length_eq] at small
      exact Codec.reads_greedyRange (Plain.tame e defs _ _ _ plain) known
        (EncodesEach.reads each items room) productive small

theorem EncodesEach.reads {near : Surroundings} {of : Format} {us vs : List Value}
    {parts : List (List UInt8)} :
    EncodesEach near of us vs parts → Value.ProperItems us →
      parts.flatten.length ≤ Value.maxSize →
      List.Forall₂ ((of.codec e defs).Reads false near) vs parts
  | .nil, _, _ => .nil
  | .cons head tail, proper, room => by
      rw [List.flatten_cons, List.length_append] at room
      exact .cons (Encodes.reads head proper.1 (by omega))
        (EncodesEach.reads tail proper.2 (by omega))

theorem EncodesItems.reads {items : List Format} {us vs : List Value} {data : List UInt8} :
    EncodesItems items us vs data → Value.ProperItems us → data.length ≤ Value.maxSize →
      Codec.ReadsItems (parts e defs items) vs data
  | .nil, _, _ => .nil
  | .cons head tail, proper, room => by
      rw [List.length_append] at room
      exact .cons (Encodes.reads head proper.1 (by omega))
        (EncodesItems.reads tail proper.2 (by omega))

theorem EncodesFields.reads {near : Surroundings} {input : Record Value}
    {fields : List Format} {record : Record Value} {data : List UInt8} :
    EncodesFields near input fields record data → Value.ProperFields input →
      data.length ≤ Value.maxSize → Codec.ReadsFields near (parts e defs fields) record data
  | .nil, _, _ => .nil
  | .named hasName flat given head tail, proper, room => by
      rw [List.length_append] at room
      exact .named hasName flat (Encodes.reads head (proper_given proper given) (by omega))
        (EncodesFields.reads tail proper (by omega))
  | .unnamed hasNone flat head tail, proper, room => by
      rw [List.length_append] at room
      exact .unnamed hasNone flat (Encodes.reads head trivial (by omega))
        (EncodesFields.reads tail proper (by omega))

end

/-! ## Writing -/

private theorem Encodes.list_of_holdsList {toEnd : Bool} {near : Surroundings} {f : Format}
    {u v : Value} {data : List UInt8} (h : Encodes toEnd near f u v data)
    (list : f.holdsList = true) :
    ∃ us vs, u.elements? = some us ∧ v = .list vs ∧ us.length = vs.length := by
  fun_induction holdsList f with
  | case1 count of discard =>
      cases h with
      | array given _ each => exact ⟨_, _, given, rfl, each.length_eq⟩
  | case2 count of =>
      cases h with
      | prefixedArray given _ _ each => exact ⟨_, _, given, rfl, each.length_eq⟩
  | case3 name of ih =>
      cases h with
      | named inner => exact ih inner list
  | case4 docs of ih =>
      cases h with
      | documented inner => exact ih inner list
  | case5 => cases list

theorem length?_of_elements {u : Value} {us : List Value} (h : u.elements? = some us) :
    u.length? = some us.length := by
  cases u with
  | list items =>
      cases h
      rfl
  | bytes data =>
      cases h
      simp [Value.length?, Value.ofBytes]
  | _ => cases h

theorem mem_fieldNames_of_mem {fields : List Format} {f : Format} {name : String}
    (hf : f ∈ fields) (hn : f.name? = some name) : name ∈ fieldNames fields :=
  List.mem_filterMap.mpr ⟨f, hf, hn⟩

theorem holdsList_of_mem_listNames {fields : List Format} {x : String}
    (distinct : (fieldNames fields).Nodup) (h : x ∈ listNames fields) :
    ∀ f ∈ fields, f.name? = some x → f.holdsList = true := by
  obtain ⟨g, hg, hx⟩ := List.mem_filterMap.mp h
  obtain ⟨mem, holds⟩ := List.mem_filter.mp hg
  clear h hg
  induction fields with
  | nil => cases mem
  | cons first rest ih =>
      obtain ⟨distinct, apart⟩ := distinct_rest distinct
      intro f hf hn
      rcases List.mem_cons.mp mem with rfl | later <;>
        rcases List.mem_cons.mp hf with rfl | behind
      · exact holds
      · exact absurd (mem_fieldNames_of_mem behind hn) (apart x hx)
      · exact absurd (mem_fieldNames_of_mem later hx) (apart x hn)
      · exact ih distinct later f behind hn

/-- The lengths that fields may refer to are those of the lists in the record. -/
def Lists (near : Surroundings) (input : Record Value) (fields : List Format) : Prop :=
  ∀ x n, near.lengths x = some n → (input.get? x).bind Value.length? = some n ∧
    ∀ f ∈ fields, f.name? = some x → f.holdsList = true

theorem Lists.tail {near : Surroundings} {input : Record Value} {f : Format}
    {fields : List Format} (h : Lists near input (f :: fields)) : Lists near input fields := by
  intro x n known
  obtain ⟨length, lists⟩ := h x n known
  exact ⟨length, fun g hg => lists g (List.mem_cons_of_mem f hg)⟩

theorem Lists.head {near : Surroundings} {input : Record Value} {f : Format}
    {fields : List Format} {name : String} {u v : Value} {part : List UInt8}
    (h : Lists near input (f :: fields)) (hasName : f.name? = some name)
    (given : input.get? name = some u ∨
      input.get? name = none ∧ f.isSelfSupplying = true ∧ u = .none)
    (encoded : Encodes false near f u v part) :
    ∀ n, near.lengths name = some n → ∃ vs, v = .list vs ∧ vs.length = n := by
  intro n known
  obtain ⟨length, lists⟩ := h name n known
  obtain ⟨us, vs, elements, rfl, same⟩ :=
    encoded.list_of_holdsList (lists f List.mem_cons_self hasName)
  refine ⟨vs, rfl, ?_⟩
  rcases given with found | ⟨missing, -, -⟩
  · rw [found, Option.bind_some, length?_of_elements elements] at length
    cases length
    exact same.symm
  · rw [missing] at length
    cases length

mutual

theorem Encodes.writes {toEnd : Bool} {near : Surroundings} {f : Format} {u v : Value}
    {data : List UInt8} :
    Encodes toEnd near f u v data → (f.codec e defs).Writes near u v data
  | .integer positive narrow given fits => Codec.writes_integer positive narrow given fits
  | .flag given => Codec.writes_flag given
  | .varint given small _ => Codec.writes_varint given small
  | .zigzag given => Codec.writes_zigzag given
  | .bytes size => Codec.writes_bytes size
  | .literal small => Codec.writes_literal small
  | .prefixedText encoded counted =>
      Codec.writes_prefixedText encoded (Encodes.writes counted)
  | .terminatedText encoded _ clear => Codec.writes_terminatedText encoded clear
  | .named inner => by
      have h := Encodes.writes inner
      exact h
  | .documented inner => by
      have h := Encodes.writes inner
      exact h
  | .array given size each => Codec.writes_array given size (EncodesEach.writes each)
  | .prefixedArray given _ counted each =>
      Codec.writes_prefixedArray given (Encodes.writes counted) (EncodesEach.writes each)
  | .enclosed inner overhead counted =>
      Codec.writes_prefixed (Encodes.writes inner) overhead (Encodes.writes counted)
  | .fixedSized inner room small => Codec.writes_fixedSized (Encodes.writes inner) room small
  | .padded inner room small => Codec.writes_padded (Encodes.writes inner) room small
  | .aligned inner positive small => Codec.writes_aligned (Encodes.writes inner) positive small
  | .sequence given each => Codec.writes_sequence given (EncodesItems.writes each)
  | .struct given separate distinct lists each => by
      refine Codec.writes_struct given separate ?_ (fun x n h => (lists x n h).2)
        (EncodesFields.writes each ?_)
      · rw [each.keys_record]
        exact distinct.1
      · intro x n h
        obtain ⟨mem, length⟩ := lists x n h
        exact ⟨length, holdsList_of_mem_listNames distinct.1 mem⟩
  | .branch shown known inner => by
      refine Codec.writes_branch shown known ?_
      have h := Encodes.writes inner
      split at h <;> simp_all
  | .switch shown known eager chosen inner =>
      Codec.writes_switch shown known eager chosen (Encodes.writes inner)
  | .rebuild shown known _ inner => Codec.writes_rebuild shown known (Encodes.writes inner)
  | .pass => Codec.writes_pass
  | .greedyBytes => Codec.writes_greedyBytes
  | .greedyRange given small each _ _ _ =>
      Codec.writes_greedyRange given small (EncodesEach.writes each) false

theorem EncodesEach.writes {near : Surroundings} {of : Format} {us vs : List Value}
    {parts : List (List UInt8)} :
    EncodesEach near of us vs parts → Codec.WritesEach near (of.codec e defs) us vs parts
  | .nil => .nil
  | .cons head tail => .cons (Encodes.writes head) (EncodesEach.writes tail)

theorem EncodesItems.writes {items : List Format} {us vs : List Value} {data : List UInt8} :
    EncodesItems items us vs data → Codec.WritesItems (parts e defs items) us vs data
  | .nil => .nil
  | .cons head tail => .cons (Encodes.writes head) (EncodesItems.writes tail)

theorem EncodesFields.writes {near : Surroundings} {input : Record Value}
    {fields : List Format} {record : Record Value} {data : List UInt8} :
    EncodesFields near input fields record data → Lists near input fields →
      Codec.WritesFields input near (parts e defs fields) record data
  | .nil, _ => .nil
  | .named hasName flat given head tail, lists =>
      .named hasName flat given (lists.head hasName given head) (Encodes.writes head)
        (EncodesFields.writes tail lists.tail)
  | .unnamed hasNone flat head tail, lists =>
      .unnamed hasNone flat (Encodes.writes head) (EncodesFields.writes tail lists.tail)

end

/-! ## Encoding again -/

theorem exists_list_of_extends {exact : Bool} {vs : List Value} {w : Value}
    (h : (Value.list vs).Extends exact w) :
    ∃ ws, w = .list ws ∧ Value.ExtendsItems exact vs ws := by
  cases w with
  | list ws =>
      simp only [Value.Extends] at h
      exact ⟨ws, rfl, h⟩
  | _ => simp [Value.Extends] at h

theorem exists_container_of_extends {exact : Bool} {fs : Record Value} {w : Value}
    (h : (Value.container fs).Extends exact w) :
    ∃ gs, w = .container gs ∧ (Record.keys gs).Nodup ∧ Value.ExtendsFields exact fs gs := by
  cases w with
  | container gs =>
      simp only [Value.Extends] at h
      exact ⟨gs, rfl, h.1, h.2.1⟩
  | _ => simp [Value.Extends] at h

theorem eq_of_extends_atom {exact : Bool} {v w : Value} (h : v.Extends exact w)
    (atom : v.elements? = none ∨ ∃ data, v = .bytes data) (plain : v.fields? = none) :
    v = w := by
  cases v <;> cases w <;> simp_all [Value.Extends, Value.elements?, Value.fields?]

private theorem EncodesFields.mem_list {near : Surroundings} {input : Record Value}
    {fields : List Format} {record : Record Value} {data : List UInt8} {x : String} {n : Nat} :
    EncodesFields near input fields record data → Lists near input fields →
      x ∈ fieldNames fields → near.lengths x = some n →
      ∃ vs, (x, .list vs) ∈ record ∧ vs.length = n
  | .nil, _, mem, _ => by cases mem
  | .named hasName flat given head tail, lists, mem, known => by
      rcases mem_fieldNames_cons.mp mem with here | later
      · rw [hasName] at here
        cases here
        obtain ⟨vs, rfl, length⟩ := lists.head hasName given head n known
        exact ⟨vs, List.mem_cons_self, length⟩
      · obtain ⟨vs, mem, length⟩ := tail.mem_list lists.tail later known
        exact ⟨vs, List.mem_cons_of_mem _ mem, length⟩
  | .unnamed hasNone flat head tail, lists, mem, known => by
      rcases mem_fieldNames_cons.mp mem with here | later
      · rw [hasNone] at here
        cases here
      · exact tail.mem_list lists.tail later known

theorem EncodesFields.entries {near : Surroundings} {input record gs : Record Value}
    {fields : List Format} {data : List UInt8} {exact : Bool}
    (each : EncodesFields near input fields record data) (distinct : WellNamed fields)
    (exts : Value.ExtendsFields exact record gs) {k : String} {x : Value}
    (hx : (k, x) ∈ record) : ∃ y, Record.get? gs k = some y ∧ x.Extends exact y := by
  refine Value.extendsFields_iff.mp exts k x hx (distinct.2 k ?_)
  rw [← each.keys_record]
  exact List.mem_map.mpr ⟨(k, x), hx, rfl⟩

private theorem mem_fieldNames_of_listNames {fields : List Format} {x : String}
    (h : x ∈ listNames fields) : x ∈ fieldNames fields := by
  obtain ⟨f, hf, hx⟩ := List.mem_filterMap.mp h
  exact mem_fieldNames_of_mem (List.mem_filter.mp hf).1 hx

/-- The lists of a record that was written are as long in what extends it. -/
private theorem EncodesFields.lists_again {lengths : String → Option Nat}
    {input record gs : Record Value} {fields : List Format} {data : List UInt8} {exact : Bool}
    (each : EncodesFields ⟨fun _ => none, lengths⟩ input fields record data)
    (distinct : WellNamed fields)
    (lists : ∀ x n, lengths x = some n → x ∈ listNames fields ∧
      (input.get? x).bind Value.length? = some n)
    (exts : Value.ExtendsFields exact record gs) :
    ∀ x n, lengths x = some n → x ∈ listNames fields ∧
      (Record.get? gs x).bind Value.length? = some n := by
  intro x n known
  have known' : Lists ⟨fun _ => none, lengths⟩ input fields := by
    intro x n h
    obtain ⟨mem, length⟩ := lists x n h
    exact ⟨length, holdsList_of_mem_listNames distinct.1 mem⟩
  obtain ⟨mem, -⟩ := lists x n known
  obtain ⟨vs, hx, length⟩ := each.mem_list known' (mem_fieldNames_of_listNames mem) known
  obtain ⟨y, found, ext⟩ := each.entries distinct exts hx
  obtain ⟨ws, rfl, exts⟩ := exists_list_of_extends ext
  refine ⟨mem, ?_⟩
  rw [found, Option.bind_some, Value.length?, ← exts.length_eq, length]

mutual

/-- A value that was written, or anything that extends it, is written alike. -/
theorem Encodes.again {toEnd : Bool} {near : Surroundings} {f : Format} {u v : Value}
    {data : List UInt8} {exact : Bool} {w : Value} :
    Encodes toEnd near f u v data → v.Extends exact w → Encodes toEnd near f w v data
  | .integer positive narrow _ fits, ext => by
      obtain rfl := Value.eq_of_extends_int ext
      exact .integer positive narrow rfl fits
  | .flag _, ext => by
      obtain rfl := eq_of_extends_atom ext (Or.inl rfl) rfl
      exact .flag rfl
  | .varint _ small narrow, ext => by
      obtain rfl := Value.eq_of_extends_int ext
      exact .varint rfl small narrow
  | .zigzag _, ext => by
      obtain rfl := Value.eq_of_extends_int ext
      exact .zigzag rfl
  | .bytes size, ext => by
      obtain rfl := eq_of_extends_atom ext (Or.inr ⟨_, rfl⟩) rfl
      exact .bytes size
  | .literal small, _ => .literal small
  | .prefixedText encoded counted, ext => by
      obtain rfl := eq_of_extends_atom ext (Or.inl rfl) rfl
      exact .prefixedText encoded counted
  | .terminatedText encoded units clear, ext => by
      obtain rfl := eq_of_extends_atom ext (Or.inl rfl) rfl
      exact .terminatedText encoded units clear
  | .named inner, ext => .named (Encodes.again inner ext)
  | .documented inner, ext => .documented (Encodes.again inner ext)
  | .array _ size each, ext => by
      obtain ⟨ws, rfl, exts⟩ := exists_list_of_extends ext
      rw [each.length_eq, exts.length_eq] at size
      exact .array rfl size (EncodesEach.again each exts)
  | .prefixedArray _ small counted each, ext => by
      obtain ⟨ws, rfl, exts⟩ := exists_list_of_extends ext
      have length := each.length_eq.trans exts.length_eq
      refine .prefixedArray rfl ?_ ?_ (EncodesEach.again each exts)
      · rwa [← length]
      · rwa [← length]
  | .enclosed inner overhead counted, ext =>
      .enclosed (Encodes.again inner ext) overhead counted
  | .fixedSized inner room small, ext => .fixedSized (Encodes.again inner ext) room small
  | .padded inner room small, ext => .padded (Encodes.again inner ext) room small
  | .aligned inner positive small, ext => .aligned (Encodes.again inner ext) positive small
  | .sequence _ each, ext => by
      obtain ⟨ws, rfl, exts⟩ := exists_list_of_extends ext
      exact .sequence rfl (EncodesItems.again each exts)
  | .struct _ _ distinct lists each, ext => by
      obtain ⟨gs, rfl, separate, exts⟩ := exists_container_of_extends ext
      exact .struct rfl separate distinct (each.lists_again distinct lists exts)
        (EncodesFields.again each (fun k x hx => each.entries distinct exts hx))
  | .branch shown known inner, ext => .branch shown known (Encodes.again inner ext)
  | .switch shown known eager chosen inner, ext =>
      .switch shown known eager chosen (Encodes.again inner ext)
  | .rebuild shown known small inner, _ => .rebuild shown known small inner
  | .pass, _ => .pass
  | .greedyBytes, ext => by
      obtain rfl := eq_of_extends_atom ext (Or.inr ⟨_, rfl⟩) rfl
      exact .greedyBytes
  | .greedyRange _ small each productive plain known, ext => by
      obtain ⟨ws, rfl, exts⟩ := exists_list_of_extends ext
      rw [each.length_eq, exts.length_eq] at small
      exact .greedyRange rfl small (EncodesEach.again each exts) productive plain known

theorem EncodesEach.again {near : Surroundings} {of : Format} {us vs ws : List Value}
    {parts : List (List UInt8)} {exact : Bool} :
    EncodesEach near of us vs parts → Value.ExtendsItems exact vs ws →
      EncodesEach near of ws vs parts
  | .nil, ext => by
      cases ws with
      | nil => exact .nil
      | cons w ws => simp [Value.ExtendsItems] at ext
  | .cons head tail, ext => by
      cases ws with
      | nil => simp [Value.ExtendsItems] at ext
      | cons w ws =>
          simp only [Value.ExtendsItems] at ext
          exact .cons (Encodes.again head ext.1) (EncodesEach.again tail ext.2)

theorem EncodesItems.again {items : List Format} {us vs ws : List Value} {data : List UInt8}
    {exact : Bool} :
    EncodesItems items us vs data → Value.ExtendsItems exact vs ws →
      EncodesItems items ws vs data
  | .nil, ext => by
      cases ws with
      | nil => exact .nil
      | cons w ws => simp [Value.ExtendsItems] at ext
  | .cons head tail, ext => by
      cases ws with
      | nil => simp [Value.ExtendsItems] at ext
      | cons w ws =>
          simp only [Value.ExtendsItems] at ext
          exact .cons (Encodes.again head ext.1) (EncodesItems.again tail ext.2)

theorem EncodesFields.again {near : Surroundings} {input gs : Record Value}
    {fields : List Format} {record : Record Value} {data : List UInt8} {exact : Bool} :
    EncodesFields near input fields record data →
      (∀ k x, (k, x) ∈ record → ∃ y, Record.get? gs k = some y ∧ x.Extends exact y) →
      EncodesFields near gs fields record data
  | .nil, _ => .nil
  | .named hasName flat _ head tail, exts => by
      obtain ⟨y, found, ext⟩ := exts _ _ List.mem_cons_self
      exact .named hasName flat (Or.inl found) (Encodes.again head ext)
        (EncodesFields.again tail (fun k x hx => exts k x (List.mem_cons_of_mem _ hx)))
  | .unnamed hasNone flat head tail, exts =>
      .unnamed hasNone flat head (EncodesFields.again tail exts)

end

end Format

end BinaryFormat
