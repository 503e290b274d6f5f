import BinaryFormat.Proofs.CodeUnits
import BinaryFormat.Proofs.Exact
import BinaryFormat.Proofs.FixedWidth
import BinaryFormat.Proofs.Growth.Codecs

/-!
# Text in fields of fixed size

A text that is shorter than its field is padded with whole code units, which are
taken for padding again when it is read.  It is read back if the field is a whole
number of units and the text has no padding of its own at its ends.  A text that
is longer is cut to whole units; what is left is read as that part of the text if
the cut falls between two characters, and refused if it falls into one.
-/

namespace BinaryFormat

/-! ## Groups of bytes -/

namespace Bytes

section Groups

variable {unit : List UInt8} {groups : List (List UInt8)}

private theorem dropLeading_nil (some : unit ≠ []) : dropLeading unit [] = [] :=
  dropLeading_eq_self (by simpa using some)

private theorem dropLeading_flatten (some : unit ≠ [])
    (whole : ∀ g ∈ groups, g.length = unit.length) :
    dropLeading unit groups.flatten = (groups.dropWhile (· == unit)).flatten := by
  induction groups with
  | nil => exact dropLeading_nil some
  | cons g rest ih =>
      obtain ⟨length, others⟩ := List.forall_mem_cons.mp whole
      rw [List.flatten_cons]
      by_cases same : g = unit
      · rw [same, dropLeading_append some, ih others, List.dropWhile_cons_of_pos (by simp)]
      · have other : ¬ unit <+: g ++ rest.flatten := fun ⟨behind, equal⟩ =>
          same (List.append_inj_left equal length.symm).symm
        rw [dropLeading_eq_self other, List.dropWhile_cons_of_neg (by simpa using same),
          List.flatten_cons]

private theorem dropTrailing_flatten (some : unit ≠ [])
    (whole : ∀ g ∈ groups, g.length = unit.length) :
    dropTrailing unit groups.flatten = (groups.rdropWhile (· == unit)).flatten := by
  have mirrored : ∀ g ∈ groups.reverse.map List.reverse, g.length = unit.reverse.length := by
    intro g mem
    obtain ⟨g, here, rfl⟩ := List.mem_map.mp mem
    rw [List.length_reverse, List.length_reverse, whole g (List.mem_reverse.mp here)]
  have equal : (· == unit.reverse) ∘ List.reverse = (· == unit) := by
    funext g
    simp
  rw [dropTrailing, List.reverse_flatten, ← List.map_reverse,
    dropLeading_flatten (by simpa using some) mirrored, List.dropWhile_map, equal,
    List.reverse_flatten, List.map_map]
  simp [List.rdropWhile]

private theorem length_dropTrailing_mod (unit data : List UInt8) :
    (dropTrailing unit data).length % unit.length = data.length % unit.length := by
  have mirrored := length_dropLeading_mod unit.reverse data.reverse
  rwa [List.length_reverse, List.length_reverse, ← List.length_reverse] at mirrored

end Groups

end Bytes

namespace TextField

/-! ## Padding -/

/-- Drops units of padding where the side allows it. -/
def stripUnits (unit : List UInt8) (side : PadSide) (units : List (List UInt8)) :
    List (List UInt8) :=
  match side with
  | .left => units.dropWhile (· == unit)
  | .right => units.rdropWhile (· == unit)
  | .center => (units.rdropWhile (· == unit)).dropWhile (· == unit)

section Units

variable {unit : List UInt8} {units : List (List UInt8)} {side : PadSide}

private theorem strip_flatten (some : unit ≠ []) (whole : ∀ u ∈ units, u.length = unit.length)
    (side : PadSide) : strip unit side units.flatten = (stripUnits unit side units).flatten := by
  have kept : ∀ u ∈ units.rdropWhile (· == unit), u.length = unit.length :=
    fun u mem => whole u ((List.rdropWhile_prefix _ _).subset mem)
  cases side with
  | left => exact Bytes.dropLeading_flatten some whole
  | right => exact Bytes.dropTrailing_flatten some whole
  | center =>
      simp only [strip, stripUnits]
      rw [Bytes.dropTrailing_flatten some whole, Bytes.dropLeading_flatten some kept]

private theorem length_strip_mod (unit : List UInt8) (side : PadSide) (data : List UInt8) :
    (strip unit side data).length % unit.length = data.length % unit.length := by
  cases side with
  | left => exact Bytes.length_dropLeading_mod unit data
  | right => exact Bytes.length_dropTrailing_mod unit data
  | center =>
      exact (Bytes.length_dropLeading_mod unit _).trans (Bytes.length_dropTrailing_mod unit data)

/-- Padding in front goes, also where some at the end goes before it. -/
private theorem dropWhile_rdropWhile_append {α : Type} {p : α → Bool} {front : List α}
    (padding : ∀ a ∈ front, p a = true) (units : List α) :
    ((front ++ units).rdropWhile p).dropWhile p = (units.rdropWhile p).dropWhile p := by
  induction units using List.reverseRecOn with
  | nil =>
      rw [List.append_nil, List.rdropWhile_eq_nil_iff.mpr padding]
      rfl
  | append_singleton units u ih =>
      rw [← List.append_assoc]
      by_cases last : p u = true
      · rw [List.rdropWhile_concat_pos _ _ _ last, List.rdropWhile_concat_pos _ _ _ last, ih]
      · rw [List.rdropWhile_concat_neg _ _ _ last, List.rdropWhile_concat_neg _ _ _ last,
          List.append_assoc, List.dropWhile_append_of_pos padding]

private theorem rdropWhile_append_replicate (units : List (List UInt8)) (count : Nat) :
    (units ++ List.replicate count unit).rdropWhile (· == unit) =
      units.rdropWhile (· == unit) := by
  induction count with
  | zero => rw [List.replicate_zero, List.append_nil]
  | succ count ih =>
      rw [List.replicate_succ', ← List.append_assoc, List.rdropWhile_concat_pos _ _ _ (by simp), ih]

private theorem stripUnits_padded {before after : Nat} (left : side = .left → after = 0)
    (right : side = .right → before = 0) :
    stripUnits unit side (List.replicate before unit ++ units ++ List.replicate after unit) =
      stripUnits unit side units := by
  have front : ∀ u ∈ List.replicate before unit, (u == unit) = true := by simp
  cases side with
  | left =>
      rw [left rfl, List.replicate_zero, List.append_nil]
      exact List.dropWhile_append_of_pos front
  | right =>
      rw [right rfl, List.replicate_zero, List.nil_append]
      exact rdropWhile_append_replicate units after
  | center =>
      simp only [stripUnits, rdropWhile_append_replicate]
      exact dropWhile_rdropWhile_append front units

private theorem stripUnits_of_bare (head : side ≠ .right → units.head? ≠ some unit)
    (last : side ≠ .left → units.getLast? ≠ some unit) : stripUnits unit side units = units := by
  have front (other : side ≠ .right) : units.dropWhile (· == unit) = units := by
    cases units with
    | nil => rfl
    | cons u rest =>
        have different := head other
        exact List.dropWhile_cons_of_neg (by simpa using different)
  have back (other : side ≠ .left) : units.rdropWhile (· == unit) = units := by
    refine List.rdropWhile_eq_self_iff.mpr fun some padding => last other ?_
    rw [List.getLast?_eq_some_getLast some, beq_iff_eq.mp padding]
  cases side with
  | left => exact front (by decide)
  | right => exact back (by decide)
  | center =>
      simp only [stripUnits]
      rw [back (by decide), front (by decide)]

private theorem padTo_flatten {count : Nat} (whole : ∀ u ∈ units, u.length = unit.length)
    (fits : units.length ≤ count) (side : PadSide) :
    ∃ before after, (side = .left → after = 0) ∧ (side = .right → before = 0) ∧
      padTo unit (count * unit.length) side units.flatten =
        (List.replicate before unit ++ units ++ List.replicate after unit).flatten := by
  by_cases none : unit = []
  · subst none
    refine ⟨0, 0, by simp, by simp, ?_⟩
    have empty : units.flatten = [] := by simpa using whole
    simp [padTo, empty]
  have positive : 0 < unit.length := List.length_pos_iff.mpr none
  have size := Bytes.length_flatten whole
  have missing : (count * unit.length - units.flatten.length) / unit.length =
      count - units.length := by
    rw [size, ← Nat.sub_mul, Nat.mul_div_cancel _ positive]
  obtain ⟨before, after, shared, left, right, all⟩ : ∃ before after,
      shares side (count - units.length) = (before, after) ∧ (side = .left → after = 0) ∧
        (side = .right → before = 0) ∧ before + units.length + after = count := by
    cases side with
    | left => exact ⟨_, _, rfl, by simp, by simp, by omega⟩
    | right => exact ⟨_, _, rfl, by simp, by simp, by omega⟩
    | center => exact ⟨_, _, rfl, by simp, by simp, by omega⟩
  refine ⟨before, after, left, right, ?_⟩
  have length : ((List.replicate before unit).flatten ++ units.flatten ++
      (List.replicate after unit).flatten).length = count * unit.length := by
    simp [size, ← all, Nat.add_mul, Nat.add_assoc]
  simp only [padTo, missing, shared, length, List.flatten_append]
  rw [← length, List.take_length, Nat.sub_self, List.replicate_zero, List.append_nil]

end Units

/-! ## Padding characters -/

/-- No padding stands in a text where padding is taken from the bytes. -/
def Bare (side : PadSide) (pad : Char) (text : String) : Prop :=
  (side ≠ .right → text.toList.head? ≠ some pad) ∧ (side ≠ .left → text.toList.getLast? ≠ some pad)

section Padding

variable {encoding : Encoding} {pad : Char} {side : PadSide} {unit data : List UInt8}
  {text : String}

private theorem codeUnits_of_padUnit (h : padUnit encoding pad = .ok unit) :
    encoding.Admits pad ∧ encoding.codeUnits pad = [unit] := by
  unfold padUnit at h
  split at h
  · cases h
  next bytes encoded =>
  split at h
  · next length =>
      cases h
      obtain ⟨admitted, rfl⟩ := Encoding.encode_eq_ok_iff.mp encoded
      obtain ⟨lead, trail, units, -⟩ := encoding.codeUnits_shape pad
      have width : ∀ u ∈ lead :: trail, u.length = encoding.unit :=
        fun u mem => Encoding.length_of_mem_codeUnits (units ▸ mem)
      have one : trail = [] := by
        have positive := encoding.unit_pos
        simp only [String.toList_singleton, Encoding.textUnits_cons, Encoding.textUnits_nil,
          List.append_nil, units, List.flatten_cons, List.length_append,
          width lead List.mem_cons_self] at length
        cases trail with
        | nil => rfl
        | cons next rest =>
            have second := width next (by simp)
            rw [List.flatten_cons, List.length_append] at length
            omega
      exact ⟨admitted pad (by simp), by simp [units, one]⟩
  · cases h

private theorem length_of_padUnit (h : padUnit encoding pad = .ok unit) :
    unit.length = encoding.unit := by
  have mem : unit ∈ encoding.codeUnits pad := by simp [(codeUnits_of_padUnit h).2]
  exact Encoding.length_of_mem_codeUnits mem

private theorem ne_nil_of_padUnit (h : padUnit encoding pad = .ok unit) : unit ≠ [] := by
  rw [← List.length_pos_iff, length_of_padUnit h]
  exact encoding.unit_pos

private theorem eq_pad_of_mem {c : Char} (padded : padUnit encoding pad = .ok unit)
    (admitted : encoding.Admits c) (mem : unit ∈ encoding.codeUnits c) : c = pad :=
  have ⟨admits, single⟩ := codeUnits_of_padUnit padded
  Encoding.eq_of_mem_codeUnits admits admitted single mem

private theorem stripUnits_textUnits {chars : List Char} (padded : padUnit encoding pad = .ok unit)
    (admitted : ∀ c ∈ chars, encoding.Admits c) (bare : Bare side pad (.ofList chars)) :
    stripUnits unit side (encoding.textUnits chars) = encoding.textUnits chars := by
  obtain ⟨head, last⟩ := bare
  rw [String.toList_ofList] at head last
  apply stripUnits_of_bare
  · intro other first
    cases chars with
    | nil => cases first
    | cons c rest =>
        obtain ⟨lead, trail, units, -⟩ := encoding.codeUnits_shape c
        rw [Encoding.textUnits_cons, units, List.cons_append, List.head?_cons] at first
        cases first
        refine head other (congrArg some (eq_pad_of_mem padded ?_ ?_))
        · exact admitted c List.mem_cons_self
        · simp [units]
  · intro other final
    rcases List.eq_nil_or_concat chars with rfl | ⟨before, c, rfl⟩
    · cases final
    · have mem : unit ∈ encoding.codeUnits c := by
        have some : encoding.codeUnits c ≠ [] := by
          obtain ⟨lead, trail, units, -⟩ := encoding.codeUnits_shape c
          simp [units]
        rw [List.concat_eq_append, Encoding.textUnits_append, Encoding.textUnits_cons,
          Encoding.textUnits_nil, List.append_nil, List.getLast?_append_of_ne_nil _ some] at final
        exact List.mem_of_getLast? final
      refine last other ?_
      rw [eq_pad_of_mem padded (admitted c (by simp)) mem]
      simp

/-- What was padded to whole units is stripped to what it was. -/
private theorem strip_padTo {room : Nat} (padded : padUnit encoding pad = .ok unit)
    (encoded : encoding.encode text = .ok data) (bare : Bare side pad text)
    (whole : encoding.unit ∣ room) (fits : data.length ≤ room) :
    strip unit side (padTo unit room side data) = data := by
  obtain ⟨admitted, rfl⟩ := Encoding.encode_eq_ok_iff.mp encoded
  have width : ∀ u ∈ encoding.textUnits text.toList, u.length = unit.length := fun u mem =>
    (Encoding.length_of_mem_textUnits mem).trans (length_of_padUnit padded).symm
  obtain ⟨count, rfl⟩ := whole
  rw [← length_of_padUnit padded, Nat.mul_comm] at fits ⊢
  have few : (encoding.textUnits text.toList).length ≤ count := by
    rw [Bytes.length_flatten width] at fits
    exact Nat.le_of_mul_le_mul_right fits (List.length_pos_iff.mpr (ne_nil_of_padUnit padded))
  obtain ⟨before, after, left, right, spread⟩ := padTo_flatten width few side
  rw [spread, strip_flatten (ne_nil_of_padUnit padded), stripUnits_padded left right,
    stripUnits_textUnits padded admitted (by rwa [String.ofList_toList])]
  simpa [or_imp, forall_and] using width

end Padding

/-! ## Cutting -/

/-- What is left of bytes that are cut to so many at one end. -/
def cutTo (trim : TrimEnd) (room : Nat) (data : List UInt8) : List UInt8 :=
  match trim with
  | .right => data.take room
  | .left => data.drop (data.length - room)

/-- The texts that can be left of a text that is cut at one end. -/
def IsPart (trim : TrimEnd) (part text : String) : Prop :=
  match trim with
  | .right => part.toList <+: text.toList
  | .left => part.toList <:+ text.toList

/-- What is left of a text that is cut to so many bytes at one end, if no character is cut. -/
def Remains (encoding : Encoding) (trim : TrimEnd) (room : Nat) (text part : String) : Prop :=
  IsPart trim part text ∧ ∃ bytes, encoding.encode part = .ok bytes ∧ bytes.length = room

section Cutting

variable {encoding : Encoding} {pad : Char} {side : PadSide} {trim : TrimEnd} {room : Nat}
  {unit data bytes : List UInt8} {units : List (List UInt8)} {text part : String}

private theorem length_cutTo (trim : TrimEnd) (long : room ≤ data.length) :
    (cutTo trim room data).length = room := by
  cases trim with
  | left =>
      rw [cutTo, List.length_drop]
      omega
  | right => exact List.length_take_of_le long

private theorem cut_of_long (long : room < data.length) (whole : unit.length ∣ room) :
    cut unit.length room (some trim) data = .ok (cutTo trim room data) := by
  obtain ⟨count, rfl⟩ := whole
  rw [cut, if_neg (by omega)]
  cases trim <;> simp [cutTo]

private theorem padTo_of_full (unit : List UInt8) (side : PadSide) (full : data.length = room) :
    padTo unit room side data = data := by
  subst full
  cases side <;> simp [padTo, shares]

private theorem cutTo_flatten (trim : TrimEnd) (width : ∀ u ∈ units, u.length = encoding.unit)
    (whole : encoding.unit ∣ room) (long : room ≤ units.flatten.length) :
    ∃ before kept after, units = before ++ kept ++ after ∧ (trim = .left → after = []) ∧
      cutTo trim room units.flatten = kept.flatten := by
  obtain ⟨count, rfl⟩ := whole
  rw [Nat.mul_comm] at long ⊢
  have fits : count ≤ units.length := by
    rw [Bytes.length_flatten width] at long
    exact Nat.le_of_mul_le_mul_right long encoding.unit_pos
  have front (m : Nat) : ∀ u ∈ units.take m, u.length = encoding.unit :=
    fun u mem => width u (List.mem_of_mem_take mem)
  cases trim with
  | right =>
      have length := Bytes.length_flatten (front count)
      rw [List.length_take_of_le fits] at length
      refine ⟨[], units.take count, units.drop count, by simp, nofun, ?_⟩
      conv_lhs => rw [← List.take_append_drop count units, List.flatten_append]
      exact List.take_left' length
  | left =>
      have length := Bytes.length_flatten (front (units.length - count))
      rw [List.length_take_of_le (Nat.sub_le _ _), Nat.sub_mul, ← Bytes.length_flatten width]
        at length
      refine ⟨units.take (units.length - count), units.drop (units.length - count), [], by simp,
        fun _ => rfl, ?_⟩
      rw [cutTo, ← length]
      conv_lhs =>
        rw [← List.take_append_drop (units.length - count) units, List.flatten_append]
      exact List.drop_left' (by simp)

private theorem strip_of_absent (some : unit ≠ []) (width : ∀ u ∈ units, u.length = unit.length)
    (absent : unit ∉ units) (side : PadSide) : strip unit side units.flatten = units.flatten := by
  rw [strip_flatten some width, stripUnits_of_bare]
  · exact fun _ first => absent (List.mem_of_head? first)
  · exact fun _ last => absent (List.mem_of_getLast? last)

private theorem strip_cutTo (padded : padUnit encoding pad = .ok unit)
    (encoded : encoding.encode text = .ok data) (absent : pad ∉ text.toList)
    (whole : encoding.unit ∣ room) (long : room ≤ data.length) :
    strip unit side (cutTo trim room data) = cutTo trim room data := by
  obtain ⟨admitted, rfl⟩ := Encoding.encode_eq_ok_iff.mp encoded
  have width : ∀ u ∈ encoding.textUnits text.toList, u.length = encoding.unit :=
    fun u mem => Encoding.length_of_mem_textUnits mem
  obtain ⟨before, kept, after, split, -, cut⟩ := cutTo_flatten trim width whole long
  have among : ∀ u ∈ kept, u ∈ encoding.textUnits text.toList := by
    intro u mem
    rw [split]
    simp [mem]
  rw [cut]
  refine strip_of_absent (ne_nil_of_padUnit padded) ?_ ?_ side
  · intro u mem
    rw [width u (among u mem), length_of_padUnit padded]
  · intro mem
    obtain ⟨c, here, stands⟩ := List.mem_flatMap.mp (among unit mem)
    exact absent (eq_pad_of_mem padded (admitted c here) stands ▸ here)

/-- The bytes of a part of a text are what a cut to as many bytes leaves. -/
private theorem cutTo_of_part (encoded : encoding.encode text = .ok data)
    (isPart : IsPart trim part text)
    (encodedPart : encoding.encode part = .ok bytes) : cutTo trim bytes.length data = bytes := by
  obtain ⟨-, rfl⟩ := Encoding.encode_eq_ok_iff.mp encoded
  obtain ⟨-, rfl⟩ := Encoding.encode_eq_ok_iff.mp encodedPart
  cases trim with
  | right =>
      obtain ⟨behind, split⟩ := isPart
      rw [← split, Encoding.textUnits_append, List.flatten_append]
      exact List.take_left
  | left =>
      obtain ⟨front, split⟩ := isPart
      rw [← split, Encoding.textUnits_append, List.flatten_append, cutTo, List.length_append,
        Nat.add_sub_cancel]
      exact List.drop_left

/-- What a cut leaves is the bytes of no text but a part. -/
private theorem isPart_of_cutTo (encoded : encoding.encode text = .ok data)
    (whole : encoding.unit ∣ room) (long : room ≤ data.length)
    (encodedPart : encoding.encode part = .ok (cutTo trim room data)) : IsPart trim part text := by
  cases trim with
  | right =>
      have decoded := Encoding.decode_encode encoded
      rw [← List.take_append_drop room data] at decoded
      exact Encoding.prefix_of_decode encodedPart decoded
  | left =>
      obtain ⟨admitted, rfl⟩ := Encoding.encode_eq_ok_iff.mp encoded
      obtain ⟨admittedPart, same⟩ := Encoding.encode_eq_ok_iff.mp encodedPart
      have width {chars : List Char} : ∀ u ∈ encoding.textUnits chars, u.length = encoding.unit :=
        fun u mem => Encoding.length_of_mem_textUnits mem
      obtain ⟨before, kept, after, split, none, cut⟩ :=
        cutTo_flatten .left width whole long
      rw [none rfl, List.append_nil] at split
      have widthKept : ∀ u ∈ kept, u.length = encoding.unit := by
        intro u mem
        have among : u ∈ encoding.textUnits text.toList := by
          rw [split]
          exact List.mem_append_right before mem
        exact width u among
      -- Units of one width are found again in their bytes.
      have units := congrArg (Bytes.chunks encoding.unit) (cut.symm.trans same)
      rw [Bytes.chunks_flatten encoding.unit_pos widthKept,
        Bytes.chunks_flatten encoding.unit_pos width] at units
      refine Encoding.suffix_of_textUnits admittedPart admitted ⟨before, ?_⟩
      rw [← units, split]

/-- No cut to whole units falls into a character that is one unit. -/
private theorem exists_remains (encoded : encoding.encode text = .ok data)
    (long : room ≤ data.length)
    (whole : encoding.unit ∣ room)
    (single : ∀ c ∈ text.toList, (encoding.codeUnits c).length = 1) :
    ∃ part, Remains encoding trim room text part := by
  obtain ⟨admitted, rfl⟩ := Encoding.encode_eq_ok_iff.mp encoded
  obtain ⟨count, rfl⟩ := whole
  have size {chars : List Char} (among : ∀ c ∈ chars, c ∈ text.toList) :
      (encoding.textUnits chars).flatten.length = encoding.unit * chars.length := by
    have width : ∀ u ∈ encoding.textUnits chars, u.length = encoding.unit :=
      fun _ mem => Encoding.length_of_mem_textUnits mem
    rw [Bytes.length_flatten width, Encoding.textUnits, List.length_flatMap,
      List.map_congr_left fun c mem => single c (among c mem)]
    simp [Nat.mul_comm]
  have fits : count ≤ text.toList.length := by
    rw [size fun _ mem => mem] at long
    exact Nat.le_of_mul_le_mul_left long encoding.unit_pos
  have encodes (chars : List Char) (among : ∀ c ∈ chars, c ∈ text.toList)
      (length : chars.length = count) :
      ∃ bytes, encoding.encode (.ofList chars) = .ok bytes ∧
        bytes.length = encoding.unit * count := by
    refine ⟨_, Encoding.encode_eq_ok_iff.mpr ⟨?_, rfl⟩, ?_⟩ <;> rw [String.toList_ofList]
    · exact fun c mem => admitted c (among c mem)
    · rw [size among, length]
  cases trim with
  | right =>
      obtain ⟨bytes, encodedPart, length⟩ := encodes (text.toList.take count)
        (fun _ mem => List.mem_of_mem_take mem) (List.length_take_of_le fits)
      exact ⟨_, by simpa [IsPart] using List.take_prefix _ _, bytes, encodedPart, length⟩
  | left =>
      have length : (text.toList.drop (text.toList.length - count)).length = count := by
        rw [List.length_drop]
        omega
      obtain ⟨bytes, encodedPart, length⟩ :=
        encodes _ (fun _ mem => List.mem_of_mem_drop mem) length
      exact ⟨_, by simpa [IsPart] using List.drop_suffix _ _, bytes, encodedPart, length⟩

end Cutting

end TextField

/-! ## Reading and writing a field -/

namespace Codec

section

variable {e : Engine} {length : Expr} {encoding : Encoding} {pad : Char} {side : PadSide}
  {trim : Option TrimEnd} {n : Nat} {text : String} {unit bytes data rest : List UInt8}
  {path : Path} {s s₁ s' : State}

private theorem parse_fixedText (sized : e.evalSize length path s = .ok n s₁)
    (padded : TextField.padUnit encoding pad = .ok unit) (room : bytes.length = n)
    (next : s₁.stream.left = bytes ++ rest) :
    ∃ left, s₁.stream.Ahead n left ∧
      (fixedText e length encoding pad side trim).parse path s =
        Run.ofExcept path (TextField.decode encoding (TextField.strip unit side bytes))
          { s₁ with stream := left } := by
  subst room
  obtain ⟨left, read, ahead⟩ := Run.read_of_left next path
  refine ⟨left, ahead, ?_⟩
  simp only [fixedText]
  rw [Run.bind_of_ok sized, Run.bind_of_ok read, padded, Run.bind_ofExcept_ok]

private theorem build_fixedText (sized : e.evalSize length path s = .ok n s₁)
    (padded : TextField.padUnit encoding pad = .ok unit)
    (encoded : encoding.encode text = .ok data) :
    (fixedText e length encoding pad side trim).build (.str text) path s =
      (Run.ofExcept path (TextField.cut unit.length n trim data) >>= fun kept =>
        Run.write (TextField.padTo unit n side kept) path >>= fun _ =>
          pure (.str text) : Run Value) s₁ := by
  simp only [fixedText, TextField.encode, encoded]
  rw [Run.bind_of_ok sized, padded, Run.bind_ofExcept_ok, Run.bind_ofExcept_ok]

private theorem padded_of_build {v : Value} (sized : e.evalSize length path s = .ok n s₁)
    (built : (fixedText e length encoding pad side none).build (.str text) path s = .ok v s') :
    ∃ unit data, TextField.padUnit encoding pad = .ok unit ∧ encoding.encode text = .ok data ∧
      data.length ≤ n ∧ v = .str text ∧
      s₁.stream.write (TextField.padTo unit n side data) = (none, s'.stream) ∧
      s' = { s₁ with stream := s'.stream } := by
  have steps := built
  simp only [fixedText] at steps
  rw [Run.bind_of_ok sized] at steps
  obtain ⟨unit, _, unitRun, steps⟩ := Run.bind_eq_ok_iff.mp steps
  obtain ⟨padded, rfl⟩ := Run.ofExcept_eq_ok_iff.mp unitRun
  obtain ⟨data, _, dataRun, -⟩ := Run.bind_eq_ok_iff.mp steps
  obtain ⟨encoded, rfl⟩ := Run.ofExcept_eq_ok_iff.mp dataRun
  simp only [TextField.encode] at encoded
  split at encoded
  · next bytes whole =>
      cases encoded
      rw [build_fixedText sized padded whole] at built
      obtain ⟨kept, _, cutRun, built⟩ := Run.bind_eq_ok_iff.mp built
      obtain ⟨held, rfl⟩ := Run.ofExcept_eq_ok_iff.mp cutRun
      simp only [TextField.cut] at held
      split at held
      · next fits =>
          cases held
          obtain ⟨_, _, written, built⟩ := Run.bind_eq_ok_iff.mp built
          obtain ⟨rfl, rfl⟩ := Run.pure_eq_ok_iff.mp built
          exact ⟨unit, data, padded, whole, fits, rfl, Run.write_eq_ok_iff.mp written⟩
      · cases held
  · cases encoded

end

/-- A text without padding at its ends is built in exactly the bytes of its field, and read from
them again where the field is a whole number of code units.  Where it is not, the text is built
all the same, and no whole number of units is ever found in its bytes. -/
theorem fixedText_reads_back {e : Engine} {length : Expr} {encoding : Encoding} {pad : Char}
    {side : PadSide} {n : Nat} {text : String} {path : Path} {s s₁ s' : State} {v : Value}
    (sized : e.evalSize length path s = .ok n s₁) (bare : TextField.Bare side pad text)
    (built : (fixedText e length encoding pad side none).build (.str text) path s = .ok v s') :
    v = .str text ∧ ∃ bytes : List UInt8, bytes.length = n ∧
      s₁.stream.write bytes = (none, s'.stream) ∧ s' = { s₁ with stream := s'.stream } ∧
      ∀ {path : Path} {t t₁ : State} {rest : List UInt8},
        e.evalSize length path t = .ok n t₁ → t₁.stream.left = bytes ++ rest →
        ∃ left, t₁.stream.Ahead n left ∧
          (encoding.unit ∣ n →
            (fixedText e length encoding pad side none).parse path t =
              .ok (.str text) { t₁ with stream := left }) ∧
          (¬ encoding.unit ∣ n → ∃ k, k % encoding.unit = n % encoding.unit ∧
            (fixedText e length encoding pad side none).parse path t =
              .error ((Fault.encoding (.partialUnit k encoding.unit)).atPath path)
                { t₁ with stream := left }) := by
  obtain ⟨unit, data, padded, encoded, fits, rfl, written, behind⟩ := padded_of_build sized built
  have room := length_padTo unit n side data
  refine ⟨rfl, TextField.padTo unit n side data, room, written, behind, ?_⟩
  intro path t t₁ rest sized' next
  obtain ⟨left, ahead, parsed⟩ := parse_fixedText sized' padded room next
  refine ⟨left, ahead, ?_, ?_⟩
  · intro whole
    rw [parsed, TextField.strip_padTo padded encoded bare whole fits]
    simp only [TextField.decode, Encoding.decode_encode encoded]
    rfl
  · intro ragged
    have same : (TextField.strip unit side (TextField.padTo unit n side data)).length %
        encoding.unit = n % encoding.unit := by
      rw [← TextField.length_of_padUnit padded, TextField.length_strip_mod, room]
    refine ⟨_, same, ?_⟩
    have left_over : (TextField.strip unit side (TextField.padTo unit n side data)).length %
        encoding.unit ≠ 0 := fun none =>
      ragged (Nat.dvd_of_mod_eq_zero (same ▸ none))
    rw [parsed]
    simp only [TextField.decode, Encoding.decode, Encoding.decodeChars, if_pos left_over]
    rfl

/-- A letter of two bytes in the middle of six. -/
theorem fixedText_reads_back_centred :
    ∃ bytes : List UInt8, bytes.length = 6 ∧ ∃ left,
      (fixedText .exhausted (.const (.int 6)) .utf16le '*' .center none).parse .this
          ⟨.memory bytes, .ofParams [], .empty⟩ =
        .ok (.str "a") ⟨left, .ofParams [], .empty⟩ := by
  let field := fixedText .exhausted (.const (.int 6)) .utf16le '*' .center none
  have room (s : State) : Engine.exhausted.evalSize (.const (.int 6)) .this s = .ok 6 s :=
    evalSize_const .exhausted .this s (by decide)
  have built : field.build (.str "a") .this ⟨.memory [], .ofParams [], .empty⟩ = .ok (.str "a")
      ⟨.medium ⟨_, [0x2a, 0, 0x61, 0, 0x2a, 0], 6⟩, .ofParams [], .empty⟩ := rfl
  obtain ⟨-, bytes, length, -, -, reads⟩ :=
    fixedText_reads_back (room _) ⟨by decide, by decide⟩ built
  obtain ⟨left, -, read, -⟩ :=
    reads (room ⟨.memory bytes, .ofParams [], .empty⟩) (List.append_nil bytes).symm
  exact ⟨bytes, length, left, read (by decide)⟩

/-- The same letter is built in five bytes as well, and half a unit is left of it. -/
theorem fixedText_ragged_room :
    TextField.Bare .right '\x00' "a" ∧
    (∃ left, (fixedText .exhausted (.const (.int 5)) .utf16le '\x00' .right none).build (.str "a")
        .this ⟨.memory [], .ofParams [], .empty⟩ =
      .ok (.str "a") ⟨left, .ofParams [], .empty⟩ ∧
      Stream.write (.memory []) [0x61, 0, 0, 0, 0] = (none, left)) ∧
    ∃ left, (fixedText .exhausted (.const (.int 5)) .utf16le '\x00' .right none).parse .this
        ⟨.memory [0x61, 0, 0, 0, 0], .ofParams [], .empty⟩ =
      .error ((Fault.encoding (.partialUnit 1 2)).atPath .this) ⟨left, .ofParams [], .empty⟩ :=
  ⟨⟨by decide, by decide⟩, ⟨_, rfl, rfl⟩, _, rfl⟩

/-- A text without padding characters that is too long for a field of whole code units is built as
the bytes that are left at one end.  They are read as the part of the text that they are; if they
are none, because a character was cut, they are refused.  No character is cut where each has a code
unit of its own. -/
theorem fixedText_trimmed {e : Engine} {length : Expr} {encoding : Encoding} {pad : Char}
    {side : PadSide} {trim : TrimEnd} {n : Nat} {text : String} {unit data : List UInt8}
    (padded : TextField.padUnit encoding pad = .ok unit)
    (encoded : encoding.encode text = .ok data) (long : n < data.length)
    (whole : encoding.unit ∣ n) (absent : pad ∉ text.toList) :
    (TextField.cutTo trim n data).length = n ∧
    (∀ {path : Path} {s s₁ : State}, e.evalSize length path s = .ok n s₁ →
      (fixedText e length encoding pad side (some trim)).build (.str text) path s =
        (Run.write (TextField.cutTo trim n data) path >>= fun _ => pure (.str text) : Run Value)
          s₁) ∧
    (∀ {path : Path} {t t₁ : State} {rest : List UInt8}, e.evalSize length path t = .ok n t₁ →
      t₁.stream.left = TextField.cutTo trim n data ++ rest →
      ∃ left, t₁.stream.Ahead n left ∧
        (∀ part, TextField.Remains encoding trim n text part →
          (fixedText e length encoding pad side (some trim)).parse path t =
            .ok (.str part) { t₁ with stream := left }) ∧
        ((¬ ∃ part, TextField.Remains encoding trim n text part) →
          ∃ cause, (fixedText e length encoding pad side (some trim)).parse path t =
            .error ((Fault.encoding cause).atPath path) { t₁ with stream := left })) ∧
    ((∀ c ∈ text.toList, (encoding.codeUnits c).length = 1) →
      ∃ part, TextField.Remains encoding trim n text part) := by
  have room := TextField.length_cutTo trim (Nat.le_of_lt long)
  refine ⟨room, ?_, ?_, TextField.exists_remains encoded (Nat.le_of_lt long) whole⟩
  · intro path s s₁ sized
    have units : unit.length ∣ n := TextField.length_of_padUnit padded ▸ whole
    rw [build_fixedText sized padded encoded, TextField.cut_of_long long units,
      Run.bind_ofExcept_ok, TextField.padTo_of_full unit side room]
  · intro path t t₁ rest sized next
    obtain ⟨left, ahead, parsed⟩ := parse_fixedText sized padded room next
    rw [TextField.strip_cutTo padded encoded absent whole (Nat.le_of_lt long)] at parsed
    -- What is left of the text has its units; where nothing is left, no text has them, so decoding
    -- fails.
    refine ⟨left, ahead, ?_, ?_⟩
    · rintro part ⟨isPart, bytes, encodedPart, rfl⟩
      rw [parsed, TextField.cutTo_of_part encoded isPart encodedPart, TextField.decode,
        Encoding.decode_encode encodedPart]
      rfl
    · intro none
      rw [parsed, TextField.decode]
      cases decoded : encoding.decode (TextField.cutTo trim n data) with
      | ok part =>
          have encodedPart := Encoding.encode_of_decode decoded
          have isPart := TextField.isPart_of_cutTo encoded whole (Nat.le_of_lt long) encodedPart
          exact absurd ⟨part, isPart, _, encodedPart, room⟩ none
      | error cause => exact ⟨cause, rfl⟩

/-- A character of two bytes is cut off in front of two of one byte. -/
theorem fixedText_trimmed_between :
    (fixedText .exhausted (.const (.int 2)) .utf8 '\x00' .right (some .left)).build (.str "éab")
        .this ⟨.memory [], .ofParams [], .empty⟩ =
      (Run.write [0x61, 0x62] .this >>= fun _ => pure (.str "éab") : Run Value)
        ⟨.memory [], .ofParams [], .empty⟩ ∧
    ∃ left, (fixedText .exhausted (.const (.int 2)) .utf8 '\x00' .right (some .left)).parse .this
        ⟨.memory [0x61, 0x62], .ofParams [], .empty⟩ =
      .ok (.str "ab") ⟨left, .ofParams [], .empty⟩ := by
  have room (s : State) : Engine.exhausted.evalSize (.const (.int 2)) .this s = .ok 2 s :=
    evalSize_const .exhausted .this s (by decide)
  have padded : TextField.padUnit .utf8 '\x00' = .ok [0] := rfl
  have encoded : Encoding.utf8.encode "éab" = .ok [0xc3, 0xa9, 0x61, 0x62] := by decide
  have next : (Stream.memory [0x61, 0x62]).left =
      TextField.cutTo .left 2 [0xc3, 0xa9, 0x61, 0x62] ++ [] := rfl
  obtain ⟨-, builds, reads, -⟩ :=
    fixedText_trimmed (n := 2) padded encoded (by decide) (by decide) (by decide)
  obtain ⟨left, -, read, -⟩ := reads (room ⟨.memory [0x61, 0x62], .ofParams [], .empty⟩) next
  exact ⟨builds (room _), left, read "ab" ⟨⟨['é'], rfl⟩, [0x61, 0x62], by decide, rfl⟩⟩

/-- The same character is cut in the middle, and what is left of it is refused. -/
theorem fixedText_trimmed_within :
    ((Encoding.utf8.encode "aé" = .ok [0x61, 0xc3, 0xa9]) ∧ Encoding.utf8.unit ∣ 2 ∧
      '\x00' ∉ "aé".toList) ∧
    (∃ left, (fixedText .exhausted (.const (.int 2)) .utf8 '\x00' .right (some .right)).build
        (.str "aé") .this ⟨.memory [], .ofParams [], .empty⟩ =
      .ok (.str "aé") ⟨left, .ofParams [], .empty⟩ ∧
      Stream.write (.memory []) [0x61, 0xc3] = (none, left)) ∧
    ∃ left, (fixedText .exhausted (.const (.int 2)) .utf8 '\x00' .right (some .right)).parse .this
        ⟨.memory [0x61, 0xc3], .ofParams [], .empty⟩ =
      .error ((Fault.encoding (.invalidSequence 1)).atPath .this)
        ⟨left, .ofParams [], .empty⟩ :=
  ⟨⟨by decide, by decide, by decide⟩, ⟨_, rfl, rfl⟩, _, rfl⟩

end Codec

end BinaryFormat
