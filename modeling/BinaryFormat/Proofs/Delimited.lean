import BinaryFormat.Codec.Envelope
import BinaryFormat.Proofs.Exact
import BinaryFormat.Proofs.FixedWidth

/-!
# Bytes up to a delimiter

The delimiter is looked for at multiples of its length.  Bytes are read back from
in front of it if they are whole groups of that length, none of which is the
delimiter itself; building does not ask for that.  A payload that includes its
delimiter is built with another one behind it.
-/

namespace BinaryFormat

/-! ## Steps back -/

/-- Positions are below 2⁶⁴, where a seek leads to its target. -/
private theorem Medium.seek_of_target {m : Medium} {dest : SeekTo} {pos : Nat}
    (target : m.target dest = pos)
    (small : pos < 2 ^ 64) : m.seek dest = .ok { m with pos := pos } := by
  have range : (0 : Int) ≤ pos ∧ (pos : Int) < (Nat.pow 2 64 : Nat) :=
    ⟨Int.natCast_nonneg pos, by exact_mod_cast small⟩
  have whole : pos % Nat.pow 2 64 = pos := Nat.mod_eq_of_lt small
  rw [Medium.seek, target]
  split
  · rw [if_neg (not_lt.mpr range.1), Int.toNat_natCast, whole]
  · rw [if_pos range, Int.toNat_natCast]

namespace Stream

variable {s s' : Stream} {n : Nat}

private theorem ahead_size (s : Stream) : s.Ahead 0 s.size.2 where
  enough := Nat.zero_le _
  plain := by
    have is : s.Is s.isView s.plain := ⟨rfl, rfl⟩
    exact is.size.2.plain

private theorem size_sub_pos (some : 0 < s.left.length) : s.size.1 - s.pos = s.left.length := by
  have is : s.Is s.isView s.plain := ⟨rfl, rfl⟩
  rw [is.size.1, is.pos, is.left]
  rw [is.left, Medium.rest] at some
  rw [Medium.rest]
  split at some
  · exact absurd some (Nat.lt_irrefl 0)
  · next behind =>
      rw [if_neg behind, List.length_drop]
      omega

private theorem seek_back (ahead : s.Ahead n s') (small : s.pos < 2 ^ 64) :
    (s'.seek (.current (-(n : Int)))).1 = .ok s.pos ∧
      s.Ahead 0 (s'.seek (.current (-(n : Int)))).2 := by
  have is : s'.Is s'.isView s'.plain := ⟨rfl, rfl⟩
  obtain ⟨found, there⟩ := is.seek (.current (-(n : Int)))
  have target : s'.plain.target (.current (-(n : Int))) = s.pos := by
    rw [Medium.target, ahead.plain, Medium.skip_pos, pos_plain]
    omega
  have moved : seekOf s'.isView s'.plain (.current (-(n : Int))) = (.ok s.pos, s.plain) := by
    have whole : s.pos % Nat.pow 2 64 = s.pos := Nat.mod_eq_of_lt small
    have place : { s'.plain with pos := s.pos } = s.plain := by
      rw [ahead.plain, Medium.skip, ← pos_plain]
    unfold seekOf
    cases s'.isView with
    | true =>
        rw [if_pos rfl, target, if_neg (not_lt.mpr (Int.natCast_nonneg _)), Int.toNat_natCast,
          whole, place]
    | false =>
        rw [if_neg Bool.false_ne_true, Medium.seek_of_target target small]
        exact congrArg (Prod.mk _) place
  rw [moved] at found there
  exact ⟨found, Nat.zero_le _, there.plain⟩

end Stream

/-! ## Delimiters -/

namespace Delimiter

/-- Whole groups of the length of the delimiter, none of which is the delimiter. -/
def Clear (d : Delimiter) (data : List UInt8) : Prop :=
  d.unit.length ∣ data.length ∧ d.unit ∉ Bytes.chunks d.unit.length data

/-- What is read of bytes in front of a delimiter. -/
def payload (d : Delimiter) (data : List UInt8) : List UInt8 :=
  if d.included then data ++ d.unit else data

variable {d : Delimiter} {data data' : List UInt8}

private theorem clear_iff (nonempty : d.unit ≠ []) : d.Clear data ↔
    ∃ groups : List (List UInt8), data = groups.flatten ∧
      (∀ group ∈ groups, group.length = d.unit.length) ∧ d.unit ∉ groups := by
  have positive := List.length_pos_iff.mpr nonempty
  constructor
  · rintro ⟨⟨count, whole⟩, absent⟩
    rw [Nat.mul_comm] at whole
    obtain ⟨groups, rfl, -, sizes⟩ := Bytes.exists_groups whole
    rw [Bytes.chunks_flatten positive sizes] at absent
    exact ⟨groups, rfl, sizes, absent⟩
  · rintro ⟨groups, rfl, sizes, absent⟩
    refine ⟨⟨groups.length, ?_⟩, ?_⟩
    · rw [Bytes.length_flatten sizes, Nat.mul_comm]
    · rwa [Bytes.chunks_flatten positive sizes]

private theorem eq_of_payload (h : d.payload data = d.payload data') : data = data' := by
  unfold payload at h
  split at h
  · exact List.append_cancel_right h
  · exact h

end Delimiter

/-! ## Scanning -/

namespace Codec

variable {d : Delimiter} {path : Path} {more : Nat} {data rest : List UInt8} {s s' : State}

private theorem readDelimited_succ (enough : d.unit.length ≤ s.stream.left.length)
    (nonempty : d.unit ≠ []) (path : Path) (more : Nat) (data : List UInt8) :
    ∃ left, s.stream.Ahead d.unit.length left ∧
      readDelimited d path (more + 1) data s =
        (if s.stream.left.take d.unit.length = d.unit then do
          if d.kept then
            let _ ← Run.seek (.current (-d.unit.length)) path
          return d.payload data
        else readDelimited d path more (data ++ s.stream.left.take d.unit.length)
          : Run (List UInt8)) { s with stream := left } := by
  have positive := List.length_pos_iff.mpr nonempty
  have sized : Run.size s = .ok s.stream.size.1 { s with stream := s.stream.size.2 } := rfl
  have told : Run.tell { s with stream := s.stream.size.2 } =
      .ok s.stream.pos { s with stream := s.stream.size.2 } := by
    rw [Run.tell, s.stream.ahead_size.pos_eq, Nat.add_zero]
  have same := s.stream.ahead_size.left_eq
  rw [List.drop_zero] at same
  obtain ⟨left, read, ahead⟩ := Run.read_of_enough (s := { s with stream := s.stream.size.2 })
    (same ▸ enough) path
  rw [same] at read
  refine ⟨left, by simpa using s.stream.ahead_size.trans ahead, ?_⟩
  rw [readDelimited, Run.bind_of_ok sized, Run.bind_of_ok told]
  rw [Stream.size_sub_pos (positive.trans_le enough)]
  dsimp only
  rw [if_neg (by simp [enough]), Run.bind_of_ok (Run.outcome_of_ok read)]
  dsimp only
  by_cases found : s.stream.left.take d.unit.length = d.unit
  · rw [if_pos found, if_pos found, found]
    rfl
  · rw [if_neg found, if_neg found]

private theorem readDelimited_short (short : s.stream.left.length < d.unit.length)
    (required : d.optional = false) (path : Path) (more : Nat) (data : List UInt8) :
    ∃ left, readDelimited d path (more + 1) data s =
      .error ((Fault.unterminated data.length).atPath path) { s with stream := left } := by
  have sized : Run.size s = .ok s.stream.size.1 { s with stream := s.stream.size.2 } := rfl
  have told : Run.tell { s with stream := s.stream.size.2 } =
      .ok s.stream.size.2.pos { s with stream := s.stream.size.2 } := rfl
  obtain ⟨left, read, -⟩ := Run.read_of_short (s := { s with stream := s.stream.size.2 })
    (s.stream.left_size ▸ short) path
  refine ⟨left, ?_⟩
  rw [readDelimited, Run.bind_of_ok sized, Run.bind_of_ok told, required, Bool.and_false]
  dsimp only
  rw [if_neg Bool.false_ne_true, Run.bind_of_ok (Run.outcome_of_error read)]
  rfl

private theorem readDelimited_found (nonempty : d.unit ≠ []) (next : s.stream.left = d.unit ++ rest)
    (small : d.kept = true → s.stream.pos < 2 ^ 64) (path : Path) (more : Nat)
    (data : List UInt8) :
    ∃ left, s.stream.Ahead (if d.kept then 0 else d.unit.length) left ∧
      readDelimited d path (more + 1) data s = .ok (d.payload data) { s with stream := left } := by
  have enough : d.unit.length ≤ s.stream.left.length := by
    rw [next, List.length_append]
    exact Nat.le_add_right _ _
  obtain ⟨left, ahead, run⟩ := readDelimited_succ enough nonempty path more data
  rw [next, List.take_left, if_pos rfl] at run
  cases kept : d.kept with
  | false =>
      rw [kept] at run
      exact ⟨left, ahead, run⟩
  | true =>
      obtain ⟨reached, there⟩ := Stream.seek_back ahead (small kept)
      have sought : Run.seek (.current (-d.unit.length)) path { s with stream := left } =
          .ok s.stream.pos { s with stream := (left.seek (.current (-d.unit.length))).2 } := by
        simp only [Run.seek, reached]
      rw [kept, if_pos rfl, Run.bind_of_ok sought] at run
      exact ⟨_, there, run⟩

/-- The groups in front of the delimiter are read one after another. -/
private theorem readDelimited_flatten {groups : List (List UInt8)} (nonempty : d.unit ≠ [])
    (sizes : ∀ group ∈ groups, group.length = d.unit.length) (absent : d.unit ∉ groups)
    (few : groups.length < more) (next : s.stream.left = groups.flatten ++ (d.unit ++ rest))
    (small : d.kept = true → s.stream.pos + groups.flatten.length < 2 ^ 64) (path : Path)
    (data : List UInt8) :
    ∃ left, s.stream.Ahead (groups.flatten.length + if d.kept then 0 else d.unit.length) left ∧
      readDelimited d path more data s =
        .ok (d.payload (data ++ groups.flatten)) { s with stream := left } := by
  induction groups generalizing more data s with
  | nil =>
      obtain ⟨more, rfl⟩ := Nat.exists_eq_add_of_lt few
      obtain ⟨left, ahead, run⟩ := readDelimited_found nonempty next small path more data
      rw [List.length_nil, Nat.zero_add, List.flatten_nil, List.append_nil, List.length_nil,
        Nat.zero_add]
      exact ⟨left, ahead, run⟩
  | cons group groups ih =>
      obtain ⟨size, sizes⟩ := List.forall_mem_cons.mp sizes
      obtain ⟨other, absent⟩ := not_or.mp (mt List.mem_cons.mpr absent)
      obtain ⟨more, rfl⟩ := Nat.exists_eq_add_of_lt (Nat.lt_of_le_of_lt (Nat.zero_le _) few)
      rw [Nat.zero_add] at few ⊢
      rw [List.flatten_cons, List.append_assoc] at next
      rw [List.flatten_cons, List.length_append, size] at small ⊢
      have enough : d.unit.length ≤ s.stream.left.length := by
        rw [next, List.length_append, size]
        exact Nat.le_add_right _ _
      -- The first group is not the delimiter, so it is taken over and the reading goes on behind
      -- it.
      obtain ⟨left, ahead, run⟩ := readDelimited_succ enough nonempty path more data
      rw [next, List.take_left' size, if_neg (Ne.symm other)] at run
      have next' : left.left = groups.flatten ++ (d.unit ++ rest) := by
        rw [ahead.left_eq, next, List.drop_left' size]
      have small' : d.kept = true → left.pos + groups.flatten.length < 2 ^ 64 := by
        intro kept
        have := small kept
        rw [ahead.pos_eq]
        omega
      obtain ⟨left', ahead', run'⟩ := ih (s := { s with stream := left }) sizes absent
        (Nat.lt_of_succ_lt_succ few) next' small' (data ++ group)
      refine ⟨left', ?_, ?_⟩
      · rw [Nat.add_assoc]
        exact ahead.trans ahead'
      · rw [run, run', List.append_assoc]

private theorem exists_groups_of_readDelimited {read : List UInt8} (nonempty : d.unit ≠ [])
    (required : d.optional = false) (h : readDelimited d path more data s = .ok read s') :
    ∃ groups : List (List UInt8), (∀ group ∈ groups, group.length = d.unit.length) ∧
      d.unit ∉ groups ∧ read = d.payload (data ++ groups.flatten) := by
  induction more generalizing data s with
  | zero => cases h
  | succ more ih =>
      by_cases enough : d.unit.length ≤ s.stream.left.length
      · obtain ⟨left, -, run⟩ := readDelimited_succ enough nonempty path more data
        rw [run] at h
        split at h
        · refine ⟨[], by simp, by simp, ?_⟩
          rw [List.flatten_nil, List.append_nil]
          split at h
          · obtain ⟨_, _, -, h⟩ := Run.bind_eq_ok_iff.mp h
            exact (Run.pure_eq_ok_iff.mp h).1.symm
          · exact (Run.pure_eq_ok_iff.mp h).1.symm
        · next other =>
            obtain ⟨groups, sizes, absent, rfl⟩ := ih h
            refine ⟨s.stream.left.take d.unit.length :: groups, ?_, ?_, ?_⟩
            · exact List.forall_mem_cons.mpr ⟨List.length_take_of_le enough, sizes⟩
            · exact fun mem => (List.mem_cons.mp mem).elim (fun same => other same.symm) absent
            · rw [List.flatten_cons, List.append_assoc]
      · obtain ⟨left, run⟩ :=
          readDelimited_short (Nat.lt_of_not_le enough) required path more data
        rw [run] at h
        cases h

/-! ## Payloads of bytes -/

private theorem parseSlice_greedyBytes (data : List UInt8) (path : Path) (s : State) :
    ∃ consumed, greedyBytes.parseSlice data path s = .ok (.bytes data, consumed) s := ⟨_, rfl⟩

private theorem parse_delimited (nonempty : d.unit ≠ []) {v : Value} :
    (delimited greedyBytes d).parse path s = .ok v s' ↔
      ∃ read, v = .bytes read ∧
        readDelimited d path (s.stream.available + 1) [] s = .ok read s' := by
  have some : d.unit.isEmpty = false := by simpa using nonempty
  have told : Run.available s = .ok s.stream.available s := rfl
  simp only [delimited, some]
  rw [if_neg Bool.false_ne_true, Run.bind_of_ok told, Run.bind_eq_ok_iff]
  constructor
  · rintro ⟨read, s₁, run, h⟩
    obtain ⟨consumed, sliced⟩ := parseSlice_greedyBytes read path s₁
    rw [Run.bind_of_ok sliced] at h
    obtain ⟨rfl, rfl⟩ := Run.pure_eq_ok_iff.mp h
    exact ⟨read, rfl, run⟩
  · rintro ⟨read, rfl, run⟩
    obtain ⟨consumed, sliced⟩ := parseSlice_greedyBytes read path s'
    exact ⟨read, s', run, by rw [Run.bind_of_ok sliced]; rfl⟩

private theorem buildScratch_delimited (d : Delimiter) (data : List UInt8) (path : Path)
    (s : State) :
    (delimited greedyBytes d).buildScratch (.bytes data) path s =
      .ok (.bytes data, data ++ d.unit) s := by
  have first : Stream.write (.memory []) data = (none, .medium ⟨.growing, data, data.length⟩) := by
    simp [Stream.write, Stream.memory, Medium.write, Medium.overlay]
  have second : Stream.write (.medium ⟨.growing, data, data.length⟩) d.unit =
      (none, .medium ⟨.growing, data ++ d.unit, data.length + d.unit.length⟩) := by
    simp [Stream.write, Medium.write, Medium.overlay]
  have written : Run.write data path { s with stream := .memory [] } =
      .ok () { s with stream := .medium ⟨.growing, data, data.length⟩ } :=
    Run.write_eq_ok_iff.mpr ⟨first, rfl⟩
  have ended : Run.write d.unit path { s with stream := .medium ⟨.growing, data, data.length⟩ } =
      .ok () { s with stream := .medium ⟨.growing, data ++ d.unit, data.length + d.unit.length⟩ } :=
    Run.write_eq_ok_iff.mpr ⟨second, rfl⟩
  have payload : greedyBytes.build (.bytes data) path { s with stream := .memory [] } =
      .ok (.bytes data) { s with stream := .medium ⟨.growing, data, data.length⟩ } := by
    simp only [greedyBytes]
    rw [Run.bind_of_ok written]
    rfl
  have built : (delimited greedyBytes d).build (.bytes data) path { s with stream := .memory [] } =
      .ok (.bytes data)
        { s with stream := .medium ⟨.growing, data ++ d.unit, data.length + d.unit.length⟩ } := by
    simp only [delimited]
    rw [Run.bind_of_ok payload, Run.bind_of_ok ended]
    rfl
  have scratch : Run.onStream (.memory []) ((delimited greedyBytes d).build (.bytes data) path) s =
      .ok (.bytes data, .medium ⟨.growing, data ++ d.unit, data.length + d.unit.length⟩) s := by
    simp only [Run.onStream, built]
  rw [buildScratch, Run.bind_of_ok scratch]
  rfl

/-- Bytes are read back from in front of a delimiter, and it with them where it is included, if
they are whole groups of its length and none of the groups is the delimiter.  Nothing else is read
back in front of one that must be there, though whatever bytes are built.  Only what does not
include its delimiter is built again as the bytes that it was read from. -/
theorem delimited_reads_back {d : Delimiter} (nonempty : d.unit ≠ []) (data : List UInt8) :
    (∀ (path : Path) (s : State), (delimited greedyBytes d).buildScratch (.bytes data) path s =
      .ok (.bytes data, data ++ d.unit) s) ∧
    (d.Clear data → ∀ (path : Path) (s : State) (rest : List UInt8),
      s.stream.left = data ++ d.unit ++ rest →
      (d.kept = true → s.stream.pos + data.length < 2 ^ 64) →
      ∃ left, s.stream.Ahead (data.length + if d.kept then 0 else d.unit.length) left ∧
        (delimited greedyBytes d).parse path s =
          .ok (.bytes (d.payload data)) { s with stream := left }) ∧
    (d.optional = false → ¬ d.Clear data → ∀ (path : Path) (s s' : State),
      (delimited greedyBytes d).parse path s ≠ .ok (.bytes (d.payload data)) s') ∧
    ∀ (path : Path) (s : State),
      (delimited greedyBytes d).buildScratch (.bytes (d.payload data)) path s =
        .ok (.bytes (d.payload data), data ++ d.unit) s ↔ d.included = false := by
  refine ⟨buildScratch_delimited d data, ?_, ?_, ?_⟩
  · intro clear path s rest next small
    obtain ⟨groups, rfl, sizes, absent⟩ := (Delimiter.clear_iff nonempty).mp clear
    rw [List.append_assoc] at next
    have few : groups.length < s.stream.available + 1 := by
      have positive := List.length_pos_iff.mpr nonempty
      have all := congrArg List.length next
      have bound := s.stream.length_left_le
      have least := Nat.le_mul_of_pos_right groups.length positive
      rw [List.length_append, Bytes.length_flatten sizes] at all
      omega
    obtain ⟨left, ahead, run⟩ :=
      readDelimited_flatten nonempty sizes absent few next small path []
    exact ⟨left, ahead, (parse_delimited nonempty).mpr ⟨_, rfl, run⟩⟩
  · intro required unclear path s s' parsed
    obtain ⟨read, same, run⟩ := (parse_delimited nonempty).mp parsed
    obtain ⟨groups, sizes, absent, rfl⟩ := exists_groups_of_readDelimited nonempty required run
    rw [Value.bytes.injEq, List.nil_append] at same
    exact unclear ((Delimiter.clear_iff nonempty).mpr
      ⟨groups, Delimiter.eq_of_payload same, sizes, absent⟩)
  · intro path s
    rw [buildScratch_delimited]
    cases included : d.included <;> simp [Delimiter.payload, included, nonempty]

/-- Half of a line end is no line end, nor is one that does not stand at a multiple of two bytes.
The one behind the line is left in the stream. -/
theorem delimited_reads_back_line :
    ∃ left, Stream.Ahead (.memory [0x61, 0x0d, 0x0a, 0x62, 0x0d, 0x0a, 0x63]) 4 left ∧
      (delimited greedyBytes { unit := [0x0d, 0x0a], kept := true }).parse .this
          ⟨.memory [0x61, 0x0d, 0x0a, 0x62, 0x0d, 0x0a, 0x63], .ofParams [], .empty⟩ =
        .ok (.bytes [0x61, 0x0d, 0x0a, 0x62]) ⟨left, .ofParams [], .empty⟩ := by
  let line : Delimiter := { unit := [0x0d, 0x0a], kept := true }
  have nonempty : line.unit ≠ [] := by decide
  have clear : line.Clear [0x61, 0x0d, 0x0a, 0x62] :=
    (Delimiter.clear_iff nonempty).mpr ⟨[[0x61, 0x0d], [0x0a, 0x62]], rfl, by decide, by decide⟩
  let s : State :=
    ⟨.memory [0x61, 0x0d, 0x0a, 0x62, 0x0d, 0x0a, 0x63], .ofParams [], .empty⟩
  have small : s.stream.pos + 4 < 2 ^ 64 := by decide
  obtain ⟨-, reads, -, -⟩ := delimited_reads_back nonempty [0x61, 0x0d, 0x0a, 0x62]
  exact reads clear .this s [0x63] rfl fun _ => small

/-- A zero in the middle ends what is read; one that is included is followed by another when its
payload is built again. -/
theorem delimited_stops_within :
    ((delimited greedyBytes {}).buildScratch (.bytes [0x61, 0, 0x62]) .this
        ⟨.memory [], .ofParams [], .empty⟩ =
      .ok (.bytes [0x61, 0, 0x62], [0x61, 0, 0x62, 0]) ⟨.memory [], .ofParams [], .empty⟩ ∧
    ∃ left, (delimited greedyBytes {}).parse .this
        ⟨.memory [0x61, 0, 0x62, 0], .ofParams [], .empty⟩ =
      .ok (.bytes [0x61]) ⟨left, .ofParams [], .empty⟩) ∧
    (∃ left, (delimited greedyBytes { included := true }).parse .this
        ⟨.memory [0x61, 0], .ofParams [], .empty⟩ =
      .ok (.bytes [0x61, 0]) ⟨left, .ofParams [], .empty⟩) ∧
    (delimited greedyBytes { included := true }).buildScratch (.bytes [0x61, 0]) .this
        ⟨.memory [], .ofParams [], .empty⟩ =
      .ok (.bytes [0x61, 0], [0x61, 0, 0]) ⟨.memory [], .ofParams [], .empty⟩ :=
  ⟨⟨rfl, _, rfl⟩, ⟨_, rfl⟩, rfl⟩

end Codec

end BinaryFormat
