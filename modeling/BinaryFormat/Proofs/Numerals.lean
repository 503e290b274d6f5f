import BinaryFormat.Proofs.Exact
import BinaryFormat.Proofs.Number

/-!
# Numerals in base 128

A numeral carries seven bits of its number in each byte, low bits first, and
every byte but the last has its high bit set.  Reading accepts each numeral of a
number below the limit, also one with groups of zeros at its end, and refuses
the others at the first byte that shows it; writing yields the shortest one.
Signed integers are numbered so that each has one natural number.
-/

namespace BinaryFormat

namespace Varint

/-! ## Numerals -/

/-- The number whose base 128 digits are the low seven bits of the bytes, lowest first. -/
def value (data : List UInt8) : Nat := Nat.ofDigits 128 (data.map (·.toNat % 128))

/-- The bytes up to and including the first whose high bit is clear, or all of them. -/
def front : List UInt8 → List UInt8
  | [] => []
  | b :: rest => if b.toNat < 128 then [b] else b :: front rest

/-- Some byte has a clear high bit. -/
def Ends (data : List UInt8) : Prop := ∃ b ∈ data, b.toNat < 128

/-- The high bit is clear in the last byte and in no other. -/
def IsNumeral (data : List UInt8) : Prop := front data = data ∧ Ends data

/-- The one numeral of a number that has the fewest bytes.  It ends with a group of zeros for
zero alone. -/
structure Shortest (n : Nat) (data : List UInt8) : Prop where
  isNumeral : IsNumeral data
  value_eq : value data = n
  least : ∀ other, IsNumeral other → value other = n → other = data ∨ data.length < other.length
  unpadded : data.getLast? = some 0 → n = 0

section Bytes

variable {b : UInt8} {data rest : List UInt8} {n : Nat}

@[simp] theorem value_nil : value [] = 0 := rfl

@[simp] theorem value_cons (b : UInt8) (rest : List UInt8) :
    value (b :: rest) = b.toNat % 128 + 128 * value rest := by
  simp [value, Nat.ofDigits_cons]

private theorem front_of_last (last : b.toNat < 128) (rest : List UInt8) :
    front (b :: rest) = [b] := by
  rw [front, if_pos last]

private theorem front_of_more (more : ¬ b.toNat < 128) (rest : List UInt8) :
    front (b :: rest) = b :: front rest := by
  rw [front, if_neg more]

private theorem ends_of_last (last : b.toNat < 128) (rest : List UInt8) : Ends (b :: rest) :=
  ⟨b, List.mem_cons_self, last⟩

private theorem ends_of_more (more : ¬ b.toNat < 128) : Ends (b :: rest) ↔ Ends rest := by
  simp [Ends, more]

theorem front_append (h : IsNumeral data) (rest : List UInt8) :
    front (data ++ rest) = data ∧ Ends (data ++ rest) := by
  obtain ⟨whole, b, mem, last⟩ := h
  refine ⟨?_, b, List.mem_append_left rest mem, last⟩
  induction data with
  | nil => cases mem
  | cons c data ih =>
      by_cases final : c.toNat < 128
      · rw [front_of_last final] at whole
        rw [List.cons_append, front_of_last final, whole]
      · rw [front_of_more final, List.cons.injEq] at whole
        have later : b ∈ data := by
          rcases List.mem_cons.mp mem with rfl | later
          · exact absurd last final
          · exact later
        rw [List.cons_append, front_of_more final, ih whole.2 later]

private theorem isNumeral_of_last (last : b.toNat < 128) : IsNumeral [b] :=
  ⟨front_of_last last [], ends_of_last last []⟩

private theorem isNumeral_of_more (more : ¬ b.toNat < 128) :
    IsNumeral (b :: rest) ↔ IsNumeral rest := by
  rw [IsNumeral, IsNumeral, front_of_more more, ends_of_more more, List.cons.injEq]
  simp

private theorem isNumeral_front (h : Ends data) : IsNumeral (front data) := by
  induction data with
  | nil =>
      obtain ⟨b, mem, -⟩ := h
      cases mem
  | cons b rest ih =>
      by_cases last : b.toNat < 128
      · rw [front_of_last last]
        exact isNumeral_of_last last
      · rw [front_of_more last, isNumeral_of_more last]
        exact ih ((ends_of_more last).mp h)

private theorem toNat_last (small : n < 128) : (UInt8.ofNat n).toNat = n := by
  rw [UInt8.toNat_ofNat']
  omega

private theorem toNat_more (n : Nat) : (UInt8.ofNat (n % 128 + 128)).toNat = n % 128 + 128 := by
  rw [UInt8.toNat_ofNat']
  omega

theorem isNumeral_numeral (n : Nat) : IsNumeral (numeral n) := by
  fun_induction numeral n with
  | case1 n small => exact isNumeral_of_last (by rwa [toNat_last small])
  | case2 n large ih =>
      refine (isNumeral_of_more ?_).mpr ih
      rw [toNat_more]
      omega

theorem value_numeral (n : Nat) : value (numeral n) = n := by
  fun_induction numeral n with
  | case1 n small =>
      rw [value_cons, value_nil, toNat_last small]
      omega
  | case2 n large ih =>
      rw [value_cons, ih, toNat_more]
      omega

/-- Another numeral of the same number is longer. -/
private theorem numeral_least (n : Nat) {other : List UInt8} (h : IsNumeral other)
    (same : value other = n) : other = numeral n ∨ (numeral n).length < other.length := by
  induction other generalizing n with
  | nil =>
      obtain ⟨-, b, mem, -⟩ := h
      cases mem
  | cons b rest ih =>
      rw [value_cons] at same
      have byte := b.toNat_lt
      by_cases last : b.toNat < 128
      · obtain ⟨whole, -⟩ := h
        rw [front_of_last last, List.cons.injEq] at whole
        obtain ⟨-, rfl⟩ := whole
        rw [value_nil] at same
        have number : n = b.toNat := by omega
        rw [number, numeral_of_small last, UInt8.ofNat_toNat]
        exact .inl rfl
      · by_cases small : n < 128
        · -- One byte would do.
          have more : rest ≠ [] := by
            rintro rfl
            obtain ⟨-, c, mem, final⟩ := h
            rw [List.mem_singleton.mp mem] at final
            exact last final
          rw [numeral_of_small small]
          exact .inr (by simpa using List.length_pos_iff.mpr more)
        · rw [numeral_of_large small]
          have group : UInt8.ofNat (n % 128 + 128) = b := by
            rw [← UInt8.toNat_inj, toNat_more]
            omega
          rw [group]
          rcases ih (n / 128) ((isNumeral_of_more last).mp h) (by omega) with equal | longer
          · exact .inl (congrArg (b :: ·) equal)
          · exact .inr (Nat.succ_lt_succ longer)

private theorem numeral_unpadded {n : Nat} (padded : (numeral n).getLast? = some 0) : n = 0 := by
  fun_induction numeral n with
  | case1 n small =>
      have zero : UInt8.ofNat n = 0 := by simpa using padded
      rw [← toNat_last small, zero]
      rfl
  | case2 n large ih =>
      rw [List.getLast?_cons, List.getLast?_eq_some_getLast (numeral_ne_nil _)] at padded
      rw [List.getLast?_eq_some_getLast (numeral_ne_nil _)] at ih
      have := ih (by simpa using padded)
      omega

private theorem shortest_numeral (n : Nat) : Shortest n (numeral n) where
  isNumeral := isNumeral_numeral n
  value_eq := value_numeral n
  least _ h same := numeral_least n h same
  unpadded := numeral_unpadded

end Bytes

/-! ## Reading -/

/-- What is refused in a group: that it reaches the limit by itself. -/
private theorem excessive_iff (maxBits shift : Nat) {group : Nat} (small : group < 128) :
    (group ≠ 0 ∧ (maxBits ≤ shift ∨ group >>> min (maxBits - shift) 7 ≠ 0)) ↔
      2 ^ maxBits ≤ group * 2 ^ shift := by
  rcases Nat.eq_zero_or_pos group with rfl | positive
  · simp
  rcases Nat.lt_or_ge shift maxBits with within | beyond
  · have split : 2 ^ maxBits = 2 ^ (maxBits - shift) * 2 ^ shift := by
      rw [← Nat.pow_add, Nat.sub_add_cancel (Nat.le_of_lt within)]
    rw [split, Nat.mul_le_mul_right_iff (Nat.two_pow_pos shift), Nat.shiftRight_eq_div_pow,
      ne_eq (_ / _), Nat.div_eq_zero_iff]
    have powers : 2 ^ (maxBits - shift) ≤ group ↔ 2 ^ min (maxBits - shift) 7 ≤ group := by
      rcases Nat.le_total (maxBits - shift) 7 with few | many
      · rw [Nat.min_eq_left few]
      · rw [Nat.min_eq_right many]
        have large : 2 ^ 7 ≤ 2 ^ (maxBits - shift) := Nat.pow_le_pow_right (by decide) many
        omega
    have nonzero := Nat.two_pow_pos (min (maxBits - shift) 7)
    omega
  · have above : 2 ^ maxBits ≤ group * 2 ^ shift :=
      (Nat.pow_le_pow_right (by decide) beyond).trans (Nat.le_mul_of_pos_left _ positive)
    simp [above, beyond, Nat.ne_of_gt positive]

private theorem add_group_lt {acc group maxBits shift : Nat} (low : acc < 2 ^ shift)
    (below : acc < 2 ^ maxBits) (fits : group * 2 ^ shift < 2 ^ maxBits) :
    acc + group * 2 ^ shift < 2 ^ maxBits := by
  rcases Nat.eq_zero_or_pos group with rfl | positive
  · simpa using below
  have within : shift < maxBits := by
    by_contra beyond
    have above : 2 ^ maxBits ≤ 2 ^ shift := Nat.pow_le_pow_right (by decide) (by omega)
    have := Nat.le_mul_of_pos_left (2 ^ shift) positive
    omega
  have split : 2 ^ maxBits = 2 ^ (maxBits - shift) * 2 ^ shift := by
    rw [← Nat.pow_add, Nat.sub_add_cancel (Nat.le_of_lt within)]
  rw [split] at fits ⊢
  calc acc + group * 2 ^ shift < 2 ^ shift + group * 2 ^ shift := Nat.add_lt_add_right low _
    _ = (group + 1) * 2 ^ shift := by rw [Nat.succ_mul, Nat.add_comm]
    _ ≤ 2 ^ (maxBits - shift) * 2 ^ shift :=
      Nat.mul_le_mul_right _ (Nat.lt_of_mul_lt_mul_right fits)

/-- What the reading of a numeral comes to whose number adds up to `total`, after some bytes were
read already. -/
structure Outcome (maxBits total : Nat) (seen : List UInt8) (path : Path) (s : State)
    (result : EStateM.Result Failure State Nat) : Prop where
  accepted : Ends s.stream.left → total < 2 ^ maxBits →
    ∃ left, result = .ok total { s with stream := left } ∧
      s.stream.Ahead (front s.stream.left).length left
  excessive : 2 ^ maxBits ≤ total → ∃ more left, more <+: front s.stream.left ∧
    result = .error ((Fault.excess (.numeral (seen ++ more) maxBits)).atPath path)
      { s with stream := left }
  short : ¬ Ends s.stream.left → total < 2 ^ maxBits →
    ∃ left, result = .error ((Fault.shortage (.read 1 0)).atPath path) { s with stream := left } ∧
      s.stream.Ahead (front s.stream.left).length left

private theorem readFrom_byte (maxBits : Nat) {path : Path} {s s' : State} {b : UInt8}
    (first : Run.read 1 path s = .ok [b] s') (more acc shift : Nat) (seen : List UInt8) :
    readFrom maxBits path (more + 1) acc shift seen s =
      (if 2 ^ maxBits ≤ b.toNat % 128 * 2 ^ shift then
        Run.fail (.excess (.numeral (seen ++ [b]) maxBits)) path
      else if b.toNat < 128 then pure (acc + b.toNat % 128 * 2 ^ shift)
      else readFrom maxBits path more (acc + b.toNat % 128 * 2 ^ shift) (shift + 7)
        (seen ++ [b])) s' := by
  have refused := excessive_iff maxBits shift
    (Nat.mod_lt b.toNat (by decide : 0 < 128))
  rw [readFrom, Run.bind_of_ok first]
  by_cases large : 2 ^ maxBits ≤ b.toNat % 128 * 2 ^ shift
  · rw [if_pos large]
    exact congrFun (if_pos (refused.mpr large)) s'
  · rw [if_neg large]
    exact congrFun (if_neg (fun bad => large (refused.mp bad))) s'

namespace Outcome

variable {maxBits total : Nat} {seen rest : List UInt8} {path : Path} {s : State} {left : Stream}
  {b : UInt8} {result : EStateM.Result Failure State Nat}

private theorem of_nil (next : s.stream.left = []) (ahead : s.stream.Ahead 0 left)
    (below : total < 2 ^ maxBits) :
    Outcome maxBits total seen path s
      (.error ((Fault.shortage (.read 1 0)).atPath path) { s with stream := left }) where
  accepted ends := by
    obtain ⟨b, mem, -⟩ := ends
    rw [next] at mem
    cases mem
  excessive reaches := absurd below (Nat.not_lt.mpr reaches)
  short _ _ := ⟨left, rfl, by rw [next]; exact ahead⟩

private theorem of_excess (next : s.stream.left = b :: rest) (reaches : 2 ^ maxBits ≤ total) :
    Outcome maxBits total seen path s
      (.error ((Fault.excess (.numeral (seen ++ [b]) maxBits)).atPath path)
        { s with stream := left }) where
  accepted _ below := absurd below (Nat.not_lt.mpr reaches)
  excessive _ := by
    refine ⟨[b], left, ?_, rfl⟩
    rw [next]
    by_cases last : b.toNat < 128
    · rw [front_of_last last]
    · rw [front_of_more last]
      exact ⟨front rest, rfl⟩
  short _ below := absurd below (Nat.not_lt.mpr reaches)

private theorem of_last (next : s.stream.left = b :: rest) (last : b.toNat < 128)
    (ahead : s.stream.Ahead 1 left) (below : total < 2 ^ maxBits) :
    Outcome maxBits total seen path s (.ok total { s with stream := left }) where
  accepted _ _ := ⟨left, rfl, by simpa [next, front_of_last last] using ahead⟩
  excessive reaches := absurd below (Nat.not_lt.mpr reaches)
  short endless := by
    rw [next] at endless
    exact absurd (ends_of_last last rest) endless

private theorem of_more (next : s.stream.left = b :: rest) (last : ¬ b.toNat < 128)
    (ahead : s.stream.Ahead 1 left) (behind : left.left = rest)
    (later : Outcome maxBits total (seen ++ [b]) path { s with stream := left } result) :
    Outcome maxBits total seen path s result := by
  obtain ⟨accepted, excessive, short⟩ := later
  rw [behind] at accepted excessive short
  have onward {left' : Stream} (ahead' : left.Ahead (front rest).length left') :
      s.stream.Ahead (front s.stream.left).length left' := by
    rw [next, front_of_more last, List.length_cons, Nat.add_comm]
    exact ahead.trans ahead'
  refine ⟨fun ends below => ?_, fun reaches => ?_, fun endless below => ?_⟩
  · rw [next, ends_of_more last] at ends
    obtain ⟨left', ran, ahead'⟩ := accepted ends below
    exact ⟨left', ran, onward ahead'⟩
  · obtain ⟨more, left', within, ran⟩ := excessive reaches
    refine ⟨b :: more, left', ?_, ?_⟩
    · rw [next, front_of_more last]
      exact List.cons_prefix_cons.mpr ⟨rfl, within⟩
    · rw [ran, List.append_assoc]
      rfl
  · rw [next, ends_of_more last] at endless
    obtain ⟨left', ran, ahead'⟩ := short endless below
    exact ⟨left', ran, onward ahead'⟩

end Outcome

private theorem group_le_value (b : UInt8) (rest : List UInt8) :
    b.toNat % 128 ≤ value (front (b :: rest)) := by
  by_cases last : b.toNat < 128
  · simp [front_of_last last]
  · simp [front_of_more last]

/-- The groups are added up, each with its place value, until one of them reaches the limit, a
byte ends the numeral, or nothing is left. -/
private theorem readFrom_outcome (maxBits : Nat) (path : Path) (shift : Nat) {more acc : Nat}
    (seen : List UInt8)
    (s : State) (enough : s.stream.left.length < more) (low : acc < 2 ^ shift)
    (below : acc < 2 ^ maxBits) :
    Outcome maxBits (acc + value (front s.stream.left) * 2 ^ shift) seen path s
      (readFrom maxBits path more acc shift seen s) := by
  induction more generalizing acc shift seen s with
  | zero => exact absurd enough (Nat.not_lt_zero _)
  | succ more ih =>
      cases data : s.stream.left with
      | nil =>
          obtain ⟨left, failed, ahead⟩ := Run.read_of_short (s := s) (n := 1) (by simp [data]) path
          rw [data] at failed ahead
          have ran : readFrom maxBits path (more + 1) acc shift seen s = _ :=
            Run.bind_of_error failed _
          rw [ran]
          exact .of_nil data ahead (by simpa [front] using below)
      | cons b rest =>
          obtain ⟨left, read, ahead⟩ :=
            Run.read_of_left (show s.stream.left = [b] ++ _ from data) path
          have behind : left.left = rest := by rw [ahead.left_eq, data]; rfl
          rw [readFrom_byte maxBits read]
          have whole := group_le_value b rest
          have small : b.toNat % 128 < 128 := Nat.mod_lt _ (by decide)
          generalize group : b.toNat % 128 = g at whole small ⊢
          by_cases large : 2 ^ maxBits ≤ g * 2 ^ shift
          · rw [if_pos large]
            have reached := large.trans (Nat.mul_le_mul_right (2 ^ shift) whole)
            exact .of_excess data (by omega)
          · rw [if_neg large]
            have fits := add_group_lt low below (Nat.lt_of_not_le large)
            by_cases last : b.toNat < 128
            · have total : value (front (b :: rest)) = g := by simp [front_of_last last, group]
              rw [if_pos last, total]
              exact .of_last data last ahead fits
            · have place : g * 2 ^ shift + 2 ^ shift ≤ 2 ^ (shift + 7) := by
                rw [Nat.pow_add, ← Nat.succ_mul, Nat.mul_comm (2 ^ shift)]
                exact Nat.mul_le_mul_right _ small
              have total : acc + value (front (b :: rest)) * 2 ^ shift =
                  acc + g * 2 ^ shift + value (front rest) * 2 ^ (shift + 7) := by
                rw [front_of_more last, value_cons, group, Nat.pow_add]
                ring
              have later := ih (shift + 7) (seen ++ [b]) { s with stream := left }
                (by rw [behind]; rw [data, List.length_cons] at enough; omega)
                (by omega : acc + g * 2 ^ shift < 2 ^ (shift + 7)) fits
              rw [behind, ← total] at later
              rw [if_neg last]
              exact .of_more data last ahead behind later

/-- A stream has room for no more bytes than may follow. -/
theorem read_outcome (maxBits : Nat) (path : Path) (s : State) :
    Outcome maxBits (value (front s.stream.left)) [] path s (read maxBits path s) := by
  have available : Run.available s = .ok s.stream.available s := rfl
  have outcome := readFrom_outcome maxBits path 0 [] s
    (Nat.lt_succ_of_le s.stream.length_left_le) (by decide : 0 < 2 ^ 0) (Nat.two_pow_pos maxBits)
  rw [Nat.zero_add, Nat.pow_zero, Nat.mul_one] at outcome
  rw [read, Run.bind_of_ok available]
  exact outcome

private theorem Outcome.of_ok {maxBits total n : Nat} {seen : List UInt8} {path : Path}
    {s s' : State}
    {result : EStateM.Result Failure State Nat} (h : Outcome maxBits total seen path s result)
    (ran : result = .ok n s') : Ends s.stream.left ∧ n = total ∧ total < 2 ^ maxBits ∧
      s.stream.Ahead (front s.stream.left).length s'.stream := by
  obtain ⟨accepted, excessive, short⟩ := h
  rcases Nat.lt_or_ge total (2 ^ maxBits) with fits | reaches
  · by_cases ends : Ends s.stream.left
    · obtain ⟨left, read, ahead⟩ := accepted ends fits
      rw [read] at ran
      cases ran
      exact ⟨ends, rfl, fits, ahead⟩
    · obtain ⟨left, failed, -⟩ := short ends fits
      rw [failed] at ran
      cases ran
  · obtain ⟨more, left, -, failed⟩ := excessive reaches
    rw [failed] at ran
    cases ran

/-! ## Signed integers by number -/

private theorem zigzag_eq (v : Int) : ((zigzag v : Nat) : Int) =
    if 0 ≤ v then 2 * v else -2 * v - 1 := by
  unfold zigzag
  split <;> omega

private theorem zigzag_unzigzag (n : Nat) : zigzag (unzigzag n) = n := by
  unfold zigzag unzigzag
  split <;> split <;> omega

private theorem fitsInt_unzigzag {n : Nat} (small : n < 2 ^ 128) :
    Value.fitsInt (unzigzag n) = true := by
  have range : ∀ limit : Nat, n < 2 * limit →
      -(limit : Int) ≤ unzigzag n ∧ unzigzag n ≤ limit - 1 := by
    intro limit small
    unfold unzigzag
    split <;> omega
  obtain ⟨low, high⟩ := range (Nat.pow 2 127) small
  simp only [Value.fitsInt, Value.minInt, Value.maxInt, Bool.and_eq_true]
  exact ⟨decide_eq_true low, decide_eq_true high⟩

end Varint

namespace Codec

open Varint

/-- Reading accepts the numerals of the numbers below the limit, refuses a number that reaches it
and finds too few bytes otherwise.  Writing accepts the integers below the limit, each as its
shortest numeral. -/
theorem varint_numerals (maxBits : Nat) :
    (∀ (s : State) (path : Path),
      let data := front s.stream.left
      (Ends s.stream.left → value data < 2 ^ maxBits → ∃ left,
        (varint maxBits).parse path s = .ok (.int (value data)) { s with stream := left } ∧
          s.stream.Ahead data.length left) ∧
      (2 ^ maxBits ≤ value data → ∃ seen left, seen <+: data ∧
        (varint maxBits).parse path s =
          .error ((Fault.excess (.numeral seen maxBits)).atPath path) { s with stream := left }) ∧
      (¬ Ends s.stream.left → value data < 2 ^ maxBits → ∃ left,
        (varint maxBits).parse path s =
          .error ((Fault.shortage (.read 1 0)).atPath path) { s with stream := left })) ∧
    ∀ v : Int,
      (0 ≤ v → v < 2 ^ maxBits → ∃ bytes, Shortest v.toNat bytes ∧
        (varint maxBits).BuildsAs (.int v) bytes) ∧
      (v < 0 ∨ 2 ^ maxBits ≤ v → ∀ (s : State) (path : Path), ∃ cause,
        (varint maxBits).build (.int v) path s =
          .error ((Fault.excess cause).atPath path) s) := by
  constructor
  · intro s path data
    obtain ⟨accepted, excessive, short⟩ := read_outcome maxBits path s
    refine ⟨fun ends fits => ?_, fun reaches => ?_, fun open_ fits => ?_⟩
    · obtain ⟨left, ran, ahead⟩ := accepted ends fits
      exact ⟨left, Run.bind_of_ok ran _, ahead⟩
    · obtain ⟨seen, left, within, ran⟩ := excessive reaches
      exact ⟨seen, left, within, Run.bind_of_error ran _⟩
    · obtain ⟨left, ran, -⟩ := short open_ fits
      exact ⟨left, Run.bind_of_error ran _⟩
  · intro v
    have power : ((Nat.pow 2 maxBits : Nat) : Int) = 2 ^ maxBits := by simp
    constructor
    · intro low high
      refine ⟨numeral v.toNat, shortest_numeral _, buildsAs_of_write fun path s => ?_⟩
      have below : ¬ ((Nat.pow 2 maxBits : Nat) : Int) ≤ v := by rw [power]; omega
      simp only [varint, Integer.ofValue, Value.int?, Run.bind_ofExcept_ok]
      rw [if_neg (Int.not_lt.mpr low)]
      exact congrFun (if_neg below) s
    · intro outside s path
      simp only [varint, Integer.ofValue, Value.int?, Run.bind_ofExcept_ok]
      by_cases negative : v < 0
      · rw [if_pos negative]
        exact ⟨_, rfl⟩
      · have above : ((Nat.pow 2 maxBits : Nat) : Int) ≤ v := by
          rw [power]
          exact outside.resolve_left negative
        rw [if_neg negative]
        exact ⟨_, congrFun (if_pos above) s⟩

/-- Within ten bits: a group of zeros too many is read, a bit too many is refused. -/
theorem varint_numerals_ten :
    (∃ left, (varint 10).parse .this ⟨.memory [0xff, 0x87, 0x00, 0x55], .ofParams [], .empty⟩ =
        .ok (.int 1023) ⟨left, .ofParams [], .empty⟩ ∧
      (Stream.memory [0xff, 0x87, 0x00, 0x55]).Ahead 3 left) ∧
    (∃ seen left, (varint 10).parse .this ⟨.memory [0xff, 0x08], .ofParams [], .empty⟩ =
        .error ((Fault.excess (.numeral seen 10)).atPath .this) ⟨left, .ofParams [], .empty⟩) ∧
    (∃ left, (varint 10).parse .this ⟨.memory [0xff, 0x87], .ofParams [], .empty⟩ =
        .error ((Fault.shortage (.read 1 0)).atPath .this) ⟨left, .ofParams [], .empty⟩) ∧
    (∃ bytes, Shortest 1023 bytes ∧ (varint 10).BuildsAs (.int 1023) bytes) ∧
    ∃ cause, (varint 10).build (.int 1024) .this ⟨.memory [], .ofParams [], .empty⟩ =
      .error ((Fault.excess cause).atPath .this) ⟨.memory [], .ofParams [], .empty⟩ := by
  obtain ⟨parsing, building⟩ := varint_numerals 10
  obtain ⟨padded, -, -⟩ := parsing ⟨.memory [0xff, 0x87, 0x00, 0x55], .ofParams [], .empty⟩ .this
  obtain ⟨-, excessive, -⟩ := parsing ⟨.memory [0xff, 0x08], .ofParams [], .empty⟩ .this
  obtain ⟨-, -, short⟩ := parsing ⟨.memory [0xff, 0x87], .ofParams [], .empty⟩ .this
  obtain ⟨seen, left, -, refused⟩ := excessive (by decide)
  exact ⟨padded ⟨0x00, by decide, by decide⟩ (by decide), ⟨seen, left, refused⟩,
    short (by unfold Ends; decide) (by decide), (building 1023).1 (by decide) (by decide),
    (building 1024).2 (by decide) _ _⟩

/-- Each integer of 128 bits is written as a numeral that is read back as it.  Every numeral of a
number of 128 bits is read, as the integer with that number, which is written as the shortest
numeral of the number. -/
theorem zigzag_integers :
    (∀ v : Int, Value.fitsInt v = true → ∃ bytes, Codec.zigzag.BuildsAs (.int v) bytes ∧
      Codec.zigzag.ParsesAs bytes (.int v)) ∧
    (∀ (s : State) (path : Path), Ends s.stream.left → value (front s.stream.left) < 2 ^ 128 →
      ∃ w s', Codec.zigzag.parse path s = .ok w s') ∧
    ∀ (s s' : State) (path : Path) (w : Value), Codec.zigzag.parse path s = .ok w s' →
      ∃ (v : Int) (u : Nat) (bytes : List UInt8), w = .int v ∧ Value.fitsInt v = true ∧
        u < 2 ^ 128 ∧ (u : Int) = (if 0 ≤ v then 2 * v else -2 * v - 1) ∧
        IsNumeral (front s.stream.left) ∧ value (front s.stream.left) = u ∧
        s.stream.Ahead (front s.stream.left).length s'.stream ∧
        Shortest u bytes ∧ Codec.zigzag.BuildsAs (.int v) bytes := by
  have writes (v : Int) : Codec.zigzag.BuildsAs (.int v) (numeral (Varint.zigzag v)) :=
    buildsAs_of_write fun path s => rfl
  refine ⟨fun v proper => ⟨_, writes v, fun s path rest next => ?_⟩, fun s path ends fits => ?_,
    fun s s' path w ran => ?_⟩
  · obtain ⟨whole, ends⟩ := front_append (isNumeral_numeral (Varint.zigzag v)) rest
    rw [← next] at whole ends
    have number : value (front s.stream.left) = Varint.zigzag v := by rw [whole, value_numeral]
    obtain ⟨left, read, ahead⟩ :=
      (read_outcome 128 path s).accepted ends (number ▸ zigzag_lt proper)
    rw [number] at read
    rw [whole] at ahead
    refine ⟨left, ?_, ahead⟩
    rw [← unzigzag_zigzag v]
    exact Run.bind_of_ok read _
  · obtain ⟨left, read, -⟩ := (read_outcome 128 path s).accepted ends fits
    exact ⟨_, _, Run.bind_of_ok read _⟩
  · obtain ⟨n, s₁, read, last⟩ := Run.bind_eq_ok_iff.mp ran
    obtain ⟨rfl, rfl⟩ := Run.pure_eq_ok_iff.mp last
    obtain ⟨ends, rfl, fits, ahead⟩ := (read_outcome 128 path s).of_ok read
    generalize value (front s.stream.left) = u at fits ⊢
    refine ⟨unzigzag u, u, numeral u, rfl, fitsInt_unzigzag fits, fits, ?_,
      isNumeral_front ends, rfl, ahead, shortest_numeral u, ?_⟩
    · rw [← zigzag_eq, zigzag_unzigzag]
    · have own := writes (unzigzag u)
      rwa [zigzag_unzigzag] at own

/-- The least integer has the greatest number, and a numeral of it that is padded with zeros is
read, too. -/
theorem zigzag_integers_least :
    Value.fitsInt Value.minInt = true ∧
    (∃ bytes, Codec.zigzag.BuildsAs (.int Value.minInt) bytes ∧
      Codec.zigzag.ParsesAs bytes (.int Value.minInt)) ∧
    ∃ w s', Codec.zigzag.parse .this
      ⟨.memory (List.replicate 18 0xff ++ [0x83, 0x80, 0x00]), .ofParams [], .empty⟩ =
        .ok w s' := by
  refine ⟨by decide, zigzag_integers.1 _ (by decide), zigzag_integers.2.1 _ _ ?_ ?_⟩
  · exact ⟨0x00, by decide, by decide⟩
  · decide

end Codec

end BinaryFormat
