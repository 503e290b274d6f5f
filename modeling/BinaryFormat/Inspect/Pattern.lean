import BinaryFormat.Text.CaseFold
import BinaryFormat.Text.Word

/-!
# Search patterns

A small engine for searches.  Its patterns are regular expressions over the
characters of a key: literals, the dot, classes, repetitions, groups,
alternatives, both anchors and letters without case.  A pattern matches a key
when it matches some beginning of it.
-/

namespace BinaryFormat

/-- A part of a class of characters. -/
inductive ClassItem where
  | span (first last : Char)
  | word (inside : Bool)
  deriving DecidableEq, Repr

inductive Pattern where
  | empty
  /-- A letter, with either case if `folded`. -/
  | char (c : Char) (folded : Bool)
  /-- Any character but the end of a line. -/
  | any
  | oneOf (items : List ClassItem) (negated folded : Bool)
  | sequence (first second : Pattern)
  | either (first second : Pattern)
  | repeated (of : Pattern) (least : Nat) (most : Option Nat)
  | atStart
  | atEnd
  deriving Repr

namespace Pattern

/-! ## Matching -/

def ClassItem.holds (point : Nat) : ClassItem → Bool
  | .span first last => first.toNat ≤ point && point ≤ last.toNat
  | .word inside => Text.isWord (Char.ofNat point) == inside

/-- Whether a class contains a character, or one that is the same letter if `folded`. -/
def contains (items : List ClassItem) (folded : Bool) (c : Char) : Bool :=
  let points := if folded then Text.sameLetters c else [c.toNat]
  points.any fun point => items.any (ClassItem.holds point)

/-- Whether one character fits. -/
def fits (test : Char → Bool) (key : List Char) (i : Nat) : List Nat :=
  match key[i]? with
  | some c => if test c then [i + 1] else []
  | none => []

/-- The positions after exactly `n` steps. -/
def exactly (step : Nat → List Nat) : Nat → List Nat → List Nat
  | 0, starts => starts
  | n + 1, starts => exactly step n (starts.flatMap step).eraseDups

/-- The positions after at most `n` steps. -/
def atMost (step : Nat → List Nat) : Nat → List Nat → List Nat
  | 0, starts => starts
  | n + 1, starts => (starts ++ atMost step n (starts.flatMap step).eraseDups).eraseDups

/-- Where in a key a match from position `i` can end. -/
def ends (key : List Char) : Pattern → Nat → List Nat
  | empty, i => [i]
  | char c folded, i =>
      fits (fun d => if folded then Text.foldCase c == Text.foldCase d else c == d) key i
  | any, i => fits (· != '\n') key i
  | oneOf items negated folded, i => fits (fun c => contains items folded c != negated) key i
  | sequence first second, i => ((ends key first i).flatMap (ends key second)).eraseDups
  | either first second, i => (ends key first i ++ ends key second i).eraseDups
  | repeated of least most, i =>
      let rounds :=
        match most with
        | some most => most - least
        | none => key.length
      atMost (ends key of) rounds (exactly (ends key of) least [i])
  | atStart, i => if i = 0 then [i] else []
  | atEnd, i => if i = key.length then [i] else []

/-- Whether the pattern matches a beginning of the key. -/
def matchesKey (p : Pattern) (key : String) : Bool := !(ends key.toList p 0).isEmpty

/-! ## Syntax -/

/-- Whether a backslash makes a character stand for itself. -/
def isEscapable (c : Char) : Bool :=
  c.toNat < 128 && 32 ≤ c.toNat && !c.isAlphanum && c != '<' && c != '>' && c.toNat != 127

/-- One character of a class, or a class by name. -/
def classItem : List Char → Option (ClassItem × List Char)
  | '\\' :: 'w' :: rest => some (.word true, rest)
  | '\\' :: 'W' :: rest => some (.word false, rest)
  | '\\' :: c :: rest => if isEscapable c then some (.span c c, rest) else none
  | ['\\'] => none
  | '[' :: _ => none
  | c :: rest => some (.span c c, rest)
  | [] => none

/-- The items of a class up to its bracket.  At most `more` items can follow. -/
def classItems : Nat → List ClassItem → List Char → Option (List ClassItem × List Char)
  | 0, _, _ => none
  | more + 1, items, text =>
    match text with
    | ']' :: rest => some (items, rest)
    | _ => do
      let (item, rest) ← classItem text
      match item, rest with
      | .span first _, '-' :: next :: rest =>
        if next = ']' || next = '-' then classItems more (item :: items) ('-' :: next :: rest)
        else
          match ← classItem (next :: rest) with
          | (.span last _, rest) =>
            if first.toNat ≤ last.toNat then classItems more (.span first last :: items) rest
            else none
          | (.word _, _) => none
      | .word _, '-' :: next :: _ =>
        if next = ']' || next = '-' then classItems more (item :: items) rest else none
      | _, _ => classItems more (item :: items) rest

/-- Hyphens at the start of a class, and a bracket right there, stand for themselves. -/
def classStart (items : List ClassItem) : List Char → List ClassItem × List Char
  | '-' :: rest => classStart (.span '-' '-' :: items) rest
  | ']' :: rest => if items.isEmpty then ([.span ']' ']'], rest) else (items, ']' :: rest)
  | text => (items, text)

/-- A class after its opening bracket. -/
def readClass (folded : Bool) (text : List Char) : Option (Pattern × List Char) := do
  let (negated, text) :=
    match text with
    | '^' :: rest => (true, rest)
    | _ => (false, text)
  let (items, rest) := classStart [] text
  let (items, rest) ← classItems (rest.length + 1) items rest
  return (oneOf items negated folded, rest)

/-- A decimal number with blanks around it. -/
def readNumber (text : List Char) : Option (Nat × List Char) :=
  let text := text.dropWhile (· == ' ')
  let digits := text.takeWhile Char.isDigit
  let rest := (text.dropWhile Char.isDigit).dropWhile (· == ' ')
  let n := digits.foldl (fun n c => 10 * n + (c.toNat - 48)) 0
  if digits.isEmpty || Nat.pow 2 32 ≤ n then none else some (n, rest)

/-- The bounds of a counted repetition after its opening brace. -/
def readCounts (text : List Char) : Option (Nat × Option Nat × List Char) := do
  let (least, rest) ← readNumber text
  match rest with
  | '\x7d' :: rest => some (least, some least, rest)
  | ',' :: '\x7d' :: rest => some (least, none, rest)
  | ',' :: rest =>
    let (most, rest) ← readNumber rest
    match rest with
    | '\x7d' :: rest => if least ≤ most then some (least, some most, rest) else none
    | _ => none
  | _ => none

/-- A repetition may be marked as reluctant, which changes no match of a beginning. -/
def dropReluctant : List Char → List Char
  | '?' :: rest => rest
  | text => text

/-- The pattern of parts in reverse order; settings among them are not parts. -/
def joinParts (parts : List (Option Pattern)) : Pattern :=
  parts.foldl (fun p part =>
    match part with
    | some first => sequence first p
    | none => p) empty

def joinBranches (branches : List Pattern) (last : Pattern) : Pattern :=
  branches.foldl (fun p branch => either branch p) last

/-- The pattern that a repetition applies to is the part before it. -/
def repeatLast (least : Nat) (most : Option Nat) :
    List (Option Pattern) → Option (List (Option Pattern))
  | some p :: parts => some (some (repeated p least most) :: parts)
  | _ => none

/-- Reads the branches of a group up to its parenthesis or the end, with the branches and
the parts read so far.  Every step takes a character, so `fuel` is the number of these. -/
def readGroup : Nat → Bool → List Pattern → List (Option Pattern) → List Char →
    Option (Pattern × List Char)
  | 0, _, branches, parts, text =>
      if text.isEmpty then some (joinBranches branches (joinParts parts), []) else none
  | fuel + 1, folded, branches, parts, text =>
    let nested (folded' : Bool) (text : List Char) : Option (Pattern × List Char) := do
      match ← readGroup fuel folded' [] [] text with
      | (p, ')' :: rest) => readGroup fuel folded branches (some p :: parts) rest
      | _ => none
    let counted (least : Nat) (most : Option Nat) (rest : List Char) :
        Option (Pattern × List Char) := do
      readGroup fuel folded branches (← repeatLast least most parts) (dropReluctant rest)
    match text with
    | [] => some (joinBranches branches (joinParts parts), [])
    | ')' :: _ => some (joinBranches branches (joinParts parts), text)
    | '|' :: rest => readGroup fuel folded (joinParts parts :: branches) [] rest
    | '(' :: '?' :: 'i' :: ')' :: rest => readGroup fuel true branches (none :: parts) rest
    | '(' :: '?' :: 'i' :: ':' :: rest => nested true rest
    | '(' :: '?' :: ':' :: rest => nested folded rest
    | '(' :: '?' :: _ => none
    | '(' :: rest => nested folded rest
    | '*' :: rest => counted 0 none rest
    | '+' :: rest => counted 1 none rest
    | '?' :: rest => counted 0 (some 1) rest
    | '\x7b' :: rest => do
      let (least, most, rest) ← readCounts rest
      counted least most rest
    | '[' :: rest => do
      let (p, rest) ← readClass folded rest
      readGroup fuel folded branches (some p :: parts) rest
    | '.' :: rest => readGroup fuel folded branches (some any :: parts) rest
    | '^' :: rest => readGroup fuel folded branches (some atStart :: parts) rest
    | '$' :: rest => readGroup fuel folded branches (some atEnd :: parts) rest
    | '\\' :: 'w' :: rest =>
        readGroup fuel folded branches (some (oneOf [.word true] false folded) :: parts) rest
    | '\\' :: 'W' :: rest =>
        readGroup fuel folded branches (some (oneOf [.word true] true folded) :: parts) rest
    | '\\' :: c :: rest =>
      if isEscapable c then readGroup fuel folded branches (some (char c folded) :: parts) rest
      else none
    | ['\\'] => none
    | c :: rest => readGroup fuel folded branches (some (char c folded) :: parts) rest

/-- The pattern that a text describes, if it is well formed. -/
def ofText? (text : String) : Option Pattern :=
  match readGroup text.length false [] [] text.toList with
  | some (p, []) => some p
  | _ => none

/-- The engine that reads these patterns and no others. -/
def engine (text : String) : Except String (String → Bool) :=
  match ofText? text with
  | some p => .ok p.matchesKey
  | none => .error "error parsing pattern 0"

end Pattern

end BinaryFormat
