import BinaryFormat.Lazy.Access

/-!
# JSON text of values

Compact JSON: containers and flags as objects without their private entries,
byte strings as arrays of numbers, absence and numbers without a JSON form as
`null`.  Lazy values are forced on the way.
-/

namespace BinaryFormat

namespace Json

def escapeChar (c : Char) : List Char :=
  if c = '"' then ['\\', '"']
  else if c = '\\' then ['\\', '\\']
  else if c = '\x08' then ['\\', 'b']
  else if c = '\x0c' then ['\\', 'f']
  else if c = '\n' then ['\\', 'n']
  else if c = '\r' then ['\\', 'r']
  else if c = '\t' then ['\\', 't']
  else if c.toNat < 0x20 then '\\' :: 'u' :: (Hex.number 4 c.toNat).toList
  else [c]

def quote (text : String) : String :=
  String.ofList ('"' :: text.toList.flatMap escapeChar ++ ['"'])

def number (x : Double) : String := if x.isFinite then Decimal.text .json x else "null"

private def commas (parts : List String) : String := ",".intercalate parts

variable {ε : Type}

mutual

/-- The text of a value, given the text of its lazy parts. -/
def text (lazyText : Value → Lookup ε String) : Value → Lookup ε String
  | .none => return "null"
  | .bool b => return toString b
  | .int n => return toString n
  | .float x => return number x
  | .bytes data => return "[" ++ commas (data.map fun b => toString b.toNat) ++ "]"
  | .str s => return quote s
  | .list items => do return "[" ++ commas (← itemTexts lazyText items) ++ "]"
  | .container fields => do return "\x7b" ++ commas (← fieldTexts lazyText fields) ++ "\x7d"
  | .flags fields => do return "\x7b" ++ commas (← fieldTexts lazyText fields) ++ "\x7d"
  | v => lazyText v

def itemTexts (lazyText : Value → Lookup ε String) : List Value → Lookup ε (List String)
  | [] => return []
  | v :: rest => do
    let t ← text lazyText v
    return t :: (← itemTexts lazyText rest)

def fieldTexts (lazyText : Value → Lookup ε String) :
    List (String × Value) → Lookup ε (List String)
  | [] => return []
  | (key, v) :: rest => do
    if Record.isPrivate key then fieldTexts lazyText rest
    else
      let t := quote key ++ ":" ++ (← text lazyText v)
      return t :: (← fieldTexts lazyText rest)

end

end Json

/-- The JSON text of a value. -/
def Value.json (r : Resolver) (v : Value) : Lookup Failure String :=
  Json.text (fun v => do Json.text (fun _ => return "null") (← r.force v)) v

end BinaryFormat
