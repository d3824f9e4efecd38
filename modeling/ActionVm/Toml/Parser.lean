import ActionVm.Text.Hex
import ActionVm.Toml.Scalar

namespace ActionVm.Toml

abbrev Scan := StateT (List Char) Option

namespace Scan

def peek? : Scan (Option Char) :=
  return (← get).head?

def next : Scan Char := do
  match ← get with
  | [] => failure
  | c :: rest =>
    set rest
    return c

def expect (c : Char) : Scan Unit := do
  guard ((← next) = c)

def accept (word : List Char) : Scan Bool := do
  if word.isPrefixOf (← get) then
    modify (·.drop word.length)
    return true
  else return false

def takeWhile (p : Char → Bool) : Scan (List Char) :=
  modifyGet fun cs => (cs.takeWhile p, cs.dropWhile p)

def rounds (read : Scan (List α × Bool)) : Nat → Scan (List α)
  | 0 => failure
  | n + 1 => do
    let (items, goOn) ← read
    if goOn then return items ++ (← rounds read n) else return items

/-- Every round but the last takes a character, so that the length bounds their number. It is only
needed when there is a second round. -/
def repeated (read : Scan (List α × Bool)) : Scan (List α) := do
  let (items, goOn) ← read
  if goOn then return items ++ (← rounds read ((← get).length + 1)) else return items

end Scan

open Scan

def isBlankChar (c : Char) : Bool :=
  c = ' ' || c = '\t'

def blanks : Scan Unit := do
  let _ ← takeWhile isBlankChar

def newline : Scan Unit := do
  let _ ← accept ['\r']
  expect '\n'

def isTextChar (c : Char) : Bool :=
  c = '\t' || (0x20 ≤ c.toNat && c.toNat ≠ 0x7f)

def comment : Scan Unit := do
  if ← accept ['#'] then
    let _ ← takeWhile isTextChar

def lineEnd : Scan Unit := do
  blanks
  comment
  unless (← get).isEmpty do newline

def gap : Scan Unit := do
  let _ : List Unit ← repeated do
    blanks
    comment
    match ← peek? with
    | some '\n' | some '\r' =>
      newline
      return ([], true)
    | _ => return ([], false)

def codePoint (length : Nat) : Scan Char := do
  let digits ← get
  guard (length ≤ digits.length)
  set (digits.drop length)
  let word := digits.take length
  guard (word.all fun c => (Hex.digit? c).isSome)
  let n ← (Hex.toNat? (String.ofList word) : Option Nat)
  guard n.isValidChar
  return Char.ofNat n

def escaped : Scan Char := do
  match ← next with
  | 'b' => return '\x08'
  | 't' => return '\t'
  | 'n' => return '\n'
  | 'f' => return '\x0c'
  | 'r' => return '\r'
  | '"' => return '"'
  | '\\' => return '\\'
  | 'u' => codePoint 4
  | 'U' => codePoint 8
  | _ => failure

def basicText : Scan (List Char) :=
  repeated do
    match ← next with
    | '"' => return ([], false)
    | '\\' => return ([← escaped], true)
    | c =>
      guard (isTextChar c)
      return ([c], true)

def literalText : Scan (List Char) :=
  repeated do
    match ← next with
    | '\'' => return ([], false)
    | c =>
      guard (isTextChar c)
      return ([c], true)

/-- A run of quotes inside a text of many lines. Three of them end it, with up to two more in front. -/
def quoteRun (quote : Char) : Scan (List Char × Bool) := do
  let run ← takeWhile (· = quote)
  if run.length < 3 then return (run, true)
  guard (run.length ≤ 5)
  return (run.drop 3, false)

def innerNewline : Scan (List Char × Bool) := do
  newline
  return (['\n'], true)

/-- A backslash at the end of a line joins it with what comes next that is not blank. -/
def joinLines : Scan Bool := do
  match (← get).dropWhile isBlankChar with
  | '\n' :: _ | '\r' :: '\n' :: _ =>
    let _ : List Unit ← repeated do
      blanks
      match ← get with
      | '\n' :: _ | '\r' :: _ =>
        newline
        return ([], true)
      | _ => return ([], false)
    return true
  | _ => return false

/-- A line end right behind the opening quotes does not count. -/
def firstNewline : Scan Unit := do
  match ← get with
  | '\n' :: _ | '\r' :: '\n' :: _ => newline
  | _ => return

def basicLines : Scan (List Char) := do
  firstNewline
  repeated do
    match ← peek? with
    | some '"' => quoteRun '"'
    | some '\n' | some '\r' => innerNewline
    | _ =>
      match ← next with
      | '\\' => if ← joinLines then return ([], true) else return ([← escaped], true)
      | c =>
        guard (isTextChar c)
        return ([c], true)

def literalLines : Scan (List Char) := do
  firstNewline
  repeated do
    match ← peek? with
    | some '\'' => quoteRun '\''
    | some '\n' | some '\r' => innerNewline
    | _ =>
      let c ← next
      guard (isTextChar c)
      return ([c], true)

def isBareChar (c : Char) : Bool :=
  c.isAlphanum || c = '_' || c = '-'

def simpleKey : Scan String := do
  match ← peek? with
  | some '"' =>
    let _ ← next
    return String.ofList (← basicText)
  | some '\'' =>
    let _ ← next
    return String.ofList (← literalText)
  | _ =>
    let word ← takeWhile isBareChar
    guard (!word.isEmpty)
    return String.ofList word

def maxDepth : Nat := 80

/-- A dotted key: the names in front of the dots, and the last one. -/
def key : Scan (List String × String) := do
  let names ← repeated do
    let name ← simpleKey
    blanks
    let goOn ← accept ['.']
    if goOn then blanks
    return ([name], goOn)
  guard (names.length < maxDepth)
  return (names.dropLast, names.getLastD "")

def isWordChar (c : Char) : Bool :=
  c.isAlphanum || c = '_' || c = '-' || c = '+' || c = '.' || c = ':'

/-- A value without quotes. A date takes a time with it that follows after one space. -/
def word : Scan (List Char) := do
  let first ← takeWhile isWordChar
  match ← get with
  | ' ' :: c :: rest =>
    if afterDate? first = some [] ∧ isDigit c then
      set (c :: rest)
      return first ++ ' ' :: (← takeWhile isWordChar)
    else return first
  | _ => return first

def quoted? : Scan (Option Toml) := do
  let chars ←
    if ← accept ['"', '"', '"'] then basicLines
    else if ← accept ['"'] then basicText
    else if ← accept ['\'', '\'', '\''] then literalLines
    else if ← accept ['\''] then literalText
    else return none
  return some (text (String.ofList chars))

/-- The rest of an array. A comma may follow the last item. -/
def arrayItems (item : Scan Toml) : Scan (List Toml) :=
  repeated do
    gap
    if ← accept [']'] then return ([], false)
    let v ← item
    gap
    if ← accept [','] then return ([v], true)
    expect ']'
    return ([v], false)

def pair (item : Scan Toml) : Scan (List String × String × Toml) := do
  let (dots, name) ← key
  expect '='
  blanks
  return (dots, name, ← item)

/-- The rest of a table in braces, which stands on one line. -/
def braceFields (item : Scan Toml) : Scan Fields := do
  blanks
  if ← accept ['\x7d'] then return []
  let pairs ← repeated do
    blanks
    let p ← pair item
    blanks
    let goOn ← accept [',']
    unless goOn do expect '\x7d'
    return ([p], goOn)
  (pairs.foldlM (fun fields (dots, name, v) => assign v name dots fields) [] : Option Fields)

def bareValue : Scan Toml := do
  let w ← word
  scalar? w

def value : Nat → Scan Toml
  | 0 => do
    match ← quoted? with
    | some v => return v
    | none => bareValue
  | depth + 1 => do
    match ← quoted? with
    | some v => return v
    | none =>
      if ← accept ['['] then return array (← arrayItems (value depth))
      if ← accept ['\x7b'] then return table .braces (← braceFields (value depth))
      bareValue

/-- The text read so far: its tables, and the header that is in force. -/
structure Reading where
  fields : Fields := []
  header : List String := []

def line (r : Reading) : Scan Reading := do
  blanks
  match ← peek? with
  | none | some '\n' | some '\r' | some '#' =>
    lineEnd
    return r
  | some '[' =>
    let double ← accept ['[', '[']
    unless double do expect '['
    blanks
    let (path, name) ← key
    expect ']'
    if double then expect ']'
    lineEnd
    let change := if double then addTable name else openTable name
    let fields ← (within change path r.fields : Option Fields)
    return { fields, header := path ++ [name] }
  | some _ =>
    let (dots, name, v) ← pair (value (maxDepth - 1))
    lineEnd
    let fields ← (within (assign v name dots) r.header r.fields : Option Fields)
    return { r with fields }

def lines (r : Reading) : Nat → Scan Reading
  | 0 => failure
  | n + 1 => do
    if (← get).isEmpty then return r
    lines (← line r) n

/-- The fields of a text. A byte order mark in front of it is ignored. -/
def parse? (text : String) : Option Fields :=
  let chars := match text.toList with
    | '\ufeff' :: rest => rest
    | chars => chars
  match (lines {} (chars.length + 1)).run chars with
  | some (r, _) => some r.fields
  | none => none

end ActionVm.Toml
