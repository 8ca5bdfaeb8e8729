import PrefixFraming.Decimal
import PrefixFraming.Quoted

/-!
# What is wrong with a document

A `Cause` says why a JSON text is not a document of the expected form, an `Error` where the reader
noticed. Places are counted in bytes of UTF-8, so a reader that stops inside a character of several
bytes still has a place.

While it reads, a reader knows only what is left of the text. It reports a `Fault`: the cause and
the number of bytes not yet read. `Fault.locate` turns that into a line and a column once the whole
text is at hand.

The causes and their words, and the way in which lines and columns are counted, are those of
`serde_json`. How a value of the wrong type is named in a message (`Found`) comes from `serde`.
-/

namespace PrefixFraming.Json

/-- A value that stands where one of another type was expected. -/
inductive Found where
  /-- The word for no value. -/
  | null
  /-- A truth value. -/
  | boolean (value : Bool)
  /-- A string, with its escapes resolved. -/
  | string (value : String)
  /-- A number of at most 64 bits, written without point and exponent. -/
  | integer (value : Int)
  /-- Any other number. -/
  | float (value : Decimal)
  /-- An array. -/
  | sequence
  /-- An object. -/
  | map
deriving DecidableEq

/-- The value as messages name it. -/
def Found.render : Found → String
  | .null => "null"
  | .boolean true => "boolean `true`"
  | .boolean false => "boolean `false`"
  | .string value => "string " ++ Quoted.string value
  | .integer value => s!"integer `{value}`"
  | .float value => "floating point `" ++ value.render ++ "`"
  | .sequence => "sequence"
  | .map => "map"

/-- Why a text is not a document of the expected form. -/
inductive Cause where
  /-- The text ends where a value or a part of one should stand. -/
  | endInValue
  /-- The text ends between the parts of an object. -/
  | endInObject
  /-- The text ends between the elements of an array. -/
  | endInList
  /-- The text ends inside a string. -/
  | endInString
  /-- No colon follows a member name. -/
  | colonExpected
  /-- An element is followed by neither a comma nor the end of the array. -/
  | commaOrBracketExpected
  /-- A member is followed by neither a comma nor the end of the object. -/
  | commaOrBraceExpected
  /-- A word is not the one that its first letter announces. -/
  | wordExpected
  /-- No value begins with this byte. -/
  | valueExpected
  /-- A member does not begin with a quote. -/
  | stringKeyExpected
  /-- A digit is missing from a number, or follows a leading zero. -/
  | badNumber
  /-- A number is too large for a double. -/
  | numberOutOfRange
  /-- A backslash is followed by something that is no escape. -/
  | badEscape
  /-- A string holds a control character that is not escaped. -/
  | controlCharacter
  /-- One half of a surrogate pair stands without the other. -/
  | loneSurrogate
  /-- The first half of a surrogate pair is not followed by an escape. -/
  | surrogatePairExpected
  /-- A comma is followed by the end of the object or array. -/
  | trailingComma
  /-- More text follows the end of the document, or more elements the last setting. -/
  | trailingCharacters
  /-- A member is not known. -/
  | unknownField (name : String) (known : List String)
  /-- A member appears a second time. -/
  | duplicateField (name : String)
  /-- A value has another type than expected. -/
  | wrongType (found : Found) (expected : String)
  /-- A value has the expected type but cannot be represented in it. -/
  | wrongValue (found : Found) (expected : String)
deriving DecidableEq

/-- The cause in words. -/
def Cause.message : Cause → String
  | .endInValue => "EOF while parsing a value"
  | .endInObject => "EOF while parsing an object"
  | .endInList => "EOF while parsing a list"
  | .endInString => "EOF while parsing a string"
  | .colonExpected => "expected `:`"
  | .commaOrBracketExpected => "expected `,` or `]`"
  | .commaOrBraceExpected => "expected `,` or `\x7d`"
  | .wordExpected => "expected ident"
  | .valueExpected => "expected value"
  | .stringKeyExpected => "key must be a string"
  | .badNumber => "invalid number"
  | .numberOutOfRange => "number out of range"
  | .badEscape => "invalid escape"
  | .controlCharacter =>
    "control character (\\u0000-\\u001F) found while parsing a string"
  | .loneSurrogate => "lone leading surrogate in hex escape"
  | .surrogatePairExpected => "unexpected end of hex escape"
  | .trailingComma => "trailing comma"
  | .trailingCharacters => "trailing characters"
  | .unknownField name known =>
    let names := " or ".intercalate (known.map fun k => "`" ++ k ++ "`")
    s!"unknown field `{name}`, expected {names}"
  | .duplicateField name => s!"duplicate field `{name}`"
  | .wrongType found expected =>
    let shown := found.render
    s!"invalid type: {shown}, expected {expected}"
  | .wrongValue found expected =>
    let shown := found.render
    s!"invalid value: {shown}, expected {expected}"

/-- A cause and the place where it was noticed. -/
structure Error where
  /-- Why the text was refused. -/
  cause : Cause
  /-- The line of the place, counted from one. -/
  line : Nat
  /-- The bytes of that line that lie before the place. -/
  column : Nat
deriving DecidableEq

/-- The error in words. -/
def Error.message (e : Error) : String :=
  let what := e.cause.message
  s!"{what} at line {e.line} column {e.column}"

/-- The number of bytes that characters take up in UTF-8. -/
def byteCount (text : List Char) : Nat := text.foldr (fun c n => c.utf8Size + n) 0

/-- Moves `n` bytes on from a line and a column: a line feed opens the next line. -/
def advance (line column : Nat) : List Char → Nat → Nat × Nat
  | [], _ => (line, column)
  | _, 0 => (line, column)
  | '\n' :: rest, n + 1 => advance (line + 1) 0 rest n
  | c :: rest, n => advance line (column + min n c.utf8Size) rest (n - c.utf8Size)

/-- A cause, noticed when some bytes of the text were still unread. -/
structure Fault where
  /-- Why the text was refused. -/
  cause : Cause
  /-- The number of bytes after the place. -/
  unread : Nat
deriving DecidableEq

namespace Fault

/-- Noticed in front of `rest`. -/
def here (cause : Cause) (rest : List Char) : Fault := ⟨cause, byteCount rest⟩

/-- Noticed on the first byte of `rest`, which counts as read if there is one. -/
def next (cause : Cause) (rest : List Char) : Fault := ⟨cause, byteCount rest - 1⟩

/-- The fault's line and column in the whole text. -/
def locate (f : Fault) (text : List Char) : Error :=
  let (line, column) := advance 1 0 text (byteCount text - f.unread)
  ⟨f.cause, line, column⟩

end Fault

end PrefixFraming.Json
