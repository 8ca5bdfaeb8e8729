import PrefixFraming.Config
import PrefixFraming.Json.Unsigned

/-!
# Configuration documents

A configuration can be written as a JSON object, whose members name the settings, or as a JSON
array, whose elements are the settings in order. Settings that are left out keep their defaults. A
member may appear once, and no others are known.

`read` takes a whole text apart, `Config.ofJson` also refuses a configuration that cannot be used,
and `Config.ofFile` finds the text in a file first.

`read` is the reading that `serde` derives, and `serde_json` drives, for a structure with two named
fields that has defaults and denies unknown fields. From there come the array as a second form, the
defaults, and the rule that a member that is not known, or not for the first time, is a fault before
its value is looked at.
-/

namespace PrefixFraming.Config

/-- The settings that a document can give. -/
inductive Field where
  /-- The largest payload length to accept. -/
  | maxFrameSize
  /-- The number of bytes that one read can take. -/
  | readBufferSize
deriving DecidableEq

namespace Field

/-- The settings in the order of an array's elements. -/
def all : List Field := [.maxFrameSize, .readBufferSize]

/-- The member name of a setting. -/
def name : Field → String
  | .maxFrameSize => "max_frame_size"
  | .readBufferSize => "read_buffer_size"

/-- The numbers that a setting can take. -/
def width : Field → Json.Width
  | .maxFrameSize => .word
  | .readBufferSize => .size

/-- Gives a setting a value. -/
def set (f : Field) (value : Nat) (c : Config) : Config :=
  match f with
  | .maxFrameSize => c.withMaxFrameSize (UInt32.ofNat value)
  | .readBufferSize => c.withReadBufferSize (UInt64.ofNat value)

end Field

namespace Document

open Json

/-! ## Objects -/

/-- The fault of a member name that is not the name of a setting still to be given. What follows the
name is not looked at, but a closing brace counts as read. -/
def refuseName (name : String) (text : List Char) : Fault :=
  let names := Field.all.map Field.name
  let cause : Cause :=
    if names.contains name then .duplicateField name else .unknownField name names
  match skipBlanks text with
  | '}' :: rest => .here cause rest
  | rest => .here cause rest

/-- Reads the value of a setting from behind its name. -/
def readMember (f : Field) (c : Config) (text : List Char) : Reading Config :=
  match skipBlanks text with
  | [] => .error (.next .endInObject [])
  | ':' :: rest =>
    match readUnsigned f.width rest with
    | .ok (value, rest) => .ok (f.set value c, rest)
    | .error fault => .error fault
  | rest => .error (.next .colonExpected rest)

/-- Goes on to behind the opening quote of the next member name, or past the brace if the object
ends instead, and says which. The first member follows the brace, every other one a comma. -/
def nextMember (first : Bool) (text : List Char) : Reading Bool :=
  match skipBlanks text with
  | [] => .error (.next .endInObject [])
  | '}' :: rest => .ok (false, rest)
  | c :: rest =>
    if first then
      if c = '"' then .ok (true, rest) else .error (.next .stringKeyExpected (c :: rest))
    else if c = ',' then
      match skipBlanks rest with
      | [] => .error (.next .endInValue [])
      | '"' :: rest => .ok (true, rest)
      | '}' :: rest => .error (.next .trailingComma ('}' :: rest))
      | rest => .error (.next .stringKeyExpected rest)
    else .error (.next .commaOrBraceExpected (c :: rest))

/-- Reads the members of an object from behind its opening brace. `unseen` holds the settings that
no member has given yet; each member read takes one of them away. -/
def readMembers (first : Bool) (unseen : List Field) (c : Config) (text : List Char) :
    Reading Config :=
  match nextMember first text with
  | .error fault => .error fault
  | .ok (false, rest) => .ok (c, rest)
  | .ok (true, rest) =>
    match readString rest with
    | .error fault => .error fault
    | .ok (name, rest) =>
      match _found : unseen.find? (·.name = name) with
      | none => .error (refuseName name rest)
      | some f =>
        match readMember f c rest with
        | .error fault => .error fault
        | .ok (c, rest) => readMembers false (unseen.erase f) c rest
termination_by unseen.length
decreasing_by
  have hmem := List.mem_of_find?_eq_some _found
  have hlength := List.length_erase_of_mem hmem
  have hpos := List.length_pos_of_mem hmem
  omega

/-! ## Arrays -/

/-- Reads the end of an array of which all elements have been read. -/
def readArrayEnd (c : Config) (text : List Char) : Reading Config :=
  match skipBlanks text with
  | [] => .error (.next .endInList [])
  | ']' :: rest => .ok (c, rest)
  | ',' :: rest =>
    match skipBlanks rest with
    | ']' :: rest => .error (.next .trailingComma (']' :: rest))
    | rest => .error (.next .trailingCharacters rest)
  | rest => .error (.next .trailingCharacters rest)

/-- Goes on to the next element, or past the bracket if the array ends instead, and says which. The
first element follows the bracket, every other one a comma. -/
def nextElement (first : Bool) (text : List Char) : Reading Bool :=
  match skipBlanks text with
  | [] => .error (.next .endInList [])
  | ']' :: rest => .ok (false, rest)
  | c :: rest =>
    if first then .ok (true, c :: rest)
    else if c = ',' then
      match skipBlanks rest with
      | [] => .error (.next .endInValue [])
      | ']' :: rest => .error (.next .trailingComma (']' :: rest))
      | rest => .ok (true, rest)
    else .error (.next .commaOrBracketExpected (c :: rest))

/-- Reads the elements of an array from behind its opening bracket, one for each setting at most. -/
def readElements : Bool → List Field → Config → List Char → Reading Config
  | _, [], c, text => readArrayEnd c text
  | first, f :: fields, c, text =>
    match nextElement first text with
    | .error fault => .error fault
    | .ok (false, rest) => .ok (c, rest)
    | .ok (true, rest) =>
      match readUnsigned f.width rest with
      | .error fault => .error fault
      | .ok (value, rest) => readElements false fields (f.set value c) rest

/-! ## Documents -/

/-- Reads the object or the array at the head of a text. -/
def readValue (text : List Char) : Reading Config :=
  match skipBlanks text with
  | [] => .error (.next .endInValue [])
  | '{' :: rest => readMembers true Field.all Config.default rest
  | '[' :: rest => readElements true Field.all Config.default rest
  | rest => .error (wrongType "struct DecoderConfig" rest)

/-- Reads a whole text, which holds one document and nothing else. -/
def read (text : List Char) : Except Fault Config :=
  match readValue text with
  | .error fault => .error fault
  | .ok (c, rest) =>
    match skipBlanks rest with
    | [] => .ok c
    | rest => .error (.next .trailingCharacters rest)

end Document

/-- The usable configuration that a text describes. -/
def ofJson (text : String) : Except Error Config :=
  match Document.read text.toList with
  | .error fault => .error (.json (fault.locate text.toList))
  | .ok c =>
    match c.validate with
    | .error e => .error e
    | .ok () => .ok c

/-- What stands at a path. -/
inductive File where
  /-- Nothing. -/
  | missing
  /-- A directory, which cannot be read as text. -/
  | directory
  /-- A file with these bytes. -/
  | holding (content : ByteArray)

/-- The configuration that a file describes; its bytes have to be UTF-8. -/
def ofFile : File → Except Error Config
  | .missing => .error (.io ⟨.notFound, some "No such file or directory (os error 2)"⟩)
  | .directory => .error (.io ⟨.other, some "Is a directory (os error 21)"⟩)
  | .holding content =>
    match String.fromUTF8? content with
    | some text => ofJson text
    | none => .error (.io ⟨.invalidData, some "stream did not contain valid UTF-8"⟩)

end PrefixFraming.Config
