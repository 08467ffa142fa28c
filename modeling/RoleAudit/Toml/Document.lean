import RoleAudit.Toml.Draft
import RoleAudit.Toml.Number
import RoleAudit.Toml.Quoted

/-!
# Documents of TOML

A document is a list of lines: headers of tables, headers of lists of tables, and
values under dotted keys.  `statements?` reads the lines, and `members?` builds
what they say.
-/

namespace RoleAudit.Toml

/-! ## Keys -/

/-- Whether a character may stand in a key without quotes. -/
def isKeyChar (c : Char) : Bool :=
  c.isAlphanum || c = '_' || c = '-'

/-- Read a key without dots. -/
def simpleKey : List Char → Option (String × List Char)
  | '"' :: rest => (inLine '"' rest).map fun read => (String.ofList read.1, read.2)
  | '\x27' :: rest => (inLine '\x27' rest).map fun read => (String.ofList read.1, read.2)
  | text =>
      let name := text.takeWhile isKeyChar
      if name = [] then none else some (String.ofList name, text.dropWhile isKeyChar)

/-- Read a key with the spaces around it. -/
def spacedKey (text : List Char) : Option (String × List Char) :=
  (simpleKey (skipSpace text)).map fun read => (read.1, skipSpace read.2)

/-- The greatest number of keys with dots between, and of lists and tables in one another. -/
def maxDepth : Nat := 79

/-- Read keys with dots between. -/
def dottedKey (text : List Char) : Option (List String × List Char) :=
  (separated spacedKey '.' text).filter fun read => read.1.length ≤ maxDepth

/-! ## Values -/

/-- Read the items of a list, up to its closing bracket.  A comma may follow the last. -/
def listItems (item : Reader Value) (text : List Char) : Option (List Value × List Char) :=
  match skipBlank false text with
  | [] => none
  | ']' :: rest => some ([], rest)
  | start =>
      match item start with
      | none => none
      | some (value, rest) =>
          match skipBlank false rest with
          | ']' :: rest => some ([value], rest)
          | ',' :: rest =>
              if rest.length < text.length then
                (listItems item rest).map fun read => (value :: read.1, read.2)
              else none
          | _ => none
termination_by text.length

/-- Read dotted keys and, after the sign between, a value. -/
def pair (item : Reader Value) (text : List Char) : Option ((List String × Value) × List Char) :=
  match dottedKey text with
  | some (keys, '=' :: rest) => (item (skipSpace rest)).map fun read => ((keys, read.1), read.2)
  | _ => none

/-- A pair with the spaces after it. -/
def spacedPair (item : Reader Value) (text : List Char) :
    Option ((List String × Value) × List Char) :=
  (pair item text).map fun read => (read.1, skipSpace read.2)

/-- The members of a table that is written in one line. -/
def inlineMembers (pairs : List (List String × Value)) : Option Draft.Members :=
  pairs.foldlM (fun members p => Draft.assign p.2 true p.1 members) []

/-- Read the inside of a table that is written in one line, up to its closing brace. -/
def inlineTable (item : Reader Value) (text : List Char) : Option (Value × List Char) :=
  match skipSpace text with
  | '\x7d' :: rest => some (.table [], rest)
  | start =>
      match separated (spacedPair item) ',' start with
      | some (pairs, '\x7d' :: rest) =>
          (inlineMembers pairs).map fun members => (.table (Draft.closeMembers members), rest)
      | _ => none

/-- Read a value, given how to read those nested in it, if any more may be. -/
def valueWith (nested : Option (Reader Value)) : List Char → Option (Value × List Char)
  | '"' :: rest => (quoted '"' rest).map fun read => (.text (String.ofList read.1), read.2)
  | '\x27' :: rest => (quoted '\x27' rest).map fun read => (.text (String.ofList read.1), read.2)
  | '[' :: rest =>
      nested.bind fun item => (listItems item rest).map fun read => (.list read.1, read.2)
  | '\x7b' :: rest => nested.bind fun item => inlineTable item rest
  | 't' :: 'r' :: 'u' :: 'e' :: rest => some (.boolean true, rest)
  | 'f' :: 'a' :: 'l' :: 's' :: 'e' :: rest => some (.boolean false, rest)
  | text => numeral text

/-- Read a value with at most `depth` lists and tables in one another. -/
def valueTo : Nat → Reader Value
  | 0, text => valueWith none text
  | depth + 1, text => valueWith (some (valueTo depth)) text

/-! ## Lines -/

/-- What a line says. -/
inductive Statement where
  | table (keys : List String)
  /-- One more table of a list. -/
  | element (keys : List String)
  | pair (keys : List String) (value : Value)

/-- Read a header, after its first bracket. -/
def header : List Char → Option (Statement × List Char)
  | '[' :: rest => match dottedKey rest with
      | some (keys, ']' :: ']' :: rest) => some (.element keys, rest)
      | _ => none
  | text => match dottedKey text with
      | some (keys, ']' :: rest) => some (.table keys, rest)
      | _ => none

/-- Read what a line says. -/
def statement : List Char → Option (Statement × List Char)
  | '[' :: rest => header rest
  | text => (pair (valueTo maxDepth) text).map fun read => (.pair read.1.1 read.1.2, read.2)

/-- Read all lines. -/
def statements? (text : List Char) : Option (List Statement) :=
  match skipBlank false text with
  | [] => some []
  | start =>
      match statement start with
      | none => none
      | some (said, rest) =>
          match endOfLine rest with
          | none => none
          | some rest =>
              if rest.length < text.length then (statements? rest).map (said :: ·) else none
termination_by text.length

/-- The tables so far, and the keys of the header that pairs belong to, if there is one. -/
structure Progress where
  current? : Option (List String)
  members : Draft.Members

/-- Take in one more line. -/
def Progress.next (p : Progress) : Statement → Option Progress
  | .table keys =>
      (Draft.alterAt Draft.openTable keys p.members).map fun members => ⟨some keys, members⟩
  | .element keys =>
      (Draft.alterAt Draft.openElement keys p.members).map fun members => ⟨some keys, members⟩
  | .pair keys value =>
      let members := match p.current? with
        | none => Draft.assign value true keys p.members
        | some header => Draft.alterAt (Draft.assignInside value keys) header p.members
      members.map fun members => ⟨p.current?, members⟩

/-- The text after the mark of the order of its bytes, if it starts with one. -/
def skipByteOrderMark : List Char → List Char
  | '\uFEFF' :: rest => rest
  | text => text

/-- What a document says, if it is one. -/
def members? (source : String) : Option (List (String × Value)) := do
  let lines ← statements? (skipByteOrderMark source.toList)
  let done ← lines.foldlM Progress.next ⟨none, []⟩
  return Draft.closeMembers done.members

end RoleAudit.Toml
