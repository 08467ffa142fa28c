import RoleAudit.Report.Outline

/-!
# Outlines as JSON

Every item of a list and every field of a record takes lines of its own, two
spaces further in than what holds it.  An empty list or record takes none.
-/

namespace RoleAudit.Report

/-- The two hexadecimal digits of a number below 256. -/
def hexByte (n : Nat) : List Char :=
  [Nat.digitChar (n / 16), Nat.digitChar (n % 16)]

/-- A character inside a JSON string. -/
def jsonChar (c : Char) : List Char :=
  match c with
  | '"' => ['\\', '"']
  | '\\' => ['\\', '\\']
  | '\x08' => ['\\', 'b']
  | '\x0c' => ['\\', 'f']
  | '\n' => ['\\', 'n']
  | '\r' => ['\\', 'r']
  | '\t' => ['\\', 't']
  | _ => if c.toNat < 0x20 then ['\\', 'u', '0', '0'] ++ hexByte c.toNat else [c]

/-- A JSON string. -/
def jsonString (text : String) : List Char :=
  '"' :: text.toList.flatMap jsonChar ++ ['"']

/-- A line end with the indentation of the next line. -/
def newLine (indent : Nat) : List Char :=
  '\n' :: List.replicate (2 * indent) ' '

mutual

/-- The JSON text of an outline at a depth of indentation. -/
def Outline.jsonAt (indent : Nat) : Outline → List Char
  | .text value => jsonString value
  | .number value => Nat.toDigits 10 value
  | .list [] => ['[', ']']
  | .list (item :: others) =>
      '[' :: newLine (indent + 1) ++ item.jsonAt (indent + 1) ++ jsonItems (indent + 1) others ++
        newLine indent ++ [']']
  | .record [] => ['\x7b', '\x7d']
  | .record (field :: others) =>
      '\x7b' :: newLine (indent + 1) ++ jsonField (indent + 1) field ++
        jsonFields (indent + 1) others ++ newLine indent ++ ['\x7d']

/-- The items of a list after its first. -/
def jsonItems (indent : Nat) : List Outline → List Char
  | [] => []
  | item :: others => ',' :: newLine indent ++ item.jsonAt indent ++ jsonItems indent others

/-- A field with its name. -/
def jsonField (indent : Nat) : String × Outline → List Char
  | (name, value) => jsonString name ++ ':' :: ' ' :: value.jsonAt indent

/-- The fields of a record after its first. -/
def jsonFields (indent : Nat) : List (String × Outline) → List Char
  | [] => []
  | field :: others => ',' :: newLine indent ++ jsonField indent field ++ jsonFields indent others

end

/-- The JSON text of an outline. -/
def Outline.json (o : Outline) : String :=
  String.ofList (o.jsonAt 0)

end RoleAudit.Report
