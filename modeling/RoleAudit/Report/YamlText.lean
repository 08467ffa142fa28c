import RoleAudit.Report.Outline
import RoleAudit.Report.YamlScalar

/-!
# Outlines as YAML

Items and fields take lines of their own.  The items of a list stand under the
first letter of the field that holds it, the fields of a record two spaces
further in.  An empty list or record is written in brackets or braces on its
line.
-/

namespace RoleAudit.Report

/-- Put one text before the first line and another before the others. -/
def hangLines (first others : List Char) : List (List Char) → List (List Char)
  | [] => []
  | line :: rest => (first ++ line) :: rest.map (others ++ ·)

mutual

/-- The lines of an outline that starts at a column.  The lines lack the indentation up to that
column. -/
def Outline.yamlLines (column : Nat) : Outline → List (List Char)
  | .text value => [Yaml.scalar column value]
  | .number value => [Nat.toDigits 10 value]
  | .list [] => [['[', ']']]
  | .list (item :: others) => yamlItems column (item :: others)
  | .record [] => [['\x7b', '\x7d']]
  | .record (field :: others) => yamlFields column (field :: others)

/-- The lines of the items of a list. -/
def yamlItems (column : Nat) : List Outline → List (List Char)
  | [] => []
  | item :: others =>
      hangLines ['-', ' '] [' ', ' '] (item.yamlLines (column + 2)) ++ yamlItems column others

/-- The lines of the fields of a record. -/
def yamlFields (column : Nat) : List (String × Outline) → List (List Char)
  | [] => []
  | field :: others => yamlField column field ++ yamlFields column others

/-- The lines of a field. -/
def yamlField (column : Nat) : String × Outline → List (List Char)
  | (name, .list (item :: others)) =>
      (name.toList ++ [':']) :: yamlItems column (item :: others)
  | (name, .record (field :: others)) =>
      (name.toList ++ [':']) ::
        (yamlFields (column + 2) (field :: others)).map ([' ', ' '] ++ ·)
  | (name, value) => hangLines (name.toList ++ [':', ' ']) [] (value.yamlLines (column + 2))

end

/-- A line with its end, unless it ends in a line end already. -/
def endLine (line : List Char) : List Char :=
  if line.getLast?.any Yaml.isBreak then line else line ++ ['\n']

/-- The YAML text of an outline. -/
def Outline.yaml (o : Outline) : String :=
  String.ofList ((o.yamlLines 0).flatMap endLine)

end RoleAudit.Report
