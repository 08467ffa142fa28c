import RoleAudit.Toml.Value

/-!
# Tables in the making

A text of TOML builds its tables bit by bit: by headers, by dotted keys, and by
the tables that stand above these.  A draft remembers how each table came about,
because that decides what may still be added to it.

* A table with a header of its own has no second one, and no dotted key leads into it.
* A table made by dotted keys has no header, but dotted keys may add to it.
* A table implied by the header of a table below it may still get its own header.
* A value that is written out is closed.
* A list of tables grows by headers, and keys that pass through it mean its last table.
-/

namespace RoleAudit.Toml

/-- How a table came about. -/
inductive Making where
  | header
  | dotted
  | implied
  deriving DecidableEq, Repr

/-- A value, a table or a list of tables in the making. -/
inductive Draft where
  | value (value : Value)
  | table (making : Making) (members : List (String × Draft))
  | tables (elements : List (List (String × Draft)))

namespace Draft

/-- The members of a table in the making. -/
abbrev Members := List (String × Draft)

/-- Change the entry of a key, or make one, unless that is not allowed. -/
def alter (change : Option Draft → Option Draft) (key : String) : Members → Option Members
  | [] => (change none).map fun made => [(key, made)]
  | entry :: others =>
      if entry.1 = key then (change (some entry.2)).map fun changed => (key, changed) :: others
      else (alter change key others).map (entry :: ·)

/-- Change the members of the last table of a list. -/
def alterLast (change : Members → Option Members) : List Members → Option (List Members)
  | [] => none
  | [last] => (change last).map ([·])
  | first :: others => (alterLast change others).map (first :: ·)

/-- Change the entry at the end of the keys of a header.  Tables on the way are implied. -/
def alterAt (change : Option Draft → Option Draft) : List String → Members → Option Members
  | [], _ => none
  | [key], members => alter change key members
  | key :: keys, members =>
      alter (fun
        | none => (alterAt change keys []).map (table .implied)
        | some (table making members) => (alterAt change keys members).map (table making)
        | some (tables elements) => (alterLast (alterAt change keys) elements).map tables
        | some (value _) => none) key members

/-- Open the table of a header. -/
def openTable : Option Draft → Option Draft
  | none => some (table .header [])
  | some (table .implied members) => some (table .header members)
  | some _ => none

/-- Add a table to the list of a header. -/
def openElement : Option Draft → Option Draft
  | none => some (tables [[]])
  | some (tables elements) => some (tables (elements ++ [[]]))
  | some _ => none

/-- Put a value at the end of dotted keys.  The table that gets it is `free` if it is the one
that the keys start from, or was made by dotted keys. -/
def assign (v : Value) (free : Bool) : List String → Members → Option Members
  | [], _ => none
  | [key], members =>
      alter (fun
        | none => if free then some (value v) else none
        | some _ => none) key members
  | key :: keys, members =>
      alter (fun
        | none => (assign v true keys []).map (table .dotted)
        | some (table .header _) => none
        | some (table making members) =>
            (assign v (making = .dotted) keys members).map (table making)
        | some (tables elements) => (alterLast (assign v false keys) elements).map tables
        | some (value _) => none) key members

/-- Put a value at the end of dotted keys that start from a table or the last table of a list. -/
def assignInside (v : Value) (keys : List String) : Option Draft → Option Draft
  | some (table making members) => (assign v true keys members).map (table making)
  | some (tables elements) => (alterLast (assign v true keys) elements).map tables
  | _ => none

mutual

/-- The value of a draft. -/
def close : Draft → Value
  | value v => v
  | table _ members => .table (closeMembers members)
  | tables elements => .list (closeElements elements)

/-- The values of the members of a table. -/
def closeMembers : List (String × Draft) → List (String × Value)
  | [] => []
  | (key, draft) :: others => (key, draft.close) :: closeMembers others

/-- The values of a list of tables. -/
def closeElements : List (List (String × Draft)) → List Value
  | [] => []
  | members :: others => .table (closeMembers members) :: closeElements others

end

end Draft

end RoleAudit.Toml
