/-!
# Paths into settings

A path names a place in nested settings: a member, then members of it and items
of lists, as in `rules.aria_role.allowed_invalid_roles[0]`.  Items count from zero,
or from the end if the index is negative.
-/

namespace RoleAudit.Settings

/-- One step further into a value. -/
inductive Step where
  | member (name : String)
  | item (index : Int)
  deriving DecidableEq, Repr

/-- A place in settings, reached from a member at the top. -/
structure Path where
  first : String
  steps : List Step
  deriving DecidableEq, Repr

/-- The text of a step after others. -/
def Step.render : Step → String
  | member name => "." ++ name
  | item index => "[" ++ toString index ++ "]"

/-- The text of some steps from the top. -/
def renderSteps : List Step → String
  | .member name :: steps => name ++ String.join (steps.map Step.render)
  | steps => String.join (steps.map Step.render)

/-- Whether a character may stand in the name of a member. -/
def isNameChar (c : Char) : Bool :=
  c.isAlphanum || c = ' ' || c = '_' || c = '-'

/-- Read a name of one character or more. -/
def name? (text : List Char) : Option (String × List Char) :=
  let read := text.takeWhile isNameChar
  if read = [] then none else some (String.ofList read, text.dropWhile isNameChar)

/-- Whether a character may stand beside an index. -/
def isBesideIndex (c : Char) : Bool :=
  c = ' ' || c = '\t'

/-- Read the index of an item, which 64 bits hold, up to the closing bracket. -/
def index? (text : List Char) : Option (Int × List Char) :=
  let text := text.dropWhile isBesideIndex
  let (negative, text) := match text with
    | '-' :: rest => (true, rest)
    | _ => (false, text)
  let digits := text.takeWhile Char.isDigit
  let magnitude : Int := digits.foldl (fun n c => 10 * n + (c.toNat - '0'.toNat)) 0
  let index := if negative then -magnitude else magnitude
  match (text.dropWhile Char.isDigit).dropWhile isBesideIndex with
  | ']' :: rest =>
      if digits ≠ [] ∧ -(Nat.pow 2 63 : Int) ≤ index ∧ index < Nat.pow 2 63 then
        some (index, rest)
      else
        none
  | _ => none

/-- Read one step after others. -/
def step? : List Char → Option (Step × List Char)
  | '.' :: rest => (name? rest).map fun read => (.member read.1, read.2)
  | '[' :: rest => (index? rest).map fun read => (.item read.1, read.2)
  | _ => none

/-- Read steps up to the end of a text. -/
def steps? (text : List Char) : Option (List Step) :=
  match text with
  | [] => some []
  | c :: rest =>
      match step? (c :: rest) with
      | none => none
      | some (step, after) =>
          if after.length ≤ rest.length then (steps? after).map (step :: ·) else none
termination_by text.length

/-- The path that a text writes. -/
def Path.parse? (text : String) : Option Path :=
  match name? text.toList with
  | none => none
  | some (first, rest) => (steps? rest).map fun steps => ⟨first, steps⟩

end RoleAudit.Settings
