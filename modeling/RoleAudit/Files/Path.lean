/-!
# Paths

A path is a text of names with slashes between.  An empty name and a single dot
stay where they are, and two dots lead up.
-/

namespace RoleAudit.Files

/-- The pieces of a text between its slashes. -/
def splitAtSlashes : List Char → List (List Char)
  | [] => [[]]
  | c :: rest =>
      if c = '/' then [] :: splitAtSlashes rest
      else match splitAtSlashes rest with
        | [] => [[c]]
        | first :: others => (c :: first) :: others

theorem splitAtSlashes_ne_nil (text : List Char) : splitAtSlashes text ≠ [] := by
  cases text with
  | nil => simp [splitAtSlashes]
  | cons c rest =>
      unfold splitAtSlashes
      split
      · simp
      · split <;> simp

/-- The components of a path. -/
def components (path : String) : List String :=
  (splitAtSlashes path.toList).map String.ofList

/-- A name below a path.  A path that ends in a slash needs no other. -/
def below (path name : String) : String :=
  if path.toList.getLast? = some '/' then path ++ name else path ++ "/" ++ name

/-- What follows the last dot of a name, unless nothing stands before that dot. -/
def extension? (name : String) : Option String :=
  let reversed := name.toList.reverse
  match reversed.dropWhile (· ≠ '.') with
  | _ :: _ :: _ => some (String.ofList (reversed.takeWhile (· ≠ '.')).reverse)
  | _ => none

end RoleAudit.Files
