import RoleAudit.Markup.Token
import RoleAudit.Markup.Tree

/-!
# Readers

A reader takes lexemes off the front of a list and gives back what it made of
them.  Beside its result, an attempt at reading tells the furthest failure that
was met on the way, also when the reading as a whole succeeded: if a later
reader cannot go on, that failure may lie further than the place where it gave
up, and it is the one to report.

Where readings are tried one after the other (`orElse`), the failures of those
that failed count only if all of them fail.
-/

namespace RoleAudit.Markup

open RoleAudit.Text (Span)

/-- Why a reading cannot go on. -/
inductive Cause where
  /-- The next lexeme, or the end of the list, fits nowhere. -/
  | unexpected
  /-- A closing tag, which has just been read, does not fit its opening tag. -/
  | mismatch (opened closed : Name) (tag : Span)
  deriving DecidableEq, Repr

/-- A place where a reading cannot go on: the lexemes from there on, and why. -/
structure Failure where
  rest : List Lexeme
  cause : Cause
  deriving DecidableEq, Repr

/-- The failure with fewer lexemes left; of two at one place, the first. -/
def Failure.further : Option Failure → Option Failure → Option Failure
  | some first, some second =>
      if second.rest.length < first.rest.length then some second else some first
  | none, second => second
  | first, none => first

/-- The outcome of reading: the value and the lexemes left, unless the reading failed, and the
furthest failure that was met. -/
structure Attempt (α : Type) where
  result : Option (α × List Lexeme)
  furthest : Option Failure

/-- A way to read a value off the front of a list of lexemes. -/
def Reader (α : Type) : Type :=
  List Lexeme → Attempt α

namespace Reader

variable {α β : Type}

/-- Read nothing. -/
protected def pure (value : α) : Reader α := fun ts =>
  ⟨some (value, ts), none⟩

/-- Read one thing after another. -/
protected def bind (p : Reader α) (f : α → Reader β) : Reader β := fun ts =>
  match p ts with
  | ⟨none, failure⟩ => ⟨none, failure⟩
  | ⟨some (value, rest), missed⟩ =>
      let next := f value rest
      ⟨next.result, Failure.further missed next.furthest⟩

instance : Monad Reader where
  pure := Reader.pure
  bind := Reader.bind

/-- Give up here. -/
def refuse (cause : Cause) : Reader α := fun ts =>
  ⟨none, some ⟨ts, cause⟩⟩

/-- Read a lexeme whose token is of some kind. -/
def accept (kind : Token → Option α) : Reader (α × Span)
  | [] => refuse .unexpected []
  | t :: rest => match kind t.token with
      | some value => ⟨some ((value, t.span), rest), none⟩
      | none => refuse .unexpected (t :: rest)

/-- Read one given token, for its place. -/
def token (expected : Token) : Reader Span := do
  let read ← accept fun t => if t = expected then some () else none
  return read.2

/-- Read nothing, and only at the end of the list. -/
def atEnd : Reader Unit
  | [] => ⟨some ((), []), none⟩
  | t :: rest => refuse .unexpected (t :: rest)

/-- Read with `p`, or with `q` if `p` fails. -/
def orElse (p q : Reader α) : Reader α := fun ts =>
  match p ts with
  | ⟨some result, missed⟩ => ⟨some result, missed⟩
  | ⟨none, failure⟩ => match q ts with
      | ⟨some result, missed⟩ => ⟨some result, missed⟩
      | ⟨none, failure'⟩ => ⟨none, Failure.further failure failure'⟩

instance : OrElse (Reader α) where
  orElse p q := p.orElse (q ())

/-- Read with `p` if it succeeds, and nothing otherwise. -/
def optional (p : Reader α) : Reader (Option α) := fun ts =>
  match p ts with
  | ⟨some (value, rest), missed⟩ => ⟨some (some value, rest), missed⟩
  | ⟨none, failure⟩ => ⟨some (none, ts), failure⟩

/-- Succeed if `p` does, but read nothing. -/
def ahead (p : Reader α) : Reader α := fun ts =>
  match p ts with
  | ⟨some (value, _), missed⟩ => ⟨some (value, ts), missed⟩
  | ⟨none, failure⟩ => ⟨none, failure⟩

/-- Read with `p` as often as it succeeds.  A reading that takes nothing is the last. -/
def many (p : Reader α) : Reader (List α) := fun ts =>
  match p ts with
  | ⟨none, failure⟩ => ⟨some ([], ts), failure⟩
  | ⟨some (value, rest), missed⟩ =>
      if rest.length < ts.length then
        let others := many p rest
        ⟨others.result.map fun read => (value :: read.1, read.2),
          Failure.further missed others.furthest⟩
      else ⟨some ([value], rest), missed⟩
termination_by ts => ts.length

/-- Read with `p` as often as it succeeds, and once at least. -/
def many1 (p : Reader α) : Reader (List α) := do
  let first ← p
  let others ← many p
  return first :: others

end Reader

end RoleAudit.Markup
