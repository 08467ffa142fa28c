import RoleAudit.Audit.RoleRule
import RoleAudit.Settings.Fault

/-!
# Options from settings

How the options of the rule on roles are read off settings: a truth value and a
list of words, in the table `rules.aria_role`.  Values that are not quite of the
kind wanted are converted where that makes sense, and members that are not known
are left alone.  The members of a table may be read in either order, which makes a
difference if neither fits.  A list may stand for a table, with the values of its
members in their order.
-/

namespace RoleAudit.Settings

open RoleAudit.Audit (RoleOptions)

/-- The truth value that a word stands for. -/
def truthOf? (word : String) : Option Bool :=
  if ["1", "true", "on", "yes"].contains word then some true
  else if ["0", "false", "off", "no"].contains word then some false
  else none

/-- Take a value for a truth value: a number is false if it is zero, and some words in any case
stand for one. -/
def readFlag (place : List Step) (value : Value) : Except Fault Bool :=
  match value with
  | .scalar (.boolean flag) _ => .ok flag
  | .scalar (.integer n) _ => .ok (n ≠ 0)
  | .scalar (.float x) _ => .ok (x != 0.0)
  | .scalar (.text text) origin =>
      let word := Text.lowercase text
      match truthOf? word with
      | some flag => .ok flag
      | none => .error (.unfit (.scalar (.text word) origin) "a boolean" place)
  | found => .error (.unfit found "a boolean" place)

/-- Take a value for a word: numbers and truth values stand for their texts. -/
def readWord (place : List Step) (value : Value) : Except Fault String :=
  match value with
  | .scalar (.text text) _ => .ok text
  | .scalar (.boolean flag) _ => .ok (toString flag)
  | .scalar (.integer n) _ => .ok (toString n)
  | .scalar (.float x) _ => .ok (Decimal.floatText .plain x)
  | found => .error (.unfit found "a string" place)

/-- Take values for words, given the index of the first. -/
def readWordsFrom (place : List Step) (index : Nat) : List Value → Except Fault (List String)
  | [] => .ok []
  | value :: others =>
      (readWord (place ++ [.item index]) value).bind fun word =>
        (readWordsFrom place (index + 1) others).map (word :: ·)

/-- Take a value for a list of words. -/
def readWords (place : List Step) : Value → Except Fault (List String)
  | .list items _ => readWordsFrom place 0 items
  | found => .error (.misshapen found "a sequence")

/-- Take a value, if there is one, and an older one otherwise. -/
def readOr {α : Type} (read : Value → Except Fault α) (older : α) : Option Value → Except Fault α
  | none => .ok older
  | some value => read value

/-- Take two values for the options, of which the truth value may be looked at first. -/
def optionsOf (flagFirst : Bool) (flag : Except Fault Bool) (words : Except Fault (List String)) :
    Except Fault RoleOptions :=
  if flagFirst then flag.bind fun ignoreComponents => words.map fun allowed =>
    ⟨ignoreComponents, allowed⟩
  else words.bind fun allowed => flag.map fun ignoreComponents => ⟨ignoreComponents, allowed⟩

/-- Take a value for the options of the rule on roles. -/
def readOptions (flagFirst : Bool) (place : List Step) (value : Value) :
    Except Fault RoleOptions :=
  match value with
  | .table _ _ =>
      let placeOf (name : String) := place ++ [.member name]
      optionsOf flagFirst
        (readOr (readFlag (placeOf "ignore_non_dom")) false (value.member? "ignore_non_dom"))
        (readOr (readWords (placeOf "allowed_invalid_roles")) []
          (value.member? "allowed_invalid_roles"))
  | .list items _ =>
      optionsOf true (readOr (readFlag (place ++ [.item 0])) false items[0]?)
        (readOr (readWords (place ++ [.item 1])) [] items[1]?)
  | found => .error (.misshapen found "struct AriaRoleOptions")

/-- Take a value for the options of all rules. -/
def readRules (flagFirst : Bool) (place : List Step) (value : Value) :
    Except Fault RoleOptions :=
  match value with
  | .table _ _ =>
      match value.member? "aria_role" with
      | none => .error (.missingMember "aria_role")
      | some options => readOptions flagFirst (place ++ [.member "aria_role"]) options
  | .list items _ =>
      match items with
      | [] => .error (.tooFewItems 0 "struct RulesConfig with 1 element")
      | options :: _ => readOptions flagFirst (place ++ [.item 0]) options
  | found => .error (.misshapen found "struct RulesConfig")

/-- Take a value for all settings. -/
def readSettings (flagFirst : Bool) (value : Value) : Except Fault RoleOptions :=
  match value.member? "rules" with
  | none => .error (.missingMember "rules")
  | some rules => readRules flagFirst [.member "rules"] rules

end RoleAudit.Settings
