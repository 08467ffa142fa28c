import RoleAudit.Settings.Options

/-!
# Readings of options

Options are read off settings unless a value does not fit, and then nothing but a value is at fault
(`BlamesValue`).  Which of two values that do not fit is found first depends on the order in which
they are read, but not whether there are options, nor which (`mapError_readSettings`).
-/

namespace RoleAudit.Settings

open RoleAudit.Audit (RoleOptions)

/-- What is at fault if there are no settings. -/
inductive FaultKind where
  | key
  | file
  | value
  deriving DecidableEq

/-- What is at fault: a key that is given, a file that is read, or a value in the end. -/
def Fault.kind : Fault → FaultKind
  | notPath _ => .key
  | noFile _ | unreadable _ | notToml _ => .file
  | unfit _ _ _ | misshapen _ _ | missingMember _ | tooFewItems _ _ => .value

/-! ## What is at fault -/

/-- If a reading fails, a value is at fault. -/
def BlamesValue {α : Type} (reading : Except Fault α) : Prop :=
  ∀ fault, reading = .error fault → fault.kind = .value

section BlamesValue

variable {α β : Type} {reading : Except Fault α}

theorem blamesValue_ok (a : α) : BlamesValue (.ok a : Except Fault α) := by
  intro fault h
  cases h

theorem blamesValue_error {fault : Fault} (h : fault.kind = .value) :
    BlamesValue (.error fault : Except Fault α) := by
  intro fault' hfault
  cases hfault
  exact h

theorem BlamesValue.bind (h : BlamesValue reading) {next : α → Except Fault β}
    (hnext : ∀ a, BlamesValue (next a)) : BlamesValue (reading.bind next) := by
  cases reading with
  | error fault => exact blamesValue_error (h fault rfl)
  | ok a => exact hnext a

theorem BlamesValue.map (h : BlamesValue reading) (f : α → β) : BlamesValue (reading.map f) := by
  cases reading with
  | error fault => exact blamesValue_error (h fault rfl)
  | ok a => exact blamesValue_ok (f a)

end BlamesValue

theorem blamesValue_readFlag (place : List Step) (value : Value) :
    BlamesValue (readFlag place value) := by
  unfold readFlag
  split
  · exact blamesValue_ok _
  · exact blamesValue_ok _
  · exact blamesValue_ok _
  · -- a text that is no truth value
    dsimp only
    split
    · exact blamesValue_ok _
    · exact blamesValue_error rfl
  · exact blamesValue_error rfl

theorem blamesValue_readWord (place : List Step) (value : Value) :
    BlamesValue (readWord place value) := by
  unfold readWord
  split
  · exact blamesValue_ok _
  · exact blamesValue_ok _
  · exact blamesValue_ok _
  · exact blamesValue_ok _
  · exact blamesValue_error rfl

theorem blamesValue_readWordsFrom (place : List Step) (index : Nat) (items : List Value) :
    BlamesValue (readWordsFrom place index items) := by
  induction items generalizing index with
  | nil => exact blamesValue_ok _
  | cons value others ih =>
      rw [readWordsFrom]
      exact (blamesValue_readWord _ value).bind fun word => (ih (index + 1)).map _

theorem blamesValue_readWords (place : List Step) (value : Value) :
    BlamesValue (readWords place value) := by
  cases value with
  | list items origin => exact blamesValue_readWordsFrom place 0 items
  | scalar _ _ | table _ _ => exact blamesValue_error rfl

theorem blamesValue_readOr {α : Type} {read : Value → Except Fault α}
    (h : ∀ value, BlamesValue (read value)) (older : α) (value? : Option Value) :
    BlamesValue (readOr read older value?) := by
  cases value? with
  | none => exact blamesValue_ok older
  | some value => exact h value

/-! ## The order of reading -/

section OptionsOf

variable {flag : Except Fault Bool} {words : Except Fault (List String)}

theorem optionsOf_eq_ok_iff {flagFirst : Bool} {options : RoleOptions} :
    optionsOf flagFirst flag words = .ok options ↔
      flag = .ok options.ignoreComponents ∧ words = .ok options.allowed := by
  obtain ⟨ignoreComponents, allowed⟩ := options
  cases flagFirst <;> cases flag <;> cases words <;>
    simp [optionsOf, Except.bind, Except.map, and_comm]

/-- If one of two values does not fit, some value does not, whichever is looked at first. -/
theorem mapError_optionsOf (hflag : BlamesValue flag) (hwords : BlamesValue words)
    (flagFirst flagFirst' : Bool) :
    (optionsOf flagFirst flag words).mapError Fault.kind =
      (optionsOf flagFirst' flag words).mapError Fault.kind := by
  have hfirst : (optionsOf true flag words).mapError Fault.kind =
      (optionsOf false flag words).mapError Fault.kind := by
    cases flag with
    | ok ignoreComponents => cases words <;> rfl
    | error fault =>
        cases words with
        | ok allowed => rfl
        | error fault' => exact congrArg Except.error ((hflag _ rfl).trans (hwords _ rfl).symm)
  cases flagFirst <;> cases flagFirst' <;> first | rfl | exact hfirst | exact hfirst.symm

end OptionsOf

/-- The order in which options are read does not matter, unless for which value is at fault. -/
theorem mapError_readSettings (flagFirst flagFirst' : Bool) (value : Value) :
    (readSettings flagFirst value).mapError Fault.kind =
      (readSettings flagFirst' value).mapError Fault.kind := by
  have hoptions : ∀ place options, (readOptions flagFirst place options).mapError Fault.kind =
      (readOptions flagFirst' place options).mapError Fault.kind := by
    intro place options
    cases options with
    | scalar _ _ | list _ _ => rfl
    | table members origin =>
        exact mapError_optionsOf (blamesValue_readOr (blamesValue_readFlag _) _ _)
          (blamesValue_readOr (blamesValue_readWords _) _ _) _ _
  unfold readSettings
  cases value.member? "rules" with
  | none => rfl
  | some rules =>
      cases rules with
      | scalar _ _ => rfl
      | list items origin =>
          cases items with
          | nil => rfl
          | cons options others => exact hoptions _ options
      | table members origin =>
          simp only [readRules]
          cases (Value.table members origin).member? "aria_role" with
          | none => rfl
          | some options => exact hoptions _ options

end RoleAudit.Settings
