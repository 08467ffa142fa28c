import Mathlib.Data.List.Nodup
import RoleAudit.Audit.Rule

/-!
# Rules beside one another

An audit gives every opening tag to all rules in turn, and all of them add to one list of
diagnostics.  Each diagnostic bears the name of the rule that made it.  A rule that looks at the
opening tag alone makes the same diagnostics whatever rules run before it, so those under its name
are the ones it makes when it runs by itself.  If all rules are of this kind, the list is what they
say of one tag after the other.

Main statements: `ofRule_auditDocument_of_isLocal`, `auditDocument_eq_flatMap` and `rules_apart`.
-/

namespace RoleAudit.Audit

open RoleAudit.Markup
open RoleAudit.Text (Lines)

/-! ### Diagnostics by rule -/

/-- The diagnostics that are made under a name. -/
def ofRule (name : String) (found : List Diagnostic) : List Diagnostic :=
  found.filter fun diagnostic => diagnostic.rule = name

@[simp] theorem ofRule_append (name : String) (found others : List Diagnostic) :
    ofRule name (found ++ others) = ofRule name found ++ ofRule name others := by
  simp [ofRule]

theorem ofRule_map_self (rule : Rule) (lines : Lines) (findings : List Finding) :
    ofRule rule.name (findings.map (rule.diagnostic lines)) =
      findings.map (rule.diagnostic lines) := by
  simp [ofRule, Rule.diagnostic]

theorem ofRule_map_of_ne {rule : Rule} {name : String} (h : rule.name ≠ name) (lines : Lines)
    (findings : List Finding) : ofRule name (findings.map (rule.diagnostic lines)) = [] := by
  simp [ofRule, Rule.diagnostic, h]

/-- Rules of other names add nothing under a name. -/
theorem ofRule_auditOpening_of_ne {name : String} {rules : List Rule}
    (h : ∀ rule ∈ rules, rule.name ≠ name) (lines : Lines) (found : List Diagnostic)
    (opening : Opening) :
    ofRule name (auditOpening rules lines found opening) = ofRule name found := by
  unfold auditOpening
  induction rules generalizing found with
  | nil => rfl
  | cons rule rules ih =>
      rw [List.foldl_cons, ih fun other hother => h other (List.mem_cons_of_mem _ hother),
        ofRule_append, ofRule_map_of_ne (h rule List.mem_cons_self), List.append_nil]

theorem auditOpening_append (rules others : List Rule) (lines : Lines) (found : List Diagnostic)
    (opening : Opening) : auditOpening (rules ++ others) lines found opening =
      auditOpening others lines (auditOpening rules lines found opening) opening :=
  List.foldl_append

theorem auditOpening_cons (rule : Rule) (rules : List Rule) (lines : Lines)
    (found : List Diagnostic) (opening : Opening) :
    auditOpening (rule :: rules) lines found opening =
      auditOpening rules lines
        (found ++ (rule.findings opening found).map (rule.diagnostic lines)) opening :=
  rfl

/-! ### Rules that look at the opening tag alone -/

namespace Rule

/-- What a rule finds where an element opens does not depend on what has been reported so far. -/
def IsLocal (rule : Rule) : Prop :=
  ∀ opening found found', rule.findings opening found = rule.findings opening found'

/-- The diagnostics that a rule makes where an element opens, before anything has been reported. -/
def reports (rule : Rule) (lines : Lines) (opening : Opening) : List Diagnostic :=
  (rule.findings opening []).map (rule.diagnostic lines)

theorem IsLocal.reports_eq {rule : Rule} (h : rule.IsLocal) (lines : Lines) (opening : Opening)
    (found : List Diagnostic) :
    (rule.findings opening found).map (rule.diagnostic lines) = rule.reports lines opening := by
  rw [reports, h opening found []]

end Rule

section OneLocal

variable {rule : Rule} {front back : List Rule} (hlocal : rule.IsLocal)
  (hnames : ∀ other ∈ front ++ back, other.name ≠ rule.name)
include hlocal hnames

/-- Among rules of other names, a local rule adds its own reports under its name. -/
theorem ofRule_auditOpening_of_isLocal (lines : Lines) (found : List Diagnostic)
    (opening : Opening) :
    ofRule rule.name (auditOpening (front ++ rule :: back) lines found opening) =
      ofRule rule.name found ++ rule.reports lines opening := by
  have hfront : ∀ other ∈ front, other.name ≠ rule.name :=
    fun other h => hnames other (List.mem_append_left _ h)
  have hback : ∀ other ∈ back, other.name ≠ rule.name :=
    fun other h => hnames other (List.mem_append_right _ h)
  rw [auditOpening_append, auditOpening_cons, ofRule_auditOpening_of_ne hback, ofRule_append,
    ofRule_auditOpening_of_ne hfront, ofRule_map_self, hlocal.reports_eq]

/-- Under the name of a local rule stand its reports of all elements, whatever the other rules
do. -/
theorem ofRule_auditDocument_of_isLocal (d : Document) (source : String) :
    ofRule rule.name (auditDocument (front ++ rule :: back) d source) =
      d.entered.flatMap fun e => rule.reports (Lines.ofText source) e.opening := by
  have hrun : ∀ (es : List Element) (found : List Diagnostic), ofRule rule.name
      (es.foldl (fun found e =>
        auditOpening (front ++ rule :: back) (Lines.ofText source) found e.opening) found) =
      ofRule rule.name found ++ es.flatMap fun e => rule.reports (Lines.ofText source) e.opening := by
    intro es
    induction es with
    | nil =>
        intro found
        exact (List.append_nil _).symm
    | cons e es ih =>
        intro found
        rw [List.foldl_cons, ih, ofRule_auditOpening_of_isLocal hlocal hnames, List.flatMap_cons,
          List.append_assoc]
  exact hrun d.entered []

end OneLocal

section AllLocal

variable {rules : List Rule} (hlocal : ∀ rule ∈ rules, rule.IsLocal)
include hlocal

/-- Local rules add their reports where an element opens, in the order of the rules. -/
theorem auditOpening_eq_append (lines : Lines) (found : List Diagnostic) (opening : Opening) :
    auditOpening rules lines found opening =
      found ++ rules.flatMap fun rule => rule.reports lines opening := by
  induction rules generalizing found with
  | nil => exact (List.append_nil _).symm
  | cons rule rules ih =>
      obtain ⟨hrule, hrules⟩ := List.forall_mem_cons.1 hlocal
      rw [auditOpening_cons, ih hrules, hrule.reports_eq, List.flatMap_cons, List.append_assoc]

/-- What local rules report of a document: for one element after the other, what one rule after the
other reports of how it opens. -/
theorem auditDocument_eq_flatMap (d : Document) (source : String) :
    auditDocument rules d source = d.entered.flatMap fun e =>
      rules.flatMap fun rule => rule.reports (Lines.ofText source) e.opening := by
  have hrun : ∀ (es : List Element) (found : List Diagnostic),
      es.foldl (fun found e => auditOpening rules (Lines.ofText source) found e.opening) found =
        found ++ es.flatMap fun e =>
          rules.flatMap fun rule => rule.reports (Lines.ofText source) e.opening := by
    intro es
    induction es with
    | nil =>
        intro found
        exact (List.append_nil _).symm
    | cons e es ih =>
        intro found
        rw [List.foldl_cons, ih, auditOpening_eq_append hlocal, List.flatMap_cons, List.append_assoc]
  exact hrun d.entered []

end AllLocal

/-- The audit with one local rule. -/
theorem auditDocument_singleton {rule : Rule} (h : rule.IsLocal) (d : Document) (source : String) :
    auditDocument [rule] d source =
      d.entered.flatMap fun e => rule.reports (Lines.ofText source) e.opening := by
  rw [auditDocument_eq_flatMap (by simpa using h)]
  simp only [List.flatMap_singleton]

/-- Rules do not interfere.  An audit with rules of different names that look at the opening tag
alone reports, for one element after the other, what one rule after the other finds where it opens,
under the name of that rule; and what it reports under one of the names is what this rule reports
alone. -/
theorem rules_apart (rules : List Rule) (hnames : (rules.map Rule.name).Nodup)
    (hlocal : ∀ rule ∈ rules, rule.IsLocal) (d : Document) (source : String) :
    auditDocument rules d source = (d.entered.flatMap fun e => rules.flatMap fun rule =>
        (rule.findings e.opening []).map fun finding =>
          ⟨rule.name, finding.message, finding.span, (Lines.ofText source).location finding.span⟩) ∧
      ∀ rule ∈ rules,
        ofRule rule.name (auditDocument rules d source) = auditDocument [rule] d source := by
  refine ⟨auditDocument_eq_flatMap hlocal d source, fun rule hrule => ?_⟩
  have hrule' := hlocal rule hrule
  obtain ⟨front, back, rfl⟩ := List.append_of_mem hrule
  have hothers : ∀ other ∈ front ++ back, other.name ≠ rule.name := by
    rw [List.map_append, List.map_cons, List.nodup_middle, List.nodup_cons, ← List.map_append]
      at hnames
    intro other hother hname
    exact hnames.1 (List.mem_map.2 ⟨other, hother, hname⟩)
  rw [ofRule_auditDocument_of_isLocal hrule' hothers, auditDocument_singleton hrule']

/-- A rule that reports every tag. -/
def tagsRule : Rule where
  name := "tags"
  findings opening _ := [⟨opening.name.render, opening.span⟩]

/-- A rule that reports the attributes of tags that close themselves. -/
def attributesRule : Rule where
  name := "attributes"
  findings opening _ :=
    if opening.selfClosing then opening.attributes.map fun attr => ⟨attr.name, attr.span⟩ else []

/-- A list with one item. -/
def listSource : String :=
  "<ul><li id/></ul>"

/-- What `listSource` is parsed into. -/
def listDocument : Document :=
  let item : Element := .single ⟨.plain "li", [.plain ⟨none, "id", none, ⟨8, 10⟩⟩], ⟨4, 12⟩⟩
  ⟨[.pair ⟨.plain "ul", [], ⟨0, 4⟩⟩ [.element item] ⟨12, 17⟩]⟩

theorem rules_apart_sample : ([tagsRule, attributesRule].map Rule.name).Nodup ∧
    (∀ rule ∈ [tagsRule, attributesRule], rule.IsLocal) ∧
    Document.parse listSource = .ok listDocument ∧
    ∀ rule ∈ [tagsRule, attributesRule],
      ofRule rule.name (auditDocument [tagsRule, attributesRule] listDocument listSource) =
        auditDocument [rule] listDocument listSource := by
  have hnames : ([tagsRule, attributesRule].map Rule.name).Nodup := by decide
  have hlocal : ∀ rule ∈ [tagsRule, attributesRule], rule.IsLocal := by
    simp [Rule.IsLocal, tagsRule, attributesRule]
  have hparse : Document.parse listSource = .ok listDocument := by with_unfolding_all rfl
  obtain ⟨-, hapart⟩ := rules_apart [tagsRule, attributesRule] hnames hlocal listDocument listSource
  exact ⟨hnames, hlocal, hparse, hapart⟩

end RoleAudit.Audit
