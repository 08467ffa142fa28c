import RoleAudit.Audit.RoleRule
import RoleAudit.Proofs.Placement
import RoleAudit.Proofs.Rules
import RoleAudit.Proofs.Traversal

/-!
# What an audit finds about roles

An audit gives every opening tag to all rules in turn.  Of its diagnostics, those under the name of the rule
on roles are the ones that this rule makes, whatever other rules there are: one for each element
that breaks it, in the order in which the elements start.

Main statements: `ofRule_auditDocument` and `visits_in_order`, which puts together how a document is
walked and how the diagnostics follow the walk.
-/

namespace RoleAudit.Audit

open RoleAudit.Markup
open RoleAudit.Text (Lines)

/-! ### Offences -/

/-- An element and the attribute of its tag that breaks the rule. -/
abbrev Offence := Element × Attribute

namespace RoleRule

variable (r : RoleRule)

/-- The diagnostic of an offence in a source. -/
def report (source : String) (offence : Offence) : Diagnostic :=
  r.rule.diagnostic (Lines.ofText source) ⟨message, offence.2.span⟩

/-- The offences among elements, in their order. -/
def offences (es : List Element) : List Offence :=
  es.filterMap fun e => (r.offending? e.tag).map fun attr => (e, attr)

theorem mem_offences {es : List Element} {offence : Offence} :
    offence ∈ r.offences es ↔ offence.1 ∈ es ∧ r.offending? offence.1.tag = some offence.2 := by
  obtain ⟨e, attr⟩ := offence
  simp only [offences, List.mem_filterMap, Option.map_eq_some_iff, Prod.mk.injEq]
  constructor
  · rintro ⟨f, hf, _, h, rfl, rfl⟩
    exact ⟨hf, h⟩
  · rintro ⟨he, h⟩
    exact ⟨e, he, attr, h, rfl, rfl⟩

theorem offences_cons (e : Element) (es : List Element) :
    r.offences (e :: es) = r.offences [e] ++ r.offences es :=
  List.filterMap_append (l := [e])

theorem rule_isLocal : r.rule.IsLocal :=
  fun _ _ _ => rfl

theorem reports_rule (source : String) (e : Element) :
    r.rule.reports (Lines.ofText source) e.opening =
      (r.offending? e.tag).toList.map fun attr =>
        r.rule.diagnostic (Lines.ofText source) ⟨message, attr.span⟩ :=
  List.map_map

/-- The reports of all elements are those of the offences, in their order. -/
theorem flatMap_reports (source : String) (es : List Element) :
    (es.flatMap fun e => r.rule.reports (Lines.ofText source) e.opening) =
      (r.offences es).map (r.report source) := by
  induction es with
  | nil => rfl
  | cons e es ih =>
      rw [List.flatMap_cons, ih, offences_cons, List.map_append, reports_rule]
      cases h : r.offending? e.tag <;> simp [offences, report, h]

/-- The diagnostics under the name of the rule are those of the offences, in their order. -/
theorem ofRule_auditDocument {front back : List Rule}
    (hnames : ∀ rule ∈ front ++ back, rule.name ≠ r.rule.name) (source : String) (d : Document) :
    ofRule r.rule.name (auditDocument (front ++ r.rule :: back) d source) =
      (r.offences d.entered).map (r.report source) := by
  rw [ofRule_auditDocument_of_isLocal r.rule_isLocal hnames, flatMap_reports]

end RoleRule

/-! ### Audits of parsed sources -/

/-- The diagnostics under the name of the rule are those of the elements that break it, one for each
of them, in the order in which they start. -/
def RoleRule.ReportsInOrder (r : RoleRule) (source : String) (d : Document)
    (found : List Diagnostic) : Prop :=
  ∃ offences : List Offence, ofRule r.rule.name found = offences.map (r.report source) ∧
    (∀ offence, offence ∈ offences ↔
      Among d.elements offence.1 ∧ r.offending? offence.1.tag = some offence.2) ∧
    offences.Pairwise fun o o' => o.1.span.start < o'.1.span.start

/-- The offences of a parsed source are those of all its elements, in the order in which these
start. -/
theorem RoleRule.offences_inOrder (r : RoleRule) {source : String} {d : Document}
    (h : Document.parse source = .ok d) :
    (∀ offence, offence ∈ r.offences d.entered ↔
      Among d.elements offence.1 ∧ r.offending? offence.1.tag = some offence.2) ∧
    (r.offences d.entered).Pairwise fun o o' => o.1.span.start < o'.1.span.start := by
  constructor
  · intro offence
    rw [r.mem_offences, Document.entered_eq, mem_enteredOf_walk]
  · refine (pairwise_entered (orderly_of_parse h)).filterMap _ fun e f hlt o ho o' ho' => ?_
    obtain ⟨attr, -, rfl⟩ := Option.map_eq_some_iff.1 ho
    obtain ⟨attr', -, rfl⟩ := Option.map_eq_some_iff.1 ho'
    exact hlt

/-- An audit with the rule on roles among rules of other names reports the offences in order. -/
theorem RoleRule.exists_found (r : RoleRule) {source : String} {d : Document}
    (h : Document.parse source = .ok d) {front back : List Rule}
    (hnames : ∀ rule ∈ front ++ back, rule.name ≠ r.rule.name) :
    ∃ found, auditSource (front ++ r.rule :: back) source = .ok found ∧
      r.ReportsInOrder source d found :=
  ⟨_, by rw [auditSource, h]; rfl, r.offences d.entered, r.ofRule_auditDocument hnames _ _,
    r.offences_inOrder h⟩

/-- On every source that is parsed, the walk goes through the elements in order, and so do the
diagnostics on roles. -/
theorem visits_in_order (source : String) (d : Document) (h : Document.parse source = .ok d) :
    d.WalkedInOrder ∧ ∀ (r : RoleRule) (front back : List Rule),
      (∀ rule ∈ front ++ back, rule.name ≠ r.rule.name) →
        ∃ found, auditSource (front ++ r.rule :: back) source = .ok found ∧
          r.ReportsInOrder source d found :=
  ⟨walkedInOrder_of_parse h, fun r _ _ hnames => r.exists_found h hnames⟩

/-- A rule that knows one role. -/
def buttonRule : RoleRule where
  registry := .ofEntries [⟨"button", ⟨false, []⟩⟩]

theorem tagsRule_name_ne : ∀ rule ∈ [tagsRule] ++ [], rule.name ≠ buttonRule.rule.name := by
  simp [tagsRule, RoleRule.rule]

theorem visits_in_order_sample : Document.parse nestedSource = .ok nestedDocument ∧
    nestedDocument.WalkedInOrder ∧
      ∃ found, auditSource ([tagsRule] ++ buttonRule.rule :: []) nestedSource = .ok found ∧
        buttonRule.ReportsInOrder nestedSource nestedDocument found := by
  obtain ⟨hwalked, haudit⟩ := visits_in_order nestedSource nestedDocument parse_nestedSource
  exact ⟨parse_nestedSource, hwalked, haudit buttonRule [tagsRule] [] tagsRule_name_ne⟩

end RoleAudit.Audit
