import RoleAudit.Proofs.Concatenation

/-!
# Less strict rules

A rule on roles is relaxed by allowing more words, by knowing more concrete roles, or by leaving
components alone.  A tag that a relaxed rule reports is reported by the stricter one as well, and
with the same diagnostic, since neither the name nor the message of the rule depends on its options.
So of the diagnostics of a document some go and none come, and those that stay keep their order.

Main statements: `Relaxes.offending?`, `offences_eq_filter` and `relaxing_removes`.
-/

namespace RoleAudit.Audit

open RoleAudit.Markup
open RoleAudit.Role (Registry)

namespace RoleRule

/-- A rule allows all words that another one allows, and leaves components alone if that one
does. -/
structure Relaxes (r' r : RoleRule) : Prop where
  isAllowed : ∀ word, r.isAllowed word = true → r'.isAllowed word = true
  ignoreComponents : r.options.ignoreComponents = true → r'.options.ignoreComponents = true

/-- What a rule on roles reports of an offence is the same for all of them. -/
theorem report_eq (r r' : RoleRule) : r'.report = r.report :=
  rfl

namespace Relaxes

variable {r r' : RoleRule} (h : r'.Relaxes r)
include h

theorem isValid {value : RoleValue} (hvalue : r.isValid value = true) :
    r'.isValid value = true := by
  cases value with
  | absent => rfl
  | unresolvable => rfl
  | noValue => cases hvalue
  | null => cases hvalue
  | text value =>
      simp only [RoleRule.isValid, Bool.and_eq_true, List.all_eq_true] at hvalue ⊢
      exact ⟨hvalue.1, fun word hword => h.isAllowed _ (hvalue.2 word hword)⟩

/-- A tag that breaks the relaxed rule breaks the stricter one, by the same attribute. -/
theorem offending? {tag : Tag} {attr : Attribute} (hattr : r'.offending? tag = some attr) :
    r.offending? tag = some attr := by
  unfold RoleRule.offending? at hattr ⊢
  split at hattr
  · cases hattr
  · rename_i hchecked'
    have hchecked : ¬(r.options.ignoreComponents && !tag.name.isNode) = true := by
      intro hskipped
      rw [Bool.and_eq_true] at hskipped
      apply hchecked'
      rw [h.ignoreComponents hskipped.1, hskipped.2]
      rfl
    obtain ⟨hrole, hinvalid⟩ := Option.filter_eq_some_iff.1 hattr
    rw [if_neg hchecked]
    refine Option.filter_eq_some_iff.2 ⟨hrole, ?_⟩
    cases hvalid : r.isValid (RoleValue.ofAttribute (some attr)) with
    | false => rfl
    | true =>
        rw [h.isValid hvalid] at hinvalid
        cases hinvalid

end Relaxes

/-- If two rules agree on some tags and one of them passes all others, it makes of the offences
against the other one those with such a tag. -/
theorem offences_eq_filter {r r' : RoleRule} {kept : Tag → Bool}
    (h : ∀ tag, r'.offending? tag = if kept tag then r.offending? tag else none)
    (es : List Element) :
    r'.offences es = (r.offences es).filter fun offence => kept offence.1.tag := by
  induction es with
  | nil => rfl
  | cons e es ih =>
      rw [offences_cons, offences_cons r, List.filter_append, ← ih]
      congr 1
      by_cases hkept : kept e.tag = true
      · cases hattr : r.offending? e.tag <;> simp [offences, h, hkept, hattr]
      · cases hattr : r.offending? e.tag <;> simp [offences, h, hkept, hattr]

/-- The offences against a relaxed rule are among those against the stricter one. -/
theorem Relaxes.offences_sublist {r r' : RoleRule} (h : r'.Relaxes r) (es : List Element) :
    (r'.offences es).Sublist (r.offences es) := by
  have hkept : ∀ tag, r'.offending? tag =
      if (r'.offending? tag).isSome then r.offending? tag else none := by
    intro tag
    cases hattr : r'.offending? tag with
    | none => rfl
    | some attr => exact (h.offending? hattr).symm
  rw [offences_eq_filter hkept]
  exact List.filter_sublist

/-- A relaxed rule reports some of what the stricter one reports, in the same order. -/
theorem Relaxes.exists_sublist {r r' : RoleRule} (h : r'.Relaxes r) {source : String} {d : Document}
    (hparse : Document.parse source = .ok d) : ∃ found, auditSource [r'.rule] source = .ok found ∧
      found.Sublist ((r.offences d.entered).map (r.report source)) := by
  refine ⟨_, r'.auditSource_eq hparse, ?_⟩
  rw [report_eq r r']
  exact (h.offences_sublist d.entered).map _

/-- The rule that leaves components alone and is the same otherwise. -/
def sparing (r : RoleRule) : RoleRule :=
  { r with options.ignoreComponents := true }

theorem offending?_sparing (r : RoleRule) (tag : Tag) :
    r.sparing.offending? tag = if tag.name.isNode then r.offending? tag else none := by
  cases hnode : tag.name.isNode with
  | true => simp [offending?, hnode, sparing, isValid, isAllowed]
  | false => simp [offending?, hnode, sparing]

/-- Two rules that allow the same words and treat components alike find the same in every tag. -/
theorem rule_eq {r r' : RoleRule} (hallowed : ∀ word, r'.isAllowed word = r.isAllowed word)
    (hcomponents : r'.options.ignoreComponents = r.options.ignoreComponents) :
    r'.rule = r.rule := by
  have hvalid : r'.isValid = r.isValid := by
    funext value
    cases value <;> simp only [isValid, hallowed]
  simp only [rule, offending?, hvalid, hcomponents]

/-- Rules that allow more words are relaxed. -/
theorem relaxes_of_options (r : RoleRule) {o : RoleOptions}
    (hallowed : ∀ word ∈ r.options.allowed, word ∈ o.allowed)
    (hcomponents : r.options.ignoreComponents = true → o.ignoreComponents = true) :
    Relaxes { r with options := o } r where
  isAllowed := by
    intro word hword
    simp only [isAllowed, Bool.or_eq_true, List.contains_iff_mem] at hword ⊢
    exact hword.imp_right (hallowed word)
  ignoreComponents := hcomponents

/-- Rules that know more concrete roles are relaxed. -/
theorem relaxes_of_registry (r : RoleRule) {registry : Registry}
    (h : ∀ name, r.registry.isConcrete name = true → registry.isConcrete name = true) :
    Relaxes { r with registry } r where
  isAllowed := by
    intro word hword
    simp only [isAllowed, Bool.or_eq_true] at hword ⊢
    exact hword.imp_left (h word)
  ignoreComponents := id

end RoleRule

/-- Relaxing the rule on roles only removes diagnostics.  Those of a parsed source belong to its
offences, in the order of their elements.  Allowing more words, leaving components alone or knowing
more concrete roles leaves some of them, in the same order.  To leave components alone, and to do
nothing else, leaves exactly those of nodes.  Of the allowed words only the set matters. -/
theorem relaxing_removes (source : String) (d : Document) (h : Document.parse source = .ok d)
    (r : RoleRule) : ∃ (offences : List Offence) (found : List Diagnostic),
      ((∀ offence, offence ∈ offences ↔
          Among d.elements offence.1 ∧ r.offending? offence.1.tag = some offence.2) ∧
        offences.Pairwise fun o o' => o.1.span.start < o'.1.span.start) ∧
      found = offences.map (r.report source) ∧ auditSource [r.rule] source = .ok found ∧
      (∀ o : RoleOptions, (∀ word ∈ r.options.allowed, word ∈ o.allowed) →
        (r.options.ignoreComponents = true → o.ignoreComponents = true) → ∃ found',
          auditSource [RoleRule.rule { r with options := o }] source = .ok found' ∧
            found'.Sublist found) ∧
      auditSource [r.sparing.rule] source = .ok
        ((offences.filter fun offence => offence.1.tag.name.isNode).map (r.report source)) ∧
      (∀ o : RoleOptions, (∀ word, word ∈ o.allowed ↔ word ∈ r.options.allowed) →
        o.ignoreComponents = r.options.ignoreComponents →
          auditSource [RoleRule.rule { r with options := o }] source = .ok found) ∧
      ∀ registry : Registry,
        (∀ name, r.registry.isConcrete name = true → registry.isConcrete name = true) → ∃ found',
          auditSource [RoleRule.rule { r with registry }] source = .ok found' ∧
            found'.Sublist found := by
  have haudit := r.auditSource_eq h
  refine ⟨r.offences d.entered, _, r.offences_inOrder h, rfl, haudit, ?_, ?_, ?_, ?_⟩
  · intro o hallowed hcomponents
    exact (r.relaxes_of_options hallowed hcomponents).exists_sublist h
  · rw [r.sparing.auditSource_eq h, RoleRule.offences_eq_filter r.offending?_sparing]
    rfl
  · intro o hallowed hcomponents
    have hwords : ∀ word, RoleRule.isAllowed { r with options := o } word = r.isAllowed word := by
      intro word
      rw [RoleRule.isAllowed, RoleRule.isAllowed, Bool.eq_iff_iff]
      simp only [Bool.or_eq_true, List.contains_iff_mem, hallowed]
    rw [RoleRule.rule_eq hwords hcomponents]
    exact haudit
  · intro registry hregistry
    exact (r.relaxes_of_registry hregistry).exists_sublist h

/-- A component with a node in it. -/
def boxSource : String :=
  "<Box role=\"x\"><p role=\"y\"/></Box>"

/-- What `boxSource` is parsed into. -/
def boxDocument : Document :=
  let inner : Element :=
    .single ⟨.plain "p", [.plain ⟨none, "role", some (.quoted "y" ⟨22, 25⟩), ⟨17, 25⟩⟩], ⟨14, 27⟩⟩
  ⟨[.pair ⟨.plain "Box", [.plain ⟨none, "role", some (.quoted "x" ⟨10, 13⟩), ⟨5, 13⟩⟩], ⟨0, 14⟩⟩
    [.element inner] ⟨27, 33⟩]⟩

theorem relaxing_removes_sample : Document.parse boxSource = .ok boxDocument ∧
    ∃ found found' : List Diagnostic, auditSource [buttonRule.rule] boxSource = .ok found ∧
      auditSource [RoleRule.rule { buttonRule with options.allowed := ["y"] }] boxSource =
        .ok found' ∧ found'.Sublist found := by
  have hparse : Document.parse boxSource = .ok boxDocument := by with_unfolding_all rfl
  obtain ⟨-, found, -, -, hfound, hoptions, -⟩ :=
    relaxing_removes boxSource boxDocument hparse buttonRule
  obtain ⟨found', hfound', hsublist⟩ := hoptions { allowed := ["y"] } (by simp [buttonRule]) id
  exact ⟨hparse, found, found', hfound, hfound', hsublist⟩

end RoleAudit.Audit
