import RoleAudit.Proofs.Completeness
import RoleAudit.Proofs.Extents

/-!
# What is parsed is spelled

A derivation may skip a balanced list in braces even if the list is an expression; what the readers
return never does.  Nothing is lost by the difference: whatever lexemes write, they also write
without such a skip, by a phrase of the same kind.  As the readers take what is spelled for what it
is, the document that a source is parsed into is the one that its lexemes spell.

Main statements: `Written.isSpelled` and `spells_of_parse`.
-/

namespace RoleAudit.Markup

open RoleAudit.Text (Span)
open Reader Grammar

theorem Written.mono {skip skip' : List Lexeme → Prop} (hskip : ∀ ts, skip ts → skip' ts)
    {ts : List Lexeme} {phrase : Phrase} (h : Written skip ts phrase) :
    Written skip' ts phrase := by
  induction h with
  | literal h => exact .literal h
  | grouped _ ih => exact .grouped ih
  | nested _ ih => exact .nested ih
  | member _ ih => exact .member ih
  | call _ _ ih ih' => exact .call ih ih'
  | unary hop _ ih => exact .unary hop ih
  | joined hop _ _ ih ih' => exact .joined hop ih ih'
  | conditional _ _ _ ih ih' ih'' => exact .conditional ih ih' ih''
  | tighter _ ih => exact .tighter ih
  | noArguments => exact .noArguments
  | arguments _ _ ih ih' => exact .arguments ih ih'
  | lastArgument => exact .lastArgument
  | trailingComma => exact .trailingComma
  | furtherArgument _ _ ih ih' => exact .furtherArgument ih ih'
  | emptyBraces => exact .emptyBraces
  | coveredBraces _ ih => exact .coveredBraces ih
  | skippedBraces hne hbalanced h => exact .skippedBraces hne hbalanced (hskip _ h)
  | noValue => exact .noValue
  | quotedValue => exact .quotedValue
  | bracedValue _ ih => exact .bracedValue ih
  | plain _ ih => exact .plain ih
  | spaced _ ih => exact .spaced ih
  | spread hbalanced => exact .spread hbalanced
  | noItems => exact .noItems
  | items _ _ ih ih' => exact .items ih ih'
  | prose => exact .prose
  | elementChild _ ih => exact .elementChild ih
  | bracedChild _ ih => exact .bracedChild ih
  | noChildren => exact .noChildren
  | children _ _ ih ih' => exact .children ih ih'
  | single hproper hne hname _ ih => exact .single hproper hne hname ih
  | pair hproper hplain hname _ _ hclosing ih ih' =>
      exact .pair hproper hplain hname ih ih' hclosing
  | noElements => exact .noElements
  | elements _ _ ih ih' => exact .elements ih ih'

/-- What is spelled is derived. -/
theorem Spells.derives {ts : List Lexeme} {phrase : Phrase} (h : Spells ts phrase) :
    Derives ts phrase :=
  h.mono fun _ _ => trivial

/-! ### Skipping no expression -/

/-- The lexemes spell a phrase of the same kind, which takes up the same stretch if it is a pair of
braces. -/
def Phrase.IsSpelled (ts : List Lexeme) : Phrase → Prop
  | .expr level _ => ∃ e, Spells ts (.expr level e)
  | .arguments _ => ∃ es, Spells ts (.arguments es)
  | .furtherArguments _ => ∃ es, Spells ts (.furtherArguments es)
  | .container c => ∃ content, Spells ts (.container ⟨content, c.span⟩)
  | .value _ => ∃ v, Spells ts (.value v)
  | .item i => ∃ i', startsPlain [i'] = startsPlain [i] ∧ Spells ts (.item i')
  | .items is => ∃ is', startsPlain is' = startsPlain is ∧ Spells ts (.items is')
  | .child _ => ∃ c, Spells ts (.child c)
  | .children _ => ∃ cs, Spells ts (.children cs)
  | .element _ => ∃ e, Spells ts (.element e)
  | .elements _ => ∃ es, Spells ts (.elements es)

theorem startsPlain_cons (first : TagItem) (others : List TagItem) :
    startsPlain (first :: others) = startsPlain [first] := by
  cases first <;> rfl

/-- Whatever is derived can be spelled.  A skipped list that is an expression is shorter than what
it stands in, so the expression can be spelled as well. -/
theorem Written.isSpelled {ts : List Lexeme} {phrase : Phrase} (h : Derives ts phrase) :
    phrase.IsSpelled ts := by
  induction hlength : ts.length using Nat.strongRecOn generalizing ts phrase with
  | ind length shorter =>
      obtain hle : ts.length ≤ length := Nat.le_of_eq hlength
      clear hlength
      induction h with
      | literal h => exact ⟨_, .literal h⟩
      | grouped _ ih =>
          obtain ⟨e, he⟩ := ih (by simp at hle; omega)
          exact ⟨_, .grouped he⟩
      | nested _ ih =>
          obtain ⟨e, he⟩ := ih hle
          exact ⟨_, .nested he⟩
      | member _ ih =>
          obtain ⟨e, he⟩ := ih (by simp at hle; omega)
          exact ⟨_, .member he⟩
      | call _ _ ih ih' =>
          obtain ⟨e, he⟩ := ih (by simp at hle; omega)
          obtain ⟨es, hes⟩ := ih' (by simp at hle; omega)
          exact ⟨_, .call he hes⟩
      | unary hop _ ih =>
          obtain ⟨e, he⟩ := ih (by simp at hle; omega)
          exact ⟨_, .unary hop he⟩
      | joined hop _ _ ih ih' =>
          obtain ⟨e, he⟩ := ih (by simp at hle; omega)
          obtain ⟨e', he'⟩ := ih' (by simp at hle; omega)
          exact ⟨_, .joined hop he he'⟩
      | conditional _ _ _ ih ih' ih'' =>
          obtain ⟨test, htest⟩ := ih (by simp at hle; omega)
          obtain ⟨yes, hyes⟩ := ih' (by simp at hle; omega)
          obtain ⟨no, hno⟩ := ih'' (by simp at hle; omega)
          exact ⟨_, .conditional htest hyes hno⟩
      | tighter _ ih =>
          obtain ⟨e, he⟩ := ih hle
          exact ⟨e, .tighter he⟩
      | noArguments => exact ⟨_, .noArguments⟩
      | arguments _ _ ih ih' =>
          obtain ⟨e, he⟩ := ih (by simp at hle; omega)
          obtain ⟨es, hes⟩ := ih' (by simp at hle; omega)
          exact ⟨_, .arguments he hes⟩
      | lastArgument => exact ⟨_, .lastArgument⟩
      | trailingComma => exact ⟨_, .trailingComma⟩
      | furtherArgument _ _ ih ih' =>
          obtain ⟨e, he⟩ := ih (by simp at hle; omega)
          obtain ⟨es, hes⟩ := ih' (by simp at hle; omega)
          exact ⟨_, .furtherArgument he hes⟩
      | emptyBraces => exact ⟨_, .emptyBraces⟩
      | coveredBraces _ ih =>
          obtain ⟨e, he⟩ := ih (by simp at hle; omega)
          exact ⟨_, .coveredBraces he⟩
      | @skippedBraces left right inside hne hbalanced _ =>
          by_cases hexpr : ∃ e, Derives inside (.expr .full e)
          · obtain ⟨e, he⟩ := hexpr
            obtain ⟨e', he'⟩ := shorter inside.length (by simp at hle; omega) he rfl
            exact ⟨_, .coveredBraces he'⟩
          · exact ⟨_, .skippedBraces hne hbalanced hexpr⟩
      | noValue => exact ⟨_, .noValue⟩
      | quotedValue => exact ⟨_, .quotedValue⟩
      | bracedValue _ ih =>
          obtain ⟨content, hc⟩ := ih (by simp at hle; omega)
          exact ⟨_, .bracedValue hc⟩
      | plain _ ih =>
          obtain ⟨v, hv⟩ := ih (by simp at hle; omega)
          exact ⟨_, by rfl, .plain hv⟩
      | spaced _ ih =>
          obtain ⟨v, hv⟩ := ih (by simp at hle; omega)
          exact ⟨_, by rfl, .spaced hv⟩
      | spread hbalanced => exact ⟨_, rfl, .spread hbalanced⟩
      | noItems => exact ⟨_, rfl, .noItems⟩
      | items _ _ ih ih' =>
          obtain ⟨i, hplain, hi⟩ := ih (by simp at hle; omega)
          obtain ⟨is, -, his⟩ := ih' (by simp at hle; omega)
          exact ⟨_, by rw [startsPlain_cons, hplain, ← startsPlain_cons], .items hi his⟩
      | prose => exact ⟨_, .prose⟩
      | elementChild _ ih =>
          obtain ⟨e, he⟩ := ih hle
          exact ⟨_, .elementChild he⟩
      | bracedChild _ ih =>
          obtain ⟨content, hc⟩ := ih hle
          exact ⟨_, .bracedChild hc⟩
      | noChildren => exact ⟨_, .noChildren⟩
      | children _ _ ih ih' =>
          obtain ⟨c, hc⟩ := ih (by simp at hle; omega)
          obtain ⟨cs, hcs⟩ := ih' (by simp at hle; omega)
          exact ⟨_, .children hc hcs⟩
      | single hproper hne hname _ ih =>
          obtain ⟨is, -, his⟩ := ih (by simp at hle; omega)
          exact ⟨_, .single hproper hne hname his⟩
      | pair hproper hplain hname _ _ hclosing ih ih' =>
          obtain ⟨is, hfirst, his⟩ := ih (by simp at hle; omega)
          obtain ⟨cs, hcs⟩ := ih' (by simp at hle; omega)
          exact ⟨_, .pair hproper (fun hname => hfirst ▸ hplain hname) hname his hcs hclosing⟩
      | noElements => exact ⟨_, .noElements⟩
      | elements _ _ ih ih' =>
          obtain ⟨e, he⟩ := ih (by simp at hle; omega)
          obtain ⟨es, hes⟩ := ih' (by simp at hle; omega)
          exact ⟨_, .elements he hes⟩

/-- A balanced list in braces is spelled by a container. -/
theorem exists_spells_container {inside : List Lexeme} (left right : Span)
    (hbalanced : Balanced (inside.map Lexeme.token)) : ∃ content,
      Spells (⟨.openBrace, left⟩ :: (inside ++ [⟨.closeBrace, right⟩]))
        (.container ⟨content, ⟨left.start, right.stop⟩⟩) := by
  by_cases hne : inside = []
  · subst hne
    exact ⟨.empty, .emptyBraces⟩
  · exact Written.isSpelled (.skippedBraces hne hbalanced trivial)

/-! ### Documents -/

/-- A document is parsed from a source whose lexemes spell it. -/
theorem parse_of_spells {source : String} {es : List Element}
    (h : Spells (lexemes source) (.elements es)) : Document.parse source = .ok ⟨es⟩ := by
  rw [Document.parse, ofLexemes_eq_ok_iff]
  exact reads_document_of_spells h

/-- The lexemes of a source spell the document that it is parsed into. -/
theorem spells_of_parse {source : String} {d : Document} (h : Document.parse source = .ok d) :
    Spells (lexemes source) (.elements d.elements) := by
  obtain ⟨es, hes⟩ := (derives_of_parse h).isSpelled
  have hparse := parse_of_spells hes
  rw [h] at hparse
  cases hparse
  exact hes

end RoleAudit.Markup
