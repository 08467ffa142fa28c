import RoleAudit.Markup.Mode
import RoleAudit.Proofs.Escapes

/-!
# Pieces of a source

What a scanner bites off a text is a piece of that text: the piece and the rest make up the text,
the width is the length of the piece in bytes, and the token, if there is one, says what the piece
says.  A piece without a token is a space or a comment.

Code bites off what the first character asks for: `CodeBite` names the cases, and `codeBite_cases`
says that there are no others.

Main statements: `bite_takes` and `bite_isSome`.
-/

namespace RoleAudit.Markup

open RoleAudit.Text

/-! ### What a piece may be -/

namespace Token

/-- Whether a token is spelled as it was read. -/
def isVerbatim : Token → Bool
  | quoted _ | template _ | prose _ | comment => false
  | _ => true

end Token

/-- A character that code skips, or a comment up to its first end. -/
inductive IsGap : List Char → Prop
  | space {c : Char} (h : isSpace c = true) : IsGap [c]
  | comment {inside : List Char} (h : ¬ ['*', '/'] <:+: inside ++ ['*']) :
      IsGap ('/' :: '*' :: (inside ++ ['*', '/']))

/-- A run of prose that `rest` follows: up to a character that ends prose, or to the end. -/
def IsRun (piece rest : List Char) : Prop :=
  (∀ c ∈ piece, endsProse c = false) ∧ ∀ c ∈ rest.head?, endsProse c = true

/-- Under a stack of modes, and before `rest`, a piece of text is what a token stands for. -/
def Accounts (modes : Modes) (piece rest : List Char) : Option Token → Prop
  | none => modes.head? ≠ some .prose ∧ IsGap piece
  | some .comment => False
  | some (.prose text) =>
      modes.head? = some .prose ∧ text = String.ofList piece ∧ IsRun piece rest
  | some (.quoted value) => ∃ quote inside, (quote = '"' ∨ quote = '\x27') ∧
      piece = quote :: (inside ++ [quote]) ∧
        ∀ state, modes.head? = some (.tag state) → value = String.ofList inside
  | some (.template _) => ∃ inside, piece = '\x60' :: (inside ++ ['\x60'])
  | some token => token.spelling = String.ofList piece

theorem accounts_of_isVerbatim {modes : Modes} {piece rest : List Char} {t : Token}
    (ht : t.isVerbatim = true) (h : t.spelling = String.ofList piece) :
    Accounts modes piece rest (some t) := by
  cases t with
  | quoted value | template value | prose text | comment => cases ht
  | _ => exact h

theorem spelling_of_accounts {modes : Modes} {piece rest : List Char} {t : Token}
    (ht : t.isVerbatim = true) (h : Accounts modes piece rest (some t)) :
    t.spelling = String.ofList piece := by
  cases t with
  | quoted value | template value | prose text | comment => cases ht
  | _ => exact h

/-- A bite off a text takes the piece before the rest. -/
structure Bite.Takes (b : Bite) (modes : Modes) (text piece : List Char) : Prop where
  nonempty : piece ≠ []
  text_eq : text = piece ++ b.rest
  width_eq : b.width = byteLength piece
  accounts : Accounts modes piece b.rest b.token

/-! ### Parts of pieces -/

theorem utf8Size_of_isSpace {c : Char} (h : isSpace c = true) : c.utf8Size = 1 := by
  simp only [isSpace, Bool.or_eq_true, decide_eq_true_eq] at h
  rcases h with (((rfl | rfl) | rfl) | rfl) | rfl <;> rfl

theorem wordTail_append (text : List Char) : (wordTail text).1 ++ (wordTail text).2 = text := by
  fun_induction wordTail text with
  | case1 c rest hc tail ih => simpa [tail] using ih
  | case2 c rest hc => rfl
  | case3 c rest hdash hc tail ih => simpa [tail] using ih
  | case4 c rest hdash hc => rfl
  | case5 => rfl

theorem fractionTail_append (text : List Char) :
    (fractionTail text).1 ++ (fractionTail text).2 = text := by
  unfold fractionTail
  split
  · split
    · simp
    · rfl
  · rfl

theorem spelling_wordToken (name rest : List Char) :
    (wordToken name rest).isVerbatim = true ∧
      (wordToken name rest).spelling = String.ofList name := by
  unfold wordToken
  split
  · exact ⟨rfl, rfl⟩
  · split
    · next h => exact ⟨rfl, h.symm⟩
    · next h => exact ⟨rfl, h.symm⟩
    · next h => exact ⟨rfl, h.symm⟩
    · exact ⟨rfl, rfl⟩

theorem commentTail_eq_some {text rest : List Char} {width : Nat}
    (h : commentTail text = some (width, rest)) :
    ∃ inside, text = inside ++ '*' :: '/' :: rest ∧ width = byteLength inside + 2 ∧
      ¬ ['*', '/'] <:+: inside ++ ['*'] := by
  fun_induction commentTail text generalizing width with
  | case1 rest' =>
      cases h
      exact ⟨[], rfl, rfl, by decide⟩
  | case2 c rest' hstart ih =>
      obtain ⟨tail, htail, h⟩ := Option.map_eq_some_iff.1 h
      cases h
      obtain ⟨inside, rfl, hwidth, hfirst⟩ := ih htail
      refine ⟨c :: inside, rfl, by simp [hwidth]; omega, ?_⟩
      rw [List.cons_append, List.infix_cons_iff, not_or]
      refine ⟨?_, hfirst⟩
      -- an end that takes up the first character would have been found before
      rintro ⟨after, hafter⟩
      obtain ⟨rfl, hrest⟩ := List.cons.inj hafter
      refine hstart (after ++ '/' :: tail.2) rfl ?_
      rw [List.append_cons, ← hrest]
      rfl
  | case3 => cases h

/-- A comment is read up to its first end, before any text. -/
theorem commentTail_of_not_infix {inside : List Char} (h : ¬ ['*', '/'] <:+: inside ++ ['*'])
    (rest : List Char) :
    commentTail (inside ++ '*' :: '/' :: rest) = some (byteLength inside + 2, rest) := by
  induction inside with
  | nil => rfl
  | cons c inside ih =>
      rw [List.cons_append, List.infix_cons_iff, not_or] at h
      obtain ⟨hfirst, hothers⟩ := h
      rw [List.cons_append, commentTail, ih hothers]
      · simp [Nat.add_assoc]
      · rintro others rfl hslash
        refine hfirst ?_
        cases inside with
        | nil => cases hslash
        | cons d inside =>
            obtain ⟨rfl, -⟩ := List.cons.inj hslash
            exact ⟨inside ++ ['*'], rfl⟩

theorem symbols_spelling : ∀ entry ∈ symbols, entry.1 ≠ [] ∧ entry.2.isVerbatim = true ∧
    entry.2.spelling = String.ofList entry.1 := by
  decide

theorem symbolAmong_eq_some {table : List (List Char × Token)} {text : List Char} {b : Bite}
    (h : symbolAmong table text = some b) : ∃ entry ∈ table, text = entry.1 ++ b.rest ∧
      b.width = byteLength entry.1 ∧ b.token = some entry.2 := by
  induction table with
  | nil => cases h
  | cons entry others ih =>
      unfold symbolAmong at h
      split at h
      · next hstart =>
          cases h
          obtain ⟨rest, rfl⟩ := List.isPrefixOf_iff_prefix.1 hstart
          exact ⟨entry, by simp, by simp, rfl, rfl⟩
      · obtain ⟨found, hfound, htext⟩ := ih h
        exact ⟨found, by simp [hfound], htext⟩

/-! ### What code bites off -/

/-- Whether a character starts neither a space, a word, a number nor a text in quotes.  Then it
starts a comment or a symbol, or stands for itself. -/
def isSign (c : Char) : Bool :=
  !(isSpace c || isWordStart c || c.isDigit || c = '"' || c = '\x27' || c = '\x60')

/-- What code bites off a text, by what the text starts with. -/
inductive CodeBite (inTag : Bool) : List Char → Bite → Prop
  | comment {rest rest' : List Char} {width : Nat} (h : commentTail rest = some (width, rest')) :
      CodeBite inTag ('/' :: '*' :: rest) ⟨none, 2 + width, rest'⟩
  | openComment {rest : List Char} (h : commentTail rest = none) :
      CodeBite inTag ('/' :: '*' :: rest) ⟨some (.stray "/*"), 2, rest⟩
  | space {c : Char} {rest : List Char} (hspace : isSpace c = true) :
      CodeBite inTag (c :: rest) ⟨none, 1, rest⟩
  | word {c : Char} {rest : List Char} (hspace : isSpace c = false) (hword : isWordStart c = true) :
      CodeBite inTag (c :: rest) ⟨some (wordToken (c :: (wordTail rest).1) (wordTail rest).2),
        byteLength (c :: (wordTail rest).1), (wordTail rest).2⟩
  | number {c : Char} {rest number : List Char} (hspace : isSpace c = false)
      (hword : isWordStart c = false) (hdigit : c.isDigit = true)
      (hnumber : number = c :: (rest.takeWhile Char.isDigit ++
        (fractionTail (rest.dropWhile Char.isDigit)).1)) :
      CodeBite inTag (c :: rest) ⟨some (.number (String.ofList number)), byteLength number,
        (fractionTail (rest.dropWhile Char.isDigit)).2⟩
  | quoted {c : Char} {rest : List Char} (hquote : c = '"' ∨ c = '\x27') :
      CodeBite inTag (c :: rest) (quotedBite c .quoted rest
        (if inTag then plainQuoted c rest else Quoted.read c false rest))
  | template {rest : List Char} : CodeBite inTag ('\x60' :: rest)
      (quotedBite '\x60' .template rest (Quoted.read '\x60' true rest))
  | symbol {c : Char} {rest : List Char} {b : Bite} (hsign : isSign c = true)
      (hcomment : ¬ ['/', '*'] <+: c :: rest) (h : symbolAmong symbols (c :: rest) = some b) :
      CodeBite inTag (c :: rest) b
  | stray {c : Char} {rest : List Char} (hsign : isSign c = true)
      (hcomment : ¬ ['/', '*'] <+: c :: rest) (h : symbolAmong symbols (c :: rest) = none) :
      CodeBite inTag (c :: rest) ⟨some (.stray (String.singleton c)), c.utf8Size, rest⟩

/-- Whatever code bites off is one of these. -/
theorem codeBite_cases {inTag : Bool} {text : List Char} {b : Bite}
    (h : codeBite inTag text = some b) : CodeBite inTag text b := by
  unfold codeBite at h
  split at h
  · cases h
  · split at h
    · next htail =>
        cases h
        exact .comment htail
    · next htail =>
        cases h
        exact .openComment htail
  · next c rest hstart =>
    have hcomment : ¬ ['/', '*'] <+: c :: rest := by
      rintro ⟨others, hothers⟩
      obtain ⟨rfl, rfl⟩ := List.cons.inj hothers
      exact hstart others rfl rfl
    split at h
    · next hspace =>
        cases h
        exact .space hspace
    split at h
    · next hspace hword =>
        cases h
        exact .word (by simpa using hspace) hword
    split at h
    · next hspace hword hdigit =>
        cases h
        exact .number (by simpa using hspace) (by simpa using hword) hdigit rfl
    split at h
    · next hquote =>
        cases h
        exact .quoted (by simpa using hquote)
    split at h
    · next htick =>
        cases h
        cases htick
        exact .template
    next hspace hword hdigit hquote htick =>
    have hsign : isSign c = true := by simp_all [isSign]
    split at h
    · next hsymbol =>
        cases h
        exact .symbol hsign hcomment hsymbol
    · next hsymbol =>
        cases h
        exact .stray hsign hcomment hsymbol

namespace CodeBite

/-- Each of these is what code bites off. -/
theorem codeBite_eq {inTag : Bool} {text : List Char} {b : Bite} (h : CodeBite inTag text b) :
    codeBite inTag text = some b := by
  cases h with
  | comment h => simp [codeBite, h]
  | openComment h => simp [codeBite, h]
  | @space c rest hspace =>
      rw [codeBite, if_pos hspace]
      rintro _ rfl
      cases hspace
  | @word c rest hspace hword =>
      rw [codeBite]
      · simp [hspace, hword]
      rintro _ rfl
      cases hword
  | @number c rest number hspace hword hdigit hnumber =>
      subst hnumber
      rw [codeBite]
      · simp [hspace, hword, hdigit]
      rintro _ rfl
      cases hdigit
  | quoted hquote =>
      rcases hquote with rfl | rfl <;> simp [codeBite, isSpace, isWordStart]
  | template => simp [codeBite, isSpace, isWordStart]
  | symbol hsign hcomment h =>
      simp only [isSign, Bool.not_or, Bool.and_eq_true, Bool.not_eq_true'] at hsign
      rw [codeBite]
      · simp_all
      rintro _ rfl rfl
      exact hcomment ⟨_, rfl⟩
  | stray hsign hcomment h =>
      simp only [isSign, Bool.not_or, Bool.and_eq_true, Bool.not_eq_true'] at hsign
      rw [codeBite]
      · simp_all
      rintro _ rfl rfl
      exact hcomment ⟨_, rfl⟩

end CodeBite

/-! ### Bites -/

section Bites

variable {modes : Modes}

/-- A lone quote is a stray piece; with its closing quote it is a literal. -/
theorem quotedBite_takes {quote : Char} {literal : String → Token} {rest : List Char}
    {reading : Option Quoted.Reading}
    (hread : ∀ r, reading = some r → ∃ inside, rest = inside ++ quote :: r.rest ∧
      r.width = byteLength inside + quote.utf8Size ∧
      Accounts modes (quote :: (inside ++ [quote])) r.rest
        (some (literal (String.ofList r.value)))) :
    ∃ piece, (quotedBite quote literal rest reading).Takes modes (quote :: rest) piece := by
  cases reading with
  | none =>
      refine ⟨[quote], by simp, rfl, by simp [quotedBite], ?_⟩
      exact accounts_of_isVerbatim rfl (String.ext rfl)
  | some r =>
      obtain ⟨inside, hrest, hwidth, haccounts⟩ := hread r rfl
      exact ⟨quote :: (inside ++ [quote]), by simp, by simp [quotedBite, hrest],
        by simp [quotedBite, hwidth], haccounts⟩

theorem plainQuoted_eq_some {quote : Char} {text : List Char} {r : Quoted.Reading}
    (h : plainQuoted quote text = some r) :
    text = r.value ++ quote :: r.rest ∧ r.width = byteLength r.value + quote.utf8Size := by
  obtain ⟨parts, hparts, rfl⟩ := Option.map_eq_some_iff.1 h
  exact ⟨(Quoted.cut?_eq_some_iff.1 hparts).1, rfl⟩

theorem codeBite_takes {inTag : Bool} {text : List Char} {b : Bite}
    (hmodes : modes.head? ≠ some .prose) (htag : ∀ state, modes.head? = some (.tag state) → inTag)
    (h : codeBite inTag text = some b) : ∃ piece, b.Takes modes text piece := by
  cases codeBite_cases h with
  | comment htail =>
      obtain ⟨inside, rfl, rfl, hfirst⟩ := commentTail_eq_some htail
      refine ⟨'/' :: '*' :: (inside ++ ['*', '/']), by simp, by simp, ?_, hmodes, .comment hfirst⟩
      simp only [byteLength_cons, byteLength_append, byteLength_nil]
      show 2 + (byteLength inside + 2) = 1 + (1 + (byteLength inside + (1 + (1 + 0))))
      omega
  | openComment _ => exact ⟨['/', '*'], by simp, rfl, rfl, accounts_of_isVerbatim rfl rfl⟩
  | @space c rest hspace =>
      refine ⟨[c], by simp, rfl, ?_, hmodes, .space hspace⟩
      rw [byteLength_cons, utf8Size_of_isSpace hspace]
      rfl
  | @word c rest _ _ =>
      obtain ⟨hverbatim, hspelling⟩ := spelling_wordToken (c :: (wordTail rest).1) (wordTail rest).2
      refine ⟨c :: (wordTail rest).1, by simp, ?_, rfl, accounts_of_isVerbatim hverbatim hspelling⟩
      rw [List.cons_append, wordTail_append]
  | @number c rest number _ _ _ hnumber =>
      refine ⟨number, by simp [hnumber], ?_, rfl, accounts_of_isVerbatim rfl rfl⟩
      rw [hnumber, List.cons_append, List.append_assoc, fractionTail_append,
        List.takeWhile_append_dropWhile]
  | @quoted c rest hquote =>
      -- only code knows escapes
      refine quotedBite_takes fun r hr => ?_
      split at hr
      · obtain ⟨hrest, hwidth⟩ := plainQuoted_eq_some hr
        exact ⟨r.value, hrest, hwidth, c, r.value, hquote, rfl, fun _ _ => rfl⟩
      · next hcode =>
          obtain ⟨inside, hrest, hwidth⟩ := Quoted.read_eq_some hr
          exact ⟨inside, hrest, hwidth, c, inside, hquote, rfl,
            fun state hstate => absurd (htag state hstate) hcode⟩
  | template =>
      refine quotedBite_takes fun r hr => ?_
      obtain ⟨inside, hrest, hwidth⟩ := Quoted.read_eq_some hr
      exact ⟨inside, hrest, hwidth, inside, rfl⟩
  | symbol _ _ hsymbol =>
      obtain ⟨entry, hentry, htext, hwidth, htoken⟩ := symbolAmong_eq_some hsymbol
      obtain ⟨hne, hverbatim, hspelling⟩ := symbols_spelling entry hentry
      refine ⟨entry.1, hne, htext, hwidth, ?_⟩
      rw [htoken]
      exact accounts_of_isVerbatim hverbatim hspelling
  | @stray c rest _ _ _ =>
      exact ⟨[c], by simp, rfl, by simp, accounts_of_isVerbatim rfl (String.ext rfl)⟩

theorem proseBite_takes {text : List Char} {b : Bite} (hmodes : modes.head? = some .prose)
    (h : proseBite text = some b) : ∃ piece, b.Takes modes text piece := by
  unfold proseBite at h
  split at h
  · cases h
  · cases h
    exact ⟨['<'], by simp, rfl, rfl, accounts_of_isVerbatim rfl rfl⟩
  · cases h
    exact ⟨['\x7b'], by simp, rfl, rfl, accounts_of_isVerbatim rfl rfl⟩
  · cases h
    exact ⟨['\x7d'], by simp, rfl, rfl, accounts_of_isVerbatim rfl rfl⟩
  · next c rest hless hopen hclose =>
      cases h
      refine ⟨c :: rest.takeWhile fun d => !endsProse d, by simp, ?_, rfl, hmodes, rfl, ?_, ?_⟩
      · rw [List.cons_append, List.takeWhile_append_dropWhile]
      · simp only [List.mem_cons, forall_eq_or_imp]
        refine ⟨by simpa [endsProse] using ⟨⟨hless, hopen⟩, hclose⟩, fun d hd => ?_⟩
        have hall := List.all_takeWhile (p := fun d => !endsProse d) (l := rest)
        simpa using List.all_eq_true.1 hall d hd
      · intro d hd
        have hhead := List.head?_dropWhile_not (fun d => !endsProse d) rest
        rw [Option.mem_def.1 hd] at hhead
        simpa using hhead

/-- Every bite takes a piece off the text, and accounts for it. -/
theorem bite_takes {text : List Char} {b : Bite} (h : modes.scanner.bite text = some b) :
    ∃ piece, b.Takes modes text piece := by
  match modes, h with
  | .prose :: _, h => exact proseBite_takes rfl h
  | .tag _ :: _, h => exact @codeBite_takes _ true _ _ (by simp) (by simp) h
  | .code :: _, h => exact @codeBite_takes _ false _ _ (by simp) (by simp) h
  | [], h => exact @codeBite_takes _ false _ _ (by simp) (by simp) h

theorem codeBite_isSome (inTag : Bool) (c : Char) (rest : List Char) :
    (codeBite inTag (c :: rest)).isSome := by
  unfold codeBite
  split
  · simp_all
  · split <;> rfl
  · repeat' split
    all_goals rfl

theorem proseBite_isSome (c : Char) (rest : List Char) : (proseBite (c :: rest)).isSome := by
  unfold proseBite
  split
  · simp_all
  all_goals rfl

/-- Every text is bitten off, to its end. -/
theorem bite_isSome (c : Char) (rest : List Char) : (modes.scanner.bite (c :: rest)).isSome := by
  match modes with
  | .prose :: _ => exact proseBite_isSome c rest
  | .tag _ :: _ => exact codeBite_isSome true c rest
  | .code :: _ => exact codeBite_isSome false c rest
  | [] => exact codeBite_isSome false c rest

end Bites

end RoleAudit.Markup
