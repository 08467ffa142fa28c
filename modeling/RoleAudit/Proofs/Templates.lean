import RoleAudit.Proofs.Escapes
import RoleAudit.Proofs.Excerpts

/-!
# Templates

A text in backticks is read as any other quoted text, piece by piece, and the value of its token is
what the pieces denote.  A substitution makes no difference to this: what stands between its braces
is read in the same way.  So it is kept as it is written only if it has no backslash.

Main statements: `exists_segmented_of_template` and `substitution_read_as_text`.
-/

namespace RoleAudit.Markup

open RoleAudit.Text

/-! ### Template tokens -/

theorem codeBite_tick (inTag : Bool) (text : List Char) : codeBite inTag ('\x60' :: text) =
    some (quotedBite '\x60' .template text (Quoted.read '\x60' true text)) :=
  CodeBite.template.codeBite_eq

theorem codeBite_template (inTag : Bool) {text : List Char} {r : Quoted.Reading}
    (h : Quoted.read '\x60' true text = some r) : codeBite inTag ('\x60' :: text) =
      some ⟨some (.template (String.ofList r.value)), 1 + r.width, r.rest⟩ := by
  rw [codeBite_tick, h]
  rfl

/-- Only a text in backticks is a template. -/
theorem exists_read_of_codeBite {inTag : Bool} {text : List Char} {b : Bite} {value : String}
    (h : codeBite inTag text = some b) (htoken : b.token = some (.template value)) :
    ∃ inside r, text = '\x60' :: inside ∧ Quoted.read '\x60' true inside = some r ∧
      value = String.ofList r.value ∧ b.rest = r.rest := by
  -- no other token than a template is one
  have hverbatim : ∀ {t : Token}, t.isVerbatim = true → some t ≠ some (.template value) := by
    rintro t ht heq
    cases heq
    cases ht
  cases codeBite_cases h with
  | comment _ | openComment _ | space _ | number _ _ _ _ | stray _ _ _ => cases htoken
  | word _ _ => exact absurd htoken (hverbatim (spelling_wordToken _ _).1)
  | @quoted c rest _ =>
      generalize (if inTag then plainQuoted c rest else Quoted.read c false rest) = reading
        at htoken
      cases reading <;> cases htoken
  | @template rest =>
      cases hread : Quoted.read '\x60' true rest with
      | none =>
          rw [hread] at htoken
          cases htoken
      | some r =>
          rw [hread] at htoken
          cases htoken
          exact ⟨rest, r, rfl, hread, rfl, rfl⟩
  | symbol _ _ hsymbol =>
      obtain ⟨entry, hentry, -, -, hentryToken⟩ := symbolAmong_eq_some hsymbol
      rw [hentryToken] at htoken
      exact absurd htoken (hverbatim (symbols_spelling entry hentry).2.1)

/-- Only code and tags have templates. -/
theorem exists_codeBite_of_bite {modes : Modes} {text : List Char} {b : Bite} {value : String}
    (h : modes.scanner.bite text = some b) (htoken : b.token = some (.template value)) :
    ∃ inTag, codeBite inTag text = some b := by
  match modes, h with
  | .tag _ :: _, h => exact ⟨true, h⟩
  | .code :: _, h | [], h => exact ⟨false, h⟩
  | .prose :: _, h =>
      change proseBite text = some b at h
      unfold proseBite at h
      split at h <;> (cases h <;> cases htoken)

/-- In a source, the text of a template is pieces between backticks, which denote its value. -/
theorem exists_segmented_of_template {source value : String} {l : Lexeme}
    (hl : l ∈ lexemes source) (hvalue : l.token = .template value) : ∃ pieces back,
      Quoted.Segmented Quoted.IsSignedNumeral '\x60' true ('\x60' :: back) pieces value.toList ∧
        Cut source.toList l.span ('\x60' :: (pieces.flatten ++ ['\x60'])) back := by
  obtain ⟨ps, htext, hbitten, hlexemes⟩ := exists_bitten_source source
  obtain ⟨front, others, hsplit⟩ := List.append_of_mem hl
  obtain ⟨qs, p, rs, rfl, -, hp, -⟩ := exists_piece (hlexemes ▸ hsplit)
  obtain ⟨modes, -, hrest⟩ := hbitten.exists_mid
  obtain ⟨htoken, hspan⟩ := Piece.lexeme?_eq_some hp
  rw [hvalue] at htoken
  cases hrest with
  | step hbite _ =>
      obtain ⟨inTag, hcode⟩ := exists_codeBite_of_bite hbite htoken
      obtain ⟨inside, r, hinside, hread, rfl, hback⟩ := exists_read_of_codeBite hcode htoken
      obtain ⟨pieces, hpieces, rfl, -⟩ := Quoted.exists_segmented hread
      have hpiece : p.text = '\x60' :: (pieces.flatten ++ ['\x60']) := by
        refine List.append_cancel_right (hinside.trans ?_)
        rw [show textOf rs ++ [] = r.rest from hback]
        simp
      refine ⟨pieces, r.rest, by simpa using hpieces, textOf qs, ?_, ?_⟩
      · rw [← htext, textOf_append, textOf_cons, ← hpiece, ← hback]
        simp
      · simp [hspan, hpiece]

/-! ### Substitutions -/

namespace Quoted

section Substitutions

variable {back piece value text : List Char} {pieces : List (List Char)} {c : Char}

theorem Escape.not_mem_dropLast (h : Escape IsSignedNumeral text c) : '\x7d' ∉ text.dropLast := by
  have hdigits : ∀ {digits : List Char} {n : Nat}, IsSignedNumeral digits n → '\x7d' ∉ digits :=
    fun h => h.notMem (by decide) (by decide)
  cases h with
  | named | itself => simp
  | short _ h | long _ h => exact fun hmem => hdigits h (by simpa using List.dropLast_subset _ hmem)
  | @braced digits _ h =>
      rw [← List.cons_append, ← List.cons_append, List.dropLast_concat]
      simpa using hdigits h

/-- A closing brace can only be the last character of a piece. -/
theorem Denotes.not_mem_dropLast (h : Denotes IsSignedNumeral '\x60' true piece value) :
    '\x7d' ∉ piece.dropLast := by
  cases h with
  | plain => simp
  | continued h =>
      simp only [lineEnds, List.mem_cons, List.not_mem_nil, or_false] at h
      rcases h with rfl | rfl | rfl <;> decide
  | @escaped text _ h =>
      have hne : text ≠ [] := by
        rintro rfl
        cases h
      rw [List.dropLast_cons_of_ne_nil hne]
      simpa using h.not_mem_dropLast

/-- A piece with a backslash is longer than what it denotes, and any other denotes itself. -/
theorem Denotes.eq_or_shorter (h : Denotes IsSignedNumeral '\x60' true piece value) :
    value = piece ∧ '\\' ∉ piece ∨ value.length < piece.length ∧ '\\' ∈ piece := by
  cases h with
  | plain hquote hslash => exact Or.inl ⟨rfl, by simpa using hslash.symm⟩
  | continued => exact Or.inr ⟨by simp, List.mem_cons_self⟩
  | escaped h => exact Or.inr ⟨by cases h <;> simp, List.mem_cons_self⟩

theorem Segmented.eq_or_shorter (h : Segmented IsSignedNumeral '\x60' true back pieces value) :
    value = pieces.flatten ∧ '\\' ∉ pieces.flatten ∨
      value.length < pieces.flatten.length ∧ '\\' ∈ pieces.flatten := by
  induction h with
  | nil => simp
  | cons hpiece _ _ ih =>
      rw [List.flatten_cons, List.length_append, List.length_append, List.mem_append]
      rcases hpiece.eq_or_shorter with ⟨rfl, hslash⟩ | ⟨hlt, hslash⟩ <;>
        rcases ih with ⟨rfl, hslash'⟩ | ⟨hlt', hslash'⟩
      · exact Or.inl ⟨rfl, by simp [hslash, hslash']⟩
      all_goals exact Or.inr ⟨by omega, by simp [hslash, hslash']⟩

/-- Pieces denote what they are if there is no backslash. -/
theorem Segmented.eq_flatten_iff (h : Segmented IsSignedNumeral '\x60' true back pieces value) :
    value = pieces.flatten ↔ '\\' ∉ pieces.flatten := by
  rcases h.eq_or_shorter with ⟨heq, hslash⟩ | ⟨hlt, hslash⟩
  · exact iff_of_true heq hslash
  · exact iff_of_false (fun heq => Nat.ne_of_lt hlt (by rw [heq])) (not_not_intro hslash)

theorem Segmented.exists_denotes_of_mem
    (h : Segmented IsSignedNumeral '\x60' true back pieces value) (hpiece : piece ∈ pieces) :
    ∃ value', Denotes IsSignedNumeral '\x60' true piece value' := by
  induction h with
  | nil => cases hpiece
  | cons hfirst _ _ ih =>
      rcases List.mem_cons.1 hpiece with rfl | hpiece
      · exact ⟨_, hfirst⟩
      · exact ih hpiece

/-- No piece reaches over a closing brace. -/
theorem Segmented.exists_left {inside : List Char}
    (h : Segmented IsSignedNumeral '\x60' true back pieces value)
    (hflatten : pieces.flatten = (text ++ ['\x7d']) ++ inside) : ∃ front value',
      Segmented IsSignedNumeral '\x60' true (inside ++ back) front value' ∧
        front.flatten = text ++ ['\x7d'] := by
  obtain ⟨front, others, rfl, hfront, rfl⟩ | ⟨front, start, d, rest, others, rfl, hfront, rfl⟩ :=
    List.flatten_eq_append_iff.1 hflatten
  · obtain ⟨value', hvalue'⟩ := h.left
    exact ⟨front, value', hvalue', hfront.symm⟩
  · cases List.eq_nil_or_concat start with
    | inl hstart =>
        subst hstart
        obtain ⟨value', hvalue'⟩ := h.left
        exact ⟨front, value', by simpa using hvalue', by simpa using hfront.symm⟩
    | inr hstart =>
        -- the brace would be in the middle of a piece
        obtain ⟨init, c, rfl⟩ := hstart
        rw [List.concat_eq_append, ← List.append_assoc] at hfront
        obtain rfl : '\x7d' = c := by simpa using List.append_inj_right' hfront rfl
        obtain ⟨value', hpiece⟩ := h.exists_denotes_of_mem
          (List.mem_append_right _ List.mem_cons_self)
        refine absurd ?_ hpiece.not_mem_dropLast
        rw [List.concat_eq_append, List.append_assoc, List.dropLast_append_of_ne_nil (by simp)]
        simp

/-- What is read goes through pieces up to a closing brace before the first backtick. -/
theorem exists_segmented_to_brace {r : Reading} (hquote : '\x60' ∉ text)
    (h : read '\x60' true (text ++ '\x7d' :: back) = some r) : ∃ pieces value,
      Segmented IsSignedNumeral '\x60' true back pieces value ∧
        pieces.flatten = text ++ ['\x7d'] := by
  obtain ⟨pieces, hpieces, hflatten, -⟩ := exists_segmented h
  -- the backtick that is read to comes after the brace
  obtain ⟨inside, hinside, rfl⟩ : ∃ inside, pieces.flatten = (text ++ ['\x7d']) ++ inside ∧
      back = inside ++ '\x60' :: r.rest := by
    rw [List.append_cons] at hflatten
    obtain ⟨inside, hinside, hback⟩ | ⟨others, hothers, hback⟩ :=
      List.append_eq_append_iff.1 hflatten
    · exact ⟨inside, hinside, hback⟩
    · cases others with
      | nil => exact ⟨[], by simpa using hothers.symm, hback.symm⟩
      | cons d others =>
          obtain ⟨rfl, -⟩ := List.cons.inj hback
          have hmem : '\x60' ∈ text ++ ['\x7d'] := hothers ▸ by simp
          simp [hquote] at hmem
  exact hpieces.exists_left hinside

end Substitutions

end Quoted

/-- A template with a substitution, between other texts. -/
def substituted (p e q : List Char) : List Char :=
  '\x60' :: (p ++ '$' :: '\x7b' :: (e ++ '\x7d' :: (q ++ ['\x60'])))

section Substituted

variable {p e q : List Char} (rest : List Char) (hp : '\x60' ∉ p ∧ '\\' ∉ p)

theorem substituted_append (p e q rest : List Char) : substituted p e q ++ rest =
    '\x60' :: (p ++ '$' :: '\x7b' :: (e ++ '\x7d' :: (q ++ '\x60' :: rest))) := by
  simp [substituted]

include hp in
theorem read_before_substitution (text : List Char) :
    Quoted.read '\x60' true (p ++ '$' :: '\x7b' :: text) =
      (Quoted.read '\x60' true text).map fun r =>
        ⟨p ++ '$' :: '\x7b' :: r.value, byteLength p + 2 + r.width, r.rest⟩ := by
  have hread : Quoted.read '\x60' true ((p ++ ['$', '\x7b']) ++ text) = _ :=
    Quoted.read_of_plain (by simp [hp.1]) (by simp [hp.2]) text
  have hwidth : byteLength ['$', '\x7b'] = 2 := rfl
  simpa [hwidth] using hread

include hp in
/-- If what stands in a substitution is made of pieces, the value holds what they denote. -/
theorem codeBite_substituted (hq : '\x60' ∉ q ∧ '\\' ∉ q) (inTag : Bool)
    {pieces : List (List Char)} {value : List Char}
    (h : Quoted.Segmented Quoted.IsSignedNumeral '\x60' true (q ++ '\x60' :: rest) pieces value)
    (hflatten : pieces.flatten = e ++ ['\x7d']) : codeBite inTag (substituted p e q ++ rest) =
      some ⟨some (.template (String.ofList (p ++ '$' :: '\x7b' :: (value ++ q)))),
        byteLength (substituted p e q), rest⟩ := by
  have htick : ('\x60' : Char).utf8Size = 1 := rfl
  have hread := Quoted.read_of_segmented (by decide) h
  rw [Quoted.read_of_plain hq.1 hq.2, Quoted.read_quote, hflatten, List.append_assoc,
    List.singleton_append] at hread
  have hwidth : byteLength (substituted p e q) = 1 + (byteLength p + 2 +
      (byteLength (e ++ ['\x7d']) + (byteLength q + 1))) := by
    have hdollar : ('$' : Char).utf8Size = 1 := rfl
    have hopen : ('\x7b' : Char).utf8Size = 1 := rfl
    simp [substituted, htick, hdollar, hopen]
    omega
  rw [substituted_append, codeBite_tick, read_before_substitution hp, hread, hwidth]
  simp [quotedBite, htick]

include hp in
/-- If it is not, the template has no end. -/
theorem codeBite_substituted_stray (inTag : Bool) (he : '\x60' ∉ e)
    (h : ∀ pieces value,
      Quoted.Segmented Quoted.IsSignedNumeral '\x60' true (q ++ '\x60' :: rest) pieces value →
        pieces.flatten ≠ e ++ ['\x7d']) : codeBite inTag (substituted p e q ++ rest) =
      some ⟨some (.stray "\x60"), 1, (substituted p e q).tail ++ rest⟩ := by
  have hread : Quoted.read '\x60' true (e ++ '\x7d' :: (q ++ '\x60' :: rest)) = none := by
    refine Option.eq_none_iff_forall_ne_some.2 fun r hr => ?_
    obtain ⟨pieces, value, hpieces, hflatten⟩ := Quoted.exists_segmented_to_brace he hr
    exact h pieces value hpieces hflatten
  have htail : (substituted p e q).tail ++ rest =
      p ++ '$' :: '\x7b' :: (e ++ '\x7d' :: (q ++ '\x60' :: rest)) := by
    simp [substituted]
  rw [substituted_append, codeBite_tick, read_before_substitution hp, hread, htail]
  rfl

include hp in
/-- Without a backslash, and only then, the text between the braces is kept. -/
theorem codeBite_substituted_verbatim_iff (hq : '\x60' ∉ q ∧ '\\' ∉ q) (inTag : Bool)
    (he : '\x60' ∉ e) : codeBite inTag (substituted p e q ++ rest) =
      some ⟨some (.template (String.ofList (p ++ '$' :: '\x7b' :: (e ++ '\x7d' :: q)))),
        byteLength (substituted p e q), rest⟩ ↔ '\\' ∉ e := by
  constructor
  · intro hbite
    by_cases h : ∃ pieces value,
        Quoted.Segmented Quoted.IsSignedNumeral '\x60' true (q ++ '\x60' :: rest) pieces value ∧
          pieces.flatten = e ++ ['\x7d']
    · obtain ⟨pieces, value, hpieces, hflatten⟩ := h
      rw [codeBite_substituted rest hp hq inTag hpieces hflatten] at hbite
      simp only [Option.some.injEq, Bite.mk.injEq, Token.template.injEq, String.ofList_inj,
        and_true] at hbite
      have hsame := (List.cons.inj (List.cons.inj (List.append_cancel_left hbite)).2).2
      rw [List.append_cons] at hsame
      have hvalue : value = pieces.flatten := by
        rw [hflatten, List.append_cancel_right hsame]
      have hslash := hpieces.eq_flatten_iff.1 hvalue
      rw [hflatten] at hslash
      exact fun hmem => hslash (List.mem_append_left _ hmem)
    · rw [codeBite_substituted_stray rest hp inTag he fun pieces value hpieces hflatten =>
        h ⟨pieces, value, hpieces, hflatten⟩] at hbite
      cases hbite
  · intro hslash
    have hpieces : Quoted.Segmented Quoted.IsSignedNumeral '\x60' true (q ++ '\x60' :: rest)
        ((e ++ ['\x7d']).map fun c => [c]) (e ++ ['\x7d']) :=
      (Quoted.segmented_plain (by simp [he]) (by simp [hslash]) rfl _).signed
    rw [codeBite_substituted rest hp hq inTag hpieces (by simp [← List.flatMap_def])]
    simp

end Substituted

/-- The text of a template is read up to the backtick at its end as if there were no substitution:
escapes are resolved in what stands between the braces, and one that is not well formed leaves the
template without an end.  It is kept as it is written exactly if it has no backslash. -/
theorem substitution_read_as_text (inTag : Bool) (p e q rest : List Char)
    (hp : '\x60' ∉ p ∧ '\\' ∉ p) (he : '\x60' ∉ e) (hq : '\x60' ∉ q ∧ '\\' ∉ q) :
    (∀ pieces value,
      Quoted.Segmented Quoted.IsSignedNumeral '\x60' true (q ++ '\x60' :: rest) pieces value →
        pieces.flatten = e ++ ['\x7d'] → codeBite inTag (substituted p e q ++ rest) =
          some ⟨some (.template (String.ofList (p ++ '$' :: '\x7b' :: (value ++ q)))),
            byteLength (substituted p e q), rest⟩) ∧
    ((∀ pieces value,
      Quoted.Segmented Quoted.IsSignedNumeral '\x60' true (q ++ '\x60' :: rest) pieces value →
        pieces.flatten ≠ e ++ ['\x7d']) → codeBite inTag (substituted p e q ++ rest) =
          some ⟨some (.stray "\x60"), 1, (substituted p e q).tail ++ rest⟩) ∧
    (codeBite inTag (substituted p e q ++ rest) =
      some ⟨some (.template (String.ofList (p ++ '$' :: '\x7b' :: (e ++ '\x7d' :: q)))),
        byteLength (substituted p e q), rest⟩ ↔ '\\' ∉ e) :=
  ⟨fun _ _ h hflatten => codeBite_substituted rest hp hq inTag h hflatten,
    codeBite_substituted_stray rest hp inTag he,
    codeBite_substituted_verbatim_iff rest hp hq inTag he⟩

theorem substitution_read_as_text_sample :
    ('\x60' ∉ ['a'] ∧ '\\' ∉ ['a']) ∧ '\x60' ∉ ['b'] ∧ ('\x60' ∉ ['c'] ∧ '\\' ∉ ['c']) ∧
      codeBite false (substituted ['a'] ['b'] ['c'] ++ [';']) =
        some ⟨some (.template "a$\x7bb\x7dc"), 8, [';']⟩ := by
  have ha : '\x60' ∉ ['a'] ∧ '\\' ∉ ['a'] := by simp
  have hb : '\x60' ∉ ['b'] ∧ '\\' ∉ ['b'] := by simp
  have hc : '\x60' ∉ ['c'] ∧ '\\' ∉ ['c'] := by simp
  exact ⟨ha, hb.1, hc, (substitution_read_as_text false _ _ _ [';'] ha hb.1 hc).2.2.2 hb.2⟩

/-- An escape in a string in a substitution is resolved. -/
theorem escape_in_substitution_is_resolved : ¬ ∀ p e q rest : List Char,
    ('\x60' ∉ p ∧ '\\' ∉ p ∧ '$' ∉ p) → ('\x60' ∉ q ∧ '\\' ∉ q ∧ '$' ∉ q) →
      ('\x60' ∉ e ∧ '\x7b' ∉ e ∧ '\x7d' ∉ e) → codeBite false (substituted p e q ++ rest) =
        some ⟨some (.template (String.ofList (p ++ '$' :: '\x7b' :: (e ++ '\x7d' :: q)))),
          byteLength (substituted p e q), rest⟩ := by
  intro h
  have hverbatim := h [] ['"', '\\', 'n', '"'] [] [] (by decide) (by decide) (by decide)
  have hbite : codeBite false (substituted [] ['"', '\\', 'n', '"'] [] ++ []) =
      some ⟨some (.template "$\x7b\"\n\"\x7d"), 9, []⟩ := by
    with_unfolding_all rfl
  rw [hbite] at hverbatim
  revert hverbatim
  decide

end RoleAudit.Markup
