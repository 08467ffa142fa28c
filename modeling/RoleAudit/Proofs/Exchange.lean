import RoleAudit.Proofs.Names

/-!
# One text in the place of another

Whether a comment or a text in quotes that begins in a source ever ends depends on all that follows.
If a stretch of what follows gives way to another, an end may appear or get lost.  None does if
neither stretch holds a character that has a part in where such a thing ends (`isQuiet`) and both
begin with a `<`, over which no end reaches.

Main statement: `staysOpen_exchange`.
-/

namespace RoleAudit.Markup

open RoleAudit.Text

/-- Whether a character has no part in where a comment or a text in quotes ends. -/
def isQuiet (c : Char) : Bool :=
  !isQuote c && c ≠ '\n' && c ≠ '\\' && c ≠ '*'

theorem ne_of_isQuiet {c : Char} (h : isQuiet c = true) :
    c ≠ '\n' ∧ c ≠ '\\' ∧ c ≠ '*' ∧ ∀ quote, isQuote quote = true → c ≠ quote := by
  simp only [isQuiet, Bool.and_eq_true, Bool.not_eq_true', decide_eq_true_eq] at h
  refine ⟨h.1.1.2, h.1.2, h.2, fun quote hquote => ?_⟩
  rintro rfl
  rw [hquote] at h
  cases h.1.1.1

section Quiet

variable {text back : List Char} (htext : ∀ c ∈ text, isQuiet c = true)
include htext

/-! ### Comments -/

theorem commentTail_quiet : commentTail (text ++ back) = none ↔ commentTail back = none := by
  induction text with
  | nil => rfl
  | cons c text ih =>
      have hstar : c ≠ '*' := (ne_of_isQuiet (htext c List.mem_cons_self)).2.2.1
      rw [List.cons_append, commentTail, Option.map_eq_none_iff]
      · exact ih fun d hd => htext d (List.mem_cons_of_mem _ hd)
      · exact fun _ hc => absurd hc hstar

omit htext in
/-- No end of a comment reaches over a `<`. -/
theorem commentTail_append_less (front rest : List Char) :
    commentTail (front ++ '<' :: rest) = none ↔
      commentTail front = none ∧ commentTail rest = none := by
  fun_induction commentTail front with
  | case1 front => simp [commentTail]
  | case2 c front hstart ih =>
      have hcons : commentTail (c :: (front ++ '<' :: rest)) =
          (commentTail (front ++ '<' :: rest)).map fun tail => (c.utf8Size + tail.1, tail.2) := by
        rw [commentTail]
        rintro others rfl hothers
        cases front with
        | nil => cases hothers
        | cons d front =>
            obtain ⟨rfl, -⟩ := List.cons.inj hothers
            exact hstart _ rfl rfl
      rw [List.cons_append, hcons, Option.map_eq_none_iff, Option.map_eq_none_iff, ih]
  | case3 => simp [commentTail]

/-! ### Texts in quotes -/

omit htext in
theorem plainQuoted_eq_none_iff {quote : Char} {text : List Char} :
    plainQuoted quote text = none ↔ quote ∉ text := by
  rw [plainQuoted, Option.map_eq_none_iff]
  induction text with
  | nil => simp [Quoted.cut?]
  | cons c text ih =>
      by_cases hc : c = quote
      · simp [Quoted.cut?, hc]
      · simp [Quoted.cut?, hc, ih, Ne.symm hc]

variable {quote : Char} {multiline : Bool} (hquote : isQuote quote = true)

include hquote in
theorem read_quiet : (Quoted.read quote multiline (text ++ back)).isSome =
    (Quoted.read quote multiline back).isSome := by
  induction text with
  | nil => rfl
  | cons c text ih =>
      obtain ⟨hline, hslash, -, hquotes⟩ := ne_of_isQuiet (htext c List.mem_cons_self)
      rw [List.cons_append, Quoted.read, if_neg (hquotes quote hquote), if_neg (by simp [hline]),
        if_neg hslash, Option.isSome_map]
      exact ih fun d hd => htext d (List.mem_cons_of_mem _ hd)

end Quiet

namespace Quoted

/-- An escape takes up no `<`, unless it starts with it. -/
theorem escape?_less {text piece : List Char} {e : Reading} (h : escape? text = some e)
    (hpiece : text = piece ++ e.rest) : '<' ∉ piece.tail := by
  rcases exists_escape h with ⟨piece', c, hescape, htext, -⟩ | ⟨piece', hline, htext, -⟩
  · obtain rfl : piece' = piece := List.append_cancel_right (htext.symm.trans hpiece)
    cases hescape with
    | named _ | itself _ => exact List.not_mem_nil
    | short _ h | long _ h => exact h.notMem (by decide) (by decide)
    | braced h => simpa using h.notMem (by decide) (by decide)
  · obtain rfl : piece' = piece := List.append_cancel_right (htext.symm.trans hpiece)
    simp only [lineEnds, List.mem_cons, List.not_mem_nil, or_false] at hline
    rcases hline with rfl | rfl | rfl <;> simp

/-- After an escape stands what did, up to a `<` and after it. -/
theorem escape?_exchange {front t : List Char} {e : Reading}
    (h : escape? (front ++ '<' :: t) = some e) (t' : List Char) :
    (∃ others e', e.rest = others ++ '<' :: t ∧ escape? (front ++ '<' :: t') = some e' ∧
      e'.rest = others ++ '<' :: t') ∨
    (∃ e', e.rest = t ∧ escape? (front ++ '<' :: t') = some e' ∧ e'.rest = t') := by
  cases front with
  | nil =>
      cases h
      exact Or.inr ⟨_, rfl, rfl, rfl⟩
  | cons c front =>
      obtain ⟨piece, hpiece, hbefore⟩ := escape?_before h
      have hless := escape?_less h hpiece
      obtain ⟨others, hfront, hrest⟩ :
          ∃ others, c :: front = piece ++ others ∧ e.rest = others ++ '<' :: t := by
        rcases List.append_eq_append_iff.1 hpiece with ⟨more, rfl, hmore⟩ | hboth
        · cases more with
          | nil => exact ⟨[], by simp, by simpa using hmore.symm⟩
          | cons d more =>
              obtain ⟨rfl, -⟩ := List.cons.inj hmore
              simp at hless
        · exact hboth
      refine Or.inl ⟨others, { e with rest := others ++ '<' :: t' }, hrest, ?_, rfl⟩
      rw [hfront, List.append_assoc]
      refine hbefore _ ?_
      cases others <;> simp [hrest]

end Quoted

section Exchange

variable {text text' back : List Char} (htext : ∀ c ∈ text, isQuiet c = true)
  (htext' : ∀ c ∈ text', isQuiet c = true)
include htext htext'

/-- A quiet text that starts with `<` may stand in the place of another within a text in quotes. -/
theorem read_exchange {quote : Char} {multiline : Bool} (hquote : isQuote quote = true)
    (front : List Char)
    (h : (Quoted.read quote multiline (front ++ '<' :: (text ++ back))).isSome) :
    (Quoted.read quote multiline (front ++ '<' :: (text' ++ back))).isSome := by
  have hless : isQuiet '<' = true := by decide
  obtain ⟨hline, hslash, -, hquotes⟩ := ne_of_isQuiet hless
  have hswap : (Quoted.read quote multiline (text' ++ back)).isSome =
      (Quoted.read quote multiline (text ++ back)).isSome := by
    rw [read_quiet htext hquote, read_quiet htext' hquote]
  generalize hwhole : front ++ '<' :: (text ++ back) = whole at h
  fun_induction Quoted.read quote multiline whole generalizing front with
  | case1 => cases h
  | case2 rest =>
      cases front with
      | nil => exact absurd (List.cons.inj hwhole).1 (hquotes quote hquote)
      | cons c front =>
          obtain ⟨rfl, -⟩ := List.cons.inj hwhole
          simp [Quoted.read]
  | case3 => cases h
  | case4 => cases h
  | case5 rest e he hne hcond ih =>
      cases front with
      | nil => exact absurd (List.cons.inj hwhole).1 hslash
      | cons c front =>
          obtain ⟨rfl, rfl⟩ := List.cons.inj hwhole
          rw [Option.isSome_map] at h
          have hafter : ∃ e', Quoted.escape? (front ++ '<' :: (text' ++ back)) = some e' ∧
              (Quoted.read quote multiline e'.rest).isSome := by
            rcases Quoted.escape?_exchange he (text' ++ back) with
              ⟨others, e', hrest, he', hrest'⟩ | ⟨e', hrest, he', hrest'⟩
            · exact ⟨e', he', hrest' ▸ ih others hrest.symm h⟩
            · exact ⟨e', he', by rw [hrest', hswap, ← hrest, h]⟩
          obtain ⟨e', he', hread⟩ := hafter
          rw [List.cons_append, Quoted.read, if_neg hne, if_neg hcond, if_pos rfl]
          split
          · next hnone => rw [hnone] at he'; cases he'
          · next e'' hsome =>
              rw [hsome] at he'
              cases he'
              rwa [Option.isSome_map]
  | case6 c rest hne hcond hback ih =>
      rw [Option.isSome_map] at h
      cases front with
      | nil =>
          obtain ⟨rfl, rfl⟩ := List.cons.inj hwhole
          rw [List.nil_append, Quoted.read, if_neg hne, if_neg hcond, if_neg hback,
            Option.isSome_map, hswap, h]
      | cons d front =>
          obtain ⟨rfl, rfl⟩ := List.cons.inj hwhole
          rw [List.cons_append, Quoted.read, if_neg hne, if_neg hcond, if_neg hback,
            Option.isSome_map]
          exact ih front rfl h

omit htext in
/-- A quiet text that starts with `<` leaves open, in the place of another, what that one leaves
open. -/
theorem staysOpen_exchange (htext : ∀ c ∈ text, isQuiet c = true) (front : List Char) :
    StaysOpen (front ++ ('<' :: text ++ back)) (front ++ ('<' :: text' ++ back)) where
  comment h := by
    rw [List.cons_append, commentTail_append_less, commentTail_quiet htext] at h
    rwa [List.cons_append, commentTail_append_less, commentTail_quiet htext']
  quoted quote multiline hquote h := by
    by_contra hsome
    have hback := read_exchange htext' htext hquote front (Option.isSome_iff_ne_none.2 hsome)
    rw [← List.cons_append, h] at hback
    cases hback
  plain quote hquote h := by
    rw [plainQuoted_eq_none_iff] at h ⊢
    have hnot : quote ∉ text' := fun hmem =>
      (ne_of_isQuiet (htext' quote hmem)).2.2.2 quote hquote rfl
    simp only [List.mem_append, List.mem_cons, not_or] at h ⊢
    exact ⟨h.1, ⟨h.2.1.1, hnot⟩, h.2.2⟩

end Exchange

end RoleAudit.Markup
