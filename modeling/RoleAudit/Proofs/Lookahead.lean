import RoleAudit.Proofs.Pieces

/-!
# How far a bite looks ahead

A piece is bitten off by what it is, and by little of what stands after it: a name goes on over a
dash if another part follows, a number over a dot if a digit does, and a symbol over the characters
that make a longer one of it.  So one character after a piece decides, or two.  `Alike` says that
two texts decide in the same way; then the same piece is bitten off before either of them.

A stray piece is different, as it is one by what does not follow: nothing closes the quote or the
comment.  It is still one if that stays open (`StaysOpen`), as it does before a front part of the
text after it.

Main statements: `codeBite_before` and `codeBite_stray`, which `bite_before` puts together.
-/

namespace RoleAudit.Markup

open RoleAudit.Text

/-! ### Texts after a piece -/

/-- Whether a character could go on with a piece of code before it. -/
def joins (c : Char) : Bool :=
  isWordPart c || c = '-' || c = '.' || c = '=' || c = '>' || c = '|' || c = '&' || c = '?' ||
    c = '*'

/-- Whether a character goes on with a piece only if the next one does. -/
def joinsWithNext (c : Char) : Bool :=
  c = '-' || c = '.' || c = '='

/-- What decides, after a piece of code, that the piece goes on: one character or two. -/
inductive Continues : List Char → Prop
  | one {c : Char} (h : joins c = true) : Continues [c]
  | two {c d : Char} (h : joinsWithNext c = true) (h' : joins d = true) : Continues [c, d]

instance : DecidablePred Continues
  | [] => isFalse nofun
  | [c] => decidable_of_iff (joins c = true) ⟨.one, fun h => by cases h; assumption⟩
  | [c, d] => decidable_of_iff (joinsWithNext c = true ∧ joins d = true)
      ⟨fun h => .two h.1 h.2, fun h => by cases h; exact ⟨‹_›, ‹_›⟩⟩
  | _ :: _ :: _ :: _ => isFalse nofun

/-- A piece of code goes on into the one text just as it does into the other. -/
def Alike (rest rest' : List Char) : Prop :=
  ∀ ⦃front⦄, Continues front → (front <+: rest ↔ front <+: rest')

theorem joins_of_joinsWithNext {c : Char} (h : joinsWithNext c = true) : joins c = true := by
  simp only [joinsWithNext, Bool.or_eq_true, decide_eq_true_eq] at h
  rcases h with (rfl | rfl) | rfl <;> rfl

theorem joins_of_isWordPart {c : Char} (h : isWordPart c = true) : joins c = true := by
  simp [joins, h]

theorem joins_of_isDigit {c : Char} (h : c.isDigit = true) : joins c = true :=
  joins_of_isWordPart (by simp [isWordPart, h])

namespace Alike

variable {rest rest' : List Char}

theorem symm (h : Alike rest rest') : Alike rest' rest :=
  fun _ hfront => (h hfront).symm

theorem head_iff (h : Alike rest rest') {c : Char} (hc : joins c = true) :
    rest.head? = some c ↔ rest'.head? = some c := by
  have hhead : ∀ text : List Char, text.head? = some c ↔ [c] <+: text := by
    intro text
    cases text <;> simp [eq_comm]
  rw [hhead, hhead, h (.one hc)]

theorem cons (h : Alike rest rest') (c : Char) : Alike (c :: rest) (c :: rest') := by
  intro front hfront
  cases hfront with
  | one => simp
  | two _ hd => simp [h (.one hd)]

theorem append_left (h : Alike rest rest') (front : List Char) :
    Alike (front ++ rest) (front ++ rest') := by
  induction front with
  | nil => exact h
  | cons c front ih => exact ih.cons c

/-- Nothing goes on into a text that starts with a character of another kind, or into no text. -/
theorem nil_left (h : ∀ c ∈ rest.head?, joins c = false) : Alike [] rest := by
  intro front hfront
  cases hfront with
  | one hc | two hc hd =>
      cases rest with
      | nil => rfl
      | cons c rest =>
          have hhead := h c rfl
          simp
          rintro rfl
          simp_all [joins_of_joinsWithNext]

/-- Whatever follows a `>`, a piece before it goes on no further. -/
theorem greater (rest rest' : List Char) : Alike ('>' :: rest) ('>' :: rest') := by
  intro front hfront
  cases hfront with
  | one => simp
  | @two c d hc hd =>
      have hne : c ≠ '>' := by
        rintro rfl
        cases hc
      simp [hne]

end Alike

/-! ### Comments and quoted texts -/

theorem plainQuoted_before {quote : Char} {text : List Char} {r : Quoted.Reading}
    (h : plainQuoted quote text = some r) :
    text = r.value ++ quote :: r.rest ∧
      ∀ rest, plainQuoted quote (r.value ++ quote :: rest) = some { r with rest } := by
  obtain ⟨parts, hparts, rfl⟩ := Option.map_eq_some_iff.1 h
  obtain ⟨htext, hquote⟩ := Quoted.cut?_eq_some_iff.1 hparts
  exact ⟨htext, fun rest => by simp [plainQuoted, Quoted.cut?_of_not_mem hquote]⟩

/-- A comment ends where it does before any text. -/
theorem commentTail_before {text rest : List Char} {width : Nat}
    (h : commentTail text = some (width, rest)) : ∃ piece, text = piece ++ rest ∧
      ∀ rest', commentTail (piece ++ rest') = some (width, rest') := by
  obtain ⟨inside, rfl, rfl, hfirst⟩ := commentTail_eq_some h
  exact ⟨inside ++ ['*', '/'], by simp,
    fun rest' => by simpa using commentTail_of_not_infix hfirst rest'⟩

/-! ### Names, numbers and symbols -/

theorem wordTail_fst_eq_nil_iff {text : List Char} : (wordTail text).1 = [] ↔
    ∀ c, isWordPart c = true → ¬ [c] <+: text ∧ ¬ ['-', c] <+: text := by
  have hdash : isWordPart '-' = false := by decide
  fun_cases wordTail text with
  | case1 c text hc => simpa using ⟨c, hc, fun _ => rfl⟩
  | case2 c text hc => grind
  | case3 c text hshape hc => simpa using ⟨c, hc, fun h => absurd rfl h⟩
  | case4 c text hshape hc =>
      refine iff_of_true rfl fun d hd => ⟨fun hone => hc ?_, fun htwo => ?_⟩
      · rwa [← (List.cons_prefix_cons.1 hone).1]
      · obtain ⟨hdash', others, hothers⟩ := List.cons_prefix_cons.1 htwo
        exact hshape d others hdash'.symm hothers.symm
  | case5 => simp

/-- A name ends where it does before any text that is alike. -/
theorem wordTail_before {text rest : List Char} (h : Alike (wordTail text).2 rest) :
    wordTail ((wordTail text).1 ++ rest) = ((wordTail text).1, rest) := by
  have hstop : ∀ {stopped : List Char}, (wordTail stopped).1 = [] → Alike stopped rest →
      wordTail rest = ([], rest) := by
    intro stopped hnil halike
    have hnil' : (wordTail rest).1 = [] := by
      rw [wordTail_fst_eq_nil_iff] at hnil ⊢
      intro c hc
      rw [← halike (.one (joins_of_isWordPart hc)), ← halike (.two rfl (joins_of_isWordPart hc))]
      exact hnil c hc
    have happend := wordTail_append rest
    rw [hnil', List.nil_append] at happend
    rw [← hnil', Prod.ext_iff]
    exact ⟨rfl, happend⟩
  fun_induction wordTail text with
  | case1 c text hc tail ih => simp [wordTail, hc, tail, ih h]
  | case2 c text hc => exact hstop (by simp [wordTail, hc]) h
  | case3 c text hshape hc tail ih =>
      have hdash : c ≠ '-' := by
        rintro rfl
        cases hc
      simp [wordTail, hc, hdash, tail, ih h]
  | case4 c text hshape hc => exact hstop (by rw [wordTail, if_neg hc]; exact hshape) h
  | case5 => exact hstop rfl h

/-- A run of characters is taken off a text up to the first one that does not belong to it. -/
theorem takeWhile_run {p : Char → Bool} {run rest : List Char} (hrun : ∀ c ∈ run, p c = true)
    (hrest : ∀ c ∈ rest.head?, p c = false) :
    (run ++ rest).takeWhile p = run ∧ (run ++ rest).dropWhile p = rest := by
  have hstop : rest.takeWhile p = [] ∧ rest.dropWhile p = rest := by
    cases rest with
    | nil => exact ⟨rfl, rfl⟩
    | cons c rest => simp [hrest c rfl]
  rw [List.takeWhile_append_of_pos hrun, List.dropWhile_append_of_pos hrun, hstop.1, hstop.2,
    List.append_nil]
  exact ⟨rfl, rfl⟩

theorem isDigit_of_mem_takeWhile {c : Char} {text : List Char}
    (h : c ∈ text.takeWhile Char.isDigit) : c.isDigit = true :=
  List.all_eq_true.1 List.all_takeWhile c h

/-- No digit stands where digits have been taken off a text. -/
theorem not_isDigit_head {text rest : List Char} (h : Alike (text.dropWhile Char.isDigit) rest) :
    ∀ c ∈ rest.head?, c.isDigit = false := by
  intro c hc
  cases hdigit : c.isDigit with
  | false => rfl
  | true =>
      have hhead := (h.head_iff (joins_of_isDigit hdigit)).2 hc
      have hstop := List.head?_dropWhile_not Char.isDigit text
      rw [hhead] at hstop
      simp [hdigit] at hstop

/-- The fraction of a number ends where it does before any text that is alike. -/
theorem fractionTail_before {text rest : List Char} (h : Alike (fractionTail text).2 rest) :
    fractionTail ((fractionTail text).1 ++ rest) = ((fractionTail text).1, rest) := by
  have hstop : (∀ c, c.isDigit = true → ¬ ['.', c] <+: rest) → fractionTail rest = ([], rest) := by
    intro hrest
    unfold fractionTail
    split
    · next c others =>
        rw [if_neg fun hc => hrest c hc (by simp)]
    · rfl
  revert h
  fun_cases fractionTail text with
  | case1 c text hc =>
      intro h
      obtain ⟨htake, hdrop⟩ := takeWhile_run
        (fun _ (hd : _ ∈ text.takeWhile Char.isDigit) => isDigit_of_mem_takeWhile hd)
        (not_isDigit_head h)
      simp [fractionTail, hc, htake, hdrop]
  | case2 c text hc =>
      intro h
      refine hstop fun d hd hdot => hc ?_
      have hfront := (h (.two rfl (joins_of_isDigit hd))).2 hdot
      simp at hfront
      rwa [← hfront]
  | case3 text hshape =>
      intro h
      refine hstop fun d hd hdot => ?_
      obtain ⟨others, hothers⟩ := (h (.two rfl (joins_of_isDigit hd))).2 hdot
      exact hshape d others hothers.symm

/-- The digits in front of a fraction, or of none, are the same before any text that is alike. -/
theorem digits_before {text rest : List Char}
    (h : Alike (fractionTail (text.dropWhile Char.isDigit)).2 rest) :
    let digits := text.takeWhile Char.isDigit
    let tail := (fractionTail (text.dropWhile Char.isDigit)).1 ++ rest
    (digits ++ tail).takeWhile Char.isDigit = digits ∧
      (digits ++ tail).dropWhile Char.isDigit = tail := by
  have htail := h.append_left (fractionTail (text.dropWhile Char.isDigit)).1
  rw [fractionTail_append] at htail
  exact takeWhile_run (fun _ hd => isDigit_of_mem_takeWhile hd) (not_isDigit_head htail)

/-- What a longer symbol adds to a symbol is one character or two that go on with it. -/
theorem symbols_continue : ∀ entry ∈ symbols, ∀ longer ∈ symbols, ∀ front,
    longer.1 = entry.1 ++ front → front = [] ∨ Continues front := by
  have hdrop : ∀ entry ∈ symbols, ∀ longer ∈ symbols, entry.1 <+: longer.1 →
      longer.1.drop entry.1.length = [] ∨ Continues (longer.1.drop entry.1.length) := by
    decide +kernel
  intro entry hentry longer hlonger front hfront
  have hcase := hdrop entry hentry longer hlonger ⟨front, hfront.symm⟩
  rwa [hfront, List.drop_left] at hcase

theorem symbolAmong_congr {table : List (List Char × Token)} {text text' : List Char} {b : Bite}
    (hsame : ∀ entry ∈ table, entry.1 <+: text ↔ entry.1 <+: text')
    (h : symbolAmong table text = some b) : ∃ entry ∈ table, text = entry.1 ++ b.rest ∧
      symbolAmong table text' = some { b with rest := text'.drop entry.1.length } := by
  induction table with
  | nil => cases h
  | cons entry others ih =>
      have hentry : entry.1.isPrefixOf text = true ↔ entry.1.isPrefixOf text' = true := by
        rw [List.isPrefixOf_iff_prefix, List.isPrefixOf_iff_prefix]
        exact hsame entry List.mem_cons_self
      unfold symbolAmong at h ⊢
      split at h
      · next hstart =>
          cases h
          obtain ⟨rest, rfl⟩ := List.isPrefixOf_iff_prefix.1 hstart
          exact ⟨entry, List.mem_cons_self, by simp, by rw [if_pos (hentry.1 hstart)]⟩
      · next hstart =>
          rw [if_neg fun hstart' => hstart (hentry.2 hstart')]
          obtain ⟨found, hfound, hrest⟩ :=
            ih (fun e he => hsame e (List.mem_cons_of_mem _ he)) h
          exact ⟨found, List.mem_cons_of_mem _ hfound, hrest⟩

/-- A symbol is read as it is before any text that is alike. -/
theorem symbolAmong_before {text rest : List Char} {b : Bite}
    (h : symbolAmong symbols text = some b) (halike : Alike b.rest rest) :
    ∃ piece, piece ≠ [] ∧ text = piece ++ b.rest ∧
      symbolAmong symbols (piece ++ rest) = some { b with rest } := by
  obtain ⟨entry, hentry, rfl, -, -⟩ := symbolAmong_eq_some h
  -- the symbols that the two texts start with are the same
  have hinto : ∀ {one two : List Char}, Alike one two → ∀ longer ∈ symbols,
      longer.1 <+: entry.1 ++ one → longer.1 <+: entry.1 ++ two := by
    intro one two halike longer hlonger hone
    rcases List.prefix_or_prefix_of_prefix hone (List.prefix_append _ _) with hle | ⟨front, hfront⟩
    · exact hle.trans (List.prefix_append _ _)
    · rw [← hfront] at hone ⊢
      rw [List.prefix_append_right_inj] at hone ⊢
      rcases symbols_continue entry hentry longer hlonger front hfront.symm with rfl | hcontinues
      · exact List.nil_prefix
      · exact (halike hcontinues).1 hone
  obtain ⟨found, hfound, hrest, hb⟩ := symbolAmong_congr
    (fun longer hlonger => ⟨hinto halike longer hlonger, hinto halike.symm longer hlonger⟩) h
  have hentry' : entry.1 = found.1 := List.append_cancel_right hrest
  refine ⟨entry.1, (symbols_spelling entry hentry).1, rfl, ?_⟩
  rw [hb, ← hentry', List.drop_left]

/-! ### Bites -/

/-- Whether a token is a piece that belongs to no other token. -/
def Token.isStray : Token → Bool
  | stray _ => true
  | _ => false

section Code

variable {inTag : Bool} {text rest : List Char} {b : Bite}

/-- The piece that starts with a quote, if it is closed, is read as it is before any text. -/
theorem quotedBite_before {quote : Char} {literal : String → Token}
    {reading : Option Quoted.Reading} {read : List Char → Option Quoted.Reading}
    (hknown : ∀ t ∈ (quotedBite quote literal text reading).token, t.isStray = false)
    (hread : ∀ r, reading = some r → ∃ piece, text = piece ++ r.rest ∧
      ∀ rest, read (piece ++ rest) = some { r with rest }) :
    ∃ piece, text = piece ++ (quotedBite quote literal text reading).rest ∧
      quotedBite quote literal (piece ++ rest) (read (piece ++ rest)) =
        { quotedBite quote literal text reading with rest } := by
  cases reading with
  | none => exact absurd (hknown _ rfl) (by simp [Token.isStray])
  | some r =>
      obtain ⟨piece, rfl, hpiece⟩ := hread r rfl
      exact ⟨piece, rfl, by rw [hpiece]; rfl⟩

/-- A text in quotes is read as it is before any text, if it is closed. -/
theorem attributeText_before {quote : Char} {r : Quoted.Reading} (hquote : quote ≠ '\\')
    (h : (if inTag then plainQuoted quote text else Quoted.read quote false text) = some r) :
    ∃ piece, text = piece ++ r.rest ∧ ∀ rest,
      (if inTag then plainQuoted quote (piece ++ rest)
        else Quoted.read quote false (piece ++ rest)) = some { r with rest } := by
  cases inTag with
  | true =>
      obtain ⟨hrest, hplain⟩ := plainQuoted_before h
      exact ⟨r.value ++ [quote], by simpa using hrest, fun rest => by simpa using hplain rest⟩
  | false =>
      obtain ⟨piece, hrest, hread⟩ := Quoted.read_before hquote h
      exact ⟨piece, hrest, fun rest => by simpa using hread rest⟩

/-- No comment starts before a text that is alike where none did. -/
theorem Alike.not_comment {c : Char} {piece rest rest' : List Char} (halike : Alike rest rest')
    (hcomment : ¬ ['/', '*'] <+: c :: (piece ++ rest)) :
    ¬ ['/', '*'] <+: c :: (piece ++ rest') := by
  rw [List.cons_prefix_cons] at hcomment ⊢
  rwa [← halike.append_left piece (.one rfl)]

/-- Code bites the same piece off before any text that is alike, unless the piece is stray. -/
theorem codeBite_before (h : codeBite inTag text = some b)
    (hknown : ∀ t ∈ b.token, t.isStray = false) (halike : Alike b.rest rest) :
    ∃ piece, text = piece ++ b.rest ∧ codeBite inTag (piece ++ rest) = some { b with rest } := by
  cases codeBite_cases h with
  | comment htail =>
      obtain ⟨piece, rfl, hpiece⟩ := commentTail_before htail
      exact ⟨'/' :: '*' :: piece, rfl, (CodeBite.comment (hpiece rest)).codeBite_eq⟩
  | openComment _ | stray _ _ _ => exact absurd (hknown _ rfl) (by simp [Token.isStray])
  | @space c text hspace => exact ⟨[c], rfl, (CodeBite.space hspace).codeBite_eq⟩
  | @word c text hspace hword =>
      have htoken : wordToken (c :: (wordTail text).1) rest =
          wordToken (c :: (wordTail text).1) (wordTail text).2 := by
        simp only [wordToken, halike.head_iff (show joins '-' = true from rfl)]
      refine ⟨c :: (wordTail text).1, by rw [List.cons_append, wordTail_append], ?_⟩
      rw [List.cons_append, (CodeBite.word hspace hword).codeBite_eq, wordTail_before halike,
        htoken]
  | @number c text number hspace hword hdigit hnumber =>
      obtain ⟨htake, hdrop⟩ := digits_before halike
      refine ⟨number, ?_, ?_⟩
      · rw [hnumber, List.cons_append, List.append_assoc, fractionTail_append,
          List.takeWhile_append_dropWhile]
      · rw [hnumber, List.cons_append, List.append_assoc,
          (CodeBite.number hspace hword hdigit rfl).codeBite_eq]
        simp only [htake, hdrop, fractionTail_before halike]
  | @quoted c text hquote =>
      have hbackslash : c ≠ '\\' := by rcases hquote with rfl | rfl <;> decide
      obtain ⟨piece, hpiece, hbefore⟩ := @quotedBite_before text rest c .quoted _
        (fun text => if inTag then plainQuoted c text else Quoted.read c false text) hknown
        fun r hr => attributeText_before hbackslash hr
      refine ⟨c :: piece, congrArg (c :: ·) hpiece, ?_⟩
      rw [List.cons_append, (CodeBite.quoted hquote).codeBite_eq]
      exact congrArg some hbefore
  | @template text =>
      obtain ⟨piece, hpiece, hbefore⟩ := @quotedBite_before text rest '\x60' .template _
        (Quoted.read '\x60' true) hknown fun r hr => Quoted.read_before (by decide) hr
      refine ⟨'\x60' :: piece, congrArg ('\x60' :: ·) hpiece, ?_⟩
      rw [List.cons_append, CodeBite.template.codeBite_eq]
      exact congrArg some hbefore
  | @symbol c text _ hsign hcomment hsymbol =>
      obtain ⟨piece, hne, htext, hbefore⟩ := symbolAmong_before hsymbol halike
      obtain ⟨d, piece, rfl⟩ := List.exists_cons_of_ne_nil hne
      obtain ⟨rfl, rfl⟩ := List.cons.inj htext
      exact ⟨c :: piece, rfl,
        (CodeBite.symbol hsign (halike.not_comment hcomment) hbefore).codeBite_eq⟩

/-! ### Stray pieces -/

theorem symbolAmong_eq_none_iff {table : List (List Char × Token)} :
    symbolAmong table text = none ↔ ∀ entry ∈ table, ¬ entry.1 <+: text := by
  induction table with
  | nil => simp [symbolAmong]
  | cons entry others ih =>
      by_cases h : entry.1 <+: text <;> simp [symbolAmong, List.isPrefixOf_iff_prefix, h, ih]

theorem isStray_wordToken (name : List Char) : (wordToken name rest).isStray = false := by
  unfold wordToken
  split
  · rfl
  · split <;> rfl

/-- A piece that starts with a quote is stray only if nothing closes the quote. -/
theorem quotedBite_stray {quote : Char} {literal : String → Token} {reading : Option Quoted.Reading}
    {width : Nat} {t : Token} (hliteral : ∀ value, (literal value).isStray = false)
    (h : quotedBite quote literal text reading = ⟨some t, width, rest⟩) (ht : t.isStray = true) :
    reading = none ∧ text = rest := by
  cases reading with
  | none =>
      cases h
      exact ⟨rfl, rfl⟩
  | some r =>
      cases h
      rw [hliteral] at ht
      cases ht

/-- What does not end a comment in a text does not end it in a front part of the text. -/
theorem commentTail_eq_none {more : List Char} (h : commentTail (rest ++ more) = none) :
    commentTail rest = none := by
  cases hrest : commentTail rest with
  | none => rfl
  | some tail =>
      obtain ⟨piece, rfl, hpiece⟩ := commentTail_before hrest
      rw [List.append_assoc, hpiece] at h
      cases h

/-- What does not close a quote in a text does not close it in a front part of the text. -/
theorem read_eq_none {quote : Char} {multiline : Bool} {more : List Char}
    (hquote : isQuote quote = true)
    (h : Quoted.read quote multiline (rest ++ more) = none) :
    Quoted.read quote multiline rest = none := by
  cases hrest : Quoted.read quote multiline rest with
  | none => rfl
  | some r =>
      obtain ⟨piece, rfl, hpiece⟩ :=
        Quoted.read_before (Quoted.ne_backslash_of_isQuote hquote) hrest
      rw [List.append_assoc, hpiece] at h
      cases h

theorem plainQuoted_eq_none {quote : Char} {more : List Char}
    (h : plainQuoted quote (rest ++ more) = none) : plainQuoted quote rest = none := by
  cases hrest : plainQuoted quote rest with
  | none => rfl
  | some r =>
      obtain ⟨rfl, hplain⟩ := plainQuoted_before hrest
      rw [List.append_assoc, List.cons_append, hplain] at h
      cases h

/-- What nothing ends in the one text, be it a comment or a text in quotes, nothing ends in the
other. -/
structure StaysOpen (rest rest' : List Char) : Prop where
  comment : commentTail rest = none → commentTail rest' = none
  quoted : ∀ quote multiline, isQuote quote = true → Quoted.read quote multiline rest = none →
    Quoted.read quote multiline rest' = none
  plain : ∀ quote, isQuote quote = true → plainQuoted quote rest = none →
    plainQuoted quote rest' = none

/-- What stays open in a text stays open in a front part of it. -/
theorem StaysOpen.of_front {rest' : List Char} (h : rest' <+: rest) : StaysOpen rest rest' := by
  obtain ⟨more, rfl⟩ := h
  exact ⟨commentTail_eq_none, fun _ _ => read_eq_none, fun _ _ => plainQuoted_eq_none⟩

/-- A character that starts no symbol starts none before any text that is alike. -/
theorem symbolAmong_none_before {c : Char} {rest' : List Char}
    (h : symbolAmong symbols (c :: rest) = none) (halike : Alike rest rest') :
    symbolAmong symbols (c :: rest') = none := by
  have hlonger : ∀ entry ∈ symbols, entry.1.tail = [] ∨ Continues entry.1.tail := by
    decide +kernel
  rw [symbolAmong_eq_none_iff] at h ⊢
  intro entry hentry hfront
  obtain ⟨d, tail, hspelling⟩ := List.exists_cons_of_ne_nil (symbols_spelling entry hentry).1
  rw [hspelling, List.cons_prefix_cons] at hfront
  obtain ⟨rfl, htail⟩ := hfront
  refine h entry hentry ?_
  rw [hspelling, List.cons_prefix_cons]
  refine ⟨rfl, ?_⟩
  have hcase := hlonger entry hentry
  rw [hspelling, List.tail_cons] at hcase
  rcases hcase with rfl | hcontinues
  · exact List.nil_prefix
  · exact (halike hcontinues).2 htail

/-- A stray piece of code is one before any text that is alike and leaves open what it opens. -/
theorem codeBite_stray {piece rest' : List Char} {width : Nat} {t : Token}
    (h : codeBite inTag (piece ++ rest) = some ⟨some t, width, rest⟩) (ht : t.isStray = true)
    (halike : Alike rest rest') (hopen : StaysOpen rest rest') :
    codeBite inTag (piece ++ rest') = some ⟨some t, width, rest'⟩ := by
  -- a stray piece is one character, or the start of a comment
  generalize htext : piece ++ rest = text at h
  generalize hb : (⟨some t, width, rest⟩ : Bite) = b at h
  cases codeBite_cases h with
  | comment _ | space _ => cases hb
  | word _ _ =>
      cases hb
      rw [isStray_wordToken] at ht
      cases ht
  | number _ _ _ _ =>
      cases hb
      cases ht
  | openComment hcomment =>
      cases hb
      obtain rfl : piece = ['/', '*'] := List.append_cancel_right htext
      exact (CodeBite.openComment (hopen.comment hcomment)).codeBite_eq
  | @quoted c text hquote =>
      obtain ⟨hreading, rfl⟩ := quotedBite_stray (fun _ => rfl) hb.symm ht
      obtain rfl : piece = [c] := List.append_cancel_right htext
      have hisQuote : isQuote c = true := by simpa [isQuote, or_assoc] using Or.inl hquote
      have hreading' : (if inTag = true then plainQuoted c rest'
          else Quoted.read c false rest') = none := by
        split at hreading
        · next htag => rw [if_pos htag, hopen.plain c hisQuote hreading]
        · next htag => rw [if_neg htag, hopen.quoted c false hisQuote hreading]
      rw [hreading] at hb
      cases hb
      rw [List.singleton_append, (CodeBite.quoted hquote).codeBite_eq, hreading']
      rfl
  | template =>
      obtain ⟨hreading, rfl⟩ := quotedBite_stray (fun _ => rfl) hb.symm ht
      obtain rfl : piece = ['\x60'] := List.append_cancel_right htext
      rw [hreading] at hb
      cases hb
      rw [List.singleton_append, CodeBite.template.codeBite_eq, hopen.quoted _ true rfl hreading]
      rfl
  | symbol _ _ hsymbol =>
      cases hb
      obtain ⟨entry, hentry, -, -, htoken⟩ := symbolAmong_eq_some hsymbol
      have hknown : ∀ entry ∈ symbols, entry.2.isStray = false := by decide
      rw [Option.some.inj htoken, hknown entry hentry] at ht
      cases ht
  | @stray c _ hsign hcomment hsymbol =>
      cases hb
      obtain rfl : piece = [c] := List.append_cancel_right htext
      have hcomment' : ¬ ['/', '*'] <+: c :: rest' := @Alike.not_comment c [] _ _ halike hcomment
      exact (CodeBite.stray hsign hcomment' (symbolAmong_none_before hsymbol halike)).codeBite_eq

end Code

/-! ### Every scanner -/

/-- A text that nothing in it ends is one piece of prose. -/
theorem proseBite_append {text rest : List Char} (hne : text ≠ [])
    (htext : ∀ c ∈ text, endsProse c = false) (hrest : ∀ c ∈ rest.head?, endsProse c = true) :
    proseBite (text ++ rest) =
      some ⟨some (.prose (String.ofList text)), byteLength text, rest⟩ := by
  obtain ⟨c, text, rfl⟩ := List.exists_cons_of_ne_nil hne
  have hc := htext c List.mem_cons_self
  have hall : ∀ d ∈ text, (!endsProse d) = true := fun d hd => by
    simp [htext d (List.mem_cons_of_mem _ hd)]
  obtain ⟨htake, hdrop⟩ := takeWhile_run hall fun d hd => by simp [hrest d hd]
  rw [List.cons_append]
  unfold proseBite
  split
  · next h => cases h
  · next h => cases h; cases hc
  · next h => cases h; cases hc
  · next h => cases h; cases hc
  · next h =>
      cases h
      rw [htake, hdrop]

/-- Prose bites the same piece off before any text, if that ends a run. -/
theorem proseBite_before {modes : Modes} {text rest : List Char} {b : Bite}
    (hmodes : modes.head? = some .prose) (h : proseBite text = some b)
    (hrun : ∀ run, b.token = some (.prose run) → ∀ c ∈ rest.head?, endsProse c = true) :
    ∃ piece, text = piece ++ b.rest ∧ proseBite (piece ++ rest) = some { b with rest } := by
  obtain ⟨piece, hpiece⟩ := proseBite_takes hmodes h
  unfold proseBite at h
  split at h
  · cases h
  · cases h
    exact ⟨['<'], rfl, rfl⟩
  · cases h
    exact ⟨['\x7b'], rfl, rfl⟩
  · cases h
    exact ⟨['\x7d'], rfl, rfl⟩
  · cases h
    obtain ⟨-, htext, hinside, -⟩ := hpiece.accounts
    refine ⟨piece, hpiece.text_eq, ?_⟩
    rw [proseBite_append hpiece.nonempty hinside (hrun _ rfl), htext, hpiece.width_eq]

/-- Code bites the same piece off before any text that is alike, and a stray one if what it opens
stays open. -/
theorem codeBite_before_of_stray {inTag : Bool} {modes : Modes} {text rest : List Char} {b : Bite}
    (htakes : ∃ piece, b.Takes modes text piece) (h : codeBite inTag text = some b)
    (hstray : ∀ t ∈ b.token, t.isStray = true → StaysOpen b.rest rest)
    (halike : Alike b.rest rest) :
    ∃ piece, text = piece ++ b.rest ∧ codeBite inTag (piece ++ rest) = some { b with rest } := by
  by_cases hknown : ∀ t ∈ b.token, t.isStray = false
  · exact codeBite_before h hknown halike
  · simp only [Classical.not_forall, Bool.not_eq_false] at hknown
    obtain ⟨t, ht, hstray'⟩ := hknown
    have hopen := hstray t ht hstray'
    obtain ⟨token, width, others⟩ := b
    obtain ⟨piece, -, rfl, -, -⟩ := htakes
    obtain rfl : token = some t := ht
    exact ⟨piece, rfl, codeBite_stray h hstray' halike hopen⟩

/-- Under any modes the same piece is bitten off before another text: one that is alike, where code
is read, and one that ends a run of prose, where the piece is one. -/
theorem bite_before {modes : Modes} {text rest : List Char} {b : Bite}
    (h : modes.scanner.bite text = some b)
    (hstray : ∀ t ∈ b.token, t.isStray = true → StaysOpen b.rest rest)
    (halike : modes.head? ≠ some .prose → Alike b.rest rest)
    (hrun : ∀ run, b.token = some (.prose run) → ∀ c ∈ rest.head?, endsProse c = true) :
    ∃ piece, text = piece ++ b.rest ∧
      modes.scanner.bite (piece ++ rest) = some { b with rest } := by
  have htakes := bite_takes h
  match modes, h, halike with
  | .prose :: below, h, _ => exact @proseBite_before (.prose :: below) _ _ _ rfl h hrun
  | .tag _ :: _, h, halike => exact codeBite_before_of_stray htakes h hstray (halike (by simp))
  | .code :: _, h, halike => exact codeBite_before_of_stray htakes h hstray (halike (by simp))
  | [], h, halike => exact codeBite_before_of_stray htakes h hstray (halike (by simp))

end RoleAudit.Markup
