import RoleAudit.Proofs.Derivation
import RoleAudit.Proofs.Relexing

/-!
# Names and how they are written

A word holds letters, digits and a few signs, among them neither a colon nor a dot.  So the text of
a name tells its parts, and two names that are put together from words are written alike only if
they are the same (`Name.render_inj`).  Lexing yields no other words (`isWordText_of_mem_lexemes`).
-/

namespace RoleAudit.Markup

open RoleAudit.Text

/-- Texts that lexing can yield as words. -/
def IsWordText (text : String) : Prop :=
  text ≠ "" ∧ ∀ c ∈ text.toList, (isWordPart c || c = '-') = true

/-- The words of a name. -/
def Name.words : Name → List String
  | .plain name => [name]
  | .namespaced space name => [space, name]
  | .member parts => parts
  | .fragment => []

namespace IsWordText

variable {text : String}

theorem colon_notMem (h : IsWordText text) : ':' ∉ text.toList := fun hc =>
  absurd (h.2 ':' hc) (by decide)

theorem dot_notMem (h : IsWordText text) : '.' ∉ text.toList := fun hc =>
  absurd (h.2 '.' hc) (by decide)

end IsWordText

theorem Name.mem_words_of_mem_tokens {name : Name} {text : String} :
    .word text ∈ name.tokens ↔ text ∈ name.words := by
  unfold tokens words
  split <;> simp [List.mem_flatMap]

/-! ### Names by their text -/

namespace Name

/-- The texts between the dots of a name. -/
def dotted : Name → List (List Char)
  | plain name => [name.toList]
  | namespaced space name => [space.toList ++ ':' :: name.toList]
  | member parts => parts.map String.toList
  | fragment => [[]]

theorem render_eq_intercalate (n : Name) :
    n.render.toList = ['.'].intercalate n.dotted := by
  cases n with
  | plain name => simp [render, dotted]
  | namespaced space name => simp [render, dotted]
  | member parts => exact String.toList_intercalate
  | fragment => rfl

/-- The text of a name tells what stands between its dots. -/
theorem splitOn_render {n : Name} (hproper : n.IsProper) (h : ∀ text ∈ n.words, IsWordText text) :
    n.render.toList.splitOn '.' = n.dotted := by
  rw [render_eq_intercalate]
  refine List.splitOn_intercalate '.' (fun part hpart => ?_) ?_
  · cases n with
    | plain name =>
        obtain rfl := List.mem_singleton.1 hpart
        exact (h name (by simp [words])).dot_notMem
    | namespaced space name =>
        obtain rfl := List.mem_singleton.1 hpart
        have hspace := (h space (by simp [words])).dot_notMem
        have hname := (h name (by simp [words])).dot_notMem
        simp [hspace, hname]
    | member parts =>
        obtain ⟨text, htext, rfl⟩ := List.mem_map.1 hpart
        exact (h text htext).dot_notMem
    | fragment =>
        obtain rfl := List.mem_singleton.1 hpart
        simp
  · cases n with
    | member parts =>
        simp only [dotted, ne_eq, List.map_eq_nil_iff]
        rintro rfl
        simp [IsProper] at hproper
    | _ => simp [dotted]

/-- The name of one part, which a colon may divide. -/
def ofPart (part : List Char) : Name :=
  if part = [] then fragment
  else match part.dropWhile (· ≠ ':') with
    | [] => plain (String.ofList part)
    | _ :: name => namespaced (String.ofList (part.takeWhile (· ≠ ':'))) (String.ofList name)

/-- The name with given texts between its dots. -/
def ofDotted : List (List Char) → Name
  | [part] => ofPart part
  | parts => member (parts.map String.ofList)

theorem ne_of_notMem {c : Char} {text : List Char} (h : c ∉ text) :
    ∀ d ∈ text, decide (d ≠ c) = true := by
  intro d hd
  simpa using fun heq : d = c => h (heq ▸ hd)

theorem ofPart_of_notMem {part : List Char} (hne : part ≠ []) (h : ':' ∉ part) :
    ofPart part = plain (String.ofList part) := by
  have hdrop : part.dropWhile (· ≠ ':') = [] := by
    have happend := @List.dropWhile_append_of_pos _ _ _ [] (ne_of_notMem h)
    simpa using happend
  rw [ofPart, if_neg hne, hdrop]

theorem ofPart_colon {space name : List Char} (h : ':' ∉ space) :
    ofPart (space ++ ':' :: name) = namespaced (String.ofList space) (String.ofList name) := by
  have htake : (space ++ ':' :: name).takeWhile (· ≠ ':') = space := by
    rw [List.takeWhile_append_of_pos (ne_of_notMem h)]
    simp
  have hdrop : (space ++ ':' :: name).dropWhile (· ≠ ':') = ':' :: name := by
    rw [List.dropWhile_append_of_pos (ne_of_notMem h)]
    simp
  rw [ofPart, if_neg (by simp), hdrop, htake]

theorem ofDotted_dotted {n : Name} (hproper : n.IsProper)
    (h : ∀ text ∈ n.words, IsWordText text) : ofDotted n.dotted = n := by
  cases n with
  | plain name =>
      have hname := h name (by simp [words])
      rw [dotted, ofDotted, ofPart_of_notMem (by simpa using hname.1) hname.colon_notMem,
        String.ofList_toList]
  | namespaced space name =>
      rw [dotted, ofDotted, ofPart_colon (h space (by simp [words])).colon_notMem,
        String.ofList_toList, String.ofList_toList]
  | member parts =>
      -- there are two parts at least
      match parts, hproper with
      | first :: second :: others, _ => simp [dotted, ofDotted]
  | fragment => rfl

/-- Names of words that are written alike are the same. -/
theorem render_inj {a b : Name} (ha : a.IsProper) (hb : b.IsProper)
    (hwords : ∀ text ∈ a.words, IsWordText text) (hwords' : ∀ text ∈ b.words, IsWordText text)
    (h : a.render = b.render) : a = b := by
  rw [← ofDotted_dotted ha hwords, ← ofDotted_dotted hb hwords', ← splitOn_render ha hwords,
    ← splitOn_render hb hwords', h]

end Name

/-! ### The words of a source -/

section Words

variable {inTag : Bool} {modes : Modes} {text : List Char} {b : Bite} {word : String}

theorem isWordPart_of_mem_wordTail {c : Char} (h : c ∈ (wordTail text).1) :
    (isWordPart c || c = '-') = true := by
  fun_induction wordTail text with
  | case1 d rest hd tail ih =>
      rcases List.mem_cons.1 h with rfl | h
      · rfl
      rcases List.mem_cons.1 h with rfl | h
      · simp [hd]
      · exact ih h
  | case2 d rest hd => cases h
  | case3 d rest hdash hd tail ih =>
      rcases List.mem_cons.1 h with rfl | h
      · simp [hd]
      · exact ih h
  | case4 d rest hdash hd => cases h
  | case5 => cases h

theorem wordToken_eq_word {name rest : List Char} (h : wordToken name rest = .word word) :
    word = String.ofList name := by
  have hspelling := (spelling_wordToken name rest).2
  rw [h] at hspelling
  exact hspelling

theorem symbols_ne_word : ∀ entry ∈ symbols, ∀ word, entry.2 ≠ .word word := by
  simp [symbols]

/-- A word starts as names do and goes on as far as it can. -/
theorem codeBite_eq_word (h : codeBite inTag text = some b)
    (hword : b.token = some (.word word)) : ∃ c rest, text = c :: rest ∧ isWordStart c = true ∧
      wordToken (c :: (wordTail rest).1) (wordTail rest).2 = .word word ∧
        b.rest = (wordTail rest).2 := by
  -- a piece that starts with a quote is a literal or a stray one
  have hquoted : ∀ {quote : Char} {literal : String → Token} {rest : List Char}
      {reading : Option Quoted.Reading}, (∀ value, literal value ≠ .word word) →
        (quotedBite quote literal rest reading).token ≠ some (.word word) := by
    intro quote literal rest reading hliteral
    cases reading with
    | none => simp [quotedBite]
    | some r => simpa [quotedBite] using hliteral _
  cases codeBite_cases h with
  | comment _ | openComment _ | space _ | number _ _ _ _ | stray _ _ _ => cases hword
  | @word c rest _ hstart => exact ⟨c, rest, rfl, hstart, Option.some.inj hword, rfl⟩
  | quoted _ | template => exact absurd hword (hquoted (by simp))
  | symbol _ _ hsymbol =>
      obtain ⟨entry, hentry, -, -, htoken⟩ := symbolAmong_eq_some hsymbol
      rw [htoken] at hword
      exact absurd (Option.some.inj hword) (symbols_ne_word entry hentry word)

/-- Words stand in code and in tags, not in prose. -/
theorem bite_eq_word (h : modes.scanner.bite text = some b) (hword : b.token = some (.word word)) :
    ∃ inTag, codeBite inTag text = some b ∧ modes.head? ≠ some .prose := by
  have hprose : ∀ {text : List Char} {b : Bite}, proseBite text = some b →
      b.token ≠ some (.word word) := by
    intro text b h
    unfold proseBite at h
    split at h <;> cases h <;> simp
  match modes, h with
  | .prose :: _, h => exact absurd hword (hprose h)
  | .tag _ :: _, h => exact ⟨true, h, by simp⟩
  | .code :: _, h => exact ⟨false, h, by simp⟩
  | [], h => exact ⟨false, h, by simp⟩

theorem isWordText_of_bite (h : modes.scanner.bite text = some b)
    (hword : b.token = some (.word word)) : IsWordText word := by
  obtain ⟨inTag, hbite, -⟩ := bite_eq_word h hword
  obtain ⟨c, rest, -, hstart, htoken, -⟩ := codeBite_eq_word hbite hword
  obtain rfl := wordToken_eq_word htoken
  refine ⟨by simp, fun d hd => ?_⟩
  rw [String.toList_ofList] at hd
  rcases List.mem_cons.1 hd with rfl | hd
  · simp [isWordPart, hstart]
  · exact isWordPart_of_mem_wordTail hd

theorem isWordText_of_mem_lexemes {source : String} {span : Span}
    (h : ⟨.word word, span⟩ ∈ lexemes source) : IsWordText word := by
  obtain ⟨ps, -, hbitten, hlexemes⟩ := exists_bitten_source source
  rw [hlexemes] at h
  clear hlexemes
  generalize (0 : Nat) = offset, ([] : List Char) = rest, ([] : Modes) = modes,
    finalModes source = after at h hbitten
  induction hbitten generalizing offset with
  | done => cases h
  | @step modes after p ps rest hbite _ ih =>
      rcases List.mem_append.1 h with h | h
      · exact isWordText_of_bite hbite (Piece.lexeme?_eq_some (Option.mem_toList.1 h)).1
      · exact ih _ h

end Words

end RoleAudit.Markup
