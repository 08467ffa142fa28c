import RoleAudit.Markup.Quoted
import RoleAudit.Markup.Token

/-!
# Scanners

A scanner bites one piece off the front of a text: a token, or a piece that
means nothing, such as a blank or a comment.  There are three.  `Scanner.code`
reads what stands in braces, `Scanner.tag` what stands between `<` and `>`, and
`Scanner.prose` what stands between tags.  Code and tags differ only in how they
read a text in single or double quotes: in a tag it has no escapes and may span
lines.

Every text is read: what belongs to no token is a stray piece.  A word that
would be a keyword is a name if a dash follows it directly.

Main statement: `codeBite_shorter` and `proseBite_shorter`, which say that every
bite takes something off the text.
-/

namespace RoleAudit.Markup

open RoleAudit.Text (byteLength Span)

/-- A piece taken off the front of a text: its token, if it has one, its length in bytes, and the
text after it. -/
structure Bite where
  token : Option Token
  width : Nat
  rest : List Char
  deriving DecidableEq, Repr

/-- The characters that code and tags skip. -/
def isSpace (c : Char) : Bool :=
  c = ' ' || c = '\t' || c = '\r' || c = '\n' || c = '\x0c'

/-- The characters that a name may start with. -/
def isWordStart (c : Char) : Bool :=
  c.isAlpha || c = '_' || c = '$'

/-- The characters that a name may go on with. -/
def isWordPart (c : Char) : Bool :=
  isWordStart c || c.isDigit

/-- The longest continuation of a name and the text after it.  A dash belongs to the name only if
the name goes on after it. -/
def wordTail : List Char → List Char × List Char
  | '-' :: c :: rest =>
      if isWordPart c then
        let tail := wordTail rest
        ('-' :: c :: tail.1, tail.2)
      else ([], '-' :: c :: rest)
  | c :: rest =>
      if isWordPart c then
        let tail := wordTail rest
        (c :: tail.1, tail.2)
      else ([], c :: rest)
  | [] => ([], [])

/-- The token of a name that `rest` follows. -/
def wordToken (name rest : List Char) : Token :=
  if rest.head? = some '-' then .word (String.ofList name)
  else match String.ofList name with
    | "null" => .null
    | "true" => .boolean true
    | "false" => .boolean false
    | text => .word text

/-- The fraction that continues a number, if there is one, and the text after it. -/
def fractionTail : List Char → List Char × List Char
  | '.' :: c :: rest =>
      if c.isDigit then ('.' :: c :: rest.takeWhile Char.isDigit, rest.dropWhile Char.isDigit)
      else ([], '.' :: c :: rest)
  | text => ([], text)

/-- The tokens with a fixed spelling, a longer one before every one that it starts with. -/
def symbols : List (List Char × Token) :=
  [(['=', '=', '='], .operator "==="), (['!', '=', '='], .operator "!=="),
    (['.', '.', '.'], .spread), (['=', '='], .operator "=="), (['!', '='], .operator "!="),
    (['<', '='], .operator "<="), (['>', '='], .operator ">="), (['=', '>'], .arrow),
    (['|', '|'], .or), (['&', '&'], .and), (['?', '?'], .coalesce),
    (['*'], .operator "*"), (['%'], .operator "%"), (['<'], .less), (['>'], .greater),
    (['/'], .slash), (['='], .equals), (['\x7b'], .openBrace), (['\x7d'], .closeBrace),
    (['('], .openParen), ([')'], .closeParen), (['['], .openBracket), ([']'], .closeBracket),
    (['.'], .dot), ([','], .comma), ([':'], .colon), ([';'], .semicolon), (['?'], .question),
    (['+'], .plus), (['-'], .minus), (['!'], .bang)]

/-- The first symbol of a list that a text starts with, with the text after it. -/
def symbolAmong (table : List (List Char × Token)) (text : List Char) : Option Bite :=
  match table with
  | [] => none
  | (spelling, token) :: others =>
      if spelling.isPrefixOf text then
        some ⟨some token, byteLength spelling, text.drop spelling.length⟩
      else symbolAmong others text

/-- The bytes up to and with the end of a comment, and the text after it. -/
def commentTail : List Char → Option (Nat × List Char)
  | '*' :: '/' :: rest => some (2, rest)
  | c :: rest => (commentTail rest).map fun tail => (c.utf8Size + tail.1, tail.2)
  | [] => none

/-- A text in quotes that takes no escapes, up to the next quote. -/
def plainQuoted (quote : Char) (text : List Char) : Option Quoted.Reading :=
  (Quoted.cut? quote text).map fun parts =>
    ⟨parts.1, byteLength parts.1 + quote.utf8Size, parts.2⟩

/-- A piece that starts with a quote: a literal, or the quote alone if it cannot be closed. -/
def quotedBite (quote : Char) (literal : String → Token) (rest : List Char) :
    Option Quoted.Reading → Bite
  | some r => ⟨some (literal (String.ofList r.value)), quote.utf8Size + r.width, r.rest⟩
  | none => ⟨some (.stray (String.singleton quote)), quote.utf8Size, rest⟩

/-- Bite a piece off code, or off a tag if `inTag` is set. -/
def codeBite (inTag : Bool) : List Char → Option Bite
  | [] => none
  | '/' :: '*' :: rest => match commentTail rest with
      | some (width, rest') => some ⟨none, 2 + width, rest'⟩
      | none => some ⟨some (.stray "/*"), 2, rest⟩
  | c :: rest =>
      if isSpace c then some ⟨none, 1, rest⟩
      else if isWordStart c then
        let tail := wordTail rest
        some ⟨some (wordToken (c :: tail.1) tail.2), byteLength (c :: tail.1), tail.2⟩
      else if c.isDigit then
        let whole := c :: rest.takeWhile Char.isDigit
        let tail := fractionTail (rest.dropWhile Char.isDigit)
        some ⟨some (.number (String.ofList (whole ++ tail.1))), byteLength (whole ++ tail.1),
          tail.2⟩
      else if c = '"' || c = '\x27' then
        some (quotedBite c .quoted rest
          (if inTag then plainQuoted c rest else Quoted.read c false rest))
      else if c = '\x60' then
        some (quotedBite c .template rest (Quoted.read c true rest))
      else match symbolAmong symbols (c :: rest) with
        | some b => some b
        | none => some ⟨some (.stray (String.singleton c)), c.utf8Size, rest⟩

/-- The characters that end a run of prose. -/
def endsProse (c : Char) : Bool :=
  c = '<' || c = '\x7b' || c = '\x7d'

/-- Bite a piece off prose: a brace, the start of a tag, or all text before the next of these. -/
def proseBite : List Char → Option Bite
  | [] => none
  | '<' :: rest => some ⟨some .less, 1, rest⟩
  | '\x7b' :: rest => some ⟨some .openBrace, 1, rest⟩
  | '\x7d' :: rest => some ⟨some .closeBrace, 1, rest⟩
  | c :: rest =>
      let run := c :: rest.takeWhile fun d => !endsProse d
      some ⟨some (.prose (String.ofList run)), byteLength run, rest.dropWhile fun d => !endsProse d⟩

theorem length_wordTail (text : List Char) : (wordTail text).2.length ≤ text.length := by
  fun_induction wordTail text <;> simp_all +zetaDelta <;> omega

theorem length_dropWhile (p : Char → Bool) (text : List Char) :
    (text.dropWhile p).length ≤ text.length :=
  (List.dropWhile_suffix p).length_le

theorem length_fractionTail (text : List Char) : (fractionTail text).2.length ≤ text.length := by
  unfold fractionTail
  split
  · rename_i rest
    have := length_dropWhile Char.isDigit rest
    split <;> simp
    omega
  · simp

theorem length_commentTail {text rest : List Char} {width : Nat}
    (h : commentTail text = some (width, rest)) : rest.length < text.length := by
  fun_induction commentTail text generalizing width with
  | case1 =>
      cases h
      simp only [List.length_cons]
      omega
  | case2 c rest' _ ih =>
      obtain ⟨tail, htail, h⟩ := Option.map_eq_some_iff.1 h
      cases h
      have := ih htail
      simp
      omega
  | case3 => cases h

theorem length_symbolAmong {table : List (List Char × Token)} {text : List Char} {b : Bite}
    (htable : ∀ entry ∈ table, entry.1 ≠ []) (hb : symbolAmong table text = some b) :
    b.rest.length < text.length := by
  induction table with
  | nil => cases hb
  | cons entry others ih =>
      unfold symbolAmong at hb
      split at hb
      · next hstart =>
          cases hb
          have hlength := (List.isPrefixOf_iff_prefix.1 hstart).length_le
          have hpos := List.length_pos_iff.2 (htable entry (by simp))
          simp
          omega
      · exact ih (fun e he => htable e (by simp [he])) hb

theorem length_plainQuoted {quote : Char} {text : List Char} {r : Quoted.Reading}
    (h : plainQuoted quote text = some r) : r.rest.length < text.length := by
  obtain ⟨parts, hparts, rfl⟩ := Option.map_eq_some_iff.1 h
  exact Quoted.length_cut? hparts

theorem length_quotedBite {quote : Char} {literal : String → Token} {rest : List Char}
    {reading : Option Quoted.Reading}
    (h : ∀ r, reading = some r → r.rest.length < rest.length) :
    (quotedBite quote literal rest reading).rest.length ≤ rest.length := by
  cases reading with
  | none => simp [quotedBite]
  | some r => exact Nat.le_of_lt (h r rfl)

/-- Every bite off code takes something off the text. -/
theorem codeBite_shorter {inTag : Bool} {text : List Char} {b : Bite}
    (h : codeBite inTag text = some b) : b.rest.length < text.length := by
  unfold codeBite at h
  split at h
  · cases h
  · split at h
    · next htail =>
        cases h
        have := length_commentTail htail
        simp only [List.length_cons]
        omega
    · cases h
      simp only [List.length_cons]
      omega
  · next c rest _ =>
    split at h
    · cases h
      simp
    split at h
    · cases h
      have := length_wordTail rest
      simp only [List.length_cons]
      omega
    split at h
    · cases h
      have := length_fractionTail (rest.dropWhile Char.isDigit)
      have := length_dropWhile Char.isDigit rest
      simp only [List.length_cons]
      omega
    split at h
    · cases h
      refine Nat.lt_succ_of_le (length_quotedBite fun r hr => ?_)
      split at hr
      · exact length_plainQuoted hr
      · exact Quoted.read_shorter hr
    split at h
    · cases h
      exact Nat.lt_succ_of_le (length_quotedBite fun r hr => Quoted.read_shorter hr)
    split at h
    · next hsymbol =>
        cases h
        exact length_symbolAmong (by decide) hsymbol
    · cases h
      simp

/-- Every bite off prose takes something off the text. -/
theorem proseBite_shorter {text : List Char} {b : Bite}
    (h : proseBite text = some b) : b.rest.length < text.length := by
  unfold proseBite at h
  split at h
  · cases h
  · cases h
    simp
  · cases h
    simp
  · cases h
    simp
  · next rest _ _ _ =>
      cases h
      have := length_dropWhile (fun d => !endsProse d) rest
      simp only [List.length_cons]
      omega

/-- A way of biting pieces off a text, each of which takes something off it. -/
structure Scanner where
  bite : List Char → Option Bite
  shorter : ∀ {text b}, bite text = some b → b.rest.length < text.length

namespace Scanner

/-- Reads what stands in braces. -/
def code : Scanner := ⟨codeBite false, codeBite_shorter⟩

/-- Reads what stands between `<` and `>`. -/
def tag : Scanner := ⟨codeBite true, codeBite_shorter⟩

/-- Reads what stands between tags. -/
def prose : Scanner := ⟨proseBite, proseBite_shorter⟩

/-- The lexemes of a text that starts at `offset`, all read by one scanner. -/
def lexemesFrom (s : Scanner) (offset : Nat) (text : List Char) : List Lexeme :=
  match _h : s.bite text with
  | none => []
  | some b =>
      let others := s.lexemesFrom (offset + b.width) b.rest
      match b.token with
      | none => others
      | some token => ⟨token, ⟨offset, offset + b.width⟩⟩ :: others
termination_by text.length
decreasing_by exact s.shorter _h

/-- The lexemes of a text, all read by one scanner. -/
def lexemes (s : Scanner) (text : String) : List Lexeme :=
  s.lexemesFrom 0 text.toList

end Scanner

end RoleAudit.Markup
