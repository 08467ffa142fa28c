import RoleAudit.Proofs.Numerals

/-!
# What quoted texts are made of

The inside of a quoted text in code is made of pieces, each of which denotes some text by itself: a
character that stands for itself denotes this character, an escape the character that it names, and
the continuation of a line nothing.  How the number in an escape may be written is a parameter of
these notions, `number`.

* `Denotes` — what a piece denotes;
* `Segmented` — pieces one after the other, which denote a text;
* `read_of_segmented`, `exists_segmented` — reading goes through pieces up to the closing quote, in
  which numbers may have a plus sign;
* `read_before` — so what stands after the closing quote makes no difference;
* `read_spelled` — whichever way its characters are spelled, a text is read as what it is;
* `read_pieces_wellFormed` — whatever is read is made of such pieces.
-/

namespace RoleAudit.Markup

open RoleAudit.Text (byteLength)

/-- Whether a character opens a text in quotes. -/
def isQuote (c : Char) : Bool :=
  c = '"' || c = '\x27' || c = '\x60'

namespace Quoted

/-- Whether a character after a backslash starts an escape that does not stand for it, or goes on
with the line. -/
def opensEscape (c : Char) : Bool :=
  (named? c).isSome || c = 'x' || c = 'u' || c = '\r' || c = '\n'

/-- What may stand after a backslash to name a character. -/
inductive Escape (number : List Char → Nat → Prop) : List Char → Char → Prop
  | named {name c : Char} (h : named? name = some c) : Escape number [name] c
  /-- Two digits. -/
  | short {digits : List Char} {c : Char} (hlength : digits.length = 2)
      (h : number digits c.toNat) : Escape number ('x' :: digits) c
  /-- Four digits. -/
  | long {digits : List Char} {c : Char} (hlength : digits.length = 4)
      (h : number digits c.toNat) : Escape number ('u' :: digits) c
  /-- Any number of digits, in braces. -/
  | braced {digits : List Char} {c : Char} (h : number digits c.toNat) :
      Escape number ('u' :: '\x7b' :: (digits ++ ['\x7d'])) c
  | itself {c : Char} (h : opensEscape c = false) : Escape number [c] c

/-- The ends of a line. -/
def lineEnds : List (List Char) :=
  [['\n'], ['\r'], ['\r', '\n']]

/-- A piece of the inside of a quoted text denotes a text. -/
inductive Denotes (number : List Char → Nat → Prop) (quote : Char) (multiline : Bool) :
    List Char → List Char → Prop
  | plain {c : Char} (hquote : c ≠ quote) (hslash : c ≠ '\\')
      (hline : c = '\n' → multiline = true) : Denotes number quote multiline [c] [c]
  | continued {line : List Char} (h : line ∈ lineEnds) :
      Denotes number quote multiline ('\\' :: line) []
  | escaped {text : List Char} {c : Char} (h : Escape number text c) :
      Denotes number quote multiline ('\\' :: text) [c]

/-- Before `back`, pieces one after the other denote a text.  A carriage return and a line feed are
one end of a line. -/
inductive Segmented (number : List Char → Nat → Prop) (quote : Char) (multiline : Bool)
    (back : List Char) : List (List Char) → List Char → Prop
  | nil : Segmented number quote multiline back [] []
  | cons {piece value : List Char} {pieces : List (List Char)} {others : List Char}
      (h : Denotes number quote multiline piece value)
      (hline : piece = ['\\', '\r'] → (pieces.flatten ++ back).head? ≠ some '\n')
      (hrest : Segmented number quote multiline back pieces others) :
      Segmented number quote multiline back (piece :: pieces) (value ++ others)

/-! ### Up to a character -/

theorem cut?_of_not_mem {stop : Char} {text : List Char} (h : stop ∉ text) (rest : List Char) :
    cut? stop (text ++ stop :: rest) = some (text, rest) := by
  induction text with
  | nil => simp [cut?]
  | cons c text ih =>
      have hc : c ≠ stop := (List.ne_of_not_mem_cons h).symm
      simp [cut?, hc, ih (List.not_mem_of_not_mem_cons h)]

/-- A text is cut at the first of the characters that stop it. -/
theorem cut?_eq_some_iff {stop : Char} {text : List Char} {parts : List Char × List Char} :
    cut? stop text = some parts ↔ text = parts.1 ++ stop :: parts.2 ∧ stop ∉ parts.1 := by
  constructor
  · intro h
    induction text generalizing parts with
    | nil => cases h
    | cons c rest ih =>
        unfold cut? at h
        split at h
        · next hc =>
            cases h
            exact ⟨by rw [hc]; rfl, List.not_mem_nil⟩
        · next hc =>
            obtain ⟨parts', hparts, rfl⟩ := Option.map_eq_some_iff.1 h
            obtain ⟨hrest, hfront⟩ := ih hparts
            exact ⟨by rw [hrest]; rfl, List.not_mem_cons_of_ne_of_not_mem (Ne.symm hc) hfront⟩
  · rintro ⟨rfl, hfront⟩
    exact cut?_of_not_mem hfront parts.2

/-! ### One piece -/

section Escapes

variable {text rest : List Char} {c : Char}

theorem byteLength_braced (digits : List Char) :
    byteLength ('u' :: '\x7b' :: (digits ++ ['\x7d'])) = 3 + byteLength digits := by
  have hu : ('u' : Char).utf8Size = 1 := rfl
  have hopen : ('\x7b' : Char).utf8Size = 1 := rfl
  have hclose : ('\x7d' : Char).utf8Size = 1 := rfl
  simp [hu, hopen, hclose]
  omega

theorem fixed?_of_number {count : Nat} {digits : List Char} (hlength : digits.length = count)
    (h : IsSignedNumeral digits c.toNat) (rest : List Char) :
    fixed? count (digits ++ rest) = some ⟨[c], 1 + byteLength digits, rest⟩ := by
  have htake : (digits ++ rest).take count = digits := List.take_left' hlength
  have hdrop : (digits ++ rest).drop count = rest := List.drop_left' hlength
  rw [fixed?, if_pos (by simp [hlength]), htake, hdrop, scalar?_eq_some_iff.2 h]
  rfl

theorem braced?_of_number {digits : List Char} (h : IsSignedNumeral digits c.toNat)
    (rest : List Char) :
    braced? (digits ++ '\x7d' :: rest) = some ⟨[c], 3 + byteLength digits, rest⟩ := by
  rw [braced?, cut?_of_not_mem (h.notMem (by decide) (by decide)), Option.bind_some,
    scalar?_eq_some_iff.2 h]
  rfl

theorem escape?_single (hx : c ≠ 'x') (hu : c ≠ 'u') (hreturn : c ≠ '\r') (hfeed : c ≠ '\n')
    (rest : List Char) :
    escape? (c :: rest) = some ⟨[(named? c).getD c], c.utf8Size, rest⟩ := by
  rw [escape?]
  · exact hx
  · exact fun _ hc => absurd hc hu
  · exact hu
  · exact fun _ hc => absurd hc hreturn
  · exact hreturn
  · exact hfeed

/-- A character that opens no escape stands for itself after a backslash. -/
theorem escape?_itself (h : opensEscape c = false) (rest : List Char) :
    escape? (c :: rest) = some ⟨[c], c.utf8Size, rest⟩ := by
  simp only [opensEscape, Bool.or_eq_false_iff, decide_eq_false_iff_not, Option.isSome_eq_false_iff,
    Option.isNone_iff_eq_none] at h
  obtain ⟨⟨⟨⟨hnamed, hx⟩, hu⟩, hreturn⟩, hfeed⟩ := h
  rw [escape?_single hx hu hreturn hfeed, hnamed]
  rfl

theorem escape?_named {name : Char} (h : named? name = some c) (rest : List Char) :
    escape? (name :: rest) = some ⟨[c], name.utf8Size, rest⟩ := by
  rw [escape?_single, h]
  · rfl
  all_goals
    rintro rfl
    cases h

theorem escape?_of_escape (h : Escape IsSignedNumeral text c) (rest : List Char) :
    escape? (text ++ rest) = some ⟨[c], byteLength text, rest⟩ := by
  cases h with
  | named h => exact escape?_named h rest
  | short hlength h => exact fixed?_of_number hlength h rest
  | @long digits _ hlength h =>
      obtain ⟨d, digits, rfl⟩ := List.exists_cons_of_length_eq_add_one hlength
      have hd : d ≠ '\x7b' := by
        rintro rfl
        exact h.notMem (by decide) (by decide) List.mem_cons_self
      calc escape? ('u' :: d :: digits ++ rest)
          = fixed? 4 (d :: digits ++ rest) := by simp [escape?, hd]
        _ = _ := fixed?_of_number hlength h rest
  | @braced digits _ h =>
      rw [byteLength_braced]
      simpa [escape?] using braced?_of_number h rest
  | itself h => exact escape?_itself h rest

theorem escape?_of_lineEnd (h : text ∈ lineEnds) (hrest : text = ['\r'] → rest.head? ≠ some '\n') :
    escape? (text ++ rest) = some ⟨[], byteLength text, rest⟩ := by
  simp only [lineEnds, List.mem_cons, List.not_mem_nil, or_false] at h
  rcases h with rfl | rfl | rfl
  · rfl
  · have hfeed := hrest rfl
    cases rest with
    | nil => rfl
    | cons d rest =>
        have hd : d ≠ '\n' := by simpa using hfeed
        simp [escape?, hd]
        rfl
  · rfl

theorem exists_number_of_fixed? {count : Nat} {e : Reading} (h : fixed? count text = some e) :
    ∃ digits c, digits.length = count ∧ IsSignedNumeral digits c.toNat ∧ text = digits ++ e.rest ∧
      e.value = [c] ∧ e.width = 1 + byteLength digits := by
  unfold fixed? at h
  split at h
  · next hcount =>
      obtain ⟨c, hc, rfl⟩ := Option.map_eq_some_iff.1 h
      exact ⟨text.take count, c, List.length_take_of_le hcount, scalar?_eq_some_iff.1 hc,
        (List.take_append_drop count text).symm, rfl, rfl⟩
  · cases h

theorem exists_number_of_braced? {e : Reading} (h : braced? text = some e) :
    ∃ digits c, IsSignedNumeral digits c.toNat ∧ text = digits ++ '\x7d' :: e.rest ∧
      e.value = [c] ∧ e.width = 3 + byteLength digits := by
  obtain ⟨parts, hparts, h⟩ := Option.bind_eq_some_iff.1 h
  obtain ⟨c, hc, rfl⟩ := Option.map_eq_some_iff.1 h
  exact ⟨parts.1, c, scalar?_eq_some_iff.1 hc, (cut?_eq_some_iff.1 hparts).1, rfl, rfl⟩

/-- What is read after a backslash names a character or is the end of a line. -/
theorem exists_escape {e : Reading} (h : escape? text = some e) :
    (∃ piece c, Escape IsSignedNumeral piece c ∧ text = piece ++ e.rest ∧ e.value = [c] ∧
      e.width = byteLength piece) ∨
    ∃ piece ∈ lineEnds, text = piece ++ e.rest ∧ e.value = [] ∧ e.width = byteLength piece ∧
      (piece = ['\r'] → e.rest.head? ≠ some '\n') := by
  unfold escape? at h
  split at h
  · cases h
  · obtain ⟨digits, c, hlength, hdigits, rfl, hvalue, hwidth⟩ := exists_number_of_fixed? h
    exact Or.inl ⟨_, c, .short hlength hdigits, rfl, hvalue, hwidth⟩
  · obtain ⟨digits, c, hdigits, rfl, hvalue, hwidth⟩ := exists_number_of_braced? h
    exact Or.inl ⟨_, c, .braced hdigits, by simp, hvalue, by rw [hwidth, byteLength_braced]⟩
  · obtain ⟨digits, c, hlength, hdigits, rfl, hvalue, hwidth⟩ := exists_number_of_fixed? h
    exact Or.inl ⟨_, c, .long hlength hdigits, rfl, hvalue, hwidth⟩
  · cases h
    exact Or.inr ⟨['\r', '\n'], by simp [lineEnds], rfl, rfl, rfl, nofun⟩
  · next others hfeed =>
      cases h
      refine Or.inr ⟨['\r'], by simp [lineEnds], rfl, rfl, rfl, fun _ hhead => ?_⟩
      obtain ⟨tail, htail⟩ := List.head?_eq_some_iff.1 hhead
      exact hfeed tail htail
  · cases h
    exact Or.inr ⟨['\n'], by simp [lineEnds], rfl, rfl, rfl, nofun⟩
  · next c others hx _ hu _ hreturn hfeed =>
      cases h
      cases hnamed : named? c with
      | some d => exact Or.inl ⟨[c], d, .named hnamed, rfl, rfl, by simp⟩
      | none =>
          refine Or.inl ⟨[c], c, .itself ?_, rfl, rfl, by simp⟩
          have hx' : c ≠ 'x' := hx
          have hu' : c ≠ 'u' := hu
          have hreturn' : c ≠ '\r' := hreturn
          have hfeed' : c ≠ '\n' := hfeed
          simp [opensEscape, hnamed, hx', hu', hreturn', hfeed']

/-- An escape is read as it is before any text that starts alike. -/
theorem escape?_before {e : Reading} (h : escape? text = some e) : ∃ piece,
    text = piece ++ e.rest ∧
      ∀ rest, rest.head? = e.rest.head? → escape? (piece ++ rest) = some { e with rest } := by
  rcases exists_escape h with ⟨piece, c, hpiece, htext, hvalue, hwidth⟩ |
    ⟨piece, hline, htext, hvalue, hwidth, hfeed⟩
  · refine ⟨piece, htext, fun rest _ => ?_⟩
    rw [escape?_of_escape hpiece, hvalue, hwidth]
  · refine ⟨piece, htext, fun rest hrest => ?_⟩
    rw [escape?_of_lineEnd hline fun heq => hrest ▸ hfeed heq, hvalue, hwidth]

end Escapes

/-! ### Kinds of numbers -/

section Numbers

variable {number number' : List Char → Nat → Prop} {quote : Char} {multiline : Bool}
  {back piece value text : List Char} {pieces : List (List Char)} {c : Char}

theorem Escape.mono (h : ∀ digits n, number digits n → number' digits n)
    (hescape : Escape number text c) : Escape number' text c := by
  cases hescape with
  | named hname => exact .named hname
  | short hlength hdigits => exact .short hlength (h _ _ hdigits)
  | long hlength hdigits => exact .long hlength (h _ _ hdigits)
  | braced hdigits => exact .braced (h _ _ hdigits)
  | itself hc => exact .itself hc

theorem Denotes.mono (h : ∀ digits n, number digits n → number' digits n)
    (hpiece : Denotes number quote multiline piece value) :
    Denotes number' quote multiline piece value := by
  cases hpiece with
  | plain hquote hslash hline => exact .plain hquote hslash hline
  | continued hline => exact .continued hline
  | escaped hescape => exact .escaped (hescape.mono h)

/-- Whether the number of an escape starts with a plus sign. -/
def HasSign (piece : List Char) : Prop :=
  ∃ others, piece = '\\' :: 'x' :: '+' :: others ∨ piece = '\\' :: 'u' :: '+' :: others ∨
    piece = '\\' :: 'u' :: '\x7b' :: '+' :: others

theorem Escape.not_hasSign (h : Escape IsNumeral text c) : ¬ HasSign ('\\' :: text) := by
  have hsign : hexDigit? '+' = none := by decide
  rintro ⟨others, hothers⟩
  cases h with
  | named _ | itself _ => simp at hothers
  | @short digits _ _ h =>
      refine h.notMem hsign ?_
      rcases hothers with heq | heq | heq <;> simp_all
  | @long digits _ _ h =>
      refine h.notMem hsign ?_
      rcases hothers with heq | heq | heq <;> simp_all
  | @braced digits _ h =>
      refine h.notMem hsign ?_
      have hmem : '+' ∈ digits ++ ['\x7d'] := by
        rcases hothers with heq | heq | heq <;> simp_all
      simpa using hmem

/-- Without plus signs, a number is written as it should be. -/
theorem Escape.of_not_hasSign (h : Escape IsSignedNumeral text c)
    (hsign : ¬ HasSign ('\\' :: text)) : Escape IsNumeral text c := by
  cases h with
  | named hname => exact .named hname
  | itself hc => exact .itself hc
  | short hlength h =>
      rcases h with h | ⟨others, rfl, -⟩
      · exact .short hlength h
      · exact absurd ⟨others, Or.inl rfl⟩ hsign
  | long hlength h =>
      rcases h with h | ⟨others, rfl, -⟩
      · exact .long hlength h
      · exact absurd ⟨others, Or.inr (Or.inl rfl)⟩ hsign
  | braced h =>
      rcases h with h | ⟨others, rfl, -⟩
      · exact .braced h
      · exact absurd ⟨_, Or.inr (Or.inr rfl)⟩ hsign

theorem Denotes.not_hasSign (h : Denotes IsNumeral quote multiline piece value) :
    ¬ HasSign piece := by
  cases h with
  | plain => simp [HasSign]
  | continued hline =>
      rintro ⟨others, hothers⟩
      simp only [lineEnds, List.mem_cons, List.not_mem_nil, or_false] at hline
      rcases hline with rfl | rfl | rfl <;> simp at hothers
  | escaped hescape => exact hescape.not_hasSign

theorem Denotes.of_not_hasSign (h : Denotes IsSignedNumeral quote multiline piece value)
    (hsign : ¬ HasSign piece) : Denotes IsNumeral quote multiline piece value := by
  cases h with
  | plain hquote hslash hline => exact .plain hquote hslash hline
  | continued hline => exact .continued hline
  | escaped hescape => exact .escaped (hescape.of_not_hasSign hsign)

theorem Segmented.mono (h : ∀ digits n, number digits n → number' digits n)
    (hpieces : Segmented number quote multiline back pieces value) :
    Segmented number' quote multiline back pieces value := by
  induction hpieces with
  | nil => exact .nil
  | cons hpiece hline _ ih => exact .cons (hpiece.mono h) hline ih

theorem Segmented.signed (h : Segmented IsNumeral quote multiline back pieces value) :
    Segmented IsSignedNumeral quote multiline back pieces value :=
  h.mono fun _ _ => Or.inl

/-- The numbers in pieces are written as they should be if none of them has a plus sign. -/
theorem Segmented.isNumeral_iff (h : Segmented IsSignedNumeral quote multiline back pieces value) :
    Segmented IsNumeral quote multiline back pieces value ↔ ∀ piece ∈ pieces, ¬ HasSign piece := by
  constructor
  · intro hnumeral
    clear h
    induction hnumeral with
    | nil => simp
    | cons hpiece _ _ ih => exact List.forall_mem_cons.2 ⟨hpiece.not_hasSign, ih⟩
  · intro hsign
    induction h with
    | nil => exact .nil
    | cons hpiece hline _ ih =>
        obtain ⟨hfirst, hothers⟩ := List.forall_mem_cons.1 hsign
        exact .cons (hpiece.of_not_hasSign hfirst) hline (ih hothers)

/-- The first of some pieces are pieces before the others. -/
theorem Segmented.left {others : List (List Char)}
    (h : Segmented number quote multiline back (pieces ++ others) value) :
    ∃ value', Segmented number quote multiline (others.flatten ++ back) pieces value' := by
  induction pieces generalizing value with
  | nil => exact ⟨[], .nil⟩
  | cons piece pieces ih =>
      rw [List.cons_append] at h
      cases h with
      | cons hpiece hline hrest =>
          obtain ⟨value', hvalue'⟩ := ih hrest
          exact ⟨_, .cons hpiece (by simpa using hline) hvalue'⟩

/-- Pieces are pieces before any text that starts alike. -/
theorem Segmented.before {back' : List Char}
    (h : Segmented number quote multiline back pieces value) (hhead : back'.head? = back.head?) :
    Segmented number quote multiline back' pieces value := by
  induction h with
  | nil => exact .nil
  | cons hpiece hline _ ih =>
      refine .cons hpiece (fun heq => ?_) ih
      rw [List.head?_append, hhead, ← List.head?_append]
      exact hline heq

/-- Only the end of a line is a carriage return after a backslash. -/
theorem Denotes.ne_return (h : Denotes number quote multiline piece value) (hvalue : value ≠ []) :
    piece ≠ ['\\', '\r'] := by
  rintro rfl
  cases h with
  | continued => exact hvalue rfl
  | escaped h =>
      cases h with
      | named h => cases h
      | itself h => cases h

end Numbers

/-! ### Reading -/

section Reading

variable {quote : Char} {multiline : Bool} {back piece value rest text : List Char}
  {pieces : List (List Char)} {c : Char} {r : Reading}

theorem ne_backslash_of_isQuote (h : isQuote quote = true) : quote ≠ '\\' := by
  rintro rfl
  cases h

theorem ne_lineFeed_of_isQuote (h : isQuote quote = true) : quote ≠ '\n' := by
  rintro rfl
  cases h

theorem utf8Size_of_isQuote (h : isQuote quote = true) : quote.utf8Size = 1 := by
  simp only [isQuote, Bool.or_eq_true, decide_eq_true_eq] at h
  rcases h with (rfl | rfl) | rfl <;> rfl

theorem read_quote (rest : List Char) :
    read quote multiline (quote :: rest) = some ⟨[], quote.utf8Size, rest⟩ := by
  rw [read, if_pos rfl]

theorem read_plain (hquote : c ≠ quote) (hslash : c ≠ '\\') (hline : c = '\n' → multiline = true) :
    read quote multiline (c :: rest) =
      (read quote multiline rest).map fun r => ⟨c :: r.value, c.utf8Size + r.width, r.rest⟩ := by
  rw [read, if_neg hquote, if_neg (by simpa using hline), if_neg hslash]

/-- Where lines may end, characters other than the quote and the backslash stand for themselves. -/
theorem read_of_plain (hquote : quote ∉ text) (hslash : '\\' ∉ text) (rest : List Char) :
    read quote true (text ++ rest) = (read quote true rest).map fun r =>
      ⟨text ++ r.value, byteLength text + r.width, r.rest⟩ := by
  induction text with
  | nil => simp
  | cons c text ih =>
      rw [List.mem_cons, not_or] at hquote hslash
      rw [List.cons_append, read_plain (Ne.symm hquote.1) (Ne.symm hslash.1) fun _ => rfl,
        ih hquote.2 hslash.2, Option.map_map]
      simp [Function.comp_def, Nat.add_assoc]

theorem read_escaped (hquote : quote ≠ '\\') {e : Reading} (he : escape? rest = some e) :
    read quote multiline ('\\' :: rest) = (read quote multiline e.rest).map fun r =>
      ⟨e.value ++ r.value, 1 + e.width + r.width, r.rest⟩ := by
  rw [read, if_neg hquote.symm, if_neg (by simp), if_pos rfl]
  split
  · next hnone =>
      rw [hnone] at he
      cases he
  · next e' hsome =>
      rw [hsome] at he
      cases he
      rfl

/-- Reading takes a piece for what it denotes. -/
theorem read_of_denotes (hquote : quote ≠ '\\')
    (h : Denotes IsSignedNumeral quote multiline piece value)
    (hline : piece = ['\\', '\r'] → rest.head? ≠ some '\n') :
    read quote multiline (piece ++ rest) = (read quote multiline rest).map fun r =>
      ⟨value ++ r.value, byteLength piece + r.width, r.rest⟩ := by
  cases h with
  | plain hquote hslash hfeed => simpa using read_plain hquote hslash hfeed
  | continued h =>
      have hrest := escape?_of_lineEnd h fun heq => hline (by rw [heq])
      exact read_escaped hquote hrest
  | escaped h => exact read_escaped hquote (escape?_of_escape h rest)

/-- Reading takes pieces for what they denote, one after the other. -/
theorem read_of_segmented (hquote : quote ≠ '\\')
    (h : Segmented IsSignedNumeral quote multiline back pieces value) :
    read quote multiline (pieces.flatten ++ back) = (read quote multiline back).map fun r =>
      ⟨value ++ r.value, byteLength pieces.flatten + r.width, r.rest⟩ := by
  induction h with
  | nil => simp
  | @cons piece value pieces others h hline _ ih =>
      rw [List.flatten_cons, List.append_assoc, read_of_denotes hquote h hline, ih, Option.map_map]
      simp [Function.comp_def, Nat.add_assoc]

/-- A piece denotes one text only. -/
theorem Denotes.unique {value' : List Char}
    (h : Denotes IsSignedNumeral quote multiline piece value)
    (h' : Denotes IsSignedNumeral quote multiline piece value') (hquote : isQuote quote = true) :
    value = value' := by
  have hslash := ne_backslash_of_isQuote hquote
  have hfeed : piece = ['\\', '\r'] → [quote].head? ≠ some '\n' := fun _ =>
    by simpa using ne_lineFeed_of_isQuote hquote
  have hread := read_of_denotes hslash h hfeed
  rw [read_of_denotes hslash h' hfeed, read_quote] at hread
  simpa using (congrArg Reading.value (Option.some.inj hread)).symm

/-- What is read after a backslash makes a piece with it. -/
theorem exists_denotes {e : Reading} (h : escape? text = some e) : ∃ piece,
    Denotes IsSignedNumeral quote multiline piece e.value ∧ '\\' :: text = piece ++ e.rest ∧
      1 + e.width = byteLength piece ∧ (piece = ['\\', '\r'] → e.rest.head? ≠ some '\n') := by
  rcases exists_escape h with ⟨esc, c, hesc, rfl, hvalue, hwidth⟩ |
    ⟨line, hline, rfl, hvalue, hwidth, hfeed⟩ <;> rw [hvalue, hwidth]
  · have hpiece : Denotes IsSignedNumeral quote multiline ('\\' :: esc) [c] := .escaped hesc
    exact ⟨_, hpiece, rfl, rfl, fun heq => absurd heq (hpiece.ne_return (by simp))⟩
  · exact ⟨_, .continued hline, rfl, rfl, fun heq => hfeed (List.cons.inj heq).2⟩

/-- Whatever is read is made of pieces. -/
theorem exists_segmented (h : read quote multiline text = some r) : ∃ pieces,
    Segmented IsSignedNumeral quote multiline (quote :: r.rest) pieces r.value ∧
      text = pieces.flatten ++ quote :: r.rest ∧
      r.width = byteLength pieces.flatten + quote.utf8Size := by
  fun_induction read quote multiline text generalizing r with
  | case1 => cases h
  | case2 rest =>
      cases h
      exact ⟨[], .nil, rfl, by simp⟩
  | case3 => cases h
  | case4 => cases h
  | case5 rest e he _ _ ih =>
      obtain ⟨s, hs, rfl⟩ := Option.map_eq_some_iff.1 h
      obtain ⟨pieces, hpieces, hrest, hwidth⟩ := ih hs
      obtain ⟨piece, hpiece, htext, hwidth', hline⟩ := exists_denotes he
      refine ⟨piece :: pieces, .cons hpiece (hrest ▸ hline) hpieces, ?_, ?_⟩
      · rw [htext, hrest]
        simp
      · simp [hwidth, hwidth', Nat.add_assoc]
  | case6 c rest hquote hline hslash ih =>
      obtain ⟨s, hs, rfl⟩ := Option.map_eq_some_iff.1 h
      obtain ⟨pieces, hpieces, rfl, hwidth⟩ := ih hs
      have hplain : Denotes IsSignedNumeral quote multiline [c] [c] :=
        .plain hquote hslash (by simpa using hline)
      exact ⟨[c] :: pieces, .cons hplain (by simp) hpieces, rfl, by simp [hwidth, Nat.add_assoc]⟩

/-- A quoted text is what stands before its closing quote. -/
theorem read_eq_some (h : read quote multiline text = some r) : ∃ inside,
    text = inside ++ quote :: r.rest ∧ r.width = byteLength inside + quote.utf8Size := by
  obtain ⟨pieces, -, htext, hwidth⟩ := exists_segmented h
  exact ⟨pieces.flatten, htext, hwidth⟩

/-- A quoted text is read as it is before any text. -/
theorem read_before (hquote : quote ≠ '\\') (h : read quote multiline text = some r) : ∃ piece,
    text = piece ++ r.rest ∧
      ∀ rest, read quote multiline (piece ++ rest) = some { r with rest } := by
  obtain ⟨pieces, hpieces, htext, hwidth⟩ := exists_segmented h
  refine ⟨pieces.flatten ++ [quote], by simp [htext], fun rest => ?_⟩
  have hbefore : Segmented IsSignedNumeral quote multiline (quote :: rest) pieces r.value :=
    hpieces.before rfl
  rw [List.append_assoc, List.singleton_append, read_of_segmented hquote hbefore, read_quote,
    hwidth]
  simp

end Reading

/-! ### Spellings -/

/-- A way to write a character within quotes: the character alone, or an escape that names it. -/
def IsSpelling (quote : Char) (multiline : Bool) (c : Char) (spelling : List Char) : Prop :=
  Denotes IsNumeral quote multiline spelling [c]

/-- The spellings of characters are pieces before any text. -/
theorem segmented_of_spellings {quote : Char} {multiline : Bool} {value : List Char}
    {spellings : List (List Char)} (h : List.Forall₂ (IsSpelling quote multiline) value spellings)
    (back : List Char) : Segmented IsNumeral quote multiline back spellings value := by
  induction h with
  | nil => exact .nil
  | cons hspelling _ ih =>
      exact .cons hspelling (fun heq => absurd heq (Denotes.ne_return hspelling (by simp))) ih

/-- Characters that stand for themselves are pieces before any text. -/
theorem segmented_plain {quote : Char} {multiline : Bool} {text : List Char}
    (hquote : quote ∉ text) (hslash : '\\' ∉ text) (hline : multiline = true) (back : List Char) :
    Segmented IsNumeral quote multiline back (text.map fun c => [c]) text := by
  refine segmented_of_spellings (List.forall₂_map_right_iff.2 (List.forall₂_same.2 ?_)) back
  intro c hc
  exact .plain (ne_of_mem_of_not_mem hc hquote) (ne_of_mem_of_not_mem hc hslash) fun _ => hline

/-- Whichever way each of its characters is spelled, a text is read as what it is, up to the quote
after it. -/
theorem read_spelled (quote : Char) (multiline : Bool) (hquote : isQuote quote = true)
    (value : List Char) (spellings : List (List Char))
    (h : List.Forall₂ (IsSpelling quote multiline) value spellings) (rest : List Char) :
    read quote multiline (spellings.flatten ++ quote :: rest) =
      some ⟨value, byteLength spellings.flatten + 1, rest⟩ := by
  have hpieces : Segmented IsSignedNumeral quote multiline (quote :: rest) spellings value :=
    (segmented_of_spellings h _).signed
  rw [read_of_segmented (ne_backslash_of_isQuote hquote) hpieces, read_quote,
    utf8Size_of_isQuote hquote]
  simp

/-- Five characters, each spelled in a way of its own. -/
theorem read_spelled_sample : isQuote '"' = true ∧
    List.Forall₂ (IsSpelling '"' false) "é\"\nA😀".toList
      ["\\u00e9".toList, "\\\"".toList, "\\n".toList, "A".toList, "\\u\x7b01F600\x7d".toList] ∧
    read '"' false "\\u00e9\\\"\\nA\\u\x7b01F600\x7d\"+".toList =
      some ⟨"é\"\nA😀".toList, 22, ['+']⟩ := by
  have hlong : IsNumeral "00e9".toList 'é'.toNat := (hexFrom_zero_eq_some_iff (by simp)).1 rfl
  have hbraced : IsNumeral "01F600".toList '😀'.toNat := (hexFrom_zero_eq_some_iff (by simp)).1 rfl
  have hspellings : List.Forall₂ (IsSpelling '"' false) "é\"\nA😀".toList
      ["\\u00e9".toList, "\\\"".toList, "\\n".toList, "A".toList,
        "\\u\x7b01F600\x7d".toList] :=
    .cons (.escaped (.long rfl hlong)) (.cons (.escaped (.itself rfl))
      (.cons (.escaped (.named rfl)) (.cons (.plain (by decide) (by decide) (by decide))
        (.cons (.escaped (.braced hbraced)) .nil))))
  exact ⟨rfl, hspellings, read_spelled '"' false rfl _ _ hspellings ['+']⟩

/-! ### Well-formed escapes -/

/-- What is read is made of plain characters, line continuations and escapes up to the quote, and
denotes what they denote; an escape by number is well formed unless it has a plus sign. -/
theorem read_pieces_wellFormed (quote : Char) (multiline : Bool) (text : List Char) (r : Reading)
    (h : read quote multiline text = some r) : ∃ pieces,
      Segmented IsSignedNumeral quote multiline (quote :: r.rest) pieces r.value ∧
      text = pieces.flatten ++ quote :: r.rest ∧
      r.width = byteLength pieces.flatten + quote.utf8Size ∧
      (Segmented IsNumeral quote multiline (quote :: r.rest) pieces r.value ↔
        ∀ piece ∈ pieces, ¬ HasSign piece) := by
  obtain ⟨pieces, hpieces, htext, hwidth⟩ := exists_segmented h
  exact ⟨pieces, hpieces, htext, hwidth, hpieces.isNumeral_iff⟩

theorem HasSign.plus_mem {piece : List Char} (h : HasSign piece) : '+' ∈ piece := by
  obtain ⟨others, rfl | rfl | rfl⟩ := h <;> simp

theorem read_pieces_wellFormed_sample :
    read '\x27' false "\\x41\\\nb\x27".toList = some ⟨['A', 'b'], 8, []⟩ ∧ ∃ pieces,
      Segmented IsNumeral '\x27' false ['\x27'] pieces ['A', 'b'] ∧
      "\\x41\\\nb\x27".toList = pieces.flatten ++ ['\x27'] := by
  have hread : read '\x27' false "\\x41\\\nb\x27".toList = some ⟨['A', 'b'], 8, []⟩ := by
    with_unfolding_all rfl
  obtain ⟨pieces, -, htext, -, hnumeral⟩ := read_pieces_wellFormed _ _ _ _ hread
  refine ⟨hread, pieces, hnumeral.2 fun piece hpiece hsign => ?_, htext⟩
  have hplus : '+' ∈ "\\x41\\\nb\x27".toList :=
    htext ▸ List.mem_append_left _ (List.mem_flatten_of_mem hpiece hsign.plus_mem)
  revert hplus
  decide

/-- A plus sign is read as a part of the number. -/
theorem signed_number_is_read : ¬ ∀ (quote : Char) (multiline : Bool) (text : List Char)
    (r : Reading), read quote multiline text = some r → ∃ pieces values,
      List.Forall₂ (Denotes IsNumeral quote multiline) pieces values ∧
      text = pieces.flatten ++ quote :: r.rest ∧ r.value = values.flatten := by
  intro h
  have hread : read '"' false ['\\', 'x', '+', '4', '"'] = some ⟨['\x04'], 5, []⟩ := by
    with_unfolding_all rfl
  obtain ⟨pieces, values, hpieces, htext, -⟩ := h _ _ _ _ hread
  cases hpieces with
  | nil => cases htext
  | cons hpiece _ =>
      rw [List.flatten_cons, List.append_assoc] at htext
      cases hpiece with
      | plain _ hslash _ => exact hslash (List.cons.inj htext).1.symm
      | continued hline =>
          simp only [lineEnds, List.mem_cons, List.not_mem_nil, or_false] at hline
          rcases hline with rfl | rfl | rfl <;> cases htext
      | escaped hescape =>
          cases hescape with
          | named hname =>
              obtain ⟨rfl, -⟩ := List.cons.inj (List.cons.inj htext).2
              cases hname
          | itself hself =>
              obtain ⟨rfl, -⟩ := List.cons.inj (List.cons.inj htext).2
              cases hself
          | long | braced => cases htext
          | @short digits _ hlength hdigits =>
              -- the two digits would be the plus sign and the one after it
              have hplus : '+' ∉ digits := hdigits.notMem (by decide)
              obtain ⟨first, others, rfl⟩ := List.exists_cons_of_length_eq_add_one hlength
              obtain ⟨hfirst, -⟩ := List.cons.inj (List.cons.inj (List.cons.inj htext).2).2
              exact hplus (hfirst ▸ List.mem_cons_self)

end Quoted

end RoleAudit.Markup
