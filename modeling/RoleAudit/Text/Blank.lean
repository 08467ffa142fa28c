/-!
# Blank characters

Which characters separate words, and the two cuts that depend on them: a text
without the blanks at its ends, and the words of a text.

Blank means the Unicode property `White_Space`: twenty-five characters in ten
ranges.  The byte order mark and the zero width space do not have it.
-/

namespace RoleAudit.Text

/-- The code points with the property `White_Space`, as ranges with both ends included. -/
def blankRanges : List (Nat × Nat) :=
  [(0x09, 0x0D), (0x20, 0x20), (0x85, 0x85), (0xA0, 0xA0), (0x1680, 0x1680),
    (0x2000, 0x200A), (0x2028, 0x2029), (0x202F, 0x202F), (0x205F, 0x205F), (0x3000, 0x3000)]

/-- Whether a character is white space in the sense of Unicode. -/
def isBlank (c : Char) : Bool :=
  blankRanges.any fun range => range.1 ≤ c.toNat && c.toNat ≤ range.2

/-- The text without the blanks at its two ends. -/
def trim (text : List Char) : List Char :=
  ((text.dropWhile isBlank).reverse.dropWhile isBlank).reverse

/-- The maximal runs of characters that are not blank, in order. -/
def words : List Char → List (List Char)
  | [] => []
  | [c] => if isBlank c then [] else [[c]]
  | c :: d :: rest =>
      if isBlank c then words (d :: rest)
      else if isBlank d then [c] :: words (d :: rest)
      else match words (d :: rest) with
        | [] => [[c]]
        | word :: others => (c :: word) :: others

/-- The number of bytes that a text takes in UTF-8. -/
def byteLength (text : List Char) : Nat :=
  text.foldr (fun c width => c.utf8Size + width) 0

@[simp] theorem byteLength_nil : byteLength [] = 0 := rfl

@[simp] theorem byteLength_cons (c : Char) (text : List Char) :
    byteLength (c :: text) = c.utf8Size + byteLength text := rfl

@[simp] theorem byteLength_append (first second : List Char) :
    byteLength (first ++ second) = byteLength first + byteLength second := by
  induction first with
  | nil => simp
  | cons c rest ih => simp [ih, Nat.add_assoc]

/-- A blank text has no words. -/
theorem words_eq_nil_of_blank {text : List Char} (h : ∀ c ∈ text, isBlank c) :
    words text = [] := by
  induction text with
  | nil => rfl
  | cons c rest ih =>
      cases rest with
      | nil => simp [words, h c]
      | cons d rest =>
          have hrest : words (d :: rest) = [] := ih fun e he => h e (List.mem_cons_of_mem _ he)
          simp [words, h c, hrest]

end RoleAudit.Text
