import RoleAudit.Text.Blank

/-!
# Positions in a text

A place in a text is a byte offset; a reader of a message wants a line and a
column.  `Lines` holds the offset at which every line but the first starts, and
`Lines.position` turns an offset into a line and a column, both counted from
zero.  An offset past the end belongs to the last line.
-/

namespace RoleAudit.Text

/-- A stretch of a text, as the byte offsets of its first byte and of the byte after its last. -/
structure Span where
  start : Nat
  stop : Nat
  deriving DecidableEq, Repr, Inhabited

/-- A line and a byte column, both counted from zero. -/
structure Position where
  line : Nat := 0
  column : Nat := 0
  deriving DecidableEq, Repr, Inhabited

namespace Position

/-- Positions are ordered by line, and by column within a line. -/
def compare (a b : Position) : Ordering :=
  (Ord.compare a.line b.line).then (Ord.compare a.column b.column)

/-- Whether one position is not after another. -/
def le (a b : Position) : Bool :=
  (compare a b).isLE

/-- The line and the column as numbers from zero, with a colon between. -/
def render (p : Position) : String :=
  toString p.line ++ ":" ++ toString p.column

/-- The line and the column as a person counts them, from one, with a colon between. -/
def renderFromOne (p : Position) : String :=
  toString (p.line + 1) ++ ":" ++ toString (p.column + 1)

end Position

/-- The positions at which a stretch of text starts and ends. -/
structure Location where
  start : Position := {}
  stop : Position := {}
  deriving DecidableEq, Repr, Inhabited

namespace Location

/-- Whether a position is inside, the two ends included. -/
def contains (l : Location) (p : Position) : Bool :=
  l.start.le p && p.le l.stop

/-- The two positions with two dots between. -/
def render (l : Location) : String :=
  l.start.render ++ ".." ++ l.stop.render

end Location

/-- The line structure of a text: the byte offsets just after each line feed, ascending. -/
structure Lines where
  breaks : List Nat
  deriving DecidableEq, Repr

namespace Lines

/-- The offsets just after each line feed of a text that starts at `offset`. -/
def breaksFrom (offset : Nat) : List Char → List Nat
  | [] => []
  | c :: rest =>
      if c = '\n' then (offset + 1) :: breaksFrom (offset + 1) rest
      else breaksFrom (offset + c.utf8Size) rest

/-- The line structure of a text. -/
def ofText (text : String) : Lines :=
  ⟨breaksFrom 0 text.toList⟩

/-- The number of lines; a text without a line feed has one. -/
def count (lines : Lines) : Nat :=
  lines.breaks.length + 1

/-- The line of an offset is the number of line breaks up to it, its column the bytes since the
last of them. -/
def position (lines : Lines) (offset : Nat) : Position :=
  let before := lines.breaks.takeWhile (· ≤ offset)
  ⟨before.length, offset - before.getLastD 0⟩

/-- The positions of the two ends of a span. -/
def location (lines : Lines) (span : Span) : Location :=
  ⟨lines.position span.start, lines.position span.stop⟩

/-- Every line starts after the offset at which the text starts. -/
theorem lt_of_mem_breaksFrom {offset b : Nat} {text : List Char}
    (h : b ∈ breaksFrom offset text) : offset < b := by
  induction text generalizing offset with
  | nil => simp [breaksFrom] at h
  | cons c rest ih =>
      by_cases hc : c = '\n'
      · rw [breaksFrom, if_pos hc, List.mem_cons] at h
        rcases h with rfl | h
        · omega
        · have := ih h
          omega
      · rw [breaksFrom, if_neg hc] at h
        have := ih h
        omega

/-- Line starts ascend strictly. -/
theorem pairwise_breaksFrom (offset : Nat) (text : List Char) :
    (breaksFrom offset text).Pairwise (· < ·) := by
  induction text generalizing offset with
  | nil => simp [breaksFrom]
  | cons c rest ih =>
      by_cases hc : c = '\n'
      · simpa [breaksFrom, hc, ih] using fun b hb => lt_of_mem_breaksFrom hb
      · simpa [breaksFrom, hc] using ih _

end Lines

end RoleAudit.Text
