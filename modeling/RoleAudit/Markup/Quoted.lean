import RoleAudit.Text.Blank

/-!
# Quoted text

The inside of a quoted text in code, up to the closing quote, with its escapes
resolved.  A backslash is followed by a name (`n t r b f v 0`), by `x` and two
hexadecimal digits, by `u` and four, by `u` and any number of them in braces, by
a line end, which stands for nothing, or by any other character, which stands
for itself.

Main statement: `read_shorter`, which says that reading a quoted text uses up at
least its closing quote.
-/

namespace RoleAudit.Markup.Quoted

open RoleAudit.Text (byteLength)

/-- What was read from the front of a text: the value, the bytes it took, and what follows. -/
structure Reading where
  value : List Char
  width : Nat
  rest : List Char
  deriving DecidableEq, Repr

/-- The value of a hexadecimal digit. -/
def hexDigit? (c : Char) : Option Nat :=
  if '0' ≤ c ∧ c ≤ '9' then some (c.toNat - '0'.toNat)
  else if 'a' ≤ c ∧ c ≤ 'f' then some (c.toNat - 'a'.toNat + 10)
  else if 'A' ≤ c ∧ c ≤ 'F' then some (c.toNat - 'A'.toNat + 10)
  else none

/-- The number that hexadecimal digits write after the digits already read. -/
def hexFrom (value : Nat) : List Char → Option Nat
  | [] => some value
  | c :: rest => (hexDigit? c).bind fun digit => hexFrom (16 * value + digit) rest

/-- A hexadecimal number: one digit or more, after at most one plus sign. -/
def hex? : List Char → Option Nat
  | '+' :: c :: rest => hexFrom 0 (c :: rest)
  | c :: rest => hexFrom 0 (c :: rest)
  | [] => none

/-- The character that a hexadecimal number names, if it names one. -/
def scalar? (digits : List Char) : Option Char :=
  (hex? digits).bind fun n => if n.isValidChar then some (Char.ofNat n) else none

/-- The text before the first `stop`, and the text after it. -/
def cut? (stop : Char) : List Char → Option (List Char × List Char)
  | [] => none
  | c :: rest =>
      if c = stop then some ([], rest)
      else (cut? stop rest).map fun parts => (c :: parts.1, parts.2)

/-- The characters that have an escape of their own. -/
def named? : Char → Option Char
  | 'n' => some '\n'
  | 't' => some '\t'
  | 'r' => some '\r'
  | 'b' => some '\x08'
  | 'f' => some '\x0c'
  | 'v' => some '\x0b'
  | '0' => some '\x00'
  | _ => none

/-- An escape of exactly `count` digits, after its one-letter name. -/
def fixed? (count : Nat) (text : List Char) : Option Reading :=
  if count ≤ text.length then
    (scalar? (text.take count)).map fun c =>
      ⟨[c], 1 + byteLength (text.take count), text.drop count⟩
  else none

/-- An escape of any number of digits, after the brace that opens it. -/
def braced? (text : List Char) : Option Reading :=
  (cut? '\x7d' text).bind fun parts =>
    (scalar? parts.1).map fun c => ⟨[c], 3 + byteLength parts.1, parts.2⟩

/-- Read what follows a backslash. -/
def escape? : List Char → Option Reading
  | [] => none
  | 'x' :: rest => fixed? 2 rest
  | 'u' :: '\x7b' :: rest => braced? rest
  | 'u' :: rest => fixed? 4 rest
  | '\r' :: '\n' :: rest => some ⟨[], 2, rest⟩
  | '\r' :: rest => some ⟨[], 1, rest⟩
  | '\n' :: rest => some ⟨[], 1, rest⟩
  | c :: rest => some ⟨[(named? c).getD c], c.utf8Size, rest⟩

theorem length_cut? {stop : Char} {text : List Char} {parts : List Char × List Char}
    (h : cut? stop text = some parts) : parts.2.length < text.length := by
  induction text generalizing parts with
  | nil => simp [cut?] at h
  | cons c rest ih =>
      by_cases hc : c = stop
      · simp [cut?, hc] at h
        simp [← h]
      · simp only [cut?, hc, if_false, Option.map_eq_some_iff] at h
        obtain ⟨parts', hparts, rfl⟩ := h
        have := ih hparts
        simp
        omega

theorem length_fixed? {count : Nat} {text : List Char} {r : Reading}
    (h : fixed? count text = some r) : r.rest.length ≤ text.length := by
  unfold fixed? at h
  split at h
  · obtain ⟨c, -, rfl⟩ := Option.map_eq_some_iff.1 h
    simp
  · cases h

theorem length_braced? {text : List Char} {r : Reading}
    (h : braced? text = some r) : r.rest.length < text.length := by
  unfold braced? at h
  obtain ⟨parts, hparts, h⟩ := Option.bind_eq_some_iff.1 h
  obtain ⟨c, -, rfl⟩ := Option.map_eq_some_iff.1 h
  exact length_cut? hparts

theorem length_escape? {text : List Char} {r : Reading}
    (h : escape? text = some r) : r.rest.length < text.length := by
  unfold escape? at h
  split at h
  · cases h
  · have := length_fixed? h
    simp
    omega
  · have := length_braced? h
    simp
    omega
  · have := length_fixed? h
    simp
    omega
  all_goals
    cases h
    simp only [List.length_cons]
    omega

/-- Read up to the closing quote.  A line feed ends the attempt unless `multiline` is set, and so
does an escape that names no character. -/
def read (quote : Char) (multiline : Bool) (text : List Char) : Option Reading :=
  match text with
  | [] => none
  | c :: rest =>
      if c = quote then some ⟨[], c.utf8Size, rest⟩
      else if c = '\n' && !multiline then none
      else if c = '\\' then
        match _h : escape? rest with
        | none => none
        | some e => (read quote multiline e.rest).map fun r =>
            ⟨e.value ++ r.value, 1 + e.width + r.width, r.rest⟩
      else (read quote multiline rest).map fun r =>
        ⟨c :: r.value, c.utf8Size + r.width, r.rest⟩
termination_by text.length
decreasing_by
  · have := length_escape? _h
    simp
    omega
  · simp

/-- Reading a quoted text uses up at least its closing quote. -/
theorem read_shorter {quote : Char} {multiline : Bool} {text : List Char} {r : Reading}
    (h : read quote multiline text = some r) : r.rest.length < text.length := by
  fun_induction read quote multiline text generalizing r with
  | case1 => cases h
  | case2 =>
      cases h
      simp
  | case3 => cases h
  | case4 => cases h
  | case5 rest e he _ _ ih =>
      obtain ⟨s, hs, rfl⟩ := Option.map_eq_some_iff.1 h
      have := ih hs
      have := length_escape? he
      simp
      omega
  | case6 c rest _ _ _ ih =>
      obtain ⟨s, hs, rfl⟩ := Option.map_eq_some_iff.1 h
      have := ih hs
      simp
      omega

end RoleAudit.Markup.Quoted
