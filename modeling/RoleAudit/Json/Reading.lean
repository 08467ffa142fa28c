import RoleAudit.Json.Fault
import RoleAudit.Markup.Quoted

/-!
# Reading JSON

Values are read off the front of a text.  A value may nest lists and objects up
to a bound, which is counted down.  A whole number that 64 bits do not hold, and
any number with a fraction or an exponent, is computed as a double from its
leading digits and a power of ten.
-/

namespace RoleAudit.Json

open RoleAudit.Text (byteLength)

/-- A way to read a value off the front of a text. -/
abbrev Reader (α : Type) := List Char → Except Fault (α × List Char)

/-- A fault at the next character, or at the end of the text. -/
def faultNext {α : Type} (problem : Problem) (rest : List Char) : Except Fault α :=
  .error ⟨problem, rest, 1⟩

/-- A fault right after what has been read. -/
def faultHere {α : Type} (problem : Problem) (rest : List Char) : Except Fault α :=
  .error ⟨problem, rest, 0⟩

/-- The characters that may stand around values. -/
def isSpace (c : Char) : Bool :=
  c = ' ' || c = '\n' || c = '\t' || c = '\r'

/-- The text after the spaces at its front. -/
def skipSpace (text : List Char) : List Char :=
  text.dropWhile isSpace

/-- Read the letters of a word. -/
def word : List Char → List Char → Except Fault (List Char)
  | [], text => .ok text
  | _ :: _, [] => faultHere .endInValue []
  | expected :: others, c :: rest =>
      if c = expected then word others rest else faultNext .expectedWord (c :: rest)

/-! ## Strings -/

/-- Read four hexadecimal digits. -/
def hex4 (text : List Char) : Except Fault (Nat × List Char) :=
  if byteLength text < 4 then faultHere .endInString []
  else match text with
    | a :: b :: c :: d :: rest =>
        match [a, b, c, d].mapM Markup.Quoted.hexDigit? with
        | some [w, x, y, z] => .ok (((w * 16 + x) * 16 + y) * 16 + z, rest)
        | _ => .error ⟨.invalidEscape, text, 4⟩
    | _ => .error ⟨.invalidEscape, text, 4⟩

/-- Whether a number is the first of a pair of surrogates. -/
def isLeading (n : Nat) : Bool := 0xD800 ≤ n && n ≤ 0xDBFF

/-- Whether a number is the second of a pair of surrogates. -/
def isTrailing (n : Nat) : Bool := 0xDC00 ≤ n && n ≤ 0xDFFF

/-- Read the second half of a pair of surrogates, an escape of its own. -/
def trailing : List Char → Except Fault (Nat × List Char)
  | '\\' :: 'u' :: rest =>
      (hex4 rest).bind fun second =>
        if isTrailing second.1 then .ok second else faultHere .loneSurrogate second.2
  | ['\\'] => faultHere .endInString []
  | '\\' :: rest => faultNext .endOfSurrogate rest
  | [] => faultHere .endInString []
  | rest => faultNext .endOfSurrogate rest

/-- Read the digits of an escape by number, and a second escape if the first needs one. -/
def unicodeEscape (text : List Char) : Except Fault (Char × List Char) :=
  (hex4 text).bind fun first =>
    if isTrailing first.1 then faultHere .loneSurrogate first.2
    else if isLeading first.1 then
      (trailing first.2).map fun second =>
        (Char.ofNat ((first.1 - 0xD800) * 0x400 + (second.1 - 0xDC00) + 0x10000), second.2)
    else .ok (Char.ofNat first.1, first.2)

/-- Read what follows a backslash. -/
def escape : List Char → Except Fault (Char × List Char)
  | [] => faultHere .endInString []
  | 'u' :: rest => unicodeEscape rest
  | '"' :: rest => .ok ('"', rest)
  | '\\' :: rest => .ok ('\\', rest)
  | '/' :: rest => .ok ('/', rest)
  | 'b' :: rest => .ok ('\x08', rest)
  | 'f' :: rest => .ok ('\x0c', rest)
  | 'n' :: rest => .ok ('\n', rest)
  | 'r' :: rest => .ok ('\r', rest)
  | 't' :: rest => .ok ('\t', rest)
  | rest => faultNext .invalidEscape rest

theorem length_hex4 {text rest : List Char} {n : Nat} (h : hex4 text = .ok (n, rest)) :
    rest.length < text.length := by
  unfold hex4 at h
  split at h
  · cases h
  · split at h
    · split at h
      · cases h
        simp only [List.length_cons]
        omega
      · cases h
    · cases h

theorem length_trailing {text rest : List Char} {n : Nat} (h : trailing text = .ok (n, rest)) :
    rest.length < text.length := by
  unfold trailing at h
  split at h
  · next rest' =>
      cases hsecond : hex4 rest' with
      | error e => simp [hsecond, Except.bind] at h
      | ok second =>
          simp only [hsecond, Except.bind] at h
          split at h
          · cases h
            have := length_hex4 hsecond
            simp only [List.length_cons]
            omega
          · cases h
  all_goals cases h

theorem length_unicodeEscape {text rest : List Char} {c : Char}
    (h : unicodeEscape text = .ok (c, rest)) : rest.length < text.length := by
  unfold unicodeEscape at h
  cases hfirst : hex4 text with
  | error e => simp [hfirst, Except.bind] at h
  | ok first =>
      have hlength := length_hex4 hfirst
      simp only [hfirst, Except.bind] at h
      split at h
      · cases h
      split at h
      · cases hsecond : trailing first.2 with
        | error e => simp [hsecond, Except.map] at h
        | ok second =>
            have := length_trailing hsecond
            simp only [hsecond, Except.map, Except.ok.injEq, Prod.mk.injEq] at h
            obtain ⟨-, rfl⟩ := h
            omega
      · simp only [Except.ok.injEq, Prod.mk.injEq] at h
        obtain ⟨-, rfl⟩ := h
        exact hlength

theorem length_escape {text rest : List Char} {c : Char}
    (h : escape text = .ok (c, rest)) : rest.length < text.length := by
  unfold escape at h
  split at h
  · cases h
  · have := length_unicodeEscape h
    simp only [List.length_cons]
    omega
  all_goals
    cases h
    try simp

/-- Read the inside of a string, up to its closing quote. -/
def string (text : List Char) : Except Fault (List Char × List Char) :=
  match text with
  | [] => faultHere .endInString []
  | c :: rest =>
      if c = '"' then .ok ([], rest)
      else if c = '\\' then
        match _h : escape rest with
        | .error e => .error e
        | .ok (d, after) => (string after).map fun read => (d :: read.1, read.2)
      else if c.toNat < 0x20 then faultNext .controlCharacter (c :: rest)
      else (string rest).map fun read => (c :: read.1, read.2)
termination_by text.length
decreasing_by
  · have := length_escape _h
    simp
    omega
  · simp

/-! ## Numbers -/

/-- The digits at the front of a text, and the text after them. -/
def digits (text : List Char) : List Char × List Char :=
  (text.takeWhile Char.isDigit, text.dropWhile Char.isDigit)

/-- The leading digits of a number: their value, which 64 bits hold, and how many were used and
left out. -/
structure Leading where
  value : Nat
  used : Nat
  omitted : Nat

/-- Append digits to a number, up to the first that 64 bits do not hold any more. -/
def Leading.append (value : Nat) : List Char → Leading
  | [] => ⟨value, 0, 0⟩
  | c :: rest =>
      let next := 10 * value + (c.toNat - '0'.toNat)
      if next < Nat.pow 2 64 then
        let more := append next rest
        ⟨more.value, more.used + 1, more.omitted⟩
      else ⟨value, 0, rest.length + 1⟩

/-- A power of ten as a double. -/
def tenTo (exponent : Nat) : Float :=
  Float.ofScientific 1 false exponent

/-- Divide by a power of ten, by steps that a double can hold. -/
def divideByTens (value : Float) (exponent : Nat) : Float :=
  if exponent ≤ 308 then value / tenTo exponent
  else if value == 0 then value
  else divideByTens (value / tenTo 308) (exponent - 308)
termination_by exponent

/-- A whole number times a power of ten as a double, unless that is too great. -/
def scale? (value : Nat) (exponent : Int) : Option Float :=
  let whole := Float.ofNat value
  if exponent < 0 then some (divideByTens whole (-exponent).toNat)
  else if exponent ≤ 308 then
    let product := whole * tenTo exponent.toNat
    if product.isInf then none else some product
  else if value = 0 then some whole
  else none

/-- A number given by its digits and a power of ten, with the text after it. -/
def scaled (negative : Bool) (value : Nat) (exponent : Int) (rest : List Char) :
    Except Fault (Number × List Char) :=
  match scale? value exponent with
  | some magnitude => .ok (.float (if negative then -magnitude else magnitude), rest)
  | none => faultHere .outOfRange rest

/-- A whole number with the text after it. -/
def whole (negative : Bool) (value : Nat) : Number :=
  if !negative then .natural value
  else if value = 0 || Nat.pow 2 63 < value then .float (-(Float.ofNat value))
  else .negative value

/-- The text after the first digit that makes an exponent too great for 32 bits. -/
def afterOverflow? (value : Nat) : List Char → Option (List Char)
  | [] => none
  | c :: rest =>
      let next := 10 * value + (c.toNat - '0'.toNat)
      if next < Nat.pow 2 31 then afterOverflow? next rest else some rest

/-- Read an exponent, after its letter. -/
def exponentPart (negative : Bool) (value : Nat) (exponent : Int) (text : List Char) :
    Except Fault (Number × List Char) :=
  let (down, text) := match text with
    | '+' :: rest => (false, rest)
    | '-' :: rest => (true, rest)
    | _ => (false, text)
  match digits text with
  | ([], []) => faultHere .endInValue []
  | ([], rest) => faultNext .invalidNumber rest
  | (ds, rest) =>
      match afterOverflow? 0 ds with
      | some more =>
          if value ≠ 0 && !down then faultHere .outOfRange (more ++ rest)
          else .ok (.float (if negative then -0.0 else 0.0), rest)
      | none =>
          let power : Int := (Leading.append 0 ds).value
          scaled negative value (if down then exponent - power else exponent + power) rest

/-- Read a fraction, after its point, and an exponent that may follow. -/
def fractionPart (negative : Bool) (value : Nat) (exponent : Int) (text : List Char) :
    Except Fault (Number × List Char) :=
  match digits text with
  | ([], []) => faultHere .endInValue []
  | ([], rest) => faultNext .invalidNumber rest
  | (ds, rest) =>
      let kept := Leading.append value ds
      let exponent := exponent - kept.used
      match rest with
      | 'e' :: rest => exponentPart negative kept.value exponent rest
      | 'E' :: rest => exponentPart negative kept.value exponent rest
      | _ => scaled negative kept.value exponent rest

/-- Read what follows the digits before the point. -/
def numberTail (negative : Bool) (kept : Leading) :
    List Char → Except Fault (Number × List Char)
  | '.' :: rest => fractionPart negative kept.value kept.omitted rest
  | 'e' :: rest => exponentPart negative kept.value kept.omitted rest
  | 'E' :: rest => exponentPart negative kept.value kept.omitted rest
  | rest =>
      if kept.omitted = 0 then .ok (whole negative kept.value, rest)
      else scaled negative kept.value kept.omitted rest

/-- Read a number, after its sign.  A zero stands alone before the point. -/
def number (negative : Bool) : List Char → Except Fault (Number × List Char)
  | [] => faultHere .endInValue []
  | '0' :: rest => match rest with
      | c :: _ =>
          if c.isDigit then faultNext .invalidNumber rest
          else numberTail negative ⟨0, 1, 0⟩ rest
      | [] => numberTail negative ⟨0, 1, 0⟩ rest
  | c :: rest =>
      if c.isDigit then
        let (ds, after) := digits (c :: rest)
        numberTail negative (Leading.append 0 ds) after
      else faultNext .invalidNumber (c :: rest)

/-! ## Values -/

/-- Read the items of a list, up to its closing bracket. -/
def items (item : Reader Value) (first : Bool) (text : List Char) :
    Except Fault (List Value × List Char) :=
  let start : Except Fault (Option (List Char) × List Char) := match skipSpace text with
    | [] => faultNext .endInList []
    | ']' :: rest => .ok (none, rest)
    | c :: rest =>
        if first then .ok (some (c :: rest), [])
        else if c = ',' then match skipSpace rest with
          | [] => faultNext .endInValue []
          | ']' :: rest => faultNext .trailingComma (']' :: rest)
          | next => .ok (some next, [])
        else faultNext .expectedListEnd (c :: rest)
  match start with
  | .error e => .error e
  | .ok (none, rest) => .ok ([], rest)
  | .ok (some next, _) =>
      match item next with
      | .error e => .error e
      | .ok (value, rest) =>
          if rest.length < text.length then
            (items item false rest).map fun read => (value :: read.1, read.2)
          else faultNext .expectedValue rest
termination_by text.length

/-- Read the members of an object, up to its closing brace. -/
def members (item : Reader Value) (first : Bool) (text : List Char) :
    Except Fault (List (String × Value) × List Char) :=
  let start : Except Fault (Option (List Char) × List Char) := match skipSpace text with
    | [] => faultNext .endInObject []
    | '\x7d' :: rest => .ok (none, rest)
    | c :: rest =>
        if first then .ok (some (c :: rest), [])
        else if c = ',' then .ok (some (skipSpace rest), [])
        else faultNext .expectedObjectEnd (c :: rest)
  match start with
  | .error e => .error e
  | .ok (none, rest) => .ok ([], rest)
  | .ok (some ('"' :: next), _) =>
      match string next with
      | .error e => .error e
      | .ok (name, rest) =>
          match skipSpace rest with
          | ':' :: rest =>
              match item rest with
              | .error e => .error e
              | .ok (value, rest) =>
                  if rest.length < text.length then
                    (members item false rest).map fun read =>
                      ((String.ofList name, value) :: read.1, read.2)
                  else faultNext .expectedValue rest
          | [] => faultNext .endInObject []
          | rest => faultNext .expectedColon rest
  | .ok (some [], _) => faultNext .endInValue []
  | .ok (some ('\x7d' :: next), _) => faultNext .trailingComma ('\x7d' :: next)
  | .ok (some next, _) => faultNext .keyNotString next
termination_by text.length

/-- Read a value, given how to read those nested in it, if any more may be. -/
def valueWith (nested : Option (Reader Value)) (text : List Char) :
    Except Fault (Value × List Char) :=
  match skipSpace text with
  | [] => faultNext .endInValue []
  | 'n' :: rest => (word ['u', 'l', 'l'] rest).map fun rest => (.null, rest)
  | 't' :: rest => (word ['r', 'u', 'e'] rest).map fun rest => (.boolean true, rest)
  | 'f' :: rest => (word ['a', 'l', 's', 'e'] rest).map fun rest => (.boolean false, rest)
  | '-' :: rest => (number true rest).map fun read => (.number read.1, read.2)
  | '"' :: rest => (string rest).map fun read => (.string (String.ofList read.1), read.2)
  | '[' :: rest => match nested with
      | none => faultNext .tooDeep ('[' :: rest)
      | some item => (items item true rest).map fun read => (.array read.1, read.2)
  | '\x7b' :: rest => match nested with
      | none => faultNext .tooDeep ('\x7b' :: rest)
      | some item => (members item true rest).map fun read => (.object read.1, read.2)
  | c :: rest =>
      if c.isDigit then (number false (c :: rest)).map fun read => (.number read.1, read.2)
      else faultNext .expectedValue (c :: rest)

/-- Read a value with at most `depth` lists and objects in one another. -/
def valueTo : Nat → Reader Value
  | 0, text => valueWith none text
  | depth + 1, text => valueWith (some (valueTo depth)) text

/-- The greatest number of lists and objects in one another. -/
def maxDepth : Nat := 127

/-- Nothing but spaces may follow what has been read. -/
def atEnd {α : Type} : α × List Char → Except Fault α
  | (value, rest) => match skipSpace rest with
      | [] => .ok value
      | rest => faultNext .trailingText rest

/-- The value that a whole text writes. -/
def parse (source : String) : Except Fault Value :=
  (valueTo maxDepth source.toList).bind atEnd

/-- The members of the object that a whole text writes, in their order. -/
def parseObject (source : String) : Except Fault (List (String × Value)) :=
  match skipSpace source.toList with
  | [] => faultNext .endInValue []
  | '\x7b' :: rest => (members (valueTo (maxDepth - 1)) true rest).bind atEnd
  | '[' :: rest => faultHere (.wrongKind (.array []) "a map") ('[' :: rest)
  | text => (valueWith none text).bind fun read =>
      faultHere (.wrongKind read.1 "a map") read.2

end RoleAudit.Json
