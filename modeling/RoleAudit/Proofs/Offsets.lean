import RoleAudit.Text.Position

/-!
# Offsets and their positions

A line and a column say the same as a byte offset.  The line is the number of line feeds before the
offset, and the column how far the offset is from the place after the last of them; in UTF-8 no
other character holds the byte of a line feed, so both can be told from the bytes alone.  Positions
come in the order of their offsets, past the end of the text too.

A position is looked up in the table of line starts, which ascends from nought.  Whatever a search
in it answers, there is a line start at or before the offset, so no step of the look-up fails.

Main statement: `positions_correspond`.
-/

namespace RoleAudit.Text

/-! ### Line feeds among bytes -/

/-- The byte that ends a line. -/
def lineFeed : UInt8 := 10

/-- The bytes of a text in UTF-8. -/
def bytesOf (text : String) : List UInt8 :=
  text.toByteArray.data.toList

theorem bytesOf_eq (text : String) : bytesOf text = text.toList.flatMap String.utf8EncodeChar := by
  rw [bytesOf, ← String.utf8Encode_toList]
  exact List.toList_data_toByteArray

/-- No other character holds the byte of a line feed. -/
theorem lineFeed_notMem {c : Char} (hc : c ≠ '\n') : lineFeed ∉ String.utf8EncodeChar c := by
  have hval : c.val.toNat = c.toNat := rfl
  have hne : c.toNat ≠ 10 := fun h => hc (Char.ext (UInt32.toNat_inj.1 h))
  intro hmem
  have hbyte : ∃ b ∈ (String.utf8EncodeChar c).map UInt8.toNat, b = 10 :=
    ⟨10, List.mem_map_of_mem hmem, rfl⟩
  simp only [String.utf8EncodeChar] at hbyte
  -- every byte of a longer encoding is 128 or more
  split at hbyte
  · simp at hbyte
    omega
  split at hbyte
  · simp at hbyte
    omega
  split at hbyte <;> (simp at hbyte; omega)

/-- The places after the line feeds among bytes, the first of which stands at an offset. -/
def breaksAmong (offset : Nat) : List UInt8 → List Nat
  | [] => []
  | b :: rest =>
      if b = lineFeed then (offset + 1) :: breaksAmong (offset + 1) rest
      else breaksAmong (offset + 1) rest

theorem breaksAmong_append (offset : Nat) (bytes others : List UInt8) :
    breaksAmong offset (bytes ++ others) =
      breaksAmong offset bytes ++ breaksAmong (offset + bytes.length) others := by
  induction bytes generalizing offset with
  | nil => rfl
  | cons b bytes ih =>
      have hadd : offset + 1 + bytes.length = offset + (b :: bytes).length := by
        rw [List.length_cons]
        omega
      by_cases hb : b = lineFeed
      · simp only [List.cons_append, breaksAmong, if_pos hb, ih, hadd]
      · simp only [List.cons_append, breaksAmong, if_neg hb, ih, hadd]

theorem length_breaksAmong (offset : Nat) (bytes : List UInt8) :
    (breaksAmong offset bytes).length = bytes.count lineFeed := by
  induction bytes generalizing offset with
  | nil => rfl
  | cons b bytes ih =>
      by_cases hb : b = lineFeed
      · rw [breaksAmong, if_pos hb, List.length_cons, ih, hb, List.count_cons_self]
      · rw [breaksAmong, if_neg hb, ih, List.count_cons_of_ne hb]

theorem breaksAmong_eq_nil {offset : Nat} {bytes : List UInt8} (h : lineFeed ∉ bytes) :
    breaksAmong offset bytes = [] := by
  apply List.eq_nil_of_length_eq_zero
  rw [length_breaksAmong, List.count_eq_zero_of_not_mem h]

/-- The lines of a text start after the line feeds among its bytes. -/
theorem breaksFrom_eq (offset : Nat) (text : List Char) :
    Lines.breaksFrom offset text = breaksAmong offset (text.flatMap String.utf8EncodeChar) := by
  induction text generalizing offset with
  | nil => rfl
  | cons c text ih =>
      rw [List.flatMap_cons, breaksAmong_append, String.length_utf8EncodeChar, ← ih]
      by_cases hc : c = '\n'
      · subst hc
        rfl
      · rw [Lines.breaksFrom, if_neg hc, breaksAmong_eq_nil (lineFeed_notMem hc), List.nil_append]

theorem mem_breaksAmong_iff {offset b : Nat} {bytes : List UInt8} :
    b ∈ breaksAmong offset bytes ↔ ∃ k, b = offset + k + 1 ∧ bytes[k]? = some lineFeed := by
  induction bytes generalizing offset with
  | nil => simp [breaksAmong]
  | cons first bytes ih =>
      have hlater : (∃ k, b = offset + 1 + k + 1 ∧ bytes[k]? = some lineFeed) ↔
          ∃ k, b = offset + (k + 1) + 1 ∧ (first :: bytes)[k + 1]? = some lineFeed := by
        simp only [List.getElem?_cons_succ, Nat.add_assoc, Nat.add_comm 1]
      by_cases hfirst : first = lineFeed
      · rw [breaksAmong, if_pos hfirst, List.mem_cons, ih, hlater]
        constructor
        · rintro (rfl | ⟨k, h⟩)
          · exact ⟨0, rfl, congrArg some hfirst⟩
          · exact ⟨k + 1, h⟩
        · rintro ⟨k, h⟩
          cases k with
          | zero => exact Or.inl h.1
          | succ k => exact Or.inr ⟨k, h⟩
      · rw [breaksAmong, if_neg hfirst, ih, hlater]
        constructor
        · rintro ⟨k, h⟩
          exact ⟨k + 1, h⟩
        · rintro ⟨k, h⟩
          cases k with
          | zero => exact absurd (Option.some.inj h.2) hfirst
          | succ k => exact ⟨k, h⟩

/-- The line of an offset starts after the last line feed before it, or with the bytes if there is
none. -/
inductive StartsLine (bytes : List UInt8) (offset : Nat) : Nat → Prop
  | first (h : ∀ k < offset, bytes[k]? ≠ some lineFeed) : StartsLine bytes offset 0
  | after {k : Nat} (hk : k < offset) (hfeed : bytes[k]? = some lineFeed)
      (hlast : ∀ j < offset, bytes[j]? = some lineFeed → j ≤ k) : StartsLine bytes offset (k + 1)

/-! ### Ascending tables -/

/-- What a search for a number in an ascending table can answer: where the number stands, or else
how many numbers come before it. -/
inductive Answer (table : List Nat) (n : Nat) where
  | found (place : Nat) (h : table[place]? = some n)
  | missing (place : Nat) (hplace : place ≤ table.length) (hbefore : ∀ m ∈ table.take place, m < n)
      (hafter : ∀ m ∈ table.drop place, n < m)

/-- The numbers of a table up to `n` are those before a cut that has the others behind it. -/
theorem takeWhile_le_append {front back : List Nat} {n : Nat} (hfront : ∀ m ∈ front, m ≤ n)
    (hback : ∀ m ∈ back, n < m) : (front ++ back).takeWhile (· ≤ n) = front := by
  have hnone : back.takeWhile (· ≤ n) = [] := by
    cases back with
    | nil => rfl
    | cons m back =>
        have hlt := hback m List.mem_cons_self
        exact List.takeWhile_cons_of_neg (by simpa using hlt)
  rw [List.takeWhile_append_of_pos (by simpa using hfront), hnone, List.append_nil]

theorem takeWhile_le_take {table : List Nat} {n cut : Nat} (hfront : ∀ m ∈ table.take cut, m ≤ n)
    (hback : ∀ m ∈ table.drop cut, n < m) : table.takeWhile (· ≤ n) = table.take cut := by
  have h := takeWhile_le_append hfront hback
  rwa [List.take_append_drop] at h

section Ascending

variable {table : List Nat} (hascending : table.Pairwise (· < ·))
include hascending

/-- The numbers up to one that stands in an ascending table. -/
theorem takeWhile_le_of_getElem? {n place : Nat} (h : table[place]? = some n) :
    table.takeWhile (· ≤ n) = table.take (place + 1) := by
  rw [List.pairwise_iff_getElem] at hascending
  obtain ⟨hplace, rfl⟩ := List.getElem?_eq_some_iff.1 h
  apply takeWhile_le_take
  · intro m hm
    obtain ⟨i, hi, rfl⟩ := List.mem_take_iff_getElem.1 hm
    by_cases heq : i = place
    · subst heq
      exact Nat.le_refl _
    · exact Nat.le_of_lt (hascending i place _ _ (by omega))
  · intro m hm
    obtain ⟨i, hi, rfl⟩ := List.mem_drop_iff_getElem.1 hm
    exact hascending place (place + 1 + i) _ _ (by omega)

/-- An ascending table can be cut behind the numbers up to `n`. -/
theorem exists_cut (n : Nat) : ∃ cut ≤ table.length,
    (∀ m ∈ table.take cut, m ≤ n) ∧ ∀ m ∈ table.drop cut, n < m := by
  induction table with
  | nil => exact ⟨0, Nat.le_refl _, by simp, by simp⟩
  | cons first table ih =>
      obtain ⟨hfirst, hrest⟩ := List.pairwise_cons.1 hascending
      by_cases hle : first ≤ n
      · obtain ⟨cut, hcut, hfront, hback⟩ := ih hrest
        exact ⟨cut + 1, Nat.succ_le_succ hcut, List.forall_mem_cons.2 ⟨hle, hfront⟩, hback⟩
      · have hlt : n < first := Nat.lt_of_not_le hle
        refine ⟨0, Nat.zero_le _, by simp, List.forall_mem_cons.2 ⟨hlt, fun m hm => ?_⟩⟩
        exact Nat.lt_trans hlt (hfirst m hm)

/-- Every search has an answer. -/
theorem Answer.nonempty (n : Nat) : Nonempty (Answer table n) := by
  by_cases h : n ∈ table
  · obtain ⟨place, hplace⟩ := List.getElem?_of_mem h
    exact ⟨.found place hplace⟩
  · obtain ⟨cut, hcut, hfront, hback⟩ := exists_cut hascending n
    refine ⟨.missing cut hcut (fun m hm => ?_) hback⟩
    have hne : m ≠ n := by
      rintro rfl
      exact h (List.mem_of_mem_take hm)
    exact Nat.lt_of_le_of_ne (hfront m hm) hne

end Ascending

namespace Answer

variable {table : List Nat} {n : Nat}

/-- The place of the last number that is not beyond the one searched for.  Before the first number
of the table there is none. -/
def last? : Answer table n → Option Nat
  | found place _ => some place
  | missing 0 _ _ _ => none
  | missing (place + 1) _ _ _ => some place

/-- If some numbers are not beyond the one searched for, every answer tells the last of them. -/
theorem last?_eq (hascending : table.Pairwise (· < ·)) {place : Nat}
    (hlength : (table.takeWhile (· ≤ n)).length = place + 1) (answer : Answer table n) :
    answer.last? = some place := by
  cases answer with
  | found place' h =>
      obtain ⟨hlt, -⟩ := List.getElem?_eq_some_iff.1 h
      rw [takeWhile_le_of_getElem? hascending h, List.length_take] at hlength
      show some place' = some place
      congr 1
      omega
  | missing place' hplace hbefore hafter =>
      rw [takeWhile_le_take (fun m hm => Nat.le_of_lt (hbefore m hm)) hafter, List.length_take]
        at hlength
      obtain rfl : place' = place + 1 := by omega
      rfl

end Answer

theorem Position.compare_swap (p q : Position) : (p.compare q).swap = q.compare p := by
  rw [compare, compare, Ordering.swap_then, Nat.compare_swap, Nat.compare_swap]

/-! ### Looking positions up -/

namespace Lines

/-- The offsets at which the lines start. -/
def starts (lines : Lines) : List Nat :=
  0 :: lines.breaks

/-- The position of an offset by the answer of a search for it in the table of line starts, unless
no line starts at or before the offset. -/
def positionAt? (lines : Lines) {offset : Nat} (answer : Answer lines.starts offset) :
    Option Position := do
  let line ← answer.last?
  let start ← lines.starts[line]?
  if start ≤ offset then some ⟨line, offset - start⟩ else none

/-- The offset at which the line of an offset starts. -/
def startOf (lines : Lines) (offset : Nat) : Nat :=
  (lines.breaks.takeWhile (· ≤ offset)).getLastD 0

section Text

variable (text : String)

theorem breaks_ofText : (ofText text).breaks = breaksAmong 0 (bytesOf text) := by
  rw [ofText, breaksFrom_eq, bytesOf_eq]

theorem pairwise_starts : (ofText text).starts.Pairwise (· < ·) :=
  List.pairwise_cons.2 ⟨fun _ => lt_of_mem_breaksFrom, pairwise_breaksFrom 0 text.toList⟩

/-- Of the line starts, those up to an offset follow the line feeds before it. -/
theorem takeWhile_breaks_ofText (offset : Nat) :
    (ofText text).breaks.takeWhile (· ≤ offset) = breaksAmong 0 ((bytesOf text).take offset) := by
  rw [breaks_ofText]
  conv => lhs; rw [← List.take_append_drop offset (bytesOf text), breaksAmong_append]
  apply takeWhile_le_append
  · intro b hb
    obtain ⟨k, rfl, hk⟩ := mem_breaksAmong_iff.1 hb
    obtain ⟨hlt, -⟩ := List.getElem?_eq_some_iff.1 hk
    rw [List.length_take] at hlt
    omega
  · intro b hb
    obtain ⟨k, rfl, hk⟩ := mem_breaksAmong_iff.1 hb
    obtain ⟨hlt, -⟩ := List.getElem?_eq_some_iff.1 hk
    rw [List.length_drop] at hlt
    rw [List.length_take]
    omega

/-- The line of an offset starts at or before it. -/
theorem startOf_le (offset : Nat) : (ofText text).startOf offset ≤ offset := by
  rw [startOf, List.getLastD_eq_getLast?]
  cases hlast : ((ofText text).breaks.takeWhile (· ≤ offset)).getLast? with
  | none => exact Nat.zero_le _
  | some b => simpa using List.all_eq_true.1 List.all_takeWhile b (List.mem_of_getLast? hlast)

/-- The line of an offset is the place of its start in the table. -/
theorem getElem?_starts (offset : Nat) :
    (ofText text).starts[((ofText text).position offset).line]? =
      some ((ofText text).startOf offset) := by
  let before := (ofText text).breaks.takeWhile (· ≤ offset)
  have hstarts : (ofText text).starts =
      (0 :: before) ++ (ofText text).breaks.dropWhile (· ≤ offset) := by
    rw [List.cons_append, List.takeWhile_append_dropWhile]
    rfl
  have hlast : (0 :: before)[before.length]? = some (before.getLastD 0) := by
    rw [List.getLastD_eq_getLast?, ← List.getLast?_cons, List.getLast?_eq_getElem?]
    rfl
  show (ofText text).starts[before.length]? = some (before.getLastD 0)
  rw [hstarts, List.getElem?_append_left (by simp), hlast]

/-- Whatever a search for an offset answers, looking up its position succeeds. -/
theorem positionAt?_eq (offset : Nat) (answer : Answer (ofText text).starts offset) :
    (ofText text).positionAt? answer = some ((ofText text).position offset) := by
  have hlength : ((ofText text).starts.takeWhile (· ≤ offset)).length =
      ((ofText text).position offset).line + 1 := by
    rw [starts, List.takeWhile_cons_of_pos (by simp)]
    rfl
  have hline := answer.last?_eq (pairwise_starts text) hlength
  rw [positionAt?, hline, Option.bind_eq_bind, Option.bind_some, getElem?_starts]
  show (if _ then _ else _) = _
  rw [if_pos (startOf_le text offset)]
  rfl

/-- The line of an offset is the number of line feeds before it. -/
theorem line_position (offset : Nat) : ((ofText text).position offset).line =
    ((bytesOf text).take offset).count lineFeed := by
  show ((ofText text).breaks.takeWhile (· ≤ offset)).length = _
  rw [takeWhile_breaks_ofText, length_breaksAmong]

theorem mem_takeWhile_breaks_iff {offset b : Nat} :
    b ∈ (ofText text).breaks.takeWhile (· ≤ offset) ↔
      ∃ k < offset, b = k + 1 ∧ (bytesOf text)[k]? = some lineFeed := by
  rw [takeWhile_breaks_ofText, mem_breaksAmong_iff]
  simp only [List.getElem?_take, Nat.zero_add]
  constructor
  · rintro ⟨k, rfl, hk⟩
    by_cases hlt : k < offset
    · rw [if_pos hlt] at hk
      exact ⟨k, hlt, rfl, hk⟩
    · rw [if_neg hlt] at hk
      cases hk
  · rintro ⟨k, hlt, rfl, hk⟩
    exact ⟨k, rfl, by rwa [if_pos hlt]⟩

theorem startsLine_startOf (offset : Nat) :
    StartsLine (bytesOf text) offset ((ofText text).startOf offset) := by
  have hmem := @mem_takeWhile_breaks_iff text offset
  have hsorted : ((ofText text).breaks.takeWhile (· ≤ offset)).Pairwise (· < ·) :=
    (pairwise_starts text).tail.sublist (List.takeWhile_sublist _)
  rw [startOf, List.getLastD_eq_getLast?]
  generalize (ofText text).breaks.takeWhile (· ≤ offset) = before at hmem hsorted
  cases hlast : before.getLast? with
  | none =>
      obtain rfl := List.getLast?_eq_none_iff.1 hlast
      refine .first fun k hk hfeed => ?_
      exact List.not_mem_nil (hmem.2 ⟨k, hk, rfl, hfeed⟩)
  | some last =>
      obtain ⟨front, rfl⟩ := List.getLast?_eq_some_iff.1 hlast
      obtain ⟨k, hk, rfl, hfeed⟩ := hmem.1 (List.mem_append_right _ List.mem_cons_self)
      refine .after hk hfeed fun j hj hfeed' => ?_
      -- the line after this line feed starts no later than the last one
      rcases List.mem_append.1 (hmem.2 ⟨j, hj, rfl, hfeed'⟩) with hfront | hback
      · have hlt := (List.pairwise_append.1 hsorted).2.2 _ hfront _ List.mem_cons_self
        omega
      · have heq := List.mem_singleton.1 hback
        omega

theorem count_ofText : (ofText text).count = (bytesOf text).count lineFeed + 1 := by
  rw [count, breaks_ofText, length_breaksAmong]

/-! ### The order of positions -/

/-- Offsets in order have lines in order, and on one line they have one start. -/
theorem line_lt_or_eq {a b : Nat} (h : a ≤ b) :
    ((ofText text).position a).line < ((ofText text).position b).line ∨
      ((ofText text).position a).line = ((ofText text).position b).line ∧
        (ofText text).startOf a = (ofText text).startOf b := by
  obtain ⟨d, rfl⟩ := Nat.exists_eq_add_of_le h
  -- further on, line starts can only be added
  obtain ⟨more, hmore⟩ : ∃ more, (ofText text).breaks.takeWhile (· ≤ a + d) =
      (ofText text).breaks.takeWhile (· ≤ a) ++ more := by
    rw [takeWhile_breaks_ofText, takeWhile_breaks_ofText, List.take_add, breaksAmong_append]
    exact ⟨_, rfl⟩
  simp only [position, startOf, hmore]
  cases more with
  | nil =>
      right
      rw [List.append_nil]
      exact ⟨rfl, rfl⟩
  | cons b more =>
      left
      rw [List.length_append, List.length_cons]
      omega

theorem compare_position_of_lt {a b : Nat} (h : a < b) :
    ((ofText text).position a).compare ((ofText text).position b) = .lt := by
  rw [Position.compare]
  rcases line_lt_or_eq text (Nat.le_of_lt h) with hline | ⟨hline, hstart⟩
  · rw [Nat.compare_eq_lt.2 hline]
    rfl
  · have hle := startOf_le text a
    have hcolumn : ((ofText text).position a).column < ((ofText text).position b).column := by
      show a - (ofText text).startOf a < b - (ofText text).startOf b
      omega
    rw [Nat.compare_eq_eq.2 hline, Nat.compare_eq_lt.2 hcolumn]
    rfl

/-- Positions are in the order of their offsets. -/
theorem compare_position (a b : Nat) :
    ((ofText text).position a).compare ((ofText text).position b) = Ord.compare a b := by
  rcases Nat.lt_trichotomy a b with h | rfl | h
  · rw [compare_position_of_lt text h, Nat.compare_eq_lt.2 h]
  · simp [Position.compare]
  · rw [← Position.compare_swap, compare_position_of_lt text h, Nat.compare_eq_gt.2 h]
    rfl

theorem le_position_iff (a b : Nat) :
    ((ofText text).position a).le ((ofText text).position b) = true ↔ a ≤ b := by
  rw [Position.le, compare_position, Nat.isLE_compare]

end Text

/-- A text has one line more than line feeds, and every byte offset, past its end too, has a line
and a column in it: the number of line feeds before the offset, and the bytes since the last of
them.  Looking the position up never fails.  Positions have the order of their offsets, so that no
two offsets share one, and a stretch holds the positions of the offsets between its two ends. -/
theorem positions_correspond (text : String) :
    (ofText text).count = (bytesOf text).count lineFeed + 1 ∧
      (∀ offset,
        ((ofText text).position offset).line = ((bytesOf text).take offset).count lineFeed ∧
        (∃ start, StartsLine (bytesOf text) offset start ∧
          start + ((ofText text).position offset).column = offset) ∧
        Nonempty (Answer (ofText text).starts offset) ∧
        ∀ answer : Answer (ofText text).starts offset,
          (ofText text).positionAt? answer = some ((ofText text).position offset)) ∧
      (∀ a b, ((ofText text).position a).compare ((ofText text).position b) = .lt ↔ a < b) ∧
      (∀ a b, (ofText text).position a = (ofText text).position b ↔ a = b) ∧
      ∀ a b offset, ((ofText text).location ⟨a, b⟩).contains ((ofText text).position offset) = true ↔
        a ≤ offset ∧ offset ≤ b := by
  refine ⟨count_ofText text, fun offset => ⟨line_position text offset, ?_,
    Answer.nonempty (pairwise_starts text) offset, positionAt?_eq text offset⟩, ?_, ?_, ?_⟩
  · exact ⟨_, startsLine_startOf text offset, Nat.add_sub_cancel' (startOf_le text offset)⟩
  · intro a b
    rw [compare_position, Nat.compare_eq_lt]
  · intro a b
    constructor
    · intro h
      have hcompare := compare_position text a b
      rw [h, compare_position, Nat.compare_eq_eq.2 rfl] at hcompare
      exact Nat.compare_eq_eq.1 hcompare.symm
    · rintro rfl
      rfl
  · intro a b offset
    rw [location, Location.contains, Bool.and_eq_true, le_position_iff, le_position_iff]

end Lines

end RoleAudit.Text
