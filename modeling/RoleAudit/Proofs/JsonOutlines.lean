import RoleAudit.Proofs.JsonScalars

/-!
# Reading outlines back

The JSON text of an outline is read as a value of the same shape: texts and numbers as themselves,
lists as arrays and records as objects, every part in its place, whatever its indentation.  The
reader bounds how deep a text may nest and how great a whole number may be, so an outline has to
keep to these bounds, which the predicate `Outline.Fits` says.

* `items_first`, `items_next`, `items_close`, and the same for members — one step of reading a list
  or an object;
* `items_list`, `members_record` — the body of a list or a record, if its parts can be read;
* `valueTo_outline` — an outline in front of a text that ends a number;
* `parse_json` — the whole text of an outline.
-/

namespace RoleAudit.Report

open RoleAudit.Json (Value)

mutual

/-- The JSON value of an outline. -/
def Outline.value : Outline → Value
  | .text value => .string value
  | .number value => .number (.natural value)
  | .list items => .array (itemValues items)
  | .record fields => .object (fieldValues fields)

/-- The values of the items of a list. -/
def itemValues : List Outline → List Value
  | [] => []
  | item :: others => Outline.value item :: itemValues others

/-- The members that fields of a record become. -/
def fieldValues : List (String × Outline) → List (String × Value)
  | [] => []
  | (name, value) :: others => (name, Outline.value value) :: fieldValues others

end

@[simp] theorem itemValues_eq_map (items : List Outline) :
    itemValues items = items.map Outline.value := by
  induction items with
  | nil => rfl
  | cons item items ih => rw [itemValues, ih, List.map_cons]

@[simp] theorem fieldValues_eq_map (fields : List (String × Outline)) :
    fieldValues fields = fields.map fun f => (f.1, Outline.value f.2) := by
  induction fields with
  | nil => rfl
  | cons field fields ih => rw [fieldValues, ih, List.map_cons]

/-- An outline nests at most so many lists and records, and 64 bits hold its numbers. -/
inductive Outline.Fits : Nat → Outline → Prop
  | text {depth : Nat} (value : String) : Fits depth (.text value)
  | number {depth value : Nat} (h : value < Nat.pow 2 64) : Fits depth (.number value)
  | list {depth : Nat} {items : List Outline} (h : ∀ item ∈ items, Fits depth item) :
      Fits (depth + 1) (.list items)
  | record {depth : Nat} {fields : List (String × Outline)} (h : ∀ f ∈ fields, Fits depth f.2) :
      Fits (depth + 1) (.record fields)

end RoleAudit.Report

namespace RoleAudit.Json

open RoleAudit.Report (Outline jsonString newLine jsonItems jsonField jsonFields)

/-! ### Items and members

One step of reading a list or an object.  The reader goes on after an item only if this has used up
some of the text.
-/

section Steps

variable {item : Reader Value} {first : Bool} {c : Char}
  {text more next later after rest name : List Char} {value : Value}

theorem items_close (h : skipSpace text = ']' :: rest) :
    items item first text = .ok ([], rest) := by
  rw [items, h]
  simp

theorem items_first (h : skipSpace text = c :: next) (hc : c ≠ ']')
    (hitem : item (c :: next) = .ok (value, rest)) (hlength : rest.length < text.length) :
    items item true text = (items item false rest).map fun read => (value :: read.1, read.2) := by
  rw [items, h]
  simp [hitem, hlength]

theorem items_next (h : skipSpace text = ',' :: more) (hmore : skipSpace more = c :: next)
    (hc : c ≠ ']') (hitem : item (c :: next) = .ok (value, rest))
    (hlength : rest.length < text.length) :
    items item false text = (items item false rest).map fun read => (value :: read.1, read.2) := by
  rw [items, h]
  simp [hmore, hitem, hlength, hc]

theorem members_close (h : skipSpace text = '\x7d' :: rest) :
    members item first text = .ok ([], rest) := by
  rw [members, h]
  simp

theorem members_first (h : skipSpace text = '"' :: next) (hname : string next = .ok (name, after))
    (hafter : skipSpace after = ':' :: more) (hitem : item more = .ok (value, rest))
    (hlength : rest.length < text.length) :
    members item true text =
      (members item false rest).map fun read =>
        ((String.ofList name, value) :: read.1, read.2) := by
  rw [members, h]
  simp [hname, hafter, hitem, hlength]

theorem members_next (h : skipSpace text = ',' :: next)
    (hnext : skipSpace next = '"' :: later) (hname : string later = .ok (name, after))
    (hafter : skipSpace after = ':' :: more) (hitem : item more = .ok (value, rest))
    (hlength : rest.length < text.length) :
    members item false text =
      (members item false rest).map fun read =>
        ((String.ofList name, value) :: read.1, read.2) := by
  rw [members, h]
  simp [hnext, hname, hafter, hitem, hlength]

end Steps

/-! ### Reading outlines -/

theorem skipSpace_cons {c : Char} (hc : isSpace c = false) (rest : List Char) :
    skipSpace (c :: rest) = c :: rest :=
  List.dropWhile_cons_of_neg (by simp [hc])

theorem skipSpace_newLine {c : Char} (hc : isSpace c = false) (indent : Nat) (rest : List Char) :
    skipSpace (newLine indent ++ c :: rest) = c :: rest := by
  have hspaces : ∀ d ∈ newLine indent, isSpace d = true := by
    simp only [newLine, List.mem_cons, List.mem_replicate]
    rintro d (rfl | ⟨-, rfl⟩) <;> rfl
  rw [skipSpace, List.dropWhile_append_of_pos hspaces]
  exact skipSpace_cons hc rest

theorem isSpace_of_isDigit {c : Char} (h : c.isDigit = true) : isSpace c = false := by
  have hne : ∀ d : Char, d.isDigit = false → c ≠ d := fun _ => ne_of_isDigit h
  simp [isSpace, hne ' ' rfl, hne '\n' rfl, hne '\t' rfl, hne '\r' rfl]

/-- No outline starts with a space or the end of a list. -/
theorem exists_jsonAt_cons (indent : Nat) (o : Outline) :
    ∃ c next, o.jsonAt indent = c :: next ∧ isSpace c = false ∧ c ≠ ']' := by
  match o with
  | .text value => exact ⟨_, _, by rw [Outline.jsonAt, jsonString, List.cons_append], by decide⟩
  | .number value =>
      obtain ⟨c, next, hcons, hc⟩ := exists_toDigits value
      exact ⟨c, next, hcons, isSpace_of_isDigit hc, ne_of_isDigit hc rfl⟩
  | .list [] => exact ⟨'[', [']'], rfl, by decide⟩
  | .list (item :: others) =>
      simp only [Outline.jsonAt, List.cons_append]
      exact ⟨_, _, rfl, by decide⟩
  | .record [] => exact ⟨'\x7b', ['\x7d'], rfl, by decide⟩
  | .record (field :: others) =>
      simp only [Outline.jsonAt, List.cons_append]
      exact ⟨_, _, rfl, by decide⟩

/-- A reader reads an outline in front of whatever ends a number. -/
def ReadsAt (item : Reader Value) (indent : Nat) (o : Outline) : Prop :=
  ∀ rest, EndsNumber rest → item (o.jsonAt indent ++ rest) = .ok (o.value, rest)

theorem endsNumber_jsonItems (indent outer : Nat) (others : List Outline) (rest : List Char) :
    EndsNumber (jsonItems indent others ++ (newLine outer ++ rest)) := by
  cases others with
  | nil => exact endsNumber_cons rfl _
  | cons item others =>
      simp only [jsonItems, List.cons_append]
      exact endsNumber_cons rfl _

/-- The items after the first are read up to the end of their list. -/
theorem items_jsonItems {item : Reader Value} {indent : Nat} {others : List Outline}
    (h : ∀ o ∈ others, ReadsAt item indent o) (outer : Nat) (rest : List Char) :
    items item false (jsonItems indent others ++ (newLine outer ++ ']' :: rest)) =
      .ok (others.map Outline.value, rest) := by
  induction others with
  | nil => exact items_close (skipSpace_newLine rfl outer rest)
  | cons o others ih =>
      obtain ⟨ho, hothers⟩ := List.forall_mem_cons.1 h
      have hread := ho _ (endsNumber_jsonItems indent outer others (']' :: rest))
      -- the reader looks at the first character of an item, which must not end the list
      obtain ⟨c, next, hcons, hspace, hc⟩ := exists_jsonAt_cons indent o
      rw [hcons, List.cons_append] at hread
      simp only [jsonItems, hcons, List.cons_append, List.append_assoc]
      rw [items_next rfl (skipSpace_newLine hspace _ _) hc hread (by simp; omega), ih hothers]
      rfl

/-- The items of a list can be read if each of them can. -/
theorem items_list {item : Reader Value} {indent : Nat} {os : List Outline}
    (h : ∀ o ∈ os, ReadsAt item (indent + 1) o) (rest : List Char) :
    ∃ body, (Outline.list os).jsonAt indent ++ rest = '[' :: body ∧
      items item true body = .ok (os.map Outline.value, rest) := by
  cases os with
  | nil => exact ⟨']' :: rest, rfl, items_close rfl⟩
  | cons o others =>
      obtain ⟨ho, hothers⟩ := List.forall_mem_cons.1 h
      have hread := ho _ (endsNumber_jsonItems (indent + 1) indent others (']' :: rest))
      obtain ⟨c, next, hcons, hspace, hc⟩ := exists_jsonAt_cons (indent + 1) o
      rw [hcons, List.cons_append] at hread
      simp only [Outline.jsonAt, hcons, List.cons_append, List.append_assoc, List.nil_append]
      refine ⟨_, rfl, ?_⟩
      rw [items_first (skipSpace_newLine hspace _ _) hc hread (by simp; omega),
        items_jsonItems hothers]
      rfl

theorem endsNumber_jsonFields (indent outer : Nat) (others : List (String × Outline))
    (rest : List Char) :
    EndsNumber (jsonFields indent others ++ (newLine outer ++ rest)) := by
  cases others with
  | nil => exact endsNumber_cons rfl _
  | cons field others =>
      simp only [jsonFields, List.cons_append]
      exact endsNumber_cons rfl _

/-- The fields after the first are read up to the end of their record. -/
theorem members_jsonFields {item : Reader Value} (hspace : ∀ text, item (' ' :: text) = item text)
    {indent : Nat} {others : List (String × Outline)}
    (h : ∀ f ∈ others, ReadsAt item indent f.2) (outer : Nat) (rest : List Char) :
    members item false (jsonFields indent others ++ (newLine outer ++ '\x7d' :: rest)) =
      .ok (others.map fun f => (f.1, f.2.value), rest) := by
  induction others with
  | nil => exact members_close (skipSpace_newLine rfl outer rest)
  | cons f others ih =>
      obtain ⟨name, o⟩ := f
      obtain ⟨ho, hothers⟩ := List.forall_mem_cons.1 h
      have hread := ho _ (endsNumber_jsonFields indent outer others ('\x7d' :: rest))
      -- a space stands between the colon and the value
      rw [← hspace] at hread
      simp only [jsonFields, jsonField, jsonString, List.cons_append, List.append_assoc,
        List.nil_append]
      rw [members_next rfl (skipSpace_newLine rfl _ _) (string_spelled _ _) rfl hread
        (by simp; omega), ih hothers, String.ofList_toList]
      rfl

/-- The fields of a record can be read if the value of each can, also after a space. -/
theorem members_record {item : Reader Value} (hspace : ∀ text, item (' ' :: text) = item text)
    {indent : Nat} {fields : List (String × Outline)}
    (h : ∀ f ∈ fields, ReadsAt item (indent + 1) f.2) (rest : List Char) :
    ∃ body, (Outline.record fields).jsonAt indent ++ rest = '\x7b' :: body ∧
      members item true body = .ok (fields.map fun f => (f.1, f.2.value), rest) := by
  cases fields with
  | nil => exact ⟨'\x7d' :: rest, rfl, members_close rfl⟩
  | cons f others =>
      obtain ⟨name, o⟩ := f
      obtain ⟨ho, hothers⟩ := List.forall_mem_cons.1 h
      have hread := ho _ (endsNumber_jsonFields (indent + 1) indent others ('\x7d' :: rest))
      rw [← hspace] at hread
      simp only [Outline.jsonAt, jsonField, jsonString, List.cons_append, List.append_assoc,
        List.nil_append]
      refine ⟨_, rfl, ?_⟩
      rw [members_first (skipSpace_newLine rfl _ _) (string_spelled _ _) rfl hread
        (by simp; omega), members_jsonFields hspace hothers, String.ofList_toList]
      rfl

/-! ### Whole outlines -/

/-- The depth decides only what may be nested. -/
theorem exists_valueTo_eq (depth : Nat) : ∃ nested, valueTo depth = valueWith nested := by
  cases depth with
  | zero => exact ⟨none, funext fun text => by rw [valueTo]⟩
  | succ depth => exact ⟨some (valueTo depth), funext fun text => by rw [valueTo]⟩

theorem valueTo_space (depth : Nat) (text : List Char) :
    valueTo depth (' ' :: text) = valueTo depth text := by
  obtain ⟨nested, hnested⟩ := exists_valueTo_eq depth
  have hskip : skipSpace (' ' :: text) = skipSpace text := List.dropWhile_cons_of_pos rfl
  rw [hnested, valueWith, valueWith, hskip]

theorem valueTo_string (depth : Nat) (value : String) (rest : List Char) :
    valueTo depth (jsonString value ++ rest) = .ok (.string value, rest) := by
  obtain ⟨nested, hnested⟩ := exists_valueTo_eq depth
  have hskip : ∀ text, skipSpace ('"' :: text) = '"' :: text := skipSpace_cons rfl
  rw [hnested]
  simp only [jsonString, List.cons_append, List.append_assoc, List.nil_append, valueWith, hskip,
    string_spelled, Except.map, String.ofList_toList]

theorem valueTo_number (depth : Nat) {n : Nat} (hn : n < Nat.pow 2 64) {rest : List Char}
    (hrest : EndsNumber rest) :
    valueTo depth (Nat.toDigits 10 n ++ rest) = .ok (.number (.natural n), rest) := by
  obtain ⟨nested, hnested⟩ := exists_valueTo_eq depth
  have hread := number_toDigits hn hrest
  obtain ⟨d, others, hcons, hd⟩ := exists_toDigits n
  rw [hcons, List.cons_append] at hread
  rw [hnested, hcons, List.cons_append, valueWith, skipSpace_cons (isSpace_of_isDigit hd)]
  -- a digit starts no other kind of value
  split
  · next hother => cases hother
  iterate 7
    next hother =>
      cases hother
      cases hd
  · next hother =>
      cases hother
      simp [hd, hread, Except.map]

theorem valueTo_bracket (depth : Nat) (body : List Char) :
    valueTo (depth + 1) ('[' :: body) =
      (items (valueTo depth) true body).map fun read => (.array read.1, read.2) := rfl

theorem valueTo_brace (depth : Nat) (body : List Char) :
    valueTo (depth + 1) ('\x7b' :: body) =
      (members (valueTo depth) true body).map fun read => (.object read.1, read.2) := rfl

/-- An outline that fits is read as its value, however far it is indented. -/
theorem valueTo_outline {depth : Nat} {o : Outline} (h : o.Fits depth) (indent : Nat) :
    ReadsAt (valueTo depth) indent o := by
  induction h generalizing indent with
  | text value =>
      intro rest _
      exact valueTo_string _ value rest
  | number h =>
      intro rest hrest
      exact valueTo_number _ h hrest
  | @list depth os _ ih =>
      intro rest _
      obtain ⟨body, hbody, hread⟩ := items_list (fun o ho => ih o ho (indent + 1)) rest
      rw [hbody, valueTo_bracket, hread, Outline.value, Report.itemValues_eq_map]
      rfl
  | @record depth fields _ ih =>
      intro rest _
      obtain ⟨body, hbody, hread⟩ :=
        members_record (valueTo_space _) (fun f hf => ih f hf (indent + 1)) rest
      rw [hbody, valueTo_brace, hread, Outline.value, Report.fieldValues_eq_map]
      rfl

/-- The JSON text of an outline is read as its value. -/
theorem parse_json {o : Outline} (h : o.Fits maxDepth) : parse o.json = .ok o.value := by
  have hread := valueTo_outline h 0 [] endsNumber_nil
  rw [List.append_nil] at hread
  rw [parse, Outline.json, String.toList_ofList, hread]
  rfl

end RoleAudit.Json
