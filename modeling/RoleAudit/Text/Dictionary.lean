/-!
# Dictionaries

Finite maps from texts to values, kept in strictly ascending order of their keys
(code point by code point, which is also the order of the bytes in UTF-8).  The
order is part of the type, so a dictionary is determined by what it maps its
keys to.

Main statements: `get?_insert`, which says what looking up finds after an
insertion, `get?_ofList`, by which the last entry of a key counts, and `ext`, which
says that dictionaries that answer alike are equal.
-/

namespace RoleAudit.Text

/-- A finite map from texts, in ascending order of its keys. -/
structure Dictionary (α : Type) where
  entries : List (String × α)
  ascending : entries.Pairwise fun a b => a.1 < b.1

namespace Dictionary

variable {α β : Type}

/-- The dictionary of no keys. -/
def empty : Dictionary α := ⟨[], .nil⟩

/-- Put a value for a key among entries in ascending order, in place of an older one. -/
def insertAmong (key : String) (value : α) : List (String × α) → List (String × α)
  | [] => [(key, value)]
  | entry :: others =>
      if key < entry.1 then (key, value) :: entry :: others
      else if key = entry.1 then (key, value) :: others
      else entry :: insertAmong key value others

theorem mem_insertAmong {key : String} {value : α} {entries : List (String × α)}
    {e : String × α} (h : e ∈ insertAmong key value entries) :
    e = (key, value) ∨ e ∈ entries := by
  induction entries with
  | nil => simpa [insertAmong] using h
  | cons entry others ih =>
      unfold insertAmong at h
      split at h
      · simpa using h
      split at h
      · rcases List.mem_cons.1 h with h | h
        · exact .inl h
        · exact .inr (List.mem_cons_of_mem _ h)
      · rcases List.mem_cons.1 h with h | h
        · exact .inr (by simp [h])
        · exact (ih h).imp_right (List.mem_cons_of_mem _)

theorem pairwise_insertAmong {key : String} {value : α} {entries : List (String × α)}
    (h : entries.Pairwise fun a b => a.1 < b.1) :
    (insertAmong key value entries).Pairwise fun a b => a.1 < b.1 := by
  induction entries with
  | nil => simp [insertAmong]
  | cons entry others ih =>
      have hrest := List.pairwise_cons.1 h
      unfold insertAmong
      split
      · next hlt =>
          refine List.pairwise_cons.2 ⟨fun e he => ?_, h⟩
          rcases List.mem_cons.1 he with rfl | he
          · exact hlt
          · exact String.lt_trans hlt (hrest.1 e he)
      split
      · next heq =>
          exact List.pairwise_cons.2 ⟨fun e he => heq ▸ hrest.1 e he, hrest.2⟩
      · next hlt hne =>
          refine List.pairwise_cons.2 ⟨fun e he => ?_, ih hrest.2⟩
          rcases mem_insertAmong he with rfl | he
          · exact Std.lt_of_le_of_ne (String.not_lt.1 hlt) (Ne.symm hne)
          · exact hrest.1 e he

/-- Put a value for a key, in place of an older one. -/
def insert (d : Dictionary α) (key : String) (value : α) : Dictionary α :=
  ⟨insertAmong key value d.entries, pairwise_insertAmong d.ascending⟩

/-- The dictionary of some entries.  Of two entries for one key the later counts. -/
def ofList (entries : List (String × α)) : Dictionary α :=
  entries.foldl (fun d entry => d.insert entry.1 entry.2) empty

/-- The value for a key. -/
def get? (d : Dictionary α) (key : String) : Option α :=
  (d.entries.find? fun entry => entry.1 = key).map Prod.snd

/-- Whether a key has a value. -/
def contains (d : Dictionary α) (key : String) : Bool :=
  (d.get? key).isSome

/-- The keys, ascending. -/
def keys (d : Dictionary α) : List String :=
  d.entries.map Prod.fst

/-- The values, in the order of their keys. -/
def values (d : Dictionary α) : List α :=
  d.entries.map Prod.snd

/-- The number of keys. -/
def size (d : Dictionary α) : Nat :=
  d.entries.length

theorem get?_empty (key : String) : (empty : Dictionary α).get? key = none := rfl

theorem find?_insertAmong {key key' : String} {value : α} {entries : List (String × α)} :
    (insertAmong key value entries).find? (fun entry => entry.1 = key') =
      if key = key' then some (key, value) else entries.find? fun entry => entry.1 = key' := by
  induction entries with
  | nil => by_cases hkey : key = key' <;> simp [insertAmong, hkey]
  | cons entry others ih =>
      unfold insertAmong
      split
      · next hlt =>
          by_cases hkey : key = key' <;> simp [hkey]
      split
      · next hlt heq =>
          by_cases hkey : key = key'
          · simp [hkey]
          · have : ¬ entry.1 = key' := heq ▸ hkey
            simp [hkey, this]
      · next hlt hne =>
          rw [List.find?_cons, List.find?_cons, ih]
          by_cases hkey : key = key'
          · subst hkey
            simp [Ne.symm hne]
          · simp [hkey]

/-- Looking up after an insertion finds the new value for its key, and what was there for others. -/
theorem get?_insert (d : Dictionary α) (key key' : String) (value : α) :
    (d.insert key value).get? key' = if key = key' then some value else d.get? key' := by
  unfold get? insert
  rw [find?_insertAmong]
  split <;> simp

/-- Looking up among some entries finds the last of its key. -/
theorem get?_ofList (entries : List (String × α)) (key : String) :
    (ofList entries).get? key =
      (entries.reverse.find? fun entry => entry.1 = key).map Prod.snd := by
  have hfold : ∀ d : Dictionary α,
      (entries.foldl (fun d entry => d.insert entry.1 entry.2) d).get? key =
        ((entries.reverse.find? fun entry => entry.1 = key).map Prod.snd).or (d.get? key) := by
    induction entries with
    | nil => simp
    | cons entry others ih =>
        intro d
        rw [List.foldl_cons, ih, get?_insert, List.reverse_cons, List.find?_append]
        by_cases hkey : entry.1 = key <;>
          cases others.reverse.find? (fun entry => entry.1 = key) <;> simp [hkey]
  rw [ofList, hfold, get?_empty, Option.or_none]

/-- What looking up finds is one of the entries. -/
theorem mem_of_get?_ofList {entries : List (String × α)} {key : String} {value : α}
    (h : (ofList entries).get? key = some value) : (key, value) ∈ entries := by
  rw [get?_ofList] at h
  obtain ⟨entry, hentry, rfl⟩ := Option.map_eq_some_iff.1 h
  have hkey : entry.1 = key := by simpa using List.find?_some hentry
  rw [← hkey]
  exact List.mem_reverse.1 (List.mem_of_find?_eq_some hentry)

theorem mem_entries_iff {d : Dictionary α} {key : String} {value : α} :
    (key, value) ∈ d.entries ↔ d.get? key = some value := by
  obtain ⟨entries, h⟩ := d
  simp only [get?]
  induction entries with
  | nil => simp
  | cons entry others ih =>
      have hrest := List.pairwise_cons.1 h
      rw [List.find?_cons, List.mem_cons]
      by_cases hkey : entry.1 = key
      · simp only [hkey, decide_true, Option.map_some, Option.some.injEq]
        constructor
        · rintro (rfl | hmem)
          · rfl
          · exact absurd (hkey ▸ hrest.1 _ hmem) (String.lt_irrefl _)
        · intro hvalue
          exact .inl (Prod.ext hkey.symm hvalue.symm)
      · simp only [hkey, decide_false]
        rw [← ih hrest.2]
        refine ⟨fun hmem => hmem.resolve_left ?_, .inr⟩
        rintro rfl
        exact hkey rfl

theorem mem_keys_iff {d : Dictionary α} {key : String} : key ∈ d.keys ↔ (d.get? key).isSome := by
  simp [keys, Option.isSome_iff_exists, ← mem_entries_iff]

/-- Two lists in ascending order of their keys that hold the same entries are equal. -/
theorem entries_eq_of_mem_iff {first second : List (String × α)}
    (hfirst : first.Pairwise fun a b => a.1 < b.1) (hsecond : second.Pairwise fun a b => a.1 < b.1)
    (h : ∀ e, e ∈ first ↔ e ∈ second) : first = second := by
  induction first generalizing second with
  | nil =>
      cases second with
      | nil => rfl
      | cons e rest => exact absurd ((h e).2 (by simp)) (by simp)
  | cons e rest ih =>
      cases second with
      | nil => exact absurd ((h e).1 (by simp)) (by simp)
      | cons e' rest' =>
          have hf := List.pairwise_cons.1 hfirst
          have hs := List.pairwise_cons.1 hsecond
          have heq : e = e' := by
            rcases List.mem_cons.1 ((h e).1 (by simp)) with he | he
            · exact he
            rcases List.mem_cons.1 ((h e').2 (by simp)) with he' | he'
            · exact he'.symm
            · exact absurd (hf.1 _ he') (String.lt_asymm (hs.1 _ he))
          subst heq
          have hrest : rest = rest' := by
            refine ih hf.2 hs.2 fun a => ⟨fun ha => ?_, fun ha => ?_⟩
            · rcases List.mem_cons.1 ((h a).1 (List.mem_cons_of_mem _ ha)) with rfl | h'
              · exact absurd (hf.1 _ ha) (String.lt_irrefl _)
              · exact h'
            · rcases List.mem_cons.1 ((h a).2 (List.mem_cons_of_mem _ ha)) with rfl | h'
              · exact absurd (hs.1 _ ha) (String.lt_irrefl _)
              · exact h'
          rw [hrest]

/-- Dictionaries that answer every look-up alike are equal. -/
theorem ext {first second : Dictionary α} (h : ∀ key, first.get? key = second.get? key) :
    first = second := by
  have hentries : first.entries = second.entries :=
    entries_eq_of_mem_iff first.ascending second.ascending fun (key, value) => by
      rw [mem_entries_iff, mem_entries_iff, h]
  cases first
  cases second
  cases hentries
  rfl

end Dictionary

end RoleAudit.Text
