import RoleAudit.Text.Dictionary
import Mathlib.Data.List.Nodup

/-!
# Last entries

A dictionary keeps of a list of entries the last one of each key, in the order of the keys.  So it is
determined by the entries that no later one replaces, in whatever order they come.

Main statements: `mem_lastEntries_iff`, `lastEntries_of_nodup` and `Dictionary.ofList_eq_iff`.
-/

namespace RoleAudit.Text

variable {α : Type}

/-- Some entries without those that a later one of the same key replaces. -/
def lastEntries : List (String × α) → List (String × α)
  | [] => []
  | entry :: others =>
      if entry.1 ∈ others.map Prod.fst then lastEntries others else entry :: lastEntries others

namespace Dictionary

theorem get?_ofList_cons (entry : String × α) (others : List (String × α)) (key : String) :
    (ofList (entry :: others)).get? key =
      ((ofList others).get? key).or (if entry.1 = key then some entry.2 else none) := by
  rw [get?_ofList, get?_ofList, List.reverse_cons, List.find?_append]
  by_cases hkey : entry.1 = key <;>
    cases others.reverse.find? (fun entry => entry.1 = key) <;> simp [hkey]

theorem get?_ofList_eq_none_iff {entries : List (String × α)} {key : String} :
    (ofList entries).get? key = none ↔ key ∉ entries.map Prod.fst := by
  rw [get?_ofList]
  simp only [Option.map_eq_none_iff, List.find?_eq_none, List.mem_reverse, decide_eq_true_eq,
    List.mem_map, not_exists, not_and]

end Dictionary

/-- The entries that count are those that looking up finds. -/
theorem mem_lastEntries_iff {entries : List (String × α)} {key : String} {value : α} :
    (key, value) ∈ lastEntries entries ↔ (Dictionary.ofList entries).get? key = some value := by
  induction entries with
  | nil => simp [lastEntries, Dictionary.ofList, Dictionary.get?_empty]
  | cons entry others ih =>
      rw [lastEntries, Dictionary.get?_ofList_cons]
      split
      · next hlater =>
          rw [ih]
          by_cases hkey : entry.1 = key
          · -- a later entry of this key is found first
            subst hkey
            obtain ⟨later, hfound⟩ : ∃ later, (Dictionary.ofList others).get? entry.1 = some later :=
              Option.ne_none_iff_exists'.1 fun hnone =>
                Dictionary.get?_ofList_eq_none_iff.1 hnone hlater
            simp [hfound]
          · simp [hkey]
      · next hlast =>
          rw [List.mem_cons, ih]
          by_cases hkey : entry.1 = key
          · subst hkey
            simp [Dictionary.get?_ofList_eq_none_iff.2 hlast, Prod.ext_iff, eq_comm]
          · have hne : (key, value) ≠ entry := fun heq => hkey (congrArg Prod.fst heq).symm
            simp [hkey, hne]

theorem mem_keys_of_mem_lastEntries {entries : List (String × α)} {key : String}
    (h : key ∈ (lastEntries entries).map Prod.fst) : key ∈ entries.map Prod.fst := by
  obtain ⟨entry, hentry, rfl⟩ := List.mem_map.1 h
  exact List.mem_map_of_mem (Dictionary.mem_of_get?_ofList (mem_lastEntries_iff.1 hentry))

/-- No key counts twice. -/
theorem nodup_lastEntries (entries : List (String × α)) :
    ((lastEntries entries).map Prod.fst).Nodup := by
  induction entries with
  | nil => exact List.nodup_nil
  | cons entry others ih =>
      rw [lastEntries]
      split
      · exact ih
      · next hlast =>
          rw [List.map_cons, List.nodup_cons]
          exact ⟨fun hmem => hlast (mem_keys_of_mem_lastEntries hmem), ih⟩

/-- Of entries with different keys all count. -/
theorem lastEntries_of_nodup {entries : List (String × α)} (h : (entries.map Prod.fst).Nodup) :
    lastEntries entries = entries := by
  induction entries with
  | nil => rfl
  | cons entry others ih =>
      rw [List.map_cons, List.nodup_cons] at h
      rw [lastEntries, if_neg h.1, ih h.2]

namespace Dictionary

/-- A dictionary holds the entries that count. -/
theorem mem_entries_ofList {entries : List (String × α)} {entry : String × α} :
    entry ∈ (ofList entries).entries ↔ entry ∈ lastEntries entries :=
  mem_entries_iff.trans mem_lastEntries_iff.symm

/-- Lists of entries make the same dictionary exactly if the same entries of them count. -/
theorem ofList_eq_iff {entries entries' : List (String × α)} : ofList entries = ofList entries' ↔
    ∀ entry, entry ∈ lastEntries entries ↔ entry ∈ lastEntries entries' := by
  constructor
  · intro h entry
    rw [← mem_entries_ofList, ← mem_entries_ofList, h]
  · intro h
    refine ext fun key => Option.ext fun value => ?_
    rw [← mem_lastEntries_iff, ← mem_lastEntries_iff, h]

end Dictionary

end RoleAudit.Text
