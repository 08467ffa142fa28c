import Mathlib.Data.List.Pairwise
import RoleAudit.Proofs.SettingPlaces
import RoleAudit.Settings.Layers

/-!
# The entries of tables

What a table assigns are its entries: the values at the ends of its tables, each with the names that
lead to it.  Merging a table makes the changes of its entries one after the other
(`applyEntries_value`).  If no entry is on the way to another, the order does not matter
(`applyEntries_eq_of_perm`), so the members of all tables may be met in any order (`put_arranged`,
`MergesByKey.addMembers_arranged`).
-/

namespace RoleAudit.Settings

/-- A value with the names that lead to its place. -/
structure Entry where
  names : List String
  value : Value

namespace Entry

/-- An entry of what stands at the end of some names. -/
def below (names : List String) (e : Entry) : Entry :=
  ⟨names ++ e.names, e.value⟩

/-- Neither place is on the way to the other. -/
def Apart (e e' : Entry) : Prop :=
  ¬ e.names <+: e'.names ∧ ¬ e'.names <+: e.names

instance (e e' : Entry) : Decidable (e.Apart e') :=
  inferInstanceAs (Decidable (_ ∧ _))

theorem apart_below_iff {names : List String} {e e' : Entry} :
    (e.below names).Apart (e'.below names) ↔ e.Apart e' := by
  simp only [Apart, below, List.prefix_append_right_inj]

/-- What an entry makes of what may be there. -/
def apply (e : Entry) : Option Value → Value :=
  Value.changeAt e.names (Value.put [] e.value)

theorem apply_below (names : List String) (e : Entry) :
    (e.below names).apply = Value.changeAt names e.apply :=
  Value.changeAt_append _ _ _

end Entry

/-- What some entries make one after the other. -/
def applyEntries (entries : List Entry) (old? : Option Value) : Option Value :=
  entries.foldl (fun old? e => some (e.apply old?)) old?

theorem applyEntries_append (first second : List Entry) (old? : Option Value) :
    applyEntries (first ++ second) old? = applyEntries second (applyEntries first old?) :=
  List.foldl_append

/-- Entries below some names make one change there. -/
theorem applyEntries_below (names : List String) (e : Entry) (others : List Entry)
    (old? : Option Value) :
    applyEntries ((e :: others).map (Entry.below names)) old? =
      some (Value.changeAt names
        (fun old? => (applyEntries (e :: others) old?).getD Value.nothing) old?) := by
  induction others generalizing e old? with
  | nil =>
      show some ((e.below names).apply old?) = _
      rw [Entry.apply_below]
      rfl
  | cons next others ih =>
      have hrest := ih next (some ((e.below names).apply old?))
      rw [Entry.apply_below, Value.changeAt_changeAt, ← Entry.apply_below] at hrest
      exact hrest

/-- Entries apart from each other can be applied in any order. -/
theorem applyEntries_eq_of_perm {entries entries' : List Entry} (h : entries.Pairwise Entry.Apart)
    (hperm : entries.Perm entries') (old? : Option Value) :
    applyEntries entries old? = applyEntries entries' old? := by
  have hsymm : Std.Symm Entry.Apart := ⟨fun _ _ hapart => ⟨hapart.2, hapart.1⟩⟩
  refine hperm.foldl_eq' (fun e he e' he' old? => ?_) old?
  by_cases heq : e = e'
  · rw [heq]
  · exact congrArg some (Value.changeAt_comm (h.forall he he' heq) _ _ old?)

/-! ## Values -/

mutual

/-- The entries of a value.  A table of no members is an entry itself. -/
def Value.entries : Value → List Entry
  | .table (m :: members) _ => memberEntries (m :: members)
  | value => [⟨[], value⟩]

/-- The entries of the members of a table. -/
def memberEntries : List (String × Value) → List Entry
  | [] => []
  | (name, value) :: others =>
      value.entries.map (Entry.below [Text.lowercase name]) ++ memberEntries others

end

/-- The entries of members, given the names to which their keys lead. -/
def entriesUnder (place : String → List String) (members : List (String × Value)) : List Entry :=
  members.flatMap fun m => m.2.entries.map (Entry.below (place m.1))

theorem entriesUnder_perm (place : String → List String) {members members' : List (String × Value)}
    (h : members.Perm members') : (entriesUnder place members).Perm (entriesUnder place members') :=
  h.flatMap_right _

theorem memberEntries_eq (members : List (String × Value)) :
    memberEntries members = entriesUnder (fun name => [Text.lowercase name]) members := by
  induction members with
  | nil => rfl
  | cons m others ih =>
      rw [memberEntries, ih]
      rfl

theorem Value.entries_table {members : List (String × Value)} (hne : members ≠ [])
    (origin : Option String) : (Value.table members origin).entries = memberEntries members := by
  obtain ⟨m, others, rfl⟩ := List.exists_cons_of_ne_nil hne
  rfl

theorem Value.entries_ne_nil : ∀ value : Value, value.entries ≠ []
  | .scalar _ _ | .list _ _ | .table [] _ => by simp [entries]
  | .table ((name, value) :: others) _ => by
      have hfirst := entries_ne_nil value
      simp [entries, memberEntries, hfirst]

/-- What is changed below a name is put there. -/
theorem applyEntries_value_below (names : List String) {value : Value}
    (hvalue : ∀ old?, applyEntries value.entries old? = some (Value.put [] value old?))
    (old? : Option Value) :
    applyEntries (value.entries.map (Entry.below names)) old? =
      some (Value.changeAt names (Value.put [] value) old?) := by
  obtain ⟨e, others, hentries⟩ := List.exists_cons_of_ne_nil value.entries_ne_nil
  rw [hentries, applyEntries_below, ← hentries]
  simp only [hvalue, Option.getD_some]

mutual

/-- A value is put by making the changes of its entries. -/
theorem applyEntries_value : ∀ (value : Value) (old? : Option Value),
    applyEntries value.entries old? = some (Value.put [] value old?)
  | .scalar _ _, _ | .list _ _, _ | .table [] _, _ => rfl
  | .table ((name, value) :: others) origin, old? => by
      have hfirst := applyEntries_value_below [Text.lowercase name] (applyEntries_value value) old?
      have hplace : Value.changeAt [Text.lowercase name] (Value.put [] value) old? =
          Value.place name (old?.getD Value.emptyTable) value := by
        rw [Value.place_eq_withMember]
        cases old? <;> rfl
      rw [Value.entries, memberEntries, applyEntries_append, hfirst, hplace]
      exact applyEntries_memberEntries others _

/-- A table is merged by making the changes of its entries. -/
theorem applyEntries_memberEntries : ∀ (members : List (String × Value)) (target : Value),
    applyEntries (memberEntries members) (some target) = some (target.merge members)
  | [], _ => rfl
  | (name, value) :: others, target => by
      have hfirst :=
        applyEntries_value_below [Text.lowercase name] (applyEntries_value value) (some target)
      rw [memberEntries, applyEntries_append, hfirst, Value.merge, Value.place_eq_withMember]
      exact applyEntries_memberEntries others _

end

/-! ## Tables in another order -/

namespace Arrangement

variable (a : Arrangement)

theorem eachMember_eq (names : List String) (members : List (String × Value)) :
    a.eachMember names members =
      members.map fun m => (m.1, a.value (names ++ [m.1]) m.2) := by
  induction members with
  | nil => rfl
  | cons m others ih => rw [eachMember, ih, List.map_cons]

mutual

/-- A value has the same entries in any order of its tables. -/
theorem entries_perm : ∀ (names : List String) (value : Value),
    (a.value names value).entries.Perm value.entries
  | _, .scalar _ _ | _, .list _ _ => .rfl
  | names, .table [] origin => by
      have hnone : a.arrange names [] = [] := (a.perm names []).eq_nil
      rw [value, eachMember, hnone]
  | names, .table (m :: members) origin => by
      have hperm := a.perm names (a.eachMember names (m :: members))
      -- there are still members, so the table is no entry itself
      have hne : a.arrange names (a.eachMember names (m :: members)) ≠ [] := by
        intro hnil
        rw [hnil, eachMember] at hperm
        exact absurd hperm.symm.eq_nil (List.cons_ne_nil _ _)
      rw [value, Value.entries_table hne, Value.entries_table (List.cons_ne_nil _ _),
        memberEntries_eq, memberEntries_eq]
      exact (entriesUnder_perm _ hperm).trans (entriesUnder_eachMember_perm _ names (m :: members))

theorem entriesUnder_eachMember_perm (place : String → List String) :
    ∀ (names : List String) (members : List (String × Value)),
      (entriesUnder place (a.eachMember names members)).Perm (entriesUnder place members)
  | _, [] => .rfl
  | names, (name, value) :: others =>
      ((entries_perm (names ++ [name]) value).map _).append
        (entriesUnder_eachMember_perm place names others)

end

end Arrangement

/-- A value whose entries are apart is put the same in any order of its tables. -/
theorem put_arranged (a : Arrangement) {value : Value} (h : value.entries.Pairwise Entry.Apart)
    (names : List String) (old? : Option Value) :
    Value.put [] (a.value names value) old? = Value.put [] value old? := by
  have hsame := applyEntries_eq_of_perm h (a.entries_perm names value).symm old?
  rw [applyEntries_value, applyEntries_value] at hsame
  exact (Option.some.inj hsame).symm

/-! ## Members under keys -/

/-- The entries of members under plain keys. -/
def keyedEntries (members : List (String × Value)) : List Entry :=
  entriesUnder keyPlace members

theorem addMember_eq_put (settings : Value) (m : String × Value) :
    addMember settings m = Value.put (keySteps m.1) m.2 (some settings) := by
  unfold addMember keySteps
  cases Path.parse? m.1 <;> rfl

theorem addMember_of_isPlainKey (settings : Value) {key : String} (h : IsPlainKey key)
    (value : Value) : addMember settings (key, value) =
      Value.changeAt (keyPlace key) (Value.put [] value) (some settings) := by
  rw [addMember_eq_put, Value.put_keySteps h]

/-- Members are added by making the changes of their entries. -/
theorem applyEntries_keyedEntries {members : List (String × Value)}
    (h : ∀ m ∈ members, IsPlainKey m.1) (settings : Value) :
    applyEntries (keyedEntries members) (some settings) = some (addMembers settings members) := by
  induction members generalizing settings with
  | nil => rfl
  | cons m others ih =>
      obtain ⟨hm, hothers⟩ := List.forall_mem_cons.1 h
      rw [keyedEntries, entriesUnder, List.flatMap_cons, applyEntries_append,
        applyEntries_value_below _ (applyEntries_value m.2),
        ← addMember_of_isPlainKey settings hm m.2]
      exact ih hothers _

theorem keyedEntries_perm (a : Arrangement) (members : List (String × Value)) :
    (keyedEntries (a.members members)).Perm (keyedEntries members) :=
  (entriesUnder_perm keyPlace (a.perm [] _)).trans
    (a.entriesUnder_eachMember_perm keyPlace [] members)

/-- Members that are merged key by key: every key leads by names alone to its place, and no two
entries have the same place or places of which one is on the way to the other. -/
structure MergesByKey (members : List (String × Value)) : Prop where
  isPlainKey : ∀ m ∈ members, IsPlainKey m.1
  apart : (keyedEntries members).Pairwise Entry.Apart

instance (members : List (String × Value)) : Decidable (MergesByKey members) :=
  decidable_of_iff ((∀ m ∈ members, IsPlainKey m.1) ∧
      (keyedEntries members).Pairwise Entry.Apart)
    ⟨fun h => ⟨h.1, h.2⟩, fun h => ⟨h.1, h.2⟩⟩

namespace MergesByKey

/-- Members that are merged key by key give the same in any order. -/
theorem addMembers_arranged {members : List (String × Value)} (h : MergesByKey members)
    (a : Arrangement) (settings : Value) :
    addMembers settings (a.members members) = addMembers settings members := by
  have hkeys : ∀ m ∈ a.members members, IsPlainKey m.1 := by
    intro m hm
    rw [Arrangement.members, (a.perm [] _).mem_iff, a.eachMember_eq] at hm
    obtain ⟨written, hwritten, rfl⟩ := List.mem_map.1 hm
    exact h.isPlainKey written hwritten
  have hsame := applyEntries_eq_of_perm h.apart (keyedEntries_perm a members).symm (some settings)
  rw [applyEntries_keyedEntries h.isPlainKey, applyEntries_keyedEntries hkeys] at hsame
  exact (Option.some.inj hsame).symm

/-- Lists of members that are merged key by key give the same in any order of their tables. -/
theorem foldl_addMembers_mapIdx {contents : List (List (String × Value))}
    (h : ∀ members ∈ contents, MergesByKey members) (file : Nat → Arrangement) (settings : Value) :
    (contents.mapIdx fun i members => (file i).members members).foldl addMembers settings =
      contents.foldl addMembers settings := by
  induction contents generalizing file settings with
  | nil => rfl
  | cons members others ih =>
      obtain ⟨hmembers, hothers⟩ := List.forall_mem_cons.1 h
      rw [List.mapIdx_cons, List.foldl_cons, List.foldl_cons,
        hmembers.addMembers_arranged (file 0)]
      exact ih hothers (fun i => file (i + 1)) _

/-- The entries of a value under a key are apart wherever it is put. -/
theorem apart_entries {key : String} {value : Value} (h : MergesByKey [(key, value)]) :
    value.entries.Pairwise Entry.Apart := by
  have hapart := h.apart
  rw [keyedEntries, entriesUnder, List.flatMap_singleton, List.pairwise_map] at hapart
  exact hapart.imp Entry.apart_below_iff.1

end MergesByKey

end RoleAudit.Settings
