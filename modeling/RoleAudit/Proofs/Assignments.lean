import RoleAudit.Proofs.SettingPlaces
import Mathlib.Data.List.Induction

/-!
# Assignments to places

A value with the steps to its place assigns something to every member on the way.  Traced member by
member, what assignments make at a place is made by what they assign to it alone
(`applyAll_bind_at?`), as long as they make tables on the way.  If they leave no table there and
change no item, the last value that is assigned as a whole is what they leave (`eq_of_applyAll`).  No
item is changed where names alone lead to every place (`isNamed_further`).
-/

namespace RoleAudit.Settings

namespace Value

/-- Whether a value is a table. -/
def isTable : Value → Bool
  | table _ _ => true
  | _ => false

theorem exists_table {value : Value} (h : value.isTable) :
    ∃ members origin, value = table members origin := by
  cases value with
  | scalar _ _ | list _ _ => cases h
  | table members origin => exact ⟨members, origin, rfl⟩

theorem isTable_of_member? {name : String} {value member : Value}
    (h : value.member? name = some member) : value.isTable := by
  cases value with
  | scalar _ _ | list _ _ => cases h
  | table members origin => rfl

/-- The value at the end of some names. -/
def at? : List String → Value → Option Value
  | [], value => some value
  | name :: names, value => (value.member? name).bind (at? names)

theorem at?_concat (names : List String) (name : String) (value : Value) :
    value.at? (names ++ [name]) = (value.at? names).bind (member? name) := by
  induction names generalizing value with
  | nil => simp [at?]
  | cons first others ih =>
      rw [List.cons_append, at?, at?, Option.bind_assoc]
      exact congrArg _ (funext ih)

end Value

/-! ## Assignments -/

/-- A value for the place at the end of some steps. -/
structure Assignment where
  steps : List Step
  value : Value

namespace Assignment

/-- What an assignment makes of what may be there. -/
def apply (a : Assignment) (old? : Option Value) : Value :=
  Value.put a.steps a.value old?

/-- Whether it makes a table, or leaves one. -/
def isTable : Assignment → Bool
  | ⟨[], .table _ _⟩ | ⟨.member _ :: _, _⟩ => true
  | _ => false

/-- Whether it changes an item of a list. -/
def isItem : Assignment → Bool
  | ⟨.item _ :: _, _⟩ => true
  | _ => false

/-- An assignment to the member of a key, as far as it is one to the member of a name. -/
def under (key name : String) (a : Assignment) : List Assignment :=
  if key = name then [a] else []

/-- What is assigned to the member of a name. -/
def inside (name : String) : Assignment → List Assignment
  | ⟨[], .table members _⟩ => members.flatMap fun m => under (Text.lowercase m.1) name ⟨[], m.2⟩
  | ⟨[.member last], value⟩ => under (Text.lowercase last) name ⟨[], value⟩
  | ⟨.member first :: steps, value⟩ => under first name ⟨steps, value⟩
  | _ => []

/-- Names alone lead to the place. -/
def IsNamed (a : Assignment) : Prop :=
  ∃ names : List String, a.steps = names.map .member

/-- The value that is assigned as a whole.  A table of no members changes nothing. -/
def whole? : Assignment → Option Value
  | ⟨[], .table [] _⟩ => none
  | ⟨[], value⟩ => some value
  | ⟨_ :: _, _⟩ => none

end Assignment

/-- What some assignments make one after the other. -/
def applyAll (assignments : List Assignment) (old? : Option Value) : Option Value :=
  assignments.foldl (fun old? a => some (a.apply old?)) old?

theorem applyAll_append (first second : List Assignment) (old? : Option Value) :
    applyAll (first ++ second) old? = applyAll second (applyAll first old?) :=
  List.foldl_append

theorem isSome_applyAll (assignments : List Assignment) {old? : Option Value} (h : old?.isSome) :
    (applyAll assignments old?).isSome := by
  induction assignments generalizing old? with
  | nil => exact h
  | cons a others ih => exact ih rfl

/-- What some assignments assign at the end of some names. -/
def further : List String → List Assignment → List Assignment
  | [], assignments => assignments
  | name :: names, assignments => further names (assignments.flatMap (Assignment.inside name))

theorem further_flatMap {α : Type} (names : List String) (f : α → List Assignment) (xs : List α) :
    further names (xs.flatMap f) = xs.flatMap fun x => further names (f x) := by
  induction names generalizing f with
  | nil => rfl
  | cons name names ih => rw [further, List.flatMap_assoc, ih]; rfl

/-! ### One step further -/

theorem member?_withMember_apply (key name : String) (a : Assignment) (target : Value) :
    (target.withMember key a.apply).member? name =
      applyAll (a.under key name) (target.member? name) := by
  rw [Value.member?_withMember, Assignment.under]
  by_cases hname : key = name
  · rw [if_pos hname, if_pos hname, hname]
    rfl
  · rw [if_neg hname, if_neg hname]
    rfl

theorem member?_merge (name : String) (members : List (String × Value)) (target : Value) :
    (target.merge members).member? name =
      applyAll (members.flatMap fun m => Assignment.under (Text.lowercase m.1) name ⟨[], m.2⟩)
        (target.member? name) := by
  induction members generalizing target with
  | nil => rfl
  | cons m others ih =>
      rw [Value.merge, ih, Value.place_eq_withMember, List.flatMap_cons, applyAll_append,
        ← member?_withMember_apply]
      rfl

/-- A member of what an assignment makes is made by what is assigned to it. -/
theorem Assignment.member?_apply (name : String) {a : Assignment} (ha : a.isTable)
    (old? : Option Value) :
    (a.apply old?).member? name = applyAll (a.inside name) (old?.bind (Value.member? name)) := by
  -- what fills the place of something missing has no members
  have hbelow : ∀ other : Value, other.member? name = none →
      (old?.getD other).member? name = old?.bind (Value.member? name) := by
    intro other hother
    cases old? <;> simp [hother]
  match a with
  | ⟨[], .table members origin⟩ =>
      rw [apply, Value.put, member?_merge, hbelow Value.emptyTable rfl]
      rfl
  | ⟨[.member last], value⟩ =>
      rw [apply, Value.put, Value.store, Value.place_eq_withMember, ← hbelow Value.nothing rfl]
      exact member?_withMember_apply _ _ ⟨[], value⟩ _
  | ⟨.member first :: next :: steps, value⟩ =>
      rw [apply, Value.put, Value.store_member first (List.cons_ne_nil _ _),
        ← hbelow Value.nothing rfl]
      exact member?_withMember_apply _ _ ⟨next :: steps, value⟩ _

theorem applyAll_bind_member? (name : String) {assignments : List Assignment}
    (h : ∀ a ∈ assignments, a.isTable) (old? : Option Value) :
    (applyAll assignments old?).bind (Value.member? name) =
      applyAll (assignments.flatMap (Assignment.inside name))
        (old?.bind (Value.member? name)) := by
  induction assignments generalizing old? with
  | nil => rfl
  | cons a others ih =>
      obtain ⟨ha, hothers⟩ := List.forall_mem_cons.1 h
      rw [List.flatMap_cons, applyAll_append, ← Assignment.member?_apply name ha]
      exact ih hothers (some (a.apply old?))

/-- What assignments make at the end of some names is made by what they assign to it, if they make
tables on the way. -/
theorem applyAll_bind_at? (names : List String) {assignments : List Assignment}
    (h : ∀ front, front <+: names → front ≠ names → ∀ a ∈ further front assignments, a.isTable)
    (old? : Option Value) :
    (applyAll assignments old?).bind (Value.at? names) =
      applyAll (further names assignments) (old?.bind (Value.at? names)) := by
  induction names generalizing assignments old? with
  | nil => simp [Value.at?, further]
  | cons name names ih =>
      have hhere : ∀ a ∈ assignments, a.isTable := h [] List.nil_prefix (by simp)
      have hnext : ∀ front, front <+: names → front ≠ names →
          ∀ a ∈ further front (assignments.flatMap (Assignment.inside name)), a.isTable :=
        fun front hfront hne => h (name :: front) (List.cons_prefix_cons.2 ⟨rfl, hfront⟩) (by simpa)
      have hstep : Value.at? (name :: names) =
          fun value => (value.member? name).bind (Value.at? names) := rfl
      rw [hstep, ← Option.bind_assoc, ← Option.bind_assoc, applyAll_bind_member? name hhere,
        ih hnext]
      rfl

/-! ### What is left -/

theorem Value.isTable_withMember (name : String) (change : Option Value → Value) (target : Value) :
    (target.withMember name change).isTable := by
  cases target <;> rfl

theorem Value.isTable_merge {target : Value} (h : target.isTable)
    (members : List (String × Value)) : (target.merge members).isTable := by
  induction members generalizing target with
  | nil => exact h
  | cons m others ih =>
      rw [merge, place_eq_withMember]
      exact ih (isTable_withMember _ _ _)

namespace Assignment

theorem isTable_apply_member (first : String) (steps : List Step) (value : Value)
    (old? : Option Value) : (apply ⟨.member first :: steps, value⟩ old?).isTable := by
  cases steps with
  | nil =>
      rw [apply, Value.put, Value.store, Value.place_eq_withMember]
      exact Value.isTable_withMember _ _ _
  | cons next steps =>
      rw [apply, Value.put, Value.store_member first (List.cons_ne_nil _ _)]
      exact Value.isTable_withMember _ _ _

theorem isTable_apply {a : Assignment} (ha : a.isTable) {old : Value} (h : old.isTable) :
    (a.apply (some old)).isTable := by
  match a with
  | ⟨[], .table members _⟩ => exact Value.isTable_merge h members
  | ⟨.member first :: steps, value⟩ => exact isTable_apply_member first steps value _

end Assignment

theorem exists_applyAll_isTable {assignments : List Assignment}
    (h : ∀ a ∈ assignments, a.isTable) {old : Value} (hold : old.isTable) :
    ∃ value, applyAll assignments (some old) = some value ∧ value.isTable := by
  induction assignments generalizing old with
  | nil => exact ⟨old, rfl, hold⟩
  | cons a others ih =>
      obtain ⟨ha, hothers⟩ := List.forall_mem_cons.1 h
      exact ih hothers (Assignment.isTable_apply ha hold)

/-- What is left is the last value that is assigned as a whole, unless a table is left, if no item is
changed. -/
theorem eq_of_applyAll {assignments : List Assignment} {old value : Value}
    (h : applyAll assignments (some old) = some value) (htable : value.isTable = false)
    (hitems : ∀ a ∈ assignments, a.isItem = false) :
    value = (assignments.filterMap Assignment.whole?).getLast?.getD old := by
  induction assignments using List.reverseRecOn generalizing value with
  | nil => simpa [applyAll] using h.symm
  | append_singleton others a ih =>
      obtain ⟨before, hbefore⟩ : ∃ before, applyAll others (some old) = some before :=
        Option.isSome_iff_exists.1 (isSome_applyAll others rfl)
      rw [applyAll_append, hbefore] at h
      obtain rfl : a.apply (some before) = value := Option.some.inj h
      rw [List.filterMap_append, List.getLast?_append]
      match a with
      | ⟨[], .table [] origin⟩ =>
          -- nothing is merged into what is there
          exact ih hbefore htable fun a ha => hitems a (List.mem_append_left _ ha)
      | ⟨[], .scalar value origin⟩ | ⟨[], .list items origin⟩ => rfl
      | ⟨[], .table (m :: members) origin⟩ =>
          have hmerged : ((before.place m.1 m.2).merge members).isTable :=
            Value.isTable_merge (Value.place_eq_withMember .. ▸ Value.isTable_withMember ..) members
          exact Bool.noConfusion (hmerged.symm.trans htable)
      | ⟨.member first :: steps, value⟩ =>
          have hmade := Assignment.isTable_apply_member first steps value (some before)
          exact Bool.noConfusion (hmade.symm.trans htable)
      | ⟨.item index :: steps, value⟩ =>
          exact Bool.noConfusion (hitems _ (List.mem_append_right _ (List.mem_singleton_self _)))

/-! ### Names alone -/

namespace Assignment

theorem IsNamed.isItem_eq {a : Assignment} (h : a.IsNamed) : a.isItem = false := by
  obtain ⟨steps, value⟩ := a
  obtain ⟨names, rfl⟩ := h
  cases names <;> rfl

theorem eq_of_mem_under {key name : String} {a b : Assignment} (h : b ∈ a.under key name) :
    b = a := by
  rw [under] at h
  split at h
  · exact List.mem_singleton.1 h
  · cases h

theorem IsNamed.inside {a : Assignment} (h : a.IsNamed) {name : String} {b : Assignment}
    (hb : b ∈ a.inside name) : b.IsNamed := by
  obtain ⟨steps, value⟩ := a
  obtain ⟨names, rfl⟩ := h
  match names, value with
  | [], .table members _ =>
      obtain ⟨m, -, hb⟩ := List.mem_flatMap.1 hb
      exact ⟨[], congrArg Assignment.steps (eq_of_mem_under hb)⟩
  | [_], _ => exact ⟨[], congrArg Assignment.steps (eq_of_mem_under hb)⟩
  | _ :: next :: others, _ =>
      exact ⟨next :: others, congrArg Assignment.steps (eq_of_mem_under hb)⟩

end Assignment

theorem isNamed_further (names : List String) {assignments : List Assignment}
    (h : ∀ a ∈ assignments, a.IsNamed) : ∀ a ∈ further names assignments, a.IsNamed := by
  induction names generalizing assignments with
  | nil => exact h
  | cons name names ih =>
      refine ih fun b hb => ?_
      obtain ⟨a, ha, hb⟩ := List.mem_flatMap.1 hb
      exact (h a ha).inside hb

end RoleAudit.Settings
