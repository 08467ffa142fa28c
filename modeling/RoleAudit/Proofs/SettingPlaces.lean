import RoleAudit.Proofs.OverrideKeys

/-!
# Values at places

Changes of one member become one change, and changes of different members do not depend on their
order (`withMember_withMember`, `withMember_comm`).  So changes at places can be made in either order
unless one place is on the way to the other (`changeAt_comm`).  Putting a value under a key that leads
by names alone is such a change (`put_keySteps`).
-/

namespace RoleAudit.Text.Dictionary

variable {α : Type}

/-- A value that is put for a key takes the place of one that was put for it before. -/
theorem insertAmong_insertAmong (key : String) (value value' : α) (entries : List (String × α)) :
    insertAmong key value' (insertAmong key value entries) = insertAmong key value' entries := by
  induction entries with
  | nil => simp [insertAmong]
  | cons entry others ih =>
      by_cases hlt : key < entry.1
      · simp [insertAmong, hlt]
      by_cases heq : key = entry.1
      · simp [insertAmong, ← heq]
      · simp [insertAmong, hlt, heq, ih]

theorem insertAmong_comm_of_lt {key key' : String} (hkeys : key < key') (value value' : α)
    (entries : List (String × α)) :
    insertAmong key' value' (insertAmong key value entries) =
      insertAmong key value (insertAmong key' value' entries) := by
  have hback : ¬ key' < key := String.lt_asymm hkeys
  have hne : key' ≠ key := (Std.ne_of_lt hkeys).symm
  induction entries with
  | nil => simp [insertAmong, hkeys, hback, hne]
  | cons entry others ih =>
      by_cases hlt' : key' < entry.1
      · -- both come before the entry
        have hlt : key < entry.1 := String.lt_trans hkeys hlt'
        simp [insertAmong, hlt, hlt', hkeys, hback, hne]
      by_cases heq' : key' = entry.1
      · simp [insertAmong, ← heq', hkeys, hback, hne]
      by_cases hlt : key < entry.1
      · simp [insertAmong, hlt, hlt', heq', hback, hne]
      by_cases heq : key = entry.1
      · simp [insertAmong, ← heq, hback, hne]
      · simp [insertAmong, hlt, heq, hlt', heq', ih]

/-- Values for different keys can be put in either order. -/
theorem insertAmong_comm {key key' : String} (hne : key ≠ key') (value value' : α)
    (entries : List (String × α)) :
    insertAmong key' value' (insertAmong key value entries) =
      insertAmong key value (insertAmong key' value' entries) := by
  by_cases hlt : key < key'
  · exact insertAmong_comm_of_lt hlt value value' entries
  · have hgt : key' < key := Std.lt_of_le_of_ne (String.not_lt.1 hlt) hne.symm
    exact (insertAmong_comm_of_lt hgt value' value entries).symm

end RoleAudit.Text.Dictionary

namespace RoleAudit.Settings.Value

open RoleAudit.Text (Dictionary)

/-! ## Members -/

theorem member?_withMember (name name' : String) (change : Option Value → Value) (target : Value) :
    (target.withMember name change).member? name' =
      if name = name' then some (change (target.member? name)) else target.member? name' := by
  cases target with
  | scalar _ _ | list _ _ => by_cases hname : name = name' <;> simp [withMember, member?, hname]
  | table members origin =>
      rw [withMember, member?, Dictionary.find?_insertAmong]
      by_cases hname : name = name' <;> simp [member?, hname]

/-- Two changes of one member are one change. -/
theorem withMember_withMember (name : String) (first second : Option Value → Value)
    (target : Value) :
    (target.withMember name first).withMember name second =
      target.withMember name fun old? => second (some (first old?)) := by
  have hmember := member?_withMember name name first target
  rw [if_pos rfl] at hmember
  cases target with
  | scalar _ _ | list _ _ =>
      simp only [withMember] at hmember ⊢
      rw [hmember]
      simp [Dictionary.insertAmong, member?]
  | table members origin =>
      simp only [withMember] at hmember ⊢
      rw [hmember, Dictionary.insertAmong_insertAmong]

/-- Changes of different members do not depend on their order. -/
theorem withMember_comm {name name' : String} (hne : name ≠ name')
    (change change' : Option Value → Value) (target : Value) :
    (target.withMember name change).withMember name' change' =
      (target.withMember name' change').withMember name change := by
  -- for a table it is the order of two insertions, and anything else becomes a table first
  have htable : ∀ (members : List (String × Value)) (origin : Option String),
      ((table members origin).withMember name change).withMember name' change' =
        ((table members origin).withMember name' change').withMember name change := by
    intro members origin
    have hfirst := member?_withMember name name' change (table members origin)
    have hsecond := member?_withMember name' name change' (table members origin)
    rw [if_neg hne] at hfirst
    rw [if_neg hne.symm] at hsecond
    simp only [withMember] at hfirst hsecond ⊢
    rw [hfirst, hsecond, Dictionary.insertAmong_comm hne]
  cases target with
  | scalar _ _ | list _ _ => exact htable [] none
  | table members origin => exact htable members origin

/-! ## Places -/

/-- Change the value at the end of some names.  What is no table on the way becomes one. -/
def changeAt : List String → (Option Value → Value) → Option Value → Value
  | [], change, old? => change old?
  | name :: names, change, old? => (old?.getD nothing).withMember name (changeAt names change)

theorem changeAt_append (front names : List String) (change : Option Value → Value) :
    changeAt (front ++ names) change = changeAt front (changeAt names change) := by
  induction front with
  | nil => rfl
  | cons name front ih =>
      funext old?
      rw [List.cons_append, changeAt, changeAt, ih]

/-- Two changes at one place are one change. -/
theorem changeAt_changeAt (names : List String) (first second : Option Value → Value)
    (old? : Option Value) :
    changeAt names second (some (changeAt names first old?)) =
      changeAt names (fun old? => second (some (first old?))) old? := by
  induction names generalizing old? with
  | nil => rfl
  | cons name names ih =>
      simp only [changeAt, Option.getD_some, withMember_withMember, ih]

/-- Changes can be made in either order unless one place is on the way to the other. -/
theorem changeAt_comm {names names' : List String}
    (hapart : ¬ names <+: names' ∧ ¬ names' <+: names) (change change' : Option Value → Value)
    (old? : Option Value) :
    changeAt names' change' (some (changeAt names change old?)) =
      changeAt names change (some (changeAt names' change' old?)) := by
  induction names generalizing names' old? with
  | nil => exact absurd List.nil_prefix hapart.1
  | cons name others ih =>
      cases names' with
      | nil => exact absurd List.nil_prefix hapart.2
      | cons name' others' =>
          simp only [changeAt, Option.getD_some]
          by_cases hsame : name = name'
          · subst hsame
            have hrest : ¬ others <+: others' ∧ ¬ others' <+: others := by
              simpa [List.cons_prefix_cons] using hapart
            simp only [withMember_withMember, ih hrest]
          · exact withMember_comm hsame _ _ _

/-! ## Steps -/

/-- Put a value at the end of some steps from what may be there.  At its place a table is merged
into what is there, and any other value replaces it. -/
def put : List Step → Value → Option Value → Value
  | [], table members _, old? => merge (old?.getD emptyTable) members
  | [], value, _ => value
  | step :: steps, value, old? => store value (step :: steps) (old?.getD nothing)

/-- A value that is put under a name is put in lower case. -/
theorem place_eq_withMember (name : String) (value target : Value) :
    place name target value = target.withMember (Text.lowercase name) (put [] value) := by
  cases value <;> rfl

theorem store_member (name : String) {steps : List Step} (hne : steps ≠ []) (value target : Value) :
    store value (.member name :: steps) target = target.withMember name (put steps value) := by
  cases steps with
  | nil => exact absurd rfl hne
  | cons step others => rfl

theorem store_member_of_isIdentifier {name : String} (h : IsIdentifier name) (steps : List Step)
    (value target : Value) :
    store value (.member name :: steps) target = target.withMember name (put steps value) := by
  cases steps with
  | nil => rw [store, place_eq_withMember, h.lowercase_eq]
  | cons step others => rfl

theorem put_of_isIdentifier {names : List String} (h : ∀ name ∈ names, IsIdentifier name)
    (value : Value) : put (names.map .member) value = changeAt names (put [] value) := by
  induction names with
  | nil => rfl
  | cons name names ih =>
      obtain ⟨hname, hnames⟩ := List.forall_mem_cons.1 h
      funext old?
      rw [List.map_cons, put, store_member_of_isIdentifier hname, ih hnames, changeAt]

/-- The value of a plain key is put at its place. -/
theorem put_keySteps {key : String} (h : IsPlainKey key) (value : Value) :
    put (keySteps key) value = changeAt (keyPlace key) (put [] value) := by
  rcases h with hone | hnames
  · funext old?
    rw [keyPlace, if_pos hone, hone, put, store, place_eq_withMember]
    rfl
  · rw [keyPlace_of_isIdentifier hnames, keySteps_of_isIdentifier hnames,
      put_of_isIdentifier hnames]

end RoleAudit.Settings.Value
