import RoleAudit.Settings.Layers

/-!
# Keys of identifiers

A key of identifiers with dots between is a path of members only, one for each identifier
(`parse?_of_isIdentifier`), and their names are in lower case already
(`IsIdentifier.lowercase_eq`), so that a value is put where the key says.  Keys that are one name or
consist of identifiers are plain: the place of their values is known by names alone (`keyPlace`).
-/

namespace RoleAudit.Settings

/-- The names that dots separate in a key. -/
def keyNames (key : String) : List String :=
  (key.toList.splitOn '.').map String.ofList

/-- Names in lower case: at least one character that a name may hold, and no capital. -/
structure IsIdentifier (name : String) : Prop where
  ne_nil : name.toList ≠ []
  isNameChar_of_mem : ∀ c ∈ name.toList, isNameChar c = true
  isUpper_of_mem : ∀ c ∈ name.toList, c.isUpper = false

instance (name : String) : Decidable (IsIdentifier name) :=
  decidable_of_iff (name.toList ≠ [] ∧ name.toList.all isNameChar = true ∧
      name.toList.all (fun c => !c.isUpper) = true) <| by
    simp only [List.all_eq_true, Bool.not_eq_true']
    exact ⟨fun h => ⟨h.1, h.2.1, h.2.2⟩, fun h => ⟨h.1, h.2, h.3⟩⟩

/-! ## Lower case -/

theorem isUpper_iff_toNat {c : Char} : c.isUpper = true ↔ 65 ≤ c.toNat ∧ c.toNat ≤ 90 := by
  show decide (_ ∧ _) = true ↔ _
  exact decide_eq_true_iff

theorem isLower_iff_toNat {c : Char} : c.isLower = true ↔ 97 ≤ c.toNat ∧ c.toNat ≤ 122 := by
  show (decide _ && decide _) = true ↔ _
  rw [Bool.and_eq_true, decide_eq_true_iff, decide_eq_true_iff]
  exact Iff.rfl

theorem toNat_lt_of_isNameChar {c : Char} (h : isNameChar c = true) : c.toNat < 128 := by
  change (((c.isUpper || c.isLower) || c.isDigit) || decide (c = ' ') || decide (c = '_') ||
    decide (c = '-')) = true at h
  simp only [Bool.or_eq_true, decide_eq_true_eq, isUpper_iff_toNat, isLower_iff_toNat,
    Char.isDigit_iff_toNat] at h
  rcases h with ((((h | h) | h) | rfl) | rfl) | rfl
  · omega
  · omega
  · exact Nat.lt_of_le_of_lt h.2 (by decide)
  all_goals decide

/-- Among the first characters only the capitals of the alphabet have small letters. -/
theorem small_eq_self {c : Char} (hascii : c.toNat < 128) (hupper : c.isUpper = false) :
    Text.small c = c := by
  have hruns : ∀ run ∈ Text.capitalRuns, (run.1 = 65 ∧ run.2.1 = 90) ∨ 128 ≤ run.1 := by
    decide +kernel
  have hnot : ¬ (65 ≤ c.toNat ∧ c.toNat ≤ 90) := by
    rw [← isUpper_iff_toNat, hupper]
    exact Bool.false_ne_true
  simp only [Text.small]
  split
  · rfl
  · next first last step ahead hfound =>
      have hrange := hruns _ (List.mem_of_find?_eq_some hfound)
      have hin := List.find?_some hfound
      simp only [Bool.and_eq_true, decide_eq_true_eq] at hin hrange
      omega

theorem lowercaseFrom_eq_self {text : List Char} (before : List Char)
    (hname : ∀ c ∈ text, isNameChar c = true) (hupper : ∀ c ∈ text, c.isUpper = false) :
    Text.lowercaseFrom before text = text := by
  induction text generalizing before with
  | nil => rfl
  | cons c rest ih =>
      obtain ⟨hc, hrest⟩ := List.forall_mem_cons.1 hname
      obtain ⟨hcupper, hrestupper⟩ := List.forall_mem_cons.1 hupper
      have hdotted : c ≠ 'İ' := by rintro rfl; exact absurd hc (by decide)
      have hsigma : c ≠ 'Σ' := by rintro rfl; exact absurd hc (by decide)
      rw [Text.lowercaseFrom, if_neg hdotted, if_neg hsigma, ih _ hrest hrestupper,
        small_eq_self (toNat_lt_of_isNameChar hc) hcupper, List.singleton_append]

namespace IsIdentifier

variable {name : String}

theorem lowercase_eq (h : IsIdentifier name) : Text.lowercase name = name := by
  rw [Text.lowercase, lowercaseFrom_eq_self [] h.isNameChar_of_mem h.isUpper_of_mem,
    String.ofList_toList]

/-- An identifier is read up to what no name holds. -/
theorem name?_append (h : IsIdentifier name) {rest : List Char}
    (hrest : ∀ c ∈ rest.head?, isNameChar c = false) :
    name? (name.toList ++ rest) = some (name, rest) := by
  have htake : (name.toList ++ rest).takeWhile isNameChar = name.toList := by
    rw [List.takeWhile_append_of_pos h.isNameChar_of_mem]
    cases rest with
    | nil => simp
    | cons c others => simp [hrest c rfl]
  have hdrop : (name.toList ++ rest).dropWhile isNameChar = rest := by
    rw [List.dropWhile_append_of_pos h.isNameChar_of_mem]
    cases rest with
    | nil => rfl
    | cons c others => simp [hrest c rfl]
  rw [name?, htake, hdrop, if_neg h.ne_nil, String.ofList_toList]

end IsIdentifier

/-! ## Paths -/

/-- Reading a step takes the name behind a dot. -/
theorem steps?_dot {text rest : List Char} {name : String} (h : name? text = some (name, rest)) :
    steps? ('.' :: text) = (steps? rest).map (.member name :: ·) := by
  have hshorter : rest.length ≤ text.length := by
    simp only [name?] at h
    split at h
    · cases h
    · obtain ⟨-, rfl⟩ := Prod.mk.inj (Option.some.inj h)
      exact (List.dropWhile_suffix _).length_le
  rw [steps?, step?, h]
  simp only [Option.map_some, if_pos hshorter]

/-- Identifiers with dots between are read one by one. -/
theorem exists_steps?_of_isIdentifier {first : String} {others : List String}
    (h : ∀ name ∈ first :: others, IsIdentifier name) :
    ∃ rest, name? (['.'].intercalate ((first :: others).map String.toList)) = some (first, rest) ∧
      steps? rest = some (others.map .member) := by
  induction others generalizing first with
  | nil =>
      refine ⟨[], ?_, by simp [steps?]⟩
      have hread : name? (first.toList ++ []) = some (first, []) :=
        (h first (by simp)).name?_append (by simp)
      simpa using hread
  | cons next more ih =>
      obtain ⟨hfirst, hothers⟩ := List.forall_mem_cons.1 h
      obtain ⟨rest, hname, hsteps⟩ := ih hothers
      refine ⟨'.' :: ['.'].intercalate ((next :: more).map String.toList), ?_, ?_⟩
      · rw [List.map_cons, List.map_cons, List.intercalate_cons_cons, ← List.map_cons,
          List.append_assoc, List.singleton_append]
        refine hfirst.name?_append ?_
        simp only [List.head?_cons, Option.mem_def, Option.some.injEq]
        rintro c rfl
        decide
      · rw [steps?_dot hname, hsteps]
        rfl

/-- A key of identifiers writes the path of its names. -/
theorem parse?_of_isIdentifier {key first : String} {others : List String}
    (hkey : keyNames key = first :: others) (h : ∀ name ∈ keyNames key, IsIdentifier name) :
    Path.parse? key = some ⟨first, others.map .member⟩ := by
  have htext : key.toList = ['.'].intercalate ((first :: others).map String.toList) := by
    rw [← hkey, keyNames, List.map_map]
    simp
  obtain ⟨rest, hname, hsteps⟩ := exists_steps?_of_isIdentifier (hkey ▸ h)
  rw [Path.parse?, htext, hname]
  simp only [hsteps, Option.map_some]

theorem keyNames_ne_nil (key : String) : keyNames key ≠ [] := by
  simp [keyNames, List.splitOn_ne_nil]

/-! ## Plain keys -/

/-- The steps of a key.  A key that writes no path is a name. -/
def keySteps (key : String) : List Step :=
  match Path.parse? key with
  | some path => .member path.first :: path.steps
  | none => [.member key]

theorem keySteps_of_isIdentifier {key : String} (h : ∀ name ∈ keyNames key, IsIdentifier name) :
    keySteps key = (keyNames key).map .member := by
  obtain ⟨first, others, hnames⟩ := List.exists_cons_of_ne_nil (keyNames_ne_nil key)
  rw [keySteps, parse?_of_isIdentifier hnames h, hnames]
  rfl

/-- A key that is one name, or identifiers with dots between. -/
def IsPlainKey (key : String) : Prop :=
  keySteps key = [.member key] ∨ ∀ name ∈ keyNames key, IsIdentifier name

instance (key : String) : Decidable (IsPlainKey key) :=
  inferInstanceAs (Decidable (_ ∨ _))

theorem IsPlainKey.exists_names {key : String} (h : IsPlainKey key) :
    ∃ names : List String, keySteps key = names.map .member := by
  rcases h with hone | hnames
  · exact ⟨[key], hone⟩
  · exact ⟨keyNames key, keySteps_of_isIdentifier hnames⟩

/-- The names that lead to the place of a plain key. -/
def keyPlace (key : String) : List String :=
  if keySteps key = [.member key] then [Text.lowercase key] else keyNames key

theorem keyPlace_of_isIdentifier {key : String} (h : ∀ name ∈ keyNames key, IsIdentifier name) :
    keyPlace key = keyNames key := by
  have hsteps := keySteps_of_isIdentifier h
  rw [keyPlace]
  split
  · next hone =>
      -- the key is its only name, which is in lower case
      have hmember : Function.Injective Step.member := fun _ _ => Step.member.inj
      have hnames : keyNames key = [key] := by
        rw [hsteps] at hone
        exact (List.map_inj_right hmember).1 hone
      rw [hnames, (h key (by simp [hnames])).lowercase_eq]
  · rfl

end RoleAudit.Settings
