import RoleAudit.Proofs.ByteOrder
import RoleAudit.Proofs.LastEntries
import RoleAudit.Role.FromJson
import Mathlib.Data.List.Forall2

/-!
# Registries from JSON texts

The members of an object are put in the order of their names, the last of each name, before any of
them is converted.  So the order in which they are written does not matter, and the conversion stops
at the least name whose value is no entry: there is either a registry of all entries or no registry.

Main statements: `readTraits_eq_ok_iff`, which says what an entry is written as,
`ofMembers_of_entries`, `ofMembers_of_bad` and `ofJson_all_or_nothing`.
-/

namespace RoleAudit.Role

open RoleAudit.Json (Value member? parseObject)
open RoleAudit.Text

/-! ### Conversions one after the other -/

section Conversions

variable {α β ε : Type} {f : α → Except ε β}

theorem mapM_cons_of_ok {a : α} {b : β} (h : f a = .ok b) (l : List α) :
    (a :: l).mapM f = (l.mapM f).map (b :: ·) := by
  rw [List.mapM_cons, h]
  cases l.mapM f <;> rfl

theorem mapM_cons_of_error {a : α} {e : ε} (h : f a = .error e) (l : List α) :
    (a :: l).mapM f = .error e := by
  rw [List.mapM_cons, h]
  rfl

/-- All conversions succeed, one for each result. -/
theorem mapM_eq_ok_iff {l : List α} {r : List β} :
    l.mapM f = .ok r ↔ List.Forall₂ (fun a b => f a = .ok b) l r := by
  induction l generalizing r with
  | nil =>
      rw [List.mapM_nil, List.forall₂_nil_left_iff, eq_comm (a := r)]
      exact Except.ok.injEq [] r ▸ Iff.rfl
  | cons a l ih =>
      cases ha : f a with
      | error e =>
          rw [mapM_cons_of_error ha, List.forall₂_cons_left_iff]
          simp [ha]
      | ok b =>
          rw [mapM_cons_of_ok ha, List.forall₂_cons_left_iff]
          simp only [ha, ← ih, Except.ok.injEq]
          cases hl : l.mapM f with
          | error e => simp [Except.map]
          | ok r' => simp [Except.map, eq_comm]

/-- If the conversions fail, the first that does tells the error. -/
theorem exists_of_mapM_eq_error {l : List α} {e : ε} (h : l.mapM f = .error e) :
    ∃ front first back, l = front ++ first :: back ∧ (∀ a ∈ front, ∃ b, f a = .ok b) ∧
      f first = .error e := by
  induction l with
  | nil => cases h
  | cons a l ih =>
      cases ha : f a with
      | error e' =>
          rw [mapM_cons_of_error ha] at h
          cases h
          exact ⟨[], a, l, rfl, by simp, ha⟩
      | ok b =>
          rw [mapM_cons_of_ok ha] at h
          cases hl : l.mapM f with
          | ok r =>
              rw [hl] at h
              cases h
          | error e' =>
              rw [hl] at h
              cases h
              obtain ⟨front, first, back, rfl, hfront, hfirst⟩ := ih hl
              exact ⟨a :: front, first, back, rfl, List.forall_mem_cons.2 ⟨⟨b, ha⟩, hfront⟩, hfirst⟩

end Conversions

/-! ### Entries as they are written -/

/-- The values that the entry of a role is written as. -/
inductive IsEntryOf : Value → Traits → Prop
  /-- An object with a truth value, and no list of superclasses. -/
  | plain {members : List (String × Value)} {isAbstract : Bool}
      (habstract : member? "abstract" members = some (.boolean isAbstract))
      (hsuper : member? "superClass" members = none) :
      IsEntryOf (.object members) ⟨isAbstract, []⟩
  /-- An object with a truth value and a list of texts. -/
  | specialised {members : List (String × Value)} {isAbstract : Bool} {superclasses : List String}
      (habstract : member? "abstract" members = some (.boolean isAbstract))
      (hsuper : member? "superClass" members = some (.array (superclasses.map .string))) :
      IsEntryOf (.object members) ⟨isAbstract, superclasses⟩
  /-- A list of a truth value. -/
  | single {isAbstract : Bool} : IsEntryOf (.array [.boolean isAbstract]) ⟨isAbstract, []⟩
  /-- A list of a truth value and a list of texts. -/
  | pair {isAbstract : Bool} {superclasses : List String} :
      IsEntryOf (.array [.boolean isAbstract, .array (superclasses.map .string)])
        ⟨isAbstract, superclasses⟩

theorem readBoolean_eq_ok_iff {value : Value} {b : Bool} :
    readBoolean value = .ok b ↔ value = .boolean b := by
  cases value <;> simp [readBoolean]

theorem readTexts_eq_ok_iff {value : Value} {texts : List String} :
    readTexts value = .ok texts ↔ value = .array (texts.map .string) := by
  have htext : ∀ {item : Value} {text : String}, readText item = .ok text ↔ item = .string text := by
    intro item text
    cases item <;> simp [readText]
  cases value <;> simp only [readTexts, reduceCtorEq, Value.array.injEq]
  rename_i items
  rw [mapM_eq_ok_iff]
  simp only [htext]
  rw [← List.forall₂_eq_eq_eq, List.forall₂_map_right_iff]

theorem bind_eq_ok_iff {α β ε : Type} {x : Except ε α} {f : α → Except ε β} {b : β} :
    (x >>= f) = .ok b ↔ ∃ a, x = .ok a ∧ f a = .ok b := by
  cases x with
  | error e => simp [bind, Except.bind]
  | ok a => simp [bind, Except.bind]

theorem mapM_option_eq_ok_iff {α β ε : Type} {f : α → Except ε β} {o : Option α} {r : Option β} :
    o.mapM f = .ok r ↔ (o = none ∧ r = none) ∨ ∃ a b, o = some a ∧ f a = .ok b ∧ r = some b := by
  cases o with
  | none => simp [pure, Except.pure, eq_comm]
  | some a =>
      cases ha : f a with
      | error e => simp [ha, Functor.map, Except.map]
      | ok b => simp [ha, Functor.map, Except.map, eq_comm]

theorem isEntryOf_of_object {members : List (String × Value)} {traits : Traits}
    (h : readTraits (.object members) = .ok traits) : IsEntryOf (.object members) traits := by
  simp only [readTraits, bind_eq_ok_iff, mapM_option_eq_ok_iff, readBoolean_eq_ok_iff,
    readTexts_eq_ok_iff] at h
  obtain ⟨flag, hflag, supers, hsupers, h⟩ := h
  rcases hflag with ⟨-, rfl⟩ | ⟨_, isAbstract, habstract, rfl, rfl⟩
  · cases h
  · cases h
    rcases hsupers with ⟨hsuper, rfl⟩ | ⟨_, superclasses, hsuper, rfl, rfl⟩
    · exact .plain habstract hsuper
    · exact .specialised habstract hsuper

theorem isEntryOf_of_array {items : List Value} {traits : Traits}
    (h : readTraits (.array items) = .ok traits) : IsEntryOf (.array items) traits := by
  cases items with
  | nil => cases h
  | cons first others =>
      simp only [readTraits, bind_eq_ok_iff, mapM_option_eq_ok_iff, readBoolean_eq_ok_iff,
        readTexts_eq_ok_iff] at h
      obtain ⟨isAbstract, rfl, supers, hsupers, h⟩ := h
      split at h
      · cases h
      · next hlength =>
          cases h
          rcases hsupers with ⟨hhead, rfl⟩ | ⟨_, superclasses, hhead, rfl, rfl⟩
          · obtain rfl := List.head?_eq_none_iff.1 hhead
            exact .single
          · obtain ⟨others, rfl⟩ := List.head?_eq_some_iff.1 hhead
            obtain rfl : others = [] := by
              rw [List.length_cons, List.length_cons] at hlength
              exact List.eq_nil_of_length_eq_zero (by omega)
            exact .pair

/-- A value is taken for an entry exactly if it is written as one. -/
theorem readTraits_eq_ok_iff {value : Value} {traits : Traits} :
    readTraits value = .ok traits ↔ IsEntryOf value traits := by
  constructor
  · intro h
    cases value with
    | object members => exact isEntryOf_of_object h
    | array items => exact isEntryOf_of_array h
    | null | boolean _ | number _ | string _ => cases h
  · intro h
    cases h with
    | plain habstract hsuper =>
        simp only [readTraits, bind_eq_ok_iff, mapM_option_eq_ok_iff, readBoolean_eq_ok_iff]
        exact ⟨some _, .inr ⟨_, _, habstract, rfl, rfl⟩, none, .inl ⟨hsuper, rfl⟩, rfl⟩
    | specialised habstract hsuper =>
        simp only [readTraits, bind_eq_ok_iff, mapM_option_eq_ok_iff, readBoolean_eq_ok_iff,
          readTexts_eq_ok_iff]
        exact ⟨some _, .inr ⟨_, _, habstract, rfl, rfl⟩, some _, .inr ⟨_, _, hsuper, rfl, rfl⟩, rfl⟩
    | single => rfl
    | pair =>
        simp only [readTraits, bind_eq_ok_iff, mapM_option_eq_ok_iff, readBoolean_eq_ok_iff,
          readTexts_eq_ok_iff]
        exact ⟨_, rfl, some _, .inr ⟨_, _, rfl, rfl, rfl⟩, rfl⟩

/-! ### Registries -/

/-- A member of an object says what an entry of a registry is. -/
def Converts (member : String × Value) (entry : Entry) : Prop :=
  entry.name = member.1 ∧ IsEntryOf member.2 entry.traits

/-- A value that is not written like an entry. -/
def IsNoEntry (value : Value) : Prop :=
  ∀ traits, ¬ IsEntryOf value traits

theorem readEntry_eq_ok_iff {member : String × Value} {entry : Entry} :
    readEntry member = .ok entry ↔ Converts member entry := by
  rw [Converts, ← readTraits_eq_ok_iff, readEntry]
  cases h : readTraits member.2 with
  | error problem => simp
  | ok traits =>
      rw [Except.ok.injEq, Except.ok.injEq]
      constructor
      · rintro rfl
        exact ⟨rfl, rfl⟩
      · rintro ⟨hname, rfl⟩
        rw [← hname]

theorem exists_problem {value : Value} (h : IsNoEntry value) :
    ∃ problem, readTraits value = .error problem := by
  cases hread : readTraits value with
  | error problem => exact ⟨problem, rfl⟩
  | ok traits => exact absurd (readTraits_eq_ok_iff.1 hread) (h traits)

theorem readEntry_of_problem {member : String × Value} {problem : EntryProblem}
    (h : readTraits member.2 = .error problem) :
    readEntry member = .error (.invalidEntry member.1 problem) := by
  rw [readEntry, h]

/-- A member says one thing only. -/
theorem Converts.unique {member : String × Value} {entry entry' : Entry} (h : Converts member entry)
    (h' : Converts member entry') : entry = entry' :=
  Except.ok.inj ((readEntry_eq_ok_iff.2 h).symm.trans (readEntry_eq_ok_iff.2 h'))

variable {members : List (String × Value)} {entries : List Entry}

theorem names_of_converts (h : List.Forall₂ Converts members entries) :
    entries.map Entry.name = members.map Prod.fst := by
  induction h with
  | nil => rfl
  | cons hfirst _ ih => rw [List.map_cons, List.map_cons, hfirst.1, ih]

theorem mem_of_converts (h : List.Forall₂ Converts members entries) {entry : Entry} :
    entry ∈ entries ↔ ∃ m ∈ members, Converts m entry := by
  induction h with
  | nil => simp
  | @cons m e ms es hfirst _ ih =>
      rw [List.mem_cons, ih]
      simp only [List.exists_mem_cons_iff]
      refine or_congr_left ⟨fun heq => heq ▸ hfirst, fun hentry => hentry.unique hfirst⟩

theorem exists_of_converts (h : List.Forall₂ Converts members entries) {m : String × Value}
    (hm : m ∈ members) : ∃ entry, Converts m entry := by
  induction h with
  | nil => cases hm
  | cons hfirst _ ih =>
      rcases List.mem_cons.1 hm with rfl | hm
      · exact ⟨_, hfirst⟩
      · exact ih hm

/-- The conversion in the order of names, all of which are different. -/
theorem mapM_readEntry_eq_ok_iff : members.mapM readEntry = .ok entries ↔
    List.Forall₂ Converts members entries := by
  simp only [mapM_eq_ok_iff, readEntry_eq_ok_iff]

theorem nodup_keys (members : List (String × Value)) :
    ((Dictionary.ofList members).entries.map Prod.fst).Nodup := by
  rw [List.Nodup, List.pairwise_map]
  exact (Dictionary.ascending _).imp fun hlt => ne_of_lt hlt

namespace Registry

/-- Entries of different names make a registry in any order. -/
theorem ofEntries_congr {entries' : List Entry} (hnames : (entries.map Entry.name).Nodup)
    (hnames' : (entries'.map Entry.name).Nodup) (h : ∀ e, e ∈ entries ↔ e ∈ entries') :
    ofEntries entries = ofEntries entries' := by
  have hlast : ∀ {es : List Entry}, (es.map Entry.name).Nodup →
      lastEntries (es.map fun e => (e.name, e.traits)) = es.map fun e => (e.name, e.traits) := by
    intro es hes
    exact lastEntries_of_nodup (by rwa [List.map_map])
  rw [ofEntries, ofEntries]
  congr 1
  rw [Dictionary.ofList_eq_iff, hlast hnames, hlast hnames']
  intro entry
  simp only [List.mem_map, h]

/-- If all members convert that count, their entries make the registry. -/
theorem ofMembers_of_entries (h : List.Forall₂ Converts (lastEntries members) entries) :
    ofMembers members = .ok (ofEntries entries) := by
  unfold ofMembers
  cases hmembers : (Dictionary.ofList members).entries.mapM readEntry with
  | error e =>
      obtain ⟨front, first, back, hsplit, -, hfirst⟩ := exists_of_mapM_eq_error hmembers
      have hmem : first ∈ (Dictionary.ofList members).entries := by simp [hsplit]
      obtain ⟨entry, hentry⟩ := exists_of_converts h (Dictionary.mem_entries_ofList.1 hmem)
      rw [readEntry_eq_ok_iff.2 hentry] at hfirst
      cases hfirst
  | ok entries' =>
      have h' := mapM_readEntry_eq_ok_iff.1 hmembers
      -- the entries by name are the same ones in another order
      refine congrArg Except.ok (ofEntries_congr ?_ ?_ fun e => ?_)
      · rw [names_of_converts h']
        exact nodup_keys members
      · rw [names_of_converts h]
        exact nodup_lastEntries members
      · rw [mem_of_converts h', mem_of_converts h]
        simp only [Dictionary.mem_entries_ofList]

/-- If a member does not convert, the least of those that do not is reported. -/
theorem ofMembers_of_bad {bad : String × Value} (hbad : bad ∈ lastEntries members)
    (h : IsNoEntry bad.2) : ∃ least ∈ lastEntries members, ∃ problem,
      readTraits least.2 = .error problem ∧
      (∀ m ∈ lastEntries members, IsNoEntry m.2 → bytesOf least.1 ≤ bytesOf m.1) ∧
      ofMembers members = .error (.invalidEntry least.1 problem) := by
  unfold ofMembers
  cases hmembers : (Dictionary.ofList members).entries.mapM readEntry with
  | ok entries =>
      obtain ⟨entry, -, hentry⟩ := exists_of_converts (mapM_readEntry_eq_ok_iff.1 hmembers)
        (Dictionary.mem_entries_ofList.2 hbad)
      exact absurd hentry (h _)
  | error e =>
      obtain ⟨front, least, back, hsplit, hfront, hleast⟩ := exists_of_mapM_eq_error hmembers
      have hmem : least ∈ (Dictionary.ofList members).entries := by simp [hsplit]
      have hno : IsNoEntry least.2 := by
        intro traits htraits
        rw [(@readEntry_eq_ok_iff least ⟨least.1, traits⟩).2 ⟨rfl, htraits⟩] at hleast
        cases hleast
      obtain ⟨problem, hproblem⟩ := exists_problem hno
      rw [readEntry_of_problem hproblem] at hleast
      cases hleast
      refine ⟨least, Dictionary.mem_entries_ofList.1 hmem, problem, hproblem, fun m hm hmbad => ?_,
        rfl⟩
      have hascending := (Dictionary.ofList members).ascending
      rw [hsplit, List.pairwise_append, List.pairwise_cons] at hascending
      rw [← Dictionary.mem_entries_ofList, hsplit, List.mem_append, List.mem_cons] at hm
      rcases hm with hm | rfl | hm
      · obtain ⟨entry, hentry⟩ := hfront m hm
        exact absurd (readEntry_eq_ok_iff.1 hentry).2 (hmbad _)
      · exact List.le_refl _
      · exact List.le_of_lt (bytesOf_lt (hascending.2.1.1 m hm))

/-- Objects whose members that count are the same make the same registry, or the same error. -/
theorem ofMembers_congr {members' : List (String × Value)}
    (h : ∀ m, m ∈ lastEntries members' ↔ m ∈ lastEntries members) :
    ofMembers members' = ofMembers members := by
  rw [ofMembers, ofMembers, Dictionary.ofList_eq_iff.2 h]

theorem ofJson_of_members {source : String} (h : parseObject source = .ok members) :
    ofJson source = ofMembers members := by
  rw [ofJson, h]

end Registry

/-- A text that writes an object makes a registry of all its entries, or none.  Of several members of
one name the last counts.  If each of these is written like an entry, there is the registry of these
entries, in any order.  Otherwise the least name in the order of bytes with a value that is no entry
is reported.  A text whose members that count are the same ones in another order has the same
outcome. -/
theorem ofJson_all_or_nothing (source : String) (members : List (String × Value))
    (h : parseObject source = .ok members) :
    ((members.map Prod.fst).Nodup → lastEntries members = members) ∧
    (∀ entries, List.Forall₂ Converts (lastEntries members) entries →
      Registry.ofJson source = .ok (.ofEntries entries)) ∧
    (∀ bad ∈ lastEntries members, IsNoEntry bad.2 → ∃ least ∈ lastEntries members, ∃ problem,
      readTraits least.2 = .error problem ∧
      (∀ m ∈ lastEntries members, IsNoEntry m.2 → bytesOf least.1 ≤ bytesOf m.1) ∧
      Registry.ofJson source = .error (.invalidEntry least.1 problem)) ∧
    ∀ (source' : String) (members' : List (String × Value)), parseObject source' = .ok members' →
      (lastEntries members').Perm (lastEntries members) →
        Registry.ofJson source' = Registry.ofJson source := by
  rw [Registry.ofJson_of_members h]
  refine ⟨lastEntries_of_nodup, fun entries => Registry.ofMembers_of_entries,
    fun bad => Registry.ofMembers_of_bad, fun source' members' h' hperm => ?_⟩
  rw [Registry.ofJson_of_members h']
  exact Registry.ofMembers_congr fun m => hperm.mem_iff

/-- A text with two members of one name, the first of which is no entry. -/
def repeatedText : String :=
  "\x7b\"b\": 1, \"a\": \x7b\"abstract\": true, \"x\": null\x7d, \"b\": [false, [\"c\"]]\x7d"

/-- The members of `repeatedText`. -/
def repeatedMembers : List (String × Value) :=
  [("b", .number (.natural 1)), ("a", .object [("abstract", .boolean true), ("x", .null)]),
    ("b", .array [.boolean false, .array [.string "c"]])]

/-- A text with two members that are no entries, the greater name first. -/
def brokenText : String := "\x7b\"d\": [], \"a\": [true], \"c\": \x7b\x7d\x7d"

/-- The members of `brokenText`. -/
def brokenMembers : List (String × Value) :=
  [("d", .array []), ("a", .array [.boolean true]), ("c", .object [])]

theorem ofJson_all_or_nothing_sample :
    (parseObject repeatedText = .ok repeatedMembers ∧
      Registry.ofJson repeatedText =
        .ok (.ofEntries [⟨"a", ⟨true, []⟩⟩, ⟨"b", ⟨false, ["c"]⟩⟩])) ∧
      parseObject brokenText = .ok brokenMembers ∧
      ∃ least ∈ lastEntries brokenMembers, ∃ problem,
        readTraits least.2 = .error problem ∧
        (∀ m ∈ lastEntries brokenMembers, IsNoEntry m.2 → bytesOf least.1 ≤ bytesOf m.1) ∧
        Registry.ofJson brokenText = .error (.invalidEntry least.1 problem) := by
  have hrepeated : parseObject repeatedText = .ok repeatedMembers := by with_unfolding_all rfl
  have hbroken : parseObject brokenText = .ok brokenMembers := by with_unfolding_all rfl
  refine ⟨⟨hrepeated, ?_⟩, hbroken, ?_⟩
  · exact (ofJson_all_or_nothing repeatedText repeatedMembers hrepeated).2.1 _
      (.cons ⟨rfl, .plain rfl rfl⟩ (.cons ⟨rfl, @IsEntryOf.pair false ["c"]⟩ .nil))
  · refine (ofJson_all_or_nothing brokenText brokenMembers hbroken).2.2.1 ("d", .array []) ?_ ?_
    · simp [brokenMembers, lastEntries]
    · intro traits h
      cases h

end RoleAudit.Role
