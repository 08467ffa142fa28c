import RoleAudit.Proofs.RegistryTexts
import Mathlib.Data.Finset.Card

/-!
# Views of a registry

A registry made of entries keeps the last one of each name, in the order of the names.  It is looked
at in six ways: by name, as a list, by the names of the concrete and of the abstract roles, by
whether a name is concrete, and by its size.  All of them show the same entries, and these determine
the registry.

Main statements: `lookup_ofEntries`, `mem_entries_iff_lookup`, `ofEntries_eq_iff` and
`ofEntries_shows_last`.
-/

namespace RoleAudit.Role

open RoleAudit.Text

/-- The last entry of a name. -/
def lastNamed? (name : String) (entries : List Entry) : Option Entry :=
  (entries.filter fun e => e.name = name).getLast?

theorem lastNamed?_isSome_iff {name : String} {entries : List Entry} :
    (lastNamed? name entries).isSome ↔ name ∈ entries.map Entry.name := by
  rw [lastNamed?, List.getLast?_isSome, List.mem_map]
  simp [List.filter_eq_nil_iff]

namespace Registry

/-- Looking up finds the last entry of a name. -/
theorem lookup_ofEntries (entries : List Entry) (name : String) :
    (ofEntries entries).lookup name = lastNamed? name entries := by
  rw [lookup, ofEntries, Dictionary.get?_ofList, lastNamed?, List.getLast?_eq_head?_reverse,
    ← List.filter_reverse, List.head?_filter, ← List.map_reverse, List.find?_map]
  simp only [Function.comp_def]
  cases hfound : entries.reverse.find? fun e => e.name = name with
  | none => rfl
  | some e =>
      obtain rfl : e.name = name := by simpa using List.find?_some hfound
      rfl

variable {r r' : Registry}

theorem lookup_eq_some_iff {name : String} {e : Entry} :
    r.lookup name = some e ↔ e.name = name ∧ r.roles.get? name = some e.traits := by
  obtain ⟨name', traits⟩ := e
  rw [lookup, Option.map_eq_some_iff]
  simp [and_comm, eq_comm]

/-- The entries of a registry are those that looking up finds. -/
theorem mem_entries_iff_lookup {e : Entry} : e ∈ r.entries ↔ r.lookup e.name = some e := by
  obtain ⟨name, traits⟩ := e
  rw [lookup_eq_some_iff, ← Dictionary.mem_entries_iff, entries, List.mem_map]
  simp

/-- The entries come in the order of the bytes of their names. -/
theorem pairwise_entries (r : Registry) :
    r.entries.Pairwise fun a b => bytesOf a.name < bytesOf b.name := by
  rw [entries, List.pairwise_map]
  exact r.roles.ascending.imp bytesOf_lt

/-- So do the names of any of the entries. -/
theorem pairwise_names (r : Registry) (p : Entry → Bool) :
    ((r.entries.filter p).map Entry.name).Pairwise fun a b => bytesOf a < bytesOf b := by
  rw [List.pairwise_map]
  exact r.pairwise_entries.filter p

theorem nodup_names (r : Registry) : (r.entries.map Entry.name).Nodup := by
  rw [List.Nodup, List.pairwise_map]
  refine r.pairwise_entries.imp fun hlt heq => ?_
  rw [heq] at hlt
  exact List.lt_irrefl _ hlt

theorem mem_names_filter {p : Entry → Bool} {name : String} :
    name ∈ (r.entries.filter p).map Entry.name ↔ ∃ e, r.lookup name = some e ∧ p e = true := by
  simp only [List.mem_map, List.mem_filter, mem_entries_iff_lookup]
  constructor
  · rintro ⟨e, ⟨he, hp⟩, rfl⟩
    exact ⟨e, he, hp⟩
  · rintro ⟨e, he, hp⟩
    obtain ⟨rfl, -⟩ := lookup_eq_some_iff.1 he
    exact ⟨e, ⟨he, hp⟩, rfl⟩

theorem mem_names {name : String} :
    name ∈ r.entries.map Entry.name ↔ (r.lookup name).isSome := by
  have hall := @mem_names_filter r (fun _ => true) name
  simpa [Option.isSome_iff_exists] using hall

theorem mem_concreteRoles {name : String} :
    name ∈ r.concreteRoles ↔ ∃ e, r.lookup name = some e ∧ e.traits.isAbstract = false := by
  simp [concreteRoles, mem_names_filter]

theorem mem_abstractRoles {name : String} :
    name ∈ r.abstractRoles ↔ ∃ e, r.lookup name = some e ∧ e.traits.isAbstract = true :=
  mem_names_filter

/-- No role is concrete and abstract. -/
theorem disjoint_roles (r : Registry) : r.concreteRoles.Disjoint r.abstractRoles := by
  intro name hconcrete habstract
  obtain ⟨e, he, hfalse⟩ := mem_concreteRoles.1 hconcrete
  obtain ⟨e', he', htrue⟩ := mem_abstractRoles.1 habstract
  rw [he, Option.some.injEq] at he'
  rw [← he', hfalse] at htrue
  cases htrue

/-- Every role is concrete or abstract. -/
theorem perm_roles (r : Registry) :
    (r.abstractRoles ++ r.concreteRoles).Perm (r.entries.map Entry.name) := by
  rw [abstractRoles, concreteRoles, ← List.map_append]
  exact (List.filter_append_perm _ _).map _

theorem isConcrete_iff {name : String} : r.isConcrete name = true ↔ name ∈ r.concreteRoles := by
  rw [mem_concreteRoles, isConcrete, lookup]
  cases r.roles.get? name <;> simp

theorem size_eq (r : Registry) : r.size = (r.entries.map Entry.name).length := by
  simp [size, Dictionary.size, entries]

/-- A registry is determined by what looking up finds. -/
theorem ext_lookup (h : ∀ name, r.lookup name = r'.lookup name) : r = r' := by
  have hroles : r.roles = r'.roles := by
    refine Dictionary.ext fun name => Option.ext fun traits => ?_
    have hname := Option.ext_iff.1 (h name) ⟨name, traits⟩
    simpa [lookup_eq_some_iff] using hname
  cases r
  cases r'
  cases hroles
  rfl

/-- Entries make the same registry exactly if the last entry of every name is the same. -/
theorem ofEntries_eq_iff {entries entries' : List Entry} :
    ofEntries entries' = ofEntries entries ↔
      ∀ name, lastNamed? name entries' = lastNamed? name entries := by
  simp only [← lookup_ofEntries]
  exact ⟨fun h name => by rw [h], ext_lookup⟩

/-- The order of entries with different names makes no difference. -/
theorem ofEntries_eq_of_perm {entries entries' : List Entry} (h : entries'.Perm entries)
    (hnames : (entries.map Entry.name).Nodup) : ofEntries entries' = ofEntries entries :=
  ofEntries_congr ((h.map _).nodup_iff.2 hnames) hnames fun _ => h.mem_iff

theorem size_ofEntries (entries : List Entry) :
    (ofEntries entries).size = (entries.map Entry.name).toFinset.card := by
  have hnames : ((ofEntries entries).entries.map Entry.name).toFinset =
      (entries.map Entry.name).toFinset := by
    ext name
    rw [List.mem_toFinset, List.mem_toFinset, mem_names, lookup_ofEntries, lastNamed?_isSome_iff]
  rw [size_eq, ← List.toFinset_card_of_nodup (nodup_names _), hnames]

/-- Whichever way one looks at a registry, it shows the last entries of a list. -/
structure ShowsLast (r : Registry) (entries : List Entry) : Prop where
  /-- Looking up finds the last entry of a name, and nothing if there is none. -/
  lookup : ∀ name, r.lookup name = lastNamed? name entries
  /-- Listed are the entries that are the last of their names. -/
  listed : ∀ e, e ∈ r.entries ↔ lastNamed? e.name entries = some e
  /-- Each is listed once, in the order of the bytes of the names. -/
  ascending : r.entries.Pairwise fun a b => bytesOf a.name < bytesOf b.name
  concrete : ∀ name, name ∈ r.concreteRoles ↔
    ∃ e, lastNamed? name entries = some e ∧ e.traits.isAbstract = false
  abstract : ∀ name, name ∈ r.abstractRoles ↔
    ∃ e, lastNamed? name entries = some e ∧ e.traits.isAbstract = true
  concrete_ascending : r.concreteRoles.Pairwise fun a b => bytesOf a < bytesOf b
  abstract_ascending : r.abstractRoles.Pairwise fun a b => bytesOf a < bytesOf b
  disjoint : r.concreteRoles.Disjoint r.abstractRoles
  /-- Together they are the names of the listed entries. -/
  names : (r.abstractRoles ++ r.concreteRoles).Perm (r.entries.map Entry.name)
  isConcrete : ∀ name, r.isConcrete name = true ↔ name ∈ r.concreteRoles
  /-- As many are counted as there are different names. -/
  size : r.size = (entries.map Entry.name).toFinset.card

/-- A registry made of entries shows the last entry of each name, whichever way one looks at it.
Entries make the same registry exactly if they have the same last entry of every name, and so do
entries of different names in any order. -/
theorem ofEntries_shows_last (entries : List Entry) :
    (ofEntries entries).ShowsLast entries ∧
    ∀ entries', (ofEntries entries' = ofEntries entries ↔
        ∀ name, lastNamed? name entries' = lastNamed? name entries) ∧
      (entries'.Perm entries → (entries.map Entry.name).Nodup →
        ofEntries entries' = ofEntries entries) := by
  refine ⟨?_, fun entries' => ⟨ofEntries_eq_iff, ofEntries_eq_of_perm⟩⟩
  have hlookup := lookup_ofEntries entries
  exact {
    lookup := hlookup
    listed := fun e => by rw [mem_entries_iff_lookup, hlookup]
    ascending := pairwise_entries _
    concrete := fun name => by rw [mem_concreteRoles, hlookup]
    abstract := fun name => by rw [mem_abstractRoles, hlookup]
    concrete_ascending := pairwise_names _ _
    abstract_ascending := pairwise_names _ _
    disjoint := disjoint_roles _
    names := perm_roles _
    isConcrete := fun _ => isConcrete_iff
    size := size_ofEntries entries }

end Registry

/-- Three entries, in no order. -/
def scatteredEntries : List Entry :=
  [⟨"widget", true, ["roletype"]⟩, ⟨"button", false, ["command"]⟩, ⟨"é", false, []⟩]

theorem ofEntries_shows_last_sample :
    scatteredEntries.reverse.Perm scatteredEntries ∧ (scatteredEntries.map Entry.name).Nodup ∧
      Registry.ofEntries scatteredEntries.reverse = Registry.ofEntries scatteredEntries := by
  have hperm := List.reverse_perm scatteredEntries
  have hnodup : (scatteredEntries.map Entry.name).Nodup := by decide
  exact ⟨hperm, hnodup,
    ((Registry.ofEntries_shows_last scatteredEntries).2 _).2 hperm hnodup⟩

end RoleAudit.Role
