import RoleAudit.Proofs.Assignments
import RoleAudit.Proofs.LayerOrder
import RoleAudit.Proofs.OptionReadings

/-!
# Which layer decides

For each option of the rule on roles one value decides: of the value by path that sets the option, of
the last file that sets it, or the default.  Tables without members set nothing.

Main statement: `layers_decide_options`, in whatever order values by path are given, and for layers
that are merged key by key in whatever order tables are gone through.
-/

namespace RoleAudit.Settings

open RoleAudit.Audit (RoleOptions)
open RoleAudit.Files (Disk)

/-! ## What layers assign -/

namespace Layer

/-- What a layer assigns. -/
def assignments (disk : Disk) (layer : Layer) : List Assignment :=
  (layer.members disk).map fun m => ⟨keySteps m.1, m.2⟩

/-- What a layer assigns at the end of some names. -/
def gives (disk : Disk) (names : List String) (layer : Layer) : List Assignment :=
  further names (layer.assignments disk)

/-- The value that a layer sets at the end of some names. -/
def sets? (disk : Disk) (names : List String) (layer : Layer) : Option Value :=
  ((layer.gives disk names).filterMap Assignment.whole?).getLast?

end Layer

/-- The value that the last of some layers sets that sets one. -/
def lastSet? (disk : Disk) (names : List String) (layers : List Layer) : Option Value :=
  (layers.filterMap (Layer.sets? disk names)).getLast?

/-- The value that decides: of a value by path, of the last file, or the default. -/
def deciding? (disk : Disk) (names : List String) (layers : List Layer) : Option Value :=
  ((lastSet? disk names (layers.filter Layer.isOverride)).or
    (lastSet? disk names (layers.filter Layer.isFile))).or (defaults.at? names)

/-- The names that lead to the options of the rule. -/
def rulePlace : List String := ["rules", "aria_role"]

/-- The names that lead to the option on components. -/
def flagPlace : List String := ["rules", "aria_role", "ignore_non_dom"]

/-- The names that lead to the option on words. -/
def wordsPlace : List String := ["rules", "aria_role", "allowed_invalid_roles"]

/-- Layers that make nothing but tables on the way to the options of the rule. -/
def MakeTables (disk : Disk) (layers : List Layer) : Prop :=
  ∀ layer ∈ layers, (∀ a ∈ layer.gives disk ["rules"], a.isTable) ∧
    ∀ a ∈ layer.gives disk rulePlace, a.isTable

instance (disk : Disk) (layers : List Layer) : Decidable (MakeTables disk layers) :=
  inferInstanceAs (Decidable (∀ layer ∈ layers, (∀ a ∈ layer.gives disk ["rules"], a.isTable) ∧
    ∀ a ∈ layer.gives disk rulePlace, a.isTable))

/-! ## Settings as assignments -/

theorem applyAll_members (members : List (String × Value)) (settings : Value) :
    applyAll (members.map fun m => ⟨keySteps m.1, m.2⟩) (some settings) =
      some (addMembers settings members) := by
  induction members generalizing settings with
  | nil => rfl
  | cons m others ih =>
      rw [addMembers, List.foldl_cons, addMember_eq_put]
      exact ih _

/-- Settings are what the layers assign over the defaults. -/
theorem applyAll_layered (disk : Disk) (layers : List Layer) :
    applyAll ((counted layers).flatMap (Layer.assignments disk)) (some defaults) =
      some (layered disk layers) := by
  rw [layered, ← applyAll_members, List.map_flatMap]
  rfl

/-- The steps of a key start at a member. -/
theorem isTable_of_mem_assignments {disk : Disk} {layer : Layer} {a : Assignment}
    (h : a ∈ layer.assignments disk) : a.isTable := by
  obtain ⟨m, -, rfl⟩ := List.mem_map.1 h
  rw [keySteps]
  cases Path.parse? m.1 <;> rfl

/-- Layers make tables at the top and wherever they are required to. -/
theorem MakeTables.isTable_further {disk : Disk} {layers : List Layer} (h : MakeTables disk layers)
    {front : List String} (hfront : front <+: rulePlace) {a : Assignment}
    (ha : a ∈ further front ((counted layers).flatMap (Layer.assignments disk))) : a.isTable := by
  rw [further_flatMap] at ha
  obtain ⟨layer, hlayer, ha⟩ := List.mem_flatMap.1 ha
  have htables := h layer (mem_counted_iff.1 hlayer)
  match front, hfront with
  | [], _ => exact isTable_of_mem_assignments ha
  | [name], hfront =>
      obtain rfl : name = "rules" := by simpa [rulePlace, List.cons_prefix_cons] using hfront
      exact htables.1 a ha
  | [name, name'], hfront =>
      obtain ⟨rfl, rfl⟩ : name = "rules" ∧ name' = "aria_role" := by
        simpa [rulePlace, List.cons_prefix_cons] using hfront
      exact htables.2 a ha
  | _ :: _ :: _ :: _, hfront => simp [rulePlace, List.cons_prefix_cons] at hfront

/-- What the layers leave at the end of some names. -/
def left? (disk : Disk) (layers : List Layer) (names : List String) : Option Value :=
  applyAll ((counted layers).flatMap (Layer.gives disk names)) (defaults.at? names)

/-- What the settings hold at a place is what the layers leave there. -/
theorem at?_layered {disk : Disk} {layers : List Layer} (h : MakeTables disk layers)
    {names : List String}
    (hnames : ∀ front, front <+: names → front ≠ names → front <+: rulePlace) :
    (layered disk layers).at? names = left? disk layers names := by
  have hfronts : ∀ front, front <+: names → front ≠ names →
      ∀ a ∈ further front ((counted layers).flatMap (Layer.assignments disk)), a.isTable :=
    fun front hfront hne a ha => h.isTable_further (hnames front hfront hne) ha
  have hplace := applyAll_bind_at? names hfronts (some defaults)
  rw [applyAll_layered, further_flatMap] at hplace
  exact hplace

/-! ## The value that decides -/

theorem getLast?_whole_flatMap (disk : Disk) (names : List String) (layers : List Layer) :
    ((layers.flatMap (Layer.gives disk names)).filterMap Assignment.whole?).getLast? =
      lastSet? disk names layers := by
  rw [List.filterMap_flatMap, List.getLast?_flatMap, lastSet?, List.getLast?_filterMap]
  rfl

/-- A layer that is merged key by key assigns nothing to items. -/
theorem MergesByKey.isNamed_gives {disk : Disk} {layer : Layer}
    (h : MergesByKey (layer.members disk)) {names : List String} {a : Assignment}
    (ha : a ∈ layer.gives disk names) : a.IsNamed := by
  refine isNamed_further names (List.forall_mem_map.2 fun m hm => ?_) a ha
  exact (h.isPlainKey m hm).exists_names

/-- What is left at a place is the value that decides. -/
theorem deciding?_eq {disk : Disk} {layers : List Layer} {names : List String} {value : Value}
    (hmerge : ∀ layer ∈ layers, MergesByKey (layer.members disk))
    (hdefault : (defaults.at? names).isSome) (hvalue : left? disk layers names = some value)
    (htable : value.isTable = false) : deciding? disk names layers = some value := by
  have hitems : ∀ a ∈ (counted layers).flatMap (Layer.gives disk names), a.isItem = false := by
    intro a ha
    obtain ⟨layer, hlayer, ha⟩ := List.mem_flatMap.1 ha
    exact ((hmerge layer (mem_counted_iff.1 hlayer)).isNamed_gives ha).isItem_eq
  obtain ⟨old, hold⟩ := Option.isSome_iff_exists.1 hdefault
  rw [left?, hold] at hvalue
  have hlast := eq_of_applyAll hvalue htable hitems
  rw [getLast?_whole_flatMap, lastSet?, counted, List.filterMap_append, List.getLast?_append]
    at hlast
  rw [deciding?, hold, lastSet?, lastSet?, hlast, Option.or_some]

theorem isTable_of_readFlag {place : List Step} {value : Value} {flag : Bool}
    (h : readFlag place value = .ok flag) : value.isTable = false := by
  cases value with
  | scalar _ _ | list _ _ => rfl
  | table _ _ => simp [readFlag] at h

theorem isTable_of_readWords {place : List Step} {value : Value} {words : List String}
    (h : readWords place value = .ok words) : value.isTable = false := by
  cases value with
  | list _ _ => rfl
  | scalar _ _ | table _ _ => simp [readWords] at h

/-- The options are read off the values at their places, if a table leads there. -/
theorem reads_of_readSettings {flagFirst : Bool} {settings role : Value} {options : RoleOptions}
    (hrole : settings.at? rulePlace = some role) (htable : role.isTable)
    (h : readSettings flagFirst settings = .ok options) :
    readOr (readFlag (flagPlace.map .member)) false (settings.at? flagPlace) =
        .ok options.ignoreComponents ∧
      readOr (readWords (wordsPlace.map .member)) [] (settings.at? wordsPlace) =
        .ok options.allowed := by
  have hoption : ∀ name, settings.at? (rulePlace ++ [name]) = role.member? name := by
    intro name
    rw [Value.at?_concat, hrole, Option.bind_some]
  have hflagmember : settings.at? flagPlace = role.member? "ignore_non_dom" := hoption _
  have hwordsmember : settings.at? wordsPlace = role.member? "allowed_invalid_roles" := hoption _
  obtain ⟨rules, hrules, hinside⟩ := Option.bind_eq_some_iff.1 hrole
  obtain ⟨found, hfound, hsame⟩ := Option.bind_eq_some_iff.1 hinside
  rw [Option.some.inj hsame] at hfound
  obtain ⟨members, origin, rfl⟩ := Value.exists_table (Value.isTable_of_member? hfound)
  obtain ⟨options', origin', rfl⟩ := Value.exists_table htable
  simp only [readSettings, hrules, readRules, hfound] at h
  rw [hflagmember, hwordsmember]
  exact optionsOf_eq_ok_iff.1 h

/-- The options are the readings of what the layers leave at their places. -/
theorem reads_of_load {disk : Disk} {layers : List Layer} (h : WellKeyed layers)
    (hmerge : ∀ layer ∈ layers, MergesByKey (layer.members disk)) (htables : MakeTables disk layers)
    {order : Order} {options : RoleOptions} (hload : load disk layers order = .ok options) :
    (∃ flag, left? disk layers flagPlace = some flag ∧
      readFlag (flagPlace.map .member) flag = .ok options.ignoreComponents) ∧
    ∃ words, left? disk layers wordsPlace = some words ∧
      readWords (wordsPlace.map .member) words = .ok options.allowed := by
  have hread : readSettings order.flagFirst (layered disk layers) = .ok options := by
    rw [load_eq h hmerge] at hload
    cases hfiles : fileContents disk layers with
    | error fault => rw [hfiles] at hload; cases hload
    | ok contents => rw [hfiles] at hload; exact hload
  have hrule : (layered disk layers).at? rulePlace = left? disk layers rulePlace :=
    at?_layered htables fun front hfront _ => hfront
  obtain ⟨role, hrole, htable⟩ :
      ∃ role, (layered disk layers).at? rulePlace = some role ∧ role.isTable := by
    rw [hrule]
    refine exists_applyAll_isTable (fun a ha => ?_) rfl
    obtain ⟨layer, hlayer, ha⟩ := List.mem_flatMap.1 ha
    exact (htables layer (mem_counted_iff.1 hlayer)).2 a ha
  have hoption : ∀ name, (layered disk layers).at? (rulePlace ++ [name]) =
      left? disk layers (rulePlace ++ [name]) :=
    fun name => at?_layered htables fun front hfront hne =>
      (List.prefix_concat_iff.1 hfront).resolve_left hne
  have hflagplace : (layered disk layers).at? flagPlace = left? disk layers flagPlace := hoption _
  have hwordsplace : (layered disk layers).at? wordsPlace = left? disk layers wordsPlace :=
    hoption _
  obtain ⟨hflag, hwords⟩ := reads_of_readSettings hrole htable hread
  obtain ⟨flag, hleftflag⟩ : ∃ flag, left? disk layers flagPlace = some flag :=
    Option.isSome_iff_exists.1 (isSome_applyAll _ rfl)
  obtain ⟨words, hleftwords⟩ : ∃ words, left? disk layers wordsPlace = some words :=
    Option.isSome_iff_exists.1 (isSome_applyAll _ rfl)
  rw [hflagplace, hleftflag] at hflag
  rw [hwordsplace, hleftwords] at hwords
  exact ⟨⟨flag, hleftflag, hflag⟩, words, hleftwords, hwords⟩

/-! ## Values by path -/

theorem further_nil (names : List String) : further names [] = [] := by
  induction names with
  | nil => rfl
  | cons name names ih => exact ih

/-- What is assigned to a place as a whole is assigned to it or on the way to it. -/
theorem prefix_of_mem_further {front names : List String} (h : ∀ name ∈ front, IsIdentifier name)
    {value : Value} {a : Assignment} (ha : a ∈ further names [⟨front.map .member, value⟩])
    (hwhole : a.steps = []) : front <+: names := by
  induction names generalizing front with
  | nil =>
      obtain rfl := List.mem_singleton.1 ha
      obtain rfl : front = [] := List.map_eq_nil_iff.1 hwhole
      exact List.nil_prefix
  | cons name names ih =>
      cases front with
      | nil => exact List.nil_prefix
      | cons first others =>
          obtain ⟨hfirst, hothers⟩ := List.forall_mem_cons.1 h
          have hinside : Assignment.inside name ⟨(first :: others).map .member, value⟩ =
              Assignment.under first name ⟨others.map .member, value⟩ := by
            cases others with
            | nil => rw [List.map_singleton, Assignment.inside, hfirst.lowercase_eq]; rfl
            | cons next more => rfl
          rw [further, List.flatMap_singleton, hinside, Assignment.under] at ha
          by_cases hname : first = name
          · rw [if_pos hname] at ha
            exact List.cons_prefix_cons.2 ⟨hname, ih hothers ha⟩
          · rw [if_neg hname, further_nil] at ha
            cases ha

/-- A value by path sets what is at its path or behind it. -/
theorem prefix_of_isSome_sets? {disk : Disk} {names : List String} {key : String} {value : Value}
    (hkey : ∀ name ∈ keyNames key, IsIdentifier name)
    (hsets : ((Layer.override key value).sets? disk names).isSome) : keyNames key <+: names := by
  obtain ⟨whole, hwhole⟩ := Option.isSome_iff_exists.1 hsets
  obtain ⟨a, ha, hset⟩ := List.mem_filterMap.1 (List.mem_of_getLast? hwhole)
  have hsteps : a.steps = [] := by
    match a, hset with
    | ⟨[], _⟩, _ => rfl
  have hassigned : (Layer.override key value).assignments disk =
      [⟨(keyNames key).map .member, value⟩] := by
    rw [← keySteps_of_isIdentifier hkey]
    rfl
  rw [Layer.gives, hassigned] at ha
  exact prefix_of_mem_further hkey ha hsteps

/-- At most one value by path sets what is at the end of some names. -/
theorem eq_of_isSome_sets? {disk : Disk} {layers : List Layer} (h : WellKeyed layers)
    {names : List String} {layer layer' : Layer} (hlayer : layer ∈ layers.filter Layer.isOverride)
    (hlayer' : layer' ∈ layers.filter Layer.isOverride) (hsets : (layer.sets? disk names).isSome)
    (hsets' : (layer'.sets? disk names).isSome) : layer = layer' := by
  obtain ⟨hmem, hkind⟩ := List.mem_filter.1 hlayer
  obtain ⟨hmem', hkind'⟩ := List.mem_filter.1 hlayer'
  match layer, layer', hkind, hkind' with
  | .override key value, .override key' value', _, _ =>
      have ho : (key, value) ∈ layers.filterMap Layer.override? :=
        List.mem_filterMap.2 ⟨_, hmem, rfl⟩
      have ho' : (key', value') ∈ layers.filterMap Layer.override? :=
        List.mem_filterMap.2 ⟨_, hmem', rfl⟩
      by_contra hne
      have hapart := h.apart_of_ne ho ho' fun heq => hne (by cases heq; rfl)
      -- both keys lead to the same place, so one of them leads to the other
      rcases List.prefix_or_prefix_of_prefix (prefix_of_isSome_sets? (h.isIdentifier _ ho) hsets)
        (prefix_of_isSome_sets? (h.isIdentifier _ ho') hsets') with hbefore | hbefore
      · exact hapart.1 hbefore
      · exact hapart.2 hbefore

/-! ## The options -/

/-- Layers under keys of identifiers, none of which is on the way to another, give the same result in
any order that keeps the order of the files, and at most one value by path sets an option.  If the
layers are merged key by key, then they give the same options in whatever order tables are gone
through, or none because of the same kind of fault; it is the same fault if the options are read in
the same order.  Each option is then the reading of the value that decides, if tables lead there. -/
theorem layers_decide_options (disk : Disk) {layers : List Layer} (h : WellKeyed layers) :
    (∀ layers', layers.Perm layers' → layers.filter Layer.isFile = layers'.filter Layer.isFile →
      ∀ order, load disk layers order = load disk layers' order) ∧
    (∀ names, ∀ layer ∈ layers.filter Layer.isOverride, ∀ layer' ∈ layers.filter Layer.isOverride,
      (layer.sets? disk names).isSome → (layer'.sets? disk names).isSome → layer = layer') ∧
    ((∀ layer ∈ layers, MergesByKey (layer.members disk)) →
      (∀ layers', layers.Perm layers' → layers.filter Layer.isFile = layers'.filter Layer.isFile →
        ∀ order order', (load disk layers order).mapError Fault.kind =
            (load disk layers' order').mapError Fault.kind ∧
          (order.flagFirst = order'.flagFirst →
            load disk layers order = load disk layers' order')) ∧
      ∀ order options, load disk layers order = .ok options → MakeTables disk layers →
        (deciding? disk flagPlace layers).map (readFlag (flagPlace.map .member)) =
            some (.ok options.ignoreComponents) ∧
          (deciding? disk wordsPlace layers).map (readWords (wordsPlace.map .member)) =
            some (.ok options.allowed)) := by
  refine ⟨fun layers' hperm hfiles order => load_eq_of_perm disk order h hperm hfiles,
    fun names layer hlayer layer' => eq_of_isSome_sets? h hlayer, fun hmerge => ⟨?_, ?_⟩⟩
  · intro layers' hperm hfiles order order'
    rw [← load_eq_of_perm disk order' h hperm hfiles]
    exact ⟨mapError_load_eq h hmerge order order', load_eq_of_flagFirst_eq h hmerge⟩
  · intro order options hload htables
    obtain ⟨⟨flag, hflag, hreadflag⟩, words, hwords, hreadwords⟩ :=
      reads_of_load h hmerge htables hload
    constructor
    · rw [deciding?_eq hmerge rfl hflag (isTable_of_readFlag hreadflag), Option.map_some, hreadflag]
    · rw [deciding?_eq hmerge rfl hwords (isTable_of_readWords hreadwords), Option.map_some,
        hreadwords]

/-- Everything in the order opposite to the one in which it is written. -/
def Order.backward : Order where
  file _ := ⟨fun _ members => members.reverse, fun _ members => members.reverse_perm⟩
  override _ := ⟨fun _ members => members.reverse, fun _ members => members.reverse_perm⟩
  overrides values := values.reverse
  flagFirst := false
  overrides_perm values := values.reverse_perm

/-- A file with a list of words, and one with the option on components. -/
def sampleDisk : Disk := fun path =>
  if path = "words.toml" then
    .ok (.file (.ok "rules.aria_role.allowed_invalid_roles=[\"x\"]".toUTF8))
  else if path = "flag.toml" then
    .ok (.file (.ok "rules.aria_role.ignore_non_dom=true".toUTF8))
  else .error .missing

/-- An option that is set between the files. -/
def sampleLayers : List Layer :=
  [.file "words.toml" true, .override "rules.aria_role.ignore_non_dom" (.scalar (.integer 0) none),
    .file "flag.toml" false]

/-- The same layers, with the option set before the files. -/
def earlierLayers : List Layer :=
  [.override "rules.aria_role.ignore_non_dom" (.scalar (.integer 0) none), .file "words.toml" true,
    .file "flag.toml" false]

theorem layers_decide_options_sample :
    (WellKeyed sampleLayers ∧ ∀ layer ∈ sampleLayers, MergesByKey (layer.members sampleDisk)) ∧
      (load sampleDisk earlierLayers .backward).mapError Fault.kind = .ok ⟨false, ["x"]⟩ ∧
      (deciding? sampleDisk flagPlace sampleLayers).map (readFlag (flagPlace.map .member)) =
        some (.ok false) ∧
      (deciding? sampleDisk wordsPlace sampleLayers).map (readWords (wordsPlace.map .member)) =
        some (.ok ["x"]) := by
  obtain ⟨hkeyed, hmerge, hoptions, htables⟩ : WellKeyed sampleLayers ∧
      (∀ layer ∈ sampleLayers, MergesByKey (layer.members sampleDisk)) ∧
      (load sampleDisk sampleLayers).toOption = some ⟨false, ["x"]⟩ ∧
      MakeTables sampleDisk sampleLayers := by
    decide +kernel
  have hload : load sampleDisk sampleLayers = .ok ⟨false, ["x"]⟩ := by
    cases hresult : load sampleDisk sampleLayers with
    | error fault => rw [hresult] at hoptions; cases hoptions
    | ok options => rw [hresult] at hoptions; exact congrArg Except.ok (Option.some.inj hoptions)
  obtain ⟨-, -, hmerged⟩ := layers_decide_options sampleDisk hkeyed
  obtain ⟨horder, hdecide⟩ := hmerged hmerge
  have hkind := (horder earlierLayers (.swap _ _ _) rfl .written .backward).1
  rw [hload] at hkind
  exact ⟨⟨hkeyed, hmerge⟩, hkind.symm, hdecide .written _ hload htables⟩

/-- A file with two names that are the same in lower case. -/
def clashingDisk : Disk := fun path =>
  if path = "clash.toml" then
    .ok (.file (.ok "[rules.aria_role]\nignore_non_dom = false\nIGNORE_NON_DOM = true".toUTF8))
  else .error .missing

-- Where tables are not merged key by key, the order in which members are met decides.
example : (load clashingDisk [.file "clash.toml" true] .written).toOption = some ⟨true, []⟩ ∧
    (load clashingDisk [.file "clash.toml" true] .backward).toOption = some ⟨false, []⟩ := by
  decide +kernel

end RoleAudit.Settings
