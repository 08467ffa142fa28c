import Mathlib.Data.List.Basic
import Mathlib.Data.List.Induction
import RoleAudit.Proofs.OptionReadings
import RoleAudit.Proofs.TableEntries

/-!
# The order of layers

Files count in the order in which they are given, and values by path after all files.  If the keys
of these values consist of identifiers and none is on the way to another, then the values can be put
in any order, so that settings depend only on the files and on which values there are
(`load_eq_of_perm`).  If moreover the layers are merged key by key, then it does not matter in which
order tables are gone through (`load_eq`): the options are the same, and if there are none, so is the
kind of thing at fault (`mapError_load_eq`).
-/

namespace RoleAudit.Settings

open RoleAudit.Files (Disk)

/-! ## Layers by kind -/

namespace Layer

/-- The path of a file, and whether it is required. -/
def file? : Layer → Option (String × Bool)
  | file path required => some (path, required)
  | override _ _ => none

/-- A value with its key. -/
def override? : Layer → Option (String × Value)
  | file _ _ => none
  | override key value => some (key, value)

/-- Whether a layer is a file. -/
def isFile : Layer → Bool
  | file _ _ => true
  | override _ _ => false

/-- Whether a layer is a value by path. -/
def isOverride : Layer → Bool
  | file _ _ => false
  | override _ _ => true

/-- What a layer says, under keys.  A file that cannot be used says nothing. -/
def members (disk : Disk) : Layer → List (String × Value)
  | file path required => (fileMembers disk required path).toOption.getD []
  | override key value => [(key, value)]

end Layer

/-- The layers in the order in which they count. -/
def counted (layers : List Layer) : List Layer :=
  layers.filter Layer.isFile ++ layers.filter Layer.isOverride

theorem mem_counted_iff {layers : List Layer} {layer : Layer} :
    layer ∈ counted layers ↔ layer ∈ layers := by
  cases layer <;> simp [counted, Layer.isFile, Layer.isOverride]

theorem filterMap_file?_filter (layers : List Layer) :
    (layers.filter Layer.isFile).filterMap Layer.file? = layers.filterMap Layer.file? := by
  rw [List.filterMap_filter]
  exact congrArg (List.filterMap · layers) (funext fun layer => by cases layer <;> rfl)

/-- What values by path say is their values with their keys. -/
theorem flatMap_members_filter (disk : Disk) (layers : List Layer) :
    (layers.filter Layer.isOverride).flatMap (Layer.members disk) =
      layers.filterMap Layer.override? := by
  induction layers with
  | nil => rfl
  | cons layer others ih =>
      cases layer with
      | file path required => exact ih
      | override key value => exact congrArg ((key, value) :: ·) ih

/-- Layers whose keys consist of identifiers, and none is equal to another or on the way to it. -/
structure WellKeyed (layers : List Layer) : Prop where
  isIdentifier : ∀ o ∈ layers.filterMap Layer.override?, ∀ name ∈ keyNames o.1, IsIdentifier name
  apart : (layers.filterMap Layer.override?).Pairwise fun o o' =>
    ¬ keyNames o.1 <+: keyNames o'.1 ∧ ¬ keyNames o'.1 <+: keyNames o.1

theorem wellKeyed_iff (layers : List Layer) : WellKeyed layers ↔
    (∀ o ∈ layers.filterMap Layer.override?, ∀ name ∈ keyNames o.1, IsIdentifier name) ∧
      (layers.filterMap Layer.override?).Pairwise fun o o' =>
        ¬ keyNames o.1 <+: keyNames o'.1 ∧ ¬ keyNames o'.1 <+: keyNames o.1 :=
  ⟨fun h => ⟨h.isIdentifier, h.apart⟩, fun h => ⟨h.1, h.2⟩⟩

instance (layers : List Layer) : Decidable (WellKeyed layers) :=
  decidable_of_iff _ (wellKeyed_iff layers).symm

theorem WellKeyed.perm {layers layers' : List Layer} (h : WellKeyed layers)
    (hperm : layers.Perm layers') : WellKeyed layers' where
  isIdentifier o ho := h.isIdentifier o ((hperm.filterMap Layer.override?).mem_iff.2 ho)
  apart := (hperm.filterMap Layer.override?).pairwise h.apart fun hapart => ⟨hapart.2, hapart.1⟩

/-- The keys of different values are apart, whichever comes first. -/
theorem WellKeyed.apart_of_ne {layers : List Layer} (h : WellKeyed layers) {o o' : String × Value}
    (ho : o ∈ layers.filterMap Layer.override?) (ho' : o' ∈ layers.filterMap Layer.override?)
    (hne : o ≠ o') : ¬ keyNames o.1 <+: keyNames o'.1 ∧ ¬ keyNames o'.1 <+: keyNames o.1 := by
  have : Std.Symm fun o o' : String × Value =>
      ¬ keyNames o.1 <+: keyNames o'.1 ∧ ¬ keyNames o'.1 <+: keyNames o.1 :=
    ⟨fun _ _ hapart => ⟨hapart.2, hapart.1⟩⟩
  exact h.apart.forall ho ho' hne

/-! ## Plans -/

/-- The path of a key of identifiers. -/
def keyPath (key : String) : Path :=
  ⟨(keyNames key).headD "", (keyNames key).tail.map .member⟩

theorem parse?_eq_keyPath {key : String} (h : ∀ name ∈ keyNames key, IsIdentifier name) :
    Path.parse? key = some (keyPath key) := by
  obtain ⟨first, others, hnames⟩ := List.exists_cons_of_ne_nil (keyNames_ne_nil key)
  rw [parse?_of_isIdentifier hnames h, keyPath, hnames]
  rfl

/-- A value with the path of its key. -/
def atPath (o : String × Value) : Path × Value :=
  (keyPath o.1, o.2)

/-- Keys of identifiers with one path have the same names. -/
theorem keyNames_eq_of_keyPath_eq {key key' : String} (h : keyPath key = keyPath key') :
    keyNames key = keyNames key' := by
  obtain ⟨first, others, hnames⟩ := List.exists_cons_of_ne_nil (keyNames_ne_nil key)
  obtain ⟨first', others', hnames'⟩ := List.exists_cons_of_ne_nil (keyNames_ne_nil key')
  have hmember : Function.Injective Step.member := fun _ _ => Step.member.inj
  simp only [keyPath, hnames, hnames', List.headD_cons, List.tail_cons, Path.mk.injEq,
    List.map_inj_right hmember] at h
  rw [hnames, hnames', h.1, h.2]

/-- A value at a new path counts after those before it. -/
theorem Plan.add_override {plan : Plan} {key : String} {path : Path} (value : Value)
    (hpath : Path.parse? key = some path) (hnew : ∀ o ∈ plan.overrides, o.1 ≠ path) :
    plan.add (.override key value) =
      .ok { plan with overrides := plan.overrides ++ [(path, value)] } := by
  have hkept : plan.overrides.filter (fun o => o.1 ≠ path) = plan.overrides :=
    List.filter_eq_self.2 fun o ho => decide_eq_true (hnew o ho)
  simp only [Plan.add, hpath, hkept]

/-- A plan holds the files of the layers and the values at the paths of their keys, both in the order
of the layers. -/
theorem ofLayers_of_wellKeyed {layers : List Layer} (h : WellKeyed layers) :
    Plan.ofLayers layers = .ok ⟨layers.filterMap Layer.file?,
      (layers.filterMap Layer.override?).map atPath⟩ := by
  induction layers using List.reverseRecOn with
  | nil => rfl
  | append_singleton layers layer ih =>
      obtain ⟨hidentifier, hapart⟩ := h
      rw [List.filterMap_append] at hidentifier hapart
      obtain ⟨hbefore, -, hlast⟩ := List.pairwise_append.1 hapart
      have hplan := ih ⟨fun o ho => hidentifier o (List.mem_append_left _ ho), hbefore⟩
      rw [Plan.ofLayers] at hplan ⊢
      rw [List.foldlM_append, hplan, List.filterMap_append, List.filterMap_append, List.map_append]
      cases layer with
      | file path required =>
          show Except.ok _ = Except.ok _
          simp [Layer.file?, Layer.override?]
      | override key value =>
          have hkey : ∀ name ∈ keyNames key, IsIdentifier name :=
            hidentifier (key, value) (by simp [Layer.override?])
          have hnew : ∀ o ∈ (layers.filterMap Layer.override?).map atPath, o.1 ≠ keyPath key := by
            refine List.forall_mem_map.2 fun o ho heq => ?_
            have hnot := (hlast o ho (key, value) (by simp [Layer.override?])).1
            exact hnot (keyNames_eq_of_keyPath_eq heq ▸ List.prefix_refl _)
          show (Plan.add _ (.override key value)).bind pure = _
          rw [Plan.add_override value (parse?_eq_keyPath hkey) hnew]
          simp [Layer.file?, Layer.override?, atPath, Except.bind, pure, Except.pure]

/-! ## Settings -/

/-- The settings that layers make over the defaults. -/
def layered (disk : Disk) (layers : List Layer) : Value :=
  addMembers defaults ((counted layers).flatMap (Layer.members disk))

/-- What the files of some layers say, one after the other. -/
def fileContents (disk : Disk) (layers : List Layer) :
    Except Fault (List (List (String × Value))) :=
  (layers.filterMap Layer.file?).mapM fun file => fileMembers disk file.2 file.1

theorem eq_of_fileContents {disk : Disk} {layers : List Layer}
    {contents : List (List (String × Value))} (h : fileContents disk layers = .ok contents) :
    contents = (layers.filter Layer.isFile).map (Layer.members disk) := by
  induction layers generalizing contents with
  | nil => exact (Except.ok.inj h).symm
  | cons layer others ih =>
      cases layer with
      | override key value => exact ih h
      | file path required =>
          have hcons : fileContents disk (.file path required :: others) =
              (fileMembers disk required path).bind fun members =>
                (fileContents disk others).bind fun contents => .ok (members :: contents) :=
            List.mapM_cons
          rw [hcons] at h
          cases hmembers : fileMembers disk required path with
          | error fault => rw [hmembers] at h; cases h
          | ok members =>
              cases hothers : fileContents disk others with
              | error fault => rw [hmembers, hothers] at h; cases h
              | ok more =>
                  rw [hmembers, hothers] at h
                  obtain rfl := Except.ok.inj h
                  rw [ih hothers, List.filter_cons_of_pos rfl, List.map_cons, Layer.members, hmembers]
                  rfl

/-! ### Values by path in any order -/

variable {disk : Disk} {layers layers' : List Layer}

/-- Values under keys apart from each other can be added in either order, whatever is made of
them. -/
theorem addMember_comm (h : WellKeyed layers) (change : String × Value → Value)
    {o o' : String × Value} (ho : o ∈ layers.filterMap Layer.override?)
    (ho' : o' ∈ layers.filterMap Layer.override?) (settings : Value) :
    addMember (addMember settings (o.1, change o)) (o'.1, change o') =
      addMember (addMember settings (o'.1, change o')) (o.1, change o) := by
  by_cases heq : o = o'
  · rw [heq]
  · have hkey := h.isIdentifier o ho
    have hkey' := h.isIdentifier o' ho'
    have hplain : IsPlainKey o.1 := .inr hkey
    have hplain' : IsPlainKey o'.1 := .inr hkey'
    have hapart := h.apart_of_ne ho ho' heq
    rw [← keyPlace_of_isIdentifier hkey, ← keyPlace_of_isIdentifier hkey'] at hapart
    rw [addMember_of_isPlainKey _ hplain', addMember_of_isPlainKey _ hplain,
      addMember_of_isPlainKey _ hplain, addMember_of_isPlainKey _ hplain']
    exact Value.changeAt_comm hapart _ _ (some settings)

/-- The values by path of some layers under their keys, with their tables in order. -/
def overridesIn (order : Order) (layers : List Layer) : List (String × Value) :=
  (layers.filterMap Layer.override?).map fun o =>
    (o.1, (order.override (keyPath o.1)).value [] o.2)

theorem addMembers_overridesIn_eq_of_perm (order : Order) (h : WellKeyed layers)
    (hperm : layers.Perm layers') (settings : Value) :
    addMembers settings (overridesIn order layers) =
      addMembers settings (overridesIn order layers') := by
  refine ((hperm.filterMap Layer.override?).map _).foldl_eq' ?_ settings
  exact List.forall_mem_map.2 fun _ ho => List.forall_mem_map.2 fun _ ho' settings =>
    addMember_comm h (fun o => (order.override (keyPath o.1)).value [] o.2) ho ho' settings

theorem addOverride_inOverride (order : Order) {o : String × Value}
    (h : ∀ name ∈ keyNames o.1, IsIdentifier name) (settings : Value) :
    addOverride settings (order.inOverride (atPath o)) =
      addMember settings (o.1, (order.override (keyPath o.1)).value [] o.2) := by
  rw [addMember, parse?_eq_keyPath h]
  rfl

/-- The order of values by path does not matter. -/
theorem foldl_addOverride_inOverrides (order : Order) (h : WellKeyed layers) (settings : Value) :
    (order.inOverrides ((layers.filterMap Layer.override?).map atPath)).foldl addOverride settings =
      addMembers settings (overridesIn order layers) := by
  have hadd : ∀ (settings : Value), ∀ o ∈ layers.filterMap Layer.override?,
      addOverride settings (order.inOverride (atPath o)) =
        addMember settings (o.1, (order.override (keyPath o.1)).value [] o.2) :=
    fun settings o ho => addOverride_inOverride order (h.isIdentifier o ho) settings
  have hcomm : ∀ o ∈ ((layers.filterMap Layer.override?).map atPath).map order.inOverride,
      ∀ o' ∈ ((layers.filterMap Layer.override?).map atPath).map order.inOverride, ∀ settings,
        addOverride (addOverride settings o) o' = addOverride (addOverride settings o') o := by
    rw [List.map_map]
    refine List.forall_mem_map.2 fun o ho => List.forall_mem_map.2 fun o' ho' settings => ?_
    simp only [Function.comp_apply, hadd _ o ho, hadd _ o' ho']
    exact addMember_comm h (fun o => (order.override (keyPath o.1)).value [] o.2) ho ho' settings
  calc (order.inOverrides ((layers.filterMap Layer.override?).map atPath)).foldl addOverride settings
    _ = (((layers.filterMap Layer.override?).map atPath).map order.inOverride).foldl addOverride
          settings := ((order.overrides_perm _).symm.foldl_eq' hcomm settings).symm
    _ = (layers.filterMap Layer.override?).foldl
          (fun settings o => addOverride settings (order.inOverride (atPath o))) settings := by
        rw [List.foldl_map, List.foldl_map]
    _ = (layers.filterMap Layer.override?).foldl (fun settings o =>
          addMember settings (o.1, (order.override (keyPath o.1)).value [] o.2)) settings :=
        List.foldl_ext _ _ _ hadd
    _ = addMembers settings (overridesIn order layers) := List.foldl_map.symm

/-- The values by path are added to what the files make. -/
theorem load_of_wellKeyed (disk : Disk) (order : Order) (h : WellKeyed layers) :
    load disk layers order = (fileContents disk layers).bind fun contents =>
      readSettings order.flagFirst (addMembers
        ((order.inFiles contents).foldl addMembers defaults) (overridesIn order layers)) := by
  rw [load, ofLayers_of_wellKeyed h]
  show (Plan.settings order disk _).bind _ = _
  have hcontents : Plan.contents disk ⟨layers.filterMap Layer.file?,
      (layers.filterMap Layer.override?).map atPath⟩ = fileContents disk layers := rfl
  rw [Plan.settings, hcontents]
  cases fileContents disk layers with
  | error fault => rfl
  | ok contents =>
      exact congrArg (readSettings order.flagFirst) (foldl_addOverride_inOverrides order h _)

theorem fileContents_eq (hfiles : layers.filter Layer.isFile = layers'.filter Layer.isFile) :
    fileContents disk layers = fileContents disk layers' := by
  rw [fileContents, fileContents, ← filterMap_file?_filter, hfiles, filterMap_file?_filter]

/-- Layers with the same files in the same order give the same result, in whatever order and
wherever among the files their values come. -/
theorem load_eq_of_perm (disk : Disk) (order : Order) (h : WellKeyed layers)
    (hperm : layers.Perm layers')
    (hfiles : layers.filter Layer.isFile = layers'.filter Layer.isFile) :
    load disk layers order = load disk layers' order := by
  rw [load_of_wellKeyed disk order h, load_of_wellKeyed disk order (h.perm hperm),
    fileContents_eq hfiles]
  simp only [addMembers_overridesIn_eq_of_perm order h hperm]

/-! ### Tables in any order -/

section MergesByKey

variable (h : WellKeyed layers) (hmerge : ∀ layer ∈ layers, MergesByKey (layer.members disk))
include h hmerge

/-- Values by path that are merged key by key can have their tables in any order. -/
theorem addMembers_overridesIn (order : Order) (settings : Value) :
    addMembers settings (overridesIn order layers) =
      addMembers settings (layers.filterMap Layer.override?) := by
  rw [overridesIn, addMembers, List.foldl_map]
  refine List.foldl_ext _ _ _ fun settings o ho => ?_
  have hplain : IsPlainKey o.1 := .inr (h.isIdentifier o ho)
  obtain ⟨layer, hlayer, hvalue⟩ := List.mem_filterMap.1 ho
  match layer, hvalue with
  | .override key value, rfl =>
      have hone : MergesByKey [(key, value)] := hmerge _ hlayer
      have harranged := put_arranged (order.override (keyPath key)) hone.apart_entries []
      rw [addMember_of_isPlainKey _ hplain, addMember_of_isPlainKey _ hplain, funext harranged]

/-- Layers that are merged key by key are put together the same in any order of their tables. -/
theorem load_eq (order : Order) :
    load disk layers order = (fileContents disk layers).bind fun _ =>
      readSettings order.flagFirst (layered disk layers) := by
  have hmembers : ∀ members ∈ (layers.filter Layer.isFile).map (Layer.members disk),
      MergesByKey members :=
    List.forall_mem_map.2 fun layer hlayer => hmerge layer (List.mem_filter.1 hlayer).1
  rw [load_of_wellKeyed disk order h]
  cases hfiles : fileContents disk layers with
  | error fault => rfl
  | ok contents =>
      refine congrArg (readSettings order.flagFirst) ?_
      rw [addMembers_overridesIn h hmerge, eq_of_fileContents hfiles, Order.inFiles,
        MergesByKey.foldl_addMembers_mapIdx hmembers, List.foldl_map, layered, counted,
        List.flatMap_append, flatMap_members_filter, addMembers, addMembers, List.foldl_append,
        List.foldl_flatMap]
      rfl

/-- Layers that are merged key by key give the same result in any orders in which the options are
read in the same order. -/
theorem load_eq_of_flagFirst_eq {order order' : Order} (hflag : order.flagFirst = order'.flagFirst) :
    load disk layers order = load disk layers order' := by
  rw [load_eq h hmerge, load_eq h hmerge, hflag]

/-- In whatever order the options are read, there are the same ones, or none because of the same kind
of fault. -/
theorem mapError_load_eq (order order' : Order) :
    (load disk layers order).mapError Fault.kind =
      (load disk layers order').mapError Fault.kind := by
  rw [load_eq h hmerge, load_eq h hmerge]
  cases fileContents disk layers with
  | error fault => rfl
  | ok contents => exact mapError_readSettings _ _ _

end MergesByKey

end RoleAudit.Settings
