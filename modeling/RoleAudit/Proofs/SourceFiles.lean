import RoleAudit.Files.Sources
import RoleAudit.Proofs.ByteOrder
import Mathlib.Data.List.Forall2

/-!
# The source files below a folder

The way down from a folder takes its entries in the order of their names, one level after the other.
So the files below it come in the order of the lists of names that lead to them, which is the order
of their paths component by component.  It is not the order of the paths as texts: a folder `a`
comes before a file `a.jsx`, though a dot comes before a slash.

Nothing is left out and nothing is listed twice, because a list of names leads to one thing only.
The way ends at files and at folders that cannot be listed; of the latter one is enough to leave the
paths without an answer.

Main statements: `exists_leads_of_mem_leaves`, `mem_leaves_of_leads`, `pairwise_leaves` and
`expand_lists_sources`.
-/

namespace RoleAudit.Files

open RoleAudit.Text (Dictionary bytesOf bytesOf_lt)

/-! ### Names of source files -/

/-- An extension is what follows the last dot, with something before that dot. -/
theorem extension?_eq_some_iff {name extension : String} : extension? name = some extension ↔
    '.' ∉ extension.toList ∧ ∃ stem, stem ≠ "" ∧ name = stem ++ "." ++ extension := by
  constructor
  · intro h
    have hreversed := List.takeWhile_append_dropWhile (p := (· ≠ '.')) (l := name.toList.reverse)
    simp only [extension?] at h
    split at h
    · rename_i dot last stem hdrop
      cases h
      have hdot : dot = '.' := by
        have hhead := List.head?_dropWhile_not (· ≠ '.') name.toList.reverse
        rw [hdrop] at hhead
        simpa using hhead
      refine ⟨?_, String.ofList (last :: stem).reverse, by simp, ?_⟩
      · intro hmem
        rw [String.toList_ofList, List.mem_reverse] at hmem
        simpa using List.all_eq_true.1 List.all_takeWhile _ hmem
      · apply String.toList_injective
        have hname := congrArg List.reverse hreversed
        rw [hdrop, hdot, List.reverse_reverse] at hname
        simpa using hname.symm
    · cases h
  · rintro ⟨hdot, stem, hstem, rfl⟩
    have hrun : ∀ c ∈ extension.toList.reverse, decide (c ≠ '.') = true := by
      intro c hc
      simpa using fun heq : c = '.' => hdot (heq ▸ List.mem_reverse.1 hc)
    have hreversed : (stem ++ "." ++ extension).toList.reverse =
        extension.toList.reverse ++ '.' :: stem.toList.reverse := by
      simp
    have hne : stem.toList.reverse ≠ [] := by simpa using hstem
    obtain ⟨last, others, hlast⟩ := List.exists_cons_of_ne_nil hne
    simp only [extension?, hreversed, List.dropWhile_append_of_pos hrun,
      List.takeWhile_append_of_pos hrun, hlast]
    simp

/-- The name of a source file: one of the known extensions after a dot, which is not at the start. -/
def IsSourceName (name : String) : Prop :=
  ∃ stem, stem ≠ "" ∧ ∃ extension ∈ ["jsx", "tsx", "js"], name = stem ++ "." ++ extension

theorem isSourceName_iff {name : String} : isSourceName name = true ↔ IsSourceName name := by
  have hdot : ∀ extension ∈ sourceExtensions, '.' ∉ extension.toList := by decide
  simp only [isSourceName, Option.any_eq_true, List.contains_iff_mem]
  constructor
  · rintro ⟨extension, hextension, hmem⟩
    obtain ⟨-, stem, hstem, hname⟩ := extension?_eq_some_iff.1 hextension
    exact ⟨stem, hstem, extension, hmem, hname⟩
  · rintro ⟨stem, hstem, extension, hmem, hname⟩
    exact ⟨extension, extension?_eq_some_iff.2 ⟨hdot _ hmem, stem, hstem, hname⟩, hmem⟩

/-! ### Ways down -/

namespace Node

/-- A property of all nodes goes up from the entries of a folder to the folder. -/
theorem induction {P : Node → Prop} (file : ∀ contents, P (.file contents))
    (folder : ∀ entries closed?, (∀ name next,
      Node.entry? (.folder entries closed?) name = some next → P next) → P (.folder entries closed?)) :
    ∀ node, P node
  | .file contents => file contents
  | .folder entries closed? => folder entries closed? fun name next hentry =>
      have : sizeOf next < sizeOf entries := by
        have hmem := List.sizeOf_lt_of_mem (Dictionary.mem_of_get?_ofList hentry)
        simp only [Prod.mk.sizeOf_spec] at hmem
        exact Nat.lt_of_le_of_lt (by omega) hmem
      induction file folder next
termination_by node => sizeOf node

/-- Some names lead from a node to another, each name an entry of what comes before it. -/
inductive Leads : Node → List String → Node → Prop
  | here {node : Node} : Leads node [] node
  | into {node next target : Node} {name : String} {names : List String}
      (hentry : node.entry? name = some next) (h : Leads next names target) :
      Leads node (name :: names) target

/-- What is found at a node where the way down ends. -/
inductive Ends : Node → Found → Prop
  | file {contents : Contents} : Ends (.file contents) (.file contents)
  | closed {entries : List (String × Node)} {fault : ReadFault} :
      Ends (.folder entries (some fault)) (.closed fault)

theorem leavesByName_eq (entries : List (String × Node)) :
    leavesByName entries = entries.map fun entry => (entry.1, entry.2.leaves) := by
  induction entries with
  | nil => rfl
  | cons entry others ih => rw [leavesByName, ih, List.map_cons]

variable {node : Node} {entries : List (String × Node)}

/-- The leaves by name are those of the entries that count. -/
theorem mem_entries_leavesByName {name : String} {leaves : List Leaf} :
    (name, leaves) ∈ (Dictionary.ofList (leavesByName entries)).entries ↔
      ∃ next, Node.entry? (.folder entries none) name = some next ∧ next.leaves = leaves := by
  rw [Dictionary.mem_entries_iff, Dictionary.get?_ofList, leavesByName_eq, ← List.map_reverse,
    List.find?_map, Option.map_map, entry?, Node.entries, Dictionary.get?_ofList,
    ← Option.map_eq_some_iff, Option.map_map]
  rfl

theorem mem_leaves_folder {leaf : Leaf} : leaf ∈ (Node.folder entries none).leaves ↔
    ∃ name next, Node.entry? (.folder entries none) name = some next ∧
      ∃ rest ∈ next.leaves, rest.under name = leaf := by
  simp only [leaves, List.mem_flatMap, List.mem_map, Prod.exists, mem_entries_leavesByName]
  constructor
  · rintro ⟨name, -, ⟨next, hentry, rfl⟩, hrest⟩
    exact ⟨name, next, hentry, hrest⟩
  · rintro ⟨name, next, hentry, hrest⟩
    exact ⟨name, _, ⟨next, hentry, rfl⟩, hrest⟩

/-- The names of a leaf lead to where the way down ends. -/
theorem exists_leads_of_mem_leaves {leaf : Leaf} (h : leaf ∈ node.leaves) :
    ∃ target, node.Leads leaf.names target ∧ target.Ends leaf.found := by
  induction node using Node.induction generalizing leaf with
  | file contents =>
      rw [leaves, List.mem_singleton] at h
      subst h
      exact ⟨_, .here, .file⟩
  | folder entries closed? ih =>
      cases closed? with
      | some fault =>
          rw [leaves, List.mem_singleton] at h
          subst h
          exact ⟨_, .here, .closed⟩
      | none =>
          obtain ⟨name, next, hentry, rest, hrest, rfl⟩ := mem_leaves_folder.1 h
          obtain ⟨target, hleads, hends⟩ := ih name next hentry hrest
          exact ⟨target, .into hentry hleads, hends⟩

/-- Where the way down ends is a leaf, unless it passes a folder that cannot be listed; then a leaf
says so. -/
theorem mem_leaves_of_leads {target : Node} {names : List String} {found : Found}
    (h : node.Leads names target) (hends : target.Ends found) :
    ⟨names, found⟩ ∈ node.leaves ∨ ∃ leaf ∈ node.leaves, ∃ fault, leaf.found = .closed fault := by
  induction h with
  | here =>
      left
      cases hends <;> simp [leaves]
  | @into node next target name names hentry _ ih =>
      cases node with
      | file contents => cases hentry
      | folder entries closed? =>
          cases closed? with
          | some fault => exact .inr ⟨⟨[], .closed fault⟩, by simp [leaves], fault, rfl⟩
          | none =>
              have hbelow : ∀ leaf ∈ next.leaves,
                  leaf.under name ∈ (Node.folder entries none).leaves := fun leaf hleaf =>
                mem_leaves_folder.2 ⟨name, next, hentry, leaf, hleaf, rfl⟩
              rcases ih hends with hmem | ⟨leaf, hleaf, fault, hfault⟩
              · exact .inl (hbelow _ hmem)
              · exact .inr ⟨_, hbelow leaf hleaf, fault, hfault⟩

/-- Leaves come in the order of the names that lead to them. -/
theorem pairwise_leaves (node : Node) : node.leaves.Pairwise fun a b => a.names < b.names := by
  induction node using Node.induction with
  | file contents => simp [leaves]
  | folder entries closed? ih =>
      cases closed? with
      | some fault => simp [leaves]
      | none =>
          rw [leaves, List.pairwise_flatMap]
          constructor
          · intro entry hentry
            obtain ⟨next, hnext, hleaves⟩ := mem_entries_leavesByName.1 hentry
            rw [← hleaves, List.pairwise_map]
            exact (ih _ _ hnext).imp fun h => List.cons_lt_cons_iff.2 (.inr ⟨rfl, h⟩)
          · refine (Dictionary.ascending _).imp fun hlt leaf hleaf leaf' hleaf' => ?_
            obtain ⟨rest, -, rfl⟩ := List.mem_map.1 hleaf
            obtain ⟨rest', -, rfl⟩ := List.mem_map.1 hleaf'
            exact List.cons_lt_cons_iff.2 (.inl hlt)

end Node

/-! ### Paths -/

/-- What a file or a folder may be called. -/
def IsName (name : String) : Prop :=
  name ≠ "" ∧ '/' ∉ name.toList

theorem splitAtSlashes_of_notMem {name : List Char} (h : '/' ∉ name) :
    splitAtSlashes name = [name] := by
  induction name with
  | nil => rfl
  | cons c name ih =>
      obtain ⟨hc, hname⟩ : '/' ≠ c ∧ '/' ∉ name := by simpa using h
      simp [splitAtSlashes, hc.symm, ih hname]

theorem splitAtSlashes_append (text rest : List Char) :
    splitAtSlashes (text ++ '/' :: rest) = splitAtSlashes text ++ splitAtSlashes rest := by
  induction text with
  | nil => simp [splitAtSlashes]
  | cons c text ih =>
      by_cases hc : c = '/'
      · simp [splitAtSlashes, hc, ih]
      · obtain ⟨first, others, hpieces⟩ := List.exists_cons_of_ne_nil (splitAtSlashes_ne_nil text)
        simp [splitAtSlashes, hc, ih, hpieces]

/-- The components of a path to a folder, which may end in a slash. -/
def folderComponents (path : String) : List String :=
  if path.toList.getLast? = some '/' then (components path).dropLast else components path

theorem components_below {path name : String} (h : IsName name) :
    components (below path name) = folderComponents path ++ [name] := by
  have hname := splitAtSlashes_of_notMem h.2
  unfold below folderComponents
  split
  · next hlast =>
      -- the slash at the end is the one between the folder and the name
      obtain ⟨front, hfront⟩ := List.getLast?_eq_some_iff.1 hlast
      simp [components, hfront, splitAtSlashes_append, hname, splitAtSlashes]
  · simp [components, splitAtSlashes_append, hname]

/-- A path below a folder ends with a name, not with a slash. -/
theorem folderComponents_below {path name : String} (h : IsName name) :
    folderComponents (below path name) = components (below path name) := by
  refine if_neg fun hlast => h.2 ?_
  have hne : name.toList ≠ [] := by simpa using h.1
  have hback : (below path name).toList.getLast? = name.toList.getLast? := by
    unfold below
    split <;> simp [List.getLast?_append, List.getLast?_cons, List.getLast?_eq_some_getLast hne]
  exact List.mem_of_getLast? (hback ▸ hlast)

/-- The names that lead down from a folder are the last components of the path. -/
theorem components_foldl_below {path : String} {names : List String} (hne : names ≠ [])
    (h : ∀ name ∈ names, IsName name) :
    components (names.foldl below path) = folderComponents path ++ names := by
  induction names generalizing path with
  | nil => exact absurd rfl hne
  | cons name names ih =>
      obtain ⟨hname, hnames⟩ := List.forall_mem_cons.1 h
      cases names with
      | nil => exact components_below hname
      | cons second names =>
          rw [List.foldl_cons, ih (by simp) hnames, folderComponents_below hname,
            components_below hname, List.append_assoc]
          rfl

/-- One path comes before another in the order of their components, each compared by its bytes. -/
def ComesBefore (path path' : String) : Prop :=
  (components path).map bytesOf < (components path').map bytesOf

/-- Paths below a folder come in the order of the names that lead there. -/
theorem comesBefore_below {path : String} {names names' : List String} (hlt : names < names')
    (hne : names ≠ []) (h : ∀ name ∈ names, IsName name) (h' : ∀ name ∈ names', IsName name) :
    ComesBefore (names.foldl below path) (names'.foldl below path) := by
  have hne' : names' ≠ [] := fun hnil => List.not_lt_nil _ (hnil ▸ hlt)
  rw [ComesBefore, components_foldl_below hne h, components_foldl_below hne' h', List.map_append,
    List.map_append]
  exact List.append_left_lt (List.map_lt (fun _ _ => bytesOf_lt) hlt)

/-! ### Expansion -/

namespace Node

/-- A folder, listed or not. -/
def IsFolder : Node → Prop
  | .file _ => False
  | .folder _ _ => True

/-- All that is below a node can be called what it is called. -/
def IsNamed (node : Node) : Prop :=
  ∀ names target, node.Leads names target → ∀ name ∈ names, IsName name

/-- A file below a node, under a name for source files, with the path from that of the node. -/
inductive HoldsSource (node : Node) (path : String) : SourceFile → Prop
  | file {names : List String} {name : String} {contents : Contents}
      (h : node.Leads (names ++ [name]) (.file contents)) (hname : IsSourceName name) :
      HoldsSource node path ⟨(names ++ [name]).foldl below path, contents⟩

/-- A folder at or below a node cannot be listed. -/
def HoldsClosed (node : Node) : Prop :=
  ∃ names entries fault, node.Leads names (.folder entries (some fault))

variable {node : Node}

theorem exists_closed_iff :
    (∃ leaf ∈ node.leaves, ∃ fault, leaf.found = .closed fault) ↔ node.HoldsClosed := by
  constructor
  · rintro ⟨leaf, hleaf, fault, hfault⟩
    obtain ⟨target, hleads, hends⟩ := exists_leads_of_mem_leaves hleaf
    rw [hfault] at hends
    cases hends
    exact ⟨_, _, fault, hleads⟩
  · rintro ⟨names, entries, fault, hleads⟩
    rcases mem_leaves_of_leads hleads .closed with hmem | hclosed
    · exact ⟨_, hmem, fault, rfl⟩
    · exact hclosed

/-- A leaf is a source file if its last name says so. -/
theorem sourceFile?_eq_some_iff {path : String} {leaf : Leaf} {file : SourceFile} :
    leaf.sourceFile? path = some file ↔
      ∃ names name contents, leaf = ⟨names ++ [name], .file contents⟩ ∧ IsSourceName name ∧
        file = ⟨(names ++ [name]).foldl below path, contents⟩ := by
  obtain ⟨names, found⟩ := leaf
  cases found with
  | closed fault => simp [Leaf.sourceFile?]
  | file contents =>
      simp only [Leaf.sourceFile?, Leaf.pathBelow, Option.ite_none_right_eq_some,
        Option.any_eq_true, isSourceName_iff, List.getLast?_eq_some_iff, Option.some.injEq]
      constructor
      · rintro ⟨⟨name, ⟨front, rfl⟩, hname⟩, rfl⟩
        exact ⟨front, name, contents, rfl, hname, rfl⟩
      · rintro ⟨front, name, _, heq, hname, rfl⟩
        cases heq
        exact ⟨⟨name, ⟨front, rfl⟩, hname⟩, rfl⟩

/-- The source files below a node are all there is, if every folder can be listed. -/
theorem mem_sourceFiles_iff (hopen : ¬ node.HoldsClosed) {path : String} {file : SourceFile} :
    file ∈ node.leaves.filterMap (Leaf.sourceFile? path) ↔ node.HoldsSource path file := by
  rw [List.mem_filterMap]
  constructor
  · rintro ⟨leaf, hleaf, hfile⟩
    obtain ⟨names, name, contents, rfl, hname, rfl⟩ := sourceFile?_eq_some_iff.1 hfile
    obtain ⟨target, hleads, hends⟩ := exists_leads_of_mem_leaves hleaf
    cases hends
    exact .file hleads hname
  · rintro ⟨hleads, hname⟩
    rcases mem_leaves_of_leads hleads .file with hmem | hclosed
    · exact ⟨_, hmem, sourceFile?_eq_some_iff.2 ⟨_, _, _, rfl, hname, rfl⟩⟩
    · exact absurd (exists_closed_iff.1 hclosed) hopen

/-- The source files below a node come in the order of their paths. -/
theorem pairwise_sourceFiles (h : node.IsNamed) (path : String) :
    (node.leaves.filterMap (Leaf.sourceFile? path)).Pairwise
      fun a b => ComesBefore a.path b.path := by
  have hleads : ∀ leaf ∈ node.leaves, ∀ name ∈ leaf.names, IsName name := by
    intro leaf hleaf
    obtain ⟨target, hleads, -⟩ := exists_leads_of_mem_leaves hleaf
    exact h _ _ hleads
  have hnamed : node.leaves.Pairwise fun a b => a.names < b.names ∧
      (∀ name ∈ a.names, IsName name) ∧ ∀ name ∈ b.names, IsName name :=
    node.pairwise_leaves.imp_of_mem fun ha hb hlt => ⟨hlt, hleads _ ha, hleads _ hb⟩
  refine hnamed.filterMap _ fun a b ⟨hlt, ha, hb⟩ file hfile file' hfile' => ?_
  obtain ⟨names, name, contents, rfl, -, rfl⟩ := sourceFile?_eq_some_iff.1 hfile
  obtain ⟨names', name', contents', rfl, -, rfl⟩ := sourceFile?_eq_some_iff.1 hfile'
  exact comesBefore_below hlt (by simp) ha hb

end Node

/-- The files that a path stands for.  Anything but a folder stands for itself, and a folder for all
source files below it, each of them once and in the order of their paths. -/
structure StandsFor (disk : Disk) (path : String) (files : List SourceFile) : Prop where
  alone : (∀ node, disk path = .ok node → ¬ node.IsFolder) → files = [⟨path, disk.bytes path⟩]
  mem_iff : ∀ node, disk path = .ok node → node.IsFolder →
    ∀ file, file ∈ files ↔ node.HoldsSource path file
  ascending : files.Pairwise fun a b => ComesBefore a.path b.path

/-- A folder at or below a path cannot be listed. -/
def HoldsClosedAt (disk : Disk) (path : String) : Prop :=
  ∃ node, disk path = .ok node ∧ node.HoldsClosed

section Expansion

variable {disk : Disk} {path : String}

theorem isSome_closedFolderAt?_iff :
    (closedFolderAt? disk path).isSome = true ↔ HoldsClosedAt disk path := by
  have hclosed : ∀ leaf : Leaf, (leaf.closedFolder? path).isSome = true ↔
      ∃ fault, leaf.found = .closed fault := by
    rintro ⟨names, found⟩
    cases found <;> simp [Leaf.closedFolder?]
  unfold closedFolderAt? HoldsClosedAt
  split
  · next entries closed? hnode =>
      simp only [List.findSome?_isSome_iff, hclosed, Node.exists_closed_iff, hnode, Except.ok.injEq,
        exists_eq_left']
  · next hnode =>
      simp only [Option.isSome_none, Bool.false_eq_true, false_iff]
      rintro ⟨node, hok, names, entries, fault, hleads⟩
      cases hleads with
      | here => exact hnode _ _ hok
      | into hentry _ =>
          cases node with
          | file contents => cases hentry
          | folder entries closed? => exact hnode _ _ hok

theorem sourcesAt_standsFor (hnamed : ∀ node, disk path = .ok node → node.IsNamed)
    (hopen : ¬ HoldsClosedAt disk path) : StandsFor disk path (sourcesAt disk path) := by
  unfold sourcesAt
  split
  · next entries closed? hnode =>
      refine ⟨fun h => absurd trivial (h _ hnode), fun node hok _ file => ?_,
        Node.pairwise_sourceFiles (hnamed _ hnode) path⟩
      rw [hnode, Except.ok.injEq] at hok
      subst hok
      exact Node.mem_sourceFiles_iff fun h => hopen ⟨_, hnode, h⟩
  · next hnode =>
      refine ⟨fun _ => rfl, fun node hok hfolder => ?_, List.pairwise_singleton _ _⟩
      cases node with
      | file contents => exact hfolder.elim
      | folder entries closed? => exact absurd hok (hnode _ _)

end Expansion

/-- On a disk whose names are names, some paths are expanded unless a folder at or below one of them
cannot be listed: path by path, into what each of them stands for. -/
theorem expand_lists_sources (disk : Disk) (paths : List String)
    (hnamed : ∀ path ∈ paths, ∀ node, disk path = .ok node → node.IsNamed) :
    ((∃ folder, expand disk paths = .error folder) ↔ ∃ path ∈ paths, HoldsClosedAt disk path) ∧
      ((¬ ∃ path ∈ paths, HoldsClosedAt disk path) → ∃ lists : List (List SourceFile),
        expand disk paths = .ok lists.flatten ∧ List.Forall₂ (StandsFor disk) paths lists) := by
  have hclosed : (paths.findSome? (closedFolderAt? disk)).isSome = true ↔
      ∃ path ∈ paths, HoldsClosedAt disk path := by
    simp only [List.findSome?_isSome_iff, isSome_closedFolderAt?_iff]
  rw [← hclosed]
  cases hfound : paths.findSome? (closedFolderAt? disk) with
  | some folder => simp [expand, hfound]
  | none =>
      refine ⟨by simp [expand, hfound], fun _ => ⟨paths.map (sourcesAt disk), ?_, ?_⟩⟩
      · simp only [expand, hfound, sources, List.flatMap_def]
      · rw [List.forall₂_map_right_iff, List.forall₂_same]
        intro path hpath
        refine sourcesAt_standsFor (hnamed path hpath) fun hholds => ?_
        simpa [hfound] using hclosed.2 ⟨path, hpath, hholds⟩

/-! ### A folder with an entry that looks like a source file -/

namespace Node

theorem isNamed_file (contents : Contents) : (Node.file contents).IsNamed := by
  intro names target h
  cases h with
  | here => simp
  | into hentry _ => cases hentry

theorem isNamed_folder {entries : List (String × Node)} {closed? : Option ReadFault}
    (h : ∀ entry ∈ entries, IsName entry.1 ∧ entry.2.IsNamed) :
    (Node.folder entries closed?).IsNamed := by
  intro names target hleads
  cases hleads with
  | here => simp
  | into hentry hbelow =>
      obtain ⟨hname, hnext⟩ := h _ (Dictionary.mem_of_get?_ofList hentry)
      exact List.forall_mem_cons.2 ⟨hname, hnext _ _ hbelow⟩

end Node

/-- A folder `a` and a file `a.jsx`, a folder that is called like a source file, and a file whose name
is an extension. -/
def namesakes : Node :=
  .folder [("a.jsx", .file (.ok ⟨#[]⟩)), ("a", .folder [("x.js", .file (.error .notText))]),
    ("b.tsx", .folder []), (".js", .file (.ok ⟨#[]⟩))]

theorem isNamed_namesakes : namesakes.IsNamed := by
  refine Node.isNamed_folder fun entry hentry => ?_
  simp only [List.mem_cons, List.not_mem_nil, or_false] at hentry
  rcases hentry with rfl | rfl | rfl | rfl
  · exact ⟨⟨by decide, by decide⟩, Node.isNamed_file _⟩
  · refine ⟨⟨by decide, by decide⟩, Node.isNamed_folder fun entry hentry => ?_⟩
    obtain rfl := List.mem_singleton.1 hentry
    exact ⟨⟨by decide, by decide⟩, Node.isNamed_file _⟩
  · exact ⟨⟨by decide, by decide⟩, Node.isNamed_folder (by simp)⟩
  · exact ⟨⟨by decide, by decide⟩, Node.isNamed_file _⟩

/-- A disk with these files in one folder. -/
def namesakesDisk : Disk := fun path =>
  if path = "src" then .ok namesakes else .error .missing

theorem expand_lists_sources_sample :
    (∀ path ∈ ["src", "gone"], ∀ node, namesakesDisk path = .ok node → node.IsNamed) ∧
      (¬ ∃ path ∈ ["src", "gone"], HoldsClosedAt namesakesDisk path) ∧
      ∃ lists : List (List SourceFile),
        expand namesakesDisk ["src", "gone"] = .ok lists.flatten ∧
          List.Forall₂ (StandsFor namesakesDisk) ["src", "gone"] lists := by
  have hnamed : ∀ path ∈ ["src", "gone"], ∀ node, namesakesDisk path = .ok node →
      node.IsNamed := by
    intro path _ node hnode
    unfold namesakesDisk at hnode
    split at hnode
    · cases hnode
      exact isNamed_namesakes
    · cases hnode
  obtain ⟨hfails, hexpands⟩ := expand_lists_sources namesakesDisk ["src", "gone"] hnamed
  have hopen : ¬ ∃ path ∈ ["src", "gone"], HoldsClosedAt namesakesDisk path := by
    rw [← hfails]
    have hnone : ["src", "gone"].findSome? (closedFolderAt? namesakesDisk) = none := by
      decide +kernel
    simp [expand, hnone]
  exact ⟨hnamed, hopen, hexpands hopen⟩

end RoleAudit.Files
