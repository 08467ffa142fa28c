import RoleAudit.Files.Node

/-!
# Source files

Which files a list of paths stands for.  A path to anything but a folder stands
for itself, whether or not there is anything to read; a folder stands for the
files below it whose names have one of the known extensions, in the order of
their components.  A folder among them whose entries cannot be listed leaves the
paths without an answer.
-/

namespace RoleAudit.Files

open RoleAudit.Text (Dictionary)

/-- What ends the way down from a node: a file, or a folder whose entries cannot be listed. -/
inductive Found where
  | file (contents : Contents)
  | closed (fault : ReadFault)

/-- Where the way down from a node ends: the names that lead there, and what is found. -/
structure Leaf where
  names : List String
  found : Found

/-- A leaf seen from one folder further up. -/
def Leaf.under (name : String) (leaf : Leaf) : Leaf :=
  ⟨name :: leaf.names, leaf.found⟩

mutual

/-- All leaves at and below a node, in the order of the names that lead to them. -/
def Node.leaves : Node → List Leaf
  | .file contents => [⟨[], .file contents⟩]
  | .folder _ (some fault) => [⟨[], .closed fault⟩]
  | .folder entries none =>
      (Dictionary.ofList (leavesByName entries)).entries.flatMap fun entry =>
        entry.2.map (Leaf.under entry.1)

/-- The leaves of each entry, by its name. -/
def leavesByName : List (String × Node) → List (String × List Leaf)
  | [] => []
  | (name, node) :: others => (name, node.leaves) :: leavesByName others

end

/-- The extensions of source files. -/
def sourceExtensions : List String := ["jsx", "tsx", "js"]

/-- Whether a name has the extension of a source file. -/
def isSourceName (name : String) : Bool :=
  (extension? name).any fun extension => sourceExtensions.contains extension

/-- A file to audit: the path it is reported under, and what reading it gives. -/
structure SourceFile where
  path : String
  contents : Contents

/-- The source file at a path. -/
def SourceFile.of (disk : Disk) (path : String) : SourceFile :=
  ⟨path, disk.bytes path⟩

/-- The path of a leaf, given that of the folder it is below. -/
def Leaf.pathBelow (path : String) (leaf : Leaf) : String :=
  leaf.names.foldl below path

/-- The source file that a leaf below a folder is, if the last name that leads there is that of
one. -/
def Leaf.sourceFile? (path : String) (leaf : Leaf) : Option SourceFile :=
  match leaf.found with
  | .file contents =>
      if leaf.names.getLast?.any isSourceName then some ⟨leaf.pathBelow path, contents⟩ else none
  | .closed _ => none

/-- The source files that a path stands for. -/
def sourcesAt (disk : Disk) (path : String) : List SourceFile :=
  match disk path with
  | .ok (.folder entries closed?) =>
      (Node.folder entries closed?).leaves.filterMap (Leaf.sourceFile? path)
  | _ => [.of disk path]

/-- The source files that some paths stand for, path by path. -/
def sources (disk : Disk) (paths : List String) : List SourceFile :=
  paths.flatMap (sourcesAt disk)

/-- A folder whose entries cannot be listed, by its path. -/
structure ClosedFolder where
  path : String
  fault : ReadFault
  deriving DecidableEq, Repr

/-- The folder that a leaf below a folder is, if its entries cannot be listed. -/
def Leaf.closedFolder? (path : String) (leaf : Leaf) : Option ClosedFolder :=
  match leaf.found with
  | .file _ => none
  | .closed fault => some ⟨leaf.pathBelow path, fault⟩

/-- The first folder at or below a path that cannot be listed. -/
def closedFolderAt? (disk : Disk) (path : String) : Option ClosedFolder :=
  match disk path with
  | .ok (.folder entries closed?) =>
      (Node.folder entries closed?).leaves.findSome? (Leaf.closedFolder? path)
  | _ => none

/-- Expand some paths into source files, unless a folder on the way cannot be listed. -/
def expand (disk : Disk) (paths : List String) : Except ClosedFolder (List SourceFile) :=
  match paths.findSome? (closedFolderAt? disk) with
  | some closed => .error closed
  | none => .ok (sources disk paths)

end RoleAudit.Files
