import RoleAudit.Files.Path
import RoleAudit.Text.Dictionary

/-!
# Files and folders

A node is a file or a folder with all that is below it.  A disk answers what
stands at a path; `Node.find` answers it for the paths that start in one folder,
by following them one component at a time.
-/

namespace RoleAudit.Files

open RoleAudit.Text (Dictionary)

/-- Why nothing could be read. -/
inductive ReadFault where
  | missing
  /-- A component on the way is a file. -/
  | notFolder
  | isFolder
  | nameTooLong
  /-- The path holds the character zero. -/
  | zeroInPath
  /-- The bytes are no UTF-8. -/
  | notText
  | other (message : String)
  deriving DecidableEq, Repr

/-- The wording of a fault. -/
def ReadFault.message : ReadFault → String
  | missing => "No such file or directory (os error 2)"
  | notFolder => "Not a directory (os error 20)"
  | isFolder => "Is a directory (os error 21)"
  | nameTooLong => "File name too long (os error 36)"
  | zeroInPath => "file name contained an unexpected NUL byte"
  | notText => "stream did not contain valid UTF-8"
  | other message => message

/-- What reading a file gives. -/
abbrev Contents := Except ReadFault ByteArray

/-- A file, or a folder with its entries by name.  Of two entries of one name the later counts.
Something may stand in the way of listing the entries of a folder, though not of following their
names. -/
inductive Node where
  | file (contents : Contents)
  | folder (entries : List (String × Node)) (closed? : Option ReadFault := none)

/-- What stands at a path. -/
abbrev Disk := String → Except ReadFault Node

namespace Node

/-- The entries of a folder.  A file has none. -/
def entries : Node → List (String × Node)
  | file _ => []
  | folder entries _ => entries

/-- The entry of a name. -/
def entry? (node : Node) (name : String) : Option Node :=
  (Dictionary.ofList node.entries).get? name

/-- The greatest number of bytes in a name. -/
def maxNameSize : Nat := 255

/-- The greatest number of bytes in a path. -/
def maxPathSize : Nat := 4095

/-- Follow the components of a path, with the folders passed on the way, nearest first.  What is
above the first folder is out of sight. -/
def follow (passed : List Node) (here : Node) : List String → Except ReadFault Node
  | [] => .ok here
  | name :: rest =>
      match here with
      | file _ => .error .notFolder
      | folder _ _ =>
          if name = "" ∨ name = "." then follow passed here rest
          else if name = ".." then
            match passed with
            | [] => .error .missing
            | parent :: others => follow others parent rest
          else if maxNameSize < name.utf8ByteSize then .error .nameTooLong
          else
            match here.entry? name with
            | none => .error .missing
            | some next => follow (here :: passed) next rest

/-- What stands at a path that starts in a folder.  Only relative paths do. -/
def find (root : Node) : Disk := fun path =>
  if path.toList.contains '\x00' then .error .zeroInPath
  else if maxPathSize < path.utf8ByteSize then .error .nameTooLong
  else if path.toList.head? = some '/' ∨ path = "" then .error .missing
  else follow [] root (components path)

/-- Change what stands at the end of some components, with folders made on the way. -/
def change (f : Node → Node) : List String → Node → Node
  | [], node => f node
  | name :: rest, node =>
      let others := node.entries.filter fun entry => entry.1 ≠ name
      folder (others ++ [(name, change f rest ((node.entry? name).getD (folder [])))])

/-- The folder of some files given by their paths.  A path that ends in a slash is a folder. -/
def ofFiles (files : List (String × ByteArray)) : Node :=
  files.foldl (fun root file =>
    let path := components file.1
    if path.getLast? = some "" then root.change id path.dropLast
    else root.change (fun _ => Node.file (.ok file.2)) path) (folder [])

end Node

namespace Disk

/-- The bytes at a path. -/
def bytes (disk : Disk) (path : String) : Contents :=
  (disk path).bind fun
    | .file contents => contents
    | .folder _ _ => .error .isFolder

/-- The text that some bytes write. -/
def decode (bytes : ByteArray) : Except ReadFault String :=
  match String.fromUTF8? bytes with
  | some text => .ok text
  | none => .error .notText

/-- The text at a path. -/
def text (disk : Disk) (path : String) : Except ReadFault String :=
  (disk.bytes path).bind decode

/-- Whether a file stands at a path. -/
def isFile (disk : Disk) (path : String) : Bool :=
  match disk path with
  | .ok (.file _) => true
  | _ => false

end Disk

end RoleAudit.Files
