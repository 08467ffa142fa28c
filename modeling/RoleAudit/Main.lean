import RoleAudit.Command.Run

/-!
# The program

Looks up on the disk what a command line is about, runs it, and writes what the
run gives.
-/

namespace RoleAudit.Main

open RoleAudit.Command (Request Outcome)
open RoleAudit.Files (Node Disk ReadFault)

/-- Why the system could not read. -/
def faultOf : IO.Error → ReadFault
  | .noFileOrDirectory .. => .missing
  | .inappropriateType .. => .notFolder
  | .permissionDenied .. => .other "Permission denied (os error 13)"
  | e => .other (toString e)

/-- Try to read. -/
def attempt {α : Type} (action : IO α) : IO (Except ReadFault α) := do
  try return .ok (← action)
  catch e => return .error (faultOf e)

/-- What stands at a path.  Reading is what tells why there is nothing. -/
partial def lookUp (path : String) : IO Node := do
  match ← attempt (IO.FS.realPath path) with
  | .error _ => return .file (.ok (← IO.FS.readBinFile path))
  | .ok real =>
    if ← real.isDir then
      match ← attempt real.readDir with
      | .error fault => return .folder [] (some fault)
      | .ok listed =>
        let mut entries := #[]
        for entry in listed do
          let node ← match ← attempt (lookUp entry.path.toString) with
            | .ok node => pure node
            | .error fault => pure (.file (.error fault))
          entries := entries.push (entry.fileName, node)
        return .folder entries.toList
    else
      return .file (← attempt (IO.FS.readBinFile real))

/-- What stands at the paths that a request is about. -/
def diskOf : Request → IO Disk
  | .check request => do
      let mut found := #[]
      for path in request.lookedAt do
        found := found.push (path, ← attempt (lookUp path))
      let list := found.toList
      return fun path => (list.lookup path).getD (.error .missing)
  | _ => return fun _ => .error .missing

end RoleAudit.Main

open RoleAudit in
/-- Run a command line. -/
def main (arguments : List String) : IO UInt32 := do
  let disk ← match Command.Request.parse? arguments with
    | some request => Main.diskOf request
    | none => pure fun _ => .error .missing
  let outcome := Command.run disk arguments
  IO.print outcome.stdout
  IO.eprint outcome.stderr
  return outcome.exit.toUInt32
