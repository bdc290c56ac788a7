import PhpStyle.Command.Run

/-!
# Command line

Runs the program over the files on the disk, prints what it prints and ends with its code.
-/

namespace PhpStyle.Command

/-- A path on the disk, seen from the current directory. -/
def diskEntry (path : String) : IO.FS.DirEntry := ⟨".", path⟩

/-- What a path on the disk leads to; links are followed. -/
def diskKind (path : String) : IO PathKind := do
  try
    match (← (diskEntry path).path.metadata).type with
    | .dir => return .directory
    | .file => return .file
    | _ => return .nothing
  catch _ => return .nothing

/-- The files in a directory on the disk and the directories below; links to directories are not
followed. -/
partial def diskBelow (path : String) : IO (List String) := do
  let entries ← try (diskEntry path).path.readDir catch _ => pure #[]
  let found ← entries.toList.mapM fun entry => do
    let inside := Path.join path entry.fileName
    match (← entry.path.symlinkMetadata).type with
    | .dir => diskBelow inside
    | _ => return if (← diskKind inside) = .file then [inside] else []
  return found.flatten

/-- Why a file on the disk could not be read or written. -/
def diskError (path : String) (e : IO.Error) : IO AccessError := do
  match e, ← diskKind path with
  | _, .directory => return .isDirectory
  | .noFileOrDirectory .., _ => return .absent
  | .inappropriateType .., _ => return .notDirectory
  | e, _ => return .other (toString e)

/-- The files on the disk. -/
def disk : FileAccess IO where
  kind := diskKind
  below := diskBelow
  read path := do
    try
      match String.fromUTF8? (← IO.FS.readBinFile path) with
      | some text => return .ok text
      | none => return .error .notText
    catch e => return .error (← diskError path e)
  write path text := do
    try
      IO.FS.writeFile path text
      return .ok ()
    catch e => return .error (← diskError path e)
  directories := do return Path.withAncestors (toString (← IO.currentDir))

/-- Print on the stream that a print names. -/
def emit : Output.Print → IO Unit
  | .out text => IO.print text
  | .err text => IO.eprint text

end PhpStyle.Command

/-- Runs the program with the arguments of the command line. -/
def main (arguments : List String) : IO UInt32 := do
  let ending ← PhpStyle.Command.run PhpStyle.Command.disk arguments
  ending.prints.forM PhpStyle.Command.emit
  return ending.code.toUInt32
