import TableParser.CommandLine.Program

/-!
# The executable

The files that the arguments name are looked up, the run is computed, and its effects are carried out.
-/

namespace TableParser.Executable

/-- Why the system refuses an access, in the terms of the program. -/
def systemError : IO.Error → SystemError
  | .noFileOrDirectory _ _ _ => .noEntry
  | .inappropriateType _ 21 _ => .isDirectory
  | .invalidArgument _ 36 _ => .nameTooLong
  | .inappropriateType _ _ _ => .notDirectory
  | e => .other (toString e)

/-- What is found under a path, if anything. -/
def lookUp (path : String) : IO (Option Entry) := do
  try
    let content ← IO.FS.readBinFile path
    return some (.file content.toList)
  catch e =>
    match systemError e with
    | .isDirectory => return some .directory
    | _ => return none

/-- The entries at the places on the way of a path. -/
def lookUpAll (text : String) : IO (List (Place × Entry)) := do
  let mut found := []
  for place in (Path.ofText text).places do
    if !place.names.isEmpty then
      if let some entry ← lookUp place.render then found := (place, entry) :: found
  return found

/-- The paths that the options name. -/
def pathsOf (o : Options) : List String := o.grammar :: (o.source.toList ++ o.save.toList)

/-- Carry an effect out. -/
def carryOut : Effect → IO Unit
  | .print text => IO.print text
  | .write path content => IO.FS.writeBinFile path content.toByteArray

/-- More steps than any parse takes that ends. -/
def manySteps : Nat := 1000000000000000

end TableParser.Executable

open TableParser in
/-- Run the program with the arguments of the command line. -/
def main (arguments : List String) : IO UInt32 := do
  let paths := ((Options.ofArguments arguments).map Executable.pathsOf).getD []
  let entries ← paths.mapM Executable.lookUpAll
  let directory : Directory := ⟨entries.flatten⟩
  let r := Program.run directory Executable.manySteps arguments
  let outcome := Outcome.ofRun directory r
  r.emitted.forM Executable.carryOut
  IO.eprint outcome.errors
  return outcome.code.toUInt32
