import LintLocator.CommandLine

/-!
# The command line

The files below the current folder are read before the run begins, and the run then takes place
in what was read.  No program is started from here, so every linter counts as not installed.
-/

namespace LintLocator

/-- Reads an entry of a folder, if it is a file or a folder that can be read. -/
partial def readEntry (e : IO.FS.DirEntry) : IO (Option FileTree) :=
  try
    if ← e.path.isDir then
      let mut found := FileTree.empty
      for inner in ← e.path.readDir do
        if let some t ← readEntry inner then
          found := found.put [inner.fileName] t
      return some found
    else if (← e.path.metadata).type == .file then
      return some (.file (← IO.FS.readBinFile e.path).toList)
    else
      return none
  catch _ => return none

/-- What a run in the current folder can see. -/
def currentSurroundings : IO Surroundings := do
  let folder ← IO.currentDir
  let names := (FileTree.pathParts folder.toString).filter (· != "")
  let mut files := FileTree.empty.makeFolder names
  for e in ← folder.readDir do
    if let some t ← readEntry e then
      files := files.put (names ++ [e.fileName]) t
  return { files, folder := folder.toString, answer := fun _ _ => none }

end LintLocator

open LintLocator in
def main (arguments : List String) : IO UInt32 := do
  let e := Command.executeArguments (← currentSurroundings) arguments
  IO.print e.stdout
  IO.eprint e.stderr
  return UInt32.ofNat e.status
