import StyleSplit.CommandLine.Program

/-! The program itself: it reads what its arguments name, runs, and writes what has
changed. -/
namespace StyleSplit

open CommandLine

/-- A text as a string, surrogates replaced. -/
def Text.asString (t : Text) : String := String.ofList (t.map Char.ofNat)

/-- Adds what stands at a path, if anything does. What is there and cannot be read is a
directory. -/
def addPath (files : Files) (path : Text) : IO Files := do
  try
    let contents ← IO.FS.readBinFile path.asString
    return { files with contents := files.contents ++ [(path, contents.toList)] }
  catch _ =>
    try
      let _ ← IO.FS.realPath path.asString
      return { files with directories := files.directories ++ [path] }
    catch _ => return files

/-- Adds what stands at a path and at every directory on the way to it. -/
def addWay (files : Files) (path : Text) : IO Files :=
  let names := Path.names path
  let ways := (List.range names.length).map fun n =>
    Text.join [CodePoint.slash] (names.take (n + 1))
  (ways.filter (!List.isEmpty ·)).foldlM addPath files

/-- Adds what an argument may name: as a path, or with a path behind an equals sign or
behind a hyphen and a letter. -/
def addArgument (files : Files) (argument : Text) : IO Files :=
  let paths := [argument, argument.drop 2] ++ (Arguments.splitValue argument).2.toList
  paths.foldlM addWay files

/-- Writes a file unless it has these contents already. -/
def writeChanged (before : Files) (file : Text × Bytes) : IO Unit :=
  if before.contents.contains file then pure ()
  else IO.FS.writeBinFile file.1.asString ⟨file.2.toArray⟩

def runProgram (arguments : List String) : IO UInt32 := do
  let arguments := arguments.map text
  let files ← arguments.foldlM addArgument ⟨[], []⟩
  let completed := run arguments files
  completed.files.contents.forM (writeChanged files)
  IO.print completed.stdout.asString
  IO.eprint completed.stderr.asString
  match completed.ending with
  | .fault fault => IO.eprintln fault.message.asString
  | _ => pure ()
  return completed.exitCode.toUInt32

end StyleSplit

def main (arguments : List String) : IO UInt32 := StyleSplit.runProgram arguments
