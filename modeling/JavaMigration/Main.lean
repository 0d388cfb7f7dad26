import JavaMigration.CommandLine.Execution

/-!
# The program

Reads the files below the current directory, answers the command line and writes the files that
the answer changes.
-/

namespace JavaMigration

open CommandLine File

/-- The files of some directory entries and below them; `start` is put in front of their names. -/
partial def readFiles (start : String) (entries : Array IO.FS.DirEntry) :
    IO (List (String × Content)) := do
  let mut files := []
  for entry in entries do
    let name := start ++ entry.fileName
    if ← entry.path.isDir then
      files := files ++ (← readFiles (name ++ "/") (← entry.path.readDir))
    else
      let content := match String.fromUTF8? (← IO.FS.readBinFile entry.path) with
        | some s => Content.text s
        | none => Content.bytes
      files := files ++ [(name, content)]
  return files

/-- Answers a command line in the current directory, and gives the status to end with. -/
def serve (arguments : List String) : IO UInt32 := do
  let before : Directory := ⟨← readFiles "" (← (← IO.currentDir).readDir)⟩
  let reply := respond arguments before
  for (path, content) in reply.files.files do
    if before.get? path != some content then
      if let .text s := content then IO.FS.writeFile path s
  IO.print reply.output
  for warning in reply.warnings do
    IO.eprintln warning
  return reply.status.toUInt32

end JavaMigration

def main (arguments : List String) : IO UInt32 := JavaMigration.serve arguments
