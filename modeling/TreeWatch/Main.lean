import TreeWatch.Program

/-!
# The command

Runs the program on the tree below the working directory, as it stands when the run begins; the
working directory is the root of that tree. Everything that is decided is decided by `Program.run`.
What stands here gathers what the program is given and hands out what it leaves behind.
-/

namespace TreeWatch

namespace Command

/-- The path in the tree of something below the working directory, of which `base` is the full
path. -/
def placeBelow? (base : Path) (text : String) : Option Path :=
  ((Path.ofString text).below? base).map (Path.join ⟨[slash]⟩)

/-- What a link leads to, as far as that is in the tree. -/
def linkTarget (base : Path) (entry : IO.FS.DirEntry) : IO Path := do
  try
    let full ← IO.FS.realPath entry.path
    return (placeBelow? base full.toString).getD ⟨[]⟩
  catch _ => return ⟨[]⟩

/-- Adds what a directory holds to a tree, at the directory's place. Files are taken as empty. -/
partial def gather (base : Path) (directory : IO.FS.DirEntry) (place : Location) (tree : FileTree) :
    IO FileTree := do
  let mut tree := tree
  for entry in ← directory.path.readDir do
    let here := place ++ [Bytes.ofString entry.fileName]
    match (← entry.path.symlinkMetadata).type with
    | .dir => tree ← gather base entry here (tree.putDirectory here)
    | .symlink => tree := tree.put here (.link (← linkTarget base entry))
    | _ => tree := tree.put here (.file [] FileTree.plainMode)
  return tree

/-- Adds the content of the file that a path leads to. -/
def fill (tree : FileTree) (path : Path) : IO FileTree := do
  match tree.find true path with
  | .ok (location, .file _ mode) =>
    let content ← IO.FS.readBinFile ("." ++ (FileTree.pathOf location).display)
    return tree.put location (.file content.toList mode)
  | _ => return tree

/-- A directory that a variable names, if it is in the tree. -/
def namedDirectory? (base : Path) (name : String) : IO (Option Path) := do
  return (← IO.getEnv name).bind (placeBelow? base)

/-- All that comes in on a stream. -/
partial def readAll (stream : IO.FS.Stream) (read : ByteArray) : IO ByteArray := do
  let more ← stream.read 4096
  if more.isEmpty then return read else readAll stream (read ++ more)

end Command

end TreeWatch

open TreeWatch in
def main (arguments : List String) : IO UInt32 := do
  let base := Path.ofString (← IO.FS.realPath ".").toString
  let surroundings : Surroundings :=
    ⟨← Command.namedDirectory? base "HOME", ← Command.namedDirectory? base "XDG_CONFIG_HOME"⟩
  let arguments := arguments.map Bytes.ofString
  let settingsPath :=
    match CommandLine.read arguments with
    | .ok line => line.config.or surroundings.settingsPath?
    | .error _ => none
  let mut tree ← Command.gather base ⟨".", "."⟩ [] .empty
  for path in settingsPath.toList do
    tree ← Command.fill tree path
  let input ← Command.readAll (← IO.getStdin) .empty
  let report := Program.run tree ⟨arguments, surroundings, input.toList, ← IO.monoMsNow⟩
  for line in report.log do
    IO.eprintln line
  IO.sleep (.ofNat report.elapsed)
  IO.eprint report.complaint
  IO.print report.output
  return .ofNat report.exitCode
