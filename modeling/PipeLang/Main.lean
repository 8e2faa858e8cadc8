import PipeLang.Command.Places

/-!
# The program

Brings the files that a command can look at into memory, lets the command do its work on them, and prints its report.
-/

namespace PipeLang.Main

/-- What stands at a place among the machine's files; what cannot be read counts as missing. -/
def look (place : Files.Place) : IO (Option Files.Node) := do
  try
    return some (.file (← IO.FS.readBinFile place.render))
  catch
    | .inappropriateType .. => return some .directory
    | _ => return none

/-- Adds the places that a command can look at to its tree, until there are no new ones. -/
partial def gather (i : Command.Invocation) (seen : List Files.Place) (s : Command.Surroundings) :
    IO Command.Surroundings := do
  let fresh := ((i.places s).filter fun place => !seen.contains place).eraseDups
  if fresh.isEmpty then
    return s
  else
    let mut tree := s.tree
    for place in fresh do
      if let some node ← look place then
        tree := tree.insert place node
    gather i (fresh ++ seen) { s with tree := tree }

/-- The working directory as a place. -/
def workingPlace : IO Files.Place := do
  return ((← IO.currentDir).toString.splitOn "/").filter fun name => !name.isEmpty

/-- What is piped in, if the invocation reads it. -/
def input (i : Command.Invocation) (s : Command.Surroundings) : IO ByteArray := do
  match i.project s with
  | .ok project =>
    if i.readsInput project s.interactive then (← IO.getStdin).readBinToEnd else return .empty
  | .error _ => return .empty

/-- What a command line can see of the machine. -/
def surroundings (words : List String) : IO Command.Surroundings := do
  let interactive ← (← IO.getStdin).isTty
  let blind : Command.Surroundings := ⟨.empty, ← workingPlace, .empty, interactive⟩
  match Command.Invocation.parse words with
  | .error _ => return blind
  | .ok i =>
    let seen ← gather i [] blind
    gather i [] { seen with input := ← input i seen }

end PipeLang.Main

open PipeLang in
/-- Runs a command line. -/
def main (words : List String) : IO UInt32 := do
  let report := Command.report words (← Main.surroundings words)
  IO.print report.output
  match report.complaint with
  | some complaint => IO.eprintln complaint.message
  | none => pure ()
  return report.status.toUInt32
