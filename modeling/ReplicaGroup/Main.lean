import ReplicaGroup.Handover

/-! # The command

Rehearses a handover with the configuration in the named file, or with the defaults when no file is
named, and reports it. The command fails if the configuration cannot be loaded or data got lost. -/

namespace ReplicaGroup.Command

/-- Where the arguments say that the configuration is. -/
def configSource : List String → IO Config.Source
  | [] => return .nowhere
  | path :: _ => try return .file (← IO.FS.readFile path) catch _ => return .unreadable

/-- Prints why the command fails. -/
def failWith (message : String) : IO UInt32 := do
  IO.eprintln message
  return 1

/-- Rehearses a handover of five thousand writes. -/
def rehearse (config : Config) : IO UInt32 :=
  match Handover.run config 5000 with
  | .error failure => failWith failure.message
  | .ok handover => do
    handover.report.forM IO.println
    if handover.isFaithful then return 0 else failWith "the data diverged"

end ReplicaGroup.Command

/-- The command. -/
def main (args : List String) : IO UInt32 := do
  match ReplicaGroup.Config.load (← ReplicaGroup.Command.configSource args) with
  | .error .unreadable => ReplicaGroup.Command.failWith "the configuration cannot be read"
  | .error .malformed => ReplicaGroup.Command.failWith "the configuration is malformed"
  | .ok config => ReplicaGroup.Command.rehearse config
