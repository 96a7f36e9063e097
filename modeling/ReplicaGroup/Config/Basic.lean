import ReplicaGroup.Config.Json

/-! # Configuration

The numbers a group runs with, and how they are read from JSON text. All times are in milliseconds. -/

namespace ReplicaGroup

/-- The numbers a group runs with. -/
structure Config where
  /-- The period of a transfer's timer. -/
  keepAlive : Nat := 1000
  /-- The entries in one chunk of transferred data. -/
  chunkEntries : Nat := 64
  /-- The chunks that one grant allows. -/
  quota : Nat := 4
  /-- How long an invocation waits for its answer. -/
  opTimeout : Nat := 5000
deriving DecidableEq, Inhabited

namespace Config

/-- A transfer gives up after two silent periods. -/
def transferTimeout (c : Config) : Nat := 2 * c.keepAlive

/-- The names of the fields, in the order in which an array gives them. -/
def fieldNames : List String :=
  ["keep_alive_ms", "transfer_chunk_entries", "transfer_quota", "op_timeout_ms"]

/-- The configuration with the field of this name set, if it is known. -/
def set (c : Config) (name : String) (n : Nat) : Config :=
  match name with
  | "keep_alive_ms" => { c with keepAlive := n }
  | "transfer_chunk_entries" => { c with chunkEntries := n }
  | "transfer_quota" => { c with quota := n }
  | "op_timeout_ms" => { c with opTimeout := n }
  | _ => c

/-- A number that fits 64 bits and is written with digits only. -/
def number? : Json → Option Nat
  | .number (some n) => if n < UInt64.size then some n else none
  | _ => none

/-- The configuration that fields give. Unknown fields are ignored; a known field may stand only once. -/
def ofFields? : List (Option String × Json) → Option Config
  | [] => some {}
  | (none, _) :: _ => none
  | (some name, value) :: rest => do
    let c ← ofFields? rest
    if name ∈ fieldNames then
      if rest.any fun f => f.1 = some name then none
      else return c.set name (← number? value)
    else return c

/-- The configuration that a list of numbers gives, in the order of the fields. -/
def ofItems? (items : List Json) : Option Config := do
  if items.length > fieldNames.length then none
  let numbers ← items.mapM number?
  return (fieldNames.zip numbers).foldl (fun c f => c.set f.1 f.2) {}

/-- The configuration that a JSON text gives, as an object or as an array. What is missing has its
    default. -/
def parse? (text : String) : Option Config :=
  match Json.parse? text with
  | some (.object fields) => ofFields? fields
  | some (.array items) => ofItems? items
  | _ => none

/-- Where a configuration comes from. -/
inductive Source where
  /-- No file is named. -/
  | nowhere
  /-- The named file cannot be read. -/
  | unreadable
  | file (text : String)
deriving DecidableEq, Inhabited

/-- Why a configuration cannot be loaded. -/
inductive LoadError where
  | unreadable
  | malformed
deriving DecidableEq, Inhabited

/-- The configuration of a source; without a file the defaults count. -/
def load : Source → Except LoadError Config
  | .nowhere => .ok {}
  | .unreadable => .error .unreadable
  | .file text =>
    match parse? text with
    | some c => .ok c
    | none => .error .malformed

end Config
end ReplicaGroup
