import ReplicaGroup.Operation

/-! # What a decided operation does

The mode of a replica and the kind of a decided operation fix whether the replica ignores it, leaves it
to others, acknowledges it or hands it to storage, and whether it is a write that a snapshot has to
reproduce. -/

namespace ReplicaGroup

/-- What a replica is doing. -/
inductive Mode where
  /-- No view is installed yet. -/
  | passive
  /-- Sends its data to joining members while serving. -/
  | transferring
  /-- Receives its data; other replicas answer reads. -/
  | catchingUp
  | active
deriving DecidableEq, Inhabited

/-- Whether a replica in this mode executes operations. -/
def Mode.isServing : Mode → Bool
  | active | transferring => true
  | passive | catchingUp => false

/-- How a decided operation is treated. -/
inductive Treatment where
  | ignore
  /-- Another replica answers it. -/
  | defer
  /-- Answered without storage. -/
  | acknowledge
  /-- Handed to storage. -/
  | execute
deriving DecidableEq, Inhabited

/-- What a replica does with operations of one kind. -/
structure Rule where
  treatment : Treatment
  /-- Whether the operation's durable effect is a storage write. -/
  captures : Bool
deriving DecidableEq, Inhabited

/-- The rule for a mode and a kind of operation; without one the operation is answered as unsupported. -/
def Rule.find? : Mode → Kind → Option Rule
  | .passive, _ => some ⟨.ignore, false⟩
  | .catchingUp, .get | .catchingUp, .range => some ⟨.defer, false⟩
  | .catchingUp, .put => some ⟨.acknowledge, false⟩
  | .catchingUp, .multi => none
  | .active, .get | .active, .range | .transferring, .get | .transferring, .range =>
    some ⟨.execute, false⟩
  | .active, .put | .active, .multi | .transferring, .put | .transferring, .multi =>
    some ⟨.execute, true⟩

namespace Operation

/-- The answer that is given without storage: a put is acknowledged. -/
def acknowledgement? (op : Operation) : Option Answer :=
  match op.body with
  | .put key _ => some ⟨op.id, .put key⟩
  | _ => none

/-- The storage request that executes an operation at a version. -/
def request (op : Operation) (version : Version) : Request :=
  match op.body with
  | .get key => .get op.id key
  | .put key value => .put key value version
  | .range query => .scan ⟨op.id, query, version, .last⟩
  | .multi write => .multi op.id write version

end Operation

/-- What starting an operation calls for. -/
structure Initiation where
  request? : Option Request
  answer? : Option Answer
  /-- The position of a write that is handed to storage. -/
  captured? : Option Position

namespace Rule

/-- What an operation decided at a position calls for. A write is answered when it is handed to storage,
    a read when storage responds. -/
def initiate (rule : Rule) (op : Operation) (position : Position) (version : Version) : Initiation :=
  match rule.treatment with
  | .ignore | .defer => ⟨none, none, none⟩
  | .acknowledge => ⟨none, op.acknowledgement?, none⟩
  | .execute =>
    ⟨some (op.request version), op.acknowledgement?, if rule.captures then some position else none⟩

/-- The storage write that reproduces the operation in a snapshot. -/
def capture? (rule : Rule) (op : Operation) (version : Version) : Option Request :=
  if rule.captures then some (op.request version) else none

end Rule
end ReplicaGroup
