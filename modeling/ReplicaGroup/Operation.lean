import ReplicaGroup.Store.Request

/-! # Operations

What a client asks of the group, what it is answered, and which operations may change the result of
which others. -/

namespace ReplicaGroup

/-- What an operation does. -/
inductive Operation.Body where
  | get (key : Key)
  | put (key : Key) (value : Bytes)
  | range (query : Query)
  | multi (write : ConditionalWrite)

/-- A request of a client to the group. -/
structure Operation where
  id : OpId
  body : Operation.Body

/-- The kinds of operations. -/
inductive Kind where
  | get
  | put
  | range
  | multi
deriving DecidableEq, Inhabited

namespace Operation

/-- The kind of an operation. -/
def kind (op : Operation) : Kind :=
  match op.body with
  | .get _ => .get
  | .put .. => .put
  | .range _ => .range
  | .multi _ => .multi

end Operation

/-- Whether executing one operation first changes the result of another. -/
inductive Conflict where
  | affected
  | unaffected
  /-- No relation is defined for the pair. -/
  | undetermined
deriving DecidableEq, Inhabited

/-- Whether a pair has to be treated as conflicting; an undetermined pair has to. -/
def Conflict.isPossible : Conflict → Bool
  | unaffected => false
  | affected | undetermined => true

/-- Whether executing `prior` before `op` would change the result of `op`. -/
def Operation.affectedBy (op prior : Operation) : Conflict :=
  match op.body, prior.body with
  | .get key, .put written _ => if key = written then .affected else .unaffected
  | .get _, .get _ => .unaffected
  | .get _, .range _ | .get _, .multi _ => .undetermined
  | .put .., _ => .unaffected
  | .range _, _ | .multi _, _ => .undetermined

/-- Why an operation got no result. -/
inductive Refusal where
  | unsupported
  | failure
  | timeout
deriving DecidableEq, Inhabited

/-- The result of an operation. -/
inductive Outcome where
  | get (key : Key) (value? : Option Bytes)
  | put (key : Key)
  | range (results : OrderedMap Key Bytes) (more : Bool)
  | multi (met : Bool)
  | failed (refusal : Refusal)
deriving DecidableEq, Inhabited

/-- The outcome of the operation with this identifier. -/
structure Answer where
  id : OpId
  outcome : Outcome
deriving DecidableEq, Inhabited

end ReplicaGroup
