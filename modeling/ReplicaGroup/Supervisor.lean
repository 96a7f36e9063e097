import ReplicaGroup.Fault

/-! # Supervision

Jobs run under a supervisor. Whoever waits for the supervisor hears of the first fault of a job that has
not been heard of yet, and then every job is cancelled. -/

namespace ReplicaGroup

/-- The faults of jobs, and whether the jobs are cancelled. -/
structure Supervisor where
  faults : List Fault := []
  cancelled : Bool := false
  /-- Whether the supervisor is gone, so that nobody hears of faults any more. -/
  gone : Bool := false
deriving DecidableEq, Inhabited

namespace Supervisor

/-- Takes note of the fault of a job. -/
def report (s : Supervisor) (f : Fault) : Supervisor :=
  if s.gone then s else { s with faults := s.faults ++ [f] }

/-- The next fault, if there is one; all jobs are cancelled then. -/
def next? (s : Supervisor) : Supervisor × Option Fault :=
  match s.faults with
  | [] => (s, none)
  | f :: rest => ({ s with faults := rest, cancelled := true }, some f)

/-- Cancels all jobs, unless the supervisor is gone. -/
def cancel (s : Supervisor) : Supervisor := if s.gone then s else { s with cancelled := true }

end Supervisor

/-- What a job waits for before it ends. -/
inductive Job.Wait where
  | nothing
  /-- The cancellation of all jobs. -/
  | cancellation
  /-- A moment. -/
  | moment (time : Nat)
  | forever
deriving DecidableEq, Inhabited

/-- The moment at which a wait ends; only moments differ. -/
def Job.Wait.time : Job.Wait → Nat
  | .moment time => time
  | .nothing | .cancellation | .forever => 0

/-- A job that ends after some wait, well or with a fault. -/
structure Job where
  name : String
  wait : Job.Wait
  fault? : Option Fault
deriving DecidableEq, Inhabited

/-- Jobs under a supervisor. -/
structure Jobs where
  supervisor : Supervisor := {}
  now : Nat := 0
  waiting : List Job := []

namespace Jobs

/-- Whether a job's wait is over. -/
def isDue (s : Jobs) (j : Job) : Bool :=
  match j.wait with
  | .nothing => true
  | .cancellation => s.supervisor.cancelled
  | .moment time => time ≤ s.now
  | .forever => false

/-- Ends the jobs whose wait is over and, once all jobs are cancelled, aborts the others. Answers the
    jobs that ended and those that were aborted. -/
def settle (s : Jobs) : Jobs × List Job × List Job :=
  let ended := (s.waiting.filter s.isDue).mergeSort fun a b => a.wait.time ≤ b.wait.time
  let rest := s.waiting.filter fun j => !s.isDue j
  let supervisor := (ended.filterMap (·.fault?)).foldl Supervisor.report s.supervisor
  if s.supervisor.cancelled then ({ s with supervisor, waiting := [] }, ended, rest)
  else ({ s with supervisor, waiting := rest }, ended, [])

end Jobs
end ReplicaGroup
