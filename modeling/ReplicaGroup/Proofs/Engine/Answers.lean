import ReplicaGroup.Proofs.Engine.Steps
import ReplicaGroup.Proofs.Table

/-! # Answers

Which events make an engine tell the program above something, and how a response of storage becomes the
answer to an operation. -/

namespace ReplicaGroup

/-- The answer that an upcall gives. -/
def Upcall.answer? : Upcall → Option Answer
  | answer a => some a
  | _ => none

/-- The answer that an effect gives. -/
def Effect.answer? (x : Effect) : Option Answer := x.upcall?.bind Upcall.answer?

/-- The answers that a step gives. -/
def Step.answers (s : Step) : List Answer := s.effects.filterMap Effect.answer?

namespace Engine
variable {e : Engine} {h : Host} {x : Effect}

theorem answers_eq_nil {s : Step} (hs : s.All (fun _ => True) fun x => x.upcall? = none) : s.answers = [] :=
  List.filterMap_eq_nil_iff.mpr fun x hx => by rw [Effect.answer?, hs.2 x hx]; rfl

/-- Only clients' operations and responses of storage make an engine tell the program above anything. -/
theorem silent_handle {event : Event} (hd : ∀ ds, event ≠ .decide ds) (hs : ∀ r, event ≠ .stored r)
    (ho : ∀ op, event ≠ .submit op) : (e.handle h event).All (fun _ => True) fun x => x.upcall? = none := by
  refine ⟨trivial, fun x hx => ?_⟩
  have hallows := (obeys_handle hd).2 x hx
  cases x with
  | upcall u =>
    rcases hallows with ⟨op, hop⟩ | ⟨r, hr⟩
    · exact absurd hop (ho op)
    · exact absurd hr (hs r)
  | propose | prune | request | startSend | startReceive | deliver | stopTransfer | releaseTransfer => rfl

theorem answers_prune : (e.prune h).answers = [] :=
  answers_eq_nil ⟨trivial, fun x hx => by obtain ⟨watermark, rfl⟩ := kept_prune.2 x hx; rfl⟩

theorem answers_andThen {s : Step} {f : Engine → Step} (hs : s.fault? = none) :
    (s.andThen f).answers = s.answers ++ (f s.engine).answers := by
  unfold Step.andThen Step.answers
  rw [hs]
  exact List.filterMap_append

/-- A response of storage is passed on as the answer that it leads to. -/
theorem answers_stored (hu : h.upcallOpen = true) (r : Response) : (e.stored h r).answers = r.answer?.toList := by
  have tells : ∀ (u : Upcall) (e' : Engine), e'.tell h u = { engine := e', effects := [.upcall u] } :=
    fun u e' => by simp [tell, emit, hu]
  have finish : ∀ e' : Engine, (e'.finishRequest h r).answers = r.answer?.toList := fun e' => by
    cases r with
    | snapshot position => exact answers_prune
    | done => rfl
    | get | scan | multi | size | failed => simp only [finishRequest, respond, tells]; rfl
  unfold stored
  cases r.delta? with
  | none => exact (answers_andThen rfl).trans (finish _)
  | some d =>
    simp only [tells]
    exact (answers_andThen rfl).trans (finish _)

end Engine
end ReplicaGroup
