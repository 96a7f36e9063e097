import ReplicaGroup.Proofs.Answering

/-! # What the conflict relation promises

The relation looks at the bodies of two operations only. It is measured here by what an operation is answered
with at a serving replica: the answers that the replica gives while it applies the operation, and the one that it
owes once storage has executed what the operation calls for. -/

namespace ReplicaGroup
namespace Engine
variable {h : Host} {e : Engine} {s : Store} {a : Operation} {key : Key} {value : Bytes}

/-- The answers that an operation gets from an engine whose storage holds `s` when it comes to the operation. -/
def answersTo (h : Host) (p : Position) (op : Operation) (s : Store) (e : Engine) : List Answer :=
  let step := e.applyOp h p op
  step.answers ++ s.due ((step.effects.filterMap Effect.request?).map fun r => (r, r.requester?))

/-- What storage holds once it is through with the operation. -/
def leaves (h : Host) (p : Position) (op : Operation) (s : Store) (e : Engine) : Store :=
  s.afterAll ((e.applyOp h p op).effects.filterMap Effect.request?)

section Serving
variable (ho : h.storeOpen = true) (hu : h.upcallOpen = true) (he : e.mode.isServing = true)
include ho hu he

theorem leaves_serving (p : Position) (op : Operation) (s : Store) :
    e.leaves h p op s = ((op.request e.version).execute s).store := by
  rw [leaves, (applyOp_executed ho hu he op).2]
  rfl

theorem answersTo_serving (p : Position) (op : Operation) (s : Store) :
    e.answersTo h p op s =
      op.acknowledgement?.toList ++ s.due [(op.request e.version, (op.request e.version).requester?)] := by
  obtain ⟨hanswers, hrequests⟩ := applyOp_executed (p := p) ho hu he op
  rw [answersTo, hanswers, hrequests]
  rfl

/-- A put is acknowledged, whatever is stored. -/
theorem answersTo_put (ha : a.body = .put key value) (p : Position) (s : Store) :
    e.answersTo h p a s = [⟨a.id, .put key⟩] := by
  rw [answersTo_serving ho hu he]
  obtain ⟨id, body⟩ := a
  cases ha
  rfl

/-- Every operation gets one answer, and it is for the operation. -/
theorem exists_answersTo (p : Position) (op : Operation) (s : Store) :
    ∃ outcome, e.answersTo h p op s = [⟨op.id, outcome⟩] := by
  cases hb : op.body with
  | put key value => exact ⟨_, answersTo_put ho hu he hb p s⟩
  | get | range | multi =>
    obtain ⟨x, -, hid, hdue⟩ := op.exists_answer (by simp [Operation.kind, hb]) e.version s
    rw [answersTo_serving ho hu he, hdue, Operation.acknowledgement?, hb, ← hid]
    exact ⟨x.outcome, rfl⟩

/-- A point read is answered with the newest value of its key. -/
theorem answersTo_get (ha : a.body = .get key) (p : Position) (s : Store) :
    e.answersTo h p a s = [⟨a.id, .get key (s.read? key)⟩] := by
  rw [answersTo_serving ho hu he]
  obtain ⟨id, body⟩ := a
  cases ha
  rfl

theorem answersTo_get_eq_iff (ha : a.body = .get key) {t : Store} :
    e.answersTo h p a t = e.answersTo h p a s ↔ t.read? key = s.read? key := by
  rw [answersTo_get ho hu he ha, answersTo_get ho hu he ha]
  constructor
  · intro heq
    injection heq with heq
    injection heq with _ heq
    injection heq
  · intro heq
    rw [heq]

end Serving

end Engine

/-- A put changes what a point read finds of no other key, whatever its version. -/
theorem Store.read?_put_of_ne {s : Store} {j k : Key} (hjk : j ≠ k) (x : Bytes) (v : Version) :
    (s.put k x v).read? j = s.read? j := by
  rw [read?, history?_put, if_neg hjk, read?]

theorem Operation.affectedBy_eq_affected_iff {a b : Operation} :
    a.affectedBy b = .affected ↔ ∃ key value, a.body = .get key ∧ b.body = .put key value := by
  obtain ⟨id, body⟩ := a
  obtain ⟨id', body'⟩ := b
  cases body with
  | get key =>
    cases body' with
    | put written value =>
      by_cases hkey : key = written <;> simp [affectedBy, hkey, eq_comm]
    | get | range | multi => simp [affectedBy]
  | put | range | multi => simp [affectedBy]

/-- What the relation calls unaffected a point read finds as it was. -/
theorem Operation.read?_of_unaffected {a b : Operation} {key : Key} (ha : a.body = .get key)
    (hab : a.affectedBy b = .unaffected) (v : Version) (s : Store) :
    ((b.request v).execute s).store.read? key = s.read? key := by
  obtain ⟨id, body⟩ := b
  simp only [affectedBy, ha] at hab
  cases body with
  | get other => simp only [request, Request.execute]
  | put written value =>
    have hne : key ≠ written := fun heq => by simp [heq] at hab
    simp only [request, Request.execute]
    exact Store.read?_put_of_ne hne value v
  | range | multi => cases hab

/-- The conflict relation is sound, and nothing is called a conflict that is none. Whatever is stored, an
    operation that is unaffected by another is answered alike before and after it. An affected operation is a point
    read of the key that the other one puts; while no stored version is newer than the stamp of the put, it is
    answered alike just where the put writes what is there already, and there are stores where it is not. -/
theorem conflict_relation_is_exact {h : Host} (ho : h.storeOpen = true) (hu : h.upcallOpen = true) {e f : Engine}
    (he : e.mode.isServing = true) (hf : f.mode.isServing = true) (p q : Position) (a b : Operation) :
    (∀ s, ∃ outcome, e.answersTo h p a s = [⟨a.id, outcome⟩]) ∧
      (a.affectedBy b = .unaffected → ∀ s, e.answersTo h p a (f.leaves h q b s) = e.answersTo h p a s) ∧
      (a.affectedBy b = .affected → ∃ key value, a.body = .get key ∧ b.body = .put key value ∧
        (∀ s, s.UpTo f.version →
          (e.answersTo h p a (f.leaves h q b s) = e.answersTo h p a s ↔ s.read? key = some value)) ∧
        ∃ s, s.UpTo f.version ∧ e.answersTo h p a (f.leaves h q b s) ≠ e.answersTo h p a s) := by
  refine ⟨Engine.exists_answersTo ho hu he p a, fun hab s => ?_, fun hab => ?_⟩
  · cases ha : a.body with
    | put key value => rw [Engine.answersTo_put ho hu he ha, Engine.answersTo_put ho hu he ha]
    | get key =>
      rw [Engine.answersTo_get_eq_iff ho hu he ha, Engine.leaves_serving ho hu hf]
      exact Operation.read?_of_unaffected ha hab f.version s
    | range | multi => simp [Operation.affectedBy, ha] at hab
  · obtain ⟨key, value, ha, hb⟩ := Operation.affectedBy_eq_affected_iff.mp hab
    have hsame : ∀ s, s.UpTo f.version →
        (e.answersTo h p a (f.leaves h q b s) = e.answersTo h p a s ↔ s.read? key = some value) := by
      intro s hs
      have hleaves : f.leaves h q b s = s.put key value f.version := by
        rw [Engine.leaves_serving ho hu hf, Operation.request, hb, Request.execute]
      rw [Engine.answersTo_get_eq_iff ho hu he ha, hleaves, Store.read?_put hs, if_pos rfl, eq_comm]
    refine ⟨key, value, ha, hb, hsame, .empty, Store.upTo_empty, fun heq => ?_⟩
    cases (hsame .empty Store.upTo_empty).mp heq

/-- A replica that moved to the next version in between. -/
theorem put_affects_read_of_its_key :
    let h : Host := ⟨.name "b", .ofNat, true, true, true, fun _ => true⟩
    let e : Engine := { mode := .transferring, version := 4 }
    let f : Engine := { mode := .active, version := 3 }
    let a : Operation := ⟨⟨1⟩, .get ⟨[97]⟩⟩
    let b : Operation := ⟨⟨2⟩, .put ⟨[97]⟩ [7]⟩
    h.storeOpen = true ∧ h.upcallOpen = true ∧ e.mode.isServing = true ∧ f.mode.isServing = true ∧
      a.affectedBy b = .affected ∧ ∃ s, e.answersTo h 9 a (f.leaves h 5 b s) ≠ e.answersTo h 9 a s := by
  intro h e f a b
  obtain ⟨key, value, -, -, -, s, -, hdiffer⟩ :=
    (conflict_relation_is_exact (h := h) rfl rfl (e := e) (f := f) rfl rfl 9 5 a b).2.2 (by decide)
  exact ⟨rfl, rfl, rfl, rfl, by decide, s, hdiffer⟩

end ReplicaGroup
