import ReplicaGroup.Proofs.Site.Answering

/-! # A serving replica refines a table

Puts are answered before they are executed, everything else when storage has responded and the response
has been taken, in whatever order. Counted together, the answers given and the answers still to come are
those that a table gives when the operations are run on it one by one. -/

namespace ReplicaGroup

/-- Whether an operation is acknowledged or waits for a response, its answer is that of the table. -/
theorem Operation.answer_due {op : Operation} (hop : op.IsPlain) {v : Version} {s : Store} (hs : s.UpTo v) :
    op.acknowledgement?.toList ++ s.due [(op.request v, (op.request v).requester?)] = [(s.newest.run op).2] := by
  have h := (op.execute_request hop hs).2.2
  obtain ⟨id, body⟩ := op
  cases body with
  | put key value => rfl
  | get key | range q | multi w => exact (List.append_nil _).trans (congrArg Option.toList h)

namespace Site
variable {s t : Site} {step : Step} {o : Outside}

/-- The operations that a site has applied. -/
def operations (s : Site) : List Operation := s.applied.filterMap fun a => a.value.operation?

/-- The answers that a site has given, and those that it will give for what is queued. -/
def owed (s : Site) : List Answer :=
  s.answers ++ (s.node.notices.stored.filterMap Response.answer? ++ s.node.store.due s.node.background.queue)

theorem answers_submit {e : Engine} {h : Host} (hm : e.mode.isServing = true) (op : Operation) :
    (e.submit h op).answers = [] := by
  obtain ⟨captures, hr⟩ := Rule.find?_serving hm op.kind
  unfold Engine.submit
  split
  · rfl
  · rw [if_neg (by simp [hr])]
    exact Engine.answers_eq_nil (Engine.all_emit trivial rfl)

theorem owed_stays (ha : t.applied = s.applied) (ho : t.owed.Perm s.owed) : ∃ new, t.applied = s.applied ++ new ∧
    t.owed.Perm (s.owed ++ (s.flushed.newest.runAll (new.filterMap fun a => a.value.operation?)).2) :=
  ⟨[], by simpa using ha, by simpa [Table.runAll] using ho⟩

/-- What a serving site owes after a move: the answers to what it applies come on top. -/
theorem owed_moves (hs : s.Serves) (ht : s.Telling) (h : Moves o s t)
    (hv : ∀ e ∈ s.released, ∀ op, e.2.operation? = some op → op.IsPlain) :
    ∃ new, t.applied = s.applied ++ new ∧
      t.owed.Perm (s.owed ++ (s.flushed.newest.runAll (new.filterMap fun a => a.value.operation?)).2) := by
  cases replies_of_moves ht h with
  | keeps ha hg hc =>
    refine owed_stays ha ?_
    rw [owed, hg]
    exact hc.append_left _
  | passes ha hg hc =>
    refine owed_stays ha ?_
    rw [owed, hg, List.append_assoc]
    exact hc.symm.append_left _
  | @submits op ho ha hg hc =>
    refine owed_stays ha (.of_eq ?_)
    rw [owed, hg, answers_submit hs.serving, List.append_nil]
    exact congrArg _ hc
  | @applies e step he hstep ha hg hc =>
    have hw := Engine.served_apply (h := s.node.host) (p := e.1) hs.serving hs.settled hs.storeOpen e.2
    rw [← hstep] at hw
    rw [hw.answers ht.upcallOpen] at hg
    rw [hw.requests] at hc
    refine ⟨_, ha, ?_⟩
    have hdue : e.2.acknowledgement?.toList ++
        s.flushed.due ((e.2.requests s.node.engine.version).map fun r => (r, r.requester?)) =
          (s.flushed.newest.runAll e.2.operation?.toList).2 := by
      obtain ⟨p, v⟩ := e
      cases v with
      | op op => exact Operation.answer_due (hv (p, .op op) he op rfl) hs.upTo
      | scan id range => rfl
      | reconfigure | syncedUp | noop | unknown => rfl
    have hnew : [(⟨e.1, e.2, s.node.engine, step.effects⟩ : Application)].filterMap (fun a => a.value.operation?) =
        e.2.operation?.toList := by
      cases ho : e.2.operation? <;> simp [ho]
    rw [hnew, ← hdue]
    -- Only the new answers move, from behind the old ones to the end.
    have howed : t.owed = t.answers ++ t.upcoming := rfl
    rw [howed, hg, hc, List.append_assoc]
    refine (List.Perm.append_left _ (List.perm_append_comm_assoc ..)).trans (.of_eq ?_)
    rw [← List.append_assoc]
    rfl

/-- A serving replica over what was an empty store: its storage comes to hold what a table holds after
    the operations, and it gives the answers that the table gives. -/
structure Refines (s : Site) : Prop where
  serves : s.Serves
  telling : s.Telling
  newest : s.flushed.newest = (Table.runAll .empty s.operations).1
  owed : s.owed.Perm (Table.runAll .empty s.operations).2

theorem Refines.moves (hs : s.Refines) (h : Moves o s t)
    (hv : ∀ e ∈ s.released, ∀ op, e.2.operation? = some op → op.IsPlain) : t.Refines := by
  have hfaithful : ∀ e ∈ s.released, e.2.IsFaithful := fun e he op hop => (hv e he op hop).isFaithful
  obtain ⟨ht, new, ho⟩ := hs.serves.moves h hfaithful
  obtain ⟨new', ha, hp⟩ := owed_moves hs.serves hs.telling h hv
  have hnew : new' = new := List.append_cancel_left (ha.symm.trans ho.applied)
  subst hnew
  have hops : t.operations = s.operations ++ new'.filterMap fun a => a.value.operation? := by
    rw [operations, ha, List.filterMap_append]
    rfl
  rw [hs.newest] at hp
  refine ⟨ht, hs.telling.moves h, ?_, ?_⟩
  · rw [hops, Table.runAll_append, ← hs.newest]
    exact ho.newest
  · rw [hops, Table.runAll_append]
    exact hp.trans (hs.owed.append_right _)

theorem refines_bootstrapped (addr : Addr) (config : Config) (draw : Nat → UInt64) (peers : Network Inbox)
    (change : ViewChange) : (bootstrapped addr config draw peers change).Refines :=
  ⟨⟨rfl, rfl, rfl, fun _ _ h => (by cases h), fun _ h => (by cases h)⟩, ⟨rfl, rfl⟩, rfl, .refl _⟩

end Site

/-- Every answer of a table's run is the one that the operation has after those before it. -/
theorem Table.exists_of_mem_runAll {t : Table} {ops : List Operation} {a : Answer} (ha : a ∈ (t.runAll ops).2) :
    ∃ front op back, ops = front ++ op :: back ∧ a = ((t.runAll front).1.run op).2 := by
  induction ops generalizing t with
  | nil => cases ha
  | cons op ops ih =>
    rcases List.mem_cons.mp ha with rfl | ha
    · exact ⟨[], op, ops, rfl, rfl⟩
    · obtain ⟨front, op', back, rfl, h⟩ := ih ha
      exact ⟨op :: front, op', back, rfl, h⟩

/-- However a replica that started to serve on its own is fed with decisions, and in whatever order its
    engine, its storage and the responses go on, it applies the decisions of consecutive positions, and
    each answer it has given is the one that a table gives to the operation when they are run on it one by
    one. No operation is answered twice, and once nothing is queued none is without its answer. -/
theorem serving_refines_table {o : Site.Outside} (ho : ∀ p op, o.decided p = .op op → op.IsPlain) {addr : Addr}
    {config : Config} {draw : Nat → UInt64} {peers : Network Inbox} {change : ViewChange}
    {acts : List Site.Act} (hacts : ∀ a ∈ acts, a.From o) {s : Site}
    (h : (Site.bootstrapped addr config draw peers change).run acts = some s) :
    (∃ first n, s.applied.map Application.decision = o.decided.segment first n) ∧
      (∀ a ∈ s.answers, ∃ front op back, s.operations = front ++ op :: back ∧
        a = ((Table.runAll .empty front).1.run op).2) ∧
      s.answers.Subperm (Table.runAll .empty s.operations).2 ∧
      (s.node.background.queue = [] → s.node.notices.stored = [] →
        s.answers.Perm (Table.runAll .empty s.operations).2) := by
  have inv : s.Refines ∧ s.Fed o.decided ∧ (s.Fresh ∨ ∃ first, s.Follows o.decided [] first) := by
    refine Site.run_induction (P := fun s => s.Refines ∧ s.Fed o.decided ∧
      (s.Fresh ∨ ∃ first, s.Follows o.decided [] first)) h hacts ?_ ?_
    · exact ⟨Site.refines_bootstrapped .., fun _ h => (by cases h), .inl ⟨rfl, rfl, rfl, rfl⟩⟩
    · rintro u v ⟨hr, hf, hd⟩ hm
      refine ⟨hr.moves hm fun e he op hop => ?_, hf.moves hm, ?_⟩
      · rcases hd with hd | ⟨first, hd⟩
        · rw [hd.released] at he
          cases he
        · rw [hd.released he] at hop
          exact ho e.1 op (Value.eq_op_of_operation? hop)
      · rcases hd with hd | ⟨first, hd⟩
        · exact hd.moves hf hm
        · exact .inr ⟨first, hd.moves hf hm⟩
  obtain ⟨hr, -, hd⟩ := inv
  have hsub : s.answers.Subperm (Table.runAll .empty s.operations).2 :=
    (List.sublist_append_left ..).subperm.trans hr.owed.subperm
  refine ⟨?_, fun a ha => Table.exists_of_mem_runAll (hsub.subset ha), hsub, fun hq hs => ?_⟩
  · rcases hd with hd | ⟨first, hd⟩
    · exact ⟨0, 0, by rw [hd.applied]; rfl⟩
    · exact ⟨first, _, hd.applied_eq⟩
  · have := hr.owed
    simpa [Site.owed, hq, hs, Store.due] using this

/-- Two puts of a key around a view change, a read after the first one, and a removal of everything. -/
def mixedDecided : Decided
  | 1 => .op ⟨⟨1⟩, .put ⟨[97]⟩ [49]⟩
  | 2 => .op ⟨⟨2⟩, .get ⟨[97]⟩⟩
  | 3 => .reconfigure ⟨⟨3⟩, ⟨2, .empty⟩, 1, 1, .full⟩
  | 4 => .op ⟨⟨4⟩, .put ⟨[97]⟩ [50]⟩
  | 5 => .op ⟨⟨5⟩, .range ⟨.full, .unlimited, none, some .delete⟩⟩
  | p => .noop ⟨.ofNat p⟩

/-- The decisions arrive out of order in two batches, and the response to the read is taken last. -/
def mixedActs : List Site.Act :=
  [.deliver ([1, 3, 2].map fun p => ⟨p, mixedDecided p⟩), .advance, .advance, .execute, .advance, .advance,
    .advance, .advance, .advance, .deliver ([5, 4].map fun p => ⟨p, mixedDecided p⟩), .execute, .advance,
    .advance, .advance, .advance, .advance, .execute, .execute, .response 1, .response 0]

/-- In a run whose responses overtake each other, all four operations are answered as by a table. -/
theorem mixed_run_refines_table :
    ∃ s, (Site.bootstrapped (.name "a") default (fun n => .ofNat n) .empty ⟨⟨1, .empty⟩, 1, .full⟩).run mixedActs =
        some s ∧
      s.answers.map (·.id.number) = [1, 4, 5, 2] ∧ s.answers.Perm (Table.runAll .empty s.operations).2 := by
  have hplain : ∀ p op, mixedDecided p = .op op → op.IsPlain := by
    intro p op h q hq
    unfold mixedDecided at h
    split at h <;> cases h <;> cases hq
    exact .inr (.inr rfl)
  have hacts : ∀ a ∈ mixedActs, a.From ⟨fun _ => True, mixedDecided⟩ := by
    simp [mixedActs, Site.Act.From]
  generalize hrun : (Site.bootstrapped (.name "a") default (fun n => .ofNat n) .empty
    ⟨⟨1, .empty⟩, 1, .full⟩).run mixedActs = run
  have hdone : run.map (fun s => (s.answers.map (·.id.number), s.node.background.queue.isEmpty,
      s.node.notices.stored.isEmpty)) = some ([1, 4, 5, 2], true, true) := by
    rw [← hrun]
    decide
  obtain ⟨s, rfl, hs⟩ := Option.map_eq_some_iff.mp hdone
  simp only [Prod.mk.injEq, List.isEmpty_iff] at hs
  exact ⟨s, rfl, hs.1, (serving_refines_table hplain hacts hrun).2.2.2 hs.2.1 hs.2.2⟩

end ReplicaGroup
