import ReplicaGroup.Proofs.Table

/-! # What a snapshot captures of an operation

A replica that catches up does not execute the operations decided meanwhile; it replays the requests
that a snapshot captures of them. For puts and conditional writes these are the requests that a serving
replica executes, and reads have no effect to capture. A range query is captured like a read whatever
its action does, so exactly the queries that remove something are lost. -/

namespace ReplicaGroup

namespace Table
variable {t : Table}

theorem get?_eraseAll (t : Table) (keys : List Key) (k : Key) :
    (t.eraseAll keys).get? k = if k ∈ keys then none else t.get? k := by
  unfold eraseAll
  induction keys generalizing t with
  | nil => simp
  | cons j keys ih =>
    rw [List.foldl_cons, ih, OrderedMap.get?_erase]
    by_cases hk : k ∈ keys <;> by_cases hj : k = j <;> simp [hk, hj]

/-- What is returned is in the table. -/
theorem get?_of_mem_returned {q : Query} {e : Key × Bytes} (he : e ∈ t.returned q) : (t.get? e.1).isSome := by
  have hm : e ∈ t.matching q := (Budget.admitted_prefix ..).subset he
  obtain ⟨⟨k, x⟩, hx, hf⟩ := List.mem_filterMap.mp hm
  split at hf
  · obtain ⟨y, -, rfl⟩ := Option.map_eq_some_iff.mp hf
    rw [OrderedMap.get?_eq_some_iff.mpr hx]
    rfl
  · cases hf

end Table

/-- Whether an operation removes an entry of a table. -/
def Operation.Removes (op : Operation) (t : Table) : Prop :=
  ∃ q, op.body = .range q ∧ q.removes = true ∧ t.returned q ≠ []

namespace Operation

/-- The request that a serving replica issues for an operation. -/
def live? (op : Operation) (position : Position) (v : Version) : Option Request :=
  (Rule.find? .active op.kind).bind fun rule => (rule.initiate op position v).request?

/-- The request that a snapshot captures of an operation. -/
def captured? (op : Operation) (v : Version) : Option Request :=
  (Rule.find? .active op.kind).bind fun rule => rule.capture? op v

theorem live?_eq (op : Operation) (position : Position) (v : Version) :
    op.live? position v = some (op.request v) := by
  obtain ⟨id, body⟩ := op
  cases body <;> rfl

theorem captured?_eq (op : Operation) (v : Version) :
    op.captured? v = if op.kind = .range ∨ op.kind = .get then none else some (op.request v) := by
  obtain ⟨id, body⟩ := op
  cases body <;> rfl

end Operation

namespace Store

/-- The store after a request, if there is one. -/
def after (s : Store) (request? : Option Request) : Store := request?.elim s fun r => (r.execute s).store

/-- Executing a plain query leaves the store as it is unless the query removes something. -/
theorem after_range_eq_iff {id : OpId} {q : Query} (hq : q.IsPlain) (v : Version) (s : Store) :
    s.after (some (.scan ⟨id, q, v, .last⟩)) = s ↔ ¬(q.removes = true ∧ s.newest.returned q ≠ []) := by
  have hstore : s.after (some (.scan (Scan.current id q v))) =
      if q.removes then ((s.newest.returned q).map (·.1)).foldl Store.delete s else s :=
    (Request.execute_scan_store _ s).trans (Scan.run_current_of_isPlain id v hq s).1
  show s.after (some (.scan (Scan.current id q v))) = s ↔ _
  rw [hstore]
  by_cases hr : q.removes = true
  · rw [if_pos hr]
    constructor
    · rintro hs ⟨-, hne⟩
      obtain ⟨e, he⟩ := List.exists_mem_of_ne_nil _ hne
      -- The removed key had a value, and has none any more.
      have hsome := Table.get?_of_mem_returned he
      have hnewest := congrArg newest hs
      rw [newest_deleteAll] at hnewest
      rw [← hnewest, Table.get?_eraseAll, if_pos (List.mem_map_of_mem he)] at hsome
      cases hsome
    · intro h
      have hnil : s.newest.returned q = [] := Decidable.byContradiction fun hne => h ⟨hr, hne⟩
      rw [hnil]
      rfl
  · rw [if_neg hr]
    exact ⟨fun _ h => hr h.1, fun _ => rfl⟩

/-- The captured request of a plain operation leaves what the live one leaves, unless the operation
    removes something. -/
theorem after_live_eq_iff {op : Operation} (hop : op.IsPlain) (position : Position) (v : Version) (s : Store) :
    s.after (op.live? position v) = s.after (op.captured? v) ↔ ¬op.Removes s.newest := by
  rw [Operation.live?_eq, Operation.captured?_eq]
  obtain ⟨id, body⟩ := op
  have spares : ∀ b, (∀ q, b ≠ .range q) → ¬(Operation.mk id b).Removes s.newest := by
    rintro b hb ⟨q, hq, -⟩
    exact hb q hq
  cases body with
  | get key => exact iff_of_true rfl (spares _ fun _ => nofun)
  | put key value => exact iff_of_true rfl (spares _ fun _ => nofun)
  | multi write => exact iff_of_true rfl (spares _ fun _ => nofun)
  | range q =>
    refine (after_range_eq_iff (hop q rfl) v s).trans (not_congr ⟨fun h => ⟨q, rfl, h⟩, ?_⟩)
    rintro ⟨q', hq', h⟩
    cases hq'
    exact h

/-- Replaying what is captured of operations leaves what executing them leaves, if none of them removes
    anything where it is executed. -/
theorem afterAll_captured {ops : List Operation} (hops : ∀ op ∈ ops, op.IsPlain) (v : Version) (s : Store)
    (hspare : ∀ front op back, ops = front ++ op :: back →
      ¬op.Removes (s.afterAll (front.map (·.request v))).newest) :
    s.afterAll (ops.filterMap (·.captured? v)) = s.afterAll (ops.map (·.request v)) := by
  induction ops generalizing s with
  | nil => rfl
  | cons op ops ih =>
    have hhead : s.after (some (op.request v)) = s.after (op.captured? v) := by
      rw [← Operation.live?_eq op 0 v]
      exact (after_live_eq_iff (hops op (by simp)) 0 v s).mpr (hspare [] op ops rfl)
    have hcons : s.afterAll ((op :: ops).filterMap (·.captured? v)) =
        (s.after (op.captured? v)).afterAll (ops.filterMap (·.captured? v)) := by
      rw [List.filterMap_cons]
      cases op.captured? v <;> rfl
    rw [hcons, ← hhead, List.map_cons]
    refine ih (fun op' hop' => hops op' (by simp [hop'])) _ fun front op' back h => ?_
    exact hspare (op :: front) op' back (by rw [h, List.cons_append])

end Store

/-- A serving replica issues a request for every operation. What a snapshot captures of a plain operation
    leaves the same store as that request exactly when the operation removes nothing from the store; so
    a replay of operations that remove nothing misses no effect. -/
theorem capture_reproduces_iff_not_removes (v : Version) :
    (∀ op : Operation, op.IsPlain → ∀ (position : Position) (s : Store),
      op.live? position v = some (op.request v) ∧
        (s.after (op.live? position v) = s.after (op.captured? v) ↔ ¬op.Removes s.newest)) ∧
    ∀ ops : List Operation, (∀ op ∈ ops, op.IsPlain) → ∀ s : Store,
      (∀ front op back, ops = front ++ op :: back →
        ¬op.Removes (s.afterAll (front.map (·.request v))).newest) →
      s.afterAll (ops.filterMap (·.captured? v)) = s.afterAll (ops.map (·.request v)) :=
  ⟨fun op hop position s => ⟨op.live?_eq position v, Store.after_live_eq_iff hop position v s⟩,
    fun _ hops s hspare => Store.afterAll_captured hops v s hspare⟩

/-- The removal of the only key of a store is lost: nothing is captured of it. -/
theorem capture_misses_removal :
    let s := Store.empty.put ⟨[97]⟩ [49] 1
    let op : Operation := ⟨⟨1⟩, .range ⟨.full, .unlimited, none, some .delete⟩⟩
    op.IsPlain ∧ op.captured? 1 = none ∧ s.after (op.live? 5 1) ≠ s.after (op.captured? 1) := by
  intro s op
  have hop : op.IsPlain := fun q hq => by cases hq; exact .inr (.inr rfl)
  refine ⟨hop, rfl, fun h => ?_⟩
  exact (((capture_reproduces_iff_not_removes 1).1 op hop 5 s).2.mp h) ⟨_, rfl, rfl, by decide⟩

end ReplicaGroup
