import ReplicaGroup.Proofs.Capture
import ReplicaGroup.Proofs.Log
import ReplicaGroup.Proofs.Site.Serving

/-! # Agreement on a range

Two tables that agree on a range go on agreeing when the same operations are run on them, as long as the
operations change nothing by what lies outside. Here is what the operations after a view change do to the
newest values, to what is seen below a ceiling, and when they are replayed from their captured requests. -/

namespace ReplicaGroup

/-- A query that leaves every store as it is. -/
def Query.IsQuiet (q : Query) : Prop :=
  q.removes = false ∧ ∀ seen s, ((q.action?.getD .noop).commit seen s).1 = s

/-- Whether a range has all keys that a conditional write names. -/
def ConditionalWrite.IsWithin (range : KeyRange) (w : ConditionalWrite) : Prop :=
  (∀ c ∈ w.conditions, range.contains c.key = true) ∧
    (∀ e ∈ w.ifMet.entries, range.contains e.1 = true) ∧ ∀ e ∈ w.otherwise.entries, range.contains e.1 = true

/-- An operation that removes nothing, and whose effect depends on the range only. -/
def Operation.IsWithin (range : KeyRange) (op : Operation) : Prop :=
  match op.body with
  | .get _ | .put .. => True
  | .range q => q.IsQuiet
  | .multi w => w.IsWithin range

/-- An operation whose answer depends on the range only. -/
def Operation.Asks (range : KeyRange) (op : Operation) : Prop :=
  match op.body with
  | .get key => range.contains key = true
  | .put .. => True
  | .range q => ∀ k, q.range.contains k = true → range.contains k = true
  | .multi w => ∀ c ∈ w.conditions, range.contains c.key = true

/-- A value that removes nothing and keeps the range. -/
def Value.IsWithin (range : KeyRange) : Value → Prop
  | .op o => o.IsWithin range
  | .reconfigure r => r.range = range
  | .scan .. | .syncedUp _ | .noop _ | .unknown .. => True

namespace Table
variable {range : KeyRange} {t u : Table}

/-- Two tables have the same values in a range. -/
def AgreesOn (range : KeyRange) (t u : Table) : Prop := ∀ k, range.contains k = true → t.get? k = u.get? k

theorem AgreesOn.refl (range : KeyRange) (t : Table) : AgreesOn range t t := fun _ _ => rfl

theorem AgreesOn.insert (h : AgreesOn range t u) (k : Key) (x : Bytes) : AgreesOn range (t.insert k x) (u.insert k x) :=
  fun j hj => by rw [OrderedMap.get?_insert, OrderedMap.get?_insert, h j hj]

theorem AgreesOn.putAll (h : AgreesOn range t u) (puts : OrderedMap Key Bytes) :
    AgreesOn range (t.putAll puts) (u.putAll puts) := by
  unfold Table.putAll
  generalize puts.entries = l
  induction l generalizing t u with
  | nil => exact h
  | cons e l ih => exact ih (h.insert e.1 e.2)

theorem AgreesOn.meets {w : ConditionalWrite} (h : AgreesOn range t u)
    (hw : ∀ c ∈ w.conditions, range.contains c.key = true) : t.meets w = u.meets w := by
  unfold Table.meets
  rw [Bool.eq_iff_iff, List.all_eq_true, List.all_eq_true]
  exact forall₂_congr fun c hc => by rw [h c.key (hw c hc)]

theorem AgreesOn.run {op : Operation} (h : AgreesOn range t u) (hop : op.IsWithin range) :
    AgreesOn range (t.run op).1 (u.run op).1 := by
  obtain ⟨id, body⟩ := op
  cases body with
  | get key => exact h
  | put key value => exact h.insert key value
  | range q =>
    have hq : q.removes = false := hop.1
    simp only [Table.run, hq, Bool.false_eq_true, if_false]
    exact h
  | multi w =>
    simp only [Table.run, Table.write, h.meets hop.1]
    exact h.putAll _

theorem AgreesOn.runAll {ops : List Operation} (h : AgreesOn range t u) (hops : ∀ op ∈ ops, op.IsWithin range) :
    AgreesOn range (t.runAll ops).1 (u.runAll ops).1 := by
  induction ops generalizing t u with
  | nil => exact h
  | cons op ops ih => exact ih (h.run (hops op (.head _))) fun op hop => hops op (.tail _ hop)

theorem AgreesOn.restrict_eq (h : AgreesOn range t u) : t.restrict range = u.restrict range :=
  OrderedMap.ext_get? fun k => by
    rw [get?_restrict, get?_restrict]
    by_cases hk : range.contains k = true
    · rw [h k hk]
    · rw [if_neg hk, if_neg hk]

theorem agreesOn_restrict (range : KeyRange) (t : Table) : AgreesOn range (t.restrict range) t := fun k hk => by
  rw [get?_restrict, if_pos hk]

/-! ### Answers -/

theorem matching_restrict {q : Query} (hq : ∀ k, q.range.contains k = true → range.contains k = true) (t : Table) :
    (t.restrict range).matching q = t.matching q := by
  unfold matching restrict OrderedMap.filter
  rw [List.filterMap_filter]
  congr 1
  funext e
  by_cases hk : q.range.contains e.1 = true
  · simp [hq e.1 hk]
  · simp [hk]

/-- Tables that agree on a range answer alike what lies in it. -/
theorem AgreesOn.answer_eq {op : Operation} (h : AgreesOn range t u) (hop : op.Asks range) :
    (t.run op).2 = (u.run op).2 := by
  obtain ⟨id, body⟩ := op
  cases body with
  | get key => simp only [Table.run, h key hop]
  | put key value => rfl
  | range q =>
    have hm : t.matching q = u.matching q := by
      rw [← matching_restrict hop, h.restrict_eq, matching_restrict hop]
    have hr : t.returned q = u.returned q := by rw [returned, returned, hm]
    unfold Table.run
    simp only [hr, hm]
  | multi w => simp only [Table.run, h.meets hop]

end Table

/-! ### Executing what lies within a range -/

namespace Operation
variable {range : KeyRange} {op : Operation} {v : Version} {s : Store}

/-- A quiet query leaves the store as it is. -/
theorem execute_quiet {id : OpId} {q : Query} (hq : q.IsQuiet) (v : Version) (s : Store) :
    (((Operation.mk id (.range q)).request v).execute s).store = s :=
  (Request.execute_scan_store _ s).trans (Scan.run_store_eq (s := ⟨id, q, v, .last⟩) hq.2 s)

theorem IsWithin.isFaithful (h : op.IsWithin range) : op.IsFaithful := by
  obtain ⟨id, body⟩ := op
  cases body with
  | range q =>
    intro v s hs
    rw [execute_quiet h]
    refine ⟨?_, hs⟩
    have hq : q.removes = false := h.1
    simp [Table.run, hq]
  | get key => exact IsPlain.isFaithful fun q hq => by cases hq
  | put key value => exact IsPlain.isFaithful fun q hq => by cases hq
  | multi w => exact IsPlain.isFaithful fun q hq => by cases hq

/-- What is written at a version is not seen below it. -/
theorem IsWithin.visible?_execute (h : op.IsWithin range) {c : Version} (hv : c < v) (k : Key) :
    (((op.request v).execute s).store).visible? k c = s.visible? k c := by
  obtain ⟨id, body⟩ := op
  cases body with
  | get key => rfl
  | put key value => exact Store.visible?_put_of_lt hv
  | range q => rw [execute_quiet h]
  | multi w => exact Store.visible?_putAll_of_lt hv _

/-- Replaying what is captured of operations does to the newest values what the operations mean. -/
theorem newest_replay {ops : List Operation} (hops : ∀ op ∈ ops, op.IsWithin range) (hs : s.UpTo v) :
    (s.afterAll (ops.filterMap (·.captured? v))).newest = (s.newest.runAll ops).1 ∧
      (s.afterAll (ops.filterMap (·.captured? v))).UpTo v := by
  induction ops generalizing s with
  | nil => exact ⟨rfl, hs⟩
  | cons op ops ih =>
    have hop := hops op (.head _)
    have hrest : ∀ op ∈ ops, op.IsWithin range := fun op h => hops op (.tail _ h)
    show (s.afterAll ((op :: ops).filterMap (·.captured? v))).newest = (((s.newest.run op).1).runAll ops).1 ∧ _
    by_cases hkind : op.kind = .range ∨ op.kind = .get
    · -- A read: nothing is captured, and nothing is to be done.
      have hread : (s.newest.run op).1 = s.newest := by
        obtain ⟨id, body⟩ := op
        cases body with
        | get key => rfl
        | range q =>
          have hq : q.removes = false := hop.1
          simp [Table.run, hq]
        | put key value => rcases hkind with h | h <;> cases h
        | multi w => rcases hkind with h | h <;> cases h
      rw [List.filterMap_cons_none (by rw [captured?_eq, if_pos hkind]), hread]
      exact ih hrest hs
    · obtain ⟨hnewest, hupTo⟩ := hop.isFaithful v s hs
      rw [List.filterMap_cons_some (by rw [captured?_eq, if_neg hkind]), ← hnewest]
      exact ih hrest hupTo

end Operation

namespace Value
variable {range : KeyRange} {v : Value}

theorem IsWithin.operation (h : v.IsWithin range) {op : Operation} (hop : v.operation? = some op) : op.IsWithin range := by
  rw [Value.eq_op_of_operation? hop] at h
  exact h

theorem IsWithin.isFaithful (h : v.IsWithin range) : v.IsFaithful := fun _ hop => (h.operation hop).isFaithful

theorem IsWithin.visible?_requests (h : v.IsWithin range) {c w : Version} (hw : c < w) (s : Store) (k : Key) :
    (s.afterAll (v.requests w)).visible? k c = s.visible? k c := by
  cases v with
  | op op => exact Operation.IsWithin.visible?_execute h hw k
  | scan id r => rw [show s.afterAll (Value.requests (.scan id r) w) = s from Store.execute_size r s]
  | reconfigure | syncedUp | noop | unknown => rfl

end Value

/-- The operations decided at `n` positions from `first` on. -/
def Decided.operations (D : Decided) (first : Position) (n : Nat) : List Operation :=
  (D.segment first n).filterMap fun e => e.2.operation?

theorem Decided.isWithin_operations {D : Decided} {range : KeyRange} {first : Position} {n : Nat}
    (h : ∀ p, first ≤ p → (D p).IsWithin range) : ∀ op ∈ D.operations first n, op.IsWithin range := by
  intro op hop
  obtain ⟨e, he, hop⟩ := List.mem_filterMap.mp hop
  obtain ⟨hle, -, hv⟩ := mem_segment.mp he
  exact (h e.1 hle).operation (hv ▸ hop)

theorem Decided.operations_succ (D : Decided) (first : Position) (n : Nat) :
    D.operations first (n + 1) = D.operations first n ++ (D (first + n)).operation?.toList := by
  unfold operations
  rw [← segment_append, List.filterMap_append, segment_succ, segment_zero]
  cases h : (D (first + n)).operation? <;> simp [h]

/-! ### Captures -/

theorem Scan.results_read (id : OpId) (range : KeyRange) (ceiling : Version) (s : Store) :
    (Scan.read id range ceiling).results s =
      s.histories.filterMap fun k h => if range.contains k then h.visible? ceiling else none := by
  have hall : (Scan.read id range ceiling).returned s = (Scan.read id range ceiling).eligible s.histories.entries :=
    Budget.admitted_unlimited Candidate.value 0 _
  refine OrderedMap.ext ?_
  show ((Scan.read id range ceiling).returned s).map (fun c => (c.key, c.value)) = _
  rw [hall]
  unfold eligible OrderedMap.filterMap
  rw [List.map_filterMap]
  congr 1
  funext e
  show Option.map _ (if range.contains e.1 = true then _ else none) = _
  by_cases hk : range.contains e.1 = true
  · cases hv : e.2.visible? ceiling <;> simp [hk, select, hv, Scan.read, Query.everything]
  · simp [hk]

/-- A read below a ceiling returns what is seen in its range. -/
theorem Request.execute_read_response {range : KeyRange} {ceiling : Version} {s : Store} {base : Table}
    (h : ∀ k, s.visible? k ceiling = base.get? k) (id : OpId) :
    ∃ captured, ((Request.scan (.read id range ceiling)).execute s).response = .scan captured ∧
      captured.results.entries = (base.restrict range).entries := by
  have hrun := ((Scan.read id range ceiling).run_eq rfl (fun _ _ => rfl) s).2 rfl
  refine ⟨_, Request.execute_scan_response hrun, congrArg OrderedMap.entries ?_⟩
  rw [Scan.results_read]
  refine OrderedMap.ext_get? fun k => ?_
  rw [OrderedMap.get?_filterMap, Table.get?_restrict, ← h k, Store.visible?, Store.history?]
  cases range.contains k <;> cases s.histories.get? k <;> rfl

end ReplicaGroup
