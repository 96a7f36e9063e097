import Mathlib.Data.List.Basic
import Mathlib.Data.List.TakeWhile
import ReplicaGroup.Engine.Apply
import ReplicaGroup.Proofs.Agreement
import ReplicaGroup.Proofs.Transfer.Receiving

/-! # What a replica has when it starts to serve

The received entries are written one version below that of the view change, the writes decided since then are
replayed from the log, and what does not belong to the range is dropped. On the range this leaves what the
sender's values become by the operations decided since the view change. -/

namespace ReplicaGroup

/-! ### Received entries -/

/-- The written entries of a table are its values. -/
theorem Cargo.newest_writes (c : Cargo) {t : Table} (h : c.entries = t.entries) :
    (Store.empty.afterAll (c.writes c.entries)).newest = t ∧
      (Store.empty.afterAll (c.writes c.entries)).UpTo c.version.pred := by
  have hputs : Store.empty.afterAll (c.writes c.entries) = Store.empty.putAll t c.version.pred := by
    rw [h, Cargo.writes, Store.afterAll, List.foldl_map]
    rfl
  rw [hputs]
  refine ⟨?_, Store.upTo_empty.putAll t⟩
  rw [Store.newest_putAll Store.upTo_empty]
  exact OrderedMap.ofList_eq t.ordered

/-! ### The log -/

namespace OperationsLog
variable {D : Decided} {log : OperationsLog} {first p m n : Nat}

/-- The operation that is decided at a position, if one is. -/
def operationAt? (e : Position × Value) : Option (Position × Operation) := e.2.operation?.map (e.1, ·)

theorem operationsAfter_eq (log : OperationsLog) (p : Position) :
    log.operationsAfter p = (log.entries.above p).entries.filterMap operationAt? := by
  refine List.filterMap_congr fun e _ => ?_
  obtain ⟨q, v⟩ := e
  cases v <;> rfl

theorem position_of_operationAt? {e : Position × Value} {x : Position × Operation} (h : operationAt? e = some x) :
    x.1 = e.1 := by
  obtain ⟨op, -, rfl⟩ := Option.map_eq_some_iff.mp h
  rfl

/-- A log that has recorded a run of decisions has the operations between two positions of the run. -/
theorem operations_between (hlog : log.entries.entries = D.segment first n) (hfirst : first ≤ p) (hm : p < m)
    (hn : m ≤ first + n) : ((log.operationsAfter p).takeWhile fun e => e.1 < m).map (·.2) =
      D.operations (p + 1) (m - (p + 1)) := by
  have hsplit : D.segment first n =
      D.segment first (p + 1 - first) ++ (D.segment (p + 1) (m - (p + 1)) ++ D.segment m (first + n - m)) := by
    have hback := @Decided.segment_append D (p + 1) (m - (p + 1)) (first + n - m)
    have hfront := @Decided.segment_append D first (p + 1 - first) (m - (p + 1) + (first + n - m))
    rw [show p + 1 + (m - (p + 1)) = m by omega] at hback
    rw [show first + (p + 1 - first) = p + 1 by omega] at hfront
    rw [hback, hfront]
    congr 1
    omega
  -- What comes up to the snapshot is cut off in front, and what comes from the marker on behind.
  have habove : (log.entries.above p).entries = D.segment (p + 1) (m - (p + 1)) ++ D.segment m (first + n - m) := by
    show log.entries.entries.filter (fun e => p < e.1) = _
    rw [hlog, hsplit, List.filter_append, List.filter_eq_nil_iff.mpr, List.nil_append, List.filter_eq_self.mpr]
    · intro e he
      rcases List.mem_append.mp he with he | he
      · exact decide_eq_true (Decided.mem_segment.mp he).1
      · exact decide_eq_true (Nat.lt_of_lt_of_le hm (Decided.mem_segment.mp he).1)
    · intro e he
      have hlt := (Decided.mem_segment.mp he).2.1
      rw [show first + (p + 1 - first) = p + 1 by omega] at hlt
      simpa using Nat.le_of_lt_succ hlt
  have hfront : ∀ x ∈ (D.segment (p + 1) (m - (p + 1))).filterMap operationAt?, decide (x.1 < m) = true := by
    intro x hx
    obtain ⟨e, he, hx⟩ := List.mem_filterMap.mp hx
    have hlt := (Decided.mem_segment.mp he).2.1
    rw [show p + 1 + (m - (p + 1)) = m by omega, ← position_of_operationAt? hx] at hlt
    exact decide_eq_true hlt
  have hback : ((D.segment m (first + n - m)).filterMap operationAt?).takeWhile (fun x => x.1 < m) = [] := by
    refine List.takeWhile_eq_nil_iff.mpr fun hlt => ?_
    obtain ⟨e, he, hx⟩ := List.mem_filterMap.mp (List.getElem_mem hlt)
    have hle := (Decided.mem_segment.mp he).1
    rw [← position_of_operationAt? hx] at hle
    simpa using hle
  rw [operationsAfter_eq, habove, List.filterMap_append, List.takeWhile_append_of_pos hfront, hback, List.append_nil,
    List.map_filterMap, Decided.operations]
  refine List.filterMap_congr fun e _ => ?_
  rw [operationAt?, Option.map_map]
  exact Option.map_id'

end OperationsLog

/-- What is replayed are the captured requests of the operations between the snapshot and the marker. -/
theorem Engine.replay_eq {D : Decided} {e : Engine} {first p m n : Nat}
    (hlog : e.log.entries.entries = D.segment first n) (hfirst : first ≤ p) (hm : p < m) (hn : m ≤ first + n) :
    e.replay p m = (D.operations (p + 1) (m - (p + 1))).filterMap (·.captured? e.version) := by
  rw [← OperationsLog.operations_between hlog hfirst hm hn, List.filterMap_map]
  rfl

/-! ### Both together -/

/-- Received entries, a replay and a cleanup leave on the range what the operations make of a table. -/
theorem Store.agreesOn_replayed {c : Cargo} {base : Table} (hc : c.entries = (base.restrict c.range).entries)
    {ops : List Operation} (hops : ∀ op ∈ ops, op.IsWithin c.range) {v : Version} (hv : c.version ≤ v) (position : Position) :
    Table.AgreesOn c.range
        ((Store.empty.afterAll (c.writes c.entries)).afterAll
          [.snapshot position (ops.filterMap (·.captured? v)), .cleanup c.range c.version]).newest
        (base.runAll ops).1 ∧
      ((Store.empty.afterAll (c.writes c.entries)).afterAll
        [.snapshot position (ops.filterMap (·.captured? v)), .cleanup c.range c.version]).UpTo v := by
  obtain ⟨hnewest, hupTo⟩ := c.newest_writes hc
  obtain ⟨hreplayed, hupTo'⟩ := Operation.newest_replay hops (hupTo.mono (UInt32.le_trans c.version.pred_le hv))
  rw [hnewest] at hreplayed
  rw [← List.singleton_append, Store.afterAll_append,
    show ∀ s : Store, s.afterAll [.snapshot position (ops.filterMap (·.captured? v))] = _ from
      fun s => Store.execute_snapshot position _ s]
  show Table.AgreesOn c.range (Store.cleanup _ c.range c.version).newest _ ∧ (Store.cleanup _ c.range c.version).UpTo v
  refine ⟨fun k hk => ?_, hupTo'.cleanup _ _⟩
  rw [Store.get?_newest, Store.read?_cleanup, if_pos hk, ← Store.get?_newest, hreplayed]
  exact (Table.agreesOn_restrict c.range base).runAll hops k hk

end ReplicaGroup
