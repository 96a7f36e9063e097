import ReplicaGroup.Dispatch
import ReplicaGroup.Proofs.Scan.Selection

/-! # Tables: the store without versions

A table is a plain map of keys to values, and every operation has its meaning on tables. While no
stored version is newer than the stamp of an operation, executing the operation on a store does to the
newest values what the operation means on tables, and is answered as the table answers. -/

namespace ReplicaGroup

/-- What a query keeps of a value. -/
def Query.keep? (q : Query) (value : Bytes) : Option Bytes :=
  match q.filter? with
  | some filter => filter.transform value
  | none => some value

/-- Whether a query removes the entries it returns. -/
def Query.removes (q : Query) : Bool := q.action?.any fun a => a.name == RangeAction.delete.name

/-- A query without action, or with one that does nothing or removes what is returned. -/
def Query.IsPlain (q : Query) : Prop :=
  q.action? = none ∨ q.action? = some .noop ∨ q.action? = some .delete

theorem Query.IsPlain.action_eq {q : Query} (h : q.IsPlain) :
    q.action?.getD .noop = if q.removes then .delete else .noop := by
  rcases h with h | h | h <;> rw [Query.removes, h] <;> rfl

/-- An operation whose effect its kind tells: a range query is plain. -/
def Operation.IsPlain (op : Operation) : Prop := ∀ q, op.body = .range q → q.IsPlain

/-- The answer that a response of storage leads to. -/
def Response.answer? : Response → Option Answer
  | get id key value? => some ⟨id, .get key value?⟩
  | scan result => some ⟨result.id, .range result.results result.more⟩
  | multi id met => some ⟨id, .multi met⟩
  | failed id => some ⟨id, .failed .failure⟩
  | size .. | snapshot _ | done => none

/-- A map of keys to values. -/
abbrev Table := OrderedMap Key Bytes

namespace Table

/-- Writes all entries. -/
def putAll (t : Table) (puts : OrderedMap Key Bytes) : Table :=
  puts.entries.foldl (fun t e => t.insert e.1 e.2) t

/-- Removes all keys of a list. -/
def eraseAll (t : Table) (keys : List Key) : Table := keys.foldl OrderedMap.erase t

/-- The part of a table that lies in a range. -/
def restrict (t : Table) (range : KeyRange) : Table := t.filter fun k _ => range.contains k

/-- Whether every condition holds. -/
def meets (t : Table) (w : ConditionalWrite) : Bool := w.conditions.all fun c => t.get? c.key = c.expected?

/-- Tests all conditions, and then writes what they call for. -/
def write (t : Table) (w : ConditionalWrite) : Table :=
  t.putAll (if t.meets w then w.ifMet else w.otherwise)

/-- The entries of a range that the filter keeps. -/
def matching (t : Table) (q : Query) : List (Key × Bytes) :=
  t.entries.filterMap fun e => if q.range.contains e.1 then (q.keep? e.2).map (e.1, ·) else none

/-- The matching entries that the limit has room for. -/
def returned (t : Table) (q : Query) : List (Key × Bytes) :=
  (Budget.full q.limit).admitted (·.2) (t.matching q)

/-- What an operation does to a table, and its answer. -/
def run (t : Table) (op : Operation) : Table × Answer :=
  match op.body with
  | .get key => (t, ⟨op.id, .get key (t.get? key)⟩)
  | .put key value => (t.insert key value, ⟨op.id, .put key⟩)
  | .range q =>
    (if q.removes then t.eraseAll ((t.returned q).map (·.1)) else t,
      ⟨op.id, .range (.ofList (t.returned q)) ((t.returned q).length < (t.matching q).length)⟩)
  | .multi w => (t.write w, ⟨op.id, .multi (t.meets w)⟩)

/-- Operations one after the other, and their answers in order. -/
def runAll (t : Table) : List Operation → Table × List Answer
  | [] => (t, [])
  | op :: rest =>
    let (t, answer) := t.run op
    let (t, answers) := runAll t rest
    (t, answer :: answers)

theorem get?_restrict (t : Table) (range : KeyRange) (k : Key) :
    (t.restrict range).get? k = if range.contains k then t.get? k else none := by
  rw [restrict, OrderedMap.get?_filter]
  cases range.contains k <;> cases t.get? k <;> rfl

theorem runAll_append (t : Table) (front back : List Operation) :
    t.runAll (front ++ back) =
      (((t.runAll front).1.runAll back).1, (t.runAll front).2 ++ ((t.runAll front).1.runAll back).2) := by
  induction front generalizing t with
  | nil => rfl
  | cons op front ih => simp [runAll, ih]

end Table

/-! ### The newest values of a store -/

namespace Store
variable {s : Store} {v : Version}

/-- The newest value of every key. -/
def newest (s : Store) : Table := s.histories.filterMap fun _ h => h.newest?

theorem get?_newest (s : Store) (k : Key) : s.newest.get? k = s.read? k := OrderedMap.get?_filterMap ..

/-- Two stores have the same newest values when their point reads agree. -/
theorem newest_eq {t : Table} (h : ∀ k, s.read? k = t.get? k) : s.newest = t :=
  OrderedMap.ext_get? fun k => (get?_newest s k).trans (h k)

theorem newest_put (hs : s.UpTo v) (k : Key) (x : Bytes) : (s.put k x v).newest = s.newest.insert k x :=
  newest_eq fun j => by rw [read?_put hs, OrderedMap.get?_insert, get?_newest]

theorem newest_putAll (hs : s.UpTo v) (puts : OrderedMap Key Bytes) :
    (s.putAll puts v).newest = s.newest.putAll puts := by
  unfold Store.putAll Table.putAll
  generalize puts.entries = l
  induction l generalizing s with
  | nil => rfl
  | cons e l ih => rw [List.foldl_cons, List.foldl_cons, ih hs.put, newest_put hs]

theorem newest_delete (s : Store) (k : Key) : (s.delete k).newest = s.newest.erase k :=
  newest_eq fun j => by rw [read?_delete, OrderedMap.get?_erase, get?_newest]

theorem newest_deleteAll (s : Store) (keys : List Key) :
    (keys.foldl delete s).newest = s.newest.eraseAll keys := by
  unfold Table.eraseAll
  induction keys generalizing s with
  | nil => rfl
  | cons k keys ih => rw [List.foldl_cons, List.foldl_cons, ih, newest_delete]

theorem UpTo.deleteAll (hs : s.UpTo v) (keys : List Key) : UpTo v (keys.foldl Store.delete s) := by
  induction keys generalizing s with
  | nil => exact hs
  | cons k keys ih => exact ih hs.delete

theorem isMet_eq (w : ConditionalWrite) (s : Store) : w.isMet s = s.newest.meets w := by
  simp only [ConditionalWrite.isMet, Table.meets, get?_newest]

end Store

/-! ### Scans of the newest values -/

namespace Scan

/-- A scan without ceiling. -/
def current (id : OpId) (q : Query) (version : Version) : Scan := ⟨id, q, version, .last⟩

variable (id : OpId) {q : Query} (v : Version)

/-- Without ceiling the candidates are the matching newest values. -/
theorem eligible_current (store : Store) :
    ((current id q v).eligible store.histories.entries).map (fun c => (c.key, c.value)) =
      store.newest.matching q := by
  unfold eligible Table.matching Store.newest
  rw [List.map_filterMap, OrderedMap.filterMap, List.filterMap_filterMap]
  congr 1
  funext e
  obtain ⟨k, h⟩ := e
  simp only [current]
  unfold select Query.keep?
  rw [History.visible?_eq_newest? (History.upTo_last h)]
  by_cases hin : q.range.contains k = true
  · cases h.newest? with
    | none => simp [hin]
    | some x =>
      cases q.filter? with
      | none => simp [hin]
      | some filter => cases hf : filter.transform x <;> simp [hin, hf]
  · cases h.newest? <;> simp [hin]

theorem returned_current (store : Store) :
    ((current id q v).returned store).map (fun c => (c.key, c.value)) = store.newest.returned q := by
  unfold Table.returned
  rw [← eligible_current id v]
  exact (Budget.admitted_map (·.2) (fun c : Candidate => (c.key, c.value)) (fun _ => rfl) _ _).symm

theorem results_current (store : Store) :
    (current id q v).results store = .ofList (store.newest.returned q) := by
  have h := (current id q v).returned_ordered store
  rw [← returned_current id v, OrderedMap.ofList_eq (List.pairwise_map.mpr h)]
  rfl

theorem more_current {size? : Option Nat}
    (hprocess : ∀ seen x, (current id q v).action.process seen x = .ok size?) (store : Store) :
    ((current id q v).walk store).more =
      decide ((store.newest.returned q).length < (store.newest.matching q).length) := by
  rw [walk_eq hprocess, ← returned_current id v, ← eligible_current id v, List.length_map, List.length_map]

/-- What a scan of the newest values answers, when its action cannot fail. -/
theorem run_current {size? : Option Nat} {action : RangeAction} (ha : (current id q v).action = action)
    (hprepare : action.prepare = .ok ()) (hprocess : ∀ seen x, action.process seen x = .ok size?)
    (hcommit : ∀ seen s, (action.commit seen s).2 = .ok ()) (store : Store) :
    ((current id q v).run store).store =
        (action.commit (((current id q v).returned store).map (current id q v).visit) store).1 ∧
      ∃ delta, ((current id q v).run store).result = .ok ⟨id, .ofList (store.newest.returned q),
        (store.newest.returned q).length < (store.newest.matching q).length, delta⟩ := by
  subst ha
  obtain ⟨hstore, hresult⟩ := (current id q v).run_eq hprepare hprocess store
  refine ⟨hstore, ((current id q v).walk store).delta, ?_⟩
  rw [hresult (hcommit _ _), results_current, more_current id v hprocess]
  rfl

/-- The keys that an action sees are the returned keys. -/
theorem visited_current (store : Store) :
    (((current id q v).returned store).map (current id q v).visit).map (·.key) =
      (store.newest.returned q).map (·.1) := by
  rw [← returned_current id v, List.map_map, List.map_map]
  rfl

/-- A plain scan of the newest values answers the returned entries, and removes them if it has to. -/
theorem run_current_of_isPlain (hq : q.IsPlain) (store : Store) :
    ((current id q v).run store).store =
        (if q.removes then ((store.newest.returned q).map (·.1)).foldl Store.delete store else store) ∧
      ∃ delta, ((current id q v).run store).result = .ok ⟨id, .ofList (store.newest.returned q),
        (store.newest.returned q).length < (store.newest.matching q).length, delta⟩ := by
  cases hr : q.removes with
  | false =>
    have ha : (current id q v).action = .noop := hq.action_eq.trans (by rw [hr]; rfl)
    obtain ⟨hstore, hresult⟩ := run_current id v ha rfl (fun _ _ => rfl) (fun _ _ => rfl) store
    exact ⟨hstore, hresult⟩
  | true =>
    have ha : (current id q v).action = .delete := hq.action_eq.trans (by rw [hr]; rfl)
    obtain ⟨hstore, hresult⟩ := run_current id v ha rfl (fun _ _ => rfl) (fun _ _ => rfl) store
    refine ⟨?_, hresult⟩
    rw [hstore, if_pos rfl, ← visited_current id v, List.foldl_map]
    rfl

end Scan

/-! ### Executing an operation -/

namespace Request

theorem execute_scan_store (r : Scan) (s : Store) : ((scan r).execute s).store = (r.run s).store := by
  unfold execute
  dsimp only
  split <;> rfl

/-- A read of a range leaves the store as it is. -/
theorem execute_read (id : OpId) (range : KeyRange) (c : Version) (s : Store) :
    ((scan (.read id range c)).execute s).store = s :=
  (execute_scan_store ..).trans (Scan.run_store_eq (fun _ _ => rfl) s)

theorem execute_scan_response {r : Scan} {s : Store} {result : ScanResult} (h : (r.run s).result = .ok result) :
    ((scan r).execute s).response = .scan result := by
  unfold execute
  dsimp only
  rw [h]

end Request

/-- While no stored version is newer than the stamp of a plain operation, executing it does to the newest
    values what the operation means on tables, it is answered as the table answers, and no version newer
    than the stamp appears. -/
theorem Operation.execute_request {op : Operation} (hop : op.IsPlain) {v : Version} {s : Store}
    (hs : s.UpTo v) :
    ((op.request v).execute s).store.newest = (s.newest.run op).1 ∧ ((op.request v).execute s).store.UpTo v ∧
      op.acknowledgement?.or ((op.request v).execute s).response.answer? = some (s.newest.run op).2 := by
  obtain ⟨id, body⟩ := op
  cases body with
  | get key =>
    refine ⟨rfl, hs, ?_⟩
    simp [acknowledgement?, request, Request.execute, Response.answer?, Table.run, Store.get?_newest]
  | put key value => exact ⟨Store.newest_put hs key value, hs.put, rfl⟩
  | multi write =>
    refine ⟨?_, hs.putAll _, ?_⟩
    · simp only [request, Request.execute, Table.run, Table.write, ← Store.isMet_eq]
      exact Store.newest_putAll hs _
    · simp [acknowledgement?, request, Request.execute, Response.answer?, Table.run, ← Store.isMet_eq]
  | range q =>
    obtain ⟨hstore, delta, hresult⟩ := Scan.run_current_of_isPlain id v (hop q rfl) s
    have hafter : (((Operation.mk id (.range q)).request v).execute s).store =
        if q.removes then ((s.newest.returned q).map (·.1)).foldl Store.delete s else s :=
      (Request.execute_scan_store _ s).trans hstore
    have hresponse := Request.execute_scan_response hresult
    refine ⟨?_, ?_, ?_⟩
    · rw [hafter]
      simp only [Table.run]
      split
      · exact Store.newest_deleteAll s _
      · rfl
    · rw [hafter]
      split
      · exact hs.deleteAll _
      · exact hs
    · show Response.answer? (((Request.scan (Scan.current id q v)).execute s).response) = _
      rw [hresponse]
      rfl

end ReplicaGroup
