import ReplicaGroup.Proofs.Table

/-! # Stamps of requests

What storage is asked to write carries a version, its stamp. As long as actions stamp their effects with the
version that they are given, storage holds no version above the stamps of what it has executed. -/

namespace ReplicaGroup

/-- An action whose effects carry no version above those of the entries that it has seen. -/
def RangeAction.IsStamped (action : RangeAction) : Prop :=
  ∀ (visits : List Visit) (s : Store) (w : Version),
    (∀ visit ∈ visits, visit.version ≤ w) → s.UpTo w → (action.commit visits s).1.UpTo w

theorem RangeAction.isStamped_noop : noop.IsStamped := fun _ _ _ _ hs => hs

theorem RangeAction.isStamped_delete : delete.IsStamped := fun visits s w _ hs => by
  show Store.UpTo w (visits.foldl (fun s v => s.delete v.key) s)
  rw [← List.foldl_map (f := fun v : Visit => v.key)]
  exact hs.deleteAll _

namespace Store
variable {s : Store} {v w : Version}

theorem UpTo.put_of_le (hs : s.UpTo w) (hv : v ≤ w) (k : Key) (x : Bytes) : (s.put k x v).UpTo w := by
  intro j h hh
  rw [history?_put] at hh
  split at hh
  · cases hh
    intro u hu
    rcases OrderedMap.mem_keys_insert.mp hu with rfl | hu
    · exact hv
    · exact hs.getD k u hu
  · exact hs j h hh

theorem UpTo.putAll_of_le (hs : s.UpTo w) (hv : v ≤ w) (puts : OrderedMap Key Bytes) : (s.putAll puts v).UpTo w := by
  unfold Store.putAll
  generalize puts.entries = l
  induction l generalizing s with
  | nil => exact hs
  | cons e l ih => exact ih (hs.put_of_le hv e.1 e.2)

end Store

namespace Scan
variable {s : Scan} {store : Store} {w : Version}

theorem version_of_mem_visitAll {action : RangeAction} {version : Version} {seen : List Visit} {b : Budget}
    {l : List Candidate} {visit : Visit} (h : visit ∈ (visitAll action version seen b l).visits) :
    visit.version = version := by
  induction l generalizing seen b with
  | nil => cases h
  | cons c rest ih =>
    unfold visitAll at h
    split at h
    · cases h
    · dsimp only at h
      split at h
      · cases h
      · rcases List.mem_cons.mp h with rfl | h
        · rfl
        · split at h
          · exact ih h
          · cases h

/-- A run leaves no version above the one that its action stamps with. -/
theorem upTo_run (hs : store.UpTo w) (ha : s.action.IsStamped) (hv : s.query.action?.isSome → s.actionVersion ≤ w) :
    (s.run store).store.UpTo w := by
  have hcommit : (s.action.commit (s.walk store).visits store).1.UpTo w := by
    cases haction : s.query.action? with
    | none =>
      rw [action, haction]
      exact hs
    | some a =>
      refine ha _ _ _ (fun visit hvisit => ?_) hs
      rw [version_of_mem_visitAll hvisit]
      exact hv (haction ▸ rfl)
  rcases s.run_store_cases store with hstore | hstore
  · rw [hstore]
    exact hs
  · rw [hstore]
    exact hcommit

end Scan

namespace Request

mutual

/-- The requests that a request makes storage execute, one after the other; only a snapshot has others. -/
def leaves : Request → List Request
  | .snapshot _ requests => leavesAll requests
  | .get id key => [.get id key]
  | .put key value version => [.put key value version]
  | .scan read => [.scan read]
  | .multi id write version => [.multi id write version]
  | .size range => [.size range]
  | .cleanup range version => [.cleanup range version]

/-- The leaves of requests. -/
def leavesAll : List Request → List Request
  | [] => []
  | r :: rest => leaves r ++ leavesAll rest

end

theorem leavesAll_eq (requests : List Request) : leavesAll requests = requests.flatMap leaves := by
  induction requests with
  | nil => simp [leavesAll]
  | cons r rest ih => rw [leavesAll, ih, List.flatMap_cons]

/-- Whether storage executes a request by itself, and not by executing others. -/
def isLeaf : Request → Bool
  | .snapshot .. => false
  | _ => true

/-- The version of what a request writes by itself, or has an action write. -/
def stamp? : Request → Option Version
  | .put _ _ version | .multi _ _ version => some version
  | .scan read => if read.query.action?.isSome then some read.actionVersion else none
  | .get .. | .size _ | .cleanup .. | .snapshot .. => none

/-- The versions of what a request writes, in order. -/
def stamps (r : Request) : List Version := r.leaves.filterMap stamp?

/-- The action that a request runs. -/
def action? : Request → Option RangeAction
  | .scan read => read.query.action?
  | _ => none

/-- A request whose actions stamp what they write. -/
def IsStamped (r : Request) : Prop := ∀ leaf ∈ r.leaves, ∀ action, leaf.action? = some action → action.IsStamped

/-- A request that writes nothing, or writes at one version. -/
def WritesAt (w : Version) (r : Request) : Prop := ∀ v ∈ r.stamps, v = w

variable {r : Request} {position : Position} {requests : List Request} {w : Version}

theorem leaves_of_isLeaf (h : r.isLeaf = true) : r.leaves = [r] := by
  cases r with
  | snapshot => cases h
  | get | put | scan | multi | size | cleanup => rfl

theorem isStamped_of_isLeaf (h : r.isLeaf = true) (ha : ∀ action, r.action? = some action → action.IsStamped) :
    r.IsStamped := by
  intro leaf hleaf
  rw [leaves_of_isLeaf h, List.mem_singleton] at hleaf
  exact hleaf ▸ ha

theorem isStamped_of_no_action (h : ∀ leaf ∈ r.leaves, leaf.action? = none) : r.IsStamped := by
  intro leaf hleaf action haction
  cases haction.symm.trans (h leaf hleaf)

theorem mem_leaves_snapshot {leaf : Request} :
    leaf ∈ (snapshot position requests).leaves ↔ ∃ r ∈ requests, leaf ∈ r.leaves := by
  rw [leaves, leavesAll_eq, List.mem_flatMap]

theorem stamps_snapshot : (snapshot position requests).stamps = requests.flatMap stamps := by
  rw [stamps, leaves, leavesAll_eq, List.filterMap_flatMap]
  rfl

mutual

/-- What the leaves of a request keep, the request keeps. -/
theorem keeps_execute {P : Store → Prop} : ∀ (r : Request) {s : Store}, P s →
    (∀ leaf ∈ r.leaves, leaf.isLeaf = true → ∀ s, P s → P (leaf.execute s).store) → P (r.execute s).store
  | .snapshot position requests, _, hs, hleaf => by
    rw [Store.execute_snapshot]
    exact keeps_afterAll requests hs fun r hr leaf hmem =>
      hleaf leaf (mem_leaves_snapshot.mpr ⟨r, hr, hmem⟩)
  | .get .., s, hs, hleaf | .put .., s, hs, hleaf | .scan _, s, hs, hleaf | .multi .., s, hs, hleaf |
    .size _, s, hs, hleaf | .cleanup .., s, hs, hleaf => hleaf _ (.head _) rfl s hs

theorem keeps_afterAll {P : Store → Prop} : ∀ (requests : List Request) {s : Store}, P s →
    (∀ r ∈ requests, ∀ leaf ∈ r.leaves, leaf.isLeaf = true → ∀ s, P s → P (leaf.execute s).store) →
    P (s.afterAll requests)
  | [], _, hs, _ => hs
  | r :: rest, _, hs, hleaf =>
    keeps_afterAll rest (keeps_execute r hs (hleaf r (.head _))) fun r hr => hleaf r (.tail _ hr)

end

/-- Executing a request leaves no version above its stamps. -/
theorem upTo_execute (r : Request) {s : Store} (hs : s.UpTo w) (hr : r.IsStamped) (hv : ∀ v ∈ r.stamps, v ≤ w) :
    (r.execute s).store.UpTo w := by
  refine keeps_execute r hs fun leaf hmem hleaf s hs => ?_
  have hstamp : ∀ v, leaf.stamp? = some v → v ≤ w := fun v hstamp =>
    hv v (List.mem_filterMap.mpr ⟨leaf, hmem, hstamp⟩)
  cases leaf with
  | snapshot => cases hleaf
  | get | size => exact hs
  | put key value version => exact hs.put_of_le (hstamp version rfl) key value
  | multi id write version => exact hs.putAll_of_le (hstamp version rfl) _
  | cleanup range version => exact hs.cleanup range version
  | scan read =>
    rw [execute_scan_store]
    refine Scan.upTo_run hs ?_ fun hsome => hstamp _ (if_pos hsome)
    cases haction : read.query.action? with
    | none =>
      rw [Scan.action, haction]
      exact RangeAction.isStamped_noop
    | some action =>
      rw [Scan.action, haction]
      exact hr (.scan read) hmem action haction

/-! ### Requests with one stamp -/

theorem writesAt_of_stamp? (hp : r.leaves = [r]) (hs : ∀ v, r.stamp? = some v → v = w) : r.WritesAt w := by
  intro v hv
  rw [stamps, hp] at hv
  obtain ⟨leaf, hleaf, hv⟩ := List.mem_filterMap.mp hv
  cases List.mem_singleton.mp hleaf
  exact hs v hv

theorem writesAt_size (range : KeyRange) : (size range).WritesAt w := writesAt_of_stamp? rfl nofun

theorem writesAt_cleanup (range : KeyRange) (version : Version) : (cleanup range version).WritesAt w :=
  writesAt_of_stamp? rfl nofun

theorem writesAt_put (key : Key) (value : Bytes) : (put key value w).WritesAt w :=
  writesAt_of_stamp? rfl fun _ h => (Option.some.inj h).symm

theorem writesAt_snapshot (h : ∀ r ∈ requests, r.WritesAt w) : (snapshot position requests).WritesAt w := by
  intro v hv
  rw [stamps_snapshot] at hv
  obtain ⟨r, hr, hv⟩ := List.mem_flatMap.mp hv
  exact h r hr v hv

end Request

/-- The request that executes an operation writes at the version that it is given. -/
theorem Operation.writesAt_request (op : Operation) (w : Version) : (op.request w).WritesAt w := by
  obtain ⟨id, body⟩ := op
  cases body with
  | get key => exact Request.writesAt_of_stamp? rfl nofun
  | put key value => exact Request.writesAt_put key value
  | multi write => exact Request.writesAt_of_stamp? rfl fun _ h => (Option.some.inj h).symm
  | range query =>
    exact Request.writesAt_of_stamp? rfl fun _ h => (Option.some.inj (Option.ite_none_right_eq_some.mp h).2).symm

end ReplicaGroup
