import Mathlib.Data.List.Basic
import ReplicaGroup.Proofs.Store.Sizes
import ReplicaGroup.Proofs.Store.Stamps

/-! # Stored keys have versions

Dropping old versions could leave a key without any. No request does that: a cleanup drops only what is older
than a version that it keeps, and everything else that takes versions away takes the key with them. So the
stored keys are those that reads find, and those that sizes and scans count. -/

namespace ReplicaGroup

theorem History.newest?_isSome_iff {h : History} : h.newest?.isSome ↔ h.keys ≠ [] := by
  simp [newest?, OrderedMap.last?, OrderedMap.keys]

namespace Store
variable {s : Store} {k : Key}

/-- Every stored key has a version. -/
def Versioned (s : Store) : Prop := ∀ k h, s.history? k = some h → h.keys ≠ []

theorem versioned_empty : empty.Versioned := fun _ _ hh => by cases hh

/-! ### What requests do to a store -/

theorem Versioned.put (hs : s.Versioned) (k : Key) (x : Bytes) (v : Version) : (s.put k x v).Versioned := by
  intro j h hh
  rw [history?_put] at hh
  split at hh
  · cases hh
    exact List.ne_nil_of_mem (OrderedMap.mem_keys_insert.mpr (.inl rfl))
  · exact hs j h hh

theorem Versioned.putAll (hs : s.Versioned) (puts : OrderedMap Key Bytes) (v : Version) :
    (s.putAll puts v).Versioned := by
  unfold Store.putAll
  generalize puts.entries = l
  induction l generalizing s with
  | nil => exact hs
  | cons e l ih => exact ih (hs.put e.1 e.2 v)

theorem Versioned.deleteAll (hs : s.Versioned) (keys : List Key) : Versioned (keys.foldl delete s) := by
  intro j h hh
  rw [history?_deleteAll] at hh
  split at hh
  · cases hh
  · exact hs j h hh

/-- The newest version below the bound stays, so a history that had a version keeps one. -/
theorem Versioned.cleanup (hs : s.Versioned) (range : KeyRange) (v : Version) : (s.cleanup range v).Versioned := by
  intro j h hh
  rw [history?_cleanup] at hh
  split at hh
  · obtain ⟨before, hbefore, rfl⟩ := Option.map_eq_some_iff.mp hh
    rw [← History.newest?_isSome_iff, History.newest?_collapse, History.newest?_isSome_iff]
    exact hs j before hbefore
  · cases hh

/-! ### What reads find -/

theorem Versioned.read?_eq_none_iff (hs : s.Versioned) : s.read? k = none ↔ s.history? k = none := by
  unfold read?
  cases hh : s.history? k with
  | none => simp
  | some h =>
    obtain ⟨x, hx⟩ := Option.isSome_iff_exists.mp (History.newest?_isSome_iff.mpr (hs k h hh))
    simp [hx]

theorem Versioned.keys_newest (hs : s.Versioned) : s.newest.keys = s.histories.keys := by
  have hsome : ∀ e ∈ s.histories.entries, (e.2.newest?.map (e.1, ·)).map (·.1) = some e.1 := by
    intro e he
    obtain ⟨x, hx⟩ := Option.isSome_iff_exists.mp
      (History.newest?_isSome_iff.mpr (hs e.1 e.2 (OrderedMap.get?_eq_some_iff.mpr he)))
    rw [hx]
    rfl
  calc s.newest.keys
      = s.histories.entries.filterMap fun e => (e.2.newest?.map (e.1, ·)).map (·.1) := List.map_filterMap ..
    _ = s.histories.entries.filterMap fun e => some e.1 := List.filterMap_congr hsome
    _ = s.histories.keys := congrFun List.filterMap_eq_map' _

theorem Versioned.size_newest (hs : s.Versioned) : s.newest.size = s.size := by
  have hkeys := congrArg List.length hs.keys_newest
  rwa [OrderedMap.keys, OrderedMap.keys, List.length_map, List.length_map] at hkeys

end Store

/-! ### Runs of requests -/

theorem RangeAction.versioned_commit {action : RangeAction} {s : Store} (ha : action = .noop ∨ action = .delete)
    (hs : s.Versioned) (visits : List Visit) : (action.commit visits s).1.Versioned := by
  rcases ha with rfl | rfl
  · exact hs
  · show Store.Versioned (visits.foldl (fun s v => s.delete v.key) s)
    rw [← List.foldl_map (f := fun v : Visit => v.key)]
    exact hs.deleteAll _

namespace Request

/-- A request whose scans have no action, or one that does nothing or removes what they return. -/
def IsPlain (r : Request) : Prop :=
  ∀ leaf ∈ r.leaves, ∀ action, leaf.action? = some action → action = .noop ∨ action = .delete

/-- Plain requests leave no key without versions. -/
theorem versioned_afterAll {requests : List Request} {s : Store} (hs : s.Versioned)
    (hplain : ∀ r ∈ requests, r.IsPlain) : (s.afterAll requests).Versioned := by
  refine keeps_afterAll requests hs fun r hr leaf hmem hleaf s hs => ?_
  cases leaf with
  | snapshot => cases hleaf
  | get | size => exact hs
  | put key value version => exact hs.put key value version
  | multi id write version => exact hs.putAll _ version
  | cleanup range version => exact hs.cleanup range version
  | scan read =>
    have haction : read.action = .noop ∨ read.action = .delete := by
      cases ha : read.query.action? with
      | none => exact .inl (by rw [Scan.action, ha]; rfl)
      | some action =>
        rw [Scan.action, ha]
        exact hplain r hr (.scan read) hmem action ha
    rw [execute_scan_store]
    rcases read.run_store_cases s with hstore | hstore
    · rw [hstore]
      exact hs
    · rw [hstore]
      exact RangeAction.versioned_commit haction hs _

end Request

/-- A store that has executed plain requests, however they are nested, holds no key without versions. The keys
    it holds are those that a size and a scan of everything count, and a read finds nothing exactly for the
    other keys. -/
theorem stored_keys_have_versions (requests : List Request) (hplain : ∀ r ∈ requests, r.IsPlain) (id : OpId)
    (v : Version) :
    let s := Store.empty.afterAll requests
    (∀ k h, s.history? k = some h → h.keys ≠ []) ∧
      (∃ bytes, ((Request.size .full).execute s).response = .size .full bytes s.size) ∧
      (∃ results, ((Request.scan ⟨id, .everything .full, v, .last⟩).execute s).response =
          .scan ⟨id, results, false, .zero⟩ ∧ results.keys = s.histories.keys ∧ results.size = s.size) ∧
      ∀ k, ((Request.get id k).execute s).response = .get id k none ↔ s.history? k = none := by
  intro s
  have hs : s.Versioned := Request.versioned_afterAll Store.versioned_empty hplain
  refine ⟨hs, ⟨s.newest.bytes, ?_⟩, ⟨s.newest, ?_, hs.keys_newest, hs.size_newest⟩, fun k => ?_⟩
  · rw [Request.execute_size_response, Table.restrict_full, hs.size_newest]
  · have hresult := (Scan.run_everything id .full v s).2
    rw [Table.restrict_full] at hresult
    exact Request.execute_scan_response hresult
  · simp only [Request.execute, Response.get.injEq, true_and]
    exact hs.read?_eq_none_iff

/-- A batch in a batch writes, cleans up and writes again; then a scan removes what it returns. -/
theorem nested_batches_leave_versions :
    let requests : List Request :=
      [.put ⟨[1]⟩ [10] 1, .put ⟨[2]⟩ [20] 1,
        .snapshot 4 [.put ⟨[1]⟩ [11] 2,
          .snapshot 3 [.cleanup .full 3, .multi ⟨5⟩ ⟨[⟨⟨[1]⟩, some [11]⟩], .ofList [(⟨[3]⟩, [30])], .empty⟩ 3]],
        .scan ⟨⟨6⟩, ⟨.full, .entries 1, none, some .delete⟩, 3, .last⟩]
    let s := Store.empty.afterAll requests
    s.size = 2 ∧ (∃ bytes, ((Request.size .full).execute s).response = .size .full bytes 2) ∧
      ((Request.get ⟨7⟩ ⟨[1]⟩).execute s).response = .get ⟨7⟩ ⟨[1]⟩ none := by
  intro requests s
  have hplain : ∀ r ∈ requests, r.IsPlain := by
    simp [requests, Request.IsPlain, Request.leaves, Request.leavesAll, Request.action?]
  have hsize : s.size = 2 := by decide
  obtain ⟨-, hcounted, -, hread⟩ := stored_keys_have_versions requests hplain ⟨7⟩ 3
  refine ⟨hsize, hsize ▸ hcounted, (hread ⟨[1]⟩).mpr ?_⟩
  decide

end ReplicaGroup
