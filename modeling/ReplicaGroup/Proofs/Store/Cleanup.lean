import ReplicaGroup.Proofs.Scan.Results

/-! # What a cleanup drops

A cleanup drops the keys outside a range, and inside it the history that no read at the version before its
own or later needs. Every such read, and every scan of the range, sees what it saw before. What goes may as
well be settled in a pass over the whole store, and dropped key by key afterwards. -/

namespace ReplicaGroup

theorem History.atLeast_eq_self {h : History} {v : Version} (hv : (h.below v).isEmpty = true) : h.atLeast v = h := by
  apply OrderedMap.ext_get?
  intro w
  rw [OrderedMap.get?_atLeast]
  split
  · next hw =>
    have hnone : (h.below v).get? w = none := by
      rw [OrderedMap.get?_eq_none_iff, OrderedMap.keys, List.isEmpty_iff.mp hv]
      exact List.not_mem_nil
    rw [OrderedMap.get?_below, if_pos hw] at hnone
    exact hnone.symm
  · rfl

namespace Store
variable {s : Store} {range : KeyRange} {v w c : Version} {j k : Key}

/-- Two stores with the same histories are equal. -/
theorem ext_history? {s t : Store} (h : ∀ k, s.history? k = t.history? k) : s = t := by
  obtain ⟨m⟩ := s
  obtain ⟨n⟩ := t
  exact congrArg Store.mk (OrderedMap.ext_get? h)

/-! ### Reads -/

theorem visible?_cleanup (hk : range.contains k = true) (hc : v.toNat ≤ c.toNat + 1) :
    (s.cleanup range v).visible? k c = s.visible? k c := by
  unfold visible?
  rw [history?_cleanup, if_pos hk]
  cases s.history? k with
  | none => rfl
  | some h => exact History.visible?_collapse hc

theorem cleanup_cleanup (s : Store) (range : KeyRange) (v : Version) :
    (s.cleanup range v).cleanup range v = s.cleanup range v := by
  apply ext_history?
  intro k
  rw [history?_cleanup, history?_cleanup]
  split
  · rw [Option.map_map]
    congr 1
    funext h
    exact h.collapse_collapse v
  · rfl

/-! ### Two passes -/

/-- The keys outside a range. -/
def outside (s : Store) (range : KeyRange) : List Key :=
  (s.histories.entries.filter fun e => !range.contains e.1).map (·.1)

/-- The keys of a range that have versions older than the newest one below `v`, with that newest version. -/
def overgrown (s : Store) (range : KeyRange) (v : Version) : OrderedMap Key Version :=
  s.histories.filterMap fun k h =>
    if range.contains k then
      (h.below v).last?.bind fun e => if (h.below e.1).isEmpty then none else some e.1
    else none

theorem mem_outside_iff : k ∈ s.outside range ↔ (s.history? k).isSome ∧ range.contains k = false := by
  rw [outside, history?, ← OrderedMap.mem_keys_iff, OrderedMap.keys]
  simp only [List.mem_map, List.mem_filter, Bool.not_eq_true']
  constructor
  · rintro ⟨e, ⟨he, hout⟩, rfl⟩
    exact ⟨⟨e, he, rfl⟩, hout⟩
  · rintro ⟨⟨e, he, rfl⟩, hout⟩
    exact ⟨e, ⟨he, hout⟩, rfl⟩

theorem history?_deleteAll (s : Store) (keys : List Key) (k : Key) :
    (keys.foldl delete s).history? k = if k ∈ keys then none else s.history? k := by
  induction keys generalizing s with
  | nil => simp
  | cons j keys ih =>
    rw [List.foldl_cons, ih, history?_delete]
    by_cases hk : k ∈ keys <;> by_cases hj : k = j <;> simp [hk, hj]

theorem history?_dropBelow (s : Store) (j : Key) (v : Version) (k : Key) :
    (s.dropBelow j v).history? k = if k = j then (s.history? k).map (·.atLeast v) else s.history? k := by
  unfold dropBelow
  split
  · next h hj =>
    refine (OrderedMap.get?_insert ..).trans ?_
    split
    · next hk => rw [hk, hj]; rfl
    · rfl
  · next hj =>
    split
    · next hk => rw [hk, hj]; rfl
    · rfl

/-- Cutting histories one after the other cuts each of them where it is to be cut. -/
theorem history?_dropAllBelow (s : Store) (floors : OrderedMap Key Version) (k : Key) :
    (floors.entries.foldl (fun s e => s.dropBelow e.1 e.2) s).history? k =
      match floors.get? k with
      | some floor => (s.history? k).map (·.atLeast floor)
      | none => s.history? k := by
  obtain ⟨l, hl⟩ := floors
  simp only [OrderedMap.get?]
  induction l generalizing s with
  | nil => rfl
  | cons e l ih =>
    obtain ⟨he, hl⟩ := List.pairwise_cons.mp hl
    rw [List.foldl_cons, ih _ hl, history?_dropBelow, List.find?_cons]
    by_cases hk : e.1 = k
    · -- No later cut is at this key.
      have hnone : l.find? (fun e => e.1 = k) = none := by
        rw [List.find?_eq_none]
        intro x hx hxk
        exact Std.lt_irrefl (of_decide_eq_true hxk ▸ hk ▸ he x hx)
      simp [hnone, hk]
    · simp [hk, Ne.symm hk]

/-- A cleanup settles in one pass what goes, and drops it in two more. -/
theorem cleanup_eq_passes (s : Store) (range : KeyRange) (v : Version) :
    s.cleanup range v =
      (s.overgrown range v).entries.foldl (fun s e => s.dropBelow e.1 e.2) ((s.outside range).foldl delete s) := by
  apply ext_history?
  intro k
  rw [history?_cleanup, history?_dropAllBelow, history?_deleteAll, overgrown, OrderedMap.get?_filterMap, ← history?]
  cases hh : s.history? k with
  | none => simp
  | some h =>
    cases hk : range.contains k with
    | false =>
      have hout : k ∈ s.outside range := mem_outside_iff.mpr ⟨by rw [hh]; rfl, hk⟩
      simp [hout]
    | true =>
      have hin : k ∉ s.outside range := fun h => by rw [(mem_outside_iff.mp h).2] at hk; cases hk
      rw [if_pos rfl, if_neg hin]
      simp only [Option.bind_some, if_true, Option.map_some, History.collapse]
      cases hl : (h.below v).last? with
      | none => rfl
      | some e =>
        cases hfloor : (h.below e.1).isEmpty with
        | true => simp [hfloor, History.atLeast_eq_self hfloor]
        | false => simp [hfloor]

end Store

/-! ### Scans of the range -/

namespace Scan
variable {s : Scan} {v : Version}

theorem shown_cleanup (hc : v.toNat ≤ s.ceiling.toNat + 1) (store : Store) :
    s.shown (store.cleanup s.query.range v) = s.shown store := by
  have hselect : ∀ k h, s.select k (h.collapse v) = s.select k h := fun k h => by
    unfold select
    rw [History.visible?_collapse hc]
  unfold shown eligible Store.cleanup OrderedMap.filterMap
  rw [List.filterMap_filterMap]
  congr 2
  funext e
  split
  · next hin => simp [hin, hselect]
  · next hin => simp [hin]

theorem result_cleanup (haction : s.query.action? = none ∨ s.query.action? = some .noop)
    (hc : v.toNat ≤ s.ceiling.toNat + 1) (store : Store) :
    (s.run (store.cleanup s.query.range v)).result = (s.run store).result := by
  have hresults : s.results (store.cleanup s.query.range v) = s.results store :=
    OrderedMap.ext (by rw [entries_results, entries_results, shown_cleanup hc])
  rw [(run_idle (action_eq_noop haction) _).2, (run_idle (action_eq_noop haction) store).2, hresults,
    shown_cleanup hc]

end Scan

/-- A cleanup leaves no key outside the range. Of each key inside, it leaves the versions that are not older
    than the newest one below `v`: the key stays, with at most one version below `v`, and every read from the
    version before `v` on, every scan of the range at such a ceiling and every read of the newest value sees
    what it saw before. A second cleanup of the same kind finds nothing to drop. -/
theorem cleanup_drops_what_is_unreadable (store : Store) (range : KeyRange) (v : Version) :
    let after := ((Request.cleanup range v).execute store).store
    (∀ k, range.contains k = false → after.history? k = none) ∧
      (∀ k, range.contains k = true →
        (store.history? k = none → after.history? k = none) ∧
        (∀ h, store.history? k = some h → ∃ h', after.history? k = some h' ∧
          (∀ w x, h'.get? w = some x ↔ h.get? w = some x ∧ ∀ u ∈ h.keys, u < v → u ≤ w) ∧
          ∀ u ∈ h'.keys, ∀ w ∈ h'.keys, u < v → w < v → u = w) ∧
        (∀ c : Version, v.toNat ≤ c.toNat + 1 → after.visible? k c = store.visible? k c) ∧
        after.read? k = store.read? k) ∧
      (∀ s : Scan, s.query.range = range → s.query.action? = none ∨ s.query.action? = some .noop →
        v.toNat ≤ s.ceiling.toNat + 1 → (s.run after).result = (s.run store).result) ∧
      ((Request.cleanup range v).execute after).store = after := by
  intro after
  have hafter : after = store.cleanup range v := by simp only [after, Request.execute]
  rw [hafter]
  refine ⟨fun k hk => ?_, fun k hk => ⟨?_, ?_, ?_, ?_⟩, ?_, ?_⟩
  · rw [Store.history?_cleanup, hk]
    rfl
  · intro hnone
    rw [Store.history?_cleanup, hnone, Option.map_none, ite_self]
  · intro h hh
    refine ⟨h.collapse v, ?_, fun w x => History.get?_collapse_eq_some_iff, fun u hu w hw huv hwv => ?_⟩
    · rw [Store.history?_cleanup, if_pos hk, hh, Option.map_some]
    · exact History.eq_of_mem_collapse hu hw huv hwv
  · intro c hc
    exact Store.visible?_cleanup hk hc
  · rw [Store.read?_cleanup, if_pos hk]
  · rintro s rfl haction hc
    exact Scan.result_cleanup haction hc store
  · simp only [Request.execute, Store.cleanup_cleanup]

/-- Below version 4, version 2 is the newest one. -/
example :
    let store := ((((Store.empty.put ⟨[97]⟩ [1] 1).put ⟨[97]⟩ [2] 2).put ⟨[97]⟩ [5] 5).put ⟨[122]⟩ [9] 1)
    (store.cleanup (.closedOpen ⟨[97]⟩ ⟨[110]⟩) 4).histories.entries.map (fun e => (e.1, e.2.keys)) =
      [(⟨[97]⟩, [2, 5])] := by decide

end ReplicaGroup
