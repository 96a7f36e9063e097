import ReplicaGroup.Proofs.Capture
import ReplicaGroup.Proofs.Store.Cleanup

/-! # Stored sizes

The size of a range is counted over the histories, by a loop of its own. Told on tables it is the length of
the newest values of the range and their number: what a scan of the range without limit returns, and what
the change reported by removing scans adds up to. -/

namespace ReplicaGroup

/-! ### Sizes of tables -/

namespace Table
variable {t : Table} {range : KeyRange} {k : Key} {x : Bytes}

/-- The bytes of all values. -/
def bytes (t : Table) : Nat := (t.values.map List.length).sum

theorem restrict_full (t : Table) : t.restrict .full = t := by
  apply OrderedMap.ext_get?
  intro k
  rw [get?_restrict]
  rfl

/-- Erasing takes one entry out of the list. -/
theorem entries_erase (h : t.get? k = some x) :
    ∃ front back, t.entries = front ++ (k, x) :: back ∧ (t.erase k).entries = front ++ back := by
  obtain ⟨front, back, hsplit⟩ := List.append_of_mem (OrderedMap.get?_eq_some_iff.mp h)
  refine ⟨front, back, hsplit, ?_⟩
  have hordered := t.ordered
  rw [hsplit] at hordered
  obtain ⟨-, hback, hfront⟩ := List.pairwise_append.mp hordered
  have hkeep : ∀ e ∈ front ++ back, e.1 ≠ k := by
    intro e he hek
    rcases List.mem_append.mp he with he | he
    · exact Std.lt_irrefl (hek ▸ hfront e he (k, x) (.head _))
    · exact Std.lt_irrefl (hek ▸ (List.pairwise_cons.mp hback).1 e he)
  calc (t.erase k).entries
      = (front ++ (k, x) :: back).filter fun e => e.1 ≠ k := by rw [← hsplit]; rfl
    _ = (front ++ back).filter fun e => e.1 ≠ k := by simp [List.filter_append]
    _ = front ++ back := List.filter_eq_self.mpr fun e he => decide_eq_true (hkeep e he)

theorem bytes_erase (h : t.get? k = some x) : bytes (t.erase k) + x.length = t.bytes := by
  obtain ⟨front, back, hsplit, herase⟩ := entries_erase h
  simp only [bytes, OrderedMap.values, hsplit, herase, List.map_append, List.map_cons, List.sum_append, List.sum_cons]
  omega

theorem size_erase (h : t.get? k = some x) : (t.erase k).size + 1 = t.size := by
  obtain ⟨front, back, hsplit, herase⟩ := entries_erase h
  simp only [OrderedMap.size, hsplit, herase, List.length_append, List.length_cons]
  omega

/-- Removing entries makes a table smaller by their values and by their number. -/
theorem sizes_eraseAll {gone : List (Key × Bytes)} (hmem : ∀ e ∈ gone, t.get? e.1 = some e.2)
    (hdistinct : gone.Pairwise fun a b => a.1 < b.1) :
    (t.eraseAll (gone.map (·.1))).bytes + (gone.map fun e => e.2.length).sum = t.bytes ∧
      (t.eraseAll (gone.map (·.1))).size + gone.length = t.size := by
  induction gone generalizing t with
  | nil => exact ⟨rfl, rfl⟩
  | cons e gone ih =>
    obtain ⟨he, hgone⟩ := List.pairwise_cons.mp hdistinct
    have hfirst := hmem e (.head _)
    have hrest : ∀ d ∈ gone, OrderedMap.get? (t.erase e.1) d.1 = some d.2 := fun d hd => by
      rw [OrderedMap.get?_erase, if_neg fun hde => Std.lt_irrefl (hde ▸ he d hd)]
      exact hmem d (.tail _ hd)
    obtain ⟨hbytes, hsize⟩ := ih hrest hgone
    have hbytes' := bytes_erase hfirst
    have hsize' := size_erase hfirst
    simp only [List.map_cons, List.sum_cons, List.length_cons, eraseAll, List.foldl_cons] at hbytes hsize ⊢
    omega

end Table

/-! ### The counting loop -/

namespace KeyRange
variable {range : KeyRange}

/-- The newest values of the keys of a range. -/
def newestOf (range : KeyRange) (l : List (Key × History)) : List Bytes :=
  l.filterMap fun e => if range.contains e.1 then e.2.newest? else none

/-- Where the loop ends, no later key is in the range. -/
theorem newestOf_eq_nil {l : List (Key × History)} (h : ∀ e ∈ l, range.passed e.1 = true) :
    range.newestOf l = [] := by
  rw [newestOf, List.filterMap_eq_nil_iff]
  intro e he
  rw [if_neg (by simp [contains, h e he])]

theorem measure_eq {l : List (Key × History)} (hl : l.Pairwise fun a b => a.1 < b.1) :
    range.measure l = (((range.newestOf l).map List.length).sum, (range.newestOf l).length) := by
  induction l with
  | nil => rfl
  | cons e rest ih =>
    obtain ⟨k, h⟩ := e
    obtain ⟨hk, hrest⟩ := List.pairwise_cons.mp hl
    unfold measure
    split
    · next hpassed =>
      have hnil : range.newestOf ((k, h) :: rest) = [] := newestOf_eq_nil fun e he => by
        rcases List.mem_cons.mp he with rfl | he
        · exact hpassed
        · exact passed_mono hpassed (Std.le_of_lt (hk e he))
      rw [hnil]
      rfl
    · have hcons : range.newestOf ((k, h) :: rest) =
          (if range.contains k then h.newest? else none).toList ++ range.newestOf rest := by
        rw [newestOf, List.filterMap_cons]
        cases (if range.contains k then h.newest? else none) <;> rfl
      rw [ih hrest, hcons]
      cases range.contains k <;> cases h.newest? <;> simp [Nat.add_comm]

/-- The loop starts where the range does, and misses no key of it. -/
theorem newestOf_startingAt (range : KeyRange) (s : Store) :
    range.newestOf (s.startingAt range.start) = (s.newest.restrict range).values := by
  have hvalues : (s.newest.restrict range).values =
      ((s.histories.entries.filterMap fun e => e.2.newest?.map (e.1, ·)).filter fun e => range.contains e.1).map (·.2) :=
    rfl
  rw [hvalues, List.filter_filterMap, List.map_filterMap, newestOf]
  unfold Store.startingAt OrderedMap.atLeast OrderedMap.filter
  rw [List.filterMap_filter]
  congr 1
  funext ⟨k, h⟩
  cases hin : range.contains k with
  | false => cases h.newest? <;> simp [Option.filter, hin]
  | true =>
    have hreached : range.reached k = true := (Bool.and_eq_true_iff.mp hin).1
    have hstart : ¬k < range.start := Std.not_lt.mpr (start_le_of_reached hreached)
    cases h.newest? <;> simp [Option.filter, hin, hstart]

theorem measure_startingAt (range : KeyRange) (s : Store) :
    range.measure (s.startingAt range.start) = ((s.newest.restrict range).bytes, (s.newest.restrict range).size) := by
  have hordered : (s.startingAt range.start).Pairwise fun a b => a.1 < b.1 := s.histories.ordered.filter _
  rw [measure_eq hordered, newestOf_startingAt, Table.bytes, OrderedMap.values, OrderedMap.size, List.length_map]

end KeyRange

theorem Request.execute_size_response (range : KeyRange) (s : Store) :
    ((Request.size range).execute s).response =
      .size range (s.newest.restrict range).bytes (s.newest.restrict range).size := by
  simp only [execute, KeyRange.measure_startingAt]

/-! ### Scans of everything -/

/-- Without filter and limit the entries of the range are returned. -/
theorem Table.returned_everything (t : Table) (range : KeyRange) :
    t.returned (.everything range) = (t.restrict range).entries := by
  have hmatching : t.matching (.everything range) = (t.restrict range).entries := by
    show _ = t.entries.filter fun e => range.contains e.1
    rw [← List.filterMap_eq_filter]
    rfl
  exact (Budget.admitted_unlimited _ _ _).trans hmatching

/-- A scan of everything returns the newest values of the range. -/
theorem Scan.run_everything (id : OpId) (range : KeyRange) (v : Version) (store : Store) :
    let s := current id (.everything range) v
    (s.run store).store = store ∧ (s.run store).result = .ok ⟨id, store.newest.restrict range, false, .zero⟩ := by
  intro s
  have hresults : s.results store = store.newest.restrict range := by
    rw [results_current, Table.returned_everything, OrderedMap.ofList_eq]
  have hall : (s.shown store).length = (s.results store).size := by
    rw [OrderedMap.size, entries_results]
    exact congrArg List.length (Budget.admitted_unlimited _ _ _).symm
  obtain ⟨hstore, hresult⟩ := run_idle (s := s) rfl store
  rw [hall, hresults, decide_eq_false (Nat.lt_irrefl _)] at hresult
  exact ⟨hstore, hresult⟩

/-- Three reads of one range agree, whatever its bounds: the size counts the entries that a scan of everything
    returns, and these are the keys of the range with what point reads find for them. -/
theorem size_counts_scanned_entries (store : Store) (range : KeyRange) (scanId reader : OpId) (v : Version) :
    let sized := (Request.size range).execute store
    let scanned := (Request.scan ⟨scanId, .everything range, v, .last⟩).execute store
    ∃ bytes keys results,
      sized.response = .size range bytes keys ∧ sized.store = store ∧
      scanned.response = .scan ⟨scanId, results, false, .zero⟩ ∧ scanned.store = store ∧
      keys = results.size ∧ bytes = (results.values.map List.length).sum ∧
      ∀ k, (range.contains k = true →
          ((Request.get reader k).execute store).response = .get reader k (results.get? k)) ∧
        (range.contains k = false → results.get? k = none) := by
  intro sized scanned
  obtain ⟨hstore, hresult⟩ := Scan.run_everything scanId range v store
  refine ⟨_, _, store.newest.restrict range, Request.execute_size_response range store,
    Store.execute_size range store, Request.execute_scan_response hresult,
    (Request.execute_scan_store _ store).trans hstore, rfl, rfl, fun k => ⟨fun hin => ?_, fun hout => ?_⟩⟩
  · rw [Table.get?_restrict, if_pos hin, Store.get?_newest, Request.execute]
  · rw [Table.get?_restrict, hout]
    rfl

/-! ### Scans that remove -/

namespace Scan
variable (id : OpId) (q : Query) (v : Version) (store : Store)

/-- What a scan without ceiling selects of a key is made of its newest value. -/
theorem get?_stored {c : Candidate} (hc : c ∈ (current id q v).returned store) :
    store.newest.get? c.key = some c.stored := by
  have hmem : c ∈ (current id q v).eligible store.histories.entries := (Budget.admitted_prefix ..).subset hc
  obtain ⟨⟨k, h⟩, he, hselect⟩ := List.mem_filterMap.mp hmem
  obtain ⟨-, hselect⟩ := Option.ite_none_right_eq_some.mp hselect
  obtain ⟨rfl, hvisible, -⟩ := select_eq_some_iff.mp hselect
  rw [Store.get?_newest, Store.read?, Store.history?, OrderedMap.get?_eq_some_iff.mpr he]
  exact (History.visible?_eq_newest? (History.upTo_last h)).symm.trans hvisible

theorem keys_results (s : Scan) (store : Store) : (s.results store).keys = (s.returned store).map (·.key) :=
  List.map_map

theorem size_results (s : Scan) (store : Store) : (s.results store).size = (s.returned store).length :=
  List.length_map _

/-- What a scan without ceiling returns is stored. -/
theorem isSome_history?_of_mem_results {k : Key} (hk : k ∈ ((current id q v).results store).keys) :
    (store.history? k).isSome := by
  rw [keys_results] at hk
  obtain ⟨c, hc, rfl⟩ := List.mem_map.mp hk
  have hread := get?_stored id q v store hc
  rw [Store.get?_newest, Store.read?] at hread
  obtain ⟨h, hh, -⟩ := Option.bind_eq_some_iff.mp hread
  exact Option.isSome_of_mem hh

/-- The bytes stored of what a scan returns, whatever the filter makes of them. -/
def storedBytes (s : Scan) (store : Store) : Nat := ((s.returned store).map fun c => c.stored.length).sum

/-- Removals are announced by the stored values. -/
theorem delta_removed (l : List Candidate) :
    l.foldr (fun c d => (SizeDelta.announced c.stored.length (some 0)).add d) .zero =
      ⟨-((l.map fun c => c.stored.length).sum : Nat), -(l.length : Nat)⟩ := by
  induction l with
  | nil => simp [SizeDelta.zero]
  | cons c l ih =>
    have hfirst : SizeDelta.announced c.stored.length (some 0) = ⟨-c.stored.length, -1⟩ := rfl
    rw [List.foldr_cons, ih, hfirst, SizeDelta.add, List.map_cons, List.sum_cons, List.length_cons]
    congr 1 <;> dsimp only <;> omega

/-- A scan that removes never fails. It removes the keys it returns and announces what was stored of them. -/
theorem run_removing (h : q.action? = some .delete) :
    let s := current id q v
    (s.run store).store = (s.results store).keys.foldl Store.delete store ∧
      (s.run store).result = .ok ⟨id, s.results store, (s.walk store).more,
        ⟨-(s.storedBytes store : Nat), -((s.results store).size : Nat)⟩⟩ := by
  intro s
  have haction : s.action = .delete := by
    show q.action?.getD .noop = .delete
    rw [h]
    rfl
  have hprocess : ∀ seen x, s.action.process seen x = .ok (some 0) := fun _ _ => by
    rw [haction]
    rfl
  obtain ⟨hstore, hresult⟩ := run_eq (by rw [haction]; rfl) hprocess store
  rw [haction] at hstore hresult
  refine ⟨?_, (hresult rfl).trans ?_⟩
  · rw [hstore, keys_results]
    simp only [RangeAction.delete, List.foldl_map]
    rfl
  · rw [walk_eq hprocess, delta_removed, size_results]
    rfl

/-- Without what a scan returns, the newest values are fewer by the returned keys and shorter by what was stored
    of them. -/
theorem sizes_removed :
    let s := current id q v
    Table.bytes (store.newest.eraseAll (s.results store).keys) + s.storedBytes store = store.newest.bytes ∧
      OrderedMap.size (store.newest.eraseAll (s.results store).keys) + (s.results store).size = store.newest.size := by
  intro s
  have hmem : ∀ e ∈ (s.returned store).map fun c => (c.key, c.stored), store.newest.get? e.1 = some e.2 := by
    intro e he
    obtain ⟨c, hc, rfl⟩ := List.mem_map.mp he
    exact get?_stored id q v store hc
  have hsizes := Table.sizes_eraseAll hmem (List.pairwise_map.mpr (s.returned_ordered store))
  rw [List.map_map, List.map_map, List.length_map] at hsizes
  rw [keys_results, size_results]
  exact hsizes

end Scan

/-- Removals are accounted for exactly. A range query that removes what it returns succeeds, and removes the
    keys it returns and no other, each with all its versions. The sizes of the whole store differ by the change it
    reports, in bytes and in keys, and it reports as many keys as it returns. -/
theorem removal_changes_sizes_by_delta (id : OpId) (range : KeyRange) (limit : Limit) (filter? : Option ValueFilter)
    (v : Version) (store : Store) :
    let op : Operation := ⟨id, .range ⟨range, limit, filter?, some .delete⟩⟩
    let removed := (op.request v).execute store
    ∃ result bytes keys bytes' keys',
      removed.response = .scan result ∧
      ((Request.size .full).execute store).response = .size .full bytes keys ∧
      ((Request.size .full).execute removed.store).response = .size .full bytes' keys' ∧
      (bytes' : Int) = bytes + result.delta.bytes ∧ (keys' : Int) = keys + result.delta.keys ∧
      (∀ k, k ∈ result.results.keys ↔ (store.history? k).isSome ∧ removed.store.history? k = none) ∧
      (∀ k, k ∉ result.results.keys → removed.store.history? k = store.history? k) ∧
      result.delta.keys = -result.results.size := by
  intro op removed
  let q : Query := ⟨range, limit, filter?, some .delete⟩
  obtain ⟨hstore, hresult⟩ := Scan.run_removing id q v store rfl
  obtain ⟨hbytes, hkeys⟩ := Scan.sizes_removed id q v store
  have hafter : removed.store = ((Scan.current id q v).results store).keys.foldl Store.delete store :=
    (Request.execute_scan_store _ store).trans hstore
  have hhistory : ∀ k, removed.store.history? k =
      if k ∈ ((Scan.current id q v).results store).keys then none else store.history? k := fun k => by
    rw [hafter, Store.history?_deleteAll]
  refine ⟨_, _, _, _, _, Request.execute_scan_response hresult, Request.execute_size_response .full store,
    Request.execute_size_response .full removed.store, ?_, ?_, fun k => ⟨fun hk => ?_, fun ⟨hsome, hnone⟩ => ?_⟩,
    fun k hk => ?_, rfl⟩
  · rw [Table.restrict_full, Table.restrict_full, hafter, Store.newest_deleteAll]
    dsimp only
    omega
  · rw [Table.restrict_full, Table.restrict_full, hafter, Store.newest_deleteAll]
    dsimp only
    omega
  · exact ⟨Scan.isSome_history?_of_mem_results id q v store hk, (hhistory k).trans (if_pos hk)⟩
  · refine Decidable.byContradiction fun hk => ?_
    rw [← hhistory k |>.trans (if_neg hk), hnone] at hsome
    cases hsome
  · exact (hhistory k).trans (if_neg hk)

/-- Of the three bytes that are removed the filter shows one. -/
example :
    let store := (Store.empty.put ⟨[97]⟩ [1, 2, 3] 1).put ⟨[98]⟩ [4] 1
    let s := Scan.current ⟨1⟩ ⟨.full, .entries 1, some ⟨fun value => some (value.take 1)⟩, some .delete⟩ 2
    (s.run store).result.toOption = some ⟨⟨1⟩, .ofList [(⟨[97]⟩, [1])], true, ⟨-3, -1⟩⟩ := by decide

end ReplicaGroup
