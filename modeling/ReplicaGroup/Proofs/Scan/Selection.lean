import ReplicaGroup.Proofs.Store.Versions

/-! # What a scan selects

A scan walks the store lazily and stops for three reasons. Told without the walk, its candidates are the
keys of the range whose visible value the filter keeps, and it returns the front of them that its budget
has room for. An action that never fails on an entry sees exactly the returned entries. -/

namespace ReplicaGroup

/-! ### The budget -/

namespace Budget
variable {α β : Type}

/-- The front of a list of entries that a budget has room for. -/
def admitted (value : α → Bytes) (b : Budget) : List α → List α
  | [] => []
  | c :: rest =>
    match b.take? (value c) with
    | none => []
    | some left => c :: admitted value left rest

theorem admitted_prefix (value : α → Bytes) (b : Budget) (l : List α) : b.admitted value l <+: l := by
  induction l generalizing b with
  | nil => exact List.prefix_refl _
  | cons c rest ih =>
    unfold admitted
    split
    · exact List.nil_prefix
    · exact (List.prefix_cons_inj c).mpr (ih _)

/-- A budget that is used up has room for nothing. -/
theorem admitted_of_closed {value : α → Bytes} {b : Budget} (h : b.isOpen = false) (l : List α) :
    b.admitted value l = [] := by
  cases l with
  | nil => rfl
  | cons c rest => simp [admitted, take?, h]

theorem admitted_map {value : α → Bytes} (value' : β → Bytes) (f : α → β) (hf : ∀ c, value' (f c) = value c)
    (b : Budget) (l : List α) : b.admitted value' (l.map f) = (b.admitted value l).map f := by
  induction l generalizing b with
  | nil => rfl
  | cons c rest ih =>
    rw [List.map_cons, admitted, admitted, hf]
    cases b.take? (value c) with
    | none => rfl
    | some left => exact congrArg (f c :: ·) (ih left)

/-- Without a limit there is room for everything. -/
theorem admitted_unlimited (value : α → Bytes) (used : Nat) (l : List α) :
    (Budget.mk .unlimited used).admitted value l = l := by
  induction l generalizing used with
  | nil => rfl
  | cons c rest ih => simp [admitted, take?, isOpen, fits, ih]

end Budget

/-! ### The range -/

namespace KeyRange
variable {r : KeyRange} {j k : Key}

theorem passed_mono (h : r.passed j = true) (hjk : j ≤ k) : r.passed k = true := by
  unfold passed at *
  split at h
  · cases h
  · exact decide_eq_true (Std.lt_of_lt_of_le (of_decide_eq_true h) hjk)
  · exact decide_eq_true (Std.le_trans (of_decide_eq_true h) hjk)

theorem least_le (k : Key) : Key.least ≤ k := List.nil_le k.bytes

/-- Only keys from the start on can be in the range. -/
theorem start_le_of_reached (h : r.reached k = true) : r.start ≤ k := by
  unfold reached at h
  unfold start
  split at h
  · exact least_le k
  · exact of_decide_eq_true h
  · exact Std.le_of_lt (of_decide_eq_true h)

/-- From the start on, only an excluded first key does not satisfy the lower bound. -/
theorem eq_start_of_not_reached (h : r.reached k = false) (hk : r.start ≤ k) : k = r.start := by
  obtain ⟨lower, upper⟩ := r
  cases lower with
  | unbounded => cases h
  | included a => exact absurd hk (of_decide_eq_false h)
  | excluded a => exact Std.le_antisymm (Std.not_lt.mp (of_decide_eq_false h)) hk

end KeyRange

/-! ### Candidates -/

namespace Scan
variable {s : Scan} {store : Store}

/-- The keys of the range whose visible value the filter keeps, in order. -/
def eligible (s : Scan) (l : List (Key × History)) : List Candidate :=
  l.filterMap fun e => if s.query.range.contains e.1 then s.select e.1 e.2 else none

theorem select_key {k : Key} {h : History} {c : Candidate} (hc : s.select k h = some c) : c.key = k := by
  unfold select at hc
  cases hv : h.visible? s.ceiling with
  | none => simp [hv] at hc
  | some stored =>
    cases hf : s.query.filter? with
    | none => simp [hv, hf] at hc; rw [← hc]
    | some filter =>
      cases ht : filter.transform stored with
      | none => simp [hv, hf, ht] at hc
      | some value => simp [hv, hf, ht] at hc; rw [← hc]

theorem eligible_ordered {l : List (Key × History)} (h : l.Pairwise fun a b => a.1 < b.1) :
    (s.eligible l).Pairwise fun a b => a.key < b.key := by
  refine h.filterMap _ fun a b hab c hc d hd => ?_
  split at hc
  · split at hd
    · rw [select_key hc, select_key hd]; exact hab
    · cases hd
  · cases hc

theorem eligible_eq_nil {l : List (Key × History)} (h : ∀ e ∈ l, s.query.range.contains e.1 = false) :
    s.eligible l = [] := by
  rw [eligible, List.filterMap_eq_nil_iff]
  intro e he
  rw [if_neg (by rw [h e he]; exact Bool.false_ne_true)]

/-- From the start of the range on, the walk finds what the filter over all entries finds. -/
theorem candidates_eq {l : List (Key × History)} (hl : l.Pairwise fun a b => a.1 < b.1)
    (hstart : ∀ e ∈ l, s.query.range.start ≤ e.1) : s.candidates l = s.eligible l := by
  induction l with
  | nil => rfl
  | cons e rest ih =>
    obtain ⟨k, h⟩ := e
    obtain ⟨hk, hrest⟩ := List.pairwise_cons.mp hl
    have ih := ih hrest fun e he => hstart e (.tail _ he)
    unfold candidates
    by_cases hin : s.query.range.contains k = true
    · rw [if_pos hin, eligible, List.filterMap_cons, if_pos hin]
      cases s.select k h with
      | none => exact ih
      | some c => exact congrArg (c :: ·) ih
    · rw [if_neg hin]
      have hcons : s.eligible ((k, h) :: rest) = s.eligible rest := by
        rw [eligible, List.filterMap_cons, if_neg hin]; rfl
      rw [hcons]
      split
      · exact ih
      · next hskip =>
        -- The walk ends here: `k` has passed the upper bound, and so has every later key.
        have hpassed : s.query.range.passed k = true := Decidable.byContradiction fun hp => by
          refine hskip ⟨KeyRange.eq_start_of_not_reached ?_ (hstart _ (.head _)), hp⟩
          simpa [KeyRange.contains, hp] using hin
        refine (eligible_eq_nil fun e he => ?_).symm
        rw [KeyRange.contains, KeyRange.passed_mono hpassed (Std.le_of_lt (hk e he))]
        simp

theorem candidates_startingAt (s : Scan) (store : Store) :
    s.candidates (store.startingAt s.query.range.start) = s.eligible store.histories.entries := by
  have hord := store.histories.ordered
  unfold Store.startingAt OrderedMap.atLeast OrderedMap.filter
  rw [candidates_eq (hord.filter _) fun e he => Std.not_lt.mp (by simpa using (List.mem_filter.mp he).2)]
  unfold eligible
  rw [List.filterMap_filter]
  congr 1
  funext e
  split
  · rfl
  · next hlt =>
    -- A key before the start is not in the range.
    rw [if_neg]
    intro hin
    rw [KeyRange.contains, Bool.and_eq_true] at hin
    exact hlt (by simpa using Std.not_lt.mpr (KeyRange.start_le_of_reached hin.1))

/-! ### The walk -/

/-- The candidates that a scan returns. -/
def returned (s : Scan) (store : Store) : List Candidate :=
  (Budget.full s.query.limit).admitted Candidate.value (s.eligible store.histories.entries)

/-- What an action sees of a candidate. -/
def visit (s : Scan) (c : Candidate) : Visit := ⟨c.key, c.value, s.actionVersion⟩

theorem visitAll_eq {action : RangeAction} {size? : Option Nat}
    (hprocess : ∀ seen v, action.process seen v = .ok size?) (version : Version) (seen : List Visit) (b : Budget)
    (l : List Candidate) :
    visitAll action version seen b l =
      { visits := (b.admitted Candidate.value l).map fun c => ⟨c.key, c.value, version⟩
        delta := (b.admitted Candidate.value l).foldr
          (fun c d => (SizeDelta.announced c.stored.length size?).add d) .zero
        more := decide ((b.admitted Candidate.value l).length < l.length)
        failed? := none } := by
  induction l generalizing seen b with
  | nil => rfl
  | cons c rest ih =>
    unfold visitAll Budget.admitted
    cases b.take? c.value with
    | none => simp
    | some left =>
      simp only [hprocess]
      cases ho : left.isOpen with
      | true => simp [ih]
      | false => cases rest <;> simp [Budget.admitted_of_closed ho]

theorem walk_eq {size? : Option Nat} (hprocess : ∀ seen v, s.action.process seen v = .ok size?) (store : Store) :
    s.walk store =
      { visits := (s.returned store).map s.visit
        delta := (s.returned store).foldr (fun c d => (SizeDelta.announced c.stored.length size?).add d) .zero
        more := decide ((s.returned store).length < (s.eligible store.histories.entries).length)
        failed? := none } := by
  rw [walk, candidates_startingAt, visitAll_eq hprocess]
  rfl

theorem returned_ordered (s : Scan) (store : Store) :
    (s.returned store).Pairwise fun a b => a.key < b.key :=
  (eligible_ordered store.histories.ordered).sublist (Budget.admitted_prefix ..).sublist

/-- The entries that a scan returns, as a map. -/
def results (s : Scan) (store : Store) : OrderedMap Key Bytes :=
  ⟨(s.returned store).map fun c => (c.key, c.value), List.pairwise_map.mpr (s.returned_ordered store)⟩

/-! ### Runs -/

/-- A run whose action starts and fails on no entry returns the admitted candidates and commits. -/
theorem run_eq {size? : Option Nat} (hprepare : s.action.prepare = .ok ())
    (hprocess : ∀ seen v, s.action.process seen v = .ok size?) (store : Store) :
    let outcome := s.action.commit ((s.returned store).map s.visit) store
    (s.run store).store = outcome.1 ∧
      (outcome.2 = .ok () → (s.run store).result = .ok ⟨s.id, s.results store, (s.walk store).more,
        (s.walk store).delta⟩) := by
  unfold run
  rw [hprepare, walk_eq hprocess]
  simp only
  generalize hc : s.action.commit ((s.returned store).map s.visit) store = outcome
  obtain ⟨after, _ | _⟩ := outcome
  · exact ⟨rfl, fun h => by cases h⟩
  · refine ⟨rfl, fun _ => ?_⟩
    have : OrderedMap.ofList (((s.returned store).map s.visit).map fun v => (v.key, v.value)) = s.results store := by
      rw [List.map_map]
      exact OrderedMap.ofList_eq (List.pairwise_map.mpr (s.returned_ordered store))
    simp only [this]

/-- A run leaves the store as it is, or as the action's commit leaves it. -/
theorem run_store_cases (s : Scan) (store : Store) : (s.run store).store = store ∨
    (s.run store).store = (s.action.commit (s.walk store).visits store).1 := by
  unfold run
  split
  · exact .inl rfl
  · dsimp only
    split
    · exact .inl rfl
    · split <;> next heq => exact .inr (by rw [heq])

/-- A run whose action never changes a store leaves the store as it is, whether it fails or not. -/
theorem run_store_eq (h : ∀ seen store, (s.action.commit seen store).1 = store) (store : Store) :
    (s.run store).store = store := by
  rcases s.run_store_cases store with hstore | hstore
  · exact hstore
  · exact hstore.trans (h _ store)

end Scan
end ReplicaGroup
