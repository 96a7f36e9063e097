import Mathlib.Algebra.Ring.Nat
import ReplicaGroup.Proofs.Table

/-! # What a scan returns

Said without the walk and without the budget: the entries that a scan shows are the keys of its range with the
value that the filter makes of the newest version below the ceiling, and a limit takes the longest front of
them in which every entry finds room. -/

namespace ReplicaGroup

/-! ### Limits -/

namespace Limit

/-- What a limit bounds the costs by, if it does. -/
def bound? : Limit → Option Nat
  | unlimited => none
  | entries n | bytes n => some n

/-- Whether values fit a limit one after the other: before each of them the limit is not exhausted, and its
    own cost does not pass the bound. -/
def Fits (limit : Limit) (values : List Bytes) : Prop :=
  ∀ n, limit.bound? = some n → ∀ front x back, values = front ++ x :: back →
    (front.map limit.cost).sum < n ∧ (front.map limit.cost).sum + limit.cost x ≤ n

end Limit

namespace Budget
variable {α : Type} {b left : Budget} {x : Bytes} {values : List Bytes}

/-- Whether values fit what is left of a limit. -/
def Holds (b : Budget) (values : List Bytes) : Prop :=
  ∀ n, b.limit.bound? = some n → ∀ front x back, values = front ++ x :: back →
    b.used + (front.map b.limit.cost).sum < n ∧ b.used + (front.map b.limit.cost).sum + b.limit.cost x ≤ n

theorem holds_full {limit : Limit} : (full limit).Holds values ↔ limit.Fits values := by
  simp only [Holds, Limit.Fits, full, Nat.zero_add]

theorem holds_nil : b.Holds [] := fun _ _ front x back h => by simp at h

theorem take?_eq_some_iff : b.take? x = some left ↔
    (∀ n, b.limit.bound? = some n → b.used < n ∧ b.used + b.limit.cost x ≤ n) ∧
      left = { b with used := b.used + b.limit.cost x } := by
  obtain ⟨limit, used⟩ := b
  cases limit with
  | unlimited => simp [take?, isOpen, fits, Limit.bound?, @eq_comm _ left]
  | entries n | bytes n => simp [take?, isOpen, fits, Limit.bound?, @eq_comm _ left]

theorem holds_cons_iff : b.Holds (x :: values) ↔ ∃ left, b.take? x = some left ∧ left.Holds values := by
  constructor
  · intro h
    refine ⟨_, take?_eq_some_iff.mpr ⟨fun n hn => ?_, rfl⟩, fun n hn front y back hv => ?_⟩
    · exact h n hn [] x values rfl
    · have hy := h n hn (x :: front) y back (by rw [hv, List.cons_append])
      simpa [Nat.add_assoc] using hy
  · rintro ⟨left, htake, hleft⟩ n hn front y back hv
    obtain ⟨hx, rfl⟩ := take?_eq_some_iff.mp htake
    cases front with
    | nil =>
      cases hv
      exact hx n hn
    | cons z front =>
      cases hv
      have hy := hleft n hn front y back rfl
      simpa [Nat.add_assoc] using hy

/-- What is admitted fits. -/
theorem holds_admitted (value : α → Bytes) (b : Budget) (l : List α) : b.Holds ((b.admitted value l).map value) := by
  induction l generalizing b with
  | nil => exact holds_nil
  | cons c rest ih =>
    unfold admitted
    split
    · exact holds_nil
    · next left htake => exact holds_cons_iff.mpr ⟨left, htake, ih left⟩

/-- No longer front than the admitted one fits. -/
theorem length_le_admitted {value : α → Bytes} {l front : List α} (hfront : front <+: l)
    (h : b.Holds (front.map value)) : front.length ≤ (b.admitted value l).length := by
  induction l generalizing b front with
  | nil =>
    rw [List.prefix_nil.mp hfront]
    exact Nat.le_refl _
  | cons c rest ih =>
    cases front with
    | nil => exact Nat.zero_le _
    | cons d front =>
      obtain ⟨rfl, hrest⟩ := List.cons_prefix_cons.mp hfront
      obtain ⟨left, htake, hleft⟩ := holds_cons_iff.mp h
      rw [admitted, htake]
      exact Nat.succ_le_succ (ih hrest hleft)

end Budget

/-! ### Scans -/

namespace Scan
variable {s : Scan} {store : Store}

/-- Whether a scan without limit shows a value for a key: the key is in the range, and the filter makes the
    value of the newest version of the key that is not above the ceiling. -/
def Shows (s : Scan) (store : Store) (k : Key) (x : Bytes) : Prop :=
  s.query.range.contains k = true ∧ ∃ h v stored, store.history? k = some h ∧ h.get? v = some stored ∧
    v ≤ s.ceiling ∧ (∀ w ∈ h.keys, w ≤ s.ceiling → w ≤ v) ∧ s.query.keep? stored = some x

theorem select_eq_some_iff {k : Key} {h : History} {c : Candidate} : s.select k h = some c ↔
    c.key = k ∧ h.visible? s.ceiling = some c.stored ∧ s.query.keep? c.stored = some c.value := by
  have heq : s.select k h = (h.visible? s.ceiling).bind fun stored =>
      (s.query.keep? stored).bind fun value => some ⟨k, stored, value⟩ := by
    unfold select Query.keep?
    cases s.query.filter? <;> rfl
  simp only [heq, Option.bind_eq_some_iff, Option.some.injEq]
  constructor
  · rintro ⟨stored, hvisible, value, hkeep, rfl⟩
    exact ⟨rfl, hvisible, hkeep⟩
  · rintro ⟨rfl, hvisible, hkeep⟩
    exact ⟨c.stored, hvisible, c.value, hkeep, rfl⟩

/-- The entries that a scan without limit shows, in key order. -/
def shown (s : Scan) (store : Store) : List (Key × Bytes) :=
  (s.eligible store.histories.entries).map fun c => (c.key, c.value)

theorem shown_ordered : (s.shown store).Pairwise fun a b => a.1 < b.1 :=
  List.pairwise_map.mpr (eligible_ordered store.histories.ordered)

theorem mem_shown_iff {k : Key} {x : Bytes} : (k, x) ∈ s.shown store ↔ s.Shows store k x := by
  simp only [shown, eligible, List.mem_map, List.mem_filterMap, Prod.exists, Prod.mk.injEq]
  constructor
  · rintro ⟨c, ⟨k', h, hmem, hc⟩, rfl, rfl⟩
    obtain ⟨hin, hselect⟩ := Option.ite_none_right_eq_some.mp hc
    obtain ⟨rfl, hvisible, hkeep⟩ := select_eq_some_iff.mp hselect
    obtain ⟨v, hv, hle, hmax⟩ := History.visible?_eq_some_iff.mp hvisible
    exact ⟨hin, h, v, c.stored, OrderedMap.get?_eq_some_iff.mpr hmem, hv, hle, hmax, hkeep⟩
  · rintro ⟨hin, h, v, stored, hh, hv, hle, hmax, hkeep⟩
    refine ⟨⟨k, stored, x⟩, ⟨k, h, OrderedMap.get?_eq_some_iff.mp hh, ?_⟩, rfl, rfl⟩
    rw [if_pos hin]
    exact select_eq_some_iff.mpr ⟨rfl, History.visible?_eq_some_iff.mpr ⟨v, hv, hle, hmax⟩, hkeep⟩

/-- What a scan returns is what the limit admits of what it shows. -/
theorem entries_results (s : Scan) (store : Store) :
    (s.results store).entries = (Budget.full s.query.limit).admitted (fun e => e.2) (s.shown store) :=
  (Budget.admitted_map (fun e : Key × Bytes => e.2) (fun c : Candidate => (c.key, c.value)) (fun _ => rfl) _ _).symm

theorem results_prefix (s : Scan) (store : Store) : (s.results store).entries <+: s.shown store :=
  s.entries_results store ▸ Budget.admitted_prefix ..

/-- What a scan returns and what it leaves, told without the walk: in key order these are the entries that it
    shows, and what it returns is the longest front of them that fits the limit. -/
structure Returns (s : Scan) (store : Store) (entries rest : List (Key × Bytes)) : Prop where
  ordered : (entries ++ rest).Pairwise fun a b => a.1 < b.1
  shown : ∀ k x, (k, x) ∈ entries ++ rest ↔ s.Shows store k x
  fits : s.query.limit.Fits (entries.map (·.2))
  longest : ∀ front, front <+: entries ++ rest → s.query.limit.Fits (front.map (·.2)) → front.length ≤ entries.length

theorem exists_returns (s : Scan) (store : Store) : ∃ rest, s.Returns store (s.results store).entries rest := by
  obtain ⟨rest, hrest⟩ := s.results_prefix store
  refine ⟨rest, ?_, ?_, ?_, ?_⟩
  · rw [hrest]
    exact shown_ordered
  · rw [hrest]
    exact fun k x => mem_shown_iff
  · rw [s.entries_results store]
    exact Budget.holds_full.mp (Budget.holds_admitted _ _ _)
  · intro front hprefix hfits
    rw [s.entries_results store]
    exact Budget.length_le_admitted (hrest ▸ hprefix) (Budget.holds_full.mpr hfits)

theorem action_eq_noop (h : s.query.action? = none ∨ s.query.action? = some .noop) : s.action = .noop := by
  unfold action
  rcases h with h | h <;> rw [h] <;> rfl

/-- A scan that does nothing to what it returns. -/
theorem run_idle (h : s.action = .noop) (store : Store) : (s.run store).store = store ∧
    (s.run store).result = .ok ⟨s.id, s.results store, decide ((s.results store).size < (s.shown store).length), .zero⟩ := by
  have hprocess : ∀ seen v, s.action.process seen v = .ok none := fun _ _ => by rw [h]; rfl
  obtain ⟨hstore, hresult⟩ := run_eq (by rw [h]; rfl) hprocess store
  rw [h] at hstore hresult
  refine ⟨hstore, (hresult rfl).trans ?_⟩
  have hdelta : ∀ l : List Candidate,
      l.foldr (fun c d => (SizeDelta.announced c.stored.length none).add d) .zero = .zero := fun l => by
    induction l with
    | nil => rfl
    | cons c l ih => rw [List.foldr_cons, ih]; rfl
  rw [walk_eq hprocess, hdelta]
  simp only [OrderedMap.size, results, shown, List.length_map]

end Scan

/-- A scan without effect never fails and leaves the store as it is. Of all keys of the range that have a
    version up to the ceiling, with what the filter makes of the newest such version, it returns the longest
    front that fits the limit, and tells whether something is left. -/
theorem scan_returns_longest_fitting_front (s : Scan) (h : s.query.action? = none ∨ s.query.action? = some .noop)
    (store : Store) :
    ∃ (shown : List (Key × Bytes)) (result : ScanResult),
      shown.Pairwise (fun a b => a.1 < b.1) ∧ (∀ k x, (k, x) ∈ shown ↔ s.Shows store k x) ∧
      (s.run store).result = .ok result ∧ (s.run store).store = store ∧ result.id = s.id ∧ result.delta = .zero ∧
      result.results.entries <+: shown ∧ s.query.limit.Fits result.results.values ∧
      (∀ front, front <+: shown → s.query.limit.Fits (front.map (·.2)) → front.length ≤ result.results.size) ∧
      (result.more = true ↔ ∃ e rest, shown = result.results.entries ++ e :: rest) := by
  have haction : s.action = .noop := by
    unfold Scan.action
    rcases h with h | h <;> rw [h] <;> rfl
  obtain ⟨hstore, hresult⟩ := Scan.run_idle haction store
  have hfront : (s.results store).entries <+: s.shown store := s.entries_results store ▸ Budget.admitted_prefix ..
  refine ⟨s.shown store, _, Scan.shown_ordered, fun k x => Scan.mem_shown_iff, hresult, hstore, rfl, rfl, hfront,
    ?_, fun front hprefix hfits => ?_, ?_⟩
  · rw [OrderedMap.values, s.entries_results store]
    exact Budget.holds_full.mp (Budget.holds_admitted _ _ _)
  · rw [OrderedMap.size, s.entries_results store]
    exact Budget.length_le_admitted hprefix (Budget.holds_full.mpr hfits)
  · obtain ⟨rest, hrest⟩ := hfront
    rw [decide_eq_true_iff, OrderedMap.size, ← hrest, List.length_append]
    cases rest with
    | nil => simp
    | cons e rest => simp

/-- An excluded first key, a hidden newer version and a limit of bytes that ends in the middle. -/
theorem scan_of_excluded_start :
    let store := (((Store.empty.put ⟨[97]⟩ [1] 1).put ⟨[98]⟩ [2, 2] 1).put ⟨[98]⟩ [9] 5).put ⟨[99]⟩ [3] 2
    let s : Scan := ⟨⟨1⟩, ⟨⟨.excluded ⟨[97]⟩, .unbounded⟩, .bytes 2, none, some .noop⟩, 0, 3⟩
    (s.query.action? = none ∨ s.query.action? = some .noop) ∧ s.shown store = [(⟨[98]⟩, [2, 2]), (⟨[99]⟩, [3])] ∧
      ∃ result, (s.run store).result = .ok result ∧ (s.run store).store = store ∧
        result.results.entries = [(⟨[98]⟩, [2, 2])] ∧ result.more = true := by
  intro store s
  have h : s.query.action? = none ∨ s.query.action? = some .noop := .inr rfl
  have hshown : s.shown store = [(⟨[98]⟩, [2, 2]), (⟨[99]⟩, [3])] := by decide
  obtain ⟨shown, result, hordered, hmem, hresult, hstore, -, -, -, -, -, -⟩ :=
    scan_returns_longest_fitting_front s h store
  have hok := hresult.symm.trans (Scan.run_idle rfl store).2
  cases hok
  refine ⟨h, hshown, _, hresult, hstore, ?_, ?_⟩
  · decide
  · decide

end ReplicaGroup
