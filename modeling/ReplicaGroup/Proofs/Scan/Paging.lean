import ReplicaGroup.Proofs.Scan.Results

/-! # Reading a range page by page

A limited scan tells whether something is left, and the next scan starts after the last key that came. If
every entry fits a page of its own, the pages are the scan without limit, cut into pieces, and each scan
brings at least one entry. -/

namespace ReplicaGroup

namespace KeyRange
variable {r : KeyRange} {j k : Key}

theorem reached_mono (h : r.reached j = true) (hjk : j ≤ k) : r.reached k = true := by
  unfold reached at *
  split at h
  · rfl
  · exact decide_eq_true (Std.le_trans (of_decide_eq_true h) hjk)
  · exact decide_eq_true (Std.lt_of_lt_of_le (of_decide_eq_true h) hjk)

end KeyRange

namespace Scan
variable {s : Scan} {store : Store} {k last : Key} {x : Bytes} {front back : List (Key × Bytes)} {e : Key × Bytes}
  {page : ScanResult} {n : Nat}

/-- The scan of what comes after `last`. -/
def past (s : Scan) (last : Key) : Scan :=
  { s with query := { s.query with range := ⟨.excluded last, s.query.range.upper⟩ } }

/-- The scan without its limit. -/
def unlimited (s : Scan) : Scan := { s with query := { s.query with limit := .unlimited } }

/-- The pages of a scan, if `n` scans are enough: while something is left, the next scan starts after the last
    key that came. -/
def pages : Nat → Scan → Store → Option (List ScanResult)
  | 0, _, _ => none
  | n + 1, s, store =>
    let outcome := s.run store
    match outcome.result with
    | .error _ => none
    | .ok page =>
      if page.more then
        match page.results.last? with
        | some (last, _) => (pages n (s.past last) outcome.store).map (page :: ·)
        | none => none
      else some [page]

theorem length_pages {pages : List ScanResult} (h : s.pages n store = some pages) :
    1 ≤ pages.length ∧ pages.length ≤ n := by
  induction n generalizing s store pages with
  | zero => cases h
  | succ n ih =>
    rw [Scan.pages] at h
    split at h
    · cases h
    · split at h
      · split at h
        · obtain ⟨later, hlater, rfl⟩ := Option.map_eq_some_iff.mp h
          exact ⟨Nat.succ_pos _, Nat.succ_le_succ (ih hlater).2⟩
        · cases h
      · cases h
        exact ⟨Nat.le_refl _, Nat.succ_pos n⟩

/-! ### What comes after a key -/

theorem contains_past (hlast : s.query.range.reached last = true) :
    (s.past last).query.range.contains k = true ↔ s.query.range.contains k = true ∧ last < k := by
  simp only [KeyRange.contains, Bool.and_eq_true]
  constructor
  · rintro ⟨hk, hend⟩
    have hlt : last < k := of_decide_eq_true hk
    exact ⟨⟨KeyRange.reached_mono hlast (Std.le_of_lt hlt), hend⟩, hlt⟩
  · rintro ⟨⟨-, hend⟩, hlt⟩
    exact ⟨decide_eq_true hlt, hend⟩

theorem shows_past_iff (hlast : s.query.range.reached last = true) :
    (s.past last).Shows store k x ↔ s.Shows store k x ∧ last < k := by
  unfold Shows
  rw [contains_past hlast, and_right_comm]
  exact .rfl

/-- After one of the entries that a scan shows, those behind it are left. -/
theorem shown_past (h : s.shown store = front ++ e :: back) : (s.past e.1).shown store = back := by
  have hord : (s.shown store).Pairwise fun a b => a.1 < b.1 := shown_ordered
  rw [h, List.pairwise_append] at hord
  obtain ⟨-, hback, hfront⟩ := hord
  obtain ⟨hbehind, hback⟩ := List.pairwise_cons.mp hback
  have hmem : e ∈ s.shown store := h ▸ List.mem_append_right _ (.head _)
  have hreached : s.query.range.reached e.1 = true := by
    have hin := (mem_shown_iff.mp hmem).1
    rw [KeyRange.contains, Bool.and_eq_true] at hin
    exact hin.1
  refine OrderedMap.eq_of_mem_iff shown_ordered hback fun d => ?_
  obtain ⟨k, x⟩ := d
  rw [mem_shown_iff, shows_past_iff hreached, ← mem_shown_iff, h, List.mem_append, List.mem_cons]
  constructor
  · rintro ⟨hin | rfl | hin, hlt⟩
    · exact absurd hlt (Std.not_gt_of_lt (hfront _ hin e (.head _)))
    · exact absurd hlt Std.lt_irrefl
    · exact hin
  · intro hin
    exact ⟨.inr (.inr hin), hbehind _ hin⟩

/-! ### Pages -/

/-- Whether each entry that a scan shows fits a page of its own. -/
def FitsAlone (s : Scan) (store : Store) : Prop :=
  ∀ n, s.query.limit.bound? = some n → 0 < n ∧ ∀ e ∈ s.shown store, s.query.limit.cost e.2 ≤ n

theorem FitsAlone.past (h : s.FitsAlone store) (hshown : s.shown store = front ++ e :: back) :
    (s.past e.1).FitsAlone store := by
  intro n hn
  obtain ⟨hpos, hcost⟩ := h n hn
  refine ⟨hpos, fun d hd => hcost d ?_⟩
  rw [shown_past hshown] at hd
  rw [hshown]
  exact List.mem_append_right _ (.tail _ hd)

/-- The first entry finds room. -/
theorem admitted_ne_nil (hfits : s.FitsAlone store) (h : s.shown store ≠ []) :
    (Budget.full s.query.limit).admitted (fun e => e.2) (s.shown store) ≠ [] := by
  obtain ⟨d, back, hshown⟩ := List.exists_cons_of_ne_nil h
  have htake : (Budget.full s.query.limit).take? d.2 = some ⟨s.query.limit, 0 + s.query.limit.cost d.2⟩ := by
    refine Budget.take?_eq_some_iff.mpr ⟨fun n hn => ?_, rfl⟩
    obtain ⟨hpos, hcost⟩ := hfits n hn
    exact ⟨hpos, (Nat.zero_add _).symm ▸ hcost d (hshown ▸ .head _)⟩
  rw [hshown, Budget.admitted, htake]
  exact List.cons_ne_nil _ _

/-- One page. What it holds is all that the scan shows; or it ends with an entry, and something is left behind
    that one. -/
theorem exists_page (haction : s.action = .noop) (hfits : s.FitsAlone store) :
    ∃ page, (s.run store).result = .ok page ∧ (s.run store).store = store ∧
      (page.more = false ∧ page.results.entries = s.shown store ∨
        page.more = true ∧ ∃ front e back, page.results.entries = front ++ [e] ∧ back ≠ [] ∧
          s.shown store = front ++ e :: back) := by
  obtain ⟨hstore, hresult⟩ := run_idle haction store
  obtain ⟨back, hback⟩ := s.results_prefix store
  refine ⟨_, hresult, hstore, ?_⟩
  have hmore : (s.results store).size < (s.shown store).length ↔ back ≠ [] := by
    rw [OrderedMap.size, ← hback, List.length_append, ← List.length_pos_iff]
    omega
  by_cases hnil : back = []
  · subst hnil
    exact .inl ⟨decide_eq_false fun h => hmore.mp h rfl, (List.append_nil _).symm.trans hback⟩
  · refine .inr ⟨decide_eq_true (hmore.mpr hnil), ?_⟩
    have hne : (s.results store).entries ≠ [] := by
      rw [entries_results]
      exact admitted_ne_nil hfits (hback ▸ List.append_ne_nil_of_right_ne_nil _ hnil)
    obtain ⟨front, e, hlast⟩ : ∃ front e, (s.results store).entries = front ++ [e] :=
      ⟨_, _, (List.dropLast_concat_getLast hne).symm⟩
    refine ⟨front, e, back, hlast, hnil, ?_⟩
    rw [← hback, hlast, List.append_assoc, List.singleton_append]

theorem pages_of_last (hresult : (s.run store).result = .ok page) (hmore : page.more = false) :
    s.pages (n + 1) store = some [page] := by
  rw [Scan.pages, hresult]
  simp only [hmore]
  rfl

theorem pages_of_more {later : List ScanResult} (hresult : (s.run store).result = .ok page)
    (hstore : (s.run store).store = store) (hmore : page.more = true) (hlast : page.results.entries = front ++ [e])
    (hlater : (s.past e.1).pages n store = some later) : s.pages (n + 1) store = some (page :: later) := by
  have hlast? : page.results.last? = some e := by rw [OrderedMap.last?, hlast, List.getLast?_concat]
  rw [Scan.pages, hresult]
  simp only [hmore, hlast?, hstore, hlater]
  rfl

/-- With as many scans as there are entries to show, or one, the pages come to an end. They hold what the scan
    shows, and no page is empty unless there is nothing to show. -/
theorem exists_pages (haction : s.action = .noop) (hfits : s.FitsAlone store) (hn : (s.shown store).length ≤ n + 1) :
    ∃ pages, s.pages (n + 1) store = some pages ∧ pages.flatMap (·.results.entries) = s.shown store ∧
      (s.shown store = [] → pages.length = 1) ∧ ∀ p ∈ pages, p.results.entries = [] → s.shown store = [] := by
  -- On the number of entries to show: behind the last one of a page there are fewer.
  induction hlength : (s.shown store).length using Nat.strongRecOn generalizing s n with
  | _ length ih =>
  obtain ⟨page, hresult, hstore, ⟨hmore, hall⟩ | ⟨hmore, front, e, back, hlast, hback, hshown⟩⟩ :=
    exists_page haction hfits
  · refine ⟨[page], pages_of_last hresult hmore, ?_, fun _ => rfl, fun p hp hnil => ?_⟩
    · rw [List.flatMap_singleton, hall]
    · rw [← hall, ← List.mem_singleton.mp hp, hnil]
  · have hback' : (s.past e.1).shown store = back := shown_past hshown
    have hpos : 0 < back.length := List.length_pos_iff.mpr hback
    have hsum : length = front.length + (back.length + 1) := by
      rw [← hlength, hshown, List.length_append, List.length_cons]
    obtain ⟨n, rfl⟩ : ∃ m, n = m + 1 := ⟨n - 1, by omega⟩
    obtain ⟨later, hlater, hjoin, -, hfull⟩ := ih back.length (by omega) (s := s.past e.1) (n := n) haction
      (hfits.past hshown) (by rw [hback']; omega) (by rw [hback'])
    rw [hback'] at hjoin hfull
    have hne : s.shown store ≠ [] := hshown ▸ List.append_ne_nil_of_right_ne_nil _ (List.cons_ne_nil _ _)
    refine ⟨page :: later, pages_of_more hresult hstore hmore hlast hlater, ?_, fun h => absurd h hne,
      fun p hp hnil => ?_⟩
    · rw [List.flatMap_cons, hjoin, hlast, hshown, List.append_assoc, List.singleton_append]
    · rcases List.mem_cons.mp hp with rfl | hp
      · exact absurd (hlast.symm.trans hnil) (List.append_ne_nil_of_right_ne_nil _ (List.cons_ne_nil _ _))
      · exact absurd (hfull p hp hnil) hback

end Scan

/-- The pages of a scan with no effect. If every entry that the scan shows fits a page of its own, as many scans
    as there are results come to an end, or one scan if there are none; joined, the pages are what the scan
    without limit returns, so every key that the scan shows comes once and in order, and only a sole page is
    empty. -/
theorem pages_join_to_whole_scan (s : Scan) (store : Store) (n : Nat)
    (haction : s.query.action? = none ∨ s.query.action? = some .noop) (hn : 1 ≤ n)
    (hlimit : s.query.limit = .entries n ∨ s.query.limit = .bytes n ∧ ∀ k x, s.Shows store k x → x.length ≤ n) :
    ∃ whole pages, (s.unlimited.run store).result = .ok whole ∧
      s.pages (max 1 whole.results.size) store = some pages ∧
      pages.flatMap (·.results.entries) = whole.results.entries ∧
      1 ≤ pages.length ∧ pages.length ≤ max 1 whole.results.size ∧
      (∀ p ∈ pages, p.results.entries = [] → pages = [p]) ∧
      whole.results.entries.Pairwise (fun a b => a.1 < b.1) ∧
      ∀ k x, (k, x) ∈ whole.results.entries ↔ s.Shows store k x := by
  have hidle : s.action = .noop := Scan.action_eq_noop haction
  obtain ⟨-, hwhole⟩ := Scan.run_idle (s := s.unlimited) hidle store
  have hentries : (s.unlimited.results store).entries = s.shown store :=
    (Scan.entries_results ..).trans (Budget.admitted_unlimited ..)
  have hfits : s.FitsAlone store := by
    intro m hm
    rcases hlimit with hlimit | ⟨hlimit, hbytes⟩ <;> rw [hlimit] at hm ⊢ <;> cases hm
    · exact ⟨hn, fun _ _ => hn⟩
    · exact ⟨hn, fun e he => hbytes e.1 e.2 (Scan.mem_shown_iff.mp he)⟩
  -- That there is nothing to show takes a scan to tell, too.
  obtain ⟨scans, hscans⟩ : ∃ m, max 1 (s.shown store).length = m + 1 := ⟨max 1 (s.shown store).length - 1, by omega⟩
  obtain ⟨pages, hpages, hjoin, hsole, hempty⟩ := Scan.exists_pages hidle hfits (n := scans) (by omega)
  rw [← hscans] at hpages
  obtain ⟨hleast, hmost⟩ := Scan.length_pages hpages
  refine ⟨_, pages, hwhole, ?_⟩
  rw [OrderedMap.size, hentries]
  refine ⟨hpages, hjoin, hleast, hmost, fun p hp hnil => ?_, Scan.shown_ordered, fun k x => Scan.mem_shown_iff⟩
  obtain ⟨q, rfl⟩ := List.length_eq_one_iff.mp (hsole (hempty p hp hnil))
  rw [List.mem_singleton.mp hp]

/-- Pages of up to three bytes: what the filter drops and what is too new stands between them, and a page of
    two keys is full. -/
theorem pages_of_three_bytes :
    let store := (((((Store.empty.put ⟨[97]⟩ [7, 1] 1).put ⟨[98]⟩ [8] 1).put ⟨[99]⟩ [7] 5).put ⟨[100]⟩ [7, 2, 2] 2).put
      ⟨[101]⟩ [7] 1).put ⟨[102]⟩ [7, 3] 1
    let s : Scan := ⟨⟨1⟩, ⟨.full, .bytes 3, some (.startingWith [7]), none⟩, 0, 3⟩
    s.query.limit = .bytes 3 ∧ (∀ k x, s.Shows store k x → x.length ≤ 3) ∧
      ∃ whole pages, (s.unlimited.run store).result = .ok whole ∧ whole.results.size = 4 ∧
        s.pages 4 store = some pages ∧
        pages.map (·.results.entries) =
          [[(⟨[97]⟩, [7, 1])], [(⟨[100]⟩, [7, 2, 2])], [(⟨[101]⟩, [7]), (⟨[102]⟩, [7, 3])]] ∧
        pages.flatMap (·.results.entries) = whole.results.entries := by
  intro store s
  have hlength : ∀ k x, s.Shows store k x → x.length ≤ 3 := by
    have hall : ∀ e ∈ s.shown store, e.2.length ≤ 3 := by decide
    exact fun k x h => hall (k, x) (Scan.mem_shown_iff.mpr h)
  obtain ⟨whole, pages, hwhole, hpages, hjoin, -, -, -, -, -⟩ :=
    pages_join_to_whole_scan s store 3 (.inl rfl) (by decide) (.inr ⟨rfl, hlength⟩)
  have hsize : whole.results.size = 4 := by
    cases hwhole.symm.trans (Scan.run_idle (s := s.unlimited) rfl store).2
    decide
  rw [hsize] at hpages
  change s.pages 4 store = some pages at hpages
  refine ⟨rfl, hlength, whole, pages, hwhole, hsize, hpages, ?_, hjoin⟩
  have hentries : (s.pages 4 store).map (List.map fun page => page.results.entries) =
      some [[(⟨[97]⟩, [7, 1])], [(⟨[100]⟩, [7, 2, 2])], [(⟨[101]⟩, [7]), (⟨[102]⟩, [7, 3])]] := by decide
  rw [hpages] at hentries
  exact Option.some.inj hentries

end ReplicaGroup
