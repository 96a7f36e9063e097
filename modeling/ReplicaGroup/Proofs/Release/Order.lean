import ReplicaGroup.Proofs.Log
import ReplicaGroup.Proofs.Release

/-! # Logs and the order of delivery

A log and what it has released depend on its calls only through where they start, which value comes first
for a position, and what is recorded. So the order of insertions does not matter, nor how often a value is
inserted, and a watermark that no later release reaches can be applied at any time. -/

namespace ReplicaGroup
namespace OperationsLog

/-- Lists with the same positions and the same value for each position are equal. -/
theorem eq_of_positions {V : Position → Option Value} {l l' : List (Position × Value)}
    (hp : l.map (·.1) = l'.map (·.1)) (hl : ∀ e ∈ l, V e.1 = some e.2) (hl' : ∀ e ∈ l', V e.1 = some e.2) : l = l' := by
  induction l generalizing l' with
  | nil => exact (List.map_eq_nil_iff.mp hp.symm).symm
  | cons e l ih =>
    obtain ⟨e', l', rfl, hposition, hrest⟩ := List.map_eq_cons_iff.mp hp.symm
    have hvalue : some e.2 = some e'.2 := by
      rw [← hl e (.head _), ← hl' e' (.head _), hposition]
    rw [Prod.ext hposition.symm (Option.some.inj hvalue),
      ih hrest.symm (fun x hx => hl x (.tail _ hx)) fun x hx => hl' x (.tail _ hx)]

section Congruence
variable {calls calls' : List Call}

theorem Shows.agree {f f' n n' : Nat} (h : Shows calls f n) (h' : Shows calls' f' n')
    (hstart : start? calls = start? calls') (hearliest : earliest? calls = earliest? calls') : f = f' ∧ n = n' := by
  have hf : f = f' := Option.some.inj (h.start.symm.trans (hstart.trans h'.start))
  have hle : ∀ {calls calls' : List Call} {f n n' : Nat}, Shows calls f n → Shows calls' f n' →
      earliest? calls = earliest? calls' → n' ≤ n := by
    intro calls calls' f n n' h h' he
    refine Nat.le_of_not_lt fun hlt => ?_
    have hsome := h'.filled (n + 1) (Nat.le_succ_of_le h.first) hlt
    rw [← he, h.missing] at hsome
    cases hsome
  subst hf
  exact ⟨rfl, Nat.le_antisymm (hle h' h hearliest.symm) (hle h h' hearliest)⟩

/-- What is released depends on the start and on the first values. -/
theorem flatten_releases_congr (hstart : start? calls = start? calls') (hearliest : earliest? calls = earliest? calls') :
    (releases calls).flatten = (releases calls').flatten := by
  rcases shows_or_untouched calls with h | ⟨f, n, h⟩ <;> rcases shows_or_untouched calls' with h' | ⟨f', n', h'⟩
  · rw [h.nothing, h'.nothing]
  · cases h.start.symm.trans (hstart.trans h'.start)
  · cases h.start.symm.trans (hstart.trans h'.start)
  · obtain ⟨rfl, rfl⟩ := h.agree h' hstart hearliest
    exact eq_of_positions (h.positions.trans h'.positions.symm) h.values (hearliest ▸ h'.values)

/-- A log is what starts it, the first values, and what is recorded. -/
theorem after_congr (hstart : start? calls = start? calls') (hearliest : earliest? calls = earliest? calls')
    (hkeeps : ∀ e, Keeps calls e ↔ Keeps calls' e) : after calls = after calls' := by
  have hentries : (after calls).entries = (after calls').entries :=
    OrderedMap.ext (OrderedMap.eq_of_mem_iff (after calls).entries.ordered (after calls').entries.ordered fun e => by
      rw [mem_entries_iff, mem_entries_iff, hkeeps])
  have hrest : (after calls).applied? = (after calls').applied? ∧ (after calls).pending = (after calls').pending := by
    rcases shows_or_untouched calls with h | ⟨f, n, h⟩ <;> rcases shows_or_untouched calls' with h' | ⟨f', n', h'⟩
    · exact ⟨h.applied.trans h'.applied.symm, h.pending.trans h'.pending.symm⟩
    · cases h.start.symm.trans (hstart.trans h'.start)
    · cases h.start.symm.trans (hstart.trans h'.start)
    · obtain ⟨rfl, rfl⟩ := h.agree h' hstart hearliest
      refine ⟨h.waits.applied.trans h'.waits.applied.symm, OrderedMap.ext_get? fun p => ?_⟩
      rw [h.waits.pending, h'.waits.pending, hearliest]
  generalize after calls = log, after calls' = log' at hentries hrest
  obtain ⟨entries, pending, applied?⟩ := log
  obtain ⟨rfl, rfl⟩ := hrest
  cases hentries
  rfl

end Congruence

/-! ### Decisions that are delivered -/

/-- The calls for decisions. -/
def insertions (ds : List Decision) : List Call := ds.map fun d => .insert d.position d.value

/-- What decisions release when other calls came before. -/
def released (calls : List Call) (ds : List Decision) : List (Position × Value) :=
  (releasesAfter calls (insertions ds)).flatten

section Insertions
variable {calls : List Call} {ds ds' : List Decision}

theorem released_cons (calls : List Call) (d : Decision) (ds : List Decision) : released calls (d :: ds) =
    releasedBy calls (.insert d.position d.value) ++ released (calls ++ [.insert d.position d.value]) ds := rfl

theorem flatten_releases_insertions (calls : List Call) (ds : List Decision) :
    (releases (calls ++ insertions ds)).flatten = (releases calls).flatten ++ released calls ds := by
  rw [releases, releasesAfter_append, List.flatten_append]
  rfl

theorem released_append (calls : List Call) (ds ds' : List Decision) :
    released calls (ds ++ ds') = released calls ds ++ released (calls ++ insertions ds) ds' := by
  rw [released, insertions, List.map_append, releasesAfter_append, List.flatten_append]
  rfl

theorem keeps_insertions {e : Position × Value} :
    Keeps (calls ++ insertions ds) e ↔ Keeps calls e ∨ e ∈ released calls ds := by
  induction ds generalizing calls with
  | nil => simp [insertions, released, releasesAfter]
  | cons d ds ih =>
    have hsplit : calls ++ insertions (d :: ds) = (calls ++ [.insert d.position d.value]) ++ insertions ds := by
      simp [insertions]
    rw [hsplit, ih, keeps_concat, released_cons, List.mem_append]
    simp [or_comm, or_left_comm]

theorem earliest?_insertions (calls : List Call) (ds : List Decision) (p : Position) :
    earliest? (calls ++ insertions ds) p =
      (earliest? calls p).or ((ds.find? fun d => d.position = p).map (·.value)) := by
  rw [earliest?, List.findSome?_append]
  congr 1
  induction ds with
  | nil => rfl
  | cons d ds ih => by_cases hp : d.position = p <;> simp_all [insertions]

theorem mem_of_find?_position {p : Position} {d : Decision} (hd : (ds.find? fun d => d.position = p) = some d) :
    d ∈ ds ∧ d.position = p := by
  constructor
  · exact List.mem_of_find?_eq_some hd
  · simpa using List.find?_some hd

/-- With one value for each position, the decision for a position is found in any order. -/
theorem find?_position_congr (hmem : ∀ d, d ∈ ds ↔ d ∈ ds')
    (hvalue : ∀ d ∈ ds, ∀ d' ∈ ds, d.position = d'.position → d = d') (p : Position) :
    (ds.find? fun d => d.position = p) = ds'.find? fun d => d.position = p := by
  cases hd : ds.find? fun d => d.position = p with
  | none =>
    symm
    rw [List.find?_eq_none] at hd ⊢
    intro d hd'
    exact hd d ((hmem d).mpr hd')
  | some d =>
    obtain ⟨hin, hp⟩ := mem_of_find?_position hd
    have hsome : (ds'.find? fun d => d.position = p).isSome :=
      List.find?_isSome.mpr ⟨d, (hmem d).mp hin, by simpa using hp⟩
    obtain ⟨d', hd'⟩ := Option.isSome_iff_exists.mp hsome
    obtain ⟨hin', hp'⟩ := mem_of_find?_position hd'
    rw [hd', hvalue d hin d' ((hmem d').mpr hin') (hp.trans hp'.symm)]

theorem start?_insertions (calls : List Call) (ds : List Decision) :
    start? (calls ++ insertions ds) = (start? calls).or (ds.head?.map (·.position)) := by
  rw [start?, List.findSome?_append]
  cases ds <;> rfl

/-- What decisions release comes after what was released before. -/
theorem lt_of_mem_released {n : Position} (hn : (after calls).applied? = some n) {e : Position × Value}
    (he : e ∈ released calls ds) : n < e.1 := by
  have hnot : ¬Reaches calls e.1 := by
    have hnodup := nodup_positions (calls ++ insertions ds)
    rw [flatten_releases_insertions, List.map_append] at hnodup
    rw [← mem_positions_iff]
    exact fun h => (List.nodup_append.mp hnodup).2.2 _ h _ (List.mem_map_of_mem he) rfl
  rcases shows_or_untouched calls with h | ⟨f, m, h⟩
  · rw [h.applied] at hn
    cases hn
  · obtain rfl : m = n := Option.some.inj (h.waits.applied.symm.trans hn)
    have hreaches : Reaches (calls ++ insertions ds) e.1 := by
      rw [← mem_positions_iff, flatten_releases_insertions, List.map_append]
      exact List.mem_append_right _ (List.mem_map_of_mem he)
    obtain ⟨f', hf', hle, -⟩ := hreaches
    obtain rfl := Option.some.inj ((start?_append_of_some h.start).symm.trans hf')
    rw [h.reaches_iff] at hnot
    exact Nat.lt_of_not_le fun hle' => hnot ⟨hle, hle'⟩

/-- What decisions release is released in position order. -/
theorem released_ordered (calls : List Call) (ds : List Decision) :
    (released calls ds).Pairwise fun a b => a.1 < b.1 := by
  have hall : (releases (calls ++ insertions ds)).flatten.Pairwise fun a b => a.1 < b.1 := by
    rcases shows_or_untouched (calls ++ insertions ds) with h | ⟨f, n, h⟩
    · rw [h.nothing]
      exact .nil
    · have hordered : (List.range' f (n + 1 - f)).Pairwise (· < ·) := List.pairwise_lt_range'
      rw [← h.positions] at hordered
      exact List.pairwise_map.mp hordered
  rw [flatten_releases_insertions] at hall
  exact (List.pairwise_append.mp hall).2.1

/-- The recorded entries of a log come before everything that it releases later. -/
theorem recorded_lt_released {e x : Position × Value} (he : e ∈ (after calls).entries.entries)
    (hx : x ∈ released calls ds) : e.1 < x.1 := by
  rcases shows_or_untouched calls with h | ⟨f, n, h⟩
  · rw [h.entries] at he
    cases he
  · exact Nat.lt_of_le_of_lt (h.waits.recorded e he) (lt_of_mem_released h.waits.applied hx)

/-- What decisions release is recorded behind what was recorded before. -/
theorem entries_insertions (calls : List Call) (ds : List Decision) :
    (after (calls ++ insertions ds)).entries.entries = (after calls).entries.entries ++ released calls ds := by
  refine OrderedMap.eq_of_mem_iff (after _).entries.ordered ?_ fun e => ?_
  · exact List.pairwise_append.mpr ⟨(after calls).entries.ordered, released_ordered calls ds,
      fun a ha b hb => recorded_lt_released ha hb⟩
  · rw [List.mem_append, mem_entries_iff, mem_entries_iff, keeps_insertions]

/-- A released value is the one that waited for its position, or was delivered now. -/
theorem mem_released {e : Position × Value} (he : e ∈ released calls ds) :
    (after calls).pending.get? e.1 = some e.2 ∨ ∃ d ∈ ds, d.position = e.1 ∧ d.value = e.2 := by
  have hvalue : earliest? (calls ++ insertions ds) e.1 = some e.2 := by
    have hmem : e ∈ (releases (calls ++ insertions ds)).flatten := by
      rw [flatten_releases_insertions]
      exact List.mem_append_right _ he
    rcases shows_or_untouched (calls ++ insertions ds) with h | ⟨f, n, h⟩
    · rw [h.nothing] at hmem
      cases hmem
    · exact h.values e hmem
  rw [earliest?_insertions] at hvalue
  rcases Option.or_eq_some_iff.mp hvalue with hbefore | ⟨-, hnow⟩
  · left
    rcases shows_or_untouched calls with h | ⟨f, n, h⟩
    · rw [earliest?_of_start?_eq_none h.start] at hbefore
      cases hbefore
    · rw [h.waits.pending, if_pos (lt_of_mem_released h.waits.applied he), hbefore]
  · right
    obtain ⟨d, hd, hvalue⟩ := Option.map_eq_some_iff.mp hnow
    obtain ⟨hin, hp⟩ := mem_of_find?_position hd
    exact ⟨d, hin, hp, hvalue⟩

/-- However decisions are ordered and repeated, they lead to the same log and release the same values. -/
theorem insertions_congr (hmem : ∀ d, d ∈ ds ↔ d ∈ ds')
    (hvalue : ∀ d ∈ ds, ∀ d' ∈ ds, d.position = d'.position → d = d')
    (hfirst : start? calls = none → ds.head?.map (·.position) = ds'.head?.map (·.position)) :
    released calls ds = released calls ds' ∧ after (calls ++ insertions ds) = after (calls ++ insertions ds') := by
  have hstart : start? (calls ++ insertions ds) = start? (calls ++ insertions ds') := by
    rw [start?_insertions, start?_insertions]
    cases hs : start? calls with
    | none => rw [hfirst hs]
    | some f => rfl
  have hearliest : earliest? (calls ++ insertions ds) = earliest? (calls ++ insertions ds') := by
    funext p
    rw [earliest?_insertions, earliest?_insertions, find?_position_congr hmem hvalue]
  have hreleased : released calls ds = released calls ds' := by
    have h := flatten_releases_congr hstart hearliest
    rw [flatten_releases_insertions, flatten_releases_insertions] at h
    exact List.append_cancel_left h
  refine ⟨hreleased, after_congr hstart hearliest fun e => ?_⟩
  rw [keeps_insertions, keeps_insertions, hreleased]

/-- A watermark below everything that is released later may as well be applied later. -/
theorem insertions_prune {w : Position} (hw : ∀ e ∈ released calls ds, w < e.1) :
    released (calls ++ [.prune w]) ds = released calls ds ∧
      after (calls ++ [.prune w] ++ insertions ds) = (after (calls ++ insertions ds)).prune w := by
  have hstart : start? (calls ++ [.prune w]) = start? calls := start?_concat_prune calls w
  have hreleased : released (calls ++ [.prune w]) ds = released calls ds := by
    have h : (releases (calls ++ [.prune w] ++ insertions ds)).flatten = (releases (calls ++ insertions ds)).flatten := by
      refine flatten_releases_congr (by rw [start?_insertions, start?_insertions, hstart]) ?_
      funext p
      rw [earliest?_insertions, earliest?_insertions, earliest?_concat_prune]
    rw [flatten_releases_insertions, flatten_releases_insertions, flatten_releases_concat] at h
    simpa [releasedBy, call] using h
  refine ⟨hreleased, ?_⟩
  have hlast : (after (calls ++ insertions ds)).prune w = after (calls ++ insertions ds ++ [.prune w]) :=
    (congrArg Prod.fst rfl : _ = ((after (calls ++ insertions ds)).call (.prune w)).1).trans (after_concat ..).symm
  rw [hlast]
  refine after_congr ?_ ?_ fun e => ?_
  · rw [start?_concat_prune, start?_insertions, start?_insertions, hstart]
  · funext p
    rw [earliest?_concat_prune, earliest?_insertions, earliest?_insertions, earliest?_concat_prune]
  · rw [keeps_insertions, keeps_concat, keeps_concat, keeps_insertions, hreleased]
    have hnone : ∀ calls : List Call, e ∉ releasedBy calls (.prune w) := fun _ h => List.not_mem_nil h
    constructor
    · rintro ((h | ⟨h, hlt⟩) | h)
      · exact absurd h (hnone _)
      · exact .inr ⟨.inl h, hlt⟩
      · exact .inr ⟨.inr h, by rintro _ ⟨⟩; exact hw e h⟩
    · rintro (h | ⟨h | h, hlt⟩)
      · exact absurd h (hnone _)
      · exact .inl (.inr ⟨h, hlt⟩)
      · exact .inr h

end Insertions

/-! ### One decided sequence -/

/-- Whether the values that count are the decided ones. -/
def AreDecided (D : Decided) (calls : List Call) : Prop := ∀ p v, earliest? calls p = some v → v = D p

section Decided
variable {D : Decided} {calls : List Call} {ds : List Decision} {f n f' n' : Nat}

/-- A log releases a run of decided values. -/
theorem Shows.flatten_releases_eq (hs : Shows calls f n) (hd : AreDecided D calls) :
    (releases calls).flatten = D.segment f (n + 1 - f) := by
  rw [Decided.segment, ← hs.positions, List.map_map]
  refine (List.map_id _).symm.trans (List.map_congr_left fun e he => ?_)
  exact Prod.ext rfl (hd e.1 e.2 (hs.values e he))

/-- What decisions release follows on what was released before. -/
theorem Shows.released_eq (hs : Shows calls f n) (hs' : Shows (calls ++ OperationsLog.insertions ds) f' n')
    (hd : AreDecided D (calls ++ OperationsLog.insertions ds)) :
    f' = f ∧ n ≤ n' ∧ released calls ds = D.segment (n + 1) (n' - n) := by
  have hf : f' = f := Option.some.inj (hs'.start.symm.trans (start?_append_of_some hs.start))
  subst hf
  have hn : n ≤ n' := by
    refine (hs'.reaches_iff.mp ?_).2
    refine ⟨f', hs'.start, hs.first, fun q hq hq' => ?_⟩
    obtain ⟨v, hv⟩ := Option.isSome_iff_exists.mp (hs.filled q hq hq')
    rw [earliest?_append_of_some hv]
    rfl
  have hall := flatten_releases_insertions calls ds
  rw [hs'.flatten_releases_eq hd, hs.flatten_releases_eq fun p v hv => hd p v (earliest?_append_of_some hv)] at hall
  have hfirst := hs.first
  have hsplit := @Decided.segment_append D f' (n + 1 - f') (n' - n)
  rw [show f' + (n + 1 - f') = n + 1 by omega, show n + 1 - f' + (n' - n) = n' + 1 - f' by omega, hall] at hsplit
  exact ⟨rfl, hn, (List.append_cancel_left hsplit).symm⟩

theorem IsUntouched.released_eq (hu : IsUntouched calls) (hs : Shows (calls ++ OperationsLog.insertions ds) f n)
    (hd : AreDecided D (calls ++ OperationsLog.insertions ds)) : released calls ds = D.segment f (n + 1 - f) := by
  rw [← hs.flatten_releases_eq hd, flatten_releases_insertions, hu.nothing, List.nil_append]

end Decided

end OperationsLog
end ReplicaGroup
