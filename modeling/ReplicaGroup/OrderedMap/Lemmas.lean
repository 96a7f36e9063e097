import ReplicaGroup.OrderedMap

/-! # Maps in key order: lookup

Lookup is the second view of a map, beside its list of entries. Every operation has its equation for
lookup, and two maps that answer every lookup alike are equal. -/

namespace ReplicaGroup
namespace OrderedMap

variable {α β γ : Type} [LT α]

theorem last?_eq_none_iff {m : OrderedMap α β} : m.last? = none ↔ m.entries = [] := by simp [last?]

/-! ### Lookup and entries -/

section Lookup
variable [DecidableEq α]

theorem contains_iff {m : OrderedMap α β} {k : α} : m.contains k = true ↔ k ∈ m.keys := by
  simp [contains, keys]

theorem get?_empty (k : α) : (empty : OrderedMap α β).get? k = none := rfl

variable [LE α] [Std.LawfulOrderLT α]

theorem get?_eq_some_iff {m : OrderedMap α β} {k : α} {v : β} :
    m.get? k = some v ↔ (k, v) ∈ m.entries := by
  obtain ⟨l, hl⟩ := m
  simp only [get?, Option.map_eq_some_iff]
  induction l with
  | nil => simp
  | cons x l ih =>
    obtain ⟨hx, hl⟩ := List.pairwise_cons.mp hl
    rw [List.find?_cons]
    split
    · next hk =>
      have hk := of_decide_eq_true hk
      constructor
      · rintro ⟨e, he, rfl⟩
        cases he
        simp [← hk]
      · intro h
        rcases List.mem_cons.mp h with rfl | h
        · exact ⟨_, rfl, rfl⟩
        · exact absurd (hk ▸ hx _ h) (Std.lt_irrefl)
    · next hk =>
      have hk := of_decide_eq_false hk
      rw [ih hl, List.mem_cons]
      exact ⟨Or.inr, fun h => h.resolve_left fun e => hk (e ▸ rfl)⟩

theorem get?_eq_none_iff {m : OrderedMap α β} {k : α} : m.get? k = none ↔ k ∉ m.keys := by
  rw [Option.eq_none_iff_forall_ne_some]
  simp only [ne_eq, get?_eq_some_iff, keys, List.mem_map, Prod.exists, not_exists, not_and]
  constructor
  · rintro h a b hab rfl
    exact h b hab
  · intro h b hb
    exact h k b hb rfl

theorem mem_keys_iff {m : OrderedMap α β} {k : α} : k ∈ m.keys ↔ (m.get? k).isSome := by
  rw [Option.isSome_iff_ne_none, ne_eq, get?_eq_none_iff, Decidable.not_not]

/-! ### Lookup after each operation -/

theorem get?_filter (p : α → β → Bool) (m : OrderedMap α β) (k : α) :
    (m.filter p).get? k = (m.get? k).filter (p k) := by
  apply Option.ext
  intro v
  rw [get?_eq_some_iff, Option.filter_eq_some_iff, get?_eq_some_iff]
  exact List.mem_filter

theorem get?_erase (m : OrderedMap α β) (j k : α) :
    (m.erase j).get? k = if k = j then none else m.get? k := by
  rw [erase, get?_filter]
  by_cases h : k = j
  · cases m.get? k <;> simp [h, Option.filter]
  · cases m.get? k <;> simp [h, Option.filter]

theorem get?_filterMap (f : α → β → Option γ) (m : OrderedMap α β) (k : α) :
    (m.filterMap f).get? k = (m.get? k).bind (f k) := by
  apply Option.ext
  intro c
  rw [get?_eq_some_iff, Option.bind_eq_some_iff]
  simp only [filterMap, List.mem_filterMap, Option.map_eq_some_iff, Prod.exists, Prod.mk.injEq,
    get?_eq_some_iff]
  constructor
  · rintro ⟨a, b, hab, c, hc, rfl, rfl⟩
    exact ⟨b, hab, hc⟩
  · rintro ⟨b, hb, hc⟩
    exact ⟨k, b, hb, c, hc, rfl, rfl⟩

section Cuts
variable [DecidableLT α]

theorem get?_atMost (m : OrderedMap α β) (j k : α) :
    (m.atMost j).get? k = if j < k then none else m.get? k := by
  rw [atMost, get?_filter]
  cases m.get? k <;> by_cases h : j < k <;> simp [h, Option.filter]

theorem get?_atLeast (m : OrderedMap α β) (j k : α) :
    (m.atLeast j).get? k = if k < j then none else m.get? k := by
  rw [atLeast, get?_filter]
  cases m.get? k <;> by_cases h : k < j <;> simp [h, Option.filter]

theorem get?_above (m : OrderedMap α β) (j k : α) :
    (m.above j).get? k = if j < k then m.get? k else none := by
  rw [above, get?_filter]
  cases m.get? k <;> by_cases h : j < k <;> simp [h, Option.filter]

theorem get?_below (m : OrderedMap α β) (j k : α) :
    (m.below j).get? k = if k < j then m.get? k else none := by
  rw [below, get?_filter]
  cases m.get? k <;> by_cases h : k < j <;> simp [h, Option.filter]

end Cuts

/-! ### Maps with the same lookup -/

variable [Std.IsLinearOrder α]

omit [DecidableEq α] in
/-- Two strictly increasing lists with the same entries are equal. -/
theorem eq_of_mem_iff {l r : List (α × β)} (hl : l.Pairwise fun a b => a.1 < b.1)
    (hr : r.Pairwise fun a b => a.1 < b.1) (h : ∀ e, e ∈ l ↔ e ∈ r) : l = r := by
  induction l generalizing r with
  | nil => exact (List.eq_nil_iff_forall_not_mem.mpr fun e he => by simpa using (h e).mpr he).symm
  | cons x l ih =>
    cases r with
    | nil => simpa using (h x).mp (.head l)
    | cons y r =>
      obtain ⟨hx, hl⟩ := List.pairwise_cons.mp hl
      obtain ⟨hy, hr'⟩ := List.pairwise_cons.mp hr
      have hxy : x = y := by
        rcases List.mem_cons.mp ((h x).mp (.head l)) with hxy | hxr
        · exact hxy
        · rcases List.mem_cons.mp ((h y).mpr (.head r)) with hyx | hyl
          · exact hyx.symm
          · exact absurd (Std.lt_trans (hx y hyl) (hy x hxr)) Std.lt_irrefl
      subst hxy
      congr 1
      apply ih hl hr'
      intro e
      constructor
      · intro he
        rcases List.mem_cons.mp ((h e).mp (.tail x he)) with rfl | he'
        · exact absurd (hx e he) Std.lt_irrefl
        · exact he'
      · intro he
        rcases List.mem_cons.mp ((h e).mpr (.tail x he)) with rfl | he'
        · exact absurd (hy e he) Std.lt_irrefl
        · exact he'

/-- Lookup determines a map. -/
theorem ext_get? {m n : OrderedMap α β} (h : ∀ k, m.get? k = n.get? k) : m = n := by
  apply ext
  apply eq_of_mem_iff m.ordered n.ordered
  intro e
  rw [← get?_eq_some_iff, ← get?_eq_some_iff, h]

/-! ### The last entry -/

/-- The last entry is the one with the largest key. -/
theorem last?_eq_some_iff {m : OrderedMap α β} {k : α} {v : β} :
    m.last? = some (k, v) ↔ m.get? k = some v ∧ ∀ j ∈ m.keys, ¬k < j := by
  rw [last?, List.getLast?_eq_some_iff, get?_eq_some_iff]
  constructor
  · rintro ⟨front, hm⟩
    have hord := m.ordered
    rw [hm, List.pairwise_append] at hord
    refine ⟨by simp [hm], fun j hj hlt => ?_⟩
    simp only [keys, hm, List.map_append, List.map_cons, List.map_nil, List.mem_append, List.mem_map,
      List.mem_singleton] at hj
    rcases hj with ⟨e, he, rfl⟩ | rfl
    · exact Std.lt_irrefl (Std.lt_trans hlt (hord.2.2 e he (k, v) (by simp)))
    · exact Std.lt_irrefl hlt
  · rintro ⟨hmem, hmax⟩
    obtain ⟨front, back, hm⟩ := List.append_of_mem hmem
    cases back with
    | nil => exact ⟨front, hm⟩
    | cons e back =>
      have hord := m.ordered
      rw [hm, List.pairwise_append] at hord
      exact absurd ((List.pairwise_cons.mp hord.2.1).1 e (by simp)) (hmax e.1 (by simp [keys, hm]))

/-! ### Insertion -/

variable [DecidableLT α]

theorem get?_insert (m : OrderedMap α β) (j k : α) (v : β) :
    (m.insert j v).get? k = if k = j then some v else m.get? k := by
  obtain ⟨l, hl⟩ := m
  simp only [get?, insert]
  induction l with
  | nil => by_cases h : k = j <;> simp [insertEntry, h, eq_comm]
  | cons x l ih =>
    have hxl := (List.pairwise_cons.mp hl).2
    unfold insertEntry
    split
    · by_cases h : k = j
      · simp [h]
      · simp [h, Ne.symm h]
    · next hj =>
      split
      · next hx =>
        by_cases h : x.1 = k
        · have hkj : k ≠ j := fun e => Std.lt_irrefl (h.trans e ▸ hx)
          simp [h, hkj]
        · simp only [List.find?_cons, h, decide_false]
          exact ih hxl
      · next hx =>
        have hjx : j = x.1 := ((Std.lt_trichotomy j x.1).resolve_left hj).resolve_right hx
        by_cases h : k = j
        · simp [h]
        · simp [h, ← hjx, Ne.symm h]

theorem mem_insert_entries {m : OrderedMap α β} {k : α} {v : β} {e : α × β} :
    e ∈ (m.insert k v).entries ↔ e = (k, v) ∨ e.1 ≠ k ∧ e ∈ m.entries := by
  obtain ⟨a, b⟩ := e
  rw [← get?_eq_some_iff, get?_insert, ← get?_eq_some_iff, Prod.mk.injEq]
  by_cases h : a = k
  · simp [h, eq_comm]
  · simp [h]

/-! ### Maps of lists -/

theorem mem_keys_insert {m : OrderedMap α β} {j k : α} {v : β} :
    k ∈ (m.insert j v).keys ↔ k = j ∨ k ∈ m.keys := by
  rw [mem_keys_iff, get?_insert, mem_keys_iff]
  by_cases h : k = j <;> simp [h]

theorem mem_keys_ofList {l : List (α × β)} {k : α} : k ∈ (ofList l).keys ↔ k ∈ l.map (·.1) := by
  have main : ∀ (l : List (α × β)) (m : OrderedMap α β),
      k ∈ (l.foldl (fun m e => m.insert e.1 e.2) m).keys ↔ k ∈ m.keys ∨ k ∈ l.map (·.1) := by
    intro l
    induction l with
    | nil => simp
    | cons e l ih =>
      intro m
      rw [List.foldl_cons, ih, mem_keys_insert, List.map_cons, List.mem_cons]
      exact ⟨fun h => by rcases h with (h | h) | h <;> simp [h],
        fun h => by rcases h with h | h | h <;> simp [h]⟩
  simpa [keys, empty, ofList] using main l empty

omit [DecidableEq α] [Std.IsLinearOrder α] in
theorem insertEntry_eq_append {k : α} {v : β} {l : List (α × β)} (h : ∀ e ∈ l, e.1 < k) :
    insertEntry k v l = l ++ [(k, v)] := by
  induction l with
  | nil => rfl
  | cons x l ih =>
    have hx : x.1 < k := h x (by simp)
    rw [insertEntry, if_neg (Std.not_gt_of_lt hx), if_pos hx, ih fun e he => h e (by simp [he]), List.cons_append]

omit [DecidableEq α] in
/-- Entries that come after all those of a map are appended to them. -/
theorem foldl_insert_eq {l : List (α × β)} {m : OrderedMap α β}
    (h : (m.entries ++ l).Pairwise fun a b => a.1 < b.1) :
    l.foldl (fun m e => m.insert e.1 e.2) m = ⟨m.entries ++ l, h⟩ := by
  induction l generalizing m with
  | nil => exact ext (List.append_nil _).symm
  | cons e l ih =>
    have hlast : (m.insert e.1 e.2).entries = m.entries ++ [e] :=
      insertEntry_eq_append fun x hx => (List.pairwise_append.mp h).2.2 x hx e (by simp)
    have heq : (m.insert e.1 e.2).entries ++ l = m.entries ++ e :: l := by
      rw [hlast, List.append_assoc, List.singleton_append]
    rw [List.foldl_cons, ih (heq ▸ h)]
    exact ext heq

omit [DecidableEq α] in
/-- A list in key order is the list of entries of its map. -/
theorem ofList_eq {l : List (α × β)} (h : l.Pairwise fun a b => a.1 < b.1) : ofList l = ⟨l, h⟩ :=
  foldl_insert_eq (m := empty) h

end Lookup
end OrderedMap
end ReplicaGroup
