import ReplicaGroup.OrderedMap.Lemmas
import ReplicaGroup.Store.Request

/-! # Reads of the versioned store

What a point read and a read below a ceiling see after each operation on the store. A write is seen at
once when no stored version is newer than it, and it is never seen below a smaller ceiling. -/

namespace ReplicaGroup

/-! ### Versions -/

namespace Version
variable {v w : Version}

theorem succ?_eq_some_iff : v.succ? = some w ↔ v ≠ .last ∧ w = v + 1 := by
  unfold succ?
  split
  · simp [*]
  · simp [*, eq_comm]

theorem succ?_eq_none_iff : v.succ? = none ↔ v = .last := by
  unfold succ?
  split <;> simp [*]

theorem toNat_succ (h : v.succ? = some w) : w.toNat = v.toNat + 1 := by
  obtain ⟨hv, rfl⟩ := succ?_eq_some_iff.mp h
  have hl : v.toNat ≠ 4294967295 := fun hn => hv (UInt32.toNat_inj.mp hn)
  have := v.toNat_lt
  rw [UInt32.toNat_add]
  simp
  omega

theorem lt_succ (h : v.succ? = some w) : v < w := by
  rw [UInt32.lt_iff_toNat_lt, toNat_succ h]
  omega

theorem pred_succ (h : v.succ? = some w) : w.pred = v := by
  obtain ⟨-, rfl⟩ := succ?_eq_some_iff.mp h
  have hn := toNat_succ h
  unfold pred
  rw [if_neg]
  · exact UInt32.add_sub_cancel v 1
  · intro h0
    rw [h0] at hn
    simp at hn

theorem pred_le (v : Version) : v.pred ≤ v := by
  unfold pred
  split
  · next h => rw [h]; exact UInt32.le_refl _
  · next h =>
    have hne : v.toNat ≠ 0 := fun h0 => h (UInt32.toNat_inj.mp h0)
    rw [UInt32.le_iff_toNat_le, UInt32.toNat_sub_of_le]
    · exact Nat.sub_le _ _
    · rw [UInt32.le_iff_toNat_le]
      exact Nat.one_le_iff_ne_zero.mpr hne

theorem le_max_left (v w : Version) : v ≤ max v w := by
  show v ≤ if v ≤ w then w else v
  split
  · assumption
  · exact UInt32.le_refl v

theorem le_max_right (v w : Version) : w ≤ max v w := by
  show w ≤ if v ≤ w then w else v
  split
  · exact UInt32.le_refl w
  · next h => exact UInt32.le_of_lt (UInt32.not_le.mp h)

end Version

/-! ### One history -/

namespace History
variable {h : History} {v w c : Version} {x : Bytes}

/-- No version is newer than `v`. -/
def UpTo (v : Version) (h : History) : Prop := ∀ w ∈ h.keys, w ≤ v

theorem UpTo.mono (hh : UpTo v h) (hvw : v ≤ w) : UpTo w h := fun u hu => UInt32.le_trans (hh u hu) hvw

theorem upTo_empty : UpTo v .empty := fun _ hw => by cases hw

theorem upTo_last (h : History) : h.UpTo .last := fun w _ => by
  rw [UInt32.le_iff_toNat_le]
  exact Nat.le_of_lt_succ w.toNat_lt

theorem UpTo.insert (hh : UpTo v h) : UpTo v (h.insert v x) := fun w hw => by
  rcases OrderedMap.mem_keys_insert.mp hw with rfl | hw
  · exact UInt32.le_refl _
  · exact hh w hw

theorem newest?_eq_some_iff : h.newest? = some x ↔ ∃ v, h.get? v = some x ∧ UpTo v h := by
  unfold newest?
  constructor
  · intro hn
    obtain ⟨⟨v, y⟩, hl, rfl⟩ := Option.map_eq_some_iff.mp hn
    obtain ⟨hv, hmax⟩ := OrderedMap.last?_eq_some_iff.mp hl
    exact ⟨v, hv, fun w hw => UInt32.not_lt.mp (hmax w hw)⟩
  · rintro ⟨v, hv, hmax⟩
    rw [OrderedMap.last?_eq_some_iff.mpr ⟨hv, fun w hw => UInt32.not_lt.mpr (hmax w hw)⟩]
    rfl

theorem newest?_insert (hh : UpTo v h) : newest? (h.insert v x) = some x :=
  newest?_eq_some_iff.mpr ⟨v, by simp [OrderedMap.get?_insert], hh.insert⟩

theorem visible?_eq_some_iff : h.visible? c = some x ↔
    ∃ v, h.get? v = some x ∧ v ≤ c ∧ ∀ w ∈ h.keys, w ≤ c → w ≤ v := by
  have hkeys : ∀ w, w ∈ (h.atMost c).keys ↔ w ∈ h.keys ∧ w ≤ c := fun w => by
    rw [OrderedMap.mem_keys_iff, OrderedMap.get?_atMost, OrderedMap.mem_keys_iff]
    by_cases hw : c < w
    · simp [hw]
    · simp [hw, UInt32.not_lt.mp hw]
  rw [visible?, newest?_eq_some_iff]
  refine exists_congr fun v => ?_
  constructor
  · rintro ⟨hv, hmax⟩
    rw [OrderedMap.get?_atMost, Option.ite_none_left_eq_some] at hv
    exact ⟨hv.2, UInt32.not_lt.mp hv.1, fun w hw hle => hmax w ((hkeys w).mpr ⟨hw, hle⟩)⟩
  · rintro ⟨hv, hle, hmax⟩
    rw [OrderedMap.get?_atMost, if_neg (UInt32.not_lt.mpr hle)]
    exact ⟨hv, fun w hw => hmax w ((hkeys w).mp hw).1 ((hkeys w).mp hw).2⟩

/-- Below a ceiling that no version passes, the newest version is seen. -/
theorem visible?_eq_newest? (hh : UpTo c h) : h.visible? c = h.newest? := by
  have : h.atMost c = h := OrderedMap.ext_get? fun w => by
    rw [OrderedMap.get?_atMost]
    split
    · next hw =>
      rw [eq_comm, OrderedMap.get?_eq_none_iff]
      exact fun hk => absurd hw (UInt32.not_lt.mpr (hh w hk))
    · rfl
  rw [visible?, this]

/-- A write above the ceiling is not seen. -/
theorem visible?_insert_of_lt (hcv : c < v) : visible? (h.insert v x) c = h.visible? c := by
  have : (h.insert v x).atMost c = h.atMost c := OrderedMap.ext_get? fun w => by
    rw [OrderedMap.get?_atMost, OrderedMap.get?_atMost, OrderedMap.get?_insert]
    split
    · rfl
    · next hw =>
      rw [if_neg]
      rintro rfl
      exact hw hcv
  rw [visible?, visible?, this]

/-- Collapsing leaves the versions that are not older than the newest one below `v`. -/
theorem get?_collapse_eq_some_iff :
    (h.collapse v).get? w = some x ↔ h.get? w = some x ∧ ∀ u ∈ h.keys, u < v → u ≤ w := by
  have hkeys : ∀ u, u ∈ (h.below v).keys ↔ u ∈ h.keys ∧ u < v := fun u => by
    rw [OrderedMap.mem_keys_iff, OrderedMap.get?_below, OrderedMap.mem_keys_iff]
    by_cases hu : u < v <;> simp [hu]
  unfold collapse
  cases hl : (h.below v).last? with
  | none =>
    rw [OrderedMap.last?_eq_none_iff] at hl
    refine ⟨fun hw => ⟨hw, fun u hu huv => ?_⟩, fun hw => hw.1⟩
    have hbelow := (hkeys u).mpr ⟨hu, huv⟩
    rw [OrderedMap.keys, hl] at hbelow
    cases hbelow
  | some e =>
    obtain ⟨floor, y⟩ := e
    obtain ⟨hfloor, hmax⟩ := OrderedMap.last?_eq_some_iff.mp hl
    obtain ⟨hmem, hlt⟩ := (hkeys floor).mp (OrderedMap.mem_keys_iff.mpr (by rw [hfloor]; rfl))
    rw [OrderedMap.get?_atLeast, Option.ite_none_left_eq_some]
    constructor
    · rintro ⟨hw, hget⟩
      refine ⟨hget, fun u hu huv => ?_⟩
      exact UInt32.le_trans (UInt32.not_lt.mp (hmax u ((hkeys u).mpr ⟨hu, huv⟩))) (UInt32.not_lt.mp hw)
    · rintro ⟨hget, hall⟩
      exact ⟨UInt32.not_lt.mpr (hall floor hmem hlt), hget⟩

theorem mem_keys_collapse_iff : w ∈ (h.collapse v).keys ↔ w ∈ h.keys ∧ ∀ u ∈ h.keys, u < v → u ≤ w := by
  simp only [OrderedMap.mem_keys_iff, Option.isSome_iff_exists, get?_collapse_eq_some_iff, exists_and_right]

theorem UpTo.collapse (hh : UpTo w h) : UpTo w (h.collapse v) := fun u hu => hh u (mem_keys_collapse_iff.mp hu).1

/-- From the version before `v` on, every read sees what it saw before. -/
theorem visible?_collapse (hc : v.toNat ≤ c.toNat + 1) : (h.collapse v).visible? c = h.visible? c := by
  apply Option.ext
  intro x
  rw [visible?_eq_some_iff, visible?_eq_some_iff]
  refine exists_congr fun w => ?_
  rw [get?_collapse_eq_some_iff]
  constructor
  · rintro ⟨⟨hw, hfloor⟩, hwc, hmax⟩
    refine ⟨hw, hwc, fun u hu huc => ?_⟩
    by_cases huv : u < v
    · exact hfloor u hu huv
    · -- A version that is not below `v` stays.
      refine hmax u (mem_keys_collapse_iff.mpr ⟨hu, fun u' _ hu' => ?_⟩) huc
      exact UInt32.le_trans (UInt32.le_of_lt hu') (UInt32.not_lt.mp huv)
  · rintro ⟨hw, hwc, hmax⟩
    refine ⟨⟨hw, fun u hu huv => hmax u hu ?_⟩, hwc, fun u hu => hmax u (mem_keys_collapse_iff.mp hu).1⟩
    rw [UInt32.lt_iff_toNat_lt] at huv
    rw [UInt32.le_iff_toNat_le]
    omega

/-- Collapsing keeps the newest version. -/
theorem newest?_collapse (v : Version) : (h.collapse v).newest? = h.newest? := by
  rw [← visible?_eq_newest? (upTo_last _), ← visible?_eq_newest? (upTo_last h)]
  exact visible?_collapse (Nat.le_of_lt v.toNat_lt)

/-- Of the versions below `v` at most one stays. -/
theorem eq_of_mem_collapse {u : Version} (hu : u ∈ (h.collapse v).keys) (hw : w ∈ (h.collapse v).keys) (huv : u < v)
    (hwv : w < v) : u = w := by
  obtain ⟨hu, hu'⟩ := mem_keys_collapse_iff.mp hu
  obtain ⟨hw, hw'⟩ := mem_keys_collapse_iff.mp hw
  exact UInt32.le_antisymm (hw' u hu huv) (hu' w hw hwv)

/-- A collapsed history has nothing left to drop. -/
theorem collapse_collapse (h : History) (v : Version) : (h.collapse v).collapse v = h.collapse v := by
  apply OrderedMap.ext_get?
  intro w
  apply Option.ext
  intro x
  rw [get?_collapse_eq_some_iff, and_iff_left_iff_imp]
  intro hw u hu
  exact (get?_collapse_eq_some_iff.mp hw).2 u (mem_keys_collapse_iff.mp hu).1

end History

/-! ### The whole store -/

namespace Store
variable {s : Store} {v w c : Version} {j k : Key} {x : Bytes}

/-- No stored version is newer than `v`. -/
def UpTo (v : Version) (s : Store) : Prop := ∀ k h, s.history? k = some h → h.UpTo v

/-- The value of `k` that is seen below a ceiling. -/
def visible? (s : Store) (k : Key) (c : Version) : Option Bytes := (s.history? k).bind (·.visible? c)

theorem UpTo.mono (hs : s.UpTo v) (hvw : v ≤ w) : s.UpTo w := fun k h hh => (hs k h hh).mono hvw

theorem upTo_empty : empty.UpTo v := fun _ _ hh => by cases hh

theorem UpTo.getD (hs : s.UpTo v) (k : Key) : ((s.history? k).getD .empty).UpTo v := by
  cases hh : s.history? k with
  | none => exact History.upTo_empty
  | some h => exact hs k h hh

theorem visible?_eq_read? (hs : s.UpTo c) (k : Key) : s.visible? k c = s.read? k := by
  unfold visible? read?
  cases hh : s.history? k with
  | none => rfl
  | some h => exact History.visible?_eq_newest? (hs k h hh)

/-! ### Writes -/

theorem history?_put (s : Store) (k : Key) (x : Bytes) (v : Version) (j : Key) :
    (s.put k x v).history? j = if j = k then some (((s.history? k).getD .empty).insert v x) else s.history? j :=
  OrderedMap.get?_insert ..

theorem UpTo.put (hs : s.UpTo v) : (s.put k x v).UpTo v := fun j h hh => by
  rw [history?_put] at hh
  split at hh
  · cases hh
    exact (hs.getD k).insert
  · exact hs j h hh

theorem read?_put (hs : s.UpTo v) (k : Key) (x : Bytes) (j : Key) :
    (s.put k x v).read? j = if j = k then some x else s.read? j := by
  unfold read?
  rw [history?_put]
  split
  · exact History.newest?_insert (hs.getD k)
  · rfl

theorem visible?_put_of_lt (hcv : c < v) : (s.put k x v).visible? j c = s.visible? j c := by
  unfold visible?
  rw [history?_put]
  split
  · next hj =>
    subst hj
    rw [Option.bind_some, History.visible?_insert_of_lt hcv]
    cases s.history? j <;> rfl
  · rfl

/-! ### Several writes -/

theorem UpTo.putAll (hs : s.UpTo v) (puts : OrderedMap Key Bytes) : (s.putAll puts v).UpTo v := by
  unfold Store.putAll
  generalize puts.entries = l
  induction l generalizing s with
  | nil => exact hs
  | cons e l ih => exact ih hs.put

theorem visible?_putAll_of_lt (hcv : c < v) (puts : OrderedMap Key Bytes) :
    (s.putAll puts v).visible? j c = s.visible? j c := by
  unfold Store.putAll
  generalize puts.entries = l
  induction l generalizing s with
  | nil => rfl
  | cons e l ih => rw [List.foldl_cons, ih, visible?_put_of_lt hcv]

/-! ### Removals -/

theorem history?_delete (s : Store) (k j : Key) :
    (s.delete k).history? j = if j = k then none else s.history? j := OrderedMap.get?_erase ..

theorem UpTo.delete (hs : s.UpTo v) : (s.delete k).UpTo v := fun j h hh => by
  rw [history?_delete] at hh
  split at hh
  · cases hh
  · exact hs j h hh

theorem read?_delete (s : Store) (k j : Key) : (s.delete k).read? j = if j = k then none else s.read? j := by
  unfold read?
  rw [history?_delete]
  split <;> rfl

theorem history?_cleanup (s : Store) (range : KeyRange) (v : Version) (k : Key) :
    (s.cleanup range v).history? k =
      if range.contains k then (s.history? k).map (·.collapse v) else none := by
  unfold history? cleanup
  rw [OrderedMap.get?_filterMap]
  by_cases hk : range.contains k <;> cases s.histories.get? k <;> simp [hk]

theorem UpTo.cleanup (hs : s.UpTo v) (range : KeyRange) (w : Version) : (s.cleanup range w).UpTo v :=
  fun k h hh => by
    rw [history?_cleanup] at hh
    split at hh
    · obtain ⟨h₀, hh₀, rfl⟩ := Option.map_eq_some_iff.mp hh
      exact (hs k h₀ hh₀).collapse
    · cases hh

/-- Cleanup keeps the newest values of the range and drops everything else. -/
theorem read?_cleanup (s : Store) (range : KeyRange) (v : Version) (k : Key) :
    (s.cleanup range v).read? k = if range.contains k then s.read? k else none := by
  unfold read?
  rw [history?_cleanup]
  split
  · cases s.history? k with
    | none => rfl
    | some h => exact History.newest?_collapse v
  · rfl

/-! ### Requests -/

/-- The store after requests, one after the other. -/
def afterAll (s : Store) (requests : List Request) : Store := requests.foldl (fun s r => (r.execute s).store) s

theorem afterAll_append (s : Store) (front back : List Request) :
    s.afterAll (front ++ back) = (s.afterAll front).afterAll back := List.foldl_append

theorem executeAll_fst (requests : List Request) (s : Store) :
    (Request.executeAll requests s).1 = s.afterAll requests := by
  induction requests generalizing s with
  | nil => simp [Request.executeAll, afterAll]
  | cons r requests ih => simp only [Request.executeAll, ih]; rfl

theorem execute_snapshot (position : Position) (requests : List Request) (s : Store) :
    ((Request.snapshot position requests).execute s).store = s.afterAll requests := by
  rw [← executeAll_fst]
  simp only [Request.execute]

theorem execute_size (range : KeyRange) (s : Store) : ((Request.size range).execute s).store = s := by
  simp only [Request.execute]

end Store
end ReplicaGroup
