/-! # Maps in key order

A finite map kept as the list of its entries, strictly increasing in the key. The list is the view:
two maps with the same entries are equal, iteration is the list itself, and every operation is a list
operation that keeps the order. -/

namespace ReplicaGroup

/-- A finite map whose entries are listed in strictly increasing key order. -/
structure OrderedMap (α β : Type) [LT α] where
  entries : List (α × β)
  ordered : entries.Pairwise fun a b => a.1 < b.1

namespace OrderedMap

variable {α β γ : Type} [LT α]

/-- Two maps with the same entries are equal. -/
theorem ext {m n : OrderedMap α β} (h : m.entries = n.entries) : m = n := by
  cases m; cases n; cases h; rfl

instance [DecidableEq α] [DecidableEq β] : DecidableEq (OrderedMap α β) := fun m n =>
  if h : m.entries = n.entries then .isTrue (ext h) else .isFalse fun e => h (e ▸ rfl)

/-- The map without entries. -/
def empty : OrderedMap α β := ⟨[], .nil⟩

instance : Inhabited (OrderedMap α β) := ⟨empty⟩

/-- The keys, in order. -/
def keys (m : OrderedMap α β) : List α := m.entries.map (·.1)

/-- The values, in key order. -/
def values (m : OrderedMap α β) : List β := m.entries.map (·.2)

/-- The number of keys. -/
def size (m : OrderedMap α β) : Nat := m.entries.length

/-- Whether there is no entry. -/
def isEmpty (m : OrderedMap α β) : Bool := m.entries.isEmpty

/-- The entry with the largest key. -/
def last? (m : OrderedMap α β) : Option (α × β) := m.entries.getLast?

/-- The value of `k`. -/
def get? [DecidableEq α] (m : OrderedMap α β) (k : α) : Option β :=
  (m.entries.find? fun e => e.1 = k).map (·.2)

/-- Whether `k` has a value. -/
def contains [DecidableEq α] (m : OrderedMap α β) (k : α) : Bool := m.entries.any fun e => e.1 = k

/-- The entries that satisfy `p`. -/
def filter (p : α → β → Bool) (m : OrderedMap α β) : OrderedMap α β :=
  ⟨m.entries.filter fun e => p e.1 e.2, m.ordered.filter _⟩

/-- The map without `k`. -/
def erase [DecidableEq α] (m : OrderedMap α β) (k : α) : OrderedMap α β := m.filter fun j _ => j ≠ k

/-- The entries at or above `k`. -/
def atLeast [DecidableLT α] (m : OrderedMap α β) (k : α) : OrderedMap α β := m.filter fun j _ => ¬j < k

/-- The entries at or below `k`. -/
def atMost [DecidableLT α] (m : OrderedMap α β) (k : α) : OrderedMap α β := m.filter fun j _ => ¬k < j

/-- The entries below `k`. -/
def below [DecidableLT α] (m : OrderedMap α β) (k : α) : OrderedMap α β := m.filter fun j _ => j < k

/-- The entries above `k`. -/
def above [DecidableLT α] (m : OrderedMap α β) (k : α) : OrderedMap α β := m.filter fun j _ => k < j

/-- The entries that `f` keeps, with the values it gives them. -/
def filterMap (f : α → β → Option γ) (m : OrderedMap α β) : OrderedMap α γ where
  entries := m.entries.filterMap fun e => (f e.1 e.2).map fun c => (e.1, c)
  ordered := m.ordered.filterMap _ fun a b hab c hc d hd => by
    obtain ⟨x, -, rfl⟩ := Option.map_eq_some_iff.mp hc
    obtain ⟨y, -, rfl⟩ := Option.map_eq_some_iff.mp hd
    exact hab

/-- `l` with the value of `k` replaced, or with `k` put before the first larger key. -/
def insertEntry [DecidableLT α] (k : α) (v : β) : List (α × β) → List (α × β)
  | [] => [(k, v)]
  | e :: l => if k < e.1 then (k, v) :: e :: l else if e.1 < k then e :: insertEntry k v l else (k, v) :: l

theorem mem_insertEntry [DecidableLT α] {k : α} {v : β} {l : List (α × β)} {e : α × β}
    (h : e ∈ insertEntry k v l) : e = (k, v) ∨ e ∈ l := by
  induction l with
  | nil => simpa [insertEntry] using h
  | cons x l ih => grind [insertEntry]

section Insertion
variable [DecidableLT α] [LE α] [Std.IsLinearOrder α] [Std.LawfulOrderLT α]

theorem insertEntry_ordered {k : α} {v : β} {l : List (α × β)} (h : l.Pairwise fun a b => a.1 < b.1) :
    (insertEntry k v l).Pairwise fun a b => a.1 < b.1 := by
  induction l with
  | nil => simp [insertEntry]
  | cons x l ih =>
    obtain ⟨hx, hl⟩ := List.pairwise_cons.mp h
    unfold insertEntry
    split
    · next hk =>
      exact List.pairwise_cons.mpr ⟨fun e he => (List.mem_cons.mp he).elim (· ▸ hk)
        fun he => Std.lt_trans hk (hx e he), h⟩
    · next hk =>
      split
      · next hk' =>
        exact List.pairwise_cons.mpr ⟨fun e he => (mem_insertEntry he).elim (· ▸ hk') (hx e), ih hl⟩
      · next hk' =>
        have hkx : k = x.1 := ((Std.lt_trichotomy k x.1).resolve_left hk).resolve_right hk'
        exact List.pairwise_cons.mpr ⟨fun e he => hkx ▸ hx e he, hl⟩

/-- Sets the value of `k`. -/
def insert (m : OrderedMap α β) (k : α) (v : β) : OrderedMap α β :=
  ⟨insertEntry k v m.entries, insertEntry_ordered m.ordered⟩

/-- The map of a list of entries; of two entries with one key the later one counts. -/
def ofList (l : List (α × β)) : OrderedMap α β := l.foldl (fun m e => m.insert e.1 e.2) empty

end Insertion
end OrderedMap
end ReplicaGroup
