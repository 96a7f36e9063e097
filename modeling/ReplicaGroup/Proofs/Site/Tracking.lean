import ReplicaGroup.Proofs.Agreement
import ReplicaGroup.Proofs.Site.Order

/-! # Serving sites from a view change on

A serving site applies the decisions position by position. Once its values in a range are those of a table,
they go on to be what the decided operations make of the table. -/

namespace ReplicaGroup

/-- A value that is no operation does not count among the operations. -/
theorem Decided.operations_skip {D : Decided} {p : Position} (h : (D p).operation? = none) (n : Nat) :
    D.operations p (n + 1) = D.operations (p + 1) n := by
  rw [operations, segment_succ, List.filterMap_cons]
  simp only [h]
  rfl

namespace Site
variable {D : Decided} {range : KeyRange} {base : Table} {first q : Position} {s t : Site} {o : Outside}

/-- What a move applies is the first of the released values. -/
theorem Moves.applied (h : Moves o s t) : t.applied = s.applied ∨ ∃ e rest effects, s.released = e :: rest ∧
    t.applied = s.applied ++ [⟨e.1, e.2, s.node.engine, effects⟩] := by
  cases h with
  | @hear e s' hi he =>
    obtain ⟨notices, rfl⟩ := he.eq
    exact .inl (applied_handle e)
  | apply hrun hr => exact .inr ⟨_, _, _, hr, take_applied⟩
  | finish hrun hr hb => exact .inl take_applied
  | deliver | insert | execute | transfer | wait | register => exact .inl rfl

/-- Where the next application of a site is decided. -/
theorem Follows.next (hs : s.Follows D [] first) {e : Position × Value} {rest : List (Position × Value)}
    (hr : s.released = e :: rest) : e = (first + s.applied.length, D (first + s.applied.length)) := by
  obtain ⟨n, hn, -⟩ := hs.order
  rw [hr, List.nil_append] at hn
  simpa using (Decided.segment_split hn).2

/-- Where the last application of a site is decided. -/
theorem Follows.last (hs : s.Follows D [] first) {a : Application} (ha : a ∈ s.applied.getLast?) :
    a.position + 1 = first + s.applied.length := by
  obtain ⟨l, hl⟩ := List.getLast?_eq_some_iff.mp ha
  have happlied := hs.applied_eq
  rw [hl, List.map_append, List.map_cons] at happlied
  have hposition := (Prod.mk.inj (Decided.segment_split happlied).2).1
  rw [List.length_map] at hposition
  rw [hl, hposition, List.length_append]
  rfl

/-- Everything released is decided after what is applied. -/
theorem Follows.released_within (hs : s.Follows D [] first) (hq : q ≤ first + s.applied.length)
    (hwithin : ∀ p, q ≤ p → (D p).IsWithin range) : ∀ e ∈ s.released, e.2.IsWithin range := by
  intro e he
  obtain ⟨n, hn, -⟩ := hs.order
  obtain ⟨l, r, hr⟩ := List.append_of_mem he
  rw [hr, List.nil_append, ← List.append_assoc] at hn
  obtain ⟨-, rfl⟩ := Decided.segment_split hn
  refine hwithin _ (Nat.le_trans hq ?_)
  rw [List.length_append, List.length_map, ← Nat.add_assoc]
  exact Nat.le_add_right _ _

/-- A site that serves, and has in a range what the operations decided from `q` on make of a table. -/
structure Tracks (D : Decided) (range : KeyRange) (base : Table) (q first : Position) (s : Site) : Prop where
  serves : s.Serves
  follows : s.Follows D [] first
  reached : q ≤ first + s.applied.length
  agrees : Table.AgreesOn range s.flushed.newest (base.runAll (D.operations q (first + s.applied.length - q))).1

/-- The next operation is run on both tables. -/
theorem Tracks.moves (hs : s.Tracks o.decided range base q first) (hf : s.Fed o.decided)
    (hwithin : ∀ p, q ≤ p → (o.decided p).IsWithin range) (hm : Moves o s t) :
    t.Tracks o.decided range base q first := by
  have hreleased := hs.follows.released_within hs.reached hwithin
  obtain ⟨hserves, new, honward⟩ := hs.serves.moves hm fun e he => (hreleased e he).isFaithful
  have hfollows := hs.follows.moves hf hm
  have hagrees := hs.agrees
  rcases hm.applied with happlied | ⟨e, rest, effects, hr, happlied⟩
  · obtain rfl : new = [] := List.append_cancel_left ((honward.applied.symm.trans happlied).trans (List.append_nil _).symm)
    exact ⟨hserves, hfollows, happlied ▸ hs.reached, by rw [happlied, honward.newest]; exact hagrees⟩
  · obtain rfl : new = _ := List.append_cancel_left (honward.applied.symm.trans happlied)
    have hlength : first + t.applied.length = first + s.applied.length + 1 := by
      rw [happlied, List.length_append]
      rfl
    have hreached := hs.reached
    have hnext := hs.follows.next hr
    refine ⟨hserves, hfollows, by rw [hlength]; exact Nat.le_succ_of_le hs.reached, ?_⟩
    rw [hlength, Nat.succ_sub hs.reached, Decided.operations_succ, Nat.add_sub_cancel' hs.reached, Table.runAll_append,
      honward.newest]
    have hoperations : [(⟨e.1, e.2, s.node.engine, effects⟩ : Application)].filterMap (fun a => a.value.operation?) =
        (o.decided (first + s.applied.length)).operation?.toList := by
      rw [hnext]
      cases h : (o.decided (first + s.applied.length)).operation? <;> simp [h]
    rw [hoperations]
    refine hagrees.runAll fun op hop => ?_
    exact (hwithin _ hs.reached).operation (Option.mem_toList.mp hop)

end Site
end ReplicaGroup
