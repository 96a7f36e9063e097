import ReplicaGroup.Log
import ReplicaGroup.OrderedMap.Lemmas

/-! # Logs of one decided sequence

When every position has one decided value, what a log releases is a run of consecutive positions with
the values decided there, in whatever order and however often they are delivered. -/

namespace ReplicaGroup

/-- The decided value of every position. -/
abbrev Decided := Position → Value

/-- The decisions of `n` positions from `first` on. -/
def Decided.segment (D : Decided) (first : Position) (n : Nat) : List (Position × Value) :=
  (List.range' first n).map fun p => (p, D p)

namespace Decided
variable {D : Decided} {first : Position}

@[simp] theorem segment_zero : D.segment first 0 = [] := rfl

theorem segment_succ (n : Nat) : D.segment first (n + 1) = (first, D first) :: D.segment (first + 1) n := by
  simp [segment, List.range'_succ]

theorem segment_append (m n : Nat) :
    D.segment first m ++ D.segment (first + m) n = D.segment first (m + n) := by
  rw [segment, segment, segment, ← List.map_append, List.range'_append_1]

theorem mem_segment {n : Nat} {e : Position × Value} :
    e ∈ D.segment first n ↔ first ≤ e.1 ∧ e.1 < first + n ∧ e.2 = D e.1 := by
  obtain ⟨p, v⟩ := e
  simp only [segment, List.mem_map, List.mem_range'_1, Prod.mk.injEq]
  constructor
  · rintro ⟨q, ⟨h, h'⟩, rfl, rfl⟩
    exact ⟨h, h', rfl⟩
  · rintro ⟨h, h', rfl⟩
    exact ⟨p, ⟨h, h'⟩, rfl, rfl⟩

theorem segment_ordered (n : Nat) : (D.segment first n).Pairwise fun a b => a.1 < b.1 :=
  List.pairwise_map.mpr List.pairwise_lt_range'

theorem length_segment (n : Nat) : (D.segment first n).length = n := by simp [segment]

/-- The front of a run of decisions is a run of decisions. -/
theorem eq_segment_of_append {n : Nat} {l r : List (Position × Value)} (h : l ++ r = D.segment first n) :
    l = D.segment first l.length := by
  have hlen : l.length + r.length = n := by
    have := congrArg List.length h
    simpa [segment] using this
  rw [← hlen, ← segment_append] at h
  exact (List.append_inj h (by simp [segment])).1

/-- What stands before and at a place of a run of decisions. -/
theorem segment_split {n : Nat} {e : Position × Value} {l r : List (Position × Value)}
    (h : l ++ e :: r = D.segment first n) :
    l = D.segment first l.length ∧ e = (first + l.length, D (first + l.length)) := by
  refine ⟨eq_segment_of_append h, ?_⟩
  have hget : (D.segment first n)[l.length]? = some e := by rw [← h]; simp
  obtain ⟨hlt, rfl⟩ := List.getElem?_eq_some_iff.mp hget
  simp [segment]

end Decided

namespace OperationsLog
variable {D : Decided} {log : OperationsLog}

theorem leadingRun_some {l : List (Position × Value)} (hl : ∀ e ∈ l, e.2 = D e.1) (last : Position) :
    ∃ n, leadingRun (some last) l = D.segment (last + 1) n := by
  induction l generalizing last with
  | nil => exact ⟨0, rfl⟩
  | cons e l ih =>
    unfold leadingRun
    split
    · next he =>
      obtain ⟨n, hn⟩ := ih (fun e he => hl e (.tail _ he)) e.1
      refine ⟨n + 1, ?_⟩
      rw [hn, Decided.segment_succ, ← he, ← hl e (.head _)]
    · exact ⟨0, rfl⟩

/-- Every value that waits is the decided one. -/
def Agrees (D : Decided) (log : OperationsLog) : Prop := ∀ e ∈ log.pending.entries, e.2 = D e.1

theorem getLast?_segment {first : Position} (n : Nat) :
    (D.segment first (n + 1)).getLast? = some (first + n, D (first + n)) := by
  simp [Decided.segment, List.range'_1_concat]

/-- What a release does when it releases a run of decided values. -/
theorem release_of_segment {first : Position} {n : Nat} (hd : log.Agrees D)
    (hr : leadingRun log.applied? log.pending.entries = D.segment first n) :
    log.release.2 = D.segment first n ∧ log.release.1.Agrees D ∧
      log.release.1.applied? = (if n = 0 then log.applied? else some (first + n - 1)) ∧
      log.release.1.entries = (D.segment first n).foldl (fun m e => m.insert e.1 e.2) log.entries := by
  unfold release
  simp only [hr]
  cases n with
  | zero => exact ⟨rfl, hd, rfl, rfl⟩
  | succ n =>
    simp only [getLast?_segment]
    refine ⟨trivial, fun e he => hd e (List.mem_filter.mp he).1, ?_, trivial⟩
    rw [if_neg (Nat.succ_ne_zero n), Nat.add_succ_sub_one]

theorem agrees_insert {p : Position} (hd : log.Agrees D) :
    Agrees D { log with pending := log.pending.insert p (D p) } := fun e he => by
  rcases OrderedMap.mem_insert_entries.mp he with rfl | ⟨-, he⟩
  · rfl
  · exact hd e he

/-- A log that has released something releases the decisions of the next positions. -/
theorem insert_of_some {last : Position} (hd : log.Agrees D) (ha : log.applied? = some last) (p : Position) :
    ∃ n, (log.insert p (D p)).2 = D.segment (last + 1) n ∧ (log.insert p (D p)).1.Agrees D ∧
      (log.insert p (D p)).1.applied? = some (last + n) ∧
      (log.insert p (D p)).1.entries = (D.segment (last + 1) n).foldl (fun m e => m.insert e.1 e.2) log.entries := by
  unfold insert
  split
  · exact ⟨0, rfl, hd, ha, rfl⟩
  · obtain ⟨n, hn⟩ := leadingRun_some (agrees_insert (p := p) hd) last
    have hr : leadingRun log.applied? (log.pending.insert p (D p)).entries = D.segment (last + 1) n := by
      rw [ha]
      exact hn
    obtain ⟨h₁, h₂, h₃, h₄⟩ := release_of_segment (agrees_insert (p := p) hd) hr
    refine ⟨n, h₁, h₂, ?_, h₄⟩
    rw [h₃]
    split
    · next h0 => rw [h0]; exact ha
    · rw [Nat.add_right_comm]; rfl

/-- A log that has seen nothing releases the first decision that is delivered. -/
theorem insert_of_none (hp : log.pending = .empty) (ha : log.applied? = none) (p : Position) :
    (log.insert p (D p)).2 = D.segment p 1 ∧ (log.insert p (D p)).1.Agrees D ∧
      (log.insert p (D p)).1.applied? = some p ∧
      (log.insert p (D p)).1.entries = (D.segment p 1).foldl (fun m e => m.insert e.1 e.2) log.entries := by
  have hd : log.Agrees D := fun e he => by
    rw [hp] at he
    cases he
  have hk : log.knows p = false := by
    rw [knows, ha, hp]
    rfl
  have hr : leadingRun log.applied? (log.pending.insert p (D p)).entries = D.segment p 1 := by
    rw [ha, hp]
    rfl
  obtain ⟨h₁, h₂, h₃, h₄⟩ := release_of_segment (agrees_insert (p := p) hd) hr
  unfold insert
  rw [hk]
  exact ⟨h₁, h₂, h₃, h₄⟩

end OperationsLog
end ReplicaGroup
