import ReplicaGroup.Proofs.Log
import ReplicaGroup.Proofs.Site.Acts

/-! # The order of application

Whatever batches arrive, a site applies the decisions of consecutive positions in their order, from the
first position that is delivered on. -/

namespace ReplicaGroup.Site
variable {D : Decided} {s t : Site}

/-- The batch at hand holds no other values than the decided ones. -/
def Fed (D : Decided) (s : Site) : Prop := ∀ ds, s.batch? = some ds → ∀ d ∈ ds, d.value = D d.position

/-- A site that has seen no decision. -/
structure Fresh (s : Site) : Prop where
  pending : s.node.engine.log.pending = .empty
  unreleased : s.node.engine.log.applied? = none
  applied : s.applied = []
  released : s.released = []

theorem fresh_fresh (addr : Addr) (config : Config) (draw : Nat → UInt64) (peers : Network Inbox) :
    (fresh addr config draw peers).Fresh := ⟨rfl, rfl, rfl, rfl⟩

theorem fresh_bootstrapped (addr : Addr) (config : Config) (draw : Nat → UInt64) (peers : Network Inbox)
    (change : ViewChange) : (bootstrapped addr config draw peers change).Fresh := ⟨rfl, rfl, rfl, rfl⟩

/-- A site that has applied `base`, and then applies what is decided from `first` on. -/
structure Follows (D : Decided) (base : List (Position × Value)) (first : Position) (s : Site) : Prop where
  agrees : s.node.engine.log.Agrees D
  order : ∃ n, s.applied.map Application.decision ++ s.released = base ++ D.segment first (n + 1) ∧
    s.node.engine.log.applied? = some (first + n)

@[simp] theorem batch?_handle (e : Event) : (s.handle e).batch? = s.batch? := by
  by_cases he : e = .stop
  · subst he
    simp [handle]
  · rw [handle_eq_take he, take_batch?]

@[simp] theorem applied_handle (e : Event) : (s.handle e).applied = s.applied := by
  by_cases he : e = .stop
  · subst he
    simp [handle]
  · rw [handle_eq_take he, take_applied]

@[simp] theorem released_handle (e : Event) : (s.handle e).released = s.released := by
  by_cases he : e = .stop
  · subst he
    simp [handle]
  · rw [handle_eq_take he, take_released]

@[simp] theorem engine_handle (e : Event) :
    (s.handle e).node.engine = (s.node.engine.handle s.node.host e).engine := by
  by_cases he : e = .stop
  · subst he
    simp [handle]
  · rw [handle_eq_take he, take_engine]

theorem Fed.of_eq (hs : s.Fed D) (h : t.batch? = s.batch?) : t.Fed D := fun ds hds => hs ds (h ▸ hds)

/-- Only a delivery brings decisions to a site. -/
theorem Fed.moves {o : Outside} (hs : s.Fed o.decided) (h : Moves o s t) : t.Fed o.decided := by
  cases h with
  | @hear e s' hi he => exact hs.of_eq ((batch?_handle e).trans (by cases he <;> rfl))
  | deliver hi hd =>
    intro ds hds
    cases hds
    exact hd
  | apply hrun hr => exact hs.of_eq take_batch?
  | @insert d rest hrun hr hb =>
    intro ds hds
    cases hds
    exact fun d hd => hs _ hb d (.tail _ hd)
  | finish hrun hr hb =>
    intro ds hds
    rw [finish, take_batch?] at hds
    cases hds
  | execute hq => exact hs
  | transfer hn => exact hs
  | wait ms => exact hs
  | register ha => exact hs

theorem Follows.released {first : Position} (hs : s.Follows D [] first) {e : Position × Value}
    (he : e ∈ s.released) : e.2 = D e.1 := by
  obtain ⟨n, hn, -⟩ := hs.order
  have hmem : e ∈ D.segment first (n + 1) := by
    rw [List.nil_append] at hn
    exact hn ▸ List.mem_append_right _ he
  exact (Decided.mem_segment.mp hmem).2.2

theorem Follows.applied_eq {first : Position} (hs : s.Follows D [] first) :
    s.applied.map Application.decision = D.segment first s.applied.length := by
  obtain ⟨n, hn, -⟩ := hs.order
  simpa using Decided.eq_segment_of_append (hn.trans (List.nil_append _))

/-- The position of the first application. -/
theorem position_of_head? {first : Position}
    (ho : s.applied.map Application.decision = D.segment first s.applied.length) {b : Application}
    (hb : b ∈ s.applied.head?) : b.position = first := by
  obtain ⟨rest, hrest⟩ := List.head?_eq_some_iff.mp hb
  rw [hrest, List.length_cons, Decided.segment_succ] at ho
  exact congrArg Prod.fst (List.cons.inj ho).1

theorem Follows.first_le {first p : Position} (hs : s.Follows D [] first) (h : ∀ a ∈ s.applied.head?, a.position ≤ p)
    (hne : s.applied ≠ []) : first ≤ p := by
  obtain ⟨a, l, ha⟩ := List.exists_cons_of_ne_nil hne
  have hhead : a ∈ s.applied.head? := by
    rw [ha]
    rfl
  exact position_of_head? hs.applied_eq hhead ▸ h a hhead

/-- What a site that follows `D` needs of a change that releases and applies nothing. -/
theorem Follows.of_eq {base : List (Position × Value)} {first : Position} (hs : s.Follows D base first)
    (hp : t.node.engine.log.pending = s.node.engine.log.pending)
    (hl : t.node.engine.log.applied? = s.node.engine.log.applied?)
    (ho : t.applied.map Application.decision ++ t.released = s.applied.map Application.decision ++ s.released) :
    t.Follows D base first := by
  obtain ⟨n, hn, hlast⟩ := hs.order
  refine ⟨fun e he => hs.agrees e ?_, n, ho.trans hn, hl.trans hlast⟩
  rwa [← hp]

theorem Follows.moves {o : Outside} {base : List (Position × Value)} {first : Position}
    (hs : s.Follows o.decided base first) (hf : s.Fed o.decided) (h : Moves o s t) :
    t.Follows o.decided base first := by
  cases h with
  | @hear e s' hi he =>
    obtain ⟨k, -⟩ := Engine.idle_handle (h := s'.node.host) (e := s'.node.engine) (not_decide_of_heard he)
    obtain ⟨notices, rfl⟩ := he.eq
    exact hs.of_eq (by rw [engine_handle, k.pending]) (by rw [engine_handle, k.applied]) (by simp)
  | deliver hi hd => exact hs.of_eq rfl rfl rfl
  | @apply e rest hrun hr =>
    refine hs.of_eq ?_ ?_ ?_
    · rw [apply, take_engine, Engine.apply_log]
    · rw [apply, take_engine, Engine.apply_log]
    · rw [apply, take_applied, take_released, hr]
      simp [Application.decision]
  | @insert d rest hrun hr hb =>
    obtain ⟨n, hn, hlast⟩ := hs.order
    obtain ⟨k, h₁, h₂, h₃, -⟩ := OperationsLog.insert_of_some hs.agrees hlast d.position
    have hv : d.value = o.decided d.position := hf _ hb d (.head _)
    rw [hr, List.append_nil] at hn
    refine ⟨?_, n + k, ?_, ?_⟩
    · simpa [insert, hv] using h₂
    · simp only [insert, hv, hn, h₁, List.append_assoc]
      rw [Nat.add_assoc, Decided.segment_append, Nat.add_right_comm]
    · simp only [insert, hv, h₃, Nat.add_assoc]
  | finish hrun hr hb =>
    obtain ⟨k, -⟩ := Engine.idle_prune (h := s.node.host) (e := s.node.engine)
    refine hs.of_eq ?_ ?_ ?_
    · rw [finish, take_engine, k.pending]
    · rw [finish, take_engine, k.applied]
    · rw [finish, take_applied, take_released]
  | execute hq => exact hs.of_eq (by simp) (by simp) rfl
  | transfer hn =>
    obtain ⟨u, u', reports, -, -, rfl⟩ := Node.stepTransfer_eq_some hn
    exact hs.of_eq rfl rfl rfl
  | wait ms => exact hs.of_eq rfl rfl rfl
  | register ha => exact hs.of_eq rfl rfl rfl

/-- A site that has seen nothing still has seen nothing, or follows the decisions from the first position
    that it was delivered. -/
theorem Fresh.moves {o : Outside} (hs : s.Fresh) (hf : s.Fed o.decided) (h : Moves o s t) :
    t.Fresh ∨ ∃ first, t.Follows o.decided [] first := by
  cases h with
  | @hear e s' hi he =>
    obtain ⟨k, -⟩ := Engine.idle_handle (h := s'.node.host) (e := s'.node.engine) (not_decide_of_heard he)
    obtain ⟨notices, rfl⟩ := he.eq
    left
    exact ⟨by rw [engine_handle, k.pending, hs.pending], by rw [engine_handle, k.applied, hs.unreleased],
      by simpa using hs.applied, by simpa using hs.released⟩
  | deliver hi hd => exact .inl ⟨hs.pending, hs.unreleased, hs.applied, hs.released⟩
  | apply hrun hr => rw [hs.released] at hr; cases hr
  | @insert d rest hrun hr hb =>
    obtain ⟨h₁, h₂, h₃, -⟩ := OperationsLog.insert_of_none (D := o.decided) hs.pending hs.unreleased d.position
    have hv : d.value = o.decided d.position := hf _ hb d (.head _)
    refine .inr ⟨d.position, ?_, 0, ?_, ?_⟩
    · simpa [insert, hv] using h₂
    · simpa [insert, hv, hs.applied] using h₁
    · simpa [insert, hv] using h₃
  | finish hrun hr hb =>
    obtain ⟨k, -⟩ := Engine.idle_prune (h := s.node.host) (e := s.node.engine)
    left
    exact ⟨by rw [finish, take_engine, k.pending, hs.pending],
      by rw [finish, take_engine, k.applied, hs.unreleased], by rw [finish, take_applied, hs.applied],
      by rw [finish, take_released, hs.released]⟩
  | execute hq => exact .inl ⟨by simpa using hs.pending, by simpa using hs.unreleased, hs.applied, hs.released⟩
  | transfer hn =>
    obtain ⟨u, u', reports, -, -, rfl⟩ := Node.stepTransfer_eq_some hn
    exact .inl ⟨hs.pending, hs.unreleased, hs.applied, hs.released⟩
  | wait ms => exact .inl ⟨hs.pending, hs.unreleased, hs.applied, hs.released⟩
  | register ha => exact .inl ⟨hs.pending, hs.unreleased, hs.applied, hs.released⟩

/-- From a site that has seen nothing on, decisions are applied in their order. -/
theorem Fresh.run {o : Outside} {acts : List Act} (hs : s.Fresh) (hb : s.batch? = none)
    (ha : ∀ a ∈ acts, a.From o) (h : s.run acts = some t) : t.Fresh ∨ ∃ first, t.Follows o.decided [] first := by
  refine (run_induction (P := fun s => s.Fed o.decided ∧ (s.Fresh ∨ ∃ first, s.Follows o.decided [] first)) h ha
    ⟨fun ds hds => ?_, .inl hs⟩ ?_).2
  · rw [hb] at hds
    cases hds
  · rintro u v ⟨hf, hu⟩ hm
    refine ⟨hf.moves hm, ?_⟩
    rcases hu with hu | ⟨first, hu⟩
    · exact hu.moves hf hm
    · exact .inr ⟨first, hu.moves hf hm⟩

theorem Fresh.applied_run {o : Outside} {acts : List Act} (hs : s.Fresh) (hb : s.batch? = none)
    (ha : ∀ a ∈ acts, a.From o) (h : s.run acts = some t) :
    ∃ first, t.applied.map Application.decision = o.decided.segment first t.applied.length := by
  rcases hs.run hb ha h with ht | ⟨first, ht⟩
  · exact ⟨0, by rw [ht.applied]; rfl⟩
  · exact ⟨first, ht.applied_eq⟩

end ReplicaGroup.Site
