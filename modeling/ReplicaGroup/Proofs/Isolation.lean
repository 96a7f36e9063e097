import ReplicaGroup.Proofs.Convergence
import ReplicaGroup.Proofs.Site.Capturing

/-! # How far a capture is isolated from later operations

A transfer is to bring the state that its view change found. What is decided later may be executed before
the capture: puts and conditional writes leave no trace in it, but the keys that a range query removes are
missing, although they had values when the view changed. -/

namespace ReplicaGroup

/-- The positions that a site has applied since one of its applications follow on from it. -/
theorem Site.Follows.since {D : Decided} {first p : Position} {v : Value} {rest : List (Position × Value)} {s t : Site}
    (hs : s.Follows D [] first) (hr : s.released = (p, v) :: rest) (ht : t.Follows D [] first)
    (hlength : s.applied.length + 1 ≤ t.applied.length) {front : List Application}
    (hfront : front <+: t.applied.drop (s.applied.length + 1)) :
    front.map Application.decision = D.segment (p + 1) front.length := by
  obtain ⟨n, hn, -⟩ := hs.order
  have hp : p = first + s.applied.length := by
    rw [hr, List.nil_append] at hn
    simpa using congrArg Prod.fst (Decided.segment_split hn).2
  obtain ⟨back, hback⟩ := hfront
  have hsplit : D.segment first (s.applied.length + 1) ++ D.segment (p + 1) (t.applied.length - (s.applied.length + 1)) =
      (t.applied.take (s.applied.length + 1)).map Application.decision ++
        (front.map Application.decision ++ back.map Application.decision) := by
    have hpos : p + 1 = first + (s.applied.length + 1) := by rw [hp, Nat.add_assoc]
    rw [hpos, Decided.segment_append, Nat.add_sub_cancel' hlength, ← List.map_append, hback, ← List.map_append,
      List.take_append_drop, ht.applied_eq]
  have hsegment := (List.append_inj hsplit (by simp [Decided.length_segment, hlength])).2
  simpa using Decided.eq_segment_of_append hsegment.symm

section Isolated
variable {o : Site.Outside} {outbound : Outbound} {p : Position} {r : Reconfiguration} {s t : Site} {first : Position}
  {acts : List Site.Act}

/-- A site applies plain operations only, when no others are decided. -/
theorem Site.Follows.isPlain (ho : ∀ q op, o.decided q = .op op → op.IsPlain) (hf : t.Follows o.decided [] first)
    {a : Application} (ha : a ∈ t.applied) : a.value.IsPlain := by
  intro op hop
  have hdecision : a.decision ∈ o.decided.segment first t.applied.length := hf.applied_eq ▸ List.mem_map_of_mem ha
  obtain ⟨-, -, hvalue⟩ := Decided.mem_segment.mp hdecision
  exact ho a.position op (hvalue.symm.trans (Value.eq_op_of_operation? hop))

/-- What waits for the capture stays in place while the site goes on. -/
theorem Site.StartsTransfer.captures (ho : ∀ q op, o.decided q = .op op → op.IsPlain)
    (hs : s.StartsTransfer outbound p r) (hfollows : s.Follows o.decided [] first) (hfed : s.Fed o.decided)
    (hacts : ∀ a ∈ acts, a.From o) (h : s.run (.advance :: acts) = some t) :
    t.Captures outbound s.node.engine.version s.flushed (s.applied.length + 1) ∧ t.Follows o.decided [] first := by
  obtain ⟨released, hreleased⟩ := hs.released
  obtain ⟨s', hs', hrun⟩ := Option.bind_eq_some_iff.mp h
  have hmoves : Site.Moves o s s' := Site.moves_of_act (a := .advance) trivial hs'
  have happly : s' = s.apply (p, .reconfigure r) released := by
    simp only [Site.act, hreleased] at hs'
    split at hs'
    · exact (Option.some.inj hs').symm
    · cases hs'
  suffices hall : t.Captures outbound s.node.engine.version s.flushed (s.applied.length + 1) ∧
      t.Follows o.decided [] first ∧ t.Fed o.decided from ⟨hall.1, hall.2.1⟩
  refine Site.run_induction (P := fun u => u.Captures outbound s.node.engine.version s.flushed (s.applied.length + 1) ∧
    u.Follows o.decided [] first ∧ u.Fed o.decided) hrun hacts ?_ ?_
  · exact ⟨happly ▸ hs.apply released, hfollows.moves hfed hmoves, hfed.moves hmoves⟩
  · rintro u v ⟨hc, hf, hd⟩ hm
    refine ⟨hc.moves hm ?_, hf.moves hd hm, hd.moves hm⟩
    intro e he
    have hplain : e.2.IsPlain := fun op hop => ho e.1 op ((hf.released he).symm.trans (Value.eq_op_of_operation? hop))
    exact hplain.isFaithful

/-- A serving replica applies a view change that starts a transfer, and goes on with what is decided later, in
    any order with its storage and its transfers. When storage comes to the capture, it has executed what a
    front of the later decisions asks for. The capture finds the newest values from right after the view
    change, without the keys that this front removes: it is isolated exactly if none of them had a value. -/
theorem capture_isolated_iff_nothing_removed (ho : ∀ q op, o.decided q = .op op → op.IsPlain)
    (hs : s.StartsTransfer outbound p r) (hfollows : s.Follows o.decided [] first) (hfed : s.Fed o.decided)
    (hacts : ∀ a ∈ acts, a.From o) (h : s.run (.advance :: acts) = some t) {request : Request}
    {rest : List (Request × Option Requester)}
    (hq : t.node.background.queue = (request, some (.transfer outbound.id)) :: rest) :
    ∃ front captured, front <+: t.applied.drop (s.applied.length + 1) ∧
      front.map Application.decision = o.decided.segment (p + 1) front.length ∧
      t.node.store = s.flushed.afterAll (front.flatMap Application.requests) ∧
      (request.execute t.node.store).response = .scan captured ∧
      let base := s.flushed.newest
      let removed := base.removals (front.filterMap fun a => a.value.operation?)
      captured.results = (base.eraseAll removed).restrict r.range ∧
        (captured.results = base.restrict r.range ↔ ∀ k ∈ removed, r.range.contains k = true → base.get? k = none) := by
  obtain ⟨hrange, -, -⟩ := hs.metadata
  obtain ⟨released, hreleased⟩ := hs.released
  obtain ⟨hc, hf⟩ := hs.captures ho hfollows hfed hacts h
  have hqueue := hc.queue
  rw [hq] at hqueue
  obtain ⟨⟨scanId, rfl⟩, front, hfront, hstore⟩ := hqueue.1 rfl
  have hplain : ∀ a ∈ front, a.value.IsPlain := fun a ha => hf.isPlain ho (List.drop_subset _ _ (hfront.subset ha))
  obtain ⟨-, -, hvisible⟩ := Store.visible?_afterAll hs.serves.upTo hplain (hc.stamped.of_prefix hfront)
  have hvisible' : ∀ k, t.node.store.visible? k s.node.engine.version = (s.flushed.newest.eraseAll
      (s.flushed.newest.removals (front.filterMap fun a => a.value.operation?))).get? k := by
    intro k
    rw [hstore, hvisible, Table.get?_eraseAll]
  obtain ⟨captured, hresponse, hentries⟩ := @Request.execute_read_response outbound.range _ _ _ hvisible' scanId
  have hresults := OrderedMap.ext hentries
  rw [hrange] at hresults
  refine ⟨front, captured, hfront, hfollows.since hreleased hf hc.since hfront, hstore, hresponse, hresults, ?_⟩
  rw [hresults]
  exact Table.restrict_eraseAll_eq_iff ..

end Isolated

/-! ### A removal that comes before the capture -/

/-- A view change, a put, and a query that removes everything. -/
def removingLog : Decided
  | 1 => .reconfigure joining
  | 2 => .op ⟨⟨100⟩, .put ⟨[2]⟩ [22]⟩
  | 3 => .op ⟨⟨200⟩, .range ⟨.full, .unlimited, none, some .delete⟩⟩
  | _ => .noop ⟨0⟩

/-- The put and the removal are queued before the transfer asks for its capture, and executed. -/
def removingActs : List Site.Act :=
  [.advance, .advance, .deliver ([2, 3].map fun p => ⟨p, removingLog p⟩), .advance, .advance, .advance, .advance,
    .transfer ⟨7⟩, .execute, .execute]

theorem effects_departing : (departing.node.engine.apply departing.node.host 1 (.reconfigure joining)).effects =
    [.startSend departed.outbound ⟨0⟩] := rfl

theorem starts_departing : departing.StartsTransfer departed.outbound 1 joining where
  serves := serves_departing
  released := ⟨[], rfl⟩
  starts := ⟨⟨0⟩, effects_departing ▸ List.mem_singleton.mpr rfl⟩
  singles x hx := by
    obtain rfl := List.mem_singleton.mp (effects_departing ▸ hx)
    exact ⟨rfl, fun other ho _ => (Option.some.inj ho).symm⟩
  drawn i hi := by
    have hdrawn : (departing.node.engine.apply departing.node.host 1 (.reconfigure joining)).engine.drawn = 2 := rfl
    have hne : i ≠ 0 := by omega
    simp [departing, departed, Cargo.outbound, hne]
  transfers := by rintro t ⟨⟩
  queue := by rintro q ⟨⟩

/-- The keys 1 and 2 had values when the view changed, and the capture finds none. -/
theorem capture_after_removal :
    ∃ t request captured, departing.run removingActs = some t ∧
      t.node.background.queue = [(request, some (.transfer departed.outbound.id))] ∧
      (request.execute t.node.store).response = .scan captured ∧ captured.results = .empty ∧
      captured.results ≠ departing.flushed.newest.restrict joining.range := by
  have hplain : ∀ q op, removingLog q = .op op → op.IsPlain := by
    intro q op hop r hr
    unfold removingLog at hop
    split at hop <;> cases hop <;> cases hr
    exact .inr (.inr rfl)
  have hrun : (departing.run removingActs).map (fun t => (t.node.background.queue.map (·.2),
      t.node.background.queue.map fun q => (q.1.execute t.node.store).response)) =
      some ([some (.transfer ⟨7⟩)], [.scan ⟨⟨0⟩, .empty, false, .zero⟩]) := by
    decide +kernel
  obtain ⟨t, ht, hqueue⟩ := Option.map_eq_some_iff.mp hrun
  simp only [Prod.mk.injEq] at hqueue
  obtain ⟨⟨request, requester?⟩, hq, rfl⟩ := List.map_eq_singleton_iff.mp hqueue.1
  have hresponse : (request.execute t.node.store).response = .scan ⟨⟨0⟩, .empty, false, .zero⟩ := by
    simpa [hq] using hqueue.2
  have hacts : ∀ a ∈ removingActs.tail, a.From ⟨fun _ => True, removingLog⟩ := by
    simp [removingActs, Site.Act.From]
  have hfollows : departing.Follows removingLog [] 1 := ⟨fun e he => (by cases he), 0, rfl, rfl⟩
  obtain ⟨front, captured, -, -, -, hcaptured, hresults, -⟩ := capture_isolated_iff_nothing_removed
    (o := ⟨fun _ => True, removingLog⟩) hplain starts_departing hfollows (by rintro ds ⟨⟩ d ⟨⟩) hacts ht hq
  rw [hresponse] at hcaptured
  cases hcaptured
  exact ⟨t, request, _, ht, hq, hresponse, rfl, by decide +kernel⟩

end ReplicaGroup
