import ReplicaGroup.Proofs.Scan.Results

/-! # How a scan drives its action

Whatever an action does, a scan prepares it, hands it the returned entries in key order, and commits it once
if nothing has failed. A failure on the way, or of the commit, is the scan's result, and the action is aborted
at the end. Until the commit the store is untouched. -/

namespace ReplicaGroup

namespace RangeAction
variable {a : RangeAction} {seen visits front back : List Visit} {v : Visit} {store : Store} {outcome : ScanOutcome}

/-- Whether an action that has seen `seen` looks at the next entries, one after the other, without failing. -/
def Accepts (a : RangeAction) (seen : List Visit) : List Visit → Prop
  | [] => True
  | v :: rest => (∃ size?, a.process seen v = .ok size?) ∧ a.Accepts (seen ++ [v]) rest

/-- What becomes of a scan that has `visits` for its action, and the calls that the action gets. -/
inductive Course (a : RangeAction) (visits : List Visit) (store : Store) (outcome : ScanOutcome) : Prop
  | unprepared (fault : Fault) (hprepare : a.prepare = .error fault) (hresult : outcome.result = .error fault)
      (hstore : outcome.store = store) (hcalls : outcome.calls = [.prepare])
  | refused (front : List Visit) (v : Visit) (back : List Visit) (fault : Fault) (hprepare : a.prepare = .ok ())
      (hvisits : visits = front ++ v :: back) (hfront : a.Accepts [] front) (hv : a.process front v = .error fault)
      (hresult : outcome.result = .error fault) (hstore : outcome.store = store)
      (hcalls : outcome.calls = .prepare :: (front ++ [v]).map .process ++ [.abort])
  | uncommitted (fault : Fault) (hprepare : a.prepare = .ok ()) (hvisits : a.Accepts [] visits)
      (hcommit : a.commit visits store = (outcome.store, .error fault)) (hresult : outcome.result = .error fault)
      (hcalls : outcome.calls = .prepare :: visits.map .process ++ [.commit, .abort])
  | committed (result : ScanResult) (hprepare : a.prepare = .ok ()) (hvisits : a.Accepts [] visits)
      (hcommit : a.commit visits store = (outcome.store, .ok ())) (hresult : outcome.result = .ok result)
      (hentries : result.results.entries = visits.map fun v => (v.key, v.value))
      (hcalls : outcome.calls = .prepare :: visits.map .process ++ [.commit])

theorem accepts_append : a.Accepts seen (front ++ back) ↔ a.Accepts seen front ∧ a.Accepts (seen ++ front) back := by
  induction front generalizing seen with
  | nil => simp [Accepts]
  | cons v front ih => simp only [List.cons_append, Accepts, ih, and_assoc, List.append_assoc, List.nil_append]

theorem not_accepts {fault : Fault} (hvisits : visits = front ++ v :: back) (hv : a.process front v = .error fault) :
    ¬a.Accepts [] visits := by
  rw [hvisits, accepts_append]
  rintro ⟨-, ⟨size?, hsize⟩, -⟩
  rw [List.nil_append, hv] at hsize
  cases hsize

/-! ### Looking for a call -/

theorem count_calls {call : ActionCall} (hprepare : call ≠ .prepare) (hprocess : ∀ v, call ≠ .process v)
    (visits : List Visit) (ending : List ActionCall) :
    (.prepare :: visits.map .process ++ ending : List ActionCall).count call = ending.count call := by
  have hnone : (visits.map ActionCall.process).count call = 0 := by
    rw [List.count_eq_zero, List.mem_map]
    rintro ⟨v, -, hv⟩
    exact hprocess v hv.symm
  rw [List.cons_append, List.count_cons_of_ne (Ne.symm hprepare), List.count_append, hnone, Nat.zero_add]

theorem count_commit (visits : List Visit) (ending : List ActionCall) :
    (.prepare :: visits.map .process ++ ending : List ActionCall).count .commit = ending.count .commit :=
  count_calls ActionCall.noConfusion (fun _ => ActionCall.noConfusion) visits ending

theorem count_abort (visits : List Visit) (ending : List ActionCall) :
    (.prepare :: visits.map .process ++ ending : List ActionCall).count .abort = ending.count .abort :=
  count_calls ActionCall.noConfusion (fun _ => ActionCall.noConfusion) visits ending

namespace Course

/-- An action that fails neither to start nor on an entry is committed once. -/
theorem count_commit_eq_one (h : a.Course visits store outcome) (hprepare : a.prepare = .ok ())
    (hvisits : a.Accepts [] visits) : outcome.calls.count .commit = 1 := by
  cases h with
  | unprepared fault hfault => cases hfault.symm.trans hprepare
  | refused front v back fault _ hsplit _ hv => exact absurd hvisits (not_accepts hsplit hv)
  | uncommitted fault _ _ _ _ hcalls => rw [hcalls, count_commit]; rfl
  | committed result _ _ _ _ _ hcalls => rw [hcalls, count_commit]; rfl

/-- An action that fails before the commit is not committed, and has no effect. -/
theorem spares (h : a.Course visits store outcome) (hfails : ¬(a.prepare = .ok () ∧ a.Accepts [] visits)) :
    outcome.calls.count .commit = 0 ∧ outcome.store = store ∧ ∃ fault, outcome.result = .error fault := by
  cases h with
  | unprepared fault _ hresult hstore hcalls => exact ⟨by rw [hcalls]; rfl, hstore, fault, hresult⟩
  | refused front v back fault _ _ _ _ hresult hstore hcalls =>
    exact ⟨by rw [hcalls, count_commit]; rfl, hstore, fault, hresult⟩
  | uncommitted fault hprepare hvisits => exact absurd ⟨hprepare, hvisits⟩ hfails
  | committed result hprepare hvisits => exact absurd ⟨hprepare, hvisits⟩ hfails

/-- An action that starts and then fails on an entry or in its commit is aborted once, at the end. -/
theorem aborts (h : a.Course visits store outcome) (hprepare : a.prepare = .ok ())
    (hfails : ¬a.Accepts [] visits ∨ ∃ fault, (a.commit visits store).2 = .error fault) :
    outcome.calls.count .abort = 1 ∧ outcome.calls.getLast? = some .abort := by
  cases h with
  | unprepared fault hfault => cases hfault.symm.trans hprepare
  | refused front v back fault _ _ _ _ _ _ hcalls =>
    rw [hcalls, count_abort]
    exact ⟨rfl, List.getLast?_concat⟩
  | uncommitted fault _ _ _ _ hcalls =>
    rw [hcalls, count_abort]
    exact ⟨rfl, by rw [List.getLast?_append]; rfl⟩
  | committed result _ hvisits hcommit =>
    rcases hfails with hfails | ⟨fault, hfault⟩
    · exact absurd hvisits hfails
    · rw [hcommit] at hfault
      cases hfault

/-- An action that does not start, or never fails, is not aborted. -/
theorem count_abort_eq_zero (h : a.Course visits store outcome)
    (hgoes : a.prepare = .ok () → a.Accepts [] visits ∧ (a.commit visits store).2 = .ok ()) :
    outcome.calls.count .abort = 0 := by
  cases h with
  | unprepared fault _ _ _ hcalls => rw [hcalls]; rfl
  | refused front v back fault hprepare hsplit _ hv => exact absurd (hgoes hprepare).1 (not_accepts hsplit hv)
  | uncommitted fault hprepare _ hcommit =>
    have hok := (hgoes hprepare).2
    rw [hcommit] at hok
    cases hok
  | committed result _ _ _ _ _ hcalls => rw [hcalls, count_abort]; rfl

end Course
end RangeAction

/-! ### The walk -/

namespace Scan
variable {s : Scan}

/-- A walk hands the admitted candidates to the action, up to the first one that it fails on. -/
theorem visitAll_cases (action : RangeAction) (version : Version) (seen : List Visit) (b : Budget) (l : List Candidate) :
    let visits := (b.admitted Candidate.value l).map fun c => (⟨c.key, c.value, version⟩ : Visit)
    let walk := visitAll action version seen b l
    action.Accepts seen visits ∧ walk.visits = visits ∧ walk.failed? = none ∨
      ∃ v fault back, visits = walk.visits ++ v :: back ∧ action.Accepts seen walk.visits ∧
        action.process (seen ++ walk.visits) v = .error fault ∧ walk.failed? = some (v, fault) := by
  induction l generalizing seen b with
  | nil => exact .inl ⟨trivial, rfl, rfl⟩
  | cons c rest ih =>
    unfold visitAll Budget.admitted
    cases b.take? c.value with
    | none => exact .inl ⟨trivial, rfl, rfl⟩
    | some left =>
      simp only [List.map_cons]
      generalize hvisit : (⟨c.key, c.value, version⟩ : Visit) = visit
      cases hprocess : action.process seen visit with
      | error fault => exact .inr ⟨visit, fault, _, rfl, trivial, by rwa [List.append_nil], rfl⟩
      | ok size? =>
        cases ho : left.isOpen with
        | false =>
          -- The budget is used up, and what comes next is only looked at.
          rw [Budget.admitted_of_closed ho]
          exact .inl ⟨⟨⟨size?, hprocess⟩, trivial⟩, rfl, rfl⟩
        | true =>
          rcases ih (seen ++ [visit]) left with ⟨haccepts, hvisits, hfailed⟩ | ⟨v, fault, back, hvisits, haccepts, hv, hfailed⟩
          · exact .inl ⟨⟨⟨size?, hprocess⟩, haccepts⟩, congrArg (visit :: ·) hvisits, hfailed⟩
          · refine .inr ⟨v, fault, back, congrArg (visit :: ·) hvisits, ⟨⟨size?, hprocess⟩, haccepts⟩, ?_, hfailed⟩
            rwa [List.append_assoc] at hv

theorem run_course (s : Scan) (store : Store) : s.action.Course ((s.returned store).map s.visit) store (s.run store) := by
  have hcases := visitAll_cases s.action s.actionVersion [] (.full s.query.limit)
    (s.candidates (store.startingAt s.query.range.start))
  have hvisits : ((Budget.full s.query.limit).admitted Candidate.value
      (s.candidates (store.startingAt s.query.range.start))).map (fun c => (⟨c.key, c.value, s.actionVersion⟩ : Visit)) =
      (s.returned store).map s.visit := by
    rw [candidates_startingAt]
    rfl
  rw [hvisits] at hcases
  unfold run
  cases hprepare : s.action.prepare with
  | error fault => exact .unprepared fault hprepare rfl rfl rfl
  | ok _ =>
    simp only [walk]
    rcases hcases with ⟨haccepts, hwalk, hfailed⟩ | ⟨v, fault, back, hsplit, haccepts, hv, hfailed⟩
    · rw [hfailed, hwalk]
      simp only
      cases hcommit : s.action.commit ((s.returned store).map s.visit) store with
      | mk after result =>
        cases result with
        | error fault => exact .uncommitted fault hprepare haccepts hcommit rfl rfl
        | ok _ =>
          refine .committed _ hprepare haccepts hcommit rfl ?_ rfl
          have hordered : (((s.returned store).map s.visit).map fun v => (v.key, v.value)).Pairwise
              fun a b => a.1 < b.1 := by
            rw [List.map_map]
            exact List.pairwise_map.mpr (s.returned_ordered store)
          exact congrArg OrderedMap.entries (OrderedMap.ofList_eq hordered)
    · rw [hfailed]
      simp only
      refine .refused _ v back fault hprepare hsplit haccepts hv rfl rfl ?_
      simp

end Scan

/-- A scan prepares its action, hands it every returned entry once and in key order, as the filter made it and
    with the version of the action, and then commits it; the entries that the limit leaves are never handed
    over. If the action does not start, nothing else is called. If it fails on an entry, it is aborted and not
    committed. In both cases the scan fails and the store is as it was. A commit that fails is followed by an
    abort, and after one that goes well the scan returns the entries that were handed over. -/
theorem scan_drives_action_by_protocol (s : Scan) (store : Store) :
    ∃ entries rest, s.Returns store entries rest ∧
      let visits := entries.map fun e => (⟨e.1, e.2, s.actionVersion⟩ : Visit)
      let outcome := s.run store
      let goes := s.action.prepare = .ok () ∧ s.action.Accepts [] visits
      s.action.Course visits store outcome ∧
        (goes → outcome.calls.count .commit = 1) ∧
        (¬goes → outcome.calls.count .commit = 0 ∧ outcome.store = store ∧ ∃ fault, outcome.result = .error fault) ∧
        (s.action.prepare = .ok () → ¬s.action.Accepts [] visits ∨ (∃ fault, (s.action.commit visits store).2 = .error fault) →
          outcome.calls.count .abort = 1 ∧ outcome.calls.getLast? = some .abort) ∧
        ((s.action.prepare = .ok () → s.action.Accepts [] visits ∧ (s.action.commit visits store).2 = .ok ()) →
          outcome.calls.count .abort = 0) := by
  obtain ⟨rest, hreturns⟩ := s.exists_returns store
  have hcourse : s.action.Course ((s.results store).entries.map fun e => (⟨e.1, e.2, s.actionVersion⟩ : Visit)) store
      (s.run store) := by
    have hvisits : (s.results store).entries.map (fun e => (⟨e.1, e.2, s.actionVersion⟩ : Visit)) =
        (s.returned store).map s.visit := List.map_map
    rw [hvisits]
    exact s.run_course store
  refine ⟨_, rest, hreturns, hcourse, fun hgoes => ?_, hcourse.spares, hcourse.aborts, hcourse.count_abort_eq_zero⟩
  exact hcourse.count_commit_eq_one hgoes.1 hgoes.2

end ReplicaGroup
