import ReplicaGroup.Proofs.Engine.Apply
import ReplicaGroup.Proofs.Release.Order
import ReplicaGroup.Proofs.Replay

/-! # What applying a value reads of the log

A value is applied in the same way whatever the log holds; only a replica's own marker reads the log, and only
what is recorded before the marker. So the values that a batch of decisions releases may be applied as if the
whole batch were in the log from the beginning. -/

namespace ReplicaGroup

namespace Step
variable {α : Type} {s : Step} {f g : Engine → Step} {step : α → Engine → Step}

theorem fault?_andThen_eq_none_iff :
    (s.andThen f).fault? = none ↔ s.fault? = none ∧ (f s.engine).fault? = none := by
  by_cases hs : s.fault? = none
  · rw [andThen_of_none hs]
    exact ⟨fun h => ⟨hs, h⟩, And.right⟩
  · rw [andThen_of_fault hs]
    exact iff_of_false hs fun h => hs h.1

theorem andThen_assoc : (s.andThen f).andThen g = s.andThen fun e => (f e).andThen g := by
  by_cases hs : s.fault? = none
  · by_cases hf : (f s.engine).fault? = none
    · have hsf : (s.andThen f).fault? = none := fault?_andThen_eq_none_iff.mpr ⟨hs, hf⟩
      rw [andThen_of_none hsf, andThen_of_none hs, andThen_of_none hs, andThen_of_none hf]
      simp only [List.append_assoc]
    · have hsf : (s.andThen f).fault? ≠ none := fun h => hf (fault?_andThen_eq_none_iff.mp h).2
      rw [andThen_of_fault hsf, andThen_of_none hs, andThen_of_none hs, andThen_of_fault hf]
  · rw [andThen_of_fault hs, andThen_of_fault hs, andThen_of_fault hs]

theorem andThen_congr (h : s.fault? = none → f s.engine = g s.engine) : s.andThen f = s.andThen g := by
  by_cases hs : s.fault? = none
  · rw [andThen_of_none hs, andThen_of_none hs, h hs]
  · rw [andThen_of_fault hs, andThen_of_fault hs]

theorem andThen_done : s.andThen (fun e => { engine := e }) = s := by
  obtain ⟨e, effects, fault?⟩ := s
  cases fault? with
  | none => simp [andThen]
  | some fault => rfl

theorem forEach_append (l r : List α) (e : Engine) :
    forEach step (l ++ r) e = (forEach step l e).andThen (forEach step r) := by
  induction l generalizing e with
  | nil => simp [forEach, andThen]
  | cons a l ih =>
    rw [List.cons_append, forEach, forEach, andThen_assoc]
    exact andThen_congr fun _ => ih _

end Step

/-- The watermark that an effect sends to the log. -/
def Effect.watermark? : Effect → Option Position
  | prune w => some w
  | _ => none

/-! ### Another log -/

/-- An engine with another log, pruned to another position. -/
def Engine.relog (log : OperationsLog) (pruned : Position) (e : Engine) : Engine := { e with log, pruned }

/-- A step that ends with another log. -/
def Step.relog (log : OperationsLog) (pruned : Position) (s : Step) : Step :=
  { s with engine := s.engine.relog log pruned }

section Relog
variable {log : OperationsLog} {pruned : Position} {e e' : Engine} {s s' : Step} {h : Host} {p : Position}

theorem Step.relog_andThen {f g : Engine → Step} (hs : s' = s.relog log pruned)
    (hf : s.fault? = none → g (s.engine.relog log pruned) = (f s.engine).relog log pruned) :
    s'.andThen g = (s.andThen f).relog log pruned := by
  subst hs
  by_cases hok : s.fault? = none
  · have hg : g (s.relog log pruned).engine = (f s.engine).relog log pruned := hf hok
    rw [andThen_of_none (s := s.relog log pruned) hok, andThen_of_none hok, hg]
    rfl
  · rw [andThen_of_fault (s := s.relog log pruned) hok, andThen_of_fault hok]

namespace Engine

theorem relog_emit {isOpen : Bool} {x x' : Effect} (he : e' = e.relog log pruned) (hx : x' = x) :
    e'.emit isOpen x' = (e.emit isOpen x).relog log pruned := by
  subst he hx
  cases isOpen <;> rfl

theorem relog_applyOp (op : Operation) : (e.relog log pruned).applyOp h p op = (e.applyOp h p op).relog log pruned := by
  unfold applyOp
  rw [show (e.relog log pruned).mode = e.mode from rfl]
  cases Rule.find? e.mode op.kind with
  | none => exact relog_emit rfl rfl
  | some rule =>
    dsimp only
    rw [show (e.relog log pruned).version = e.version from rfl]
    obtain ⟨request?, answer?, captured?⟩ := rule.initiate op p e.version
    refine Step.relog_andThen (Step.relog_andThen ?_ fun _ => ?_) fun _ => ?_
    · cases request? with
      | none => rfl
      | some request => exact relog_emit rfl rfl
    · cases answer? with
      | none => rfl
      | some answer => exact relog_emit rfl rfl
    · cases captured? <;> rfl

theorem relog_finishTransferring (he : e' = e.relog log pruned) :
    e'.finishTransferring = e.finishTransferring.relog log pruned := by
  subst he
  unfold finishTransferring
  rw [show (e.relog log pruned).mode = e.mode from rfl, show (e.relog log pruned).outgoing = e.outgoing from rfl]
  split <;> rfl

theorem relog_reconfigure (r : Reconfiguration) :
    (e.relog log pruned).reconfigure h p r = (e.reconfigure h p r).relog log pruned := by
  cases hn : r.view.isNewerThan e.view with
  | false => rw [reconfigure_stale hn, reconfigure_stale (e := e.relog log pruned) hn]; rfl
  | true =>
    cases hm : e.mode with
    | passive =>
      rw [reconfigure_passive hm hn, reconfigure_passive (e := e.relog log pruned) hm hn]
      cases r.version.succ? <;> rfl
    | catchingUp =>
      rw [reconfigure_catchingUp hm hn, reconfigure_catchingUp (e := e.relog log pruned) hm hn]
      cases r.version.succ? <;> rfl
    | active | transferring =>
      have hserving : e.mode.isServing = true := by rw [hm]; rfl
      rw [reconfigure_serving hserving hn, reconfigure_serving (e := e.relog log pruned) hserving hn]
      rw [show (e.relog log pruned).version = e.version from rfl]
      cases e.version.succ? with
      | none => rfl
      | some version =>
        dsimp only
        exact congrArg (Step.mk · _ _) (relog_finishTransferring rfl)

theorem relog_syncedUp {marker : OpId} (hread : ∀ sync, e.syncing? = some sync →
      (log.operationsAfter sync.snapshot).takeWhile (fun x => x.1 < p) =
        (e.log.operationsAfter sync.snapshot).takeWhile fun x => x.1 < p) :
    (e.relog log pruned).syncedUp h p marker = (e.syncedUp h p marker).relog log pruned := by
  unfold syncedUp
  rw [show (e.relog log pruned).syncing? = e.syncing? from rfl]
  cases hs : e.syncing? with
  | none => rfl
  | some sync =>
    dsimp only
    split
    · refine Step.relog_andThen (Step.relog_andThen (relog_emit rfl ?_) fun _ => relog_emit rfl rfl)
        fun _ => relog_emit rfl rfl
      unfold replay
      rw [← hread sync hs]
      rfl
    · rfl

/-- A value is applied in the same way with another log, as long as a waiting marker reads the same. -/
theorem relog_apply {v : Value} (hread : ∀ sync, e.syncing? = some sync →
      (log.operationsAfter sync.snapshot).takeWhile (fun x => x.1 < p) =
        (e.log.operationsAfter sync.snapshot).takeWhile fun x => x.1 < p) :
    (e.relog log pruned).apply h p v = (e.apply h p v).relog log pruned := by
  cases v with
  | op op => exact relog_applyOp op
  | reconfigure r => exact relog_reconfigure r
  | scan id range => exact relog_emit rfl rfl
  | syncedUp id => exact relog_syncedUp hread
  | noop id => rfl
  | unknown id tag => rfl

theorem apply_pruned (v : Value) : (e.apply h p v).engine.pruned = e.pruned :=
  have hrelog : (e.relog e.log e.pruned).apply h p v = (e.apply h p v).relog e.log e.pruned := relog_apply fun _ _ => rfl
  congrArg (·.engine.pruned) hrelog

/-- A move to another view sends no watermark, and whoever waits for a marker still does. -/
theorem quiet_reconfigure (r : Reconfiguration) : (e.reconfigure h p r).All
    (fun e' => e'.syncing? = e.syncing?) fun x => x.watermark? = none := by
  have hmoved := moved_reconfigure (h := h) (p := p) (e := e) r
  generalize e.reconfigure h p r = s at hmoved
  cases hmoved with
  | stale | follows => exact all_done rfl
  | fails => exact all_fail rfl
  | joins => exact ⟨rfl, fun x hx => by rw [List.mem_singleton.mp hx]; rfl⟩
  | moves hm hn hv hsent =>
    refine ⟨syncing?_finishTransferring _, fun x hx => ?_⟩
    obtain ⟨n, scanId, -, a, -, rfl⟩ := exists_of_mem_sendings (hsent ▸ hx)
    rfl

/-- Applying a value sends no watermark, and only the own marker ends the wait for it. -/
theorem quiet_apply (v : Value) : (e.apply h p v).All
    (fun e' => e'.syncing? = e.syncing? ∨ e'.syncing? = none) fun x => x.watermark? = none := by
  cases v with
  | op op => exact all_applyOp (fun _ => .inl rfl) (fun _ => rfl) fun _ => rfl
  | reconfigure r =>
    obtain ⟨hsync, hx⟩ := quiet_reconfigure (e := e) (h := h) (p := p) r
    exact ⟨.inl hsync, hx⟩
  | scan id range => exact all_emit (.inl rfl) rfl
  | syncedUp id => exact all_syncedUp (.inl rfl) (fun _ _ _ _ => .inr rfl) (fun _ => rfl) rfl
  | noop id => exact all_done (.inl rfl)
  | unknown id tag => exact all_done (.inl rfl)

/-! ### Batches -/

/-- Applies released values. -/
def applyAll (h : Host) : List (Position × Value) → Engine → Step := Step.forEach fun x => apply h x.1 x.2

/-- Applying values moves neither the log nor the last watermark. -/
theorem applyAll_log (l : List (Position × Value)) :
    (applyAll h l e).engine.log = e.log ∧ (applyAll h l e).engine.pruned = e.pruned :=
  (Step.All.forEach (I := fun e' => e'.log = e.log ∧ e'.pruned = e.pruned) (P := fun _ => True) ⟨rfl, rfl⟩
    fun x _ _ he => ⟨⟨(apply_log x.2).trans he.1, (apply_pruned x.2).trans he.2⟩, fun _ _ => trivial⟩).1

theorem applyAll_syncing? (l : List (Position × Value)) :
    (applyAll h l e).engine.syncing? = e.syncing? ∨ (applyAll h l e).engine.syncing? = none := by
  refine (Step.All.forEach (I := fun e' => e'.syncing? = e.syncing? ∨ e'.syncing? = none) (P := fun _ => True)
    (.inl rfl) fun x _ e' he' => ⟨?_, fun _ _ => trivial⟩).1
  rcases (quiet_apply (e := e') (h := h) (p := x.1) x.2).1 with heq | heq
  · rw [heq]
    exact he'
  · exact .inr heq

theorem relog_applyAll {l : List (Position × Value)} (hread : ∀ sync, e.syncing? = some sync → ∀ x ∈ l,
      (log.operationsAfter sync.snapshot).takeWhile (fun y => y.1 < x.1) =
        (e.log.operationsAfter sync.snapshot).takeWhile fun y => y.1 < x.1) :
    applyAll h l (e.relog log pruned) = (applyAll h l e).relog log pruned := by
  induction l generalizing e with
  | nil => rfl
  | cons x l ih =>
    refine Step.relog_andThen (relog_apply fun sync hs => hread sync hs x (.head _)) fun _ => ih fun sync hs y hy => ?_
    rw [apply_log]
    rcases (quiet_apply (e := e) (h := h) (p := x.1) x.2).1 with heq | heq
    · exact hread sync (heq ▸ hs) y (.tail _ hy)
    · cases heq.symm.trans hs

end Engine
end Relog

section Batch
open OperationsLog
variable {calls : List Call} {e : Engine} {h : Host}

/-- What is recorded later does not show among the operations before a position. -/
theorem OperationsLog.takeWhile_operationsAfter {log log' : OperationsLog} {back : List (Position × Value)} {p : Position}
    (hlog : log'.entries.entries = log.entries.entries ++ back) (hback : ∀ x ∈ back, p ≤ x.1) (q : Position) :
    (log'.operationsAfter q).takeWhile (fun x => x.1 < p) = (log.operationsAfter q).takeWhile fun x => x.1 < p := by
  have hnone : ((back.filter fun x => decide (q < x.1)).filterMap operationAt?).takeWhile (fun x => x.1 < p) = [] := by
    refine List.takeWhile_eq_nil_iff.mpr fun hlt hp => ?_
    obtain ⟨x, hx, hop⟩ := List.mem_filterMap.mp (List.getElem_mem hlt)
    have hle := hback x (List.mem_filter.mp hx).1
    rw [← position_of_operationAt? hop] at hle
    exact absurd (of_decide_eq_true hp) (Nat.not_lt.mpr hle)
  have habove : (log'.entries.above q).entries =
      (log.entries.above q).entries ++ back.filter fun x => decide (q < x.1) := by
    show log'.entries.entries.filter _ = _
    rw [hlog, List.filter_append]
    rfl
  rw [operationsAfter_eq, operationsAfter_eq, habove, List.filterMap_append, List.takeWhile_append, hnone,
    List.append_nil]
  split
  · next hlen => exact ((List.takeWhile_prefix _).eq_of_length hlen).symm
  · rfl

namespace Engine

theorem decide_eq (hlog : e.log = after calls) (d : Decision) :
    e.decide h d = applyAll h (releasedBy calls (.insert d.position d.value))
      (e.relog (after (calls ++ [.insert d.position d.value])) e.pruned) := by
  rw [after_concat, ← hlog, releasedBy, ← hlog]
  rfl

/-- The values that decisions release are applied as if all decisions were in the log from the beginning. -/
theorem relog_forEach_decide (hlog : e.log = after calls) (ds : List Decision) (pruned : Position) :
    (Step.forEach (decide h) ds e).relog (after (calls ++ insertions ds)) pruned =
      applyAll h (released calls ds) (e.relog (after (calls ++ insertions ds)) pruned) := by
  induction ds generalizing e calls with
  | nil => rfl
  | cons d ds ih =>
    have hcalls : calls ++ insertions (d :: ds) = calls ++ [.insert d.position d.value] ++ insertions ds := by
      simp [insertions]
    have hordered := released_ordered calls (d :: ds)
    rw [released_cons] at hordered
    rw [hcalls, released_cons, applyAll, Step.forEach_append]
    refine (Step.relog_andThen ?_ fun _ => ?_).symm
    · rw [decide_eq hlog]
      refine relog_applyAll (e := e.relog _ e.pruned) fun sync _ x hx => takeWhile_operationsAfter
        (entries_insertions _ ds) (fun y hy => ?_) sync.snapshot
      exact Nat.le_of_lt ((List.pairwise_append.mp hordered).2.2 x hx y hy)
    · refine (ih ?_).symm
      rw [decide_eq hlog]
      exact (applyAll_log _).1

/-- Without a failure, a batch ends with all of it in the log. -/
theorem forEach_decide_log (hlog : e.log = after calls) {ds : List Decision}
    (hf : (Step.forEach (decide h) ds e).fault? = none) :
    (Step.forEach (decide h) ds e).engine.log = after (calls ++ insertions ds) ∧
      (Step.forEach (decide h) ds e).engine.pruned = e.pruned := by
  induction ds generalizing e calls with
  | nil => exact ⟨by rw [insertions, List.map_nil, List.append_nil]; exact hlog, rfl⟩
  | cons d ds ih =>
    obtain ⟨hd, hds⟩ := Step.fault?_andThen_eq_none_iff.mp hf
    rw [Step.forEach, Step.andThen_of_none hd]
    have hnext := decide_eq (h := h) hlog d
    obtain ⟨hlog', hpruned⟩ := applyAll_log (h := h)
      (e := e.relog (after (calls ++ [.insert d.position d.value])) e.pruned) (releasedBy calls (.insert d.position d.value))
    rw [← hnext] at hlog' hpruned
    obtain ⟨hl, hp⟩ := ih hlog' hds
    refine ⟨?_, hp.trans hpruned⟩
    rw [hl]
    simp [insertions]

/-- A batch of decisions applies what it releases, with all of it in the log. -/
theorem forEach_decide_eq (hlog : e.log = after calls) (ds : List Decision) :
    let s := Step.forEach (decide h) ds e
    let t := applyAll h (released calls ds) (e.relog (after (calls ++ insertions ds)) e.pruned)
    s.fault? = t.fault? ∧ s.effects = t.effects ∧ (s.fault? = none → s = t) := by
  have hrelog := relog_forEach_decide (h := h) hlog ds e.pruned
  refine ⟨congrArg (·.fault?) hrelog, congrArg (·.effects) hrelog, fun hf => ?_⟩
  rw [← hrelog]
  obtain ⟨hl, hp⟩ := forEach_decide_log hlog hf
  rw [← hl, ← hp]
  rfl

end Engine
end Batch
end ReplicaGroup
