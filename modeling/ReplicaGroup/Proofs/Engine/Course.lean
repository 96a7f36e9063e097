import ReplicaGroup.Proofs.Engine.CatchingUp
import ReplicaGroup.Proofs.Engine.Relog

/-! # The course of an engine

An engine starts with nothing, or serves from the beginning as the only replica, and is told one event after
the other until one fails. What it has to prune and to replay changes in three ways only: it captures a write,
it applies its own marker, and storage reports a replayed snapshot. -/

namespace ReplicaGroup

/-- Whether a value writes to storage: a put or a conditional write of several keys. -/
def Value.isWrite : Value → Bool
  | .op o => o.kind = .put ∨ o.kind = .multi
  | _ => false

theorem Operation.request_ne_snapshot (op : Operation) (version : Version) (q : Position) (requests : List Request) :
    op.request version ≠ .snapshot q requests := by
  intro heq
  unfold request at heq
  split at heq <;> cases heq

theorem Rule.find?_of_isServing {mode : Mode} (hm : mode.isServing = true) (op : Operation) :
    Rule.find? mode op.kind = some ⟨.execute, (Value.op op).isWrite⟩ := by
  unfold Value.isWrite
  dsimp only
  cases mode <;> cases hm <;> cases op.kind <;> rfl

namespace Engine
variable {e : Engine} {h : Host} {p : Position} {v : Value}

/-! ### What a value changes -/

/-- A write that is applied while serving is handed to storage, which then holds all writes up to it. -/
theorem applyOp_of_isWrite {op : Operation} (hm : e.mode.isServing = true) (hw : (Value.op op).isWrite = true)
    (hf : (e.applyOp h p op).fault? = none) : (e.applyOp h p op).engine = { e with lastSnapshot := p } ∧
      ∃ told, (e.applyOp h p op).effects = .request (op.request e.version) :: told ∧ ∀ x ∈ told, x.request? = none := by
  unfold applyOp at hf ⊢
  rw [Rule.find?_of_isServing hm, hw] at hf ⊢
  simp only [Rule.initiate, issue, if_true] at hf ⊢
  cases ho : h.storeOpen with
  | false =>
    rw [ho] at hf
    cases (Step.fault?_andThen_eq_none_iff.mp (Step.fault?_andThen_eq_none_iff.mp hf).1).1
  | true =>
    cases ha : op.acknowledgement? with
    | none => exact ⟨rfl, [], rfl, fun x hx => absurd hx List.not_mem_nil⟩
    | some a =>
      cases hu : h.upcallOpen with
      | false =>
        rw [ho] at hf
        have hanswered := (Step.fault?_andThen_eq_none_iff.mp (Step.fault?_andThen_eq_none_iff.mp hf).1).2
        simp [ha, respond, tell, emit, hu, fail] at hanswered
      | true =>
        simp only [respond, tell, emit, hu, Step.andThen, if_true]
        refine ⟨rfl, [.upcall (.answer a)], rfl, fun x hx => ?_⟩
        rw [List.mem_singleton.mp hx]
        rfl

/-- Everything else that a serving replica is asked for leaves it as it is. -/
theorem applyOp_of_not_isWrite {op : Operation} (hm : e.mode.isServing = true) (hw : (Value.op op).isWrite = false) :
    (e.applyOp h p op).All (· = e) fun x => ∀ q requests, x ≠ .request (.snapshot q requests) := by
  unfold applyOp
  rw [Rule.find?_of_isServing hm, hw]
  refine Step.All.andThen (Step.All.andThen ?_ fun e' he => ?_) fun e' he => ?_
  · refine all_emit rfl fun q requests heq => ?_
    injection heq with heq
    exact op.request_ne_snapshot e.version q requests heq
  · dsimp only [Rule.initiate]
    split
    · exact all_emit he fun q requests heq => by cases heq
    · exact all_done he
  · exact all_done he

/-- What an engine does when it applies its own marker. -/
theorem syncedUp_of_marker {sync : Syncing} (hs : e.syncing? = some sync)
    (hf : (e.syncedUp h p sync.marker).fault? = none) :
    let version := max e.version sync.version
    (e.syncedUp h p sync.marker).engine =
        { e with syncing? := none, version, lastSnapshot := sync.snapshot, mode := .active } ∧
      (e.syncedUp h p sync.marker).effects =
        [.request (.snapshot p ({ e with version }.replay sync.snapshot p)), .request (.cleanup e.range sync.version),
          .upcall .synced] := by
  unfold syncedUp at hf ⊢
  rw [hs] at hf ⊢
  cases ho : h.storeOpen <;> cases hu : h.upcallOpen <;>
    simp [issue, tell, emit, ho, hu, Step.andThen, fail] at hf ⊢
  rfl

theorem syncedUp_of_other {marker : OpId} (hs : ∀ sync, e.syncing? = some sync → sync.marker ≠ marker) :
    e.syncedUp h p marker = e.done := by
  unfold syncedUp
  split
  · rfl
  · next sync hsync => rw [if_neg (hs sync hsync)]

/-- How applying a value changes what an engine has to prune and to replay, if it does not fail. -/
inductive Applied (p : Position) (e : Engine) : Value → Step → Prop
  /-- Nothing is written; a replica that waits may join. -/
  | passes {v : Value} {s : Step} (isServing : s.engine.mode.isServing = e.mode.isServing)
    (catchingUp : e.mode = .catchingUp → s.engine.mode = .catchingUp) (syncing : s.engine.syncing? = e.syncing?)
    (lastSnapshot : s.engine.lastSnapshot = e.lastSnapshot) (hv : e.mode.isServing = true → v.isWrite = false)
    (hx : ∀ x ∈ s.effects, ∀ q requests, x ≠ .request (.snapshot q requests)) : Applied p e v s
  | captures {op : Operation} {s : Step} {told : List Effect} (hm : e.mode.isServing = true)
    (hw : (Value.op op).isWrite = true) (he : s.engine = { e with lastSnapshot := p })
    (hx : s.effects = .request (op.request e.version) :: told) (htold : ∀ x ∈ told, x.request? = none) :
    Applied p e (.op op) s
  /-- The own marker makes a replica serve, and replay what it has missed. -/
  | settles {sync : Syncing} {s : Step} {version : Version} (hs : e.syncing? = some sync)
    (he : s.engine = { e with syncing? := none, version, lastSnapshot := sync.snapshot, mode := .active })
    (hx : s.effects = [.request (.snapshot p ({ e with version }.replay sync.snapshot p)),
      .request (.cleanup e.range sync.version), .upcall .synced]) : Applied p e (.syncedUp sync.marker) s

theorem applied_of_minor {s : Step} (hs : e.Minor s) (hv : e.mode.isServing = true → v.isWrite = false) :
    Applied p e v s :=
  .passes (by rw [hs.1.mode]) (fun hm => hs.1.mode.trans hm) hs.1.syncing hs.1.lastSnapshot hv
    fun x hx q requests heq => by
      have hminor := hs.2 x hx
      rw [heq] at hminor
      cases hminor

theorem applied_reconfigure (r : Reconfiguration) : Applied p e (.reconfigure r) (e.reconfigure h p r) := by
  have hmoved := moved_reconfigure (h := h) (p := p) (e := e) r
  generalize e.reconfigure h p r = s at hmoved
  cases hmoved with
  | stale => exact applied_of_minor minor_done fun _ => rfl
  | fails => exact applied_of_minor (all_fail ⟨rfl, rfl, rfl, rfl, rfl, rfl, rfl⟩) fun _ => rfl
  | follows => exact applied_of_minor (all_done ⟨rfl, rfl, rfl, rfl, rfl, rfl, rfl⟩) fun _ => rfl
  | joins hm hn hv =>
    refine .passes (by rw [hm]; rfl) (fun _ => rfl) rfl rfl (fun _ => rfl) fun x hx q requests heq => ?_
    rw [heq] at hx
    cases List.mem_singleton.mp hx
  | moves hm hn hv hsent =>
    refine .passes ((kept_finishTransferring _).isServing.trans hm.symm) (fun hc => ?_) (syncing?_finishTransferring _)
      ?_ (fun _ => rfl) fun x hx q requests heq => ?_
    · rw [hc] at hm
      cases hm
    · unfold finishTransferring
      dsimp only
      split <;> rfl
    · obtain ⟨n, scanId, -, a, -, hx⟩ := exists_of_mem_sendings (hsent ▸ hx)
      rw [heq] at hx
      cases hx

theorem applied_apply (hf : (e.apply h p v).fault? = none) : Applied p e v (e.apply h p v) := by
  cases v with
  | op op =>
    cases hm : e.mode.isServing with
    | false => exact applied_of_minor (minor_applyOp hm op) fun h => by rw [hm] at h; cases h
    | true =>
      cases hw : (Value.op op).isWrite with
      | false =>
        obtain ⟨he, hx⟩ := applyOp_of_not_isWrite (h := h) (p := p) hm hw
        exact .passes (by rw [show (e.apply h p (.op op)).engine = e from he])
          (fun hc => (congrArg mode he).trans hc) (congrArg syncing? he) (congrArg lastSnapshot he) (fun _ => hw) hx
      | true =>
        obtain ⟨he, told, hx, htold⟩ := applyOp_of_isWrite hm hw hf
        exact .captures hm hw he hx htold
  | reconfigure r => exact applied_reconfigure r
  | scan id range => exact applied_of_minor (all_emit (.refl e) rfl) fun _ => rfl
  | syncedUp id =>
    by_cases hs : ∃ sync, e.syncing? = some sync ∧ sync.marker = id
    · obtain ⟨sync, hs, rfl⟩ := hs
      obtain ⟨he, hx⟩ := syncedUp_of_marker hs hf
      exact .settles hs he hx
    · have hdone : e.apply h p (.syncedUp id) = e.done :=
        syncedUp_of_other fun sync hsync hmarker => hs ⟨sync, hsync, hmarker⟩
      exact hdone ▸ applied_of_minor minor_done fun _ => rfl
  | noop id => exact applied_of_minor minor_done fun _ => rfl
  | unknown id tag => exact applied_of_minor minor_done fun _ => rfl

/-! ### What an event changes -/

/-- What an engine keeps that an event gives nothing new to prune. It waits for a new marker only when a transfer that
    it receives has completed. -/
structure Calm (event : Event) (e e' : Engine) : Prop where
  log : e'.log = e.log
  lastSnapshot : e'.lastSnapshot = e.lastSnapshot
  pruned : e'.pruned = e.pruned
  syncing : e'.syncing? = e.syncing? ∨ ∃ c sync, event = .completed c ∧ c.role = .receive ∧
    c.outcome = .ok ⟨some sync.snapshot, some sync.version⟩ ∧ e'.syncing? = some sync

theorem Calm.refl (event : Event) (e : Engine) : e.Calm event e := ⟨rfl, rfl, rfl, .inl rfl⟩

theorem calm_finishTransferring (event : Event) (e : Engine) : e.Calm event e.finishTransferring := by
  unfold finishTransferring
  split <;> exact ⟨rfl, rfl, rfl, .inl rfl⟩

theorem calm_finishTransfer (c : Completion) :
    (e.finishTransfer h c).All (e.Calm (.completed c)) fun x => x.watermark? = none := by
  cases finishes_finishTransfer (h := h) (e := e) c with
  | stops he hx =>
    refine ⟨by rw [he]; exact .refl _ e, fun x hmem => ?_⟩
    rw [hx x hmem]
    rfl
  | @marks sync hm hrole hin hc hmarker he hx hproposed =>
    refine ⟨?_, fun x hmem => ?_⟩
    · rw [he]
      exact ⟨rfl, rfl, rfl, .inr ⟨c, sync, rfl, hrole, hc, rfl⟩⟩
    · rcases hx x hmem with rfl | rfl <;> rfl

theorem calm_stored {r : Response} (hs : ∀ q, r ≠ .snapshot q) :
    (e.stored h r).All (e.Calm (.stored r)) fun x => x.watermark? = none := by
  refine Step.All.andThen (f := finishRequest h r) ?_ ?_
  · split
    · exact all_emit (.refl _ e) rfl
    · exact all_done (.refl _ e)
  · intro e' he
    cases r with
    | snapshot q => exact absurd rfl (hs q)
    | done => exact all_done he
    | get | scan | multi | size | failed => exact all_emit he rfl

theorem calm_route (m : Message) : (e.route h m).All (e.Calm (.message m)) fun x => x.watermark? = none := by
  unfold route
  split
  · split
    · exact all_emit (.refl _ e) rfl
    · exact all_done (.refl _ e)
  · exact all_done ⟨rfl, rfl, rfl, .inl rfl⟩
  · split
    · exact all_emit (.refl _ e) rfl
    · exact all_done (.refl _ e)

theorem calm_releaseTransfer (id : TransferId) :
    (e.releaseTransfer id).All (e.Calm (.stopped id)) fun x => x.watermark? = none := by
  have releases : ∀ {e' : Engine}, e.Calm (.stopped id) e' →
      Step.All (e.Calm (.stopped id)) (fun x => x.watermark? = none)
        { engine := e', effects := [.releaseTransfer id] } := by
    intro e' he
    refine ⟨he, ?_⟩
    intro x hx
    obtain rfl := List.mem_singleton.mp hx
    rfl
  unfold releaseTransfer
  split
  · obtain ⟨hlog, hlast, hpruned, hsync⟩ :=
      calm_finishTransferring (.stopped id) { e with outgoing := e.outgoing.filter (· ≠ id) }
    exact releases ⟨hlog, hlast, hpruned, hsync⟩
  · split
    · exact releases ⟨rfl, rfl, rfl, .inl rfl⟩
    · exact all_done (.refl _ e)

/-- Only decisions and replayed snapshots give an engine something to prune. -/
theorem calm_handle {event : Event} (hd : ∀ ds, event ≠ .decide ds) (hs : ∀ q, event ≠ .stored (.snapshot q)) :
    (e.handle h event).All (e.Calm event) fun x => x.watermark? = none := by
  cases event with
  | submit op =>
    show (e.submit h op).All _ _
    unfold submit
    split
    · exact all_done (.refl _ e)
    · split <;> exact all_emit (.refl _ e) rfl
  | decide ds => exact absurd rfl (hd ds)
  | changeView change =>
    show (e.proposeView h change).All _ _
    unfold proposeView
    split
    · exact all_emit ⟨rfl, rfl, rfl, .inl rfl⟩ rfl
    · exact all_done (.refl _ e)
  | measure range => exact all_emit ⟨rfl, rfl, rfl, .inl rfl⟩ rfl
  | stored r => exact calm_stored fun q heq => hs q (congrArg Event.stored heq)
  | message m => exact calm_route m
  | completed c => exact calm_finishTransfer c
  | stopped id => exact calm_releaseTransfer id
  | stop =>
    refine ⟨.refl _ e, ?_⟩
    intro x hx
    obtain ⟨id, -, rfl⟩ := List.mem_map.mp hx
    rfl

/-- An event brings decisions, reports a replay, or gives nothing to prune. -/
theorem event_cases (event : Event) : (∃ ds, event = .decide ds) ∨ (∃ q, event = .stored (.snapshot q)) ∨
    (∀ ds, event ≠ .decide ds) ∧ ∀ q, event ≠ .stored (.snapshot q) := by
  by_cases hd : ∃ ds, event = .decide ds
  · exact .inl hd
  · by_cases hs : ∃ q, event = .stored (.snapshot q)
    · exact .inr (.inl hs)
    · exact .inr (.inr ⟨not_exists.mp hd, not_exists.mp hs⟩)

/-- An engine that has pruned what storage holds. -/
def trimmed (e : Engine) : Engine :=
  if e.lastSnapshot ≤ e.pruned then e else e.relog (e.log.prune e.lastSnapshot) e.lastSnapshot

theorem prune_of_le (hs : e.lastSnapshot ≤ e.pruned) : e.prune h = e.done := if_pos hs

theorem prune_of_lt (hs : e.pruned < e.lastSnapshot) :
    e.prune h = e.trimmed.emit h.logOpen (.prune e.lastSnapshot) := by
  unfold prune trimmed
  rw [if_neg (Nat.not_le.mpr hs), if_neg (Nat.not_le.mpr hs)]
  rfl

theorem trimmed_of_le (hs : e.lastSnapshot ≤ e.pruned) : e.trimmed = e := if_pos hs

theorem trimmed_of_lt (hs : e.pruned < e.lastSnapshot) :
    e.trimmed = e.relog (e.log.prune e.lastSnapshot) e.lastSnapshot := if_neg (Nat.not_le.mpr hs)

theorem fault?_prune_eq_none_iff :
    (e.prune h).fault? = none ↔ e.lastSnapshot ≤ e.pruned ∨ h.logOpen = true := by
  rcases Nat.lt_or_ge e.pruned e.lastSnapshot with hs | hs
  · rw [prune_of_lt hs]
    cases ho : h.logOpen <;> simp [emit, fail, Nat.not_le.mpr hs]
  · exact iff_of_true (by rw [prune_of_le hs]; rfl) (.inl hs)

theorem engine_prune (hf : (e.prune h).fault? = none) : (e.prune h).engine = e.trimmed := by
  rcases Nat.lt_or_ge e.pruned e.lastSnapshot with hs | hs
  · rw [prune_of_lt hs] at hf ⊢
    unfold emit at hf ⊢
    split at hf
    · next ho => rw [if_pos ho]
    · cases hf
  · rw [prune_of_le hs, trimmed_of_le hs]
    rfl

/-- A replayed snapshot is taken into account, and pruned. -/
theorem handle_snapshot (q : Position) :
    e.handle h (.stored (.snapshot q)) = { e with lastSnapshot := max e.lastSnapshot q }.prune h := by
  show (e.done.andThen (finishRequest h (.snapshot q))) = _
  exact Step.andThen_of_none rfl

/-! ### All events -/

/-- An engine as it begins: with nothing, or as the only replica that serves. -/
inductive Starts : Engine → Prop
  | joining : Starts {}
  | serving (h : Host) (change : ViewChange) : Starts (bootstrap h change {}).engine

/-- Tells an engine one event after the other, until one fails. -/
def course (told : List (Host × Event)) : Engine → Step := Step.forEach (fun t e => e.handle t.1 t.2) told

/-- What holds of an engine between two events: its log is told by calls, there is nothing to prune, and only a
    replica that catches up waits for its marker. -/
structure Ready (calls : List OperationsLog.Call) (e : Engine) : Prop where
  log : e.log = .after calls
  pruned : e.lastSnapshot ≤ e.pruned
  syncing : e.syncing?.isSome → e.mode = .catchingUp

section Ready
open OperationsLog
variable {calls : List Call}

theorem Starts.ready (hs : e.Starts) : Ready [] e := by
  cases hs with
  | joining => exact ⟨rfl, Nat.le_refl 0, nofun⟩
  | serving host change =>
    have hengine : (bootstrap host change {}).engine =
        { view := change.view, quorum := change.quorum, range := change.range, version := 1, mode := .active } := by
      show (emit host.upcallOpen _ _).engine = _
      cases host.upcallOpen <;> rfl
    rw [hengine]
    exact ⟨rfl, Nat.le_refl 0, nofun⟩

/-- What holds at the beginning and survives the application of each value holds in the end. -/
theorem applyAll_invariant {I : List Effect → List (Position × Value) → Engine → Prop} {l : List (Position × Value)}
    (done : List Effect) (hf : (applyAll h l e).fault? = none) (he : I done l e)
    (hstep : ∀ done x later e, (e.apply h x.1 x.2).fault? = none → I done (x :: later) e →
      I (done ++ (e.apply h x.1 x.2).effects) later (e.apply h x.1 x.2).engine) :
    I (done ++ (applyAll h l e).effects) [] (applyAll h l e).engine := by
  induction l generalizing done e with
  | nil => exact (List.append_nil done).symm ▸ he
  | cons x l ih =>
    obtain ⟨hx, hl⟩ := Step.fault?_andThen_eq_none_iff.mp hf
    rw [applyAll, Step.forEach, Step.andThen_of_none hx, ← List.append_assoc]
    exact ih _ hl (hstep _ _ _ _ hx he)

theorem applyAll_induction {I : List Effect → List (Position × Value) → Engine → Prop} {l : List (Position × Value)}
    (done : List Effect) (hf : (applyAll h l e).fault? = none) (he : I done l e)
    (hstep : ∀ done x later e s, Applied x.1 e x.2 s → s.engine.log = e.log → s.engine.pruned = e.pruned →
      I done (x :: later) e → I (done ++ s.effects) later s.engine) :
    I (done ++ (applyAll h l e).effects) [] (applyAll h l e).engine :=
  applyAll_invariant done hf he fun _ _ _ _ hx hi => hstep _ _ _ _ _ (applied_apply hx) (apply_log _) (apply_pruned _) hi

theorem Applied.syncing {s : Step} (ha : Applied p e v s) (hs : e.syncing?.isSome → e.mode = .catchingUp) :
    s.engine.syncing?.isSome → s.engine.mode = .catchingUp := by
  cases ha with
  | passes isServing catchingUp syncing lastSnapshot hv hx => exact fun h => catchingUp (hs (syncing ▸ h))
  | captures hm hw he hx htold => rw [he]; exact hs
  | settles hsync he hx => rw [he]; exact nofun

/-- Whoever waits for a marker catches up, after any number of values. -/
theorem applyAll_syncing {l : List (Position × Value)} (hf : (applyAll h l e).fault? = none)
    (hs : e.syncing?.isSome → e.mode = .catchingUp) :
    (applyAll h l e).engine.syncing?.isSome → (applyAll h l e).engine.mode = .catchingUp := by
  refine applyAll_induction (I := fun _ _ e => e.syncing?.isSome → e.mode = .catchingUp) [] hf hs ?_
  intro done x later e s ha _ _ hs
  exact ha.syncing hs

theorem ready_trimmed_of_lt (hlog : e.log = after calls) (hsync : e.syncing?.isSome → e.mode = .catchingUp)
    (hs : e.pruned < e.lastSnapshot) : Ready (calls ++ [.prune e.lastSnapshot]) e.trimmed := by
  rw [trimmed_of_lt hs]
  refine ⟨?_, Nat.le_refl _, hsync⟩
  rw [after_concat, ← hlog]
  rfl

/-- After a prune an engine is ready, and the log has been called with the same values. -/
theorem exists_ready_trimmed (hlog : e.log = after calls) (hsync : e.syncing?.isSome → e.mode = .catchingUp) :
    ∃ calls', Ready calls' e.trimmed ∧ start? calls' = start? calls ∧ earliest? calls' = earliest? calls := by
  rcases Nat.lt_or_ge e.pruned e.lastSnapshot with hs | hs
  · exact ⟨_, ready_trimmed_of_lt hlog hsync hs, start?_concat_prune .., funext fun _ => earliest?_concat_prune ..⟩
  · exact ⟨calls, by rw [trimmed_of_le hs]; exact ⟨hlog, hs, hsync⟩, rfl, rfl⟩

/-- What a batch does, when it does not fail. -/
theorem handle_decide_eq (hlog : e.log = after calls) {ds : List Decision}
    (hf : (e.handle h (.decide ds)).fault? = none) :
    let t := applyAll h (released calls ds) (e.relog (after (calls ++ insertions ds)) e.pruned)
    t.fault? = none ∧ e.handle h (.decide ds) = t.andThen (prune h) := by
  obtain ⟨hds, -⟩ := Step.fault?_andThen_eq_none_iff.mp hf
  obtain ⟨hfault, -, heq⟩ := forEach_decide_eq (h := h) hlog ds
  exact ⟨hfault ▸ hds, congrArg (Step.andThen · (prune h)) (heq hds)⟩

theorem Ready.handle (hr : e.Ready calls) {event : Event} (hf : (e.handle h event).fault? = none) :
    ∃ calls, Ready calls (e.handle h event).engine := by
  rcases event_cases event with ⟨ds, rfl⟩ | ⟨q, rfl⟩ | ⟨hd, hs⟩
  · obtain ⟨ht, heq⟩ := handle_decide_eq hr.log hf
    have hprune : (prune h (applyAll h _ _).engine).fault? = none := (Step.fault?_andThen_eq_none_iff.mp (heq ▸ hf)).2
    rw [heq, Step.andThen_of_none ht]
    dsimp only
    rw [engine_prune hprune]
    obtain ⟨calls', hr', -⟩ := exists_ready_trimmed (applyAll_log _).1 (applyAll_syncing ht hr.syncing)
    exact ⟨calls', hr'⟩
  · rw [handle_snapshot] at hf ⊢
    rw [engine_prune hf]
    obtain ⟨calls', hr', -⟩ := exists_ready_trimmed (e := { e with lastSnapshot := max e.lastSnapshot q }) hr.log
      hr.syncing
    exact ⟨calls', hr'⟩
  · obtain ⟨hcalm, -⟩ := calm_handle (h := h) (e := e) hd hs
    obtain ⟨hkept, -⟩ := obeys_handle (h := h) (e := e) hd
    refine ⟨calls, hcalm.log.trans hr.log, ?_, ?_⟩
    · rw [hcalm.lastSnapshot, hcalm.pruned]
      exact hr.pruned
    · intro hsome
      by_cases hm : e.mode = .catchingUp
      · exact hkept.catchingUp_iff.mpr hm
      · exact absurd (hr.syncing (hkept.syncing hm ▸ hsome)) hm

/-- An engine is ready between any two events. -/
theorem Ready.course (hr : e.Ready calls) {told : List (Host × Event)} (hf : (e.course told).fault? = none) :
    ∃ calls, Ready calls (e.course told).engine := by
  induction told generalizing e calls with
  | nil => exact ⟨calls, hr⟩
  | cons t told ih =>
    obtain ⟨ht, htold⟩ := Step.fault?_andThen_eq_none_iff.mp hf
    obtain ⟨calls', hr'⟩ := hr.handle ht
    rw [Engine.course, Step.forEach, Step.andThen_of_none ht]
    exact ih hr' htold

end Ready

/-! ### A replica that joins -/

/-- A replica whose channels are open. -/
def openHost : Host := ⟨.name "b", .ofNat, true, true, true, fun _ => true⟩

/-- A replica joins, and has received the state as of a position; its marker is the value with identifier 1. -/
def receivedUpTo (snapshot : Position) : List (Host × Event) :=
  [(openHost, .decide [⟨1, .reconfigure ⟨⟨7⟩, ⟨2, .ofList [.name "a", .name "b"]⟩, 2, 0, .full⟩⟩]),
    (openHost, .completed ⟨⟨0⟩, .receive, .ok ⟨some snapshot, some 1⟩⟩)]

/-- A put of one key. -/
def onePut (p : Position) : Decision := ⟨p, .op ⟨⟨.ofNat (100 + p)⟩, .put ⟨[.ofNat p]⟩ [1]⟩⟩

end Engine
end ReplicaGroup
