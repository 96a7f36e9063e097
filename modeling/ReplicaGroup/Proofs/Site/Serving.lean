import ReplicaGroup.Proofs.Site.Acts
import ReplicaGroup.Proofs.Table

/-! # Serving sites

A replica that serves writes to its storage only by what it applies. Flushed, that is once everything
queued is executed, its store holds what the applied operations make of the newest values, and no
version newer than that of its engine. -/

namespace ReplicaGroup

/-- The operation that a value is. -/
def Value.operation? : Value → Option Operation
  | .op o => some o
  | _ => none

theorem Value.eq_op_of_operation? {v : Value} {op : Operation} (h : v.operation? = some op) : v = .op op := by
  cases v <;> cases h
  rfl

/-- An operation whose execution does to the newest values what it means on tables, while no stored
    version is newer than its stamp, and brings no newer one. -/
def Operation.IsFaithful (op : Operation) : Prop :=
  ∀ (v : Version) (s : Store), s.UpTo v →
    ((op.request v).execute s).store.newest = (s.newest.run op).1 ∧ ((op.request v).execute s).store.UpTo v

theorem Operation.IsPlain.isFaithful {op : Operation} (h : op.IsPlain) : op.IsFaithful := fun _ _ hs =>
  ⟨(op.execute_request h hs).1, (op.execute_request h hs).2.1⟩

/-- A value whose operation, if it is one, is faithful. -/
def Value.IsFaithful (v : Value) : Prop := ∀ op, v.operation? = some op → op.IsFaithful

theorem Value.IsFaithful.afterAll_requests {v : Value} (hv : v.IsFaithful) {version : Version} {s : Store}
    (hs : s.UpTo version) :
    (s.afterAll (v.requests version)).newest = (s.newest.runAll v.operation?.toList).1 ∧
      (s.afterAll (v.requests version)).UpTo version := by
  cases v with
  | op op => exact hv op rfl version s hs
  | scan id range =>
    have h : s.afterAll [Request.size range] = s := Store.execute_size range s
    simp only [Value.requests, h]
    exact ⟨rfl, hs⟩
  | reconfigure r => exact ⟨rfl, hs⟩
  | syncedUp id => exact ⟨rfl, hs⟩
  | noop id => exact ⟨rfl, hs⟩
  | unknown id tag => exact ⟨rfl, hs⟩

/-- The requests to storage for a value that was applied while serving. -/
def Application.requests (a : Application) : List Request := a.value.requests a.before.version

namespace Store

theorem afterAll_reads {rs : List Request} (h : ∀ r ∈ rs, r.IsRead) (s : Store) : s.afterAll rs = s := by
  induction rs with
  | nil => rfl
  | cons r rs ih =>
    obtain ⟨id, range, ceiling, hr⟩ := h r (.head _)
    have hs : (r.execute s).store = s := hr ▸ Request.execute_read id range ceiling s
    rw [afterAll, List.foldl_cons, hs]
    exact ih fun r hr => h r (.tail _ hr)

/-- Who has asked for a queued request makes no difference to the store. -/
theorem afterAll_queue (s : Store) (queue : List (Request × Option Requester)) (rs : List Request)
    (requester? : Request → Option Requester) :
    s.afterAll ((queue ++ rs.map fun r => (r, requester? r)).map (·.1)) = (s.afterAll (queue.map (·.1))).afterAll rs := by
  have hmap : (rs.map fun r => (r, requester? r)).map (·.1) = rs := by
    rw [List.map_map]
    exact List.map_id rs
  rw [List.map_append, hmap, afterAll_append]

end Store

namespace Site
variable {s t : Site} {step : Step}

/-- The store once everything that is queued now is executed. -/
def flushed (s : Site) : Store := s.node.store.afterAll (s.node.background.queue.map (·.1))

theorem flushed_take : (s.take step).flushed = s.flushed.afterAll (step.effects.filterMap Effect.request?) := by
  rw [flushed, take_store, take_queue, Store.afterAll_queue]
  rfl

theorem flushed_execute (hq : s.node.background.queue ≠ []) :
    flushed { s with node := (s.node.serve 1).1 } = s.flushed := by
  obtain ⟨⟨r, requester?⟩, rest, hq⟩ := List.exists_cons_of_ne_nil hq
  rw [flushed, flushed, Node.serve_one hq, hq]
  simp only [Background.queue_resolve, List.map_cons]
  rfl

/-- Reads that wait behind everything else change nothing. -/
theorem flushed_queue_reads {rs : List Request} (h : ∀ r ∈ rs, r.IsRead) (s : Site) (requester? : Option Requester) :
    s.node.store.afterAll ((s.node.background.queue ++ rs.map fun r => (r, requester?)).map (·.1)) =
      s.flushed := by
  rw [Store.afterAll_queue]
  exact Store.afterAll_reads h _

/-- What holds of a replica that serves. -/
structure Serves (s : Site) : Prop where
  serving : s.node.engine.mode.isServing = true
  /-- It waits for no marker. -/
  settled : s.node.engine.syncing? = none
  storeOpen : s.node.background.storeOpen = true
  /-- No version, stored or queued, is newer than the engine's. -/
  upTo : s.flushed.UpTo s.node.engine.version
  /-- No transfer writes. -/
  reads : ∀ t ∈ s.node.background.transfers, t.stage.reads = true

/-- What a serving site applies when it goes on, and what it queues for it. -/
structure Onward (s t : Site) (new : List Application) : Prop where
  applied : t.applied = s.applied ++ new
  flushed : t.flushed = s.flushed.afterAll (new.flatMap Application.requests)
  newest : t.flushed.newest = (s.flushed.newest.runAll (new.filterMap fun a => a.value.operation?)).1
  version : s.node.engine.version ≤ t.node.engine.version
  stamped : ∀ a ∈ new, a.before = s.node.engine

theorem Serves.of_eq (hs : s.Serves) (he : t.node.engine = s.node.engine) (hf : t.flushed = s.flushed)
    (ho : t.node.background.storeOpen = s.node.background.storeOpen)
    (hr : ∀ u ∈ t.node.background.transfers, u.stage.reads = true) : t.Serves :=
  ⟨he ▸ hs.serving, he ▸ hs.settled, ho ▸ hs.storeOpen, hf ▸ he ▸ hs.upTo, hr⟩

theorem Onward.of_eq (he : t.node.engine = s.node.engine) (hf : t.flushed = s.flushed)
    (ha : t.applied = s.applied) : s.Onward t [] :=
  ⟨by simpa using ha, hf, congrArg _ hf, he ▸ UInt32.le_refl _, by simp⟩

theorem Serves.halt (hs : s.Serves) : s.halt.Serves :=
  ⟨hs.serving, hs.settled, Background.storeOpen_releaseAll.trans hs.storeOpen, by
    simpa [flushed] using hs.upTo, Background.forall_releaseAll hs.reads fun _ h => h⟩

theorem flushed_halt : s.halt.flushed = s.flushed := by simp [flushed]

theorem filterMap_request?_of_idle {e : Engine} (h : e.Idle step) :
    step.effects.filterMap Effect.request? = [] :=
  List.filterMap_eq_nil_iff.mpr fun x hx => by
    have hw := h.2 x hx
    cases x <;> first | rfl | cases hw

theorem reads_take (hr : ∀ u ∈ s.node.background.transfers, u.stage.reads = true)
    (he : ∀ x ∈ step.effects, x.isReceive = false) :
    ∀ u ∈ (s.take step).node.background.transfers, u.stage.reads = true :=
  forall_take hr (fun _ h => h) fun x hx => by
    have hr := he x hx
    cases x with
    | startReceive => cases hr
    | startSend => rfl
    | deliver | stopTransfer | releaseTransfer => exact fun _ _ h => h
    | propose | prune | upcall | request => trivial

/-- A serving site that does no work serves on. -/
theorem Serves.take_idle (hs : s.Serves) (h : s.node.engine.Idle step) :
    (s.take step).Serves ∧ s.Onward (s.take step) [] := by
  have hf : (s.take step).flushed = s.flushed := by rw [flushed_take, filterMap_request?_of_idle h]; rfl
  have hv : (s.take step).node.engine.version = s.node.engine.version := by rw [take_engine, h.1.version]
  have hm : s.node.engine.mode ≠ .catchingUp := fun hm => by
    have := hs.serving
    rw [hm] at this
    cases this
  refine ⟨⟨?_, ?_, take_storeOpen.trans hs.storeOpen, ?_, ?_⟩, ?_⟩
  · rw [take_engine, h.1.isServing, hs.serving]
  · rw [take_engine, h.1.syncing hm, hs.settled]
  · rw [hf, hv]
    exact hs.upTo
  · refine reads_take hs.reads fun x hx => ?_
    have hw := h.2 x hx
    cases x <;> first | rfl | cases hw
  · exact ⟨by simp, hf, congrArg _ hf, hv ▸ UInt32.le_refl _, by simp⟩

/-- A serving site that is told something other than decisions serves on. -/
theorem Serves.handle (hs : s.Serves) {e : Event} (he : ∀ ds, e ≠ .decide ds) :
    (s.handle e).Serves ∧ s.Onward (s.handle e) [] := by
  obtain ⟨ht, ho⟩ := hs.take_idle (Engine.idle_handle (h := s.node.host) he)
  by_cases hstop : e = .stop
  · subst hstop
    exact ⟨ht.halt, ho.applied, flushed_halt.trans ho.flushed, (congrArg _ flushed_halt).trans ho.newest,
      ho.version, by simp⟩
  · rw [handle_eq_take hstop]
    exact ⟨ht, ho⟩

/-- A serving site that applies a value writes what the value asks for. -/
theorem Serves.apply (hs : s.Serves) {e : Position × Value} (hv : e.2.IsFaithful)
    (rest : List (Position × Value)) :
    (s.apply e rest).Serves ∧ ∃ effects, s.Onward (s.apply e rest) [⟨e.1, e.2, s.node.engine, effects⟩] := by
  have hw := Engine.served_apply (h := s.node.host) (p := e.1) hs.serving hs.settled hs.storeOpen e.2
  have hf : (s.apply e rest).flushed = s.flushed.afterAll (e.2.requests s.node.engine.version) := by
    rw [Site.apply, flushed_take, hw.requests]
    rfl
  refine ⟨⟨?_, ?_, ?_, ?_, ?_⟩, (s.node.engine.apply s.node.host e.1 e.2).effects, ?_⟩
  · simpa [Site.apply] using hw.serving
  · simpa [Site.apply] using hw.settled
  · simpa [Site.apply] using hs.storeOpen
  · rw [hf]
    refine (hv.afterAll_requests hs.upTo).2.mono ?_
    simpa [Site.apply] using hw.version
  · exact reads_take hs.reads hw.receive
  · refine ⟨by simp [Site.apply], by simpa [Application.requests] using hf, ?_, ?_, by simp⟩
    · rw [hf]
      refine (hv.afterAll_requests hs.upTo).1.trans ?_
      cases ho : e.2.operation? <;> simp [ho]
    · simpa [Site.apply] using hw.version

/-- A serving site serves on, and what it writes is what it applies. -/
theorem Serves.moves {o : Outside} (hs : s.Serves) (hm : Moves o s t) (hv : ∀ e ∈ s.released, e.2.IsFaithful) :
    t.Serves ∧ ∃ new, s.Onward t new := by
  cases hm with
  | @hear e s' hi he =>
    -- Taking a notice changes nothing that serving is about.
    have hs' : s'.Serves ∧ s.Onward s' [] := by
      cases he <;> exact ⟨hs.of_eq rfl rfl rfl hs.reads, .of_eq rfl rfl rfl⟩
    have he' : s'.node.engine = s.node.engine := by cases he <;> rfl
    obtain ⟨ht, ho⟩ := hs'.1.handle (not_decide_of_heard he)
    refine ⟨ht, [], ?_, ?_, ?_, he' ▸ ho.version, by simp⟩
    · rw [ho.applied, hs'.2.applied, List.append_nil]
    · rw [ho.flushed, hs'.2.flushed]; rfl
    · rw [ho.newest, hs'.2.newest]; rfl
  | deliver hi hd => exact ⟨hs.of_eq rfl rfl rfl hs.reads, [], .of_eq rfl rfl rfl⟩
  | @apply e rest hrun hr =>
    obtain ⟨ht, effects, ho⟩ := hs.apply (hv e (hr ▸ .head _)) rest
    exact ⟨ht, _, ho⟩
  | insert hrun hr hb =>
    exact ⟨⟨hs.serving, hs.settled, hs.storeOpen, hs.upTo, hs.reads⟩, [], by simp [insert], rfl, rfl,
      UInt32.le_refl _, by simp⟩
  | finish hrun hr hb =>
    have hs' : Serves { s with batch? := none } := hs.of_eq rfl rfl rfl hs.reads
    obtain ⟨ht, ho⟩ := hs'.take_idle (Engine.idle_prune (h := s.node.host))
    exact ⟨ht, [], ho.applied, ho.flushed, ho.newest, ho.version, ho.stamped⟩
  | execute hq =>
    have hf := flushed_execute hq
    obtain ⟨⟨r, requester?⟩, rest, hq⟩ := List.exists_cons_of_ne_nil hq
    rw [Node.serve_one hq] at hf ⊢
    have hr := Background.forall_resolve (b := { s.node.background with queue := rest })
      (.response (r.execute s.node.store).response) requester? hs.reads fun _ _ h => h
    exact ⟨hs.of_eq rfl hf (Background.storeOpen_resolve ..) hr, [], .of_eq rfl hf rfl⟩
  | transfer hn =>
    obtain ⟨u, u', reports, hu, hstep, rfl⟩ := Node.stepTransfer_eq_some hn
    obtain ⟨hu', hreads⟩ := Transfer.step_reads (hs.reads u (List.mem_of_find?_eq_some hu)) hstep
    have hf := flushed_queue_reads hreads s
    refine ⟨hs.of_eq rfl (hf _) rfl fun v hv => ?_, [], .of_eq rfl (hf _) rfl⟩
    obtain ⟨w, hw, rfl⟩ := List.mem_map.mp hv
    split
    · exact hu'
    · exact hs.reads w hw
  | wait ms =>
    have hf : flushed { s with node := s.node.advance ms } = s.flushed := by simp [flushed, Node.advance]
    exact ⟨hs.of_eq rfl hf (by simp [Node.advance]) (by simpa [Node.advance] using hs.reads), [],
      .of_eq rfl hf rfl⟩
  | register ha => exact ⟨hs.of_eq rfl rfl rfl hs.reads, [], .of_eq rfl rfl rfl⟩

end Site
end ReplicaGroup
