import ReplicaGroup.Proofs.Agreement
import ReplicaGroup.Proofs.Engine.CatchingUp
import ReplicaGroup.Proofs.Site.History
import ReplicaGroup.Proofs.Site.Outbox
import ReplicaGroup.Proofs.Transfer.Receiving

/-! # A site that catches up

Until it serves, a site has at most one transfer, and only that one writes. It waits for an announcement, and
after the cargo's it receives the cargo, in order. What the store holds once everything queued is executed is
what the transfer has asked to be written. A site that has ended, or has taken another announcement, will not
receive the cargo any more. -/

namespace ReplicaGroup
namespace Site
variable {c : Cargo} {s t : Site} {step : Step} {o : Outside}

/-! ### Sites that do not receive the cargo any more -/

/-- A site whose engine has ended before it served. -/
structure Dead (s : Site) : Prop where
  running : s.running = false
  serving : s.node.engine.mode.isServing = false

theorem Dead.moves (hs : s.Dead) (hm : Moves o s t) : t.Dead := by
  have hbusy : s.isIdle ≠ true := fun h => by
    have hrun := running_of_isIdle h
    rw [hs.running] at hrun
    cases hrun
  have hstopped : s.running ≠ true := by simp [hs.running]
  cases hm with
  | hear hi he => exact absurd hi hbusy
  | deliver hi hd => exact absurd hi hbusy
  | apply hrun hr => exact absurd hrun hstopped
  | insert hrun hr hb => exact absurd hrun hstopped
  | finish hrun hr hb => exact absurd hrun hstopped
  | execute hq => exact ⟨hs.running, by simpa using hs.serving⟩
  | transfer hn =>
    obtain ⟨u, u', reports, -, -, rfl⟩ := Node.stepTransfer_eq_some hn
    exact ⟨hs.running, hs.serving⟩
  | wait ms => exact ⟨hs.running, hs.serving⟩
  | register ha => exact ⟨hs.running, hs.serving⟩

/-- A site that starts no more transfer that receives, and has none that could receive the cargo. -/
structure Deaf (c : Cargo) (s : Site) : Prop where
  joined : s.node.engine.mode ≠ .passive
  transfers : ∀ t ∈ s.node.background.transfers, t.stage.IsDeaf c.id

theorem Deaf.halt (hs : s.Deaf c) : s.halt.Deaf c :=
  ⟨hs.joined, Background.forall_releaseAll (P := fun t => t.stage.IsDeaf c.id) hs.transfers fun _ ht => ht⟩

theorem Deaf.take (hs : s.Deaf c) (h : step.All (fun e => e.mode ≠ .passive) fun x => x.isReceive = false) :
    (s.take step).Deaf c := by
  refine ⟨by rw [take_engine]; exact h.1, ?_⟩
  refine forall_take (P := fun t => t.stage.IsDeaf c.id) hs.transfers (fun _ ht => ht) fun x hx => ?_
  have hno := h.2 x hx
  cases x with
  | startReceive => cases hno
  | startSend => trivial
  | deliver | stopTransfer | releaseTransfer => exact fun _ _ ht => ht
  | propose | prune | upcall | request => trivial

theorem Deaf.take_idle (hs : s.Deaf c) (h : s.node.engine.Idle step) : (s.take step).Deaf c := by
  refine hs.take ⟨fun hp => ?_, fun x hx => ?_⟩
  · rcases h.1.mode with hmode | ⟨-, hmode⟩
    · exact hs.joined (hmode.symm.trans hp)
    · rw [hmode] at hp
      cases hp
  · have hno := h.2 x hx
    cases x <;> first | rfl | cases hno

theorem Deaf.moves (hs : s.Deaf c) (hm : Moves o s t) : t.Deaf c := by
  cases hm with
  | @hear e s' hi he =>
    have hs' : s'.Deaf c := by
      obtain ⟨notices, rfl⟩ := he.eq
      exact ⟨hs.joined, hs.transfers⟩
    have ht := hs'.take_idle (Engine.idle_handle (h := s'.node.host) (not_decide_of_heard he))
    by_cases hstop : e = .stop
    · subst hstop
      exact ht.halt
    · rw [handle_eq_take hstop]
      exact ht
  | deliver hi hd => exact ⟨hs.joined, hs.transfers⟩
  | @apply e rest hrun hr =>
    exact Deaf.take (s := { s with released := rest, applied := _ }) ⟨hs.joined, hs.transfers⟩
      (Engine.receives_once hs.joined e.2)
  | insert hrun hr hb => exact ⟨hs.joined, hs.transfers⟩
  | finish hrun hr hb =>
    exact Deaf.take_idle (s := { s with batch? := none }) ⟨hs.joined, hs.transfers⟩ Engine.idle_prune
  | execute hq =>
    obtain ⟨⟨r, requester?⟩, rest, hq⟩ := List.exists_cons_of_ne_nil hq
    rw [Node.serve_one hq]
    exact ⟨hs.joined, Background.forall_resolve (P := fun t => t.stage.IsDeaf c.id) _ _ hs.transfers fun _ _ ht => ht⟩
  | @transfer id n hn =>
    obtain ⟨u, u', reports, hu, hstep, rfl⟩ := Node.stepTransfer_eq_some hn
    have hu' := Transfer.isDeaf_goes (hs.transfers u (List.mem_of_find?_eq_some hu)) (Transfer.goes_of_step hstep)
    exact ⟨hs.joined, forall_replaced (P := fun t => t.stage.IsDeaf c.id) (fun t ht _ => hs.transfers t ht) hu'⟩
  | wait ms => exact ⟨hs.joined, by simpa [Node.advance] using hs.transfers⟩
  | register ha => exact ⟨hs.joined, hs.transfers⟩

/-! ### Waiting sites -/

/-- A running site that does not serve: nothing is pruned, and its engine asks storage for sizes only. -/
structure Waits (s : Site) : Prop where
  running : s.running = true
  serving : s.node.engine.mode.isServing = false
  outgoing : s.node.engine.outgoing = []
  unpruned : s.node.engine.lastSnapshot = 0
  /-- The log has recorded what was released. -/
  recorded : s.node.engine.log.entries.entries = s.applied.map Application.decision ++ s.released
  storeOpen : s.node.background.storeOpen = true
  queue : ∀ q ∈ s.node.background.queue, q.2 = some .engine → ∃ range, q.1 = .size range
  stored : ∀ r ∈ s.node.notices.stored, ∃ range bytes keys, r = .size range bytes keys
  /-- There is at most one transfer. -/
  alone : s.node.background.transfers.length ≤ 1

/-- A change of a site that reaches neither its engine nor anything under way, but for notices that are taken. -/
structure Rests (s t : Site) : Prop where
  running : t.running = s.running
  engine : t.node.engine = s.node.engine
  applied : t.applied = s.applied
  released : t.released = s.released
  store : t.node.store = s.node.store
  queue : t.node.background.queue = s.node.background.queue
  transfers : t.node.background.transfers = s.node.background.transfers
  storeOpen : t.node.background.storeOpen = s.node.background.storeOpen
  stored : t.node.notices.stored ⊆ s.node.notices.stored
  completed : t.node.notices.completed ⊆ s.node.notices.completed
  stopped : t.node.notices.stopped ⊆ s.node.notices.stopped

theorem Rests.flushed (h : s.Rests t) : t.flushed = s.flushed := by rw [Site.flushed, h.store, h.queue, Site.flushed]

theorem Heard.rests {e : Event} (h : Heard o s e t) : s.Rests t := by
  cases h with
  | hear he ho => exact ⟨rfl, rfl, rfl, rfl, rfl, rfl, rfl, rfl, fun _ h => h, fun _ h => h, fun _ h => h⟩
  | response hr =>
    exact ⟨rfl, rfl, rfl, rfl, rfl, rfl, rfl, rfl, (List.eraseIdx_sublist ..).subset, fun _ h => h, fun _ h => h⟩
  | completion hc =>
    exact ⟨rfl, rfl, rfl, rfl, rfl, rfl, rfl, rfl, fun _ h => h, (List.eraseIdx_sublist ..).subset, fun _ h => h⟩
  | stopped hid =>
    exact ⟨rfl, rfl, rfl, rfl, rfl, rfl, rfl, rfl, fun _ h => h, fun _ h => h, (List.eraseIdx_sublist ..).subset⟩

theorem rests_batch (s : Site) (batch? : Option (List Decision)) : s.Rests { s with batch? := batch? } :=
  ⟨rfl, rfl, rfl, rfl, rfl, rfl, rfl, rfl, fun _ h => h, fun _ h => h, fun _ h => h⟩

theorem rests_advance (s : Site) (ms : Nat) : s.Rests { s with node := s.node.advance ms } := by
  obtain ⟨hqueue, htransfers, hopen⟩ := Background.expire_frame (b := s.node.background) (s.node.now + ms)
  exact ⟨rfl, rfl, rfl, rfl, rfl, hqueue, htransfers, hopen, fun _ h => h, fun _ h => h, fun _ h => h⟩

theorem rests_register (s : Site) (addr : Addr) : s.Rests { s with node := s.node.register addr } :=
  ⟨rfl, rfl, rfl, rfl, rfl, rfl, rfl, rfl, fun _ h => h, fun _ h => h, fun _ h => h⟩

theorem Waits.rests (hs : s.Waits) (h : s.Rests t) : t.Waits where
  running := h.running.trans hs.running
  serving := h.engine ▸ hs.serving
  outgoing := h.engine ▸ hs.outgoing
  unpruned := h.engine ▸ hs.unpruned
  recorded := by
    rw [h.engine, h.applied, h.released]
    exact hs.recorded
  storeOpen := h.storeOpen.trans hs.storeOpen
  queue := h.queue ▸ hs.queue
  stored r hr := hs.stored r (h.stored hr)
  alone := h.transfers ▸ hs.alone

theorem Waits.eq_of_mem (hs : s.Waits) {t u : Transfer} (ht : t ∈ s.node.background.transfers)
    (hu : u ∈ s.node.background.transfers) : t = u := by
  have halone := hs.alone
  match h : s.node.background.transfers with
  | [] => rw [h] at ht; cases ht
  | [x] =>
    rw [h] at ht hu
    rw [List.mem_singleton.mp ht, List.mem_singleton.mp hu]
  | x :: y :: rest =>
    rw [h] at halone
    simp at halone

/-- What holds of the transfer after its step, holds of all, since there is no other one. -/
theorem Waits.forall_stepped (hs : s.Waits) {id : TransferId} {u u' : Transfer}
    (hu : s.node.background.transfers.find? (·.id = id) = some u) {P : Transfer → Prop} (h : P u') :
    ∀ t ∈ s.node.background.transfers.map (fun v => if v.id = id then u' else v), P t := by
  obtain ⟨hmem, huid⟩ := Transfer.of_find? hu
  exact forall_replaced (fun t ht hne => absurd (hs.eq_of_mem ht hmem ▸ huid) hne) h

theorem length_take (hf : step.fault? = none) (hx : ∀ x ∈ step.effects, x.IsCalm) :
    (s.take step).node.background.transfers.length = s.node.background.transfers.length := by
  have hlength : ∀ (effects : List Effect) (b : Background), (∀ x ∈ effects, x.IsCalm) →
      (b.performAll s.node.addr s.node.config effects).transfers.length = b.transfers.length := by
    intro effects
    induction effects with
    | nil => exact fun b _ => rfl
    | cons x effects ih =>
      intro b hx
      refine (ih _ fun y hy => hx y (.tail _ hy)).trans ?_
      have hcalm := hx x (.head _)
      cases x with
      | startSend => cases hcalm.outbound
      | startReceive => cases hcalm.receive
      | propose | prune | upcall | request | deliver | stopTransfer | releaseTransfer =>
        simp [Background.perform, Background.submit, Background.deliver, Background.stop, Background.release]
  unfold take
  rw [hf, if_neg (by simp), Node.take_fst]
  exact hlength _ _ hx

/-- Sizes do not change what is stored. -/
theorem afterAll_sizes {rs : List Request} (h : ∀ r ∈ rs, ∃ range, r = .size range) (store : Store) :
    store.afterAll rs = store := by
  induction rs with
  | nil => rfl
  | cons r rs ih =>
    obtain ⟨range, rfl⟩ := h r (.head _)
    show (Request.execute _ store).store.afterAll rs = store
    rw [Store.execute_size]
    exact ih fun r hr => h r (.tail _ hr)

/-- What a waiting site needs of a step of its engine. -/
theorem Waits.take (hs : s.Waits) (hf : step.fault? = none) (hmode : step.engine.mode.isServing = false)
    (hout : step.engine.outgoing = []) (hsnapshot : step.engine.lastSnapshot = 0)
    (hlog : step.engine.log = s.node.engine.log) (hx : ∀ x ∈ step.effects, x.IsCalm) :
    (s.take step).Waits ∧ (s.take step).flushed = s.flushed := by
  have hsizes : ∀ r ∈ step.effects.filterMap Effect.request?, ∃ range, r = .size range := fun r hr => by
    obtain ⟨x, hmem, hr⟩ := List.mem_filterMap.mp hr
    exact (hx x hmem).request r hr
  refine ⟨⟨?_, ?_, ?_, ?_, ?_, take_storeOpen.trans hs.storeOpen, fun q hq _ => ?_, ?_, ?_⟩, ?_⟩
  · rw [take_running, hs.running, hf]
    rfl
  · rw [take_engine, hmode]
  · rw [take_engine, hout]
  · rw [take_engine, hsnapshot]
  · rw [take_engine, take_applied, take_released, hlog, hs.recorded]
  · rw [take_queue] at hq
    rcases List.mem_append.mp hq with hq | hq
    · exact hs.queue q hq ‹_›
    · obtain ⟨r, hr, rfl⟩ := List.mem_map.mp hq
      exact hsizes r hr
  · rw [take_stored]
    exact hs.stored
  · rw [length_take hf hx]
    exact hs.alone
  · rw [flushed_take, afterAll_sizes hsizes]

/-- A site that takes over a step of its engine ends or goes on waiting. -/
theorem Waits.take_or_dead (hs : s.Waits) (hmode : step.engine.mode.isServing = false) (hout : step.engine.outgoing = [])
    (hsnapshot : step.engine.lastSnapshot = 0) (hlog : step.engine.log = s.node.engine.log)
    (hx : ∀ x ∈ step.effects, x.IsCalm) :
    (s.take step).Dead ∨ step.fault? = none ∧ (s.take step).Waits ∧ (s.take step).flushed = s.flushed := by
  cases hf : step.fault? with
  | some fault => exact .inl ⟨by rw [take_running, hf]; exact Bool.and_false _, by rw [take_engine]; exact hmode⟩
  | none => exact .inr ⟨rfl, hs.take hf hmode hout hsnapshot hlog hx⟩

theorem Waits.take_minor (hs : s.Waits) (h : s.node.engine.Minor step) :
    (s.take step).Dead ∨ step.fault? = none ∧ (s.take step).Waits ∧ (s.take step).flushed = s.flushed :=
  hs.take_or_dead (h.1.mode ▸ hs.serving) (h.1.outgoing.trans hs.outgoing) (h.1.lastSnapshot.trans hs.unpruned) h.1.log
    fun x hx => Effect.isCalm_of_isMinor (h.2 x hx)

/-- A waiting site ends when it is stopped and when its engine fails; otherwise it takes over the step. -/
theorem Waits.handle (hs : s.Waits) {e : Event} (hd : ∀ ds, e ≠ .decide ds)
    (hr : ∀ r, e = .stored r → ∃ range bytes keys, r = .size range bytes keys) : (s.handle e).Dead ∨
      (s.node.engine.handle s.node.host e).fault? = none ∧ s.handle e = s.take (s.node.engine.handle s.node.host e) ∧
        (s.handle e).Waits ∧ (s.handle e).flushed = s.flushed ∧
          s.node.engine.Heeds s.node.host e (s.node.engine.handle s.node.host e) := by
  have hheeds := Engine.heeds_handle (h := s.node.host) hs.outgoing hd hr
  obtain ⟨hmode, hout, hsnapshot, hlog, hcalm⟩ := hheeds.calm
  have hserving : (s.node.engine.handle s.node.host e).engine.mode.isServing = false := hmode ▸ hs.serving
  by_cases hstop : e = .stop
  · subst hstop
    refine .inl ⟨rfl, ?_⟩
    rw [engine_handle]
    exact hserving
  · rw [handle_eq_take hstop]
    refine (hs.take_or_dead hserving (hout.trans hs.outgoing) (hsnapshot.trans hs.unpruned) hlog hcalm).imp_right ?_
    exact fun ⟨hf, hwaits, hflushed⟩ => ⟨hf, rfl, hwaits, hflushed, hheeds⟩

/-- A waiting site that goes on with the next value. -/
theorem Waits.next (hs : s.Waits) {e : Position × Value} {rest : List (Position × Value)} (hr : s.released = e :: rest)
    (effects : List Effect) :
    Waits { s with released := rest, applied := s.applied ++ [⟨e.1, e.2, s.node.engine, effects⟩] } := by
  refine ⟨hs.running, hs.serving, hs.outgoing, hs.unpruned, ?_, hs.storeOpen, hs.queue, hs.stored, hs.alone⟩
  rw [hs.recorded, hr]
  simp [Application.decision]

/-- What is released is recorded. -/
theorem Waits.insert (hs : s.Waits) (hf : s.Fed o.decided) (ho : s.Fresh ∨ ∃ first, s.Follows o.decided [] first)
    {d : Decision} {rest : List Decision} (hr : s.released = []) (hb : s.batch? = some (d :: rest)) :
    (s.insert d rest).Waits := by
  have hv : d.value = o.decided d.position := hf _ hb d (.head _)
  have happend : ∀ (log : OperationsLog) (first n k : Nat), log.entries.entries = o.decided.segment first n →
      ((o.decided.segment (first + n) k).foldl (fun m e => m.insert e.1 e.2) log.entries).entries =
        log.entries.entries ++ o.decided.segment (first + n) k := by
    intro log first n k hlog
    have hordered : (log.entries.entries ++ o.decided.segment (first + n) k).Pairwise fun a b => a.1 < b.1 := by
      rw [hlog, Decided.segment_append]
      exact Decided.segment_ordered _
    rw [OrderedMap.foldl_insert_eq hordered]
  refine ⟨hs.running, hs.serving, hs.outgoing, hs.unpruned, ?_, hs.storeOpen, hs.queue, hs.stored, hs.alone⟩
  have hrecorded := hs.recorded
  rw [hr, List.append_nil] at hrecorded
  rcases ho with ho | ⟨first, ho⟩
  · obtain ⟨hready, -, -, hentries⟩ := OperationsLog.insert_of_none (D := o.decided) ho.pending ho.unreleased d.position
    rw [ho.applied] at hrecorded
    simp only [Site.insert, hv, hready, hentries, ho.applied]
    exact (happend s.node.engine.log d.position 0 1 hrecorded).trans (congrArg (· ++ _) hrecorded)
  · obtain ⟨n, hn, hlast⟩ := ho.order
    obtain ⟨k, hready, -, -, hentries⟩ := OperationsLog.insert_of_some ho.agrees hlast d.position
    rw [hr, List.append_nil, List.nil_append] at hn
    simp only [Site.insert, hv, hready, hentries]
    refine (happend s.node.engine.log first (n + 1) k (hrecorded.trans hn)).trans ?_
    rw [hrecorded]
    rfl

theorem Waits.finish (hs : s.Waits) : s.finish = { s with batch? := none }.take s.node.engine.done ∧ s.finish.Waits ∧
    s.finish.flushed = s.flushed := by
  have hfinish : s.finish = { s with batch? := none }.take s.node.engine.done := by
    rw [Site.finish, Engine.prune_eq_done hs.unpruned]
  have hs' : Waits { s with batch? := none } := hs.rests (rests_batch s none)
  refine ⟨hfinish, ?_⟩
  rw [hfinish]
  exact hs'.take rfl hs.serving hs.outgoing hs.unpruned rfl (by simp [Engine.done])

theorem Waits.execute (hs : s.Waits) (hq : s.node.background.queue ≠ []) :
    Waits { s with node := (s.node.serve 1).1 } := by
  obtain ⟨⟨r, requester?⟩, rest, hq⟩ := List.exists_cons_of_ne_nil hq
  rw [Node.serve_one hq]
  refine ⟨hs.running, hs.serving, hs.outgoing, hs.unpruned, hs.recorded, ?_, fun q hmem => ?_, fun response hr => ?_, ?_⟩
  · simpa using hs.storeOpen
  · rw [Background.queue_resolve] at hmem
    exact hs.queue q (hq ▸ .tail _ hmem)
  · rcases List.mem_append.mp hr with hr | hr
    · exact hs.stored response hr
    · split at hr
      · next he =>
        obtain ⟨range, hsize⟩ := hs.queue (r, requester?) (hq ▸ .head rest) he.1
        cases hsize
        cases List.mem_singleton.mp hr
        exact ⟨range, _, _, rfl⟩
      · cases hr
  · have halone := hs.alone
    unfold Background.resolve
    split
    · simpa using halone
    · exact halone
    · exact halone

theorem Waits.transfer (hs : s.Waits) {id : TransferId} {n : Node} (hn : s.node.stepTransfer id = some n) :
    Waits { s with node := n } := by
  obtain ⟨u, u', reports, -, -, rfl⟩ := Node.stepTransfer_eq_some hn
  refine ⟨hs.running, hs.serving, hs.outgoing, hs.unpruned, hs.recorded, hs.storeOpen, fun q hq he => ?_, hs.stored, ?_⟩
  · rcases List.mem_append.mp hq with hq | hq
    · exact hs.queue q hq he
    · obtain ⟨r, -, rfl⟩ := List.mem_map.mp hq
      cases he
  · simpa using hs.alone

/-! ### Before the announcement -/

/-- A site that has not taken any announcement, and can still take the cargo's. -/
structure Awaits (c : Cargo) (s : Site) : Prop where
  waits : s.Waits
  flushed : s.flushed = .empty
  settled : s.node.engine.syncing? = none
  completed : s.node.notices.completed = []
  stopped : s.node.notices.stopped = []
  passive : s.node.engine.mode = .passive → s.node.background.transfers = []
  transfers : ∀ t ∈ s.node.background.transfers, t.Awaits c ∧ s.node.engine.incoming? = some t.id
  held : ∀ announced, s.node.engine.held? = some announced → announced.id = c.id → announced = c.announced

theorem Awaits.not_receiving (hs : s.Awaits c) : ∀ t ∈ s.node.background.transfers, ¬t.stage.IsReceiving c.id :=
  fun t ht => (hs.transfers t ht).1.not_receiving

/-- What a site that awaits the cargo needs of a change that only its transfers notice. -/
theorem Awaits.of_eq (hs : s.Awaits c) (hwaits : t.Waits) (hf : t.flushed = s.flushed)
    (hmode : t.node.engine.mode = s.node.engine.mode) (hsync : t.node.engine.syncing? = s.node.engine.syncing?)
    (hcompleted : t.node.notices.completed = s.node.notices.completed)
    (hstopped : t.node.notices.stopped = s.node.notices.stopped)
    (hlength : t.node.background.transfers.length = s.node.background.transfers.length)
    (htransfers : ∀ u ∈ t.node.background.transfers, u.Awaits c ∧ t.node.engine.incoming? = some u.id)
    (hheld : ∀ announced, t.node.engine.held? = some announced → announced.id = c.id → announced = c.announced) :
    t.Awaits c where
  waits := hwaits
  flushed := hf.trans hs.flushed
  settled := hsync.trans hs.settled
  completed := hcompleted.trans hs.completed
  stopped := hstopped.trans hs.stopped
  passive h := by
    rw [← List.length_eq_zero_iff, hlength, List.length_eq_zero_iff]
    exact hs.passive (hmode.symm.trans h)
  transfers := htransfers
  held := hheld

theorem Awaits.rests (hs : s.Awaits c) (h : s.Rests t) : t.Awaits c where
  waits := hs.waits.rests h
  flushed := h.flushed.trans hs.flushed
  settled := h.engine ▸ hs.settled
  completed := List.eq_nil_of_subset_nil (hs.completed ▸ h.completed)
  stopped := List.eq_nil_of_subset_nil (hs.stopped ▸ h.stopped)
  passive := by
    rw [h.engine, h.transfers]
    exact hs.passive
  transfers := by
    rw [h.engine, h.transfers]
    exact hs.transfers
  held := h.engine ▸ hs.held

theorem Awaits.take (hs : s.Awaits c) (hwaits : (s.take step).Waits) (hflushed : (s.take step).flushed = s.flushed)
    (hf : step.fault? = none) (hx : ∀ x ∈ step.effects, x.IsCalm) (hmode : step.engine.mode = s.node.engine.mode)
    (hsync : step.engine.syncing? = s.node.engine.syncing?) (hin : step.engine.incoming? = s.node.engine.incoming?)
    (hheld : ∀ announced, step.engine.held? = some announced → announced.id = c.id → announced = c.announced)
    (hkeeps : ∀ x ∈ step.effects,
      x.Keeps (fun t => t.Awaits c ∧ s.node.engine.incoming? = some t.id) s.node.addr s.node.config) :
    (s.take step).Awaits c := by
  refine hs.of_eq hwaits hflushed (by rw [take_engine, hmode]) (by rw [take_engine, hsync]) take_completed take_stopped
    (length_take hf hx) ?_ (by rw [take_engine]; exact hheld)
  rw [take_engine, hin]
  exact forall_take hs.transfers (fun t ht => ⟨⟨ht.1.stage, ht.1.mailbox⟩, ht.2⟩) hkeeps

/-- A minor step leaves a site that awaits the cargo awaiting it, unless it fails. -/
theorem Awaits.take_minor (hs : s.Awaits c) (h : s.node.engine.Minor step) :
    (s.take step).Dead ∨ (s.take step).Awaits c := by
  refine (hs.waits.take_minor h).imp_right fun ⟨hf, hwaits, hflushed⟩ => ?_
  refine hs.take hwaits hflushed hf (fun x hx => Effect.isCalm_of_isMinor (h.2 x hx)) h.1.mode h.1.syncing h.1.incoming ?_
    fun x hx => ?_
  · rw [h.1.held]
    exact hs.held
  · exact Effect.keeps_of_isMinor (fun t ht => ⟨⟨ht.1.stage, ht.1.mailbox⟩, ht.2⟩) (h.2 x hx) _ _

/-- A site that awaits the cargo is told something; of the cargo nothing but its announcement. -/
theorem Awaits.handle (hs : s.Awaits c) {e : Event} (hd : ∀ ds, e ≠ .decide ds)
    (hr : ∀ r, e = .stored r → ∃ range bytes keys, r = .size range bytes keys) (hc : ∀ x, e ≠ .completed x)
    (hstop : ∀ id, e ≠ .stopped id) (hm : ∀ m, e = .message m → m.id = c.id → m = .initiate c.announced) :
    (s.handle e).Dead ∨ (s.handle e).Awaits c := by
  rcases hs.waits.handle hd hr with hdead | ⟨hf, htake, hwaits, hflushed, hheeds⟩
  · exact .inl hdead
  · have hcalm := hheeds.calm.2.2.2.2
    rw [htake] at hwaits hflushed ⊢
    generalize s.node.engine.handle s.node.host e = step at hf hwaits hflushed hheeds hcalm
    cases hheeds with
    | minor hminor _ => exact hs.take_minor hminor
    | @holds announced hmode =>
      refine .inr (hs.take hwaits hflushed hf hcalm rfl rfl rfl ?_ (by simp [Engine.done]))
      rintro a ⟨⟩ hid
      exact Message.initiate.inj (hm _ rfl hid)
    | @hands m id hi ho =>
      refine .inr (hs.take hwaits hflushed hf hcalm rfl rfl rfl hs.held fun x hx => ?_)
      cases List.mem_singleton.mp hx
      refine fun t _ ht => ⟨⟨ht.1.stage, fun m' hm' => ?_⟩, ht.2⟩
      rcases List.mem_append.mp hm' with hm' | hm'
      · exact ht.1.mailbox m' hm'
      · cases List.mem_singleton.mp hm'
        exact hm m rfl
    | marks => exact absurd rfl (hc _)
    | releases hi => exact absurd rfl (hstop _)

/-- The replica joins, and starts to wait for an announcement. -/
theorem Awaits.join (hs : s.Awaits c) (hpassive : s.node.engine.mode = .passive) (hf : step.fault? = none)
    (hmode : step.engine.mode = .catchingUp) (hlog : step.engine.log = s.node.engine.log)
    (hsnapshot : step.engine.lastSnapshot = s.node.engine.lastSnapshot)
    (hout : step.engine.outgoing = s.node.engine.outgoing) (hsync : step.engine.syncing? = s.node.engine.syncing?)
    {id : TransferId} (hin : step.engine.incoming? = some id) (hheld : step.engine.held? = none)
    (hx : step.effects = [.startReceive id s.node.engine.held?]) : (s.take step).Awaits c := by
  have htransfers : (s.take step).node.background.transfers =
      [{ Transfer.receiving s.node.addr s.node.config id with
        mailbox := s.node.engine.held?.toList.map .initiate }] := by
    unfold Site.take
    rw [hf, if_neg (by simp), Node.take_fst, hx]
    simp [Background.performAll, Background.perform, hs.passive hpassive, Transfer.receiving]
  have hqueue : (s.take step).node.background.queue = s.node.background.queue := by
    rw [take_queue, hx]
    exact List.append_nil _
  refine ⟨⟨?_, ?_, ?_, ?_, ?_, take_storeOpen.trans hs.waits.storeOpen, ?_, ?_, ?_⟩, ?_, ?_, ?_, ?_, fun h => ?_, ?_, ?_⟩
  · rw [take_running, hs.waits.running, hf]
    rfl
  · rw [take_engine, hmode]
    rfl
  · rw [take_engine, hout, hs.waits.outgoing]
  · rw [take_engine, hsnapshot, hs.waits.unpruned]
  · rw [take_engine, take_applied, take_released, hlog, hs.waits.recorded]
  · rw [hqueue]
    exact hs.waits.queue
  · rw [take_stored]
    exact hs.waits.stored
  · rw [htransfers]
    exact Nat.le_refl 1
  · rw [Site.flushed, take_store, hqueue]
    exact hs.flushed
  · rw [take_engine, hsync, hs.settled]
  · rw [take_completed, hs.completed]
  · rw [take_stopped, hs.stopped]
  · rw [take_engine, hmode] at h
    cases h
  · rw [htransfers, take_engine, hin]
    intro t ht
    cases List.mem_singleton.mp ht
    refine ⟨⟨.inl rfl, fun m hm hid => ?_⟩, rfl⟩
    obtain ⟨announced, ha, rfl⟩ := List.mem_map.mp hm
    rw [hs.held announced (Option.mem_toList.mp ha) hid]
  · rw [take_engine, hheld]
    rintro announced ⟨⟩

/-- A site that awaits the cargo goes on with the next value. -/
theorem Awaits.next (hs : s.Awaits c) {e : Position × Value} {rest : List (Position × Value)}
    (hr : s.released = e :: rest) (effects : List Effect) :
    Awaits c { s with released := rest, applied := s.applied ++ [⟨e.1, e.2, s.node.engine, effects⟩] } :=
  hs.of_eq (hs.waits.next hr effects) rfl rfl rfl rfl rfl rfl hs.transfers hs.held

theorem Awaits.apply (hs : s.Awaits c) {e : Position × Value} {rest : List (Position × Value)}
    (hr : s.released = e :: rest) : (s.apply e rest).Dead ∨ (s.apply e rest).Awaits c := by
  have hs' := hs.next hr (s.node.engine.apply s.node.host e.1 e.2).effects
  have hfollows := Engine.follows_apply (h := s.node.host) (p := e.1) hs.waits.serving hs.waits.storeOpen e.2
  obtain ⟨p, v⟩ := e
  rw [Site.apply]
  generalize s.node.engine.apply s.node.host p v = step at hfollows hs'
  cases hfollows with
  | minor hminor => exact hs'.take_minor hminor
  | joins hm hf hmode hlog hsnapshot hout hsync hin hheld hx =>
    exact .inr (hs'.join hm hf hmode hlog hsnapshot hout hsync hin hheld hx)
  | serves hsync hsettles =>
    rw [hs.settled] at hsync
    cases hsync

end Site
end ReplicaGroup
