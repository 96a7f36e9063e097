import ReplicaGroup.Proofs.Engine.Turns
import ReplicaGroup.Proofs.Site.Routing
import ReplicaGroup.Proofs.Store.Stamps
import ReplicaGroup.Proofs.Transfer.Receiving

/-! # The level of a site

All that a site has asked storage to write lies at or below a version, its level, and the next write lies at the
level. It starts at the lowest version. A replica that receives is lifted to the version below the announced one,
its own marker lifts it to the version of its engine, and there it stays. -/

namespace ReplicaGroup

/-! ### Transfers -/

theorem Request.IsRead.stamps {r : Request} (h : r.IsRead) : r.stamps = [] := by
  obtain ⟨id, range, ceiling, rfl⟩ := h
  rfl

/-- Whether a receiver in this phase writes at a version. Before it knows the version, it has not written. -/
def Receiver.Phase.WritesAt (w : Version) : Receiver.Phase → Prop
  | .opening => w = 0
  | .receiving r | .writing r _ => w = r.version.pred ∧ r.announced.metadata.version? = some r.version

/-- Whether a transfer is one that receives and writes at a version, or has ended. -/
def Transfer.Stage.WritesAt (w : Version) : Transfer.Stage → Prop
  | .created .receive => w = 0
  | .running (.receiver s) _ => s.phase.WritesAt w
  | .reported | .stopped => True
  | .created (.send ..) | .running (.sender _) _ => False

namespace Receiver
variable {s : Receiver} {links : Links} {w : Version}

/-- A turn that asks for writes at a version, and ends with no smaller one. -/
structure Writes (w : Version) (turn : Turn Receiver) : Prop where
  waiting : ∀ s, turn.progress = .waiting s → s.phase.WritesAt w
  ended : ∀ m v, turn.progress = .ended (.ok m) → m.version? = some v → w ≤ v
  requests : ∀ r, .request r ∈ turn.deeds → r.WritesAt w

theorem writes_wait (hs : s.phase.WritesAt w) : Writes w (.wait s) := ⟨fun _ h => by cases h; exact hs, nofun, nofun⟩

theorem writes_fail (fault : Fault) : Writes w (.fail fault) := ⟨fun _ h => (by cases h), nofun, nofun⟩

theorem writes_finish {m : Metadata} (h : ∀ v, m.version? = some v → w ≤ v) : Writes w (.finish m) :=
  ⟨fun _ h => (by cases h), fun _ v hm hv => by cases hm; exact h v hv, nofun⟩

theorem writes_awaitData {r : Reception} (hr : r.announced.metadata.version? = some r.version) :
    Writes r.version.pred (s.awaitData links r) := by
  rcases awaitData_cases s links r with ⟨fault, h⟩ | ⟨granted, sent, h, hsent⟩
  · rw [h]
    exact writes_fail fault
  · rw [h]
    refine ⟨fun _ hs => by cases hs; exact ⟨rfl, hr⟩, nofun, fun q hq => ?_⟩
    exact nomatch hsent _ hq

theorem writes_write {r : Reception} (hr : r.announced.metadata.version? = some r.version) (payload : Bytes)
    (last : Bool) : Writes r.version.pred (s.write links r payload last) := by
  unfold Receiver.write Turn.requesting
  split
  · exact writes_fail _
  · split
    · refine ⟨fun _ hs => by cases hs; exact ⟨rfl, hr⟩, nofun, fun q hq => ?_⟩
      cases List.mem_singleton.mp hq
      refine Request.writesAt_snapshot fun q hq => ?_
      obtain ⟨e, -, rfl⟩ := List.mem_map.mp hq
      exact Request.writesAt_put e.1 e.2
    · exact writes_fail _

/-- A receiver goes on to write at its version, and takes the version from the announcement. -/
theorem writes_signal (hs : s.phase.WritesAt w) (links : Links) (signal : Signal) :
    ∃ w', w ≤ w' ∧ Writes w' (s.signal links signal) := by
  unfold Receiver.signal
  split
  · next announced hphase =>
    rw [hphase] at hs
    obtain rfl : w = 0 := hs
    unfold accept
    split
    · next snapshot version _ hversion =>
      exact ⟨version.pred, UInt32.zero_le, writes_awaitData (r := ⟨announced, snapshot, version, 0⟩) hversion⟩
    · exact ⟨0, UInt32.le_refl _, writes_finish fun v _ => UInt32.zero_le⟩
  · next r id chunk payload last hphase =>
    have hphase' := hs
    rw [hphase] at hs
    obtain ⟨rfl, hr⟩ := hs
    refine ⟨_, UInt32.le_refl _, ?_⟩
    split
    · exact writes_write hr payload last
    · exact writes_wait hphase'
  · next r last response hphase =>
    rw [hphase] at hs
    obtain ⟨rfl, hr⟩ := hs
    refine ⟨_, UInt32.le_refl _, ?_⟩
    split
    · exact writes_finish fun v hv => by cases hr.symm.trans hv; exact Version.pred_le _
    · exact writes_awaitData (r := { r with granted := r.granted - 1 }) hr
  · exact ⟨w, UInt32.le_refl _, writes_fail _⟩
  · exact ⟨w, UInt32.le_refl _, writes_wait hs⟩

end Receiver

namespace Transfer
variable {t : Transfer} {links : Links} {now : Nat} {out : Transfer × List Report} {w : Version}

/-- A step of a transfer that asks for writes at a version, and reports no smaller one at its end. -/
structure Writes (w : Version) (out : Transfer × List Report) : Prop where
  stage : out.1.stage.WritesAt w
  requests : ∀ r ∈ out.2.filterMap Report.request?, r.WritesAt w
  completions : ∀ c ∈ out.2.filterMap Report.completion?, out.1.stage.reads = true ∧
    ∀ m v, c.outcome = .ok m → m.version? = some v → w ≤ v

theorem writes_resume {turn : Turn Receiver} (h : Receiver.Writes w turn) :
    Writes w (t.resume now (turn.map .receiver)) := by
  have hdeeds : (turn.map Run.receiver).deeds = turn.deeds := rfl
  constructor
  · rw [resume_fst]
    obtain ⟨s | outcome, deeds⟩ := turn
    · exact h.waiting s rfl
    · trivial
  · intro r hr
    rw [resume_snd] at hr
    obtain ⟨report, hreport, hr⟩ := List.mem_filterMap.mp hr
    rcases List.mem_append.mp hreport with hreport | hreport
    · obtain ⟨d, hd, rfl⟩ := List.mem_map.mp hreport
      cases d with
      | request q => cases hr; exact h.requests _ hd
      | send dest m => cases hr
    · obtain ⟨s | outcome, deeds⟩ := turn
      · cases hreport
      · cases List.mem_singleton.mp hreport
        cases hr
  · intro c hc
    rw [resume_snd] at hc
    rw [resume_fst]
    obtain ⟨report, hreport, hc⟩ := List.mem_filterMap.mp hc
    rcases List.mem_append.mp hreport with hreport | hreport
    · obtain ⟨d, hd, rfl⟩ := List.mem_map.mp hreport
      cases hc
    · obtain ⟨s | outcome, deeds⟩ := turn
      · cases hreport
      · cases List.mem_singleton.mp hreport
        cases hc
        exact ⟨rfl, fun m v hm hv => h.ended m v (congrArg Progress.ended hm) hv⟩

/-- A receiving transfer goes on to write at its version, and once it has ended, at no other. -/
theorem writes_goes (ht : t.stage.WritesAt w) (hg : t.Goes links now out) : ∃ w', w ≤ w' ∧ Writes w' out ∧
    (t.stage.reads = true → w' = w ∧ out.1.stage.reads = true) := by
  cases hg with
  | @begin errand hs =>
    rw [hs] at ht
    cases errand with
    | send outbound scanId => cases ht
    | receive =>
      have h : Receiver.Writes w (.wait ⟨t.config.quota, .opening⟩) := Receiver.writes_wait ht
      refine ⟨w, UInt32.le_refl w, writes_resume h, ?_⟩
      rw [hs]
      exact nofun
  | @message run deadline m rest hs hl hm =>
    rw [hs] at ht
    cases run with
    | sender s => cases ht
    | receiver s =>
      obtain ⟨w', hw, h⟩ := Receiver.writes_signal ht links (.message m)
      refine ⟨w', hw, writes_resume h, ?_⟩
      rw [hs]
      exact nofun
  | @reply run deadline reply hs hl hr =>
    rw [hs] at ht
    cases run with
    | sender s => cases ht
    | receiver s =>
      obtain ⟨w', hw, h⟩ := Receiver.writes_signal ht links reply
      refine ⟨w', hw, writes_resume h, ?_⟩
      rw [hs]
      exact nofun
  | giveUp fault hs =>
    refine ⟨w, UInt32.le_refl w, ⟨trivial, by simp [finish, Report.request?], fun c hc => ?_⟩, fun _ => ⟨rfl, rfl⟩⟩
    cases List.mem_singleton.mp hc
    exact ⟨rfl, fun m v hm => by cases hm⟩
  | stop hs =>
    exact ⟨w, UInt32.le_refl w, ⟨trivial, by simp [Report.request?], by simp [Report.completion?]⟩, fun _ => ⟨rfl, rfl⟩⟩

end Transfer

/-! ### Stages -/

/-- How far a transfer is when an effect starts it. -/
def Effect.stage? : Effect → Option Transfer.Stage
  | startSend outbound scanId => some (.created (.send outbound scanId))
  | startReceive .. => some (.created .receive)
  | _ => none

namespace Background
variable {b : Background} {addr : Addr} {config : Config} {id : TransferId} {f : Transfer → Transfer}

/-- How far the transfers are. -/
def stages (b : Background) : List Transfer.Stage := b.transfers.map (·.stage)

theorem stages_update (hf : ∀ t, (f t).stage = t.stage) : (b.update id f).stages = b.stages := by
  rw [stages, transfers_update, List.map_map, stages]
  refine List.map_congr_left fun t _ => ?_
  dsimp only [Function.comp_apply]
  split
  · exact hf t
  · rfl

theorem stages_releaseAll : b.releaseAll.stages = b.stages := by
  have orphaned : ∀ t : Transfer, { t with orphaned := true }.stage = t.stage := fun _ => rfl
  exact releaseAll_induction (P := fun c => c.stages = b.stages) rfl fun _ _ h => (stages_update orphaned).trans h

theorem stages_resolve (reply : Signal) (requester? : Option Requester) : (b.resolve reply requester?).stages = b.stages := by
  unfold resolve
  split
  · exact stages_update fun _ => rfl
  · rfl
  · rfl

theorem stages_start (t : Transfer) : (b.start t).stages = b.stages ++ [t.stage] := by
  rw [stages, transfers_start, List.map_append]
  rfl

theorem stages_performAll (effects : List Effect) :
    (b.performAll addr config effects).stages = b.stages ++ effects.filterMap Effect.stage? := by
  unfold performAll
  induction effects generalizing b with
  | nil => exact (List.append_nil _).symm
  | cons x effects ih =>
    rw [List.foldl_cons, ih]
    cases x with
    | startSend outbound scanId =>
      rw [perform, Option.getD_some, stages_start, List.append_assoc]
      rfl
    | startReceive id held? =>
      rw [perform, Option.getD_some, stages_update, stages_start, List.append_assoc]
      · rfl
      · exact fun _ => rfl
    | deliver | stopTransfer | releaseTransfer =>
      refine congrArg (· ++ _) (stages_update ?_)
      exact fun _ => rfl
    | propose | prune | upcall | request => rfl

end Background

namespace Node
variable {n m : Node} {w w' : Version}

/-- The versions of what storage was asked to write, in order. -/
def stamps (n : Node) : List Version := n.notices.requests.flatMap Request.stamps

/-! ### Levels -/

/-- A node whose writes, executed or not, are ordered and lie at or below a version. What it has stored lies there if
    all actions stamp what they write. -/
structure Level (w : Version) (n : Node) : Prop where
  stored : (∀ r ∈ n.notices.requests, r.IsStamped) → n.store.UpTo w
  queued : ∀ q ∈ n.background.queue, q.1 ∈ n.notices.requests
  ordered : n.stamps.Pairwise (· ≤ ·)
  reached : ∀ v ∈ n.stamps, v ≤ w

theorem Level.queued_le (hn : n.Level w) {q : Request × Option Requester} (hq : q ∈ n.background.queue) :
    ∀ v ∈ q.1.stamps, v ≤ w := fun v hv => hn.reached v (List.mem_flatMap.mpr ⟨q.1, hn.queued q hq, hv⟩)

theorem level_empty (hstore : n.store = .empty) (hqueue : n.background.queue = []) (hrequests : n.notices.requests = []) :
    n.Level w := by
  have hstamps : n.stamps = [] := by rw [stamps, hrequests, List.flatMap_nil]
  refine ⟨fun _ => hstore ▸ Store.upTo_empty, ?_, hstamps ▸ .nil, ?_⟩
  · rw [hqueue]
    exact fun _ h => absurd h List.not_mem_nil
  · rw [hstamps]
    exact fun _ h => absurd h List.not_mem_nil

/-- Whether all that a node has asked to be written on its way to another state lies at a version. -/
def Writes (w : Version) (n m : Node) : Prop := ∃ later, m.stamps = n.stamps ++ later ∧ ∀ v ∈ later, v = w

/-- More requests lift a node to the version that they write at. -/
theorem Level.queue {rs : List Request} {f : Request → Option Requester} (hn : n.Level w) (hw : w ≤ w')
    (hstore : m.store = n.store) (hqueue : m.background.queue = n.background.queue ++ rs.map fun r => (r, f r))
    (hrequests : m.notices.requests = n.notices.requests ++ rs) (hrs : ∀ r ∈ rs, r.WritesAt w') :
    m.Level w' ∧ n.Writes w' m := by
  have hlater : ∀ v ∈ rs.flatMap Request.stamps, v = w' := fun v hv => by
    obtain ⟨r, hr, hv⟩ := List.mem_flatMap.mp hv
    exact hrs r hr v hv
  have hstamps : m.stamps = n.stamps ++ rs.flatMap Request.stamps := by
    rw [stamps, hrequests, List.flatMap_append]
    rfl
  have hle : ∀ v ∈ n.stamps, v ≤ w' := fun v hv => UInt32.le_trans (hn.reached v hv) hw
  refine ⟨⟨fun h => ?_, fun q hq => ?_, ?_, fun v hv => ?_⟩, _, hstamps, hlater⟩
  · rw [hstore]
    exact (hn.stored fun r hr => h r (hrequests ▸ List.mem_append_left rs hr)).mono hw
  · rw [hqueue] at hq
    rw [hrequests]
    rcases List.mem_append.mp hq with hq | hq
    · exact List.mem_append_left rs (hn.queued q hq)
    · obtain ⟨r, hr, rfl⟩ := List.mem_map.mp hq
      exact List.mem_append_right _ hr
  · rw [hstamps]
    refine List.pairwise_append.mpr ⟨hn.ordered, ?_, fun u hu v hv => hlater v hv ▸ hle u hu⟩
    exact List.pairwise_of_forall_mem_list fun u hu v hv => by rw [hlater u hu, hlater v hv]; exact UInt32.le_refl _
  · rw [hstamps] at hv
    rcases List.mem_append.mp hv with hv | hv
    · exact hle v hv
    · exact hlater v hv ▸ UInt32.le_refl _

theorem Level.execute (hn : n.Level w) (hq : n.background.queue ≠ []) : (n.serve 1).1.Level w := by
  obtain ⟨⟨r, requester?⟩, rest, hq⟩ := List.exists_cons_of_ne_nil hq
  have hmem : (r, requester?) ∈ n.background.queue := hq ▸ .head rest
  rw [serve_one hq]
  refine ⟨fun h => ?_, fun q hmem => ?_, hn.ordered, hn.reached⟩
  · exact Request.upTo_execute r (hn.stored h) (h r (hn.queued _ hmem)) (hn.queued_le hmem)
  · rw [Background.queue_resolve] at hmem
    exact hn.queued q (hq ▸ .tail _ hmem)

/-- Executing a request shows neither in the engine nor in what was asked for, nor in how far transfers are. -/
theorem serve_frame (hq : n.background.queue ≠ []) : (n.serve 1).1.engine = n.engine ∧ (n.serve 1).1.stamps = n.stamps ∧
    (n.serve 1).1.background.stages = n.background.stages ∧ (n.serve 1).1.notices.completed = n.notices.completed := by
  obtain ⟨⟨r, requester?⟩, rest, hq⟩ := List.exists_cons_of_ne_nil hq
  rw [serve_one hq]
  exact ⟨rfl, rfl, Background.stages_resolve .., rfl⟩

/-- A change that shows neither in what storage is told nor in how far transfers are. -/
structure Unwritten (n m : Node) : Prop where
  store : m.store = n.store
  queue : m.background.queue = n.background.queue
  requests : m.notices.requests = n.notices.requests
  stages : m.background.stages = n.background.stages
  completed : m.notices.completed ⊆ n.notices.completed

theorem Unwritten.stamps (h : n.Unwritten m) : m.stamps = n.stamps := congrArg (·.flatMap Request.stamps) h.requests

theorem Unwritten.level (h : n.Unwritten m) (hn : n.Level w) : m.Level w where
  stored hr := h.store ▸ hn.stored (h.requests ▸ hr)
  queued q hq := h.requests ▸ hn.queued q (h.queue ▸ hq)
  ordered := h.stamps ▸ hn.ordered
  reached := h.stamps ▸ hn.reached

theorem Unwritten.trans {k : Node} (h : n.Unwritten m) (h' : m.Unwritten k) : n.Unwritten k where
  store := h'.store.trans h.store
  queue := h'.queue.trans h.queue
  requests := h'.requests.trans h.requests
  stages := h'.stages.trans h.stages
  completed := fun _ hc => h.completed (h'.completed hc)

end Node

namespace Site
variable {s t : Site} {step : Step} {w w' : Version} {o : Outside}

@[simp] theorem take_requests : (s.take step).node.notices.requests =
    s.node.notices.requests ++ step.effects.filterMap Effect.request? := by
  unfold take; split <;> simp [halt, Node.take_fst]

theorem stages_take :
    (s.take step).node.background.stages = s.node.background.stages ++ step.effects.filterMap Effect.stage? := by
  unfold take
  split
  · simp only [halt, Node.take_fst]
    rw [Background.stages_releaseAll, Background.stages_performAll]
  · simp only [Node.take_fst]
    rw [Background.stages_performAll]

/-- What an engine asks for lifts its site to the version that it writes at. -/
theorem level_take (hs : s.node.Level w) (hw : w ≤ w') (hx : ∀ r, .request r ∈ step.effects → r.WritesAt w') :
    (s.take step).node.Level w' ∧ s.node.Writes w' (s.take step).node := by
  refine hs.queue hw take_store take_queue take_requests fun r hr => ?_
  obtain ⟨x, hmem, hr⟩ := List.mem_filterMap.mp hr
  cases x with
  | request q => cases hr; exact hx _ hmem
  | propose | prune | upcall | startSend | startReceive | deliver | stopTransfer | releaseTransfer => cases hr

theorem unwritten_take {e : Engine} (h : e.Idle step) : s.node.Unwritten (s.take step).node := by
  have hstage : step.effects.filterMap Effect.stage? = [] := List.filterMap_eq_nil_iff.mpr fun x hmem => by
    have hno := h.2 x hmem
    cases x <;> first | rfl | cases hno
  refine ⟨take_store, ?_, ?_, ?_, by simp⟩
  · rw [take_queue, filterMap_request?_of_idle h]
    exact List.append_nil _
  · rw [take_requests, filterMap_request?_of_idle h, List.append_nil]
  · rw [stages_take, hstage, List.append_nil]

theorem unwritten_halt (s : Site) : s.node.Unwritten s.halt.node :=
  ⟨rfl, Background.queue_releaseAll, rfl, Background.stages_releaseAll, fun _ h => h⟩

theorem unwritten_handle {e : Event} (he : ∀ ds, e ≠ .decide ds) : s.node.Unwritten (s.handle e).node := by
  have ht : s.node.Unwritten (s.take (s.node.engine.handle s.node.host e)).node :=
    unwritten_take (Engine.idle_handle he)
  by_cases hstop : e = .stop
  · subst hstop
    exact ht.trans (unwritten_halt _)
  · rw [handle_eq_take hstop]
    exact ht

end Site
end ReplicaGroup
