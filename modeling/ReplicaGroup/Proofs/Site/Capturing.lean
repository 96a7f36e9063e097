import ReplicaGroup.Proofs.Removal
import ReplicaGroup.Proofs.Site.Order
import ReplicaGroup.Proofs.Site.Shipping

/-! # What a transfer captures

A view change starts a transfer, whose own run asks storage for the capture. Until that is executed the
sender goes on with what is decided after the view change, so any number of its requests may come first.
The ceiling of the capture hides what they write, but not what they remove. -/

namespace ReplicaGroup

/-- Every capture of a transfer that waits in a queue reads the range of the transfer below a ceiling, and
    reads it from a store with the property. -/
def Store.Awaits (outbound : Outbound) (ceiling : Version) (P : Store → Prop) :
    Store → List (Request × Option Requester) → Prop
  | _, [] => True
  | s, q :: rest =>
    (q.2 = some (.transfer outbound.id) → (∃ scanId, q.1 = .scan (.read scanId outbound.range ceiling)) ∧ P s) ∧
      Awaits outbound ceiling P (q.1.execute s).store rest

namespace Store
variable {outbound : Outbound} {ceiling : Version} {P Q : Store → Prop} {s : Store}
  {queue : List (Request × Option Requester)}

theorem Awaits.mono (h : s.Awaits outbound ceiling P queue) (hPQ : ∀ u, P u → Q u) :
    s.Awaits outbound ceiling Q queue := by
  induction queue generalizing s with
  | nil => trivial
  | cons q queue ih => exact ⟨fun hq => ⟨(h.1 hq).1, hPQ s (h.1 hq).2⟩, ih h.2⟩

theorem Awaits.append {later : List (Request × Option Requester)} (h : s.Awaits outbound ceiling P queue)
    (hl : (s.afterAll (queue.map (·.1))).Awaits outbound ceiling P later) :
    s.Awaits outbound ceiling P (queue ++ later) := by
  induction queue generalizing s with
  | nil => exact hl
  | cons q queue ih => exact ⟨h.1, ih h.2 hl⟩

theorem awaits_of_ne (h : ∀ q ∈ queue, q.2 ≠ some (.transfer outbound.id)) : s.Awaits outbound ceiling P queue := by
  induction queue generalizing s with
  | nil => trivial
  | cons q queue ih => exact ⟨fun hq => absurd hq (h q (.head _)), ih fun q' hq' => h q' (.tail _ hq')⟩

/-- Reads that wait one after the other read from the same store. -/
theorem awaits_reads {rs : List Request} {id : TransferId} (hr : ∀ r ∈ rs, r.IsRead)
    (hc : id = outbound.id → ∀ r ∈ rs, ∃ scanId, r = .scan (.read scanId outbound.range ceiling)) (h : P s) :
    s.Awaits outbound ceiling P (rs.map fun r => (r, some (.transfer id))) := by
  induction rs with
  | nil => trivial
  | cons r rs ih =>
    obtain ⟨scanId, range, c, hread⟩ := hr r (.head _)
    have hs : (r.execute s).store = s := hread ▸ Request.execute_read scanId range c s
    refine ⟨fun hid => ⟨hc (by simpa using hid) r (.head _), h⟩, ?_⟩
    rw [hs]
    exact ih (fun r' hr' => hr r' (.tail _ hr')) fun hid r' hr' => hc hid r' (.tail _ hr')

end Store

/-! ### The transfer -/

namespace Transfer
variable {t : Transfer} {links : Links} {now : Nat} {out : Transfer × List Report} {outbound : Outbound}

/-- No run goes back to its start. -/
theorem stage_resume_ne_created (t : Transfer) (turn : Turn Run) (errand : Errand) :
    (t.resume now turn).1.stage ≠ .created errand := by
  intro h
  rw [resume_fst] at h
  cases hp : turn.progress <;> rw [hp] at h <;> cases h

/-- A sender that has started asks for nothing. -/
theorem request?_resume_signal (t : Transfer) (s : Sender) (signal : Signal) :
    (t.resume now ((s.signal links signal).map .sender)).2.filterMap Report.request? = [] := by
  rw [request?_resume]
  refine List.filterMap_eq_nil_iff.mpr ?_
  intro d hd
  obtain ⟨m, rfl⟩ := s.signal_deeds signal d hd
  rfl

/-- At its start a sender asks for the capture, below the version of the view change. -/
theorem captures_of_begin {other : Outbound} {scanId : OpId} {r : Request}
    (hr : r ∈ (t.resume now (t.begin links (.send other scanId))).2.filterMap Report.request?) :
    ∃ version, other.metadata.version? = some version ∧ r = .scan (.read scanId other.range version.pred) := by
  rw [request?_resume] at hr
  obtain ⟨d, hd, hr⟩ := List.mem_filterMap.mp hr
  unfold begin Sender.start at hd
  cases hv : other.metadata.version? with
  | none => simp [hv, Turn.fail, Turn.map] at hd
  | some version =>
    simp only [hv, Turn.requesting] at hd
    split at hd
    · obtain rfl := List.mem_singleton.mp hd
      cases hr
      exact ⟨version, rfl, rfl⟩
    · cases hd

/-- A sending transfer asks for the capture at its start, and for nothing later. -/
theorem captures_of_goes (hr : t.stage.reads = true) (hg : t.Goes links now out) :
    (∀ other scanId, out.1.stage ≠ .created (.send other scanId)) ∧
      ∀ r ∈ out.2.filterMap Report.request?, ∃ other scanId version, t.stage = .created (.send other scanId) ∧
        other.metadata.version? = some version ∧ r = .scan (.read scanId other.range version.pred) := by
  cases hg with
  | @begin errand hs =>
    rw [hs] at hr
    cases errand with
    | receive => cases hr
    | send other scanId =>
      refine ⟨fun _ _ => stage_resume_ne_created _ _ _, ?_⟩
      intro r hr
      obtain ⟨version, hv, hread⟩ := captures_of_begin hr
      exact ⟨other, scanId, version, hs, hv, hread⟩
  | @message run deadline m rest hs hl hm =>
    obtain ⟨s, rfl⟩ := sender_of_reads hs hr
    refine ⟨fun _ _ => stage_resume_ne_created _ _ _, ?_⟩
    intro r hr
    exact absurd (request?_resume_signal { t with mailbox := rest } s _ ▸ hr) List.not_mem_nil
  | @reply run deadline reply hs hl hrep =>
    obtain ⟨s, rfl⟩ := sender_of_reads hs hr
    refine ⟨fun _ _ => stage_resume_ne_created _ _ _, ?_⟩
    intro r hr
    exact absurd (request?_resume_signal { t with reply? := none } s _ ▸ hr) List.not_mem_nil
  | giveUp fault hs =>
    constructor
    · intro other scanId h
      cases h
    · intro r hr
      cases hr
  | stop hs =>
    constructor
    · intro other scanId h
      cases h
    · intro r hr
      cases hr

/-- A transfer that, if it has the identifier, is the one that was started with it. -/
def Sends (outbound : Outbound) (t : Transfer) : Prop :=
  t.id = outbound.id → ∀ other scanId, t.stage = .created (.send other scanId) → other = outbound

end Transfer

/-- An effect that starts no other transfer under an identifier, and none that receives. -/
def Effect.Singles (outbound : Outbound) (x : Effect) : Prop :=
  x.isReceive = false ∧ ∀ other, x.outbound? = some other → other.id = outbound.id → other = outbound

theorem Effect.Spares.singles {outbound : Outbound} {x : Effect} (h : x.Spares outbound.id) : x.Singles outbound :=
  ⟨h.1, fun other ho hid => absurd hid (h.2 other ho)⟩

theorem Effect.Singles.keeps {outbound : Outbound} {x : Effect} (h : x.Singles outbound) (addr : Addr)
    (config : Config) : x.Keeps (Transfer.Sends outbound) addr config := by
  cases x with
  | startSend other scanId =>
    intro hid _ _ hstage
    cases hstage
    exact h.2 _ rfl hid
  | startReceive => cases h.1
  | deliver | stopTransfer | releaseTransfer => exact fun t _ ht => ht
  | propose | prune | upcall | request => trivial

/-! ### The site -/

namespace Site
variable {outbound : Outbound} {ceiling : Version} {base : Store} {n : Nat} {s t : Site} {step : Step} {o : Outside}

/-- What some front of the applications since the first `n` makes of a store. -/
def Past (base : Store) (n : Nat) (s : Site) (store : Store) : Prop :=
  ∃ front, front <+: s.applied.drop n ∧ store = base.afterAll (front.flatMap Application.requests)

/-- A serving site with a transfer whose capture is still to come, or has been executed: below the ceiling
    nothing is written since the first `n` applications. -/
structure Captures (outbound : Outbound) (ceiling : Version) (base : Store) (n : Nat) (s : Site) : Prop where
  serves : s.Serves
  metadata : outbound.metadata.version?.map Version.pred = some ceiling
  since : n ≤ s.applied.length
  stamped : Stamped ceiling (s.applied.drop n)
  newer : ceiling < s.node.engine.version
  below : ∀ a ∈ s.applied.drop n, a.before.version ≤ s.node.engine.version
  flushed : s.flushed = base.afterAll ((s.applied.drop n).flatMap Application.requests)
  queue : s.node.store.Awaits outbound ceiling (s.Past base n) s.node.background.queue
  transfers : ∀ t ∈ s.node.background.transfers, t.Sends outbound
  /-- The identifier is not drawn again. -/
  drawn : ∀ i, s.node.engine.drawn ≤ i → s.node.draw i ≠ outbound.id.number

theorem Past.onward {new : List Application} (ha : t.applied = s.applied ++ new) {store : Store}
    (h : s.Past base n store) (hn : n ≤ s.applied.length) : t.Past base n store := by
  obtain ⟨front, hfront, rfl⟩ := h
  refine ⟨front, ?_, rfl⟩
  rw [ha, List.drop_append_of_le_length hn]
  exact hfront.trans (List.prefix_append ..)

/-- What a site needs of a move, apart from serving on. -/
theorem Captures.onward (hs : s.Captures outbound ceiling base n) {new : List Application} (ht : t.Serves)
    (ho : s.Onward t new) (hqueue : t.node.store.Awaits outbound ceiling (t.Past base n) t.node.background.queue)
    (htransfers : ∀ u ∈ t.node.background.transfers, u.Sends outbound)
    (hdraw : t.node.draw = s.node.draw) (hdrawn : s.node.engine.drawn ≤ t.node.engine.drawn) :
    t.Captures outbound ceiling base n := by
  have hdrop : t.applied.drop n = s.applied.drop n ++ new := by
    rw [ho.applied, List.drop_append_of_le_length hs.since]
  have hbelow : ∀ a ∈ s.applied.drop n ++ new, a.before.version ≤ s.node.engine.version := fun a ha => by
    rcases List.mem_append.mp ha with ha | ha
    · exact hs.below a ha
    · rw [ho.stamped a ha]
      exact UInt32.le_refl _
  refine ⟨ht, hs.metadata, ?_, ⟨?_, ?_⟩, UInt32.lt_of_lt_of_le hs.newer ho.version, ?_, ?_, hqueue, htransfers, ?_⟩
  · rw [ho.applied, List.length_append]
    exact hs.since.trans (Nat.le_add_right ..)
  · intro a ha
    rcases List.mem_append.mp (hdrop ▸ ha) with ha | ha
    · exact hs.stamped.newer a ha
    · exact ho.stamped a ha ▸ hs.newer
  · rw [hdrop]
    refine List.pairwise_append.mpr ⟨hs.stamped.ordered, ?_, fun a ha b hb => ?_⟩
    · refine List.pairwise_of_forall_mem_list fun a ha b hb => ?_
      rw [ho.stamped a ha, ho.stamped b hb]
      exact UInt32.le_refl _
    · rw [ho.stamped b hb]
      exact hs.below a ha
  · exact fun a ha => UInt32.le_trans (hbelow a (hdrop ▸ ha)) ho.version
  · rw [ho.flushed, hs.flushed, hdrop, List.flatMap_append, Store.afterAll_append]
  · exact hdraw ▸ fun i hi => hs.drawn i (hdrawn.trans hi)

theorem Captures.of_eq (hs : s.Captures outbound ceiling base n) (ht : t.Serves)
    (he : t.node.engine = s.node.engine) (hd : t.node.draw = s.node.draw) (hst : t.node.store = s.node.store)
    (hq : t.node.background.queue = s.node.background.queue) (ha : t.applied = s.applied)
    (htransfers : ∀ u ∈ t.node.background.transfers, u.Sends outbound) : t.Captures outbound ceiling base n := by
  have hflushed : t.flushed = s.flushed := by rw [Site.flushed, hst, hq, Site.flushed]
  refine hs.onward ht (.of_eq he hflushed ha) ?_ htransfers hd (he ▸ Nat.le_refl _)
  rw [hst, hq]
  exact hs.queue.mono fun _ hp => hp.onward (ha.trans (List.append_nil _).symm) hs.since

theorem Captures.halt (hs : s.Captures outbound ceiling base n) : s.halt.Captures outbound ceiling base n :=
  hs.of_eq hs.serves.halt rfl rfl rfl (by simp) rfl (Background.forall_releaseAll hs.transfers fun _ h => h)

/-- The engine queues no capture. -/
theorem Captures.take (hs : s.Captures outbound ceiling base n) {r : Site} (hr : r.node = s.node)
    {new : List Application} (ht : (r.take step).Serves) (ho : s.Onward (r.take step) new)
    (hspares : ∀ x ∈ step.effects, x.Spares outbound.id) (hdrawn : s.node.engine.drawn ≤ step.engine.drawn) :
    (r.take step).Captures outbound ceiling base n := by
  refine hs.onward ht ho ?_ ?_ (by rw [take_draw, hr]) (by simpa using hdrawn)
  · rw [take_store, take_queue, hr]
    refine (hs.queue.mono fun _ hp => hp.onward ho.applied hs.since).append (Store.awaits_of_ne fun q hq => ?_)
    obtain ⟨r, -, rfl⟩ := List.mem_map.mp hq
    unfold Request.requester?
    split <;> simp
  · exact forall_take (hr ▸ hs.transfers) (fun _ ht => ht) fun x hx => (hspares x hx).singles.keeps _ _

theorem Captures.take_idle (hs : s.Captures outbound ceiling base n) (h : s.node.engine.Idle step) :
    (s.take step).Captures outbound ceiling base n := by
  obtain ⟨ht, ho⟩ := hs.serves.take_idle h
  exact hs.take rfl ht ho (fun x hx => Effect.spares_of_idle (h.2 x hx) outbound.id) h.1.drawn

theorem Captures.handle (hs : s.Captures outbound ceiling base n) {e : Event} (he : ∀ ds, e ≠ .decide ds) :
    (s.handle e).Captures outbound ceiling base n := by
  have ht := hs.take_idle (Engine.idle_handle (h := s.node.host) he)
  by_cases hstop : e = .stop
  · subst hstop
    exact ht.halt
  · rw [handle_eq_take hstop]
    exact ht

theorem Captures.apply (hs : s.Captures outbound ceiling base n) {e : Position × Value} (hv : e.2.IsFaithful)
    (rest : List (Position × Value)) : (s.apply e rest).Captures outbound ceiling base n := by
  have hw := Engine.served_apply (h := s.node.host) (p := e.1) hs.serves.serving hs.serves.settled hs.serves.storeOpen e.2
  obtain ⟨ht, effects, ho⟩ := hs.serves.apply hv rest
  refine hs.take rfl ht ho (fun x hx => ⟨hw.receive x hx, fun other hother => ?_⟩) hw.drawn
  obtain ⟨i, hi, hid⟩ := hw.sends x hx other hother
  rw [hid]
  exact fun h => hs.drawn i hi (congrArg TransferId.number h)

theorem Captures.execute (hs : s.Captures outbound ceiling base n)
    (ht : Serves { s with node := (s.node.serve 1).1 }) (hq : s.node.background.queue ≠ []) :
    Captures outbound ceiling base n { s with node := (s.node.serve 1).1 } := by
  have hflushed := flushed_execute hq
  obtain ⟨⟨r, requester?⟩, rest, hq⟩ := List.exists_cons_of_ne_nil hq
  rw [Node.serve_one hq] at ht hflushed ⊢
  refine hs.onward ht (.of_eq rfl hflushed rfl) ?_ ?_ rfl (Nat.le_refl _)
  · have hawaits := hs.queue
    rw [hq] at hawaits
    rw [Background.queue_resolve]
    exact hawaits.2
  · exact Background.forall_resolve (P := Transfer.Sends outbound) _ _ hs.transfers fun _ _ h => h

/-- The capture is queued behind everything that was asked of storage before. -/
theorem Captures.transfer (hs : s.Captures outbound ceiling base n) {id : TransferId} {m : Node}
    (hm : s.node.stepTransfer id = some m) (ht : Serves { s with node := m }) :
    Captures outbound ceiling base n { s with node := m } := by
  obtain ⟨u, u', reports, hu, hstep, rfl⟩ := Node.stepTransfer_eq_some hm
  obtain ⟨hmem, huid⟩ := Transfer.of_find? hu
  have hgoes := Transfer.goes_of_step hstep
  have hreads := (Transfer.step_reads (hs.serves.reads u hmem) hstep).2
  obtain ⟨hstage, hrequests⟩ := Transfer.captures_of_goes (hs.serves.reads u hmem) hgoes
  refine hs.onward ht (.of_eq rfl (flushed_queue_reads hreads s _) rfl) ?_ ?_ rfl (Nat.le_refl _)
  · refine hs.queue.append (Store.awaits_reads hreads (fun hid r hr => ?_) ⟨_, List.prefix_rfl, hs.flushed⟩)
    obtain ⟨other, scanId, version, hcreated, hversion, rfl⟩ := hrequests r hr
    obtain rfl := hs.transfers u hmem (huid.trans hid) other scanId hcreated
    have hceiling := hs.metadata
    rw [hversion, Option.map_some, Option.some.injEq] at hceiling
    exact ⟨scanId, by rw [hceiling]⟩
  · exact forall_replaced (fun t ht _ => hs.transfers t ht) fun _ other scanId h => absurd h (hstage other scanId)

/-- Whatever happens, a capture that is executed reads what a front of the later applications has left. -/
theorem Captures.moves (hs : s.Captures outbound ceiling base n) (hm : Moves o s t)
    (hv : ∀ e ∈ s.released, e.2.IsFaithful) : t.Captures outbound ceiling base n := by
  have hserves : t.Serves := (hs.serves.moves hm hv).1
  cases hm with
  | @hear e s' hi he =>
    have hs' : s'.Captures outbound ceiling base n := by
      obtain ⟨notices, rfl⟩ := he.eq
      exact hs.of_eq (hs.serves.of_eq rfl rfl rfl hs.serves.reads) rfl rfl rfl rfl rfl hs.transfers
    exact hs'.handle (not_decide_of_heard he)
  | deliver hi hd => exact hs.of_eq hserves rfl rfl rfl rfl rfl hs.transfers
  | @apply e rest hrun hr => exact hs.apply (hv e (hr ▸ .head _)) rest
  | insert hrun hr hb =>
    exact ⟨hserves, hs.metadata, hs.since, hs.stamped, hs.newer, hs.below, hs.flushed, hs.queue, hs.transfers, hs.drawn⟩
  | finish hrun hr hb =>
    have hs' : Captures outbound ceiling base n { s with batch? := none } :=
      hs.of_eq (hs.serves.of_eq rfl rfl rfl hs.serves.reads) rfl rfl rfl rfl rfl hs.transfers
    exact hs'.take_idle Engine.idle_prune
  | execute hq => exact hs.execute hserves hq
  | transfer hn => exact hs.transfer hn hserves
  | wait ms =>
    exact hs.of_eq hserves rfl rfl rfl (by simp [Node.advance]) rfl (by simpa [Node.advance] using hs.transfers)
  | register ha => exact hs.of_eq hserves rfl rfl rfl rfl rfl hs.transfers

/-! ### From the view change on -/

/-- A serving site that goes on with a view change, which starts a transfer under an identifier of its own. -/
structure StartsTransfer (outbound : Outbound) (p : Position) (r : Reconfiguration) (s : Site) : Prop where
  serves : s.Serves
  released : ∃ rest, s.released = (p, .reconfigure r) :: rest
  starts : ∃ scanId,
    .startSend outbound scanId ∈ (s.node.engine.apply s.node.host p (.reconfigure r)).effects
  singles : ∀ x ∈ (s.node.engine.apply s.node.host p (.reconfigure r)).effects, x.Singles outbound
  drawn : ∀ i, (s.node.engine.apply s.node.host p (.reconfigure r)).engine.drawn ≤ i →
    s.node.draw i ≠ outbound.id.number
  transfers : ∀ t ∈ s.node.background.transfers, t.id ≠ outbound.id
  queue : ∀ q ∈ s.node.background.queue, q.2 ≠ some (.transfer outbound.id)

/-- The transfer has the range of the view change and the version after the one that was in effect. -/
theorem StartsTransfer.metadata {p : Position} {r : Reconfiguration} (hs : s.StartsTransfer outbound p r) :
    outbound.range = r.range ∧ outbound.metadata.version?.map Version.pred = some s.node.engine.version ∧
      s.node.engine.version < (s.node.engine.apply s.node.host p (.reconfigure r)).engine.version := by
  obtain ⟨scanId, hstarts⟩ := hs.starts
  have hstep : s.node.engine.apply s.node.host p (.reconfigure r) =
      s.node.engine.reconfigure s.node.host p r := rfl
  rw [hstep] at hstarts ⊢
  cases hn : r.view.isNewerThan s.node.engine.view with
  | false => rw [Engine.reconfigure_stale hn] at hstarts; cases hstarts
  | true =>
    rw [Engine.reconfigure_serving hs.serves.serving hn] at hstarts ⊢
    cases hv : s.node.engine.version.succ? with
    | none => simp [hv, Engine.fail] at hstarts
    | some version =>
      simp only [hv] at hstarts ⊢
      obtain ⟨i, a, _, -, h⟩ := Engine.exists_getElem?_of_mem_sendings hstarts
      cases h
      refine ⟨rfl, congrArg some (Version.pred_succ hv), ?_⟩
      rw [(Engine.kept_finishTransferring _).version]
      exact Version.lt_succ hv

/-- Right after the view change nothing is applied that the capture must not see. -/
theorem StartsTransfer.apply {p : Position} {r : Reconfiguration} (hs : s.StartsTransfer outbound p r)
    (rest : List (Position × Value)) :
    (s.apply (p, .reconfigure r) rest).Captures outbound s.node.engine.version s.flushed (s.applied.length + 1) := by
  obtain ⟨-, hceiling, hnewer⟩ := hs.metadata
  obtain ⟨ht, effects, ho⟩ := hs.serves.apply (e := (p, .reconfigure r)) (fun op h => by cases h) rest
  have hdrop : (s.apply (p, .reconfigure r) rest).applied.drop (s.applied.length + 1) = [] := by
    rw [ho.applied]
    exact List.drop_eq_nil_of_le (by simp)
  refine .mk ht hceiling ?_ ?_ ?_ ?_ ?_ ?_ ?_ ?_
  · simp [ho.applied]
  · rw [hdrop]
    exact ⟨fun a ha => absurd ha List.not_mem_nil, .nil⟩
  · simpa [Site.apply] using hnewer
  · rw [hdrop]
    exact fun a ha => absurd ha List.not_mem_nil
  · rw [hdrop, ho.flushed]
    rfl
  · refine Store.awaits_of_ne fun q hq => ?_
    simp only [Site.apply, take_queue] at hq
    rcases List.mem_append.mp hq with hq | hq
    · exact hs.queue q hq
    · obtain ⟨request, -, rfl⟩ := List.mem_map.mp hq
      unfold Request.requester?
      split <;> simp
  · exact forall_take (fun t ht hid => absurd hid (hs.transfers t ht)) (fun _ ht => ht)
      fun x hx => (hs.singles x hx).keeps _ _
  · simpa [Site.apply] using hs.drawn

end Site
end ReplicaGroup
