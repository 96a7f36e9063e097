import ReplicaGroup.Proofs.Site.CatchingUp

/-! # A site that receives a cargo

From the announcement to its marker a site has written what it has taken of the cargo, and nothing else. -/

namespace ReplicaGroup

/-- The data of a transfer that an event brings. -/
def Event.data (id : TransferId) : Event → List Message
  | .message m => [m].filter (·.isData id)
  | _ => []

namespace Site
variable {c : Cargo} {coming : List Message} {done : Entries} {s t : Site} {step : Step} {o : Outside}

/-- A site that has joined the group, and has asked for `done` of a cargo to be written. -/
structure Takes (c : Cargo) (done : Entries) (s : Site) : Prop where
  waits : s.Waits
  joined : s.node.engine.mode = .catchingUp
  flushed : s.flushed = Store.empty.afterAll (c.writes done)
  incoming : ∀ t ∈ s.node.background.transfers, ∀ id, s.node.engine.incoming? = some id → t.id = id
  /-- There is no news of the end of the transfer before it has ended. -/
  closed : (s.node.notices.completed ≠ [] ∨ s.node.notices.stopped ≠ []) ∨
    s.node.engine.syncing? ≠ none ∨ s.node.engine.incoming? = none →
      ∀ t ∈ s.node.background.transfers, t.isOpen = false
  completed : ∀ x ∈ s.node.notices.completed, ∀ metadata, x.outcome = .ok metadata →
    metadata = ⟨some c.snapshot, some c.version⟩ ∧ c.entries = done
  syncing : ∀ sync, s.node.engine.syncing? = some sync →
    sync.snapshot = c.snapshot ∧ sync.version = c.version ∧ c.entries = done

/-- A site that receives a cargo, and waits for what is still coming. -/
structure Receives (c : Cargo) (coming : List Message) (done : Entries) (s : Site) : Prop extends s.Takes c done where
  transfers : ∀ t ∈ s.node.background.transfers, t.Receives c coming done

/-- A transfer that has ended takes nothing that comes. -/
theorem receives_of_closed {t : Transfer} (hclosed : t.isOpen = false) : t.Receives c coming done := by
  unfold Transfer.Receives
  cases hs : t.stage with
  | created errand => rw [Transfer.isOpen, hs] at hclosed; cases hclosed
  | running run deadline => rw [Transfer.isOpen, hs] at hclosed; cases hclosed
  | reported | stopped => trivial

theorem closed_take (hx : ∀ x ∈ step.effects, x.IsCalm)
    (h : ∀ t ∈ s.node.background.transfers, t.isOpen = false) :
    ∀ t ∈ (s.take step).node.background.transfers, t.isOpen = false := by
  exact forall_take (P := fun t => t.isOpen = false) h (fun _ ht => ht) fun x hmem =>
    Effect.keeps_of_isCalm (P := fun t => t.isOpen = false) (fun _ _ ht => ht) (fun _ ht => ht) (fun _ ht => ht) (hx x hmem)
      _ _

theorem Receives.rests (hs : s.Receives c coming done) (h : s.Rests t) : t.Receives c coming done where
  waits := hs.waits.rests h
  joined := h.engine ▸ hs.joined
  flushed := h.flushed.trans hs.flushed
  incoming := by
    rw [h.engine, h.transfers]
    exact hs.incoming
  closed hnews := by
    rw [h.engine] at hnews
    rw [h.transfers]
    refine hs.closed (hnews.imp_left fun hnews => hnews.imp (fun hne hnil => ?_) fun hne hnil => ?_)
    · exact hne (List.eq_nil_of_subset_nil (hnil ▸ h.completed))
    · exact hne (List.eq_nil_of_subset_nil (hnil ▸ h.stopped))
  completed x hx := hs.completed x (h.completed hx)
  syncing := h.engine ▸ hs.syncing
  transfers := h.transfers ▸ hs.transfers

/-- What a receiving site needs of a step of its engine. -/
theorem Receives.take {coming' : List Message} (hs : s.Receives c coming' done) (hwaits : (s.take step).Waits)
    (hflushed : (s.take step).flushed = s.flushed) (hx : ∀ x ∈ step.effects, x.IsCalm)
    (hmode : step.engine.mode = s.node.engine.mode)
    (htransfers : ∀ t ∈ (s.take step).node.background.transfers, t.Receives c coming done)
    (hin : ∀ id, step.engine.incoming? = some id → s.node.engine.incoming? = some id)
    (hclosed : step.engine.syncing? ≠ none ∨ step.engine.incoming? = none →
      ∀ t ∈ s.node.background.transfers, t.isOpen = false)
    (hsyncing : ∀ sync, step.engine.syncing? = some sync →
      sync.snapshot = c.snapshot ∧ sync.version = c.version ∧ c.entries = done) : (s.take step).Receives c coming done where
  waits := hwaits
  joined := by rw [take_engine, hmode, hs.joined]
  flushed := hflushed.trans hs.flushed
  transfers := htransfers
  incoming := by
    rw [take_engine]
    let P (t : Transfer) : Prop := ∀ id, step.engine.incoming? = some id → t.id = id
    exact forall_take (P := P) (fun t ht id hid => hs.incoming t ht id (hin id hid)) (fun _ ht => ht) fun x hmem =>
      Effect.keeps_of_isCalm (P := P) (fun _ _ ht => ht) (fun _ ht => ht) (fun _ ht => ht) (hx x hmem) _ _
  closed h := by
    rw [take_completed, take_stopped, take_engine] at h
    refine closed_take hx ?_
    rcases h with h | h
    · exact hs.closed (.inl h)
    · exact hclosed h
  completed := by
    rw [take_completed]
    exact hs.completed
  syncing := by
    rw [take_engine]
    exact hsyncing

/-- A minor step leaves a receiving site receiving, unless it fails. -/
theorem Receives.take_minor (hs : s.Receives c coming done) (h : s.node.engine.Minor step) :
    (s.take step).Dead ∨ (s.take step).Receives c coming done := by
  refine (hs.waits.take_minor h).imp_right fun ⟨hf, hwaits, hflushed⟩ => ?_
  refine hs.take hwaits hflushed (fun x hx => Effect.isCalm_of_isMinor (h.2 x hx)) h.1.mode ?_ ?_ ?_ ?_
  · exact forall_take hs.transfers (fun t ht => ht) fun x hx =>
      Effect.keeps_of_isMinor (P := Transfer.Receives c coming done) (fun t ht => ht) (h.2 x hx) _ _
  · rw [h.1.incoming]
    exact fun id hid => hid
  · rw [h.1.incoming, h.1.syncing]
    exact fun hclosed => hs.closed (.inr hclosed)
  · rw [h.1.syncing]
    exact hs.syncing

/-- What a message to a transfer makes of the transfers. -/
theorem transfers_take_deliver {e : Engine} {id : TransferId} {m : Message} :
    (s.take { engine := e, effects := [.deliver id m] }).node.background.transfers =
      s.node.background.transfers.map fun t => if t.id = id then { t with mailbox := t.mailbox ++ [m] } else t := by
  unfold Site.take
  rw [if_neg (by simp), Node.take_fst]
  simp [Background.performAll, Background.perform, Background.deliver]

theorem Receives.of_closed {coming' : List Message} (hs : s.Receives c coming' done)
    (h : ∀ t ∈ s.node.background.transfers, t.isOpen = false) : s.Receives c coming done :=
  ⟨hs.toTakes, fun t ht => receives_of_closed (h t ht)⟩

/-- A receiving site is told something. Data of the cargo that comes next is handed to its transfer; the end of
    the transfer is told only when it has ended. -/
theorem Receives.handle {e : Event} (hs : s.Receives c (e.data c.id ++ coming) done) (hd : ∀ ds, e ≠ .decide ds)
    (hr : ∀ r, e = .stored r → ∃ range bytes keys, r = .size range bytes keys)
    (hclosed : (∃ x, e = .completed x) ∨ (∃ id, e = .stopped id) → ∀ t ∈ s.node.background.transfers, t.isOpen = false)
    (hc : ∀ x, e = .completed x → ∀ metadata, x.outcome = .ok metadata →
      metadata = ⟨some c.snapshot, some c.version⟩ ∧ c.entries = done) :
    (s.handle e).Dead ∨ (s.handle e).Receives c coming done := by
  rcases hs.waits.handle hd hr with hdead | ⟨hf, htake, hwaits, hflushed, hheeds⟩
  · exact .inl hdead
  have hcalm := hheeds.calm.2.2.2.2
  rw [htake] at hwaits hflushed ⊢
  generalize s.node.engine.handle s.node.host e = step at hf hwaits hflushed hheeds hcalm
  cases hheeds with
  | minor hminor hm =>
    refine Receives.take_minor ?_ hminor
    -- Only a message can be data, and data that is not handed on finds no open transfer.
    by_cases hmessage : ∃ m, e = .message m
    · obtain ⟨m, rfl⟩ := hmessage
      rcases hm m rfl with hin | hfault | ⟨id, quota, rfl⟩
      · exact hs.of_closed (hs.closed (.inr (.inr hin)))
      · rw [hf] at hfault
        cases hfault
      · exact hs
    · cases e with
      | message m => exact absurd ⟨m, rfl⟩ hmessage
      | submit | decide | changeView | measure | stored | completed | stopped | stop => exact hs
  | holds hmode =>
    rw [hs.joined] at hmode
    cases hmode
  | @hands m id hi ho =>
    refine .inr (hs.take hwaits hflushed hcalm rfl ?_ (fun _ h => h) (fun h => hs.closed (.inr h)) hs.syncing)
    rw [transfers_take_deliver]
    intro t ht
    obtain ⟨u, hu, rfl⟩ := List.mem_map.mp ht
    rw [if_pos (hs.incoming u hu id hi)]
    exact (hs.transfers u hu).deliver
  | @marks x snapshot version _ hm hok he hx =>
    have hall := hclosed (.inl ⟨x, rfl⟩)
    obtain ⟨hmetadata, hdone⟩ := hc x rfl _ hok
    cases hmetadata
    refine .inr (hs.take hwaits hflushed hcalm (by rw [he]) ?_ ?_ (fun _ => hall) ?_)
    · exact fun t ht => receives_of_closed (closed_take hcalm hall t ht)
    · rw [he]
      exact fun _ h => h
    · rw [he]
      rintro sync ⟨⟩
      exact ⟨rfl, rfl, hdone⟩
  | @releases id hi =>
    have hall := hclosed (.inr ⟨id, rfl⟩)
    refine .inr (hs.take hwaits hflushed hcalm rfl ?_ (fun _ h => by cases h) (fun _ => hall) hs.syncing)
    exact fun t ht => receives_of_closed (closed_take hcalm hall t ht)

/-- The transfer of a site takes a step. -/
theorem Takes.transfer (hs : s.Takes c done) {id : TransferId} {n : Node} (hn : s.node.stepTransfer id = some n)
    {u u' : Transfer} {reports : List Transfer.Report} {more : Entries}
    (hu : s.node.background.transfers.find? (fun t => t.id = id) = some u)
    (hstep : u.step ⟨s.node.background.storeOpen, s.node.carries⟩ s.node.now = some (u', reports))
    (hreceived : Transfer.Received c coming done u (u', reports) more) :
    Receives c coming (done ++ more) { s with node := n } := by
  have hwaits := hs.waits.transfer hn
  obtain ⟨v, v', reports', hv, hstep', rfl⟩ := Node.stepTransfer_eq_some hn
  obtain rfl := Option.some.inj (hu.symm.trans hv)
  obtain ⟨rfl, rfl⟩ := Prod.mk.inj (Option.some.inj (hstep.symm.trans hstep'))
  obtain ⟨hmem, -⟩ := Transfer.of_find? hu
  refine ⟨⟨hwaits, hs.joined, ?_, ?_, fun h => hs.waits.forall_stepped hu ?_, fun x hx metadata hok => ?_,
    fun sync hsync => ?_⟩, hs.waits.forall_stepped hu hreceived.receives⟩
  · rw [Site.flushed, Store.afterAll_queue, hreceived.requests, c.writes_append, Store.afterAll_append, ← hs.flushed]
    rfl
  · refine hs.waits.forall_stepped hu fun id' hid' => ?_
    rw [Transfer.id_of_goes (Transfer.goes_of_step hstep)]
    exact hs.incoming u hmem id' hid'
  · rcases h with (h | h) | h
    · obtain ⟨x, hx⟩ := List.exists_mem_of_ne_nil _ h
      rcases List.mem_append.mp hx with hx | hx
      · exact (hreceived.ended (hs.closed (.inl (.inl (List.ne_nil_of_mem hx))) u hmem)).2
      · obtain ⟨report, hreport, hx⟩ := List.mem_filterMap.mp (List.mem_filter.mp hx).1
        exact hreceived.closed ⟨report, hreport, .inl (by rw [hx]; rfl)⟩
    · obtain ⟨x, hx⟩ := List.exists_mem_of_ne_nil _ h
      rcases List.mem_append.mp hx with hx | hx
      · exact (hreceived.ended (hs.closed (.inl (.inr (List.ne_nil_of_mem hx))) u hmem)).2
      · obtain ⟨report, hreport, -⟩ := List.mem_map.mp hx
        obtain ⟨hreport, hsays⟩ := List.mem_filter.mp hreport
        exact hreceived.closed ⟨report, hreport, .inr (Bool.and_eq_true_iff.mp hsays).1⟩
    · exact (hreceived.ended (hs.closed (.inr h) u hmem)).2
  · rcases List.mem_append.mp hx with hx | hx
    · have hended := hs.closed (.inl (.inl (List.ne_nil_of_mem hx))) u hmem
      rw [(hreceived.ended hended).1, List.append_nil]
      exact hs.completed x hx metadata hok
    · exact hreceived.completed x (List.mem_filter.mp hx).1 metadata hok
  · have hended := hs.closed (.inr (.inl (Option.ne_none_iff_exists'.mpr ⟨_, hsync⟩))) u hmem
    rw [(hreceived.ended hended).1, List.append_nil]
    exact hs.syncing sync hsync

theorem Receives.transfer (hs : s.Receives c coming done) {id : TransferId} {n : Node}
    (hn : s.node.stepTransfer id = some n) : ∃ done, Receives c coming done { s with node := n } := by
  obtain ⟨u, u', reports, hu, hstep, -⟩ := Node.stepTransfer_eq_some hn
  obtain ⟨more, hreceived⟩ := (hs.transfers u (List.mem_of_find?_eq_some hu)).goes (Transfer.goes_of_step hstep)
  exact ⟨_, hs.toTakes.transfer hn hu hstep hreceived⟩

/-! ### The announcement -/

theorem Awaits.takes (hs : s.Awaits c) {u : Transfer} (hu : u ∈ s.node.background.transfers) : s.Takes c [] where
  waits := hs.waits
  joined := by
    cases hm : s.node.engine.mode with
    | passive =>
      rw [hs.passive hm] at hu
      cases hu
    | catchingUp => rfl
    | active | transferring =>
      have hserving := hs.waits.serving
      rw [hm] at hserving
      cases hserving
  flushed := hs.flushed
  incoming t ht id hid := Option.some.inj ((hs.transfers t ht).2.symm.trans hid)
  closed h := by
    rcases h with (h | h) | h | h
    · exact absurd hs.completed h
    · exact absurd hs.stopped h
    · exact absurd hs.settled h
    · rw [(hs.transfers u hu).2] at h
      cases h
  completed x hx := by
    rw [hs.completed] at hx
    cases hx
  syncing sync hsync := by
    rw [hs.settled] at hsync
    cases hsync

theorem Awaits.execute (hs : s.Awaits c) (hq : s.node.background.queue ≠ []) :
    Awaits c { s with node := (s.node.serve 1).1 } := by
  have hwaits := hs.waits.execute hq
  have hflushed := flushed_execute hq
  obtain ⟨⟨r, requester?⟩, rest, hq⟩ := List.exists_cons_of_ne_nil hq
  rw [Node.serve_one hq] at hwaits hflushed ⊢
  have htransfers := Background.forall_resolve (b := { s.node.background with queue := rest })
    (P := fun t => t.Awaits c ∧ s.node.engine.incoming? = some t.id)
    (.response (r.execute s.node.store).response) requester? hs.transfers fun _ _ ht => ⟨⟨ht.1.stage, ht.1.mailbox⟩, ht.2⟩
  refine ⟨hwaits, hflushed.trans hs.flushed, hs.settled, hs.completed, hs.stopped, fun hp => ?_, htransfers, hs.held⟩
  rw [← List.length_eq_zero_iff, Background.length_resolve]
  exact List.length_eq_zero_iff.mpr (hs.passive hp)

/-- The transfer of a site that awaits a cargo goes on awaiting it, or takes an announcement. -/
theorem Awaits.transfer (hs : s.Awaits c) {id : TransferId} {n : Node} (hn : s.node.stepTransfer id = some n) :
    Deaf c { s with node := n } ∨ (Awaits c { s with node := n } ∧ n.peers = s.node.peers) ∨
      ∀ coming, c.Completes [] coming → Receives c coming [] { s with node := n } := by
  have hwaits := hs.waits.transfer hn
  obtain ⟨u, u', reports, hu, hstep, heq⟩ := Node.stepTransfer_eq_some hn
  obtain ⟨hmem, -⟩ := Transfer.of_find? hu
  have hid := Transfer.id_of_goes (Transfer.goes_of_step hstep)
  have htakes := hs.takes hmem
  rcases (hs.transfers u hmem).1.goes (Transfer.goes_of_step hstep) with ⟨hawaits, hnone⟩ | hdeaf | hreceived
  · refine .inr (.inl ?_)
    obtain rfl : reports = [] := hnone
    subst heq
    refine ⟨hs.of_eq hwaits ?_ rfl rfl ?_ ?_ ?_ (hs.waits.forall_stepped hu ⟨hawaits, ?_⟩) hs.held, rfl⟩
    · simp [Site.flushed]
    · simp
    · simp
    · simp
    · rw [hid]
      exact (hs.transfers u hmem).2
  · refine .inl ⟨fun hpassive => ?_, ?_⟩
    · subst heq
      rw [htakes.joined] at hpassive
      cases hpassive
    · subst heq
      exact hs.waits.forall_stepped hu hdeaf
  · exact .inr (.inr fun coming hcoming => htakes.transfer hn hu hstep (hreceived coming hcoming))

/-- A site that awaits a cargo goes on awaiting it and sends nothing, or takes an announcement, or ends. -/
theorem Awaits.moves (hs : s.Awaits c) (hf : s.Fed o.decided) (ho : s.Fresh ∨ ∃ first, s.Follows o.decided [] first)
    (htells : ∀ m, o.tells (.message m) → m.id = c.id → m = .initiate c.announced) (hm : Moves o s t) :
    t.Dead ∨ t.Deaf c ∨ (t.Awaits c ∧ ∀ a, t.outbox a = s.outbox a) ∨
      ∀ coming, c.Completes [] coming → t.Receives c coming [] := by
  -- Only a move of the transfer itself can do more than keep the replica waiting.
  have hstay : t.Dead ∨ t.Awaits c → (∀ a, t.outbox a = s.outbox a) → t.Dead ∨ t.Deaf c ∨
      (t.Awaits c ∧ ∀ a, t.outbox a = s.outbox a) ∨ ∀ coming, c.Completes [] coming → t.Receives c coming [] :=
    fun ht hout => ht.imp_right fun ht => .inr (.inl ⟨ht, hout⟩)
  cases hm with
  | @hear e s' hi he =>
    have hs' := hs.rests he.rests
    have hd := not_decide_of_heard he
    refine hstay ?_ fun a => by obtain ⟨notices, rfl⟩ := he.eq; exact outbox_handle e a
    cases he with
    | hear hexternal htold =>
      refine hs.handle hd ?_ ?_ ?_ fun m h => htells m (h ▸ htold)
      · rintro r rfl
        cases hexternal
      · rintro x rfl
        cases hexternal
      · rintro id rfl
        cases hexternal
    | response hr =>
      refine hs'.handle hd (fun r h => ?_) nofun nofun nofun
      cases h
      exact hs.waits.stored _ (List.mem_of_getElem? hr)
    | completion hc =>
      rw [hs.completed] at hc
      cases hc
    | stopped hid =>
      rw [hs.stopped] at hid
      cases hid
  | deliver hi hd => exact hstay (.inr (hs.rests (rests_batch ..))) fun _ => rfl
  | apply hrun hr => exact hstay (hs.apply hr) fun a => outbox_take ..
  | insert hrun hr hb =>
    exact hstay (.inr (hs.of_eq (hs.waits.insert hf ho hr hb) rfl rfl rfl rfl rfl rfl hs.transfers hs.held)) fun _ => rfl
  | finish hrun hr hb =>
    obtain ⟨heq, hwaits, hflushed⟩ := hs.waits.finish
    refine hstay (.inr ?_) fun a => outbox_take ..
    rw [heq] at hwaits hflushed ⊢
    exact (hs.rests (rests_batch s none)).take hwaits hflushed rfl (by simp [Engine.done]) rfl rfl rfl hs.held
      (by simp [Engine.done])
  | execute hq =>
    refine hstay (.inr (hs.execute hq)) fun a => ?_
    obtain ⟨⟨r, requester?⟩, rest, hq⟩ := List.exists_cons_of_ne_nil hq
    rw [Node.serve_one hq]
    rfl
  | transfer hn =>
    rcases hs.transfer hn with hdeaf | ⟨hawaits, hpeers⟩ | hreceives
    · exact .inr (.inl hdeaf)
    · exact .inr (.inr (.inl ⟨hawaits, fun a => by rw [outbox, outbox, hpeers]⟩))
    · exact .inr (.inr (.inr hreceives))
  | wait ms => exact hstay (.inr (hs.rests (rests_advance s ms))) fun _ => rfl
  | register ha => exact hstay (.inr (hs.rests (rests_register ..))) fun a => outbox_register ha a

theorem Receives.of_eq (hs : s.Receives c coming done) (hwaits : t.Waits) (hf : t.flushed = s.flushed)
    (hmode : t.node.engine.mode = s.node.engine.mode) (hsync : t.node.engine.syncing? = s.node.engine.syncing?)
    (hin : t.node.engine.incoming? = s.node.engine.incoming?)
    (hcompleted : t.node.notices.completed = s.node.notices.completed)
    (hstopped : t.node.notices.stopped = s.node.notices.stopped)
    (htransfers : t.node.background.transfers = s.node.background.transfers) : t.Receives c coming done where
  waits := hwaits
  joined := hmode.trans hs.joined
  flushed := hf.trans hs.flushed
  transfers := htransfers ▸ hs.transfers
  incoming := by
    rw [htransfers, hin]
    exact hs.incoming
  closed := by
    rw [hcompleted, hstopped, hsync, hin, htransfers]
    exact hs.closed
  completed := hcompleted ▸ hs.completed
  syncing := hsync ▸ hs.syncing

theorem Receives.execute (hs : s.Receives c coming done) (hq : s.node.background.queue ≠ []) :
    Receives c coming done { s with node := (s.node.serve 1).1 } := by
  have hwaits := hs.waits.execute hq
  have hflushed := flushed_execute hq
  obtain ⟨⟨r, requester?⟩, rest, hq⟩ := List.exists_cons_of_ne_nil hq
  rw [Node.serve_one hq] at hwaits hflushed ⊢
  refine ⟨⟨hwaits, hs.joined, hflushed.trans hs.flushed, ?_, fun h => ?_, hs.completed, hs.syncing⟩, ?_⟩
  · exact Background.forall_resolve (P := fun t => ∀ id, s.node.engine.incoming? = some id → t.id = id) _ _ hs.incoming
      fun _ _ ht => ht
  · exact Background.forall_resolve (P := fun t => t.isOpen = false) _ _ (hs.closed h) fun _ _ ht => ht
  · exact Background.forall_resolve (P := Transfer.Receives c coming done) _ _ hs.transfers fun _ _ ht => ht

end Site
end ReplicaGroup
