import ReplicaGroup.Proofs.Engine.Modes
import ReplicaGroup.Proofs.Site.Levels
import ReplicaGroup.Proofs.Transfer.Ending

/-! # Transfers end once, and a replica transfers until all have ended

The end of a run and the stop that follows it reach the engine separately and in any order. The engine forgets a
transfer only when it hears that it has stopped, and leaves the transferring mode only when it has forgotten every
transfer that sends. -/

namespace ReplicaGroup

/-- The transfer that an effect starts to send. -/
def Effect.sent? (x : Effect) : Option TransferId := x.outbound?.map Outbound.id

namespace Transfer

/-- A transfer that a replica has just started. -/
inductive Begins : Transfer → Prop
  | sending (addr : Addr) (config : Config) (outbound : Outbound) (scanId : OpId) :
    Begins (sending addr config outbound scanId)
  | receiving (addr : Addr) (config : Config) (id : TransferId) : Begins (receiving addr config id)

/-- A transfer that has come as far as it is from where it began. -/
def Lived (u : Transfer) : Prop := ∃ t acts reports, Begins t ∧ t.life acts = some (u, reports)

variable {t u v : Transfer} {a : Act} {out : Transfer × List Report}

theorem Begins.isOpen (h : Begins t) : t.isOpen = true := by cases h <;> rfl

theorem Begins.lived (h : Begins t) : t.Lived := ⟨t, [], [], h, rfl⟩

theorem Lived.act (h : t.Lived) (ha : t.act a = some out) : out.1.Lived := by
  obtain ⟨t₀, acts, reports, hbegins, hlife⟩ := h
  refine ⟨t₀, acts ++ [a], reports ++ out.2, hbegins, ?_⟩
  rw [life_concat, hlife, Option.bind_some, ha]
  rfl

/-- Whether a transfer is what has become of another one. -/
structure Succeeds (u t : Transfer) : Prop where
  id : u.id = t.id
  role : u.role = t.role
  stopped : t.stage = .stopped → u.stage = .stopped
  lived : t.Lived → u.Lived

theorem Succeeds.refl (t : Transfer) : t.Succeeds t := ⟨rfl, rfl, fun h => h, fun h => h⟩

theorem Succeeds.trans (h : u.Succeeds t) (h' : v.Succeeds u) : v.Succeeds t :=
  ⟨h'.id.trans h.id, h'.role.trans h.role, fun hs => h'.stopped (h.stopped hs), fun hl => h'.lived (h.lived hl)⟩

theorem succeeds_of_act (h : t.act a = some out) : out.1.Succeeds t := by
  refine ⟨(identity_of_act h).1, (identity_of_act h).2, fun hs => ?_, fun hl => hl.act h⟩
  cases proceeds_of_act h with
  | changes hstage hstop _ => exact hstage.trans hs
  | runs ho hu _ => exact absurd ho (not_isOpen_of_stopped hs)
  | ends ho hu he => exact absurd ho (not_isOpen_of_stopped hs)
  | stops hreported hstop hu => exact hu

/-- Only a transfer that has stopped says so. -/
theorem stage_of_isStopped {r : Report} (h : t.act a = some out) (hr : r ∈ out.2) (hs : r.isStopped = true) :
    out.1.stage = .stopped := by
  have hdeeds : ∀ {deeds : List Deed}, r ∉ deeds.map Report.deed := fun hmem => by
    obtain ⟨d, -, rfl⟩ := List.mem_map.mp hmem
    cases hs
  cases proceeds_of_act h with
  | changes => exact absurd hr List.not_mem_nil
  | runs => exact absurd hr hdeeds
  | ends ho hu he =>
    rcases List.mem_append.mp hr with hr | hr
    · exact absurd hr hdeeds
    · rw [List.mem_singleton.mp hr] at hs
      cases hs
  | stops hreported hstop hu => exact hu

end Transfer

namespace Engine
variable {e : Engine} {h : Host} {p : Position} {v : Value} {s : Step} {event : Event}

theorem outgoing_finishTransferring (e : Engine) : e.finishTransferring.outgoing = e.outgoing := by
  unfold finishTransferring
  split <;> rfl

/-- A decided value makes an engine forget no transfer that sends, and know those that it starts. -/
theorem Turns.outgoing (ht : Turns h p e v s) : s.engine.outgoing = e.outgoing ++ s.effects.filterMap Effect.sent? := by
  cases ht with
  | stays he hx hn hs =>
    have hnone : s.effects.filterMap Effect.sent? = [] := List.filterMap_eq_nil_iff.mpr fun x hmem => by
      rw [Effect.sent?, (hx x hmem).starts_nothing.1]
      rfl
    rw [he, hnone, List.append_nil]
  | joins hm hn hv => exact (List.append_nil _).symm
  | follows hm hn hv => exact (List.append_nil _).symm
  | moves hm hn hv hsent => exact outgoing_finishTransferring _
  | settles hs hv he hx =>
    rw [he, hx]
    exact (List.append_nil _).symm

/-- Only the news that a transfer has stopped makes an engine forget it. -/
theorem Reacts.outgoing (hr : Reacts h e event s) : s.engine.outgoing = e.outgoing ∨
    ∃ id, event = .stopped id ∧ s.engine.outgoing = e.outgoing.filter (· ≠ id) := by
  cases hr with
  | quiet he =>
    obtain ⟨drawn, lastSnapshot, pruned, log, he⟩ := he
    exact .inl (by rw [he])
  | holds | received => exact .inl rfl
  | marks hm hrole hin hc he hx => exact .inl (by rw [he])
  | sent hid => exact .inr ⟨_, rfl, outgoing_finishTransferring _⟩

/-- The news that a transfer has stopped makes an engine forget no other one. -/
theorem known_after_stopped {id other : TransferId} (hne : other ≠ id) :
    (other ∈ (e.handle h (.stopped id)).engine.outgoing ↔ other ∈ e.outgoing) ∧
      ((e.handle h (.stopped id)).engine.incoming? = some other ↔ e.incoming? = some other) := by
  show (other ∈ (e.releaseTransfer id).engine.outgoing ↔ _) ∧ ((e.releaseTransfer id).engine.incoming? = some other ↔ _)
  unfold releaseTransfer
  split
  · refine ⟨?_, ?_⟩
    · rw [outgoing_finishTransferring, List.mem_filter]
      exact and_iff_left (decide_eq_true hne)
    · unfold finishTransferring
      split <;> rfl
  · split
    · next hin => exact ⟨Iff.rfl, iff_of_false nofun fun h => hne (Option.some.inj (h.symm.trans hin))⟩
    · exact ⟨Iff.rfl, Iff.rfl⟩

end Engine

theorem Effect.started?_of_sent? {x : Effect} {id : TransferId} (h : x.sent? = some id) : x.started? = some id := by
  cases x with
  | startSend => exact h
  | startReceive | propose | prune | upcall | request | deliver | stopTransfer | releaseTransfer => cases h

/-- What survives all that can happen to a transfer survives the effects of an engine. -/
theorem Effect.keeps {P : Transfer → Prop} {addr : Addr} {config : Config} {x : Effect}
    (hP : ∀ {t a out}, Transfer.act t a = some out → P t → P out.1)
    (hbegins : ∀ t, Transfer.Begins t → x.started? = some t.id → (t.role = .send → x.sent? = some t.id) → P t) :
    x.Keeps P addr config := by
  cases x with
  | startSend outbound scanId => exact hbegins _ (.sending addr config outbound scanId) rfl fun _ => rfl
  | startReceive id held? =>
    have hmailbox : ∀ t, P t → P { t with mailbox := held?.toList.map .initiate } := fun t =>
      hP (a := .change _ t.orphaned t.reply?) rfl
    exact ⟨hmailbox _ (hbegins _ (.receiving addr config id) rfl fun h => by cases h), fun t _ => hmailbox t⟩
  | deliver id m => exact fun t _ => hP (a := .change (t.mailbox ++ [m]) t.orphaned t.reply?) rfl
  | stopTransfer id => exact fun t _ => hP (a := .stop) rfl
  | releaseTransfer id => exact fun t _ => hP (a := .change t.mailbox true t.reply?) rfl
  | propose | prune | upcall | request => trivial

/-- A transfer takes the stop before its run ends. -/
def Node.haltTransfer (n : Node) (id : TransferId) : Option Node := n.lead id Transfer.halt

namespace Site
variable {s t u : Site} {o : Outside} {step : Step} {started : List TransferId}

/-- The transfers that a site has started to send, in what it has applied. -/
def launched (s : Site) : List TransferId := s.applied.flatMap fun a => a.effects.filterMap Effect.sent?

/-- What holds of a site and its transfers. -/
structure Tends (s : Site) : Prop where
  isOpen : s.IsOpen
  coherent : s.running = true → s.node.engine.Coherent
  left : s.node.engine.mode ≠ .transferring → s.node.engine.outgoing = []
  launched : s.launched ⊆ s.node.background.ids
  /-- The engine knows a transfer that sends until it has stopped. -/
  known : ∀ u ∈ s.node.background.transfers, u.role = .send ∨ u.id ∈ s.launched →
    u.id ∈ s.node.engine.outgoing ∨ u.stage = .stopped
  stopped : ∀ id ∈ s.node.notices.stopped, id ∈ s.node.background.ids ∧
    ∀ u ∈ s.node.background.transfers, u.id = id → u.stage = .stopped
  lived : ∀ u ∈ s.node.background.transfers, u.Lived

theorem Starts.tends (hs : s.Starts) : s.Tends := by
  have hempty : s.node.background.transfers = [] ∧ s.applied = [] ∧ s.node.notices.stopped = [] := by
    cases hs <;> exact ⟨rfl, rfl, rfl⟩
  have hcoherent : s.node.engine.Coherent ∧ s.node.engine.outgoing = [] := by
    cases hs with
    | fresh => exact ⟨Engine.coherent_new, rfl⟩
    | bootstrapped => exact ⟨Engine.coherent_bootstrap _ _, rfl⟩
  obtain ⟨ht, ha, hn⟩ := hempty
  have hlaunched : s.launched = [] := by rw [Site.launched, ha]; rfl
  exact ⟨hs.isOpen, fun _ => hcoherent.1, fun _ => hcoherent.2, by simp [hlaunched], by simp [ht], by simp [hn],
    by simp [ht]⟩

/-- Where a transfer comes from: it is what has become of one that a site had, or was just started, and the engine knows
    those that send. -/
def Stems (s : Site) (started outgoing : List TransferId) (u : Transfer) : Prop :=
  (∃ v ∈ s.node.background.transfers, u.Succeeds v) ∨ u.id ∈ started ∧ u.Lived ∧ (u.role = .send → u.id ∈ outgoing)

theorem Stems.act {outgoing : List TransferId} {v : Transfer} {a : Transfer.Act} {out : Transfer × List Transfer.Report}
    (h : s.Stems started outgoing v) (ha : v.act a = some out) : s.Stems started outgoing out.1 := by
  rcases h with ⟨w, hw, hvw⟩ | ⟨hid, hlived, hsends⟩
  · exact .inl ⟨w, hw, hvw.trans (Transfer.succeeds_of_act ha)⟩
  · obtain ⟨heq, hrole⟩ := Transfer.identity_of_act ha
    refine .inr ⟨heq ▸ hid, hlived.act ha, ?_⟩
    rw [heq, hrole]
    exact hsends

/-- What becomes of a site and its transfers in one move. -/
structure Advances (started : List TransferId) (s t : Site) : Prop where
  isOpen : t.IsOpen
  coherent : t.running = true → t.node.engine.Coherent
  left : t.node.engine.mode ≠ .transferring → t.node.engine.outgoing = []
  ids : t.node.background.ids = s.node.background.ids ++ started
  transfers : ∀ u ∈ t.node.background.transfers, s.Stems started t.node.engine.outgoing u
  launched : ∀ id ∈ t.launched, id ∈ s.launched ∨ id ∈ started ∧ id ∈ t.node.engine.outgoing
  /-- The engine forgets only transfers that have stopped. -/
  outgoing : ∀ id ∈ s.node.engine.outgoing, id ∈ t.node.engine.outgoing ∨
    ∀ v ∈ s.node.background.transfers, v.id = id → v.stage = .stopped
  stopped : ∀ id ∈ t.node.notices.stopped, id ∈ s.node.notices.stopped ∨ id ∈ s.node.background.ids ∧
    ∀ u ∈ t.node.background.transfers, u.id = id → u.stage = .stopped

theorem Tends.advances (hs : s.Tends) (ha : Advances started s t) (hnodup : t.node.background.ids.Nodup) : t.Tends := by
  -- A transfer that was just started has no identifier that was there before.
  have hnew : ∀ {id}, id ∈ started → id ∉ s.node.background.ids := fun hid hmem => by
    rw [ha.ids] at hnodup
    exact (List.nodup_append.mp hnodup).2.2 _ hmem _ hid rfl
  have hids : s.node.background.ids ⊆ t.node.background.ids := ha.ids ▸ List.subset_append_left ..
  refine ⟨ha.isOpen, ha.coherent, ha.left, fun id hid => ?_, fun u hu hid => ?_, fun id hid => ?_, fun u hu => ?_⟩
  · rcases ha.launched id hid with hid | ⟨hid, -⟩
    · exact hids (hs.launched hid)
    · exact ha.ids ▸ List.mem_append_right _ hid
  · rcases ha.transfers u hu with ⟨v, hv, huv⟩ | ⟨hstarted, -, hsends⟩
    · by_cases hbefore : v.role = .send ∨ v.id ∈ s.launched
      · rcases hs.known v hv hbefore with hout | hstopped
        · exact (ha.outgoing v.id hout).imp (huv.id ▸ ·) fun h => huv.stopped (h v hv rfl)
        · exact .inr (huv.stopped hstopped)
      · obtain ⟨hrole, hlaunched⟩ := not_or.mp hbefore
        have hid := hid.resolve_left (huv.role ▸ hrole)
        exact .inl ((ha.launched u.id hid).resolve_left (huv.id ▸ hlaunched)).2
    · rcases hid with hrole | hid
      · exact .inl (hsends hrole)
      · exact .inl ((ha.launched u.id hid).resolve_left fun h => hnew hstarted (hs.launched h)).2
  · rcases ha.stopped id hid with hid | ⟨hmem, hstopped⟩
    · obtain ⟨hmem, hstopped⟩ := hs.stopped id hid
      refine ⟨hids hmem, fun u hu heq => ?_⟩
      rcases ha.transfers u hu with ⟨v, hv, huv⟩ | ⟨hstarted, -⟩
      · exact huv.stopped (hstopped v hv (huv.id ▸ heq))
      · exact absurd (heq ▸ hmem) (hnew hstarted)
    · exact ⟨hids hmem, hstopped⟩
  · rcases ha.transfers u hu with ⟨v, hv, huv⟩ | ⟨-, hlived, -⟩
    · exact huv.lived (hs.lived v hv)
    · exact hlived

/-- Something that happens beside the engine, to transfers that are there. -/
theorem Tends.aside (hs : s.Tends) (hopen : t.IsOpen) (hrun : t.running = true → s.running = true)
    (hengine : s.node.engine.Quiet t.node.engine) (happlied : t.applied = s.applied)
    (hids : t.node.background.ids = s.node.background.ids)
    (htransfers : ∀ u ∈ t.node.background.transfers, ∃ v ∈ s.node.background.transfers, u.Succeeds v)
    (hstopped : ∀ id ∈ t.node.notices.stopped, id ∈ s.node.notices.stopped ∨ id ∈ s.node.background.ids ∧
      ∀ u ∈ t.node.background.transfers, u.id = id → u.stage = .stopped) : Advances [] s t := by
  obtain ⟨drawn, lastSnapshot, pruned, log, hengine'⟩ := hengine
  have hout : t.node.engine.outgoing = s.node.engine.outgoing := by rw [hengine']
  have hmode : t.node.engine.mode = s.node.engine.mode := by rw [hengine']
  refine ⟨hopen, fun h => (hs.coherent (hrun h)).quiet ⟨drawn, lastSnapshot, pruned, log, hengine'⟩, fun h => ?_, ?_,
    fun u hu => .inl (htransfers u hu), fun id hid => .inl ?_, fun id hid => .inl (hout ▸ hid), hstopped⟩
  · rw [hout]
    exact hs.left (hmode ▸ h)
  · rw [hids, List.append_nil]
  · rw [Site.launched, happlied] at hid
    exact hid

/-- What an engine does, whether it fails or not. -/
theorem Tends.take (hs : s.Tends) (hnode : u.node = s.node)
    (hlaunched : u.launched ⊆ s.launched ++ step.effects.filterMap Effect.sent?)
    (hcoherent : step.fault? = none → step.engine.Coherent)
    (hleft : step.engine.mode ≠ .transferring → step.engine.outgoing = [])
    (hsent : step.effects.filterMap Effect.sent? ⊆ step.engine.outgoing)
    (hout : ∀ id ∈ s.node.engine.outgoing, id ∈ step.engine.outgoing ∨
      ∀ v ∈ s.node.background.transfers, v.id = id → v.stage = .stopped) :
    Advances (step.effects.filterMap Effect.started?) s (u.take step) where
  isOpen := ⟨take_storeOpen.trans (hnode ▸ hs.isOpen.storeOpen), take_upcallOpen.trans (hnode ▸ hs.isOpen.upcallOpen)⟩
  coherent h := by
    rw [take_running, Bool.and_eq_true, Option.isNone_iff_eq_none] at h
    exact take_engine ▸ hcoherent h.2
  left := take_engine (s := u) ▸ hleft
  ids := by rw [ids_take, hnode]
  transfers := by
    rw [take_engine]
    refine forall_take (fun v hv => .inl ⟨v, hnode ▸ hv, .refl v⟩) (fun v hv => hv.act (a := .change v.mailbox true v.reply?) rfl)
      fun x hx => Effect.keeps (fun ha hv => hv.act ha) fun v hv hid hsends => ?_
    exact .inr ⟨List.mem_filterMap.mpr ⟨x, hx, hid⟩, hv.lived, fun hrole =>
      hsent (List.mem_filterMap.mpr ⟨x, hx, hsends hrole⟩)⟩
  launched id hid := by
    rw [Site.launched, take_applied] at hid
    refine (List.mem_append.mp (hlaunched hid)).imp_right fun hid => ⟨?_, ?_⟩
    · obtain ⟨x, hx, hx'⟩ := List.mem_filterMap.mp hid
      exact List.mem_filterMap.mpr ⟨x, hx, Effect.started?_of_sent? hx'⟩
    · exact take_engine (s := u) ▸ hsent hid
  outgoing := take_engine (s := u) ▸ hout
  stopped id hid := .inl (by rw [take_stopped, hnode] at hid; exact hid)

theorem Tends.halt (hs : s.Tends) : Advances [] s s.halt := by
  refine hs.aside ⟨?_, hs.isOpen.upcallOpen⟩ (fun h => by cases h) (.refl _) rfl Background.ids_releaseAll ?_
    fun id hid => .inl hid
  · exact Background.storeOpen_releaseAll.trans hs.isOpen.storeOpen
  · exact Background.forall_releaseAll (fun v hv => ⟨v, hv, .refl v⟩) fun u ⟨v, hv, huv⟩ =>
      ⟨v, hv, huv.trans (Transfer.succeeds_of_act (a := .change u.mailbox true u.reply?) rfl)⟩

theorem Tends.heard {e : Event} (hs : s.Tends) (he : Heard o s e t) : t.Tends := by
  have hsub : t.node.notices.stopped ⊆ s.node.notices.stopped := by
    cases he with
    | hear | response | completion => exact fun _ h => h
    | stopped => exact (List.eraseIdx_sublist ..).subset
  obtain ⟨notices, rfl⟩ := he.eq
  exact ⟨⟨hs.isOpen.storeOpen, hs.isOpen.upcallOpen⟩, hs.coherent, hs.left, hs.launched, hs.known,
    fun id hid => hs.stopped id (hsub hid), hs.lived⟩

theorem sent?_of_idle {x : Effect} (hx : x.isWork = false) : x.sent? = none := by
  cases x with
  | startSend => cases hx
  | _ => rfl

/-- An event other than a batch of decisions. -/
theorem Tends.handle {e : Event} (hs : s.Tends) (hrun : s.running = true) (he : ∀ ds, e ≠ .decide ds)
    (hstopped : ∀ id, e = .stopped id → ∀ v ∈ s.node.background.transfers, v.id = id → v.stage = .stopped)
    (hnodup : (s.handle e).node.background.ids.Nodup) : (s.handle e).Tends := by
  rw [ids_handle, ← ids_take] at hnodup
  have hreacts := Engine.reacts_handle (h := s.node.host) (e := s.node.engine) he
  have hcoherent := (hs.coherent hrun).react hreacts
  have hnone : (s.node.engine.handle s.node.host e).effects.filterMap Effect.sent? = [] :=
    List.filterMap_eq_nil_iff.mpr fun x hx => sent?_of_idle ((Engine.idle_handle he).2 x hx)
  have htake : (s.take (s.node.engine.handle s.node.host e)).Tends := by
    refine hs.advances (hs.take rfl (List.subset_append_left ..) (fun _ => hcoherent) hcoherent.outgoing_eq_nil
      (hnone ▸ List.nil_subset _) fun id hid => ?_) hnodup
    rcases hreacts.outgoing with heq | ⟨id', rfl, heq⟩
    · exact .inl (heq ▸ hid)
    · by_cases hne : id = id'
      · exact .inr (hne ▸ hstopped id' rfl)
      · rw [heq]
        exact .inl (List.mem_filter.mpr ⟨hid, decide_eq_true hne⟩)
  by_cases hstop : e = .stop
  · subst hstop
    exact htake.advances htake.halt (Background.ids_releaseAll.symm ▸ hnodup)
  · exact handle_eq_take hstop ▸ htake

theorem Tends.apply {e : Position × Value} {rest : List (Position × Value)} (hs : s.Tends) (hrun : s.running = true) :
    ∃ started, Advances started s (s.apply e rest) := by
  have hlaunched : Site.launched { s with
      released := rest
      applied := s.applied ++ [⟨e.1, e.2, s.node.engine, (s.node.engine.apply s.node.host e.1 e.2).effects⟩] } =
      s.launched ++ (s.node.engine.apply s.node.host e.1 e.2).effects.filterMap Effect.sent? := by
    simp [Site.launched]
  refine ⟨_, hs.take rfl (fun _ hid => hlaunched ▸ hid) ?_ ?_ ?_ ?_⟩
  -- A view change without a next version fails when it has taken the view over: it starts nothing and forgets nothing.
  all_goals
    rcases Engine.turns_or_fails (h := s.node.host) hs.isOpen.storeOpen hs.isOpen.upcallOpen e.1 e.2 s.node.engine
      with ht | ⟨r, fault, -, -, heq⟩
  · exact fun _ => (hs.coherent hrun).turn ht
  · rw [heq]
    exact fun h => by cases h
  · exact ((hs.coherent hrun).turn ht).outgoing_eq_nil
  · rw [heq]
    exact hs.left
  · exact ht.outgoing ▸ List.subset_append_right ..
  · rw [heq]
    exact List.nil_subset _
  · exact fun id hid => .inl (ht.outgoing ▸ List.mem_append_left _ hid)
  · rw [heq]
    exact fun id hid => .inl hid

theorem Tends.finish (hs : s.Tends) (hrun : s.running = true) : ∃ started, Advances started s s.finish := by
  have hquiet := Engine.quiet_prune (h := s.node.host) s.node.engine
  have hcoherent := (hs.coherent hrun).quiet hquiet
  have hnone : (s.node.engine.prune s.node.host).effects.filterMap Effect.sent? = [] :=
    List.filterMap_eq_nil_iff.mpr fun x hx => by
      obtain ⟨watermark, rfl⟩ := Engine.kept_prune.2 x hx
      rfl
  obtain ⟨drawn, lastSnapshot, pruned, log, heq⟩ := hquiet
  refine ⟨_, hs.take rfl (List.subset_append_left ..) (fun _ => hcoherent) hcoherent.outgoing_eq_nil
    (hnone ▸ List.nil_subset _) fun id hid => .inl ?_⟩
  rw [heq]
  exact hid

/-- A transfer that goes on, or takes the stop. -/
theorem Tends.lead {id : TransferId} {n : Node} {f : Transfer → Option (Transfer × List Transfer.Report)} (hs : s.Tends)
    (hf : ∀ t out, f t = some out → ∃ a, t.act a = some out) (hn : s.node.lead id f = some n) :
    Advances [] s { s with node := n } := by
  have hids := ids_lead (fun t out h => (hf t out h).elim fun a ha => (Transfer.identity_of_act ha).1) hn
  obtain ⟨v, u, reports, hv, hu, rfl⟩ := Node.lead_eq_some hn
  obtain ⟨a, ha⟩ := hf v _ hu
  obtain ⟨hmem, hid⟩ := Transfer.of_find? hv
  refine hs.aside ⟨hs.isOpen.storeOpen, hs.isOpen.upcallOpen⟩ (fun h => h) (.refl _) rfl hids ?_ fun id' hid' => ?_
  · exact forall_replaced (fun w hw _ => ⟨w, hw, .refl w⟩) ⟨v, hmem, Transfer.succeeds_of_act ha⟩
  · refine (List.mem_append.mp hid').imp_right fun hid' => ?_
    obtain ⟨r, hr, rfl⟩ := List.mem_map.mp hid'
    obtain ⟨hr, hsays⟩ := List.mem_filter.mp hr
    have hstopped := Transfer.stage_of_isStopped ha hr (Bool.and_eq_true_iff.mp hsays).1
    exact ⟨hid ▸ List.mem_map_of_mem hmem, forall_replaced (fun w _ hne heq => absurd heq hne) fun _ => hstopped⟩

theorem Tends.execute (hs : s.Tends) (hq : s.node.background.queue ≠ []) :
    Advances [] s { s with node := (s.node.serve 1).1 } := by
  obtain ⟨⟨r, requester?⟩, rest, hq⟩ := List.exists_cons_of_ne_nil hq
  rw [Node.serve_one hq]
  refine hs.aside ⟨?_, hs.isOpen.upcallOpen⟩ (fun h => h) (.refl _) rfl ?_ ?_ fun id hid => .inl hid
  · exact (Background.storeOpen_resolve ..).trans hs.isOpen.storeOpen
  · exact Background.ids_resolve ..
  · exact Background.forall_resolve _ _ (fun w hw => ⟨w, hw, .refl w⟩) fun w _ ⟨v, hv, hwv⟩ =>
      ⟨v, hv, hwv.trans (Transfer.succeeds_of_act (a := .change w.mailbox w.orphaned _) rfl)⟩

theorem Tends.moves (hs : s.Tends) (hm : Moves o s t) (hnodup : t.node.background.ids.Nodup) : t.Tends := by
  have of_advances : (∃ started, Advances started s t) → t.Tends := fun ⟨_, h⟩ => hs.advances h hnodup
  have beside : ∀ u ∈ s.node.background.transfers, ∃ v ∈ s.node.background.transfers, u.Succeeds v :=
    fun u hu => ⟨u, hu, .refl u⟩
  have hopen := hs.isOpen.moves hm
  cases hm with
  | @hear e u hi he =>
    have hrun : u.running = true := by
      obtain ⟨notices, rfl⟩ := he.eq
      exact running_of_isIdle hi
    refine (hs.heard he).handle hrun (not_decide_of_heard he) ?_ hnodup
    rintro id rfl
    cases he with
    | hear hext ho => cases hext
    | stopped hid => exact (hs.stopped id (List.mem_of_getElem? hid)).2
  | deliver hi hd => exact of_advances ⟨[], hs.aside hopen (fun h => h) (.refl _) rfl rfl beside fun id hid => .inl hid⟩
  | apply hrun hr => exact of_advances (hs.apply hrun)
  | insert hrun hr hb =>
    exact of_advances ⟨[], hs.aside hopen (fun h => h) ⟨_, _, _, _, rfl⟩ rfl rfl beside fun id hid => .inl hid⟩
  | finish hrun hr hb => exact of_advances (hs.finish hrun)
  | execute hq => exact of_advances ⟨[], hs.execute hq⟩
  | transfer hn => exact of_advances ⟨[], hs.lead (fun t out h => ⟨.step _ _, h⟩) hn⟩
  | wait ms =>
    obtain ⟨-, htransfers, -⟩ := Background.expire_frame (b := s.node.background) (s.node.now + ms)
    refine of_advances ⟨[], hs.aside hopen (fun h => h) (.refl _) rfl (congrArg (List.map _) htransfers) ?_
      fun id hid => .inl hid⟩
    exact fun u hu => ⟨u, htransfers ▸ hu, .refl u⟩
  | register ha => exact of_advances ⟨[], hs.aside hopen (fun h => h) (.refl _) rfl rfl beside fun id hid => .inl hid⟩

/-! ### Runs -/

/-- What can happen at a replica, where a transfer whose run could end may take the stop before it does. -/
inductive Choice where
  | act (a : Act)
  | halt (id : TransferId)

/-- The replica after a choice; `none` if it is not possible. -/
def choose (s : Site) : Choice → Option Site
  | .act a => s.act a
  | .halt id => (s.node.haltTransfer id).map fun n => { s with node := n }

/-- The replica after choices, one after the other. -/
def play (s : Site) : List Choice → Option Site
  | [] => some s
  | c :: choices => (s.choose c).bind fun t => t.play choices

/-- A choice is a move, or brings a batch of decisions, or makes a transfer take the stop. -/
theorem choose_cases {c : Choice} (h : s.choose c = some t) :
    (∃ o, Moves o s t) ∨ (∃ decisions, t = { s with batch? := some decisions }) ∨
      ∃ id n, s.node.haltTransfer id = some n ∧ t = { s with node := n } := by
  cases c with
  | act a => exact (moves_or_delivers h).imp (fun hm => ⟨_, hm⟩) .inl
  | halt id =>
    obtain ⟨n, hn, rfl⟩ := Option.map_eq_some_iff.mp h
    exact .inr (.inr ⟨id, n, hn, rfl⟩)

theorem ids_choose {c : Choice} (h : s.choose c = some t) : s.node.background.ids <+: t.node.background.ids := by
  rcases choose_cases h with ⟨o, hm⟩ | ⟨decisions, rfl⟩ | ⟨id, n, hn, rfl⟩
  · exact ids_moves hm
  · exact List.prefix_rfl
  · exact ids_lead (fun t out h => (Transfer.identity_of_act (a := .halt) h).1) hn ▸ List.prefix_rfl

theorem Tends.choose {c : Choice} (hs : s.Tends) (h : s.choose c = some t) (hnodup : t.node.background.ids.Nodup) :
    t.Tends := by
  rcases choose_cases h with ⟨o, hm⟩ | ⟨decisions, rfl⟩ | ⟨id, n, hn, rfl⟩
  · exact hs.moves hm hnodup
  · exact ⟨⟨hs.isOpen.storeOpen, hs.isOpen.upcallOpen⟩, hs.coherent, hs.left, hs.launched, hs.known, hs.stopped, hs.lived⟩
  · exact hs.advances (hs.lead (fun t out h => ⟨.halt, h⟩) hn) hnodup

theorem ids_play {choices : List Choice} (h : s.play choices = some t) :
    s.node.background.ids <+: t.node.background.ids := by
  induction choices generalizing s with
  | nil => exact Option.some.inj h ▸ List.prefix_rfl
  | cons c choices ih =>
    obtain ⟨u, hu, h⟩ := Option.bind_eq_some_iff.mp h
    exact (ids_choose hu).trans (ih h)

theorem Tends.play {choices : List Choice} (hs : s.Tends) (h : s.play choices = some t)
    (hnodup : t.node.background.ids.Nodup) : t.Tends := by
  induction choices generalizing s with
  | nil => exact Option.some.inj h ▸ hs
  | cons c choices ih =>
    obtain ⟨u, hu, h⟩ := Option.bind_eq_some_iff.mp h
    exact ih (hs.choose hu ((ids_play h).sublist.nodup hnodup)) h

/-- Where the engine does not transfer, it has forgotten all that it sent, and that has stopped. -/
theorem Tends.ended (hs : s.Tends) (hm : s.node.engine.mode ≠ .transferring) :
    (∀ u ∈ s.node.background.transfers, u.role = .send → u.stage = .stopped) ∧
      ∀ id ∈ s.launched, ∃ u ∈ s.node.background.transfers, u.id = id ∧ u.stage = .stopped := by
  have hnone : ∀ id, id ∉ s.node.engine.outgoing := fun id => by
    rw [hs.left hm]
    exact List.not_mem_nil
  refine ⟨fun u hu hrole => (hs.known u hu (.inl hrole)).resolve_left (hnone u.id), fun id hid => ?_⟩
  obtain ⟨u, hu, rfl⟩ := List.mem_map.mp (hs.launched hid)
  exact ⟨u, hu, rfl, (hs.known u hu (.inr hid)).resolve_left (hnone u.id)⟩

/-- The news that a transfer has stopped is true of it, and makes the engine forget no other one. -/
theorem Tends.act_stopped (hs : s.Tends) {i : Nat} (h : s.act (.stopped i) = some t) :
    ∃ id, s.node.notices.stopped[i]? = some id ∧
      (∀ u ∈ s.node.background.transfers, u.id = id → u.stage = .stopped) ∧
      ∀ other, other ≠ id → (other ∈ t.node.engine.outgoing ↔ other ∈ s.node.engine.outgoing) ∧
        (t.node.engine.incoming? = some other ↔ s.node.engine.incoming? = some other) := by
  obtain ⟨-, h⟩ := Option.ite_none_right_eq_some.mp h
  obtain ⟨id, hid, rfl⟩ := Option.map_eq_some_iff.mp h
  refine ⟨id, hid, (hs.stopped id (List.mem_of_getElem? hid)).2, fun other hne => ?_⟩
  rw [handle_eq_take (e := .stopped id) (fun h => by cases h), take_engine]
  exact Engine.known_after_stopped hne

end Site

/-- A transfer ends once. Whatever happens to it, and whenever it is stopped, it reports the end of its run once, when the
    run has ended: with the outcome of the run if this ended first, and with the fault of being stopped if the stop was
    taken first. After this, and once it is told to stop, it reports once that it has stopped, and nothing else; left to
    itself, it always comes there.

    Whatever happens at a replica, while no two of its transfers have the same identifier: every transfer has come from
    its beginning in such a way. If the replica does not transfer, each run that it has started to send is over, and its
    transfer has stopped. The news that a transfer has stopped comes only after the stop, and makes the engine forget no
    other transfer. -/
theorem transfers_end_once :
    (∀ t acts out, Transfer.Begins t → t.life acts = some out → t.Tells acts out ∧
      (out.1.stopping = true → ∀ links now, (out.1.poll links now).1.stage = .stopped)) ∧
    ∀ start choices s, Site.Starts start → start.play choices = some s → s.node.background.ids.Nodup →
      (∀ u ∈ s.node.background.transfers, u.Lived) ∧
      (s.node.engine.mode ≠ .transferring →
        (∀ u ∈ s.node.background.transfers, u.role = .send → u.stage = .stopped) ∧
        ∀ id ∈ s.launched, ∃ u ∈ s.node.background.transfers, u.id = id ∧ u.stage = .stopped) ∧
      ∀ i t, s.act (.stopped i) = some t → ∃ id, s.node.notices.stopped[i]? = some id ∧
        (∀ u ∈ s.node.background.transfers, u.id = id → u.stage = .stopped) ∧
        ∀ other, other ≠ id → (other ∈ t.node.engine.outgoing ↔ other ∈ s.node.engine.outgoing) ∧
          (t.node.engine.incoming? = some other ↔ s.node.engine.incoming? = some other) := by
  refine ⟨fun t acts out hbegins hlife => ⟨Transfer.tells_of_life hbegins.isOpen hlife, fun hstop links now =>
    Transfer.stopped_poll hstop⟩, fun start choices s hstarts hplay hnodup => ?_⟩
  have hs := hstarts.tends.play hplay hnodup
  exact ⟨hs.lived, hs.ended, fun i t h => hs.act_stopped h⟩

/-- A replica sends to two members that do not take anything. The second transfer ends first, and stops last. -/
def refusedSends : List Site.Act :=
  [.deliver [⟨1, .reconfigure ⟨⟨1⟩, ⟨2, .ofList [.name "a", .name "b", .name "c"]⟩, 3, 1, .full⟩⟩],
    .advance, .advance, .advance, .transfer ⟨0⟩, .transfer ⟨2⟩, .execute, .execute, .transfer ⟨2⟩, .transfer ⟨0⟩,
    .completion 1, .transfer ⟨0⟩, .stopped 0, .completion 0, .transfer ⟨2⟩, .stopped 0]

/-- A transfer begins to wait, is stopped, and takes the stop. -/
def takenStop : List Transfer.Act :=
  [.step ⟨true, fun _ _ => .ok ()⟩ 0, .stop, .halt, .step ⟨true, fun _ _ => .ok ()⟩ 0]

/-- A transfer takes an announcement without position and version, which ends its run, and is stopped meanwhile. -/
def endedRun : List Transfer.Act :=
  [.step ⟨true, fun _ _ => .ok ()⟩ 0, .stop,
    .change [.initiate ⟨⟨9⟩, .name "a", .full, ⟨none, some 7⟩⟩] false none, .step ⟨true, fun _ _ => .ok ()⟩ 0,
    .step ⟨true, fun _ _ => .ok ()⟩ 0]

/-- The replica transfers until both have stopped. A transfer that takes the stop first says so, and one whose run ends
    first reports what the run has ended with, although it is stopped before. -/
theorem refused_sends_end_once :
    (∃ s, (Site.bootstrapped (.name "a") default .ofNat .empty ⟨⟨1, .ofList [.name "a"]⟩, 1, .full⟩).play
        (refusedSends.map .act) = some s ∧ s.launched = [⟨0⟩, ⟨2⟩] ∧ s.node.engine.mode = .active ∧
      ∀ id ∈ s.launched, ∃ u ∈ s.node.background.transfers, u.id = id ∧ u.stage = .stopped) ∧
    (∃ out, (Transfer.receiving (.name "b") default ⟨3⟩).life takenStop = some out ∧
      out.2 = [.completed ⟨⟨3⟩, .receive, .error (.transfer ⟨3⟩ .stopped)⟩, .stopped] ∧
      (Transfer.receiving (.name "b") default ⟨3⟩).Tells takenStop out) ∧
    ∃ out, (Transfer.receiving (.name "b") default ⟨3⟩).life endedRun = some out ∧
      out.2 = [.completed ⟨⟨3⟩, .receive, .ok ⟨none, some 7⟩⟩, .stopped] ∧
      (Transfer.receiving (.name "b") default ⟨3⟩).Tells endedRun out := by
  obtain ⟨hends, hreplica⟩ := transfers_end_once
  refine ⟨?_, ⟨_, rfl, rfl, (hends _ _ _ (.receiving ..) rfl).1⟩, _, rfl, rfl, (hends _ _ _ (.receiving ..) rfl).1⟩
  generalize hstart : Site.bootstrapped (.name "a") default .ofNat .empty ⟨⟨1, .ofList [.name "a"]⟩, 1, .full⟩ = start
  have hplayed : (start.play (refusedSends.map .act)).map (fun s => (s.launched, s.node.engine.mode,
      decide s.node.background.ids.Nodup)) = some ([⟨0⟩, ⟨2⟩], .active, true) := by
    rw [← hstart]
    decide +kernel
  obtain ⟨s, hs, hplayed⟩ := Option.map_eq_some_iff.mp hplayed
  simp only [Prod.mk.injEq, decide_eq_true_eq] at hplayed
  obtain ⟨hlaunched, hmode, hnodup⟩ := hplayed
  refine ⟨s, hs, hlaunched, hmode, ?_⟩
  exact (hreplica start _ s (hstart ▸ .bootstrapped ..) hs hnodup).2.1 (by rw [hmode]; exact nofun) |>.2

end ReplicaGroup
