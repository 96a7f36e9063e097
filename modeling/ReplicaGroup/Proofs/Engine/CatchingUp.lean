import ReplicaGroup.Proofs.Engine.Apply

/-! # Engines that do not serve yet

Before its own marker an engine writes nothing: it answers, proposes, measures, and passes messages to the
one transfer that it has started to receive. Every event and every decided value is sorted here into the few
things that it can lead to. -/

namespace ReplicaGroup

/-- Whether an effect writes nothing, and starts or reaches no transfer except to stop it. -/
def Effect.isMinor : Effect → Bool
  | propose _ | upcall _ | stopTransfer _ | request (.size _) => true
  | _ => false

/-- An effect that starts no transfer, and asks storage for nothing but a size. -/
structure Effect.IsCalm (x : Effect) : Prop where
  request : ∀ r, x.request? = some r → ∃ range, r = .size range
  outbound : x.outbound? = none
  receive : x.isReceive = false

theorem Effect.isCalm_of_isMinor {x : Effect} (h : x.isMinor = true) : x.IsCalm := by
  cases x with
  | request r =>
    cases r with
    | size range => exact ⟨fun r' hr' => by cases hr'; exact ⟨range, rfl⟩, rfl, rfl⟩
    | get | put | scan | multi | cleanup | snapshot => cases h
  | propose | upcall | stopTransfer => exact ⟨fun r hr => (by cases hr), rfl, rfl⟩
  | prune | startSend | startReceive | deliver | releaseTransfer => cases h

/-- A calm effect starts no transfer. -/
theorem Effect.keeps_of_isCalm {P : Transfer → Prop} (hdeliver : ∀ t m, P t → P { t with mailbox := t.mailbox ++ [m] })
    (hstop : ∀ t, P t → P { t with stopping := true }) (hrelease : ∀ t, P t → P { t with orphaned := true }) {x : Effect}
    (h : x.IsCalm) (addr : Addr) (config : Config) : x.Keeps P addr config := by
  cases x with
  | startSend => cases h.outbound
  | startReceive => cases h.receive
  | deliver id m => exact fun t _ ht => hdeliver t m ht
  | stopTransfer id => exact fun t _ ht => hstop t ht
  | releaseTransfer id => exact fun t _ ht => hrelease t ht
  | propose | prune | upcall | request => trivial

/-- What happens to a transfer by a minor effect is that it is stopped. -/
theorem Effect.keeps_of_isMinor {P : Transfer → Prop} (hP : ∀ t, P t → P { t with stopping := true }) {x : Effect}
    (h : x.isMinor = true) (addr : Addr) (config : Config) : x.Keeps P addr config := by
  cases x with
  | stopTransfer id => exact fun t _ ht => hP t ht
  | propose | upcall | request => trivial
  | prune | startSend | startReceive | deliver | releaseTransfer => cases h

namespace Engine
variable {e : Engine} {h : Host} {p : Position} {v : Value}

/-- What stays of an engine that goes on waiting for the group's state. -/
structure Waits (e e' : Engine) : Prop where
  mode : e'.mode = e.mode
  log : e'.log = e.log
  lastSnapshot : e'.lastSnapshot = e.lastSnapshot
  outgoing : e'.outgoing = e.outgoing
  incoming : e'.incoming? = e.incoming?
  held : e'.held? = e.held?
  syncing : e'.syncing? = e.syncing?

theorem Waits.refl (e : Engine) : e.Waits e := ⟨rfl, rfl, rfl, rfl, rfl, rfl, rfl⟩

theorem Waits.trans {e' e'' : Engine} (k : e.Waits e') (k' : e'.Waits e'') : e.Waits e'' :=
  ⟨k'.mode.trans k.mode, k'.log.trans k.log, k'.lastSnapshot.trans k.lastSnapshot, k'.outgoing.trans k.outgoing,
    k'.incoming.trans k.incoming, k'.held.trans k.held, k'.syncing.trans k.syncing⟩

/-- A step after which an engine goes on waiting. -/
def Minor (e : Engine) (s : Step) : Prop := s.All e.Waits fun x => x.isMinor = true

theorem minor_done : e.Minor e.done := all_done (.refl e)
theorem minor_fail (f : Fault) : e.Minor (e.fail f) := all_fail (.refl e)
theorem minor_tell (u : Upcall) : e.Minor (e.tell h u) := all_emit (.refl e) rfl

/-! ### Events -/

/-- What an event other than a batch of decisions leads to. -/
inductive Heeds (h : Host) (e : Engine) : Event → Step → Prop
  /-- Nothing is handed on but to the transfer that receives, which may take no messages any more. -/
  | minor {event : Event} {s : Step} (hs : e.Minor s)
    (hm : ∀ m, event = .message m → e.incoming? = none ∨ s.fault?.isSome ∨ ∃ id quota, m = .grant id quota) :
    Heeds h e event s
  /-- An announcement is kept until the replica joins. -/
  | holds {announced : Initiate} (hm : e.mode = .passive) :
    Heeds h e (.message (.initiate announced)) { e with held? := some announced }.done
  | hands {m : Message} {id : TransferId} (hi : e.incoming? = some id) (ho : h.transferOpen id = true) :
    Heeds h e (.message m) { engine := e, effects := [.deliver id m] }
  /-- The marker of a received state is proposed. -/
  | marks {c : Completion} {snapshot : Position} {version : Version} {s : Step} (hm : e.mode = .catchingUp)
    (hc : c.outcome = .ok ⟨some snapshot, some version⟩)
    (he : s.engine = { e with drawn := e.drawn + 1, syncing? := some ⟨⟨h.draw e.drawn⟩, snapshot, version⟩ })
    (hx : ∀ x ∈ s.effects, x.isMinor = true) : Heeds h e (.completed c) s
  | releases {id : TransferId} (hi : e.incoming? = some id) : Heeds h e (.stopped id)
      { engine := { e with incoming? := none }, effects := [.releaseTransfer id] }

/-- No event but decisions starts a transfer, or changes whether the replica serves. -/
theorem Heeds.calm {event : Event} {s : Step} (hs : Heeds h e event s) : s.engine.mode = e.mode ∧
    s.engine.outgoing = e.outgoing ∧ s.engine.lastSnapshot = e.lastSnapshot ∧ s.engine.log = e.log ∧
      ∀ x ∈ s.effects, x.IsCalm := by
  cases hs with
  | minor hs hm =>
    exact ⟨hs.1.mode, hs.1.outgoing, hs.1.lastSnapshot, hs.1.log, fun x hx => Effect.isCalm_of_isMinor (hs.2 x hx)⟩
  | holds hm => exact ⟨rfl, rfl, rfl, rfl, by simp [done]⟩
  | hands hi ho =>
    refine ⟨rfl, rfl, rfl, rfl, fun x hx => ?_⟩
    cases List.mem_singleton.mp hx
    exact ⟨fun r hr => (by cases hr), rfl, rfl⟩
  | marks hm hc he hx =>
    rw [he]
    exact ⟨rfl, rfl, rfl, rfl, fun x hmem => Effect.isCalm_of_isMinor (hx x hmem)⟩
  | releases hi =>
    refine ⟨rfl, rfl, rfl, rfl, fun x hx => ?_⟩
    cases List.mem_singleton.mp hx
    exact ⟨fun r hr => (by cases hr), rfl, rfl⟩

theorem heeds_route (ho : e.outgoing = []) (m : Message) : Heeds h e (.message m) (e.route h m) := by
  unfold route
  split
  · rw [ho]
    refine .minor minor_done fun m hm => ?_
    cases hm
    exact .inr (.inr ⟨_, _, rfl⟩)
  · next hm => exact .holds hm
  · split
    · next id hi =>
      unfold deliver emit
      split
      · next hopen => exact .hands hi hopen
      · exact .minor (minor_fail _) fun _ _ => .inr (.inl rfl)
    · next hi => exact .minor minor_done fun _ _ => .inl hi

theorem heeds_finishTransfer (c : Completion) : Heeds h e (.completed c) (e.finishTransfer h c) := by
  cases finishes_finishTransfer (h := h) (e := e) c with
  | stops he hx =>
    refine .minor ⟨by rw [he]; exact .refl e, fun x hmem => ?_⟩ (fun m hm => by cases hm)
    rw [hx x hmem]
    rfl
  | @marks sync hm hrole hin hc hmarker he hx hproposed =>
    obtain ⟨marker, snapshot, version⟩ := sync
    cases hmarker
    refine .marks hm hc he fun x hmem => ?_
    rcases hx x hmem with rfl | rfl <;> rfl

/-- What an event leads to at an engine without sending transfers, whose storage tells it sizes only. -/
theorem heeds_handle (ho : e.outgoing = []) {event : Event}
    (hd : ∀ ds, event ≠ .decide ds) (hr : ∀ r, event = .stored r → ∃ range bytes keys, r = .size range bytes keys) :
    Heeds h e event (e.handle h event) := by
  cases event with
  | submit op =>
    refine .minor ?_ (fun m hm => by cases hm)
    show e.Minor (e.submit h op)
    unfold submit
    split
    · exact minor_done
    · split
      · exact minor_tell _
      · exact all_emit (.refl e) rfl
  | decide ds => exact absurd rfl (hd ds)
  | changeView change =>
    refine .minor ?_ (fun m hm => by cases hm)
    show e.Minor (e.proposeView h change)
    unfold proposeView
    split
    · exact all_emit ⟨rfl, rfl, rfl, rfl, rfl, rfl, rfl⟩ rfl
    · exact minor_done
  | measure range => exact .minor (all_emit ⟨rfl, rfl, rfl, rfl, rfl, rfl, rfl⟩ rfl) (fun m hm => by cases hm)
  | stored r =>
    obtain ⟨range, bytes, keys, rfl⟩ := hr r rfl
    exact .minor (minor_done.andThen fun e' k => all_emit k rfl) (fun m hm => by cases hm)
  | message m => exact heeds_route ho m
  | completed c => exact heeds_finishTransfer c
  | stopped id =>
    show Heeds h e (.stopped id) (e.releaseTransfer id)
    unfold releaseTransfer
    rw [if_neg (by simp [ho])]
    split
    · next hi => exact .releases hi
    · exact .minor minor_done (fun m hm => by cases hm)
  | stop =>
    refine .minor ⟨.refl e, fun x hx => ?_⟩ (fun m hm => by cases hm)
    obtain ⟨id, -, rfl⟩ := List.mem_map.mp hx
    rfl

/-- Nothing is pruned before storage is known to hold anything. -/
theorem prune_eq_done (hs : e.lastSnapshot = 0) : e.prune h = e.done := by
  unfold prune
  rw [hs, if_pos (Nat.zero_le _)]

/-! ### Decided values -/

theorem minor_applyOp (hm : e.mode.isServing = false) (op : Operation) : e.Minor (e.applyOp h p op) := by
  have waits : ∀ e' : Engine, e' = e → e.Waits e' := fun e' he => he ▸ .refl e
  have answers : ∀ a e', e' = e → (respond h a e').All (fun e' => e' = e) fun x => x.isMinor = true := fun a e' he =>
    all_emit he rfl
  suffices hall : (e.applyOp h p op).All (fun e' => e' = e) fun x => x.isMinor = true from
    ⟨waits _ hall.1, hall.2⟩
  unfold applyOp
  cases hmode : e.mode with
  | active | transferring => rw [hmode] at hm; cases hm
  | passive => exact (Step.All.andThen (Step.All.andThen (all_done rfl) fun e' he => all_done he) fun e' he => all_done he)
  | catchingUp =>
    cases op.kind with
    | get | range =>
      exact (Step.All.andThen (Step.All.andThen (all_done rfl) fun e' he => all_done he) fun e' he => all_done he)
    | multi => exact answers _ e rfl
    | put =>
      refine Step.All.andThen (Step.All.andThen (all_done rfl) fun e' he => ?_) fun e' he => all_done he
      split
      · exact answers _ e' he
      · exact all_done he

/-- What an engine does on its own marker: from now on it serves, it replays what it has missed, and it
    forgets what it does not need. -/
structure Settles (p : Position) (e : Engine) (sync : Syncing) (s : Step) : Prop where
  mode : s.engine.mode = .active
  settled : s.engine.syncing? = none
  newer : sync.version ≤ s.engine.version
  requests : s.effects.filterMap Effect.request? =
    [.snapshot p (s.engine.replay sync.snapshot p), .cleanup e.range sync.version]
  effects : ∀ x ∈ s.effects, x.request?.isSome ∨ x.isMinor = true

/-- What a decided value leads to. -/
inductive Follows (h : Host) (p : Position) (e : Engine) : Value → Step → Prop
  | minor {v : Value} {s : Step} (hs : e.Minor s) : Follows h p e v s
  /-- The replica joins: it starts to receive, with the announcement that it has kept. -/
  | joins {r : Reconfiguration} {s : Step} (hm : e.mode = .passive) (hf : s.fault? = none)
    (hmode : s.engine.mode = .catchingUp) (hlog : s.engine.log = e.log)
    (hsnapshot : s.engine.lastSnapshot = e.lastSnapshot) (hout : s.engine.outgoing = e.outgoing)
    (hsync : s.engine.syncing? = e.syncing?) {id : TransferId} (hin : s.engine.incoming? = some id)
    (hheld : s.engine.held? = none) (hx : s.effects = [.startReceive id e.held?]) : Follows h p e (.reconfigure r) s
  | serves {sync : Syncing} {s : Step} (hsync : e.syncing? = some sync) (hs : e.Settles p sync s) :
    Follows h p e (.syncedUp sync.marker) s

theorem follows_reconfigure (hm : e.mode.isServing = false) (r : Reconfiguration) :
    Follows h p e (.reconfigure r) (e.reconfigure h p r) := by
  have hmoved := moved_reconfigure (h := h) (p := p) (e := e) r
  generalize e.reconfigure h p r = s at hmoved
  cases hmoved with
  | stale => exact .minor minor_done
  | fails => exact .minor (all_fail ⟨rfl, rfl, rfl, rfl, rfl, rfl, rfl⟩)
  | joins hpassive hn hv => exact .joins hpassive rfl rfl rfl rfl rfl rfl rfl rfl rfl
  | follows => exact .minor (all_done ⟨rfl, rfl, rfl, rfl, rfl, rfl, rfl⟩)
  | moves hserving hn hv hsent =>
    rw [hm] at hserving
    cases hserving

theorem follows_syncedUp (ho : h.storeOpen = true) (marker : OpId) :
    Follows h p e (.syncedUp marker) (e.syncedUp h p marker) := by
  unfold syncedUp
  split
  · exact .minor minor_done
  · next sync hsync =>
    split
    · next hmarker =>
      subst hmarker
      refine .serves hsync ⟨?_, ?_, ?_, ?_, ?_⟩ <;>
        cases hu : h.upcallOpen <;>
        simp [Step.andThen, issue, tell, emit, ho, hu, fail, Effect.request?, Effect.isMinor, Version.le_max_right, replay]
    · exact .minor minor_done

/-- What a decided value leads to at an engine that does not serve. -/
theorem follows_apply (hm : e.mode.isServing = false) (ho : h.storeOpen = true) (v : Value) :
    Follows h p e v (e.apply h p v) := by
  cases v with
  | op op => exact .minor (minor_applyOp hm op)
  | reconfigure r => exact follows_reconfigure hm r
  | scan id range => exact .minor (all_emit (.refl e) rfl)
  | syncedUp id => exact follows_syncedUp ho id
  | noop id => exact .minor minor_done
  | unknown id tag => exact .minor minor_done

/-- A replica receives only once: after it has joined, nothing starts to receive. -/
theorem receives_once (hm : e.mode ≠ .passive) (v : Value) :
    (e.apply h p v).All (fun e' => e'.mode ≠ .passive) fun x => x.isReceive = false := by
  have emits : ∀ {isOpen : Bool} {x : Effect} {e' : Engine}, e'.mode ≠ .passive → x.isReceive = false →
      (e'.emit isOpen x).All (fun e' => e'.mode ≠ .passive) fun x => x.isReceive = false := fun he hx => all_emit he hx
  cases v with
  | op op => exact all_applyOp (fun _ => hm) (fun _ => rfl) fun _ => rfl
  | reconfigure r =>
    have hmoved := moved_reconfigure (h := h) (p := p) (e := e) r
    show (e.reconfigure h p r).All _ _
    generalize e.reconfigure h p r = s at hmoved
    cases hmoved with
    | stale | follows => exact all_done hm
    | fails => exact all_fail hm
    | joins hpassive hn hv => exact absurd hpassive hm
    | moves hserving hn hv hsent =>
      refine ⟨fun hpassive => ?_, fun x hx => ?_⟩
      · have hserving := congrArg Mode.isServing hpassive
        rw [(kept_finishTransferring _).isServing] at hserving
        cases hserving
      · obtain ⟨n, scanId, -, a, -, rfl⟩ := exists_of_mem_sendings (hsent ▸ hx)
        rfl
  | scan id range => exact emits hm rfl
  | syncedUp id =>
    refine all_syncedUp hm (fun version snapshot mode hmode => ?_) (fun _ => rfl) rfl
    rcases hmode with rfl | rfl
    · exact hm
    · exact nofun
  | noop id => exact all_done hm
  | unknown id tag => exact all_done hm

@[simp] theorem range_finishTransferring (e : Engine) : e.finishTransferring.range = e.range :=
  (kept_finishTransferring e).range

/-- What is applied settles the range, as it does the view. -/
theorem apply_range (v : Value) : (e.apply h p v).engine.range =
    match v with
    | .reconfigure r => if r.view.isNewerThan e.view then r.range else e.range
    | _ => e.range := by
  have emits : ∀ {isOpen : Bool} {x : Effect} {e' : Engine}, e'.range = e.range →
      (e'.emit isOpen x).All (fun e' => e'.range = e.range) fun _ => True := fun he => all_emit he trivial
  cases v with
  | op op =>
    exact (all_applyOp (I := fun e' => e'.range = e.range) (P := fun _ => True) (fun _ => rfl) (fun _ => trivial)
      fun _ => trivial).1
  | reconfigure r =>
    have hmoved := moved_reconfigure (h := h) (p := p) (e := e) r
    show (e.reconfigure h p r).engine.range = if r.view.isNewerThan e.view then r.range else e.range
    generalize e.reconfigure h p r = s at hmoved
    cases hmoved with
    | stale hn => rw [hn]; rfl
    | fails hn | joins _ hn | follows _ hn => rw [hn]; rfl
    | moves hm hn hv hsent =>
      rw [hn]
      exact range_finishTransferring _
  | scan id range => exact (emits rfl).1
  | syncedUp id =>
    exact (all_syncedUp (I := fun e' => e'.range = e.range) (P := fun _ => True) rfl (fun _ _ _ _ => rfl)
      (fun _ => trivial) trivial).1
  | noop id => rfl
  | unknown id tag => rfl

end Engine
end ReplicaGroup
