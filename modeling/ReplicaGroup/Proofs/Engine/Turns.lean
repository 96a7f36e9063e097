import ReplicaGroup.Proofs.Engine.Course

/-! # Turns of an engine

Everything that a decided value, and any other event, can make of an engine. A decided value may turn the
engine: it joins, follows the group to a newer view, moves there as a serving member, or settles on its own
marker. Any other event changes what the engine knows of its transfers and of the announcement that it holds,
or makes it wait for a marker. -/

namespace ReplicaGroup.Engine
variable {e : Engine} {h : Host} {p : Position} {v : Value}

/-! ### Values -/

/-- What an engine does on a value that does not turn it: it measures a range, executes an operation, or
    answers one. -/
inductive Routine (e : Engine) (v : Value) : Effect → Prop
  | measures (range : KeyRange) : Routine e v (.request (.size range))
  | executes {op : Operation} (hv : v = .op op) (hm : e.mode.isServing = true) :
    Routine e v (.request (op.request e.version))
  | answers (a : Answer) : Routine e v (.upcall (.answer a))

/-- What applying a value makes of an engine, if it does not fail. -/
inductive Turns (h : Host) (p : Position) (e : Engine) : Value → Step → Prop
  | stays {v : Value} {s : Step} {snapshot : Position} (he : s.engine = { e with lastSnapshot := snapshot })
    (hx : ∀ x ∈ s.effects, e.Routine v x)
    (hn : ∀ r, v = .reconfigure r → r.view.isNewerThan e.view = false)
    (hs : ∀ sync, e.syncing? = some sync → v ≠ .syncedUp sync.marker) : Turns h p e v s
  /-- A replica that has waited for a view starts to receive the state of the group. -/
  | joins {r : Reconfiguration} {version : Version} (hm : e.mode = .passive)
    (hn : r.view.isNewerThan e.view = true) (hv : r.version.succ? = some version) : Turns h p e (.reconfigure r)
      { engine := { e.adopt r with
          version, mode := .catchingUp, incoming? := some ⟨h.draw e.drawn⟩, held? := none, drawn := e.drawn + 1 }
        effects := [.startReceive ⟨h.draw e.drawn⟩ e.held?] }
  | follows {r : Reconfiguration} {version : Version} (hm : e.mode = .catchingUp)
    (hn : r.view.isNewerThan e.view = true) (hv : r.version.succ? = some version) : Turns h p e (.reconfigure r)
      { e.adopt r with version := max e.version version }.done
  /-- A serving replica sends to the joining members that it is responsible for. -/
  | moves {r : Reconfiguration} {version : Version} {sent : List Effect} (hm : e.mode.isServing = true)
    (hn : r.view.isNewerThan e.view = true) (hv : e.version.succ? = some version)
    (hsent : sent = sendings h p r.range version e.drawn (e.view.recipients r.view h.addr).toList) :
    Turns h p e (.reconfigure r)
      { engine := { e.adopt r with
          version, mode := .transferring
          outgoing := e.outgoing ++ sent.filterMap fun x => (Effect.outbound? x).map Outbound.id
          drawn := e.drawn + 2 * (e.view.recipients r.view h.addr).toList.length }.finishTransferring
        effects := sent }
  /-- The own marker makes a replica serve, after it has replayed what it has missed. -/
  | settles {sync : Syncing} {s : Step} {version : Version} (hs : e.syncing? = some sync)
    (hv : version = max e.version sync.version)
    (he : s.engine = { e with syncing? := none, version, lastSnapshot := sync.snapshot, mode := .active })
    (hx : s.effects = [.request (.snapshot p ({ e with version }.replay sync.snapshot p)),
      .request (.cleanup e.range sync.version), .upcall .synced]) : Turns h p e (.syncedUp sync.marker) s

theorem turns_of_done (hn : ∀ r, v = .reconfigure r → r.view.isNewerThan e.view = false)
    (hs : ∀ sync, e.syncing? = some sync → v ≠ .syncedUp sync.marker) : Turns h p e v e.done :=
  .stays rfl (fun _ hx => absurd hx List.not_mem_nil) hn hs

/-- An operation leaves all but the last snapshot, in whatever mode. -/
theorem routine_applyOp (op : Operation) : (e.applyOp h p op).All
    (fun e' => ∃ snapshot, e' = { e with lastSnapshot := snapshot }) (e.Routine (.op op)) := by
  unfold applyOp
  cases hr : Rule.find? e.mode op.kind with
  | none => exact all_emit ⟨_, rfl⟩ (.answers _)
  | some rule =>
    refine Step.All.andThen (Step.All.andThen ?_ fun e' he => ?_) fun e' he => ?_
    · cases hm : e.mode.isServing with
      | true =>
        obtain ⟨captures, hrule⟩ := Rule.find?_serving hm op.kind
        cases hr.symm.trans hrule
        exact all_emit ⟨_, rfl⟩ (.executes rfl hm)
      | false =>
        -- Only a serving replica hands an operation to storage.
        have hnone : (rule.initiate op p e.version).request? = none := by
          cases hmode : e.mode <;> rw [hmode] at hr hm <;> cases hm <;> cases hkind : op.kind <;> rw [hkind] at hr <;>
            cases hr <;> rfl
        rw [hnone]
        exact all_done ⟨_, rfl⟩
    · split
      · exact all_emit he (.answers _)
      · exact all_done he
    · obtain ⟨q, rfl⟩ := he
      split <;> exact all_done ⟨_, rfl⟩

/-- A move to a newer view fails where there is no next version. -/
theorem turns_or_fails_reconfigure (r : Reconfiguration) : Turns h p e (.reconfigure r) (e.reconfigure h p r) ∨
    r.view.isNewerThan e.view = true ∧ ∃ fault, e.reconfigure h p r = (e.adopt r).fail fault := by
  have hmoved := moved_reconfigure (h := h) (p := p) (e := e) r
  generalize e.reconfigure h p r = s at hmoved
  cases hmoved with
  | stale hn => exact .inl (turns_of_done (fun r' hr => by cases hr; exact hn) nofun)
  | fails hn => exact .inr ⟨hn, _, rfl⟩
  | joins hm hn hv => exact .inl (.joins hm hn hv)
  | follows hm hn hv => exact .inl (.follows hm hn hv)
  | moves hm hn hv hsent => exact .inl (.moves hm hn hv hsent)

theorem turns_reconfigure {r : Reconfiguration} (hf : (e.reconfigure h p r).fault? = none) :
    Turns h p e (.reconfigure r) (e.reconfigure h p r) :=
  (turns_or_fails_reconfigure r).resolve_right fun ⟨_, fault, heq⟩ => by
    rw [heq] at hf
    cases hf

theorem turns_syncedUp {marker : OpId} (hf : (e.syncedUp h p marker).fault? = none) :
    Turns h p e (.syncedUp marker) (e.syncedUp h p marker) := by
  by_cases hs : ∃ sync, e.syncing? = some sync ∧ sync.marker = marker
  · obtain ⟨sync, hs, rfl⟩ := hs
    obtain ⟨he, hx⟩ := syncedUp_of_marker hs hf
    exact .settles hs rfl he hx
  · have hother : ∀ sync, e.syncing? = some sync → sync.marker ≠ marker := fun sync hsync hmarker =>
      hs ⟨sync, hsync, hmarker⟩
    rw [syncedUp_of_other hother]
    exact turns_of_done nofun fun sync hsync heq => hother sync hsync (Value.syncedUp.inj heq).symm

theorem turns_op (op : Operation) : Turns h p e (.op op) (e.applyOp h p op) := by
  obtain ⟨⟨snapshot, he⟩, hx⟩ := routine_applyOp (e := e) (h := h) (p := p) op
  exact .stays he hx nofun nofun

theorem turns_scan (id : OpId) (range : KeyRange) : Turns h p e (.scan id range) (e.issue h (.size range)) := by
  obtain ⟨he, hx⟩ : (e.issue h (.size range)).All (· = e) (e.Routine (.scan id range)) := all_emit rfl (.measures range)
  have he : (e.issue h (.size range)).engine = { e with lastSnapshot := e.lastSnapshot } := he
  exact .stays he hx nofun nofun

/-- There are no other ways in which a value can change an engine. -/
theorem turns_apply (hf : (e.apply h p v).fault? = none) : Turns h p e v (e.apply h p v) := by
  cases v with
  | op op => exact turns_op op
  | reconfigure r => exact turns_reconfigure hf
  | scan id range => exact turns_scan id range
  | syncedUp id => exact turns_syncedUp hf
  | noop id => exact turns_of_done nofun nofun
  | unknown id tag => exact turns_of_done nofun nofun

theorem fault?_syncedUp (ho : h.storeOpen = true) (hu : h.upcallOpen = true) (marker : OpId) :
    (e.syncedUp h p marker).fault? = none := by
  unfold syncedUp
  split
  · rfl
  · split
    · simp [issue, tell, emit, ho, hu, Step.andThen]
    · rfl

/-- While storage takes requests and the program above listens, a value turns an engine or moves it to a view for
    which there is no version. -/
theorem turns_or_fails (ho : h.storeOpen = true) (hu : h.upcallOpen = true) (p : Position) (v : Value) (e : Engine) :
    Turns h p e v (e.apply h p v) ∨ ∃ r fault, v = .reconfigure r ∧ r.view.isNewerThan e.view = true ∧
      e.apply h p v = (e.adopt r).fail fault := by
  cases v with
  | op op => exact .inl (turns_op op)
  | reconfigure r =>
    rcases turns_or_fails_reconfigure (h := h) (p := p) (e := e) r with ht | ⟨hn, fault, heq⟩
    · exact .inl ht
    · exact .inr ⟨r, fault, rfl, hn, heq⟩
  | scan id range => exact .inl (turns_scan id range)
  | syncedUp id => exact .inl (turns_syncedUp (fault?_syncedUp ho hu id))
  | noop id => exact .inl (turns_of_done nofun nofun)
  | unknown id tag => exact .inl (turns_of_done nofun nofun)

/-! ### Events -/

/-- What changes of an engine when it proposes, answers, or hears of its storage. -/
def Quiet (e e' : Engine) : Prop :=
  ∃ drawn lastSnapshot pruned log, e' = { e with drawn, lastSnapshot, pruned, log }

theorem Quiet.refl (e : Engine) : e.Quiet e := ⟨e.drawn, e.lastSnapshot, e.pruned, e.log, rfl⟩

theorem Quiet.trans {e' e'' : Engine} (k : e.Quiet e') (k' : e'.Quiet e'') : e.Quiet e'' := by
  obtain ⟨drawn, lastSnapshot, pruned, log, rfl⟩ := k
  obtain ⟨drawn, lastSnapshot, pruned, log, rfl⟩ := k'
  exact ⟨drawn, lastSnapshot, pruned, log, rfl⟩

theorem Quiet.mode {e' : Engine} (k : e.Quiet e') : e'.mode = e.mode := by
  obtain ⟨drawn, lastSnapshot, pruned, log, rfl⟩ := k
  rfl

theorem Quiet.syncing {e' : Engine} (k : e.Quiet e') : e'.syncing? = e.syncing? := by
  obtain ⟨drawn, lastSnapshot, pruned, log, rfl⟩ := k
  rfl

theorem quiet_relog (log : OperationsLog) (pruned : Position) (e : Engine) : e.Quiet (e.relog log pruned) :=
  ⟨e.drawn, e.lastSnapshot, pruned, log, rfl⟩

/-- What an event other than a batch of decisions makes of an engine, whether it fails or not. -/
inductive Reacts (h : Host) (e : Engine) : Event → Step → Prop
  | quiet {event : Event} {s : Step} (he : e.Quiet s.engine) : Reacts h e event s
  /-- An announcement is kept until the replica joins. -/
  | holds {announced : Initiate} (hm : e.mode = .passive) :
    Reacts h e (.message (.initiate announced)) { e with held? := some announced }.done
  /-- The state is received, and its marker is proposed. -/
  | marks {c : Completion} {sync : Syncing} {s : Step} (hm : e.mode = .catchingUp) (hrole : c.role = .receive)
    (hin : e.incoming? = some c.id) (hc : c.outcome = .ok ⟨some sync.snapshot, some sync.version⟩)
    (he : s.engine = { e with syncing? := some sync, drawn := e.drawn + 1 })
    (hx : s.fault? = none → .propose (.syncedUp sync.marker) ∈ s.effects) : Reacts h e (.completed c) s
  | sent {id : TransferId} (hid : id ∈ e.outgoing) : Reacts h e (.stopped id)
      { engine := { e with outgoing := e.outgoing.filter (· ≠ id) }.finishTransferring
        effects := [.releaseTransfer id] }
  | received {id : TransferId} (hid : e.incoming? = some id) : Reacts h e (.stopped id)
      { engine := { e with incoming? := none }, effects := [.releaseTransfer id] }

theorem quiet_prune (e : Engine) : e.Quiet (e.prune h).engine := by
  unfold prune
  split
  · exact .refl e
  · exact (all_emit (I := e.Quiet) (P := fun _ => True) ⟨e.drawn, e.lastSnapshot, _, _, rfl⟩ trivial).1

theorem quiet_emit {isOpen : Bool} {x : Effect} {e' : Engine} (k : e.Quiet e') :
    (e'.emit isOpen x).All e.Quiet fun _ => True := all_emit k trivial

theorem quiet_stored (r : Response) : e.Quiet (e.stored h r).engine := by
  suffices hall : (e.stored h r).All e.Quiet fun _ => True from hall.1
  refine Step.All.andThen (f := finishRequest h r) ?_ fun e' he => ?_
  · split
    · exact quiet_emit (.refl e)
    · exact all_done (.refl e)
  · cases r with
    | snapshot position =>
      have k : e'.Quiet { e' with lastSnapshot := max e'.lastSnapshot position } := ⟨e'.drawn, _, e'.pruned, e'.log, rfl⟩
      exact ⟨(he.trans k).trans (quiet_prune _), fun _ _ => trivial⟩
    | get | scan | multi | size | failed => exact quiet_emit he
    | done => exact all_done he

/-- A batch changes an engine as the values do that it releases, but for what it prunes. -/
theorem quiet_decide {calls : List OperationsLog.Call} (hlog : e.log = .after calls) {ds : List Decision}
    (hf : (e.handle h (.decide ds)).fault? = none) :
    (applyAll h (OperationsLog.released calls ds)
      (e.relog (.after (calls ++ OperationsLog.insertions ds)) e.pruned)).engine.Quiet (e.handle h (.decide ds)).engine := by
  obtain ⟨ht, heq⟩ := handle_decide_eq hlog hf
  rw [heq, Step.andThen_of_none ht]
  exact quiet_prune _

theorem reacts_route (m : Message) : Reacts h e (.message m) (e.route h m) := by
  have quiets : ∀ id, Reacts h e (.message m) (e.deliver h id m) := fun id => .quiet (quiet_emit (.refl e)).1
  unfold route
  split
  · split
    · exact quiets _
    · exact .quiet (.refl e)
  · next hm => exact .holds hm
  · split
    · exact quiets _
    · exact .quiet (.refl e)

theorem reacts_finishTransfer (c : Completion) : Reacts h e (.completed c) (e.finishTransfer h c) := by
  cases finishes_finishTransfer (h := h) (e := e) c with
  | stops he hx => exact .quiet (by rw [he]; exact .refl e)
  | marks hm hrole hin hc hmarker he hx hproposed => exact .marks hm hrole hin hc he hproposed

/-- There are no other ways in which such an event can change an engine. -/
theorem reacts_handle {event : Event} (hd : ∀ ds, event ≠ .decide ds) : Reacts h e event (e.handle h event) := by
  cases event with
  | submit op =>
    show Reacts h e _ (e.submit h op)
    unfold submit
    split
    · exact .quiet (.refl e)
    · split <;> exact .quiet (quiet_emit (.refl e)).1
  | decide ds => exact absurd rfl (hd ds)
  | changeView change =>
    show Reacts h e _ (e.proposeView h change)
    unfold proposeView
    split
    · exact .quiet (quiet_emit ⟨e.drawn + 1, e.lastSnapshot, e.pruned, e.log, rfl⟩).1
    · exact .quiet (.refl e)
  | measure range => exact .quiet (quiet_emit ⟨e.drawn + 1, e.lastSnapshot, e.pruned, e.log, rfl⟩).1
  | stored r => exact .quiet (quiet_stored r)
  | message m => exact reacts_route m
  | completed c => exact reacts_finishTransfer c
  | stopped id =>
    show Reacts h e _ (e.releaseTransfer id)
    unfold releaseTransfer
    split
    · next hid => exact .sent hid
    · split
      · next hid => exact .received hid
      · exact .quiet (.refl e)
  | stop => exact .quiet (.refl e)

end ReplicaGroup.Engine
