import ReplicaGroup.Proofs.Engine.Answers
import ReplicaGroup.Proofs.Site.Effects
import ReplicaGroup.Proofs.Store.Versions

/-! # Applying values

What the application of one decided value does to an engine, and what it asks of storage. -/

namespace ReplicaGroup

/-- The requests to storage for a value that is applied while serving. -/
def Value.requests (v : Value) (version : Version) : List Request :=
  match v with
  | .op o => [o.request version]
  | .scan _ range => [.size range]
  | .reconfigure _ | .syncedUp _ | .noop _ | .unknown .. => []

/-- The answer that is given when a value is applied while serving. -/
def Value.acknowledgement? : Value → Option Answer
  | .op o => o.acknowledgement?
  | _ => none

/-- The transfer that an effect starts to send. -/
def Effect.outbound? : Effect → Option Outbound
  | startSend outbound _ => some outbound
  | _ => none

/-- Whether an effect starts to receive. -/
def Effect.isReceive : Effect → Bool
  | startReceive .. => true
  | _ => false

theorem Rule.find?_serving {mode : Mode} (hm : mode.isServing = true) (kind : Kind) :
    ∃ captures, Rule.find? mode kind = some ⟨.execute, captures⟩ := by
  cases mode <;> cases hm <;> cases kind <;> exact ⟨_, rfl⟩

namespace Engine
variable {e : Engine} {h : Host} {p : Position} {v : Value}

/-- What applying a value does to a serving engine that waits for no marker, while storage takes
    requests. -/
structure Served (h : Host) (e : Engine) (v : Value) (s : Step) : Prop where
  requests : s.effects.filterMap Effect.request? = v.requests e.version
  serving : s.engine.mode.isServing = true
  settled : s.engine.syncing? = none
  version : e.version ≤ s.engine.version
  receive : ∀ x ∈ s.effects, x.isReceive = false
  deliver : ∀ x ∈ s.effects, x.isDelivery = false
  answers : h.upcallOpen = true → s.answers = v.acknowledgement?.toList
  /-- Transfers are started under new identifiers. -/
  sends : ∀ x ∈ s.effects, ∀ outbound, x.outbound? = some outbound →
    ∃ n, e.drawn ≤ n ∧ outbound.id = ⟨h.draw n⟩
  drawn : e.drawn ≤ s.engine.drawn
  incoming : s.engine.incoming? = e.incoming?

theorem served_done (hm : e.mode.isServing = true) (hs : e.syncing? = none) (hv : v.requests e.version = [])
    (ha : v.acknowledgement? = none) : Served h e v e.done :=
  ⟨hv.symm, hm, hs, UInt32.le_refl _, by simp [done], by simp [done], fun _ => by rw [ha]; rfl, by simp [done],
    Nat.le_refl _, rfl⟩

/-- A decided operation is handed to storage, and answered if that is an acknowledgement. -/
theorem applyOp_serving (hm : e.mode.isServing = true) (ho : h.storeOpen = true) (op : Operation) :
    (∃ snapshot, (e.applyOp h p op).engine = { e with lastSnapshot := snapshot }) ∧
      ∃ told, (e.applyOp h p op).effects = .request (op.request e.version) :: told ∧
        (∀ x ∈ told, ∃ a, x = .upcall (.answer a)) ∧
        (h.upcallOpen = true → told = op.acknowledgement?.toList.map fun a => .upcall (.answer a)) := by
  obtain ⟨captures, hr⟩ := Rule.find?_serving hm op.kind
  unfold applyOp
  rw [hr]
  simp only [Rule.initiate, issue, emit, ho, if_true]
  cases op.acknowledgement? with
  | none =>
    cases captures
    · exact ⟨⟨e.lastSnapshot, rfl⟩, [], rfl, by simp, fun _ => rfl⟩
    · exact ⟨⟨p, rfl⟩, [], rfl, by simp, fun _ => rfl⟩
  | some a =>
    cases hu : h.upcallOpen with
    | false =>
      simp only [respond, tell, emit, hu, fail, Step.andThen]
      exact ⟨⟨e.lastSnapshot, rfl⟩, [], rfl, by simp, by simp⟩
    | true =>
      simp only [respond, tell, emit, hu, Step.andThen, if_true]
      cases captures
      · exact ⟨⟨e.lastSnapshot, rfl⟩, [.upcall (.answer a)], rfl, by simp, fun _ => rfl⟩
      · exact ⟨⟨p, rfl⟩, [.upcall (.answer a)], rfl, by simp, fun _ => rfl⟩

theorem served_applyOp (hm : e.mode.isServing = true) (hs : e.syncing? = none) (ho : h.storeOpen = true)
    (op : Operation) : Served h e (.op op) (e.applyOp h p op) := by
  obtain ⟨⟨snapshot, he⟩, told, hx, htold, hopen⟩ := applyOp_serving (p := p) hm ho op
  constructor
  · rw [hx, List.filterMap_cons, List.filterMap_eq_nil_iff.mpr]
    · rfl
    · intro x hx'
      obtain ⟨a, rfl⟩ := htold x hx'
      rfl
  · rw [he]; exact hm
  · rw [he]; exact hs
  · rw [he]; exact UInt32.le_refl _
  · rw [hx]
    intro x hx'
    rcases List.mem_cons.mp hx' with rfl | hx'
    · rfl
    · obtain ⟨a, rfl⟩ := htold x hx'
      rfl
  · rw [hx]
    intro x hx'
    rcases List.mem_cons.mp hx' with rfl | hx'
    · rfl
    · obtain ⟨a, rfl⟩ := htold x hx'
      rfl
  · intro hu
    rw [Step.answers, hx, hopen hu, List.filterMap_cons_none rfl]
    cases ha : op.acknowledgement? with
    | none => simp [Value.acknowledgement?, ha]
    | some a =>
      simp [Value.acknowledgement?, ha]
      rfl
  · rw [hx]
    intro x hx' outbound ho
    rcases List.mem_cons.mp hx' with rfl | hx'
    · cases ho
    · obtain ⟨a, rfl⟩ := htold x hx'
      cases ho
  · exact Nat.le_of_eq (by rw [he])
  · rw [he]

/-- The transfers to the recipients of a view change, when `drawn` identifiers are drawn before. -/
def sendings (h : Host) (p : Position) (range : KeyRange) (version : Version) : Nat → List Addr → List Effect
  | _, [] => []
  | drawn, a :: rest =>
    .startSend ⟨⟨h.draw drawn⟩, a, range, ⟨some p, some version⟩⟩ ⟨h.draw (drawn + 1)⟩ ::
      sendings h p range version (drawn + 2) rest

/-- Each transfer has an identifier of its own place. -/
theorem exists_getElem?_of_mem_sendings {range : KeyRange} {version : Version} {drawn : Nat} {l : List Addr} {x : Effect}
    (hx : x ∈ sendings h p range version drawn l) : ∃ i a scanId, l[i]? = some a ∧
      x = .startSend ⟨⟨h.draw (drawn + 2 * i)⟩, a, range, ⟨some p, some version⟩⟩ scanId := by
  induction l generalizing drawn with
  | nil => cases hx
  | cons a l ih =>
    rcases List.mem_cons.mp hx with rfl | hx
    · exact ⟨0, a, _, rfl, rfl⟩
    · obtain ⟨i, b, scanId, hb, rfl⟩ := ih hx
      refine ⟨i + 1, b, scanId, hb, ?_⟩
      rw [Nat.mul_succ, Nat.add_assoc, Nat.add_comm 2]

theorem exists_of_mem_sendings {range : KeyRange} {version : Version} {drawn : Nat} {l : List Addr} {x : Effect}
    (hx : x ∈ sendings h p range version drawn l) :
    ∃ n scanId, drawn ≤ n ∧ ∃ a ∈ l, x = .startSend ⟨⟨h.draw n⟩, a, range, ⟨some p, some version⟩⟩ scanId := by
  obtain ⟨i, a, scanId, ha, rfl⟩ := exists_getElem?_of_mem_sendings hx
  exact ⟨_, scanId, Nat.le_add_right _ _, a, List.mem_of_getElem? ha, rfl⟩

theorem forEach_startSend (l : List Addr) (e : Engine) :
    Step.forEach (startSend h p) l e =
      let sent := sendings h p e.range e.version e.drawn l
      { engine := { e with
          outgoing := e.outgoing ++ sent.filterMap fun x => x.outbound?.map (·.id)
          drawn := e.drawn + 2 * l.length }
        effects := sent } := by
  induction l generalizing e with
  | nil => simp [Step.forEach, sendings]
  | cons a l ih =>
    rw [Step.forEach, Step.andThen]
    simp only [startSend, draw] at ih ⊢
    rw [ih]
    simp [sendings, Effect.outbound?]
    omega

theorem reconfigure_stale {r : Reconfiguration} (hn : r.view.isNewerThan e.view = false) :
    e.reconfigure h p r = e.done := by simp [reconfigure, hn]

/-- A serving engine that moves to a newer view takes the next version and sends to the members it is
    responsible for, or fails because there is no next version. -/
theorem reconfigure_serving (hm : e.mode.isServing = true) {r : Reconfiguration}
    (hn : r.view.isNewerThan e.view = true) : e.reconfigure h p r =
      match e.version.succ? with
      | none => { e with view := r.view, quorum := r.quorum, range := r.range }.fail (.versionExhausted e.version)
      | some version =>
        let recipients := (e.view.recipients r.view h.addr).toList
        let sent := sendings h p r.range version e.drawn recipients
        let moved : Engine := { e with
          view := r.view, quorum := r.quorum, range := r.range, version, mode := .transferring
          outgoing := e.outgoing ++ sent.filterMap fun x => x.outbound?.map (·.id)
          drawn := e.drawn + 2 * recipients.length }
        { engine := moved.finishTransferring, effects := sent } := by
  have hmode : e.mode = .active ∨ e.mode = .transferring := by
    cases hmode : e.mode <;> rw [hmode] at hm
    · cases hm
    · exact .inr rfl
    · cases hm
    · exact .inl rfl
  unfold reconfigure nextVersion
  rw [if_pos hn]
  rcases hmode with hmode | hmode <;> simp only [hmode] <;> cases e.version.succ? with
  | none => rfl
  | some version => simp [forEach_startSend, Step.andThen, done]

@[simp] theorem drawn_finishTransferring (e : Engine) : e.finishTransferring.drawn = e.drawn := by
  unfold finishTransferring
  split <;> rfl

@[simp] theorem incoming?_finishTransferring (e : Engine) : e.finishTransferring.incoming? = e.incoming? := by
  unfold finishTransferring
  split <;> rfl

@[simp] theorem syncing?_finishTransferring (e : Engine) : e.finishTransferring.syncing? = e.syncing? := by
  unfold finishTransferring
  split <;> rfl

theorem served_reconfigure (hm : e.mode.isServing = true) (hs : e.syncing? = none) (r : Reconfiguration) :
    Served h e (.reconfigure r) (e.reconfigure h p r) := by
  cases hn : r.view.isNewerThan e.view with
  | false => exact (reconfigure_stale hn) ▸ served_done hm hs rfl rfl
  | true =>
    rw [reconfigure_serving hm hn]
    cases hv : e.version.succ? with
    | none =>
      exact ⟨rfl, hm, hs, UInt32.le_refl _, by simp [fail], by simp [fail], fun _ => rfl, by simp [fail], Nat.le_refl _,
        rfl⟩
    | some version =>
      dsimp only
      have hsend : ∀ x ∈ sendings h p r.range version e.drawn (e.view.recipients r.view h.addr).toList,
          ∃ outbound scanId, x = .startSend outbound scanId := fun x hx => by
        obtain ⟨n, scanId, -, a, -, rfl⟩ := exists_of_mem_sendings hx
        exact ⟨_, _, rfl⟩
      refine ⟨?_, (kept_finishTransferring _).isServing.trans rfl,
        ((kept_finishTransferring _).syncing (by simp)).trans hs, ?_, fun x hx => ?_, fun x hx => ?_, fun _ => ?_,
        fun x hx outbound ho => ?_, ?_, ?_⟩
      · refine List.filterMap_eq_nil_iff.mpr fun x hx => ?_
        obtain ⟨outbound, scanId, rfl⟩ := hsend x hx
        rfl
      · rw [(kept_finishTransferring _).version]
        exact UInt32.le_of_lt (Version.lt_succ hv)
      · obtain ⟨outbound, scanId, rfl⟩ := hsend x hx
        rfl
      · obtain ⟨outbound, scanId, rfl⟩ := hsend x hx
        rfl
      · refine List.filterMap_eq_nil_iff.mpr fun x hx => ?_
        obtain ⟨outbound, scanId, rfl⟩ := hsend x hx
        rfl
      · obtain ⟨n, scanId, hn, a, -, rfl⟩ := exists_of_mem_sendings hx
        cases ho
        exact ⟨n, hn, rfl⟩
      · rw [drawn_finishTransferring]
        exact Nat.le_add_right e.drawn _
      · rw [incoming?_finishTransferring]

theorem served_apply (hm : e.mode.isServing = true) (hs : e.syncing? = none) (ho : h.storeOpen = true)
    (v : Value) : Served h e v (e.apply h p v) := by
  cases v with
  | op op => exact served_applyOp hm hs ho op
  | reconfigure r => exact served_reconfigure hm hs r
  | scan id range =>
    simp only [apply, issue, emit, ho, if_true]
    exact ⟨rfl, hm, hs, UInt32.le_refl _, by simp [Effect.isReceive], by simp [Effect.isDelivery], fun _ => rfl,
      by simp [Effect.outbound?], Nat.le_refl _, rfl⟩
  | syncedUp id =>
    simp only [apply, syncedUp, hs]
    exact served_done hm hs rfl rfl
  | noop id => exact served_done hm hs rfl rfl
  | unknown id tag => exact served_done hm hs rfl rfl

/-! ### Any mode -/

/-- An operation moves nothing but the last snapshot, and only queues a request or answers. -/
theorem all_applyOp {I : Engine → Prop} {P : Effect → Prop} {op : Operation} (hi : ∀ p, I { e with lastSnapshot := p })
    (hr : ∀ r, P (.request r)) (ha : ∀ a, P (.upcall (.answer a))) : (e.applyOp h p op).All I P := by
  have hk : ∀ e' : Engine, (∃ q, e' = { e with lastSnapshot := q }) → I e' := by
    rintro _ ⟨q, rfl⟩
    exact hi q
  suffices hall : (e.applyOp h p op).All (fun e' => ∃ q, e' = { e with lastSnapshot := q }) P from
    ⟨hk _ hall.1, hall.2⟩
  unfold applyOp
  split
  · exact all_emit ⟨_, rfl⟩ (ha _)
  · refine Step.All.andThen (Step.All.andThen ?_ fun e' he => ?_) fun e' he => ?_
    · split
      · exact all_emit ⟨_, rfl⟩ (hr _)
      · exact all_done ⟨_, rfl⟩
    · split
      · exact all_emit he (ha _)
      · exact all_done he
    · obtain ⟨q, rfl⟩ := he
      split <;> exact all_done ⟨_, rfl⟩

/-- A marker that is waited for ends the wait, moves the version and the last snapshot, and makes the replica serve. -/
theorem all_syncedUp {I : Engine → Prop} {P : Effect → Prop} {marker : OpId} (he : I e)
    (hi : ∀ version snapshot mode, mode = e.mode ∨ mode = .active →
      I { e with syncing? := none, version, lastSnapshot := snapshot, mode })
    (hr : ∀ r, P (.request r)) (hu : P (.upcall .synced)) : (e.syncedUp h p marker).All I P := by
  have settles : ∀ {s : Step}, s.All (fun e' => ∃ version snapshot mode, (mode = e.mode ∨ mode = .active) ∧
      e' = { e with syncing? := none, version, lastSnapshot := snapshot, mode }) P → s.All I P := by
    rintro s ⟨⟨version, snapshot, mode, hm, heq⟩, hx⟩
    exact ⟨heq ▸ hi version snapshot mode hm, hx⟩
  unfold syncedUp
  split
  · exact all_done he
  · split
    · refine settles (Step.All.andThen (Step.All.andThen ?_ fun e' he => ?_) fun e' he => ?_)
      · exact all_emit ⟨_, _, _, .inl rfl, rfl⟩ (hr _)
      · obtain ⟨version, snapshot, mode, hm, rfl⟩ := he
        exact all_emit ⟨_, _, _, hm, rfl⟩ (hr _)
      · obtain ⟨version, snapshot, mode, hm, rfl⟩ := he
        exact all_emit ⟨_, _, _, .inr rfl, rfl⟩ hu
    · exact all_done he

theorem reconfigure_passive (hm : e.mode = .passive) {r : Reconfiguration}
    (hn : r.view.isNewerThan e.view = true) : e.reconfigure h p r =
      match r.version.succ? with
      | none => { e with view := r.view, quorum := r.quorum, range := r.range }.fail (.versionExhausted r.version)
      | some version =>
        { engine := { e with
            view := r.view, quorum := r.quorum, range := r.range, version, mode := .catchingUp
            incoming? := some ⟨h.draw e.drawn⟩, held? := none, drawn := e.drawn + 1 }
          effects := [.startReceive ⟨h.draw e.drawn⟩ e.held?] } := by
  unfold reconfigure nextVersion
  rw [if_pos hn]
  simp only [hm]
  cases r.version.succ? <;> rfl

theorem reconfigure_catchingUp (hm : e.mode = .catchingUp) {r : Reconfiguration}
    (hn : r.view.isNewerThan e.view = true) : e.reconfigure h p r =
      match r.version.succ? with
      | none => { e with view := r.view, quorum := r.quorum, range := r.range }.fail (.versionExhausted r.version)
      | some version =>
        { e with view := r.view, quorum := r.quorum, range := r.range, version := max e.version version }.done := by
  unfold reconfigure nextVersion
  rw [if_pos hn]
  simp only [hm]
  cases r.version.succ? <;> rfl

/-- An engine with the configuration that it moves to. -/
def adopt (r : Reconfiguration) (e : Engine) : Engine :=
  { e with view := r.view, quorum := r.quorum, range := r.range }

/-- What a move to a view makes of an engine. -/
inductive Moved (h : Host) (p : Position) (e : Engine) (r : Reconfiguration) : Step → Prop
  | stale (hn : r.view.isNewerThan e.view = false) : Moved h p e r e.done
  /-- There is no next version. The configuration is taken over before. -/
  | fails {fault : Fault} (hn : r.view.isNewerThan e.view = true) : Moved h p e r ((e.adopt r).fail fault)
  | joins {version : Version} (hm : e.mode = .passive) (hn : r.view.isNewerThan e.view = true)
    (hv : r.version.succ? = some version) : Moved h p e r
      { engine := { e.adopt r with
          version, mode := .catchingUp, incoming? := some ⟨h.draw e.drawn⟩, held? := none, drawn := e.drawn + 1 }
        effects := [.startReceive ⟨h.draw e.drawn⟩ e.held?] }
  | follows {version : Version} (hm : e.mode = .catchingUp) (hn : r.view.isNewerThan e.view = true)
    (hv : r.version.succ? = some version) : Moved h p e r { e.adopt r with version := max e.version version }.done
  | moves {version : Version} {sent : List Effect} (hm : e.mode.isServing = true)
    (hn : r.view.isNewerThan e.view = true) (hv : e.version.succ? = some version)
    (hsent : sent = sendings h p r.range version e.drawn (e.view.recipients r.view h.addr).toList) : Moved h p e r
      { engine := { e.adopt r with
          version, mode := .transferring
          outgoing := e.outgoing ++ sent.filterMap fun x => (Effect.outbound? x).map Outbound.id
          drawn := e.drawn + 2 * (e.view.recipients r.view h.addr).toList.length }.finishTransferring
        effects := sent }

/-- There are no other ways in which a move to a view can change an engine. -/
theorem moved_reconfigure (r : Reconfiguration) : Moved h p e r (e.reconfigure h p r) := by
  cases hn : r.view.isNewerThan e.view with
  | false =>
    rw [reconfigure_stale hn]
    exact .stale hn
  | true =>
    cases hm : e.mode with
    | passive =>
      rw [reconfigure_passive hm hn]
      cases hv : r.version.succ? with
      | none => exact .fails hn
      | some version => exact .joins hm hn hv
    | catchingUp =>
      rw [reconfigure_catchingUp hm hn]
      cases hv : r.version.succ? with
      | none => exact .fails hn
      | some version => exact .follows hm hn hv
    | active | transferring =>
      have hserving : e.mode.isServing = true := by rw [hm]; rfl
      rw [reconfigure_serving hserving hn]
      cases hv : e.version.succ? with
      | none => exact .fails hn
      | some version => exact .moves hserving hn hv rfl

@[simp] theorem log_finishTransferring (e : Engine) : e.finishTransferring.log = e.log := by
  unfold finishTransferring
  split <;> rfl

theorem reconfigure_log (r : Reconfiguration) : (e.reconfigure h p r).engine.log = e.log := by
  have hmoved := moved_reconfigure (h := h) (p := p) (e := e) r
  generalize e.reconfigure h p r = s at hmoved
  cases hmoved with
  | stale | fails | joins | follows => rfl
  | moves => exact log_finishTransferring _

/-- Applying a value leaves the log alone. -/
theorem apply_log (v : Value) : (e.apply h p v).engine.log = e.log := by
  cases v with
  | op op =>
    exact (all_applyOp (I := fun e' => e'.log = e.log) (P := fun _ => True) (fun _ => rfl) (fun _ => trivial)
      fun _ => trivial).1
  | reconfigure r => exact reconfigure_log r
  | scan id range => exact (all_emit (I := fun e' => e'.log = e.log) (P := fun _ => True) rfl trivial).1
  | syncedUp id =>
    exact (all_syncedUp (I := fun e' => e'.log = e.log) (P := fun _ => True) rfl (fun _ _ _ _ => rfl) (fun _ => trivial)
      trivial).1
  | noop id => rfl
  | unknown id tag => rfl

end Engine
end ReplicaGroup
