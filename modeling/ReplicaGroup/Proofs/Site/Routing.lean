import ReplicaGroup.Proofs.Site.Acts
import ReplicaGroup.Proofs.Transfer.Carrying

/-! # Where a message goes

An engine knows the transfers that it has started until it hears that they have stopped, and passes messages
on to them. The run of a known transfer may have ended before; a message for it cannot be delivered then, and
an engine that tries to fails. -/

namespace ReplicaGroup

/-- The transfer that an effect starts. -/
def Effect.started? : Effect → Option TransferId
  | startSend outbound _ => some outbound.id
  | startReceive id _ => some id
  | propose _ | prune _ | upcall _ | request _ | deliver .. | stopTransfer _ | releaseTransfer _ => none

/-- The identifiers of the transfers, in the order of their start. -/
def Background.ids (b : Background) : List TransferId := b.transfers.map (·.id)

namespace Background
variable {b : Background} {addr : Addr} {config : Config} {id : TransferId} {f : Transfer → Transfer}

theorem ids_update (hf : ∀ t, (f t).id = t.id) : (b.update id f).ids = b.ids := by
  rw [ids, transfers_update, List.map_map]
  refine List.map_congr_left fun t _ => ?_
  rw [Function.comp_apply]
  split
  · exact hf t
  · rfl

theorem ids_start (t : Transfer) : (b.start t).ids = b.ids ++ [t.id] := by
  rw [ids, transfers_start, List.map_append]
  rfl

@[simp] theorem ids_releaseAll : b.releaseAll.ids = b.ids :=
  releaseAll_induction (P := fun c => c.ids = b.ids) rfl fun c id h => by
    rw [release, ids_update]
    · exact h
    · exact fun _ => rfl

@[simp] theorem ids_resolve (reply : Signal) (requester? : Option Requester) : (b.resolve reply requester?).ids = b.ids := by
  unfold resolve
  split
  · exact ids_update fun _ => rfl
  · rfl
  · rfl

/-- Effects start transfers, and end none. -/
theorem ids_performAll (effects : List Effect) :
    (b.performAll addr config effects).ids = b.ids ++ effects.filterMap Effect.started? := by
  unfold performAll
  induction effects generalizing b with
  | nil => exact (List.append_nil _).symm
  | cons e effects ih =>
    rw [List.foldl_cons, ih]
    cases e with
    | startSend outbound scanId =>
      rw [perform, Option.getD_some, ids_start, List.append_assoc]
      rfl
    | startReceive id held? =>
      rw [perform, Option.getD_some, ids_update, ids_start, List.append_assoc]
      · rfl
      · exact fun _ => rfl
    | deliver id m => exact congrArg (· ++ _) (ids_update fun _ => rfl)
    | stopTransfer id => exact congrArg (· ++ _) (ids_update fun _ => rfl)
    | releaseTransfer id => exact congrArg (· ++ _) (ids_update fun _ => rfl)
    | propose v | prune w | upcall u | request r => rfl

end Background

/-! ### What an engine knows -/

namespace Engine
variable {e : Engine} {h : Host} {p : Position}

/-- The transfers that an engine knows. -/
def known (e : Engine) : List TransferId := e.outgoing ++ e.incoming?.toList

/-- A step after which an engine knows only what it knew before or has started. -/
def Learns (e : Engine) (s : Step) : Prop :=
  ∀ id ∈ s.engine.known, id ∈ e.known ∨ id ∈ s.effects.filterMap Effect.started?

theorem learns_of_known {s : Step} (hs : s.engine.known ⊆ e.known) : e.Learns s := fun _ hid => .inl (hs hid)

theorem Kept.known_subset {e' : Engine} (k : e.Kept e') : e'.known ⊆ e.known := by
  intro id hid
  rcases List.mem_append.mp hid with hid | hid
  · exact List.mem_append_left _ (k.outgoing.subset hid)
  · rcases k.incoming with hin | hin
    · exact List.mem_append_right _ (hin ▸ hid)
    · rw [hin] at hid
      cases hid

theorem learns_handle {event : Event} (he : ∀ ds, event ≠ .decide ds) : e.Learns (e.handle h event) :=
  learns_of_known (idle_handle he).1.known_subset

theorem learns_reconfigure (r : Reconfiguration) : e.Learns (e.reconfigure h p r) := by
  have hmoved := moved_reconfigure (h := h) (p := p) (e := e) r
  generalize e.reconfigure h p r = s at hmoved
  cases hmoved with
  | stale | fails | follows => exact learns_of_known (List.Subset.refl _)
  | joins hm hn hv =>
    intro id hid
    rcases List.mem_append.mp hid with hid | hid
    · exact .inl (List.mem_append_left _ hid)
    · exact .inr hid
  | moves hm hn hv hsent =>
    intro id hid
    have hid := (kept_finishTransferring _).known_subset hid
    rcases List.mem_append.mp hid with hid | hid
    · refine (List.mem_append.mp hid).imp (List.mem_append_left _) fun hid => ?_
      obtain ⟨x, hx, hxid⟩ := List.mem_filterMap.mp hid
      refine List.mem_filterMap.mpr ⟨x, hx, ?_⟩
      obtain ⟨n, scanId, -, a, -, rfl⟩ := exists_of_mem_sendings (hsent ▸ hx)
      exact hxid
    · exact .inl (List.mem_append_right _ hid)

/-- Applying a value starts every transfer that is known only afterwards. -/
theorem learns_apply (v : Value) : e.Learns (e.apply h p v) := by
  have emits : ∀ {isOpen : Bool} {x : Effect} {e' : Engine}, e'.known = e.known →
      (e'.emit isOpen x).All (fun e' => e'.known = e.known) fun _ => True := fun he => all_emit he trivial
  have same : ∀ {s : Step}, s.All (fun e' => e'.known = e.known) (fun _ => True) → e.Learns s := fun hs =>
    learns_of_known (hs.1 ▸ List.Subset.refl _)
  cases v with
  | op op => exact same (all_applyOp (fun _ => rfl) (fun _ => trivial) fun _ => trivial)
  | reconfigure r => exact learns_reconfigure r
  | scan id range => exact same (emits rfl)
  | syncedUp id => exact same (all_syncedUp rfl (fun _ _ _ _ => rfl) (fun _ => trivial) trivial)
  | noop id => exact same (all_done rfl)
  | unknown id tag => exact same (all_done rfl)

/-! ### Messages -/

/-- The known transfer that a message is for. -/
def addressee? (e : Engine) (m : Message) : Option TransferId :=
  match m, e.mode with
  | .grant id _, _ => if id ∈ e.outgoing then some id else none
  | .initiate _, .passive => none
  | _, _ => e.incoming?

/-- The engine after a message that is for no known transfer: before the replica joins, an announcement is
    held. -/
def ignoring (e : Engine) (m : Message) : Engine :=
  match m, e.mode with
  | .initiate announced, .passive => { e with held? := some announced }
  | _, _ => e

theorem known_of_addressee? {m : Message} {id : TransferId} (ha : e.addressee? m = some id) : id ∈ e.known := by
  unfold addressee? at ha
  split at ha
  · obtain ⟨hid, ha⟩ := Option.ite_none_right_eq_some.mp ha
    cases ha
    exact List.mem_append_left _ hid
  · cases ha
  · exact List.mem_append_right _ (by rw [ha]; simp)

/-- A message is delivered to the transfer that it is for, or ignored. -/
theorem route_eq (m : Message) : e.route h m =
    match e.addressee? m with
    | some id => e.deliver h id m
    | none => (e.ignoring m).done := by
  unfold route addressee? ignoring
  cases m with
  | grant id quota =>
    by_cases hid : id ∈ e.outgoing <;> simp [hid]
  | initiate announced =>
    cases hm : e.mode <;> cases e.incoming? <;> simp
  | data id chunk payload last =>
    cases hm : e.mode <;> cases e.incoming? <;> simp

end Engine

/-! ### Sites -/

namespace Site
variable {s t : Site} {o : Outside}

/-- A replica that starts, with whatever is stored. -/
inductive Starts : Site → Prop
  | fresh (addr : Addr) (config : Config) (draw : Nat → UInt64) (peers : Network Inbox) (store : Store) :
    Starts { node := { addr, config, draw, peers, store } }
  | bootstrapped (addr : Addr) (config : Config) (draw : Nat → UInt64) (peers : Network Inbox) (store : Store)
    (change : ViewChange) : Starts { node := (Node.bootstrap { addr, config, draw, peers, store } change).1 }

/-- Whether every transfer that the engine knows was started. -/
def Tasked (s : Site) : Prop := s.node.engine.known ⊆ s.node.background.ids

theorem Starts.tasked (h : s.Starts) : s.Tasked := by
  cases h <;> exact List.nil_subset _

theorem ids_take (step : Step) :
    (s.take step).node.background.ids = s.node.background.ids ++ step.effects.filterMap Effect.started? := by
  unfold take
  split <;> simp [halt, Node.take_fst, Background.ids_performAll]

theorem ids_handle (s : Site) (e : Event) : (s.handle e).node.background.ids =
    s.node.background.ids ++ (s.node.engine.handle s.node.host e).effects.filterMap Effect.started? := by
  by_cases he : e = .stop
  · subst he
    exact Background.ids_releaseAll.trans (ids_take _)
  · rw [handle_eq_take he, ids_take]

theorem ids_lead {id : TransferId} {n m : Node} {f : Transfer → Option (Transfer × List Transfer.Report)}
    (hf : ∀ t out, f t = some out → out.1.id = t.id) (hm : n.lead id f = some m) : m.background.ids = n.background.ids := by
  obtain ⟨v, u, reports, hv, hu, rfl⟩ := Node.lead_eq_some hm
  have huid : u.id = id := (hf v _ hu).trans (Transfer.of_find? hv).2
  rw [Background.ids, List.map_map]
  refine List.map_congr_left fun w _ => ?_
  rw [Function.comp_apply]
  split
  · next hw => exact huid.trans hw.symm
  · rfl

/-- No move takes a transfer away. -/
theorem ids_moves (hm : Moves o s t) : s.node.background.ids <+: t.node.background.ids := by
  cases hm with
  | @hear e u hi he =>
    obtain ⟨notices, rfl⟩ := he.eq
    exact ids_handle { s with node := { s.node with notices } } e ▸ List.prefix_append ..
  | apply hrun hr => exact ids_take (s := { s with released := _, applied := _ }) _ ▸ List.prefix_append ..
  | finish hrun hr hb => exact ids_take (s := { s with batch? := none }) _ ▸ List.prefix_append ..
  | execute hq =>
    obtain ⟨⟨r, requester?⟩, rest, hq⟩ := List.exists_cons_of_ne_nil hq
    rw [Node.serve_one hq]
    exact Background.ids_resolve (b := { s.node.background with queue := rest }) _ _ ▸ List.prefix_rfl
  | transfer hn => exact ids_lead (fun t out h => Transfer.id_of_goes (Transfer.goes_of_step h)) hn ▸ List.prefix_rfl
  | wait ms =>
    obtain ⟨-, htransfers, -⟩ := Background.expire_frame (b := s.node.background) (s.node.now + ms)
    have hids : (s.node.advance ms).background.ids = s.node.background.ids := congrArg (List.map _) htransfers
    exact hids ▸ List.prefix_rfl
  | deliver | insert | register => exact List.prefix_rfl

theorem Tasked.take (hs : s.Tasked) {step : Step} (hl : s.node.engine.Learns step) : (s.take step).Tasked := by
  intro id hid
  rw [take_engine] at hid
  rw [ids_take]
  exact List.mem_append.mpr ((hl id hid).imp (fun h => hs h) fun h => h)

theorem Tasked.handle (hs : s.Tasked) {e : Event} (he : ∀ ds, e ≠ .decide ds) : (s.handle e).Tasked := by
  have ht : (s.take (s.node.engine.handle s.node.host e)).Tasked := hs.take (Engine.learns_handle he)
  unfold Site.handle
  split
  · intro id hid
    rw [halt_eq, Background.ids_releaseAll]
    exact ht hid
  · exact ht

theorem Tasked.moves (hs : s.Tasked) (hm : Moves o s t) : t.Tasked := by
  have hids := (ids_moves hm).subset
  cases hm with
  | @hear e u hi he =>
    obtain ⟨notices, rfl⟩ := he.eq
    exact Tasked.handle (s := { s with node := { s.node with notices := notices } }) hs (not_decide_of_heard he)
  | deliver hi hd => exact hs
  | @apply e rest hrun hr =>
    exact Tasked.take (s := { s with
      released := rest
      applied := s.applied ++ [⟨e.1, e.2, s.node.engine, (s.node.engine.apply s.node.host e.1 e.2).effects⟩] }) hs
      (Engine.learns_apply e.2)
  | insert hrun hr hb => exact hs
  | finish hrun hr hb =>
    exact Tasked.take (s := { s with batch? := none }) hs (Engine.learns_of_known Engine.idle_prune.1.known_subset)
  | execute hq => exact fun id hid => hids (hs (Node.engine_serve s.node 1 ▸ hid))
  | transfer hn =>
    obtain ⟨u, v, reports, hu, hstep, rfl⟩ := Node.stepTransfer_eq_some hn
    exact fun id hid => hids (hs hid)
  | wait | register => exact fun id hid => hids (hs hid)

/-- What holds at first, and survives every move and every batch of decisions, holds after any acts. -/
theorem run_induction_any {P : Site → Prop} {acts : List Act} (h : s.run acts = some t) (hs : P s)
    (hd : ∀ u decisions, P u → P { u with batch? := some decisions })
    (hm : ∀ o u v, P u → Moves o u v → P v) : P t := by
  refine act_induction (A := fun _ => True) h (fun _ _ => trivial) hs fun u a v _ hact hu => ?_
  rcases moves_or_delivers hact with hmove | ⟨decisions, rfl⟩
  · exact hm _ u v hu hmove
  · exact hd u decisions hu

end Site

/-- In whatever state a replica is, a message for no known transfer is ignored, and one for a known transfer is
    delivered as long as the run of that transfer goes on. Once the run has ended, and until the engine hears
    that the transfer has stopped, a message for it makes the engine fail, and the replica is down: this and
    nothing else about a message can make handling it fail. -/
theorem message_fails_iff_run_ended {s t : Site} (hs : s.Starts) {acts : List Site.Act} (h : s.run acts = some t)
    (m : Message) :
    (∀ id, t.node.engine.addressee? m = some id → ∃ u ∈ t.node.background.transfers, u.id = id) ∧
    (t.node.engine.addressee? m = none →
      t.node.engine.handle t.node.host (.message m) = (t.node.engine.ignoring m).done) ∧
    (∀ id, t.node.engine.addressee? m = some id → (∃ u ∈ t.node.background.transfers, u.id = id ∧ u.isOpen = true) →
      t.node.engine.handle t.node.host (.message m) = { engine := t.node.engine, effects := [.deliver id m] }) ∧
    (∀ id, t.node.engine.addressee? m = some id → (∀ u ∈ t.node.background.transfers, u.id = id → u.isOpen = false) →
      t.node.engine.handle t.node.host (.message m) = t.node.engine.fail .channelClosed) ∧
    (t.running = true → ((t.handle (.message m)).running = false ↔ ∃ id, t.node.engine.addressee? m = some id ∧
      ∀ u ∈ t.node.background.transfers, u.id = id → u.isOpen = false)) := by
  have htasked : t.Tasked :=
    Site.run_induction_any (P := Site.Tasked) h hs.tasked (fun _ _ hu => hu) fun _ _ _ hu hm => hu.moves hm
  have hopen : ∀ id, t.node.host.transferOpen id = true ↔ ∃ u ∈ t.node.background.transfers, u.id = id ∧ u.isOpen = true :=
    fun id => by simp [Node.host, Background.isOpen]
  have hclosed : ∀ id, t.node.host.transferOpen id = false ↔
      ∀ u ∈ t.node.background.transfers, u.id = id → u.isOpen = false := fun id => by
    rw [← Bool.not_eq_true, hopen]
    simp
  have hroute : t.node.engine.handle t.node.host (.message m) = _ := t.node.engine.route_eq m
  refine ⟨fun id ha => ?_, fun ha => ?_, fun id ha hu => ?_, fun id ha hu => ?_, fun hrunning => ?_⟩
  · exact List.mem_map.mp (htasked (Engine.known_of_addressee? ha))
  · rw [hroute, ha]
  · rw [hroute, ha]
    exact if_pos ((hopen id).mpr hu)
  · rw [hroute, ha]
    exact if_neg (Bool.eq_false_iff.mp ((hclosed id).mpr hu))
  · rw [Site.handle_eq_take (by nofun), Site.take_running, hrunning, Bool.true_and, hroute]
    cases ha : t.node.engine.addressee? m with
    | none => simp [Engine.done]
    | some id =>
      simp only [Option.some.injEq, exists_eq_left', Engine.deliver, Engine.emit]
      rw [← hclosed]
      cases t.node.host.transferOpen id <;> simp [Engine.fail]

/-- A joiner receives a transfer to its end: the only chunk is written, and nobody has been told yet. -/
def receivedActs : List Site.Act :=
  [.deliver [⟨1, .reconfigure ⟨⟨1⟩, ⟨2, .ofList [.name "a", .name "b"]⟩, 2, 0, .full⟩⟩], .advance, .advance, .advance,
    .transfer ⟨0⟩, .hear (.message (.initiate ⟨⟨9⟩, .name "a", .full, ⟨some 1, some 1⟩⟩)), .transfer ⟨0⟩,
    .hear (.message (.data ⟨9⟩ 0 (Wire.encodeEntries []) true)), .transfer ⟨0⟩, .execute, .transfer ⟨0⟩]

/-- A chunk that comes late, when the joiner has written the last one, brings the joiner down. -/
theorem late_chunk_brings_joiner_down :
    ∃ s t : Site, s.Starts ∧ s.run receivedActs = some t ∧ t.isIdle = true ∧ t.node.engine.mode = .catchingUp ∧
      ∀ chunk payload last, (t.handle (.message (.data ⟨9⟩ chunk payload last))).running = false := by
  let s : Site := .fresh (.name "b") default .ofNat (.insert .empty (.name "a") {})
  have hs : s.Starts := .fresh ..
  generalize hrun : s.run receivedActs = run
  have hdone : run.map (fun t => (t.isIdle, t.node.engine.mode, t.node.engine.incoming?,
      t.node.background.transfers.map fun u => (u.id, u.isOpen))) =
        some (true, .catchingUp, some ⟨0⟩, [(⟨0⟩, false)]) := by
    rw [← hrun]
    decide
  obtain ⟨t, rfl, ht⟩ := Option.map_eq_some_iff.mp hdone
  simp only [Prod.mk.injEq] at ht
  obtain ⟨hidle, hmode, hincoming, htransfers⟩ := ht
  refine ⟨s, t, hs, hrun, hidle, hmode, fun chunk payload last => ?_⟩
  have hrunning : t.running = true := by
    rw [Site.isIdle, Bool.and_eq_true, Bool.and_eq_true] at hidle
    exact hidle.1.1
  refine ((message_fails_iff_run_ended hs hrun _).2.2.2.2 hrunning).mpr ⟨⟨0⟩, ?_, fun u hu _ => ?_⟩
  · rw [Engine.addressee?, hincoming]
    · simp
    · simp
  · have hmem := List.mem_map_of_mem (f := fun u : Transfer => (u.id, u.isOpen)) hu
    rw [htransfers] at hmem
    exact (Prod.mk.inj (List.mem_singleton.mp hmem)).2

end ReplicaGroup
