import ReplicaGroup.Engine.Handle

/-! # Steps of the engine

Most steps change little: only applying a decided value moves the configuration, starts a transfer or
asks storage for something. What an event other than a batch of decisions can do is told once here. -/

namespace ReplicaGroup

namespace Step

/-- A property of engines that holds where a step ends, and one of effects that holds of all it did. -/
def All (I : Engine → Prop) (P : Effect → Prop) (s : Step) : Prop :=
  I s.engine ∧ ∀ x ∈ s.effects, P x

variable {I : Engine → Prop} {P : Effect → Prop} {s : Step} {f : Engine → Step}

theorem andThen_of_fault (hs : s.fault? ≠ none) : s.andThen f = s := by
  unfold andThen
  split
  · rfl
  · next h => exact absurd h hs

theorem andThen_of_none (hs : s.fault? = none) :
    s.andThen f = { f s.engine with effects := s.effects ++ (f s.engine).effects } := by
  unfold andThen
  rw [hs]

theorem All.andThen (hs : s.All I P) (hf : ∀ e, I e → (f e).All I P) : (s.andThen f).All I P := by
  unfold Step.andThen
  split
  · exact hs
  · obtain ⟨hi, hp⟩ := hf s.engine hs.1
    refine ⟨hi, fun x hx => ?_⟩
    rcases List.mem_append.mp hx with hx | hx
    · exact hs.2 x hx
    · exact hp x hx

theorem All.forEach {α : Type} {f : α → Engine → Step} {l : List α} {e : Engine} (he : I e)
    (hf : ∀ a ∈ l, ∀ e, I e → (f a e).All I P) : (forEach f l e).All I P := by
  induction l generalizing e with
  | nil => exact ⟨he, by simp [Step.forEach]⟩
  | cons a l ih =>
    exact (hf a (.head _) e he).andThen fun e he => ih he fun b hb => hf b (.tail _ hb)

end Step

namespace Engine
variable {I : Engine → Prop} {P : Effect → Prop} {e : Engine} {h : Host}

theorem all_done (hi : I e) : e.done.All I P := ⟨hi, by simp [done]⟩

theorem all_fail {f : Fault} (hi : I e) : (e.fail f).All I P := ⟨hi, by simp [fail]⟩

theorem all_emit {isOpen : Bool} {x : Effect} (hi : I e) (hx : P x) : (e.emit isOpen x).All I P := by
  unfold emit
  split
  · exact ⟨hi, by simpa using hx⟩
  · exact all_fail hi

end Engine

/-! ### Events other than decisions -/

/-- Whether an effect asks storage for something or starts a transfer. -/
def Effect.isWork : Effect → Bool
  | .request _ | .startSend .. | .startReceive .. => true
  | .propose _ | .prune _ | .upcall _ | .deliver .. | .stopTransfer _ | .releaseTransfer _ => false

/-- Whether an effect hands a message to a transfer. -/
def Effect.isDelivery : Effect → Bool
  | deliver .. => true
  | _ => false

/-- The news for the program above. -/
def Effect.upcall? : Effect → Option Upcall
  | upcall u => some u
  | _ => none

/-- What an event other than a batch of decisions lets an engine do. Only clients' operations and responses of
    storage make it tell anything, and a message is handed to the transfer that it names, or to the one that
    receives. -/
def Event.Allows (e : Engine) (event : Event) : Effect → Prop
  | .upcall _ => (∃ op, event = .submit op) ∨ ∃ r, event = .stored r
  | .deliver id m => event = .message m ∧ (m.id = id ∨ e.incoming? = some id)
  | .propose _ | .prune _ | .stopTransfer _ | .releaseTransfer _ => True
  | .request _ | .startSend .. | .startReceive .. => False

theorem Event.Allows.isWork {e : Engine} {event : Event} {x : Effect} (hx : event.Allows e x) : x.isWork = false := by
  cases x with
  | request | startSend | startReceive => cases hx
  | propose | prune | upcall | deliver | stopTransfer | releaseTransfer => rfl

/-- What every event other than a batch of decisions keeps of an engine. -/
structure Engine.Kept (e e' : Engine) : Prop where
  view : e'.view = e.view
  quorum : e'.quorum = e.quorum
  range : e'.range = e.range
  version : e'.version = e.version
  /-- Nothing is released, and nothing that waits is forgotten. -/
  applied : e'.log.applied? = e.log.applied?
  pending : e'.log.pending = e.log.pending
  mode : e'.mode = e.mode ∨ e.mode = .transferring ∧ e'.mode = .active
  /-- Only a replica that catches up waits for a marker. -/
  syncing : e.mode ≠ .catchingUp → e'.syncing? = e.syncing?
  drawn : e.drawn ≤ e'.drawn
  /-- No transfer is started. -/
  incoming : e'.incoming? = e.incoming? ∨ e'.incoming? = none
  outgoing : e'.outgoing.Sublist e.outgoing

namespace Engine
variable {e e' e'' : Engine} {h : Host} {x : Effect}

theorem Kept.refl (e : Engine) : e.Kept e :=
  ⟨rfl, rfl, rfl, rfl, rfl, rfl, .inl rfl, fun _ => rfl, Nat.le_refl _, .inl rfl, .refl _⟩

theorem Kept.catchingUp_iff (k : e.Kept e') : e'.mode = .catchingUp ↔ e.mode = .catchingUp := by
  rcases k.mode with h | ⟨h, h'⟩
  · rw [h]
  · rw [h, h']; simp

theorem Kept.isServing (k : e.Kept e') : e'.mode.isServing = e.mode.isServing := by
  rcases k.mode with h | ⟨h, h'⟩
  · rw [h]
  · rw [h, h']; rfl

theorem Kept.trans (k : e.Kept e') (k' : e'.Kept e'') : e.Kept e'' where
  view := k'.view.trans k.view
  quorum := k'.quorum.trans k.quorum
  range := k'.range.trans k.range
  version := k'.version.trans k.version
  applied := k'.applied.trans k.applied
  pending := k'.pending.trans k.pending
  mode := by
    rcases k.mode with h | ⟨h, h'⟩ <;> rcases k'.mode with g | ⟨g, g'⟩
    · exact .inl (g.trans h)
    · exact .inr ⟨h ▸ g, g'⟩
    · exact .inr ⟨h, g.trans h'⟩
    · exact .inr ⟨h, g'⟩
  syncing hm := (k'.syncing fun hm' => hm (k.catchingUp_iff.mp hm')).trans (k.syncing hm)
  drawn := Nat.le_trans k.drawn k'.drawn
  incoming := by
    rcases k'.incoming with h | h
    · rw [h]
      exact k.incoming
    · exact .inr h
  outgoing := k'.outgoing.trans k.outgoing

/-- A step that keeps most of an engine and does no work. -/
def Idle (e : Engine) (s : Step) : Prop := s.All e.Kept fun x => x.isWork = false

/-- A step that keeps most of an engine and does what an event allows. -/
def Obeys (e : Engine) (event : Event) (s : Step) : Prop := s.All e.Kept (event.Allows e)

theorem Kept.andThen {P : Effect → Prop} {s : Step} {f : Engine → Step} (hs : s.All e.Kept P)
    (hf : ∀ e', e.Kept e' → (f e').All e'.Kept P) : (s.andThen f).All e.Kept P :=
  Step.All.andThen hs fun e' k =>
    let ⟨hi, hp⟩ := hf e' k
    ⟨k.trans hi, hp⟩

theorem kept_prune : (e.prune h).All e.Kept fun x => ∃ watermark, x = .prune watermark := by
  unfold prune
  split
  · exact all_done (.refl e)
  · exact all_emit ⟨rfl, rfl, rfl, rfl, rfl, rfl, .inl rfl, fun _ => rfl, Nat.le_refl _, .inl rfl, .refl _⟩ ⟨_, rfl⟩

theorem idle_prune : e.Idle (e.prune h) :=
  ⟨kept_prune.1, fun x hx => by obtain ⟨watermark, rfl⟩ := kept_prune.2 x hx; rfl⟩

theorem isDelivery_prune : ∀ x ∈ (e.prune h).effects, x.isDelivery = false := fun x hx => by
  obtain ⟨watermark, rfl⟩ := kept_prune.2 x hx
  rfl

theorem kept_finishTransferring (e : Engine) : e.Kept e.finishTransferring := by
  unfold finishTransferring
  split
  · next hm =>
    exact ⟨rfl, rfl, rfl, rfl, rfl, rfl, .inr ⟨hm.1, rfl⟩, fun _ => rfl, Nat.le_refl _, .inl rfl, .refl _⟩
  · exact .refl e

theorem obeys_submit (op : Operation) : e.Obeys (.submit op) (e.submit h op) := by
  unfold submit
  split
  · exact all_done (.refl e)
  · split
    · exact all_emit (.refl e) (.inl ⟨op, rfl⟩)
    · exact all_emit (.refl e) trivial

theorem obeys_proposeView (change : ViewChange) : e.Obeys (.changeView change) (e.proposeView h change) := by
  unfold proposeView
  split
  · exact all_emit ⟨rfl, rfl, rfl, rfl, rfl, rfl, .inl rfl, fun _ => rfl, Nat.le_succ _, .inl rfl, .refl _⟩ trivial
  · exact all_done (.refl e)

theorem obeys_proposeScan (range : KeyRange) : e.Obeys (.measure range) (e.proposeScan h range) :=
  all_emit ⟨rfl, rfl, rfl, rfl, rfl, rfl, .inl rfl, fun _ => rfl, Nat.le_succ _, .inl rfl, .refl _⟩ trivial

/-- A response may lead to an answer or to a prune, whichever transfer receives. -/
theorem kept_finishRequest (r : Response) : (e'.finishRequest h r).All e'.Kept (Event.Allows e (.stored r)) := by
  cases r with
  | snapshot position =>
    have k : e'.Kept { e' with lastSnapshot := max e'.lastSnapshot position } :=
      ⟨rfl, rfl, rfl, rfl, rfl, rfl, .inl rfl, fun _ => rfl, Nat.le_refl _, .inl rfl, .refl _⟩
    obtain ⟨hkept, hprunes⟩ := kept_prune (e := { e' with lastSnapshot := max e'.lastSnapshot position }) (h := h)
    refine ⟨k.trans hkept, fun x hx => ?_⟩
    obtain ⟨watermark, rfl⟩ := hprunes x hx
    trivial
  | get | scan | multi | size | failed => exact all_emit (.refl e') (.inr ⟨_, rfl⟩)
  | done => exact all_done (.refl e')

theorem obeys_stored (r : Response) : e.Obeys (.stored r) (e.stored h r) := by
  refine Kept.andThen ?_ fun e' _ => kept_finishRequest r
  split
  · exact all_emit (.refl e) (.inr ⟨r, rfl⟩)
  · exact all_done (.refl e)

theorem obeys_deliver {id : TransferId} {m : Message} (hid : m.id = id ∨ e.incoming? = some id) :
    e.Obeys (.message m) (e.deliver h id m) := all_emit (.refl e) ⟨rfl, hid⟩

theorem obeys_route (m : Message) : e.Obeys (.message m) (e.route h m) := by
  unfold route
  split
  · split
    · exact obeys_deliver (.inl rfl)
    · exact all_done (.refl e)
  · exact all_done ⟨rfl, rfl, rfl, rfl, rfl, rfl, .inl rfl, fun _ => rfl, Nat.le_refl _, .inl rfl, .refl _⟩
  · split
    · next hin => exact obeys_deliver (.inr hin)
    · exact all_done (.refl e)

/-- What the end of a transfer's run makes of an engine. A replica that catches up proposes its marker when it has
    received a state to its end; in all other cases the transfer is stopped, if anything is done. -/
inductive Finishes (h : Host) (e : Engine) (c : Completion) (s : Step) : Prop
  | stops (he : s.engine = e) (hx : ∀ x ∈ s.effects, x = .stopTransfer c.id)
  | marks {sync : Syncing} (hm : e.mode = .catchingUp) (hrole : c.role = .receive) (hin : e.incoming? = some c.id)
    (hc : c.outcome = .ok ⟨some sync.snapshot, some sync.version⟩) (hmarker : sync.marker = ⟨h.draw e.drawn⟩)
    (he : s.engine = { e with drawn := e.drawn + 1, syncing? := some sync })
    (hx : ∀ x ∈ s.effects, x = .stopTransfer c.id ∨ x = .propose (.syncedUp sync.marker))
    (hproposed : s.fault? = none → .propose (.syncedUp sync.marker) ∈ s.effects)

theorem finishes_proposeMarker {c : Completion} {snapshot : Position} {version : Version} (hm : e.mode = .catchingUp)
    (hrole : c.role = .receive) (hin : e.incoming? = some c.id) (hc : c.outcome = .ok ⟨some snapshot, some version⟩) :
    Finishes h e c { e.proposeMarker h snapshot version with
      effects := [.stopTransfer c.id] ++ (e.proposeMarker h snapshot version).effects } := by
  refine @Finishes.marks h e c _ ⟨⟨h.draw e.drawn⟩, snapshot, version⟩ hm hrole hin hc rfl ?_ (fun x hx => ?_) fun hf => ?_
  all_goals cases hl : h.logOpen <;> simp_all [proposeMarker, draw, propose, emit, fail]

theorem finishes_finishTransfer (c : Completion) : Finishes h e c (e.finishTransfer h c) := by
  have ignores : Finishes h e c e.done := .stops rfl fun x hx => absurd hx List.not_mem_nil
  have stops : ∀ fault?, Finishes h e c { e.stopTransfer c.id with fault? } := fun fault? =>
    .stops rfl fun x hx => List.mem_singleton.mp hx
  unfold finishTransfer
  cases hrole : c.role with
  | send =>
    dsimp only
    split
    · exact stops none
    · exact ignores
  | receive =>
    dsimp only
    split
    · next hin =>
      cases hc : c.outcome with
      | error fault => exact stops none
      | ok metadata =>
        obtain ⟨snapshot?, version?⟩ := metadata
        cases snapshot? with
        | none => exact stops _
        | some snapshot =>
          cases version? with
          | none => exact stops _
          | some version =>
            rw [Step.andThen_of_none rfl]
            dsimp only
            by_cases hm : (e.stopTransfer c.id).engine.mode = .catchingUp
            · rw [if_pos hm]
              exact finishes_proposeMarker hm hrole hin hc
            · rw [if_neg hm]
              exact stops none
    · exact ignores

theorem obeys_finishTransfer (c : Completion) : e.Obeys (.completed c) (e.finishTransfer h c) := by
  cases finishes_finishTransfer (h := h) (e := e) c with
  | stops he hx =>
    refine ⟨by rw [he]; exact .refl e, fun x hmem => ?_⟩
    rw [hx x hmem]
    trivial
  | marks hm hrole hin hc hmarker he hx hproposed =>
    refine ⟨?_, fun x hmem => ?_⟩
    · rw [he]
      exact ⟨rfl, rfl, rfl, rfl, rfl, rfl, .inl rfl, fun hne => absurd hm hne, Nat.le_succ _, .inl rfl, .refl _⟩
    · rcases hx x hmem with rfl | rfl <;> trivial

theorem obeys_releaseTransfer (id : TransferId) : e.Obeys (.stopped id) (e.releaseTransfer id) := by
  unfold releaseTransfer
  split
  · have k : e.Kept { e with outgoing := e.outgoing.filter (· ≠ id) } :=
      ⟨rfl, rfl, rfl, rfl, rfl, rfl, .inl rfl, fun _ => rfl, Nat.le_refl _, .inl rfl, List.filter_sublist⟩
    exact ⟨k.trans (kept_finishTransferring _), by simp [Event.Allows]⟩
  · split
    · exact ⟨⟨rfl, rfl, rfl, rfl, rfl, rfl, .inl rfl, fun _ => rfl, Nat.le_refl _, .inr rfl, .refl _⟩,
        by simp [Event.Allows]⟩
    · exact all_done (.refl e)

theorem obeys_shutdown : e.Obeys .stop e.shutdown := by
  refine ⟨.refl e, fun x hx => ?_⟩
  obtain ⟨id, -, rfl⟩ := List.mem_map.mp hx
  trivial

/-- An event other than a batch of decisions keeps the configuration, and has few effects. -/
theorem obeys_handle {event : Event} (he : ∀ ds, event ≠ .decide ds) : e.Obeys event (e.handle h event) := by
  cases event with
  | submit op => exact obeys_submit op
  | decide ds => exact absurd rfl (he ds)
  | changeView change => exact obeys_proposeView change
  | measure range => exact obeys_proposeScan range
  | stored r => exact obeys_stored r
  | message m => exact obeys_route m
  | completed c => exact obeys_finishTransfer c
  | stopped id => exact obeys_releaseTransfer id
  | stop => exact obeys_shutdown

/-- An event other than a batch of decisions neither moves the configuration nor asks for work. -/
theorem idle_handle {event : Event} (he : ∀ ds, event ≠ .decide ds) : e.Idle (e.handle h event) :=
  ⟨(obeys_handle he).1, fun x hx => ((obeys_handle he).2 x hx).isWork⟩

end Engine

end ReplicaGroup
