import ReplicaGroup.Proofs.Engine.Steps
import ReplicaGroup.Proofs.Site.Basic

/-! # What effects and reports change

The effects of an engine reach the background of its node and the notices, each in its own way. Told
effect by effect here, so that nothing later opens `Node.perform` or `Background.perform`. -/

namespace ReplicaGroup

namespace Effect

/-- The command for the log of the replica at `addr`. -/
def command? (addr : Addr) : Effect → Option LogCommand
  | propose v => some (.propose v)
  | prune w => some (.prune addr w)
  | _ => none

/-- The request to storage. -/
def request? : Effect → Option Request
  | request r => some r
  | _ => none

/-- Whether a property of transfers survives what an effect does to them, and holds of those it starts. -/
def Keeps (P : Transfer → Prop) (addr : Addr) (config : Config) : Effect → Prop
  | startSend outbound scanId => P (.sending addr config outbound scanId)
  | startReceive id held? =>
    P { Transfer.receiving addr config id with mailbox := held?.toList.map .initiate } ∧
      ∀ t, t.id = id → P t → P { t with mailbox := held?.toList.map .initiate }
  | deliver id m => ∀ t, t.id = id → P t → P { t with mailbox := t.mailbox ++ [m] }
  | stopTransfer id => ∀ t, t.id = id → P t → P { t with stopping := true }
  | releaseTransfer id => ∀ t, t.id = id → P t → P { t with orphaned := true }
  | propose _ | prune _ | upcall _ | request _ => True

end Effect

/-- Who waits for the response to a request of the engine. -/
def Request.requester? (r : Request) : Option Requester := if r.wantsReply then some .engine else none

namespace Background
variable {b : Background} {addr : Addr} {config : Config} {id : TransferId} {f : Transfer → Transfer}

@[simp] theorem queue_wake : (b.wake id).queue = b.queue := by unfold wake; split <;> rfl
@[simp] theorem storeOpen_wake : (b.wake id).storeOpen = b.storeOpen := by unfold wake; split <;> rfl
@[simp] theorem transfers_wake : (b.wake id).transfers = b.transfers := by unfold wake; split <;> rfl

@[simp] theorem queue_update : (b.update id f).queue = b.queue := queue_wake
@[simp] theorem storeOpen_update : (b.update id f).storeOpen = b.storeOpen := storeOpen_wake
@[simp] theorem transfers_update :
    (b.update id f).transfers = b.transfers.map fun t => if t.id = id then f t else t := transfers_wake

@[simp] theorem queue_start (t : Transfer) : (b.start t).queue = b.queue := queue_wake
@[simp] theorem storeOpen_start (t : Transfer) : (b.start t).storeOpen = b.storeOpen := storeOpen_wake
@[simp] theorem transfers_start (t : Transfer) : (b.start t).transfers = b.transfers ++ [t] := transfers_wake

theorem forall_update {P : Transfer → Prop} (h : ∀ t ∈ b.transfers, P t)
    (hf : ∀ t, t.id = id → P t → P (f t)) : ∀ t ∈ (b.update id f).transfers, P t := by
  intro t ht
  rw [transfers_update] at ht
  obtain ⟨u, hu, rfl⟩ := List.mem_map.mp ht
  split
  · next hid => exact hf u hid (h u hu)
  · exact h u hu

/-- What holds before and survives every release holds after all of them. -/
theorem releaseAll_induction {P : Background → Prop} (h : P b) (hr : ∀ c id, P c → P (c.release id)) :
    P b.releaseAll := by
  unfold releaseAll
  generalize b.transfers = ts
  induction ts generalizing b with
  | nil => exact h
  | cons t ts ih => exact ih (hr b t.id h)

@[simp] theorem queue_releaseAll : b.releaseAll.queue = b.queue :=
  releaseAll_induction (P := fun c => c.queue = b.queue) rfl fun _ _ h => queue_update.trans h

@[simp] theorem storeOpen_releaseAll : b.releaseAll.storeOpen = b.storeOpen :=
  releaseAll_induction (P := fun c => c.storeOpen = b.storeOpen) rfl fun _ _ h => storeOpen_update.trans h

theorem forall_releaseAll {P : Transfer → Prop} (h : ∀ t ∈ b.transfers, P t)
    (hf : ∀ t, P t → P { t with orphaned := true }) : ∀ t ∈ b.releaseAll.transfers, P t :=
  releaseAll_induction (P := fun c => ∀ t ∈ c.transfers, P t) h fun _ _ hc =>
    forall_update hc fun t _ ht => hf t ht

/-! ### Effects of the engine -/

/-- The background after effects. -/
def performAll (b : Background) (addr : Addr) (config : Config) (effects : List Effect) : Background :=
  effects.foldl (fun b e => (b.perform addr config e).getD b) b

theorem queue_performAll (effects : List Effect) : (b.performAll addr config effects).queue =
    b.queue ++ (effects.filterMap Effect.request?).map fun r => (r, r.requester?) := by
  unfold performAll
  induction effects generalizing b with
  | nil => simp
  | cons e effects ih =>
    rw [List.foldl_cons, ih, List.filterMap_cons]
    cases e <;> simp [perform, Effect.request?, submit, stop, release, deliver, Request.requester?]

@[simp] theorem storeOpen_performAll (effects : List Effect) :
    (b.performAll addr config effects).storeOpen = b.storeOpen := by
  unfold performAll
  induction effects generalizing b with
  | nil => rfl
  | cons e effects ih =>
    rw [List.foldl_cons, ih]
    cases e <;> simp [perform, submit, stop, release, deliver]

theorem forall_performAll {P : Transfer → Prop} {effects : List Effect} (h : ∀ t ∈ b.transfers, P t)
    (he : ∀ e ∈ effects, e.Keeps P addr config) :
    ∀ t ∈ (b.performAll addr config effects).transfers, P t := by
  unfold performAll
  induction effects generalizing b with
  | nil => exact h
  | cons e effects ih =>
    refine ih ?_ fun e' he' => he e' (.tail _ he')
    have hk := he e (.head _)
    cases e with
    | startSend outbound scanId =>
      intro t ht
      rcases List.mem_append.mp (transfers_start _ ▸ ht) with ht | ht
      · exact h t ht
      · exact List.mem_singleton.mp ht ▸ hk
    | startReceive id held? =>
      intro t ht
      simp only [perform, Option.getD_some, transfers_update, transfers_start, List.mem_map, List.mem_append,
        List.mem_singleton] at ht
      obtain ⟨u, hu | rfl, rfl⟩ := ht
      · split
        · next hid => exact hk.2 u hid (h u hu)
        · exact h u hu
      · rw [if_pos (show (Transfer.receiving addr config id).id = id from rfl)]
        exact hk.1
    | deliver id m => exact forall_update h hk
    | stopTransfer id => exact forall_update h hk
    | releaseTransfer id => exact forall_update h hk
    | propose v => exact h
    | prune w => exact h
    | upcall u => exact h
    | request r => exact h

end Background

/-! ### The node -/

namespace Node

/-- What a node is after effects, told at once. -/
theorem foldl_perform (effects : List Effect) (n : Node) : effects.foldl perform n =
    { n with
      background := n.background.performAll n.addr n.config effects
      notices := { n.notices with
        commands := n.notices.commands ++ effects.filterMap (Effect.command? n.addr)
        requests := n.notices.requests ++ effects.filterMap Effect.request?
        upcalls := n.notices.upcalls ++ effects.filterMap Effect.upcall? } } := by
  induction effects generalizing n with
  | nil => simp [Background.performAll]
  | cons e effects ih =>
    rw [List.foldl_cons, ih]
    cases e <;>
      simp [perform, Background.perform, Background.performAll, note, List.filterMap_cons, Effect.command?,
        Effect.request?, Effect.upcall?]

theorem take_fst (n : Node) (s : Step) : (n.take s).1 =
    { n with
      engine := s.engine
      background := n.background.performAll n.addr n.config s.effects
      notices := { n.notices with
        commands := n.notices.commands ++ s.effects.filterMap (Effect.command? n.addr)
        requests := n.notices.requests ++ s.effects.filterMap Effect.request?
        upcalls := n.notices.upcalls ++ s.effects.filterMap Effect.upcall? } } :=
  foldl_perform s.effects { n with engine := s.engine }

end Node

/-! ### Reports of transfers -/

namespace Transfer.Report

/-- The request to storage. -/
def request? : Report → Option Request
  | deed (.request r) => some r
  | _ => none

/-- The message and its destination. -/
def message? : Report → Option (Addr × Message)
  | deed (.send dest m) => some (dest, m)
  | _ => none

/-- The end of a run. -/
def completion? : Report → Option Completion
  | completed c => some c
  | _ => none

/-- Whether the transfer has stopped. -/
def isStopped : Report → Bool
  | stopped => true
  | _ => false

end Transfer.Report

/-- The network after a message to an address; a message that does not reach an inbox is lost. -/
def Network.post (net : Network Inbox) (dest : Addr) (m : Message) : Network Inbox :=
  match net.route Inbox.isOpen dest m with
  | .ok (inbox, arrived) => net.insert dest { inbox with messages := inbox.messages ++ [arrived] }
  | .error _ => net

/-- The network after messages, one after the other. -/
def Network.postAll (net : Network Inbox) (sent : List (Addr × Message)) : Network Inbox :=
  sent.foldl (fun net x => net.post x.1 x.2) net

namespace Node

theorem send_eq (n : Node) (dest : Addr) (m : Message) :
    n.send dest m = { n with peers := n.peers.post dest m } := by
  unfold send Network.post
  cases n.peers.route Inbox.isOpen dest m <;> rfl

/-- What the reports of a transfer make of a node, told at once. -/
abbrev acceptAll (n : Node) (id : TransferId) (reports : List Transfer.Report) : Node :=
  { n with
    background := { n.background with
      queue := n.background.queue ++
        (reports.filterMap Transfer.Report.request?).map fun r => (r, some (.transfer id)) }
    peers := n.peers.postAll (reports.filterMap Transfer.Report.message?)
    notices := { n.notices with
      requests := n.notices.requests ++ reports.filterMap Transfer.Report.request?
      completed := n.notices.completed ++
        (reports.filterMap Transfer.Report.completion?).filter fun _ => n.completionsOpen
      stopped := n.notices.stopped ++
        (reports.filter fun r => r.isStopped && n.eventsOpen).map fun _ => id } }

theorem foldl_accept (reports : List Transfer.Report) (id : TransferId) (n : Node) :
    reports.foldl (accept · id) n = n.acceptAll id reports := by
  induction reports generalizing n with
  | nil => cases n; simp [acceptAll, Network.postAll]
  | cons report reports ih =>
    rw [List.foldl_cons, ih]
    cases report with
    | deed d =>
      cases d with
      | request r =>
        simp [accept, Background.accept, Background.submit, report, note, Transfer.Report.request?,
          Transfer.Report.message?, Transfer.Report.completion?, Transfer.Report.isStopped,
          List.filterMap_cons]
      | send dest m =>
        simp [accept, Background.accept, report, send_eq, Transfer.Report.request?, Network.postAll,
          Transfer.Report.message?, Transfer.Report.completion?, Transfer.Report.isStopped,
          List.filterMap_cons]
    | completed c =>
      by_cases h : n.completionsOpen = true <;>
        simp [accept, Background.accept, report, note, h, Transfer.Report.request?, Network.postAll,
          Transfer.Report.message?, Transfer.Report.completion?, Transfer.Report.isStopped,
          List.filterMap_cons]
    | stopped =>
      by_cases h : n.eventsOpen = true <;>
        simp [accept, Background.accept, report, note, h, Transfer.Report.request?, Network.postAll,
          Transfer.Report.message?, Transfer.Report.completion?, Transfer.Report.isStopped,
          List.filterMap_cons]

end Node
/-! ### The site -/

namespace Site
variable {s : Site} {step : Step} {e : Event}

section Take

@[simp] theorem take_running : (s.take step).running = (s.running && step.fault?.isNone) := by
  unfold take; cases step.fault? <;> simp [halt]
@[simp] theorem take_batch? : (s.take step).batch? = s.batch? := by unfold take; split <;> rfl
@[simp] theorem take_released : (s.take step).released = s.released := by unfold take; split <;> rfl
@[simp] theorem take_applied : (s.take step).applied = s.applied := by unfold take; split <;> rfl

@[simp] theorem take_engine : (s.take step).node.engine = step.engine := by
  unfold take; split <;> simp [halt, Node.take_fst]
@[simp] theorem take_addr : (s.take step).node.addr = s.node.addr := by
  unfold take; split <;> simp [halt, Node.take_fst]
@[simp] theorem take_config : (s.take step).node.config = s.node.config := by
  unfold take; split <;> simp [halt, Node.take_fst]
@[simp] theorem take_draw : (s.take step).node.draw = s.node.draw := by
  unfold take; split <;> simp [halt, Node.take_fst]
@[simp] theorem take_store : (s.take step).node.store = s.node.store := by
  unfold take; split <;> simp [halt, Node.take_fst]
@[simp] theorem take_peers : (s.take step).node.peers = s.node.peers := by
  unfold take; split <;> simp [halt, Node.take_fst]
@[simp] theorem take_logOpen : (s.take step).node.logOpen = s.node.logOpen := by
  unfold take; split <;> simp [halt, Node.take_fst]
@[simp] theorem take_upcallOpen : (s.take step).node.upcallOpen = s.node.upcallOpen := by
  unfold take; split <;> simp [halt, Node.take_fst]
@[simp] theorem take_eventsOpen : (s.take step).node.eventsOpen = s.node.eventsOpen := by
  unfold take; split <;> simp [halt, Node.take_fst]
@[simp] theorem take_storeOpen : (s.take step).node.background.storeOpen = s.node.background.storeOpen := by
  unfold take; split <;> simp [halt, Node.take_fst]
@[simp] theorem take_stored : (s.take step).node.notices.stored = s.node.notices.stored := by
  unfold take; split <;> simp [halt, Node.take_fst]
@[simp] theorem take_completed : (s.take step).node.notices.completed = s.node.notices.completed := by
  unfold take; split <;> simp [halt, Node.take_fst]

@[simp] theorem take_stopped : (s.take step).node.notices.stopped = s.node.notices.stopped := by
  unfold take; split <;> simp [halt, Node.take_fst]

@[simp] theorem take_upcalls : (s.take step).node.notices.upcalls =
    s.node.notices.upcalls ++ step.effects.filterMap Effect.upcall? := by
  unfold take; split <;> simp [halt, Node.take_fst]
@[simp] theorem take_commands : (s.take step).node.notices.commands =
    s.node.notices.commands ++ step.effects.filterMap (Effect.command? s.node.addr) := by
  unfold take; split <;> simp [halt, Node.take_fst]
@[simp] theorem take_queue : (s.take step).node.background.queue =
    s.node.background.queue ++ (step.effects.filterMap Effect.request?).map fun r => (r, r.requester?) := by
  unfold take; split <;> simp [halt, Node.take_fst, Background.queue_performAll]

theorem forall_take {P : Transfer → Prop} (h : ∀ t ∈ s.node.background.transfers, P t)
    (ho : ∀ t, P t → P { t with orphaned := true })
    (he : ∀ e ∈ step.effects, e.Keeps P s.node.addr s.node.config) :
    ∀ t ∈ (s.take step).node.background.transfers, P t := by
  have hp := Background.forall_performAll h he
  unfold take
  split
  · simp only [halt, Node.take_fst]
    exact Background.forall_releaseAll hp ho
  · simpa only [Node.take_fst] using hp

end Take

end Site
end ReplicaGroup
