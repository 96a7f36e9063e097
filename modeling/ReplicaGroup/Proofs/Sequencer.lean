import Mathlib.Data.List.Infix
import ReplicaGroup.OrderedMap.Lemmas
import ReplicaGroup.Sequencer

/-! # The order of the sequencer

Replicas queue proposals, prune commands and subscriptions whenever they like, between any two steps of
the sequencer. The proposals it takes are those that were queued first, and the k-th of them gets position
k. A batch is sent when no subscription is queued any more, so what was not sent yet when a subscription
was queued reaches the subscriber, and nothing else does: the proposals that came later are among it, and
so are those of the batch that is being collected. -/

namespace ReplicaGroup

/-- The value that a command proposes. -/
def LogCommand.proposal? : LogCommand → Option Value
  | propose v => some v
  | prune .. => none

/-- The decisions that proposals become, in the order in which they are taken. -/
def numbered (proposals : List Value) : List Decision := proposals.mapIdx fun k v => ⟨k + 1, v⟩

@[simp] theorem length_numbered (proposals : List Value) : (numbered proposals).length = proposals.length := by
  simp [numbered]

theorem numbered_concat (proposals : List Value) (v : Value) :
    numbered (proposals ++ [v]) = numbered proposals ++ [⟨proposals.length + 1, v⟩] := by
  simp [numbered, List.mapIdx_append]

theorem take_numbered (proposals : List Value) (n : Nat) :
    (numbered proposals).take n = numbered (proposals.take n) := by
  refine List.ext_getElem? fun k => ?_
  simp only [numbered, List.getElem?_take, List.getElem?_mapIdx]
  split <;> rfl

/-- The k-th proposal gets position k. -/
theorem mem_numbered_iff {proposals : List Value} {d : Decision} :
    d ∈ numbered proposals ↔ 0 < d.position ∧ proposals[d.position - 1]? = some d.value := by
  rw [numbered, List.mem_mapIdx]
  constructor
  · rintro ⟨k, hk, rfl⟩
    simp [hk]
  · rintro ⟨hpos, hv⟩
    obtain ⟨hlt, hv⟩ := List.getElem?_eq_some_iff.mp hv
    refine ⟨d.position - 1, hlt, ?_⟩
    rw [hv, Nat.sub_add_cancel hpos]

namespace OrderedMap
variable {α β : Type} [LT α] [LE α] [DecidableEq α] [Std.IsLinearOrder α] [Std.LawfulOrderLT α]

/-- A value that stands under one key only is found once. -/
theorem filter_values_eq_singleton [DecidableEq β] {m : OrderedMap α β} {k : α} {v : β} (hk : m.get? k = some v)
    (honly : ∀ e ∈ m.entries, e.2 = v → e.1 = k) : m.values.filter (· = v) = [v] := by
  have hentries : m.entries.filter (fun e => decide (e.2 = v)) = [(k, v)] := by
    refine eq_of_mem_iff (m.ordered.filter _) (List.pairwise_singleton ..) fun e => ?_
    rw [List.mem_filter, List.mem_singleton, decide_eq_true_eq]
    constructor
    · rintro ⟨he, hv⟩
      exact Prod.ext (honly e he hv) hv
    · rintro rfl
      exact ⟨get?_eq_some_iff.mp hk, rfl⟩
  calc m.values.filter (· = v) = (m.entries.filter fun e => decide (e.2 = v)).map (·.2) := List.filter_map ..
    _ = [v] := congrArg (List.map (·.2)) hentries

end OrderedMap

namespace Sequencer
variable {ι : Type}

/-- The decisions that are made and not sent yet. -/
def batch (s : Sequencer ι) : List Decision :=
  match s.phase with
  | .idle => []
  | .collecting batch | .admitting batch => batch

/-- The last position that was sent. -/
def broadcast (s : Sequencer ι) : Position := s.position - s.batch.length

/-- The proposals that are queued. -/
def queued (s : Sequencer ι) : List Value := s.commands.filterMap LogCommand.proposal?

/-- The subscribers there are once every queued subscription is taken. -/
def prospects (s : Sequencer ι) : OrderedMap Addr ι :=
  s.subscriptions.foldl (fun m subscription => m.insert subscription.1 subscription.2) s.subscribers

section Queues
variable (s : Sequencer ι) (addr : Addr) (inbox : ι) (command : LogCommand)

@[simp] theorem position_subscribe : (s.subscribe addr inbox).position = s.position := by
  unfold subscribe; split <;> rfl

@[simp] theorem batch_subscribe : (s.subscribe addr inbox).batch = s.batch := by
  unfold subscribe; split <;> rfl

@[simp] theorem queued_subscribe : (s.subscribe addr inbox).queued = s.queued := by
  unfold subscribe; split <;> rfl

@[simp] theorem subscribers_subscribe : (s.subscribe addr inbox).subscribers = s.subscribers := by
  unfold subscribe; split <;> rfl

@[simp] theorem position_enqueue : (s.enqueue command).position = s.position := by
  unfold enqueue; split <;> rfl

@[simp] theorem batch_enqueue : (s.enqueue command).batch = s.batch := by
  unfold enqueue; split <;> rfl

@[simp] theorem subscribers_enqueue : (s.enqueue command).subscribers = s.subscribers := by
  unfold enqueue; split <;> rfl

@[simp] theorem subscriptions_enqueue : (s.enqueue command).subscriptions = s.subscriptions := by
  unfold enqueue; split <;> rfl

theorem queued_enqueue : (s.enqueue command).queued =
    if s.commandsClosed then s.queued else s.queued ++ command.proposal?.toList := by
  unfold enqueue
  split
  · rfl
  · cases h : command.proposal? <;> simp [queued, h]

end Queues

/-! ### What a step does -/

/-- What the sequencer may do next, and the batches it sends then. The queues are looked at one after the
    other, so a command may be taken although a subscription is queued; a batch is only sent when none
    is. -/
inductive Goes (isOpen : ι → Bool) (s : Sequencer ι) : Sequencer ι → List (Delivery ι) → Prop where
  | join {subscription : Addr × ι} {rest : List (Addr × ι)} (hs : s.subscriptions = subscription :: rest) :
      Goes isOpen s ({ s with subscriptions := rest }.enlist subscription) []
  | take {command : LogCommand} {rest : List LogCommand} (hc : s.commands = command :: rest) :
      Goes isOpen s ({ s with commands := rest }.collect s.batch command) []
  | turn {phase : Phase} (hb : { s with phase := phase }.batch = s.batch) :
      Goes isOpen s { s with phase := phase } []
  | send (hs : s.subscriptions = []) : Goes isOpen s (s.send isOpen s.batch).1 (s.send isOpen s.batch).2

section Steps
variable {isOpen : ι → Bool} {s t : Sequencer ι} {sent : List (Delivery ι)}

theorem goes_of_step (h : s.step isOpen = some (t, sent)) : Goes isOpen s t sent := by
  unfold step at h
  split at h
  · next hp =>
    have hb : s.batch = [] := by simp [batch, hp]
    split at h
    · next hs => cases h; exact .join hs
    · next hs hc => cases h; exact hb ▸ .take hc
    · cases h
  · next b hp =>
    have hb : s.batch = b := by simp [batch, hp]
    split at h
    · next hc => cases h; exact hb ▸ .take hc
    · cases h; exact .turn hb.symm
    · cases h; exact .turn hb.symm
  · next b hp =>
    have hb : s.batch = b := by simp [batch, hp]
    split at h
    · next hs => cases h; exact .join hs
    · next hs => cases h; exact hb ▸ .send hs

/-- A sequencer that has to wait has taken every command and sent every batch. -/
theorem idle_of_step_eq_none (h : s.step isOpen = none) : s.commands = [] ∧ s.batch = [] := by
  unfold step at h
  split at h
  · next hp =>
    split at h
    · cases h
    · cases h
    · next hc => exact ⟨hc, by simp [batch, hp]⟩
  · split at h <;> cases h
  · split at h <;> cases h

theorem step_run_eq_none (s : Sequencer ι) (isOpen : ι → Bool) : (s.run isOpen).1.step isOpen = none := by
  fun_induction run s isOpen with
  | case1 s h => exact h
  | case2 s t sent h _ u later hrun ih => simpa [hrun] using ih

theorem prospects_subscribe (h : s.subscriptionsClosed = false) (addr : Addr) (inbox : ι) :
    (s.subscribe addr inbox).prospects = s.prospects.insert addr inbox := by
  simp [subscribe, h, prospects]

/-- A step changes the subscribers to be only by what it forgets when it sends. -/
theorem Goes.prospects (h : Goes isOpen s t sent) : t.prospects = s.prospects ∨
    t.prospects = s.prospects.filter fun _ inbox => isOpen inbox := by
  cases h with
  | join hs => left; simp [Sequencer.prospects, enlist, hs]
  | @take command rest hc => left; cases command <;> rfl
  | turn => left; rfl
  | send hs => right; simp [Sequencer.prospects, Sequencer.send, hs]

end Steps

/-! ### The sequencer and its surroundings -/

/-- What happens in the sequencer and around it. -/
inductive Act (ι : Type) where
  | subscribe (addr : Addr) (inbox : ι)
  | enqueue (command : LogCommand)
  /-- An inbox is closed by the one who reads it. -/
  | close (inbox : ι)
  /-- No more subscriptions can be queued from here on. -/
  | endSubscriptions
  /-- No more commands can be queued from here on. -/
  | endCommands
  | step
  /-- The sequencer takes a command while it is idle, with a subscription queued since it looked for
      one. -/
  | overtake

/-- A sequencer with what was queued and what it has sent. -/
structure Session (ι : Type) where
  sequencer : Sequencer ι := {}
  /-- The inboxes that are closed. -/
  closed : List ι := []
  /-- The values that were proposed, in the order in which they were queued. -/
  proposed : List Value := []
  /-- The batches that were sent. -/
  sent : List (Delivery ι) := []

namespace Session

section Acts
variable [DecidableEq ι]

/-- Whether an inbox is open. -/
def isOpen (s : Session ι) (inbox : ι) : Bool := inbox ∉ s.closed

/-- The session after the sequencer has gone on to `t` and sent batches. -/
def advance (s : Session ι) (t : Sequencer ι) (sent : List (Delivery ι)) : Session ι :=
  { s with sequencer := t, sent := s.sent ++ sent }

/-- The session after an act. A step that is not possible changes nothing. -/
def act (s : Session ι) : Act ι → Session ι
  | .subscribe addr inbox => { s with sequencer := s.sequencer.subscribe addr inbox }
  | .enqueue command =>
    { s with
      sequencer := s.sequencer.enqueue command
      proposed := if s.sequencer.commandsClosed then s.proposed else s.proposed ++ command.proposal?.toList }
  | .close inbox => { s with closed := inbox :: s.closed }
  | .endSubscriptions => { s with sequencer := { s.sequencer with subscriptionsClosed := true } }
  | .endCommands => { s with sequencer := { s.sequencer with commandsClosed := true } }
  | .step => ((s.sequencer.step s.isOpen).map fun r => s.advance r.1 r.2).getD s
  | .overtake =>
    match s.sequencer.phase, s.sequencer.commands with
    | .idle, command :: rest => s.advance ({ s.sequencer with commands := rest }.collect [] command) []
    | _, _ => s

/-- The session after acts. -/
def after (acts : List (Act ι)) : Session ι := acts.foldl act {}

/-- The session once the sequencer has worked off what is queued. -/
def settle (s : Session ι) : Session ι :=
  s.advance (s.sequencer.run s.isOpen).1 (s.sequencer.run s.isOpen).2

/-- The proposals that are taken: those that were queued first, one for every position. -/
def taken (s : Session ι) : List Value := s.proposed.take s.sequencer.position

/-- The decisions that an inbox has received. -/
def received (s : Session ι) (inbox : ι) : List Decision :=
  (s.sent.filter fun delivery => delivery.1 = inbox).flatMap (·.2)

variable {s : Session ι} {P : Session ι → Prop}

theorem after_concat (acts : List (Act ι)) (a : Act ι) : after (acts ++ [a]) = (after acts).act a := by
  simp [after]

/-- What holds wherever the sequencer may go holds after a step. -/
theorem act_step (h : P s) (hgoes : ∀ t sent, Goes s.isOpen s.sequencer t sent → P (s.advance t sent)) :
    P (s.act .step) := by
  cases hs : s.sequencer.step s.isOpen with
  | none => simpa [act, hs] using h
  | some r => simpa [act, hs] using hgoes r.1 r.2 (goes_of_step hs)

theorem act_overtake (h : P s) (hgoes : ∀ t sent, Goes s.isOpen s.sequencer t sent → P (s.advance t sent)) :
    P (s.act .overtake) := by
  simp only [act]
  split
  · next command rest hp hc =>
    have hb : s.sequencer.batch = [] := by simp [batch, hp]
    exact hgoes _ [] (hb ▸ .take hc)
  · exact h

/-- What is kept wherever the sequencer may go holds when everything is worked off. -/
theorem settle_induction (h : P s)
    (hgoes : ∀ u t sent, P u → Goes u.isOpen u.sequencer t sent → P (u.advance t sent)) : P s.settle := by
  unfold settle
  have hopen : ∀ q sent, (s.advance q sent).isOpen = s.isOpen := fun _ _ => rfl
  suffices ∀ q sent, P (s.advance q sent) →
      P (s.advance (q.run s.isOpen).1 (sent ++ (q.run s.isOpen).2)) by
    simpa using this s.sequencer [] (by simpa [advance] using h)
  intro q
  generalize s.isOpen = o at hopen
  fun_induction run q o with
  | case1 q hq => intro sent hP; simpa using hP
  | case2 q t sent' hq _ u later hrun ih =>
    intro sent hP
    have := ih (sent ++ sent') (by simpa [advance] using hgoes _ t sent' hP (hopen q sent ▸ goes_of_step hq))
    simpa [hrun] using this

end Acts

variable {s : Session ι}

/-! ### The positions -/

/-- The taken proposals are those that were queued first, and every decision is one of them under its
    position. -/
structure Numbers (s : Session ι) : Prop where
  proposed : s.proposed = s.taken ++ s.sequencer.queued
  position : s.taken.length = s.sequencer.position
  batch : s.sequencer.batch <:+ numbered s.taken
  sent : ∀ delivery ∈ s.sent, delivery.2 <:+: numbered s.taken

theorem Numbers.of_taken (values : List Value) (hproposed : s.proposed = values ++ s.sequencer.queued)
    (hposition : values.length = s.sequencer.position) (hbatch : s.sequencer.batch <:+ numbered values)
    (hsent : ∀ delivery ∈ s.sent, delivery.2 <:+: numbered values) : s.Numbers := by
  have htaken : s.taken = values := by rw [taken, hproposed, ← hposition, List.take_left]
  exact ⟨htaken ▸ hproposed, htaken ▸ hposition, htaken ▸ hbatch, htaken ▸ hsent⟩

theorem Numbers.enqueue [DecidableEq ι] (hs : s.Numbers) (command : LogCommand) :
    (s.act (.enqueue command)).Numbers := by
  refine .of_taken s.taken ?_ (by simpa [act] using hs.position) (by simpa [act] using hs.batch) hs.sent
  simp only [act, queued_enqueue]
  split
  · exact hs.proposed
  · rw [← List.append_assoc, ← hs.proposed]

theorem Numbers.advance {isOpen : ι → Bool} {t : Sequencer ι} {sent : List (Delivery ι)} (hs : s.Numbers)
    (h : Goes isOpen s.sequencer t sent) : (s.advance t sent).Numbers := by
  cases h with
  | join hq => exact .of_taken s.taken hs.proposed hs.position hs.batch (by simpa [Session.advance] using hs.sent)
  | turn hb => exact .of_taken s.taken hs.proposed hs.position (hb ▸ hs.batch) (by simpa [Session.advance] using hs.sent)
  | send hq =>
    refine .of_taken s.taken hs.proposed hs.position (List.nil_suffix ..) fun d hd => ?_
    obtain hd | hd := List.mem_append.mp hd
    · exact hs.sent d hd
    · obtain ⟨inbox, -, rfl⟩ := List.mem_map.mp hd
      exact hs.batch.isInfix
  | @take command rest hc =>
    have hproposed : s.proposed = s.taken ++ (command :: rest).filterMap LogCommand.proposal? := hc ▸ hs.proposed
    cases command with
    | prune replica watermark =>
      exact .of_taken s.taken hproposed hs.position hs.batch (by simpa [Session.advance] using hs.sent)
    | propose v =>
      -- The one case that takes a proposal: it gets the position after the last one.
      refine .of_taken (s.taken ++ [v]) ?_ ?_ ?_ fun d hd => ?_
      · rw [List.append_assoc]
        exact hproposed
      · simpa [Session.advance, collect] using hs.position
      · obtain ⟨front, hfront⟩ := hs.batch
        exact ⟨front, by rw [numbered_concat, hs.position, ← hfront, List.append_assoc]; rfl⟩
      · rw [numbered_concat]
        exact (hs.sent d (by simpa [Session.advance] using hd)).trans (List.prefix_append ..).isInfix

theorem numbers_after [DecidableEq ι] (acts : List (Act ι)) : (after acts).Numbers := by
  induction acts using List.reverseRecOn with
  | nil => exact ⟨rfl, rfl, ⟨[], rfl⟩, nofun⟩
  | append_singleton acts a ih =>
    rw [after_concat]
    cases a with
    | subscribe addr inbox =>
      exact .of_taken _ (by simpa [act] using ih.proposed) (by simpa [act] using ih.position)
        (by simpa [act] using ih.batch) ih.sent
    | enqueue command => exact ih.enqueue command
    | close | endSubscriptions | endCommands => exact ⟨ih.proposed, ih.position, ih.batch, ih.sent⟩
    | step => exact act_step ih fun _ _ => ih.advance
    | overtake => exact act_overtake ih fun _ _ => ih.advance

theorem Numbers.broadcast_add (hs : s.Numbers) :
    s.sequencer.broadcast + s.sequencer.batch.length = s.sequencer.position := by
  have hlength : s.sequencer.batch.length ≤ s.sequencer.position := by
    rw [← hs.position, ← length_numbered]
    exact hs.batch.length_le
  exact Nat.sub_add_cancel hlength

theorem Numbers.position_le (hs : s.Numbers) : s.sequencer.position ≤ s.proposed.length := by
  rw [hs.proposed, List.length_append, hs.position]
  exact Nat.le_add_right ..

/-- What is sent next follows on from what was sent before. -/
theorem Numbers.take_broadcast_append (hs : s.Numbers) :
    (numbered s.proposed).take s.sequencer.broadcast ++ s.sequencer.batch =
      (numbered s.proposed).take s.sequencer.position := by
  obtain ⟨front, hfront⟩ := hs.batch
  have hlength : front.length = s.sequencer.broadcast := by
    have hsum : front.length + s.sequencer.batch.length = s.sequencer.position := by
      rw [← List.length_append, hfront, length_numbered, hs.position]
    exact Nat.add_right_cancel (hsum.trans hs.broadcast_add.symm)
  have htaken : (numbered s.proposed).take s.sequencer.position = front ++ s.sequencer.batch :=
    (take_numbered ..).trans hfront.symm
  have hfront' : (numbered s.proposed).take s.sequencer.broadcast = front := by
    have := congrArg (List.take s.sequencer.broadcast) htaken
    rwa [List.take_take, Nat.min_eq_left (hs.broadcast_add ▸ Nat.le_add_right ..), ← hlength,
      List.take_left, hlength] at this
  rw [hfront', htaken]

theorem Numbers.settle [DecidableEq ι] (hs : s.Numbers) : s.settle.Numbers :=
  settle_induction hs fun _ _ _ => Numbers.advance

/-! ### The subscribers -/

/-- The sequencer sends to nobody who has not subscribed, and no inbox is closed unless its reader did. -/
structure Knows (acts : List (Act ι)) (s : Session ι) : Prop where
  subscribers : ∀ e ∈ s.sequencer.subscribers.entries, .subscribe e.1 e.2 ∈ acts
  subscriptions : ∀ e ∈ s.sequencer.subscriptions, .subscribe e.1 e.2 ∈ acts
  sent : ∀ delivery ∈ s.sent, ∃ addr, .subscribe addr delivery.1 ∈ acts
  closed : ∀ inbox ∈ s.closed, .close inbox ∈ acts

theorem Knows.advance {acts : List (Act ι)} {isOpen : ι → Bool} {t : Sequencer ι} {sent : List (Delivery ι)}
    (hs : s.Knows acts) (h : Goes isOpen s.sequencer t sent) : (s.advance t sent).Knows acts := by
  cases h with
  | turn => exact ⟨hs.subscribers, hs.subscriptions, by simpa [Session.advance] using hs.sent, hs.closed⟩
  | @take command rest hc =>
    refine ⟨?_, ?_, by simpa [Session.advance] using hs.sent, hs.closed⟩ <;> cases command
    exacts [hs.subscribers, hs.subscribers, hs.subscriptions, hs.subscriptions]
  | @join subscription rest hq =>
    have hqueue := hq ▸ hs.subscriptions
    refine ⟨fun e he => ?_, fun e he => hqueue e (List.mem_cons_of_mem _ he),
      by simpa [Session.advance] using hs.sent, hs.closed⟩
    obtain rfl | he := OrderedMap.mem_insertEntry he
    · exact hqueue subscription (List.mem_cons_self ..)
    · exact hs.subscribers e he
  | send hq =>
    refine ⟨fun e he => hs.subscribers e (List.mem_filter.mp he).1, hs.subscriptions, fun d hd => ?_, hs.closed⟩
    obtain hd | hd := List.mem_append.mp hd
    · exact hs.sent d hd
    · obtain ⟨inbox, hinbox, rfl⟩ := List.mem_map.mp hd
      obtain ⟨e, he, rfl⟩ := List.mem_map.mp hinbox
      exact ⟨e.1, hs.subscribers e (List.mem_filter.mp he).1⟩

theorem Knows.mono {acts acts' : List (Act ι)} (hs : s.Knows acts) (h : acts ⊆ acts') : s.Knows acts' where
  subscribers e he := h (hs.subscribers e he)
  subscriptions e he := h (hs.subscriptions e he)
  sent d hd := (hs.sent d hd).imp fun _ ha => h ha
  closed i hi := h (hs.closed i hi)

theorem knows_after [DecidableEq ι] (acts : List (Act ι)) : (after acts).Knows acts := by
  induction acts using List.reverseRecOn with
  | nil => exact ⟨nofun, nofun, nofun, nofun⟩
  | append_singleton acts a ih =>
    have ih : (after acts).Knows (acts ++ [a]) := ih.mono (by simp)
    rw [after_concat]
    cases a with
    | subscribe addr inbox =>
      refine ⟨by simpa [act] using ih.subscribers, fun e he => ?_, ih.sent, ih.closed⟩
      simp only [act, subscribe] at he
      split at he
      · exact ih.subscriptions e he
      · obtain he | he := List.mem_append.mp he
        · exact ih.subscriptions e he
        · obtain rfl := List.mem_singleton.mp he
          simp
    | enqueue command =>
      exact ⟨by simpa [act] using ih.subscribers, by simpa [act] using ih.subscriptions, ih.sent, ih.closed⟩
    | close inbox =>
      refine ⟨ih.subscribers, ih.subscriptions, ih.sent, fun i hi => ?_⟩
      obtain rfl | hi := List.mem_cons.mp hi
      · simp
      · exact ih.closed i hi
    | endSubscriptions | endCommands => exact ⟨ih.subscribers, ih.subscriptions, ih.sent, ih.closed⟩
    | step => exact act_step ih fun _ _ => ih.advance
    | overtake => exact act_overtake ih fun _ _ => ih.advance

/-- An open inbox is the one that its address subscribes last, and it has received what was sent after
    position `n`. -/
structure Follows [DecidableEq ι] (addr : Addr) (inbox : ι) (n : Position) (s : Session ι) : Prop where
  isOpen : s.isOpen inbox = true
  prospect : s.sequencer.prospects.get? addr = some inbox
  start : n ≤ s.sequencer.broadcast
  received : s.received inbox = ((numbered s.proposed).take s.sequencer.broadcast).drop n

section Following
variable [DecidableEq ι] {t : Session ι} {addr : Addr} {inbox : ι} {n : Position}

theorem Follows.of_eq (hs : s.Follows addr inbox n) (hopen : t.isOpen inbox = true)
    (hprospect : t.sequencer.prospects.get? addr = some inbox)
    (hbroadcast : t.sequencer.broadcast = s.sequencer.broadcast)
    (hproposed : (numbered t.proposed).take s.sequencer.broadcast = (numbered s.proposed).take s.sequencer.broadcast)
    (hsent : t.sent = s.sent) : t.Follows addr inbox n where
  isOpen := hopen
  prospect := hprospect
  start := hbroadcast ▸ hs.start
  received := by
    have hreceived : t.received inbox = s.received inbox := by rw [Session.received, hsent, Session.received]
    rw [hreceived, hbroadcast, hproposed, hs.received]

/-- A batch reaches a subscriber whose inbox is open, once. -/
theorem filter_send {q : Sequencer ι} {isOpen : ι → Bool} {batch : List Decision} (hopen : isOpen inbox = true)
    (hget : q.subscribers.get? addr = some inbox)
    (honly : ∀ e ∈ q.subscribers.entries, e.2 = inbox → e.1 = addr) :
    (q.send isOpen batch).2.filter (fun delivery => delivery.1 = inbox) = [(inbox, batch)] := by
  have hvalues : (q.subscribers.filter fun _ inbox => isOpen inbox).values.filter (· = inbox) = [inbox] :=
    OrderedMap.filter_values_eq_singleton (by simp [OrderedMap.get?_filter, hget, hopen])
      fun e he => honly e (List.mem_filter.mp he).1
  calc (q.send isOpen batch).2.filter (fun delivery => delivery.1 = inbox)
      = ((q.subscribers.filter fun _ inbox => isOpen inbox).values.filter (· = inbox)).map (·, batch) :=
        List.filter_map ..
    _ = [(inbox, batch)] := by rw [hvalues]; rfl

theorem Follows.advance {q : Sequencer ι} {sent : List (Delivery ι)} (hs : s.Follows addr inbox n)
    (hn : s.Numbers) (honly : ∀ e ∈ s.sequencer.subscribers.entries, e.2 = inbox → e.1 = addr)
    (h : Goes s.isOpen s.sequencer q sent) : (s.advance q sent).Follows addr inbox n := by
  have hprospect : q.prospects.get? addr = some inbox := by
    obtain hq | hq := h.prospects
    · rw [hq, hs.prospect]
    · simp [hq, OrderedMap.get?_filter, hs.prospect, hs.isOpen]
  cases h with
  | join hq => exact hs.of_eq hs.isOpen hprospect rfl rfl (by simp [Session.advance])
  | turn hb =>
    exact hs.of_eq hs.isOpen hprospect (by simp [broadcast, Session.advance, hb]) rfl (by simp [Session.advance])
  | @take command rest hc =>
    refine hs.of_eq hs.isOpen hprospect ?_ rfl (by simp [Session.advance])
    cases command with
    | prune => rfl
    | propose v => simp [broadcast, Session.advance, collect, batch, Nat.add_sub_add_right]
  | send hq =>
    have hget : s.sequencer.subscribers.get? addr = some inbox := by simpa [prospects, hq] using hs.prospect
    have hreceived : (s.advance (s.sequencer.send s.isOpen s.sequencer.batch).1
        (s.sequencer.send s.isOpen s.sequencer.batch).2).received inbox = s.received inbox ++ s.sequencer.batch := by
      simp [Session.received, Session.advance, filter_send hs.isOpen hget honly]
    refine ⟨hs.isOpen, hprospect, ?_, ?_⟩
    · exact hs.start.trans (Nat.sub_le ..)
    · have hstart : n ≤ ((numbered s.proposed).take s.sequencer.broadcast).length := by
        rw [List.length_take, length_numbered]
        exact Nat.le_min.mpr ⟨hs.start, hs.start.trans ((Nat.sub_le ..).trans hn.position_le)⟩
      rw [hreceived, hs.received, ← List.drop_append_of_le_length hstart, hn.take_broadcast_append]
      rfl

/-- One act, whatever it is, leaves a subscriber that is not replaced with what was sent. -/
theorem Follows.act {a : Act ι} (hs : s.Follows addr inbox n) (hn : s.Numbers)
    (honly : ∀ e ∈ s.sequencer.subscribers.entries, e.2 = inbox → e.1 = addr)
    (hclose : a ≠ .close inbox) (hlast : ∀ i, a ≠ .subscribe addr i) : (s.act a).Follows addr inbox n := by
  cases a with
  | subscribe other i =>
    have hother : addr ≠ other := by
      rintro rfl
      exact hlast i rfl
    refine hs.of_eq hs.isOpen ?_ (by simp [Session.act, broadcast]) rfl rfl
    cases hclosed : s.sequencer.subscriptionsClosed with
    | true => simpa [Session.act, Sequencer.subscribe, hclosed] using hs.prospect
    | false =>
      simp only [Session.act, prospects_subscribe hclosed, OrderedMap.get?_insert]
      rw [if_neg hother, hs.prospect]
  | enqueue command =>
    refine hs.of_eq hs.isOpen ?_ (by simp [Session.act, broadcast]) ?_ rfl
    · simpa [Session.act, prospects] using hs.prospect
    · simp only [Session.act]
      split
      · rfl
      · rw [take_numbered, take_numbered, List.take_append_of_le_length]
        exact (Nat.sub_le ..).trans hn.position_le
  | close other =>
    refine hs.of_eq ?_ hs.prospect rfl rfl rfl
    have hother : inbox ≠ other := by
      rintro rfl
      exact hclose rfl
    simpa [Session.act, Session.isOpen, hother] using hs.isOpen
  | endSubscriptions | endCommands => exact hs.of_eq hs.isOpen hs.prospect rfl rfl rfl
  | step => exact act_step hs fun _ _ => hs.advance hn honly
  | overtake => exact act_overtake hs fun _ _ => hs.advance hn honly

/-- An address subscribes with an inbox of its own, which stays open, and it is not replaced. -/
structure Subscribes (earlier : List (Act ι)) (addr : Addr) (inbox : ι) (later : List (Act ι)) : Prop where
  queued : (after earlier).sequencer.subscriptionsClosed = false
  isOpen : .close inbox ∉ earlier ++ later
  own : ∀ a, .subscribe a inbox ∉ earlier ++ later
  last : ∀ i, .subscribe addr i ∉ later

variable {earlier later : List (Act ι)}

theorem Subscribes.only (h : Subscribes earlier addr inbox later)
    (hs : s.Knows (earlier ++ .subscribe addr inbox :: later)) :
    ∀ e ∈ s.sequencer.subscribers.entries, e.2 = inbox → e.1 = addr := by
  rintro ⟨a, i⟩ he rfl
  have hmem := hs.subscribers _ he
  have hnot := h.own a
  grind

theorem Subscribes.dropLast {a : Act ι} (h : Subscribes earlier addr inbox (later ++ [a])) :
    Subscribes earlier addr inbox later where
  queued := h.queued
  isOpen hm := h.isOpen (by grind)
  own b hm := h.own b (by grind)
  last i hm := h.last i (by simp [hm])

/-- Nothing is sent while a subscription is queued, so it receives what was not sent when it was queued. -/
theorem Subscribes.follows (h : Subscribes earlier addr inbox later) :
    (after (earlier ++ .subscribe addr inbox :: later)).Follows addr inbox (after earlier).sequencer.broadcast := by
  induction later using List.reverseRecOn with
  | nil =>
    have hknows := knows_after earlier
    have hnone : (after earlier).received inbox = [] := by
      have hfilter : (after earlier).sent.filter (fun delivery => delivery.1 = inbox) = [] := by
        refine List.filter_eq_nil_iff.mpr fun d hd hi => ?_
        obtain ⟨a, ha⟩ := hknows.sent d hd
        exact h.own a (by simpa [of_decide_eq_true hi] using ha)
      rw [received, hfilter, List.flatMap_nil]
    rw [after_concat]
    refine ⟨?_, ?_, ?_, ?_⟩
    · exact decide_eq_true fun hi => h.isOpen (by simpa using hknows.closed inbox hi)
    · simp [act, prospects_subscribe h.queued, OrderedMap.get?_insert]
    · simp [act, broadcast]
    · have hbroadcast : ((after earlier).act (.subscribe addr inbox)).sequencer.broadcast =
          (after earlier).sequencer.broadcast := by simp [act, broadcast]
      rw [hbroadcast, List.drop_eq_nil_of_le (List.length_take_le ..)]
      exact hnone
  | append_singleton later a ih =>
    rw [← List.cons_append, ← List.append_assoc, after_concat]
    refine (ih h.dropLast).act (numbers_after _) (h.dropLast.only (knows_after _)) ?_ ?_
    · rintro rfl
      exact h.isOpen (by simp)
    · rintro i rfl
      exact h.last i (by simp)

theorem Subscribes.settle (h : Subscribes earlier addr inbox later) :
    (after (earlier ++ .subscribe addr inbox :: later)).settle.Follows addr inbox
      (after earlier).sequencer.broadcast := by
  let P (u : Session ι) : Prop := u.Numbers ∧ u.Knows (earlier ++ .subscribe addr inbox :: later) ∧
    u.Follows addr inbox (after earlier).sequencer.broadcast
  have hP : P (after (earlier ++ .subscribe addr inbox :: later)).settle :=
    settle_induction ⟨numbers_after _, knows_after _, h.follows⟩ fun u t sent ⟨hn, hk, hf⟩ hg =>
      ⟨hn.advance hg, hk.advance hg, hf.advance hn (h.only hk) hg⟩
  exact hP.2.2

/-- A sequencer that has worked off its queues has sent every proposal. -/
theorem Numbers.broadcast_settle (hs : s.Numbers) : s.settle.sequencer.broadcast = s.proposed.length := by
  obtain ⟨hcommands, hbatch⟩ := idle_of_step_eq_none (step_run_eq_none s.sequencer s.isOpen)
  have hsettled := hs.settle
  have hproposed : s.proposed = s.settle.taken := by
    simpa [Session.settle, Session.advance, queued, hcommands] using hsettled.proposed
  have hbroadcast : s.settle.sequencer.broadcast = s.settle.sequencer.position := by
    simp [broadcast, Session.settle, Session.advance, hbatch]
  rw [hbroadcast, ← hsettled.position, ← hproposed]

theorem proposed_prefix (earlier later : List (Act ι)) :
    (after earlier).proposed <+: (after (earlier ++ later)).proposed := by
  induction later using List.reverseRecOn with
  | nil => simp
  | append_singleton later a ih =>
    rw [← List.append_assoc, after_concat]
    refine ih.trans ?_
    cases a with
    | enqueue command =>
      simp only [act]
      split
      · exact List.prefix_rfl
      · exact List.prefix_append ..
    | step => exact act_step (P := fun u => _ <+: u.proposed) List.prefix_rfl fun _ _ _ => List.prefix_rfl
    | overtake => exact act_overtake (P := fun u => _ <+: u.proposed) List.prefix_rfl fun _ _ _ => List.prefix_rfl
    | _ => exact List.prefix_rfl

end Following

/-! ### One order for every subscriber -/

/-- Whatever is queued between its steps, the sequencer takes the proposals in the order in which they were
    queued and gives them the positions from 1 on, so that all subscribers are told the same about a
    position. A subscriber receives, without gap or repetition, what was not sent yet when it subscribed; it
    has received everything that was proposed since then once the queues are worked off. -/
theorem sequencer_gives_one_order [DecidableEq ι] :
    (∀ acts : List (Act ι),
      let s := after acts
      (s.proposed = s.taken ++ s.sequencer.queued ∧ s.taken.length = s.sequencer.position ∧
        s.sequencer.batch <:+ numbered s.taken ∧ ∀ d ∈ s.sent, d.2 <:+: numbered s.taken) ∧
      ∀ d ∈ s.sent, ∀ e ∈ s.sent, ∀ x ∈ d.2, ∀ y ∈ e.2, x.position = y.position → x.value = y.value) ∧
    ∀ (earlier later : List (Act ι)) (addr : Addr) (inbox : ι), Subscribes earlier addr inbox later →
      let n := (after earlier).sequencer.broadcast
      let s := after (earlier ++ .subscribe addr inbox :: later)
      n ≤ (after earlier).proposed.length ∧ (after earlier).proposed <+: s.proposed ∧
      s.received inbox = ((numbered s.proposed).take s.sequencer.broadcast).drop n ∧
      s.settle.received inbox = (numbered s.proposed).drop n := by
  refine ⟨fun acts => ⟨?_, fun d hd e he x hx y hy hxy => ?_⟩, fun earlier later addr inbox h => ?_⟩
  · have hn := numbers_after acts
    exact ⟨hn.proposed, hn.position, hn.batch, hn.sent⟩
  · have hn := numbers_after acts
    have hx := (mem_numbered_iff.mp ((hn.sent d hd).subset hx)).2
    have hy := (mem_numbered_iff.mp ((hn.sent e he).subset hy)).2
    exact Option.some.inj (hx.symm.trans (hxy ▸ hy))
  · have hn := numbers_after (earlier ++ .subscribe addr inbox :: later)
    refine ⟨(Nat.sub_le ..).trans (numbers_after earlier).position_le, proposed_prefix .., h.follows.received, ?_⟩
    rw [h.settle.received, hn.broadcast_settle]
    exact congrArg _ (List.take_of_length_le (length_numbered _).le)

/-- One decision is sent before anyone subscribes, and the next one is being collected. -/
def collectingActs : List (Act Nat) :=
  [.enqueue (.propose (.noop ⟨1⟩)), .step, .step, .step, .enqueue (.propose (.noop ⟨2⟩)), .step]

/-- A subscription overtaken by the proposal that was queued after it, and taken before the batch is sent. -/
def admittingActs : List (Act Nat) :=
  [.enqueue (.propose (.noop ⟨3⟩)), .enqueue (.prune (.name "b") 1), .step, .step, .step, .step, .step]

theorem subscription_amid_collecting :
    Subscribes collectingActs (.name "a") 0 admittingActs ∧
      (after (collectingActs ++ .subscribe (.name "a") 0 :: admittingActs)).received 0 =
        [⟨2, .noop ⟨2⟩⟩, ⟨3, .noop ⟨3⟩⟩] := by
  have hsubscribes : Subscribes collectingActs (.name "a") 0 admittingActs :=
    ⟨rfl, by simp [collectingActs, admittingActs], by simp [collectingActs, admittingActs], by simp [admittingActs]⟩
  obtain ⟨-, -, hreceived, -⟩ := sequencer_gives_one_order.2 collectingActs admittingActs (.name "a") 0 hsubscribes
  exact ⟨hsubscribes, hreceived⟩

end Session
end Sequencer
end ReplicaGroup
