import Mathlib.Data.List.Basic
import ReplicaGroup.Proofs.Agreement
import ReplicaGroup.Proofs.Site.Outbox
import ReplicaGroup.Proofs.Transfer.Carrying

/-! # A serving site that ships a cargo

From the view change on that starts a transfer, its sender goes on writing, but only above the version that
the capture reads at. So whenever the capture is executed it finds the newest values of the view change, and
what is sent to the recipient is the announcement and then the chunks of these values, in order. -/

namespace ReplicaGroup

/-! ### What the capture finds -/

/-- Below the ceiling of a cargo a store has the values of a table. -/
def Store.Presents (c : Cargo) (base : Table) (s : Store) : Prop := ∀ k, s.visible? k c.version.pred = base.get? k

/-- A capture of the cargo that waits in a queue finds a table, and so does one that comes later. -/
def Store.Preserves (c : Cargo) (base : Table) : Store → List (Request × Option Requester) → Prop
  | s, [] => s.Presents c base
  | s, q :: rest =>
    (q.2 = some (.transfer c.id) → c.IsCapture q.1 ∧ s.Presents c base) ∧
      Preserves c base (q.1.execute s).store rest

namespace Store
variable {c : Cargo} {base : Table} {s : Store} {queue : List (Request × Option Requester)}

theorem Preserves.append {later : List (Request × Option Requester)} (h : s.Preserves c base queue)
    (hl : ∀ s : Store, s.Presents c base → s.Preserves c base later) : s.Preserves c base (queue ++ later) := by
  induction queue generalizing s with
  | nil => exact hl s h
  | cons q queue ih => exact ⟨h.1, ih h.2⟩

/-- A queue without capture, at whose end the table is found. -/
theorem preserves_of_presents (hq : ∀ q ∈ queue, q.2 ≠ some (.transfer c.id))
    (h : (s.afterAll (queue.map (·.1))).Presents c base) : s.Preserves c base queue := by
  induction queue generalizing s with
  | nil => exact h
  | cons q queue ih =>
    exact ⟨fun hid => absurd hid (hq q (.head _)), ih (fun q' hq' => hq q' (.tail _ hq')) h⟩

/-- Reads do not change what is found; those for the cargo are captures. -/
theorem preserves_reads {rs : List Request} {id : TransferId} (hr : ∀ r ∈ rs, r.IsRead)
    (hc : id = c.id → ∀ r ∈ rs, c.IsCapture r) (h : s.Presents c base) :
    s.Preserves c base (rs.map fun r => (r, some (.transfer id))) := by
  induction rs generalizing s with
  | nil => exact h
  | cons r rs ih =>
    obtain ⟨scanId, range, ceiling, hread⟩ := hr r (.head _)
    have hs : (r.execute s).store = s := hread ▸ Request.execute_read scanId range ceiling s
    refine ⟨fun hid => ⟨hc (by simpa using hid) r (.head _), h⟩, ?_⟩
    rw [hs]
    exact ih (fun r' hr' => hr r' (.tail _ hr')) (fun hid r' hr' => hc hid r' (.tail _ hr')) h

/-- What a value writes above the ceiling does not change what is found. -/
theorem preserves_requests {v : Value} {range : KeyRange} {version : Version} (hv : v.IsWithin range)
    (hversion : c.version.pred < version) (h : s.Presents c base) :
    s.Preserves c base ((v.requests version).map fun r => (r, r.requester?)) := by
  have hafter : (s.afterAll (v.requests version)).Presents c base := fun k =>
    (hv.visible?_requests hversion s k).trans (h k)
  refine preserves_of_presents (fun q hq => ?_) ?_
  · obtain ⟨r, -, rfl⟩ := List.mem_map.mp hq
    unfold Request.requester?
    split <;> simp
  · rw [List.map_map]
    exact (List.map_id (v.requests version)).symm ▸ hafter

end Store

namespace Cargo

/-- The chunks of a cargo. -/
def chunks (c : Cargo) (config : Config) : List Message :=
  Sender.chunks ⟨c.outbound, c.source, config.chunkEntries, .capturing⟩ 0 c.entries

/-- All that the sender of a cargo sends. -/
def messages (c : Cargo) (config : Config) : List Message := .initiate c.announced :: c.chunks config

/-- Whether everything that is to be sent can be written. -/
def Fits (c : Cargo) : Prop := (Message.initiate c.announced).Fits ∧ c.entries.Fit

theorem fits_of_mem_messages {c : Cargo} (h : c.Fits) {config : Config} {m : Message} (hm : m ∈ c.messages config) :
    m.Fits ∧ m.id = c.id := by
  rcases List.mem_cons.mp hm with rfl | hm
  · exact ⟨h.1, rfl⟩
  · exact ⟨Sender.fits_of_mem_chunks h.2 hm, Sender.id_of_mem_chunks hm⟩

end Cargo

/-! ### The transfers of the site -/

namespace Transfer
variable {c : Cargo} {todo : List Message} {t : Transfer}

/-- A transfer that carries a cargo, or has nothing to do with it. -/
def Minds (c : Cargo) (todo : List Message) (t : Transfer) : Prop := t.IsForeign c.id ∨ t.Carries c todo

/-- Messages, a stop and the loss of its owner do not change what a transfer carries. -/
theorem Minds.of_eq {u : Transfer} (h : t.Minds c todo) (hid : u.id = t.id) (haddr : u.addr = t.addr)
    (hconfig : u.config = t.config) (hstage : u.stage = t.stage) (hreply : u.reply? = t.reply?) : u.Minds c todo := by
  rcases h with h | h
  · exact .inl ⟨hid ▸ h.other, hstage ▸ h.sends⟩
  · refine .inr ⟨hid.trans h.id, ?_, hreply ▸ h.reply⟩
    rw [hstage, haddr, hconfig]
    exact h.stage

theorem Minds.foreign (h : t.Minds c todo) (hid : t.id ≠ c.id) : t.IsForeign c.id :=
  h.resolve_right fun h => hid h.id

theorem Minds.carries (h : t.Minds c todo) (hid : t.id = c.id) : t.Carries c todo :=
  h.resolve_left fun h => h.other hid

/-- A transfer that is started under another identifier. -/
theorem isForeign_sending {addr : Addr} {config : Config} {outbound : Outbound} {scanId : OpId} {id : TransferId}
    (h : outbound.id ≠ id) : (sending addr config outbound scanId).IsForeign id :=
  ⟨h, fun outbound' ho => by cases ho; exact h⟩

end Transfer

/-- An effect that starts no transfer of a cargo, and none that receives. -/
def Effect.Spares (id : TransferId) (x : Effect) : Prop :=
  x.isReceive = false ∧ ∀ outbound, x.outbound? = some outbound → outbound.id ≠ id

theorem Effect.Spares.keeps {c : Cargo} {todo : List Message} {x : Effect} (h : x.Spares c.id) (addr : Addr)
    (config : Config) : x.Keeps (Transfer.Minds c todo) addr config := by
  cases x with
  | startSend outbound scanId => exact .inl (Transfer.isForeign_sending (h.2 outbound rfl))
  | startReceive => cases h.1
  | deliver | stopTransfer | releaseTransfer => exact fun t _ ht => ht.of_eq rfl rfl rfl rfl rfl
  | propose | prune | upcall | request => trivial

theorem Effect.spares_of_idle {x : Effect} (h : x.isWork = false) (id : TransferId) : x.Spares id := by
  cases x with
  | startSend | startReceive | request => cases h
  | propose | prune | upcall | deliver | stopTransfer | releaseTransfer => exact ⟨rfl, fun outbound ho => (by cases ho)⟩

namespace Site
variable {c : Cargo} {base : Table} {todo : List Message} {s t : Site} {step : Step} {o : Outside}

/-- A serving site that still has to send `todo` of a cargo. -/
structure Ships (c : Cargo) (base : Table) (todo : List Message) (s : Site) : Prop where
  serves : s.Serves
  /-- What is written from now on is not captured. -/
  newer : c.version.pred < s.node.engine.version
  preserves : s.node.store.Preserves c base s.node.background.queue
  transfers : ∀ t ∈ s.node.background.transfers, t.Minds c todo
  /-- The identifier is not drawn again. -/
  drawn : ∀ n, s.node.engine.drawn ≤ n → s.node.draw n ≠ c.id.number
  /-- No transfer with this identifier receives. -/
  incoming : s.node.engine.incoming? ≠ some c.id
  todo : ∀ m ∈ todo, m.Fits ∧ m.id = c.id

/-- The transfer of the cargo has no grant to take. -/
def Ungranted (c : Cargo) (s : Site) : Prop := ∀ t ∈ s.node.background.transfers, t.id = c.id → t.mailbox = []

/-- The messages of the cargo that its recipient has not taken yet. -/
def sent (c : Cargo) (s : Site) : List Message := (s.outbox c.recipient).filter fun m => m.id = c.id

theorem sent_of_outbox (h : t.outbox c.recipient = s.outbox c.recipient) : t.sent c = s.sent c := by
  rw [sent, h, sent]

/-- A move that sends the front of what is to be sent, without a grant at most the announcement. -/
structure Shipped (c : Cargo) (base : Table) (o : Outside) (s t : Site) (todo front left : List Message) : Prop where
  split : todo = front ++ left
  sent : t.sent c = s.sent c ++ front
  ships : t.Ships c base left
  ungranted : s.Ungranted c → (∀ m, o.tells (.message m) → m.id ≠ c.id) →
    t.Ungranted c ∧ (front = [] ∨ front = [.initiate c.announced])

/-- A move that sends nothing of the cargo. -/
theorem Ships.shipped (ht : t.Ships c base todo) (hout : t.outbox c.recipient = s.outbox c.recipient)
    (hu : s.Ungranted c → (∀ m, o.tells (.message m) → m.id ≠ c.id) → t.Ungranted c) :
    ∃ front left, Shipped c base o s t todo front left :=
  ⟨[], todo, rfl, by rw [sent_of_outbox hout, List.append_nil], ht, fun h ho => ⟨hu h ho, .inl rfl⟩⟩

theorem Ships.halt (hs : s.Ships c base todo) : s.halt.Ships c base todo where
  serves := hs.serves.halt
  newer := hs.newer
  preserves := by simpa using hs.preserves
  transfers := Background.forall_releaseAll hs.transfers fun _ ht => ht.of_eq rfl rfl rfl rfl rfl
  drawn := hs.drawn
  incoming := hs.incoming
  todo := hs.todo

theorem Ungranted.halt (hs : s.Ungranted c) : s.halt.Ungranted c :=
  Background.forall_releaseAll (P := fun t => t.id = c.id → t.mailbox = []) hs fun _ ht => ht

/-- What a shipping site needs of a step of its engine. -/
theorem Ships.take (hs : s.Ships c base todo) (hserves : (s.take step).Serves)
    (hversion : s.node.engine.version ≤ step.engine.version) (hdrawn : s.node.engine.drawn ≤ step.engine.drawn)
    (hincoming : step.engine.incoming? = s.node.engine.incoming? ∨ step.engine.incoming? = none)
    (hspares : ∀ x ∈ step.effects, x.Spares c.id)
    (hrequests : ∀ store : Store, store.Presents c base →
      store.Preserves c base ((step.effects.filterMap Effect.request?).map fun r => (r, r.requester?))) :
    (s.take step).Ships c base todo where
  serves := hserves
  newer := by
    rw [take_engine]
    exact UInt32.lt_of_lt_of_le hs.newer hversion
  preserves := by
    rw [take_store, take_queue]
    exact hs.preserves.append hrequests
  transfers := forall_take hs.transfers (fun _ ht => ht.of_eq rfl rfl rfl rfl rfl) fun x hx => (hspares x hx).keeps _ _
  drawn := by
    rw [take_engine, take_draw]
    exact fun n hn => hs.drawn n (Nat.le_trans hdrawn hn)
  incoming := by
    rw [take_engine]
    rcases hincoming with h | h
    · rw [h]
      exact hs.incoming
    · rw [h]
      nofun
  todo := hs.todo

theorem Ships.take_idle (hs : s.Ships c base todo) (h : s.node.engine.Idle step) : (s.take step).Ships c base todo := by
  refine hs.take (hs.serves.take_idle h).1 (h.1.version ▸ UInt32.le_refl _) h.1.drawn h.1.incoming
    (fun x hx => Effect.spares_of_idle (h.2 x hx) c.id) fun store hstore => ?_
  rw [filterMap_request?_of_idle h]
  exact hstore

/-- Without a message of the cargo there is no grant. -/
theorem Ungranted.take (hs : s.Ungranted c) (hspares : ∀ x ∈ step.effects, x.Spares c.id)
    (hd : ∀ id m, .deliver id m ∈ step.effects → id ≠ c.id) : (s.take step).Ungranted c := by
  refine forall_take (P := fun t => t.id = c.id → t.mailbox = []) hs (fun _ ht => ht) fun x hx => ?_
  cases x with
  | startSend outbound scanId => exact fun _ => rfl
  | startReceive => cases (hspares _ hx).1
  | deliver id m => exact fun t hid _ htid => absurd (hid.symm.trans htid) (hd id m hx)
  | stopTransfer | releaseTransfer => exact fun t _ ht => ht
  | propose | prune | upcall | request => trivial

/-- A shipping site that is told something other than decisions. -/
theorem Ships.handle (hs : s.Ships c base todo) {e : Event} (he : ∀ ds, e ≠ .decide ds) :
    (s.handle e).Ships c base todo ∧
      (s.Ungranted c → (∀ m, e = .message m → m.id ≠ c.id) → (s.handle e).Ungranted c) := by
  have hidle := Engine.idle_handle (h := s.node.host) (e := s.node.engine) he
  have hships := hs.take_idle hidle
  have hungranted : s.Ungranted c → (∀ m, e = .message m → m.id ≠ c.id) →
      (s.take (s.node.engine.handle s.node.host e)).Ungranted c := fun hu hm =>
    hu.take (fun x hx => Effect.spares_of_idle (hidle.2 x hx) c.id) fun id m hx => by
      obtain ⟨rfl, hid | hin⟩ := (Engine.obeys_handle he).2 _ hx
      · exact hid ▸ hm m rfl
      · rintro rfl
        exact hs.incoming hin
  by_cases hstop : e = .stop
  · subst hstop
    exact ⟨hships.halt, fun hu hm => (hungranted hu hm).halt⟩
  · rw [handle_eq_take hstop]
    exact ⟨hships, hungranted⟩

/-- A shipping site that applies a value within the range. -/
theorem Ships.apply (hs : s.Ships c base todo) {e : Position × Value} (hv : e.2.IsWithin c.range)
    (rest : List (Position × Value)) :
    (s.apply e rest).Ships c base todo ∧ (s.Ungranted c → (s.apply e rest).Ungranted c) := by
  have hw := Engine.served_apply (h := s.node.host) (p := e.1) hs.serves.serving hs.serves.settled hs.serves.storeOpen e.2
  have hspares : ∀ x ∈ (s.node.engine.apply s.node.host e.1 e.2).effects, x.Spares c.id := fun x hx =>
    ⟨hw.receive x hx, fun outbound ho => by
      obtain ⟨n, hn, hid⟩ := hw.sends x hx outbound ho
      rw [hid]
      exact fun h => hs.drawn n hn (congrArg TransferId.number h)⟩
  have hs' : Ships c base todo { s with
      released := rest
      applied := s.applied ++ [⟨e.1, e.2, s.node.engine, (s.node.engine.apply s.node.host e.1 e.2).effects⟩] } :=
    ⟨hs.serves.of_eq rfl rfl rfl hs.serves.reads, hs.newer, hs.preserves, hs.transfers, hs.drawn, hs.incoming, hs.todo⟩
  refine ⟨hs'.take (hs.serves.apply hv.isFaithful rest).1 hw.version hw.drawn (.inl hw.incoming) hspares
    fun store hstore => ?_, fun hu => ?_⟩
  · rw [hw.requests]
    exact Store.preserves_requests hv hs.newer hstore
  · refine Ungranted.take (s := { s with released := rest, applied := _ }) hu hspares fun id m hx => ?_
    cases hw.deliver _ hx

/-- Storage executes a request; when it is the capture, its response brings the cargo. -/
theorem Ships.execute (hc : c.entries = (base.restrict c.range).entries) (hs : s.Ships c base todo)
    (hserves : Serves { s with node := (s.node.serve 1).1 }) (hq : s.node.background.queue ≠ []) :
    Ships c base todo { s with node := (s.node.serve 1).1 } ∧
      (s.Ungranted c → Ungranted c { s with node := (s.node.serve 1).1 }) := by
  obtain ⟨⟨r, requester?⟩, rest, hq⟩ := List.exists_cons_of_ne_nil hq
  rw [Node.serve_one hq] at hserves ⊢
  have hp := hs.preserves
  rw [hq] at hp
  refine ⟨⟨hserves, hs.newer, ?_, ?_, hs.drawn, hs.incoming, hs.todo⟩, fun hu => ?_⟩
  · simpa using hp.2
  · refine Background.forall_resolve (P := Transfer.Minds c todo) _ _ hs.transfers fun t ht hmind => ?_
    by_cases hid : t.id = c.id
    · obtain ⟨⟨scanId, rfl⟩, hpresents⟩ := hp.1 (by rw [ht, hid])
      obtain ⟨captured, hresponse, hentries⟩ := @Request.execute_read_response c.range _ _ _ hpresents scanId
      refine .inr ⟨hid, (hmind.carries hid).stage, fun signal hsignal => ?_⟩
      cases hsignal
      exact ⟨captured, congrArg Signal.response hresponse, hentries.trans hc.symm⟩
    · exact .inl ⟨hid, (hmind.foreign hid).sends⟩
  · exact Background.forall_resolve (P := fun t => t.id = c.id → t.mailbox = []) _ _ hu fun t _ ht => ht

theorem sent_of_arrivals {n : Node} (reports : List (Addr × Message))
    (hn : n.peers = s.node.peers.postAll reports) (h : ∀ x ∈ reports, x.2.id ≠ c.id) :
    sent c { s with node := n } = s.sent c := by
  have hnone : (reports.filterMap (s.node.peers.arrival? c.recipient)).filter (fun m => m.id = c.id) = [] := by
    rw [List.filter_eq_nil_iff]
    intro m hm
    obtain ⟨x, hx, harrival⟩ := List.mem_filterMap.mp hm
    rw [(Network.id_of_arrival? harrival).2]
    simpa using h x hx
  unfold Site.sent Site.outbox
  rw [hn, Network.waiting_postAll, List.filter_append, hnone, List.append_nil]

/-- A step of a transfer: another one than the cargo's sends nothing under its identifier. -/
theorem Ships.transfer (hs : s.Ships c base todo) {id : TransferId} {n : Node}
    (hn : s.node.stepTransfer id = some n) (hserves : Serves { s with node := n }) :
    ∃ front left, Shipped c base o s { s with node := n } todo front left := by
  obtain ⟨u, u', reports, hu, hstep, rfl⟩ := Node.stepTransfer_eq_some hn
  obtain ⟨hmem, huid⟩ := Transfer.of_find? hu
  have hgoes := Transfer.goes_of_step hstep
  have hreads := Transfer.step_reads (hs.serves.reads u hmem) hstep
  by_cases hid : u.id = c.id
  · obtain ⟨front, left, hcarried⟩ := ((hs.transfers u hmem).carries hid).goes hgoes
    have hcid : id = c.id := huid.symm.trans hid
    have harrive : (reports.filterMap Transfer.Report.message?).filterMap (s.node.peers.arrival? c.recipient) = front := by
      rw [hcarried.messages, List.filterMap_map]
      refine (List.filterMap_congr fun m hm => ?_).trans List.filterMap_some
      exact Node.arrival?_of_carries (hcarried.carried m hm) (hs.todo m (hcarried.split ▸ List.mem_append_left _ hm)).1
    refine ⟨front, left, hcarried.split, ?_, ?_, fun hungranted _ => ?_⟩
    · have hall : front.filter (fun m => m.id = c.id) = front := List.filter_eq_self.mpr fun m hm => by
        simpa using (hs.todo m (hcarried.split ▸ List.mem_append_left _ hm)).2
      unfold Site.sent Site.outbox
      rw [Network.waiting_postAll, harrive, List.filter_append, hall]
    · refine ⟨hserves, hs.newer, ?_, ?_, hs.drawn, hs.incoming, fun m hm =>
        hs.todo m (hcarried.split ▸ List.mem_append_right _ hm)⟩
      · exact hs.preserves.append fun store hstore =>
          Store.preserves_reads hreads.2 (fun _ => hcarried.requests) hstore
      · exact forall_replaced (fun t ht hne => .inl ((hs.transfers t ht).foreign (hcid ▸ hne))) (.inr hcarried.carries)
    · obtain ⟨hmailbox, hfront⟩ := hcarried.ungranted (hungranted u hmem hid)
      exact ⟨forall_replaced (fun t ht _ => hungranted t ht) fun _ => hmailbox, hfront⟩
  · obtain ⟨hforeign, hmessages⟩ := ((hs.transfers u hmem).foreign hid).goes (hs.serves.reads u hmem) hgoes
    have hcid : id ≠ c.id := huid ▸ hid
    refine ⟨[], todo, rfl, ?_, ?_, fun hungranted _ => ⟨?_, .inl rfl⟩⟩
    · rw [List.append_nil]
      exact sent_of_arrivals _ rfl hmessages
    · refine ⟨hserves, hs.newer, ?_, ?_, hs.drawn, hs.incoming, hs.todo⟩
      · exact hs.preserves.append fun store hstore =>
          Store.preserves_reads hreads.2 (fun h => absurd h hcid) hstore
      · exact forall_replaced (fun t ht _ => hs.transfers t ht) (.inl hforeign)
    · exact forall_replaced (fun t ht _ => hungranted t ht) fun h => absurd h hforeign.other

/-- A site that ships a cargo goes on shipping what is left of it. -/
theorem Ships.moves (hc : c.entries = (base.restrict c.range).entries) (hs : s.Ships c base todo) (hm : Moves o s t)
    (hv : ∀ e ∈ s.released, e.2.IsWithin c.range) : ∃ front left, Shipped c base o s t todo front left := by
  have hserves : t.Serves := (hs.serves.moves hm fun e he => (hv e he).isFaithful).1
  -- Most moves leave alone everything that a shipment is about.
  have hkeep : ∀ u : Site, u.Serves → u.node.engine = s.node.engine → u.node.draw = s.node.draw →
      u.node.store = s.node.store → u.node.background.queue = s.node.background.queue →
      u.node.background.transfers = s.node.background.transfers → u.Ships c base todo ∧ (s.Ungranted c → u.Ungranted c) :=
    fun u hu he hd hst hq ht =>
      ⟨⟨hu, he ▸ hs.newer, hst ▸ hq ▸ hs.preserves, ht ▸ hs.transfers, he ▸ hd ▸ hs.drawn, he ▸ hs.incoming, hs.todo⟩,
        fun hg => by unfold Ungranted; rw [ht]; exact hg⟩
  cases hm with
  | @hear e s' hi he =>
    have hs' : s'.Ships c base todo ∧ (s.Ungranted c → s'.Ungranted c) := by
      obtain ⟨notices, rfl⟩ := he.eq
      exact hkeep _ (hs.serves.of_eq rfl rfl rfl hs.serves.reads) rfl rfl rfl rfl rfl
    obtain ⟨hships, hungranted⟩ := hs'.1.handle (not_decide_of_heard he)
    refine hships.shipped ?_ fun hg ho => hungranted (hs'.2 hg) ?_
    · obtain ⟨notices, rfl⟩ := he.eq
      exact outbox_handle e _
    · rintro m rfl
      cases he with
      | hear _ htells => exact ho m htells
  | deliver hi hd =>
    obtain ⟨hships, hungranted⟩ := hkeep _ hserves rfl rfl rfl rfl rfl
    exact hships.shipped rfl fun hg _ => hungranted hg
  | @apply e rest hrun hr =>
    obtain ⟨hships, hungranted⟩ := hs.apply (hv e (hr ▸ .head _)) rest
    exact hships.shipped (outbox_take ..) fun hg _ => hungranted hg
  | @insert d rest hrun hr hb =>
    refine Ships.shipped ⟨hserves, hs.newer, hs.preserves, hs.transfers, hs.drawn, hs.incoming, hs.todo⟩ rfl
      fun hg _ => hg
  | finish hrun hr hb =>
    have hs' := hkeep { s with batch? := none } (hs.serves.of_eq rfl rfl rfl hs.serves.reads) rfl rfl rfl rfl rfl
    have hidle := Engine.idle_prune (h := s.node.host) (e := s.node.engine)
    refine (hs'.1.take_idle hidle).shipped (outbox_take ..) fun hg _ => ?_
    refine (hs'.2 hg).take (fun x hx => Effect.spares_of_idle (hidle.2 x hx) c.id) fun id m hx => ?_
    cases Engine.isDelivery_prune _ hx
  | execute hq =>
    obtain ⟨hships, hungranted⟩ := hs.execute hc hserves hq
    refine hships.shipped ?_ fun hg _ => hungranted hg
    obtain ⟨⟨r, requester?⟩, rest, hq⟩ := List.exists_cons_of_ne_nil hq
    rw [Node.serve_one hq]
    rfl
  | transfer hn => exact hs.transfer hn hserves
  | wait ms =>
    obtain ⟨hships, hungranted⟩ := hkeep _ hserves rfl rfl rfl (by simp [Node.advance]) (by simp [Node.advance])
    exact hships.shipped rfl fun hg _ => hungranted hg
  | register ha =>
    obtain ⟨hships, hungranted⟩ := hkeep _ hserves rfl rfl rfl rfl rfl
    exact hships.shipped (outbox_register ha _) fun hg _ => hungranted hg

/-! ### Before the view change -/

/-- A serving site that goes on with a view change, from which on it ships a cargo. -/
structure Poised (c : Cargo) (base : Table) (config : Config) (r : Reconfiguration) (s : Site) : Prop where
  serves : s.Serves
  released : ∃ rest, s.released = (c.snapshot, .reconfigure r) :: rest
  view : r.view.isNewerThan s.node.engine.view = true
  version : s.node.engine.version.succ? = some c.version
  range : r.range = c.range
  source : s.node.addr = c.source
  config : s.node.config = config
  newest : s.flushed.newest = base
  foreign : ∀ t ∈ s.node.background.transfers, t.IsForeign c.id
  queue : ∀ q ∈ s.node.background.queue, q.2 ≠ some (.transfer c.id)
  incoming : s.node.engine.incoming? ≠ some c.id
  /-- The identifier is the one that is drawn for the recipient, and for nothing else. -/
  id : ∃ i, (s.node.engine.view.recipients r.view s.node.addr).toList[i]? = some c.recipient ∧
    ∀ n, s.node.engine.drawn ≤ n → (s.node.draw n = c.id.number ↔ n = s.node.engine.drawn + 2 * i)
  fits : c.Fits

theorem Poised.presents {config : Config} {r : Reconfiguration} (hs : s.Poised c base config r) :
    s.flushed.Presents c base := fun k => by
  have hpred : c.version.pred = s.node.engine.version := Version.pred_succ hs.version
  rw [hpred, Store.visible?_eq_read? hs.serves.upTo, ← Store.get?_newest, hs.newest]

/-- The view change starts the transfer of the cargo, and other transfers under other identifiers. -/
theorem Poised.apply {config : Config} {r : Reconfiguration} (hs : s.Poised c base config r)
    (rest : List (Position × Value)) :
    (s.apply (c.snapshot, .reconfigure r) rest).Ships c base (c.messages config) ∧
      (s.apply (c.snapshot, .reconfigure r) rest).Ungranted c := by
  obtain ⟨i, hi, hid⟩ := hs.id
  have hstep : s.node.engine.apply s.node.host c.snapshot (.reconfigure r) = _ :=
    Engine.reconfigure_serving (h := s.node.host) (p := c.snapshot) hs.serves.serving hs.view
  rw [hs.version] at hstep
  have hw := Engine.served_apply (h := s.node.host) (p := c.snapshot) hs.serves.serving hs.serves.settled
    hs.serves.storeOpen (.reconfigure r)
  -- Of the transfers that the move starts only one has the identifier of the cargo.
  have hsending : ∀ x ∈ (s.node.engine.apply s.node.host c.snapshot (.reconfigure r)).effects,
      ∃ outbound scanId, x = .startSend outbound scanId ∧ (outbound.id = c.id → outbound = c.outbound) := by
    intro x hx
    rw [hstep] at hx
    obtain ⟨j, a, scanId, ha, rfl⟩ := Engine.exists_getElem?_of_mem_sendings hx
    refine ⟨_, scanId, rfl, fun hsame => ?_⟩
    have hij := (hid _ (Nat.le_add_right s.node.engine.drawn (2 * j))).mp (congrArg TransferId.number hsame)
    obtain rfl : j = i := by omega
    obtain rfl : a = c.recipient := Option.some.inj (ha.symm.trans hi)
    exact congrArg₂ (fun id range => Outbound.mk id c.recipient range ⟨some c.snapshot, some c.version⟩) hsame hs.range
  refine ⟨⟨?_, ?_, ?_, ?_, ?_, ?_, fun m hm => c.fits_of_mem_messages hs.fits hm⟩, ?_⟩
  · exact (hs.serves.apply (e := (c.snapshot, .reconfigure r)) (fun op h => by cases h) rest).1
  · rw [Site.apply, take_engine, hstep]
    simp only [(Engine.kept_finishTransferring _).version]
    rw [Version.pred_succ hs.version]
    exact Version.lt_succ hs.version
  · rw [Site.apply, take_store, take_queue, hw.requests]
    simpa [Value.requests] using Store.preserves_of_presents hs.queue hs.presents
  · refine forall_take (fun t ht => .inl (hs.foreign t ht)) (fun _ ht => ht.of_eq rfl rfl rfl rfl rfl) fun x hx => ?_
    obtain ⟨outbound, scanId, rfl, hsame⟩ := hsending x hx
    by_cases h : outbound.id = c.id
    · obtain rfl := hsame h
      refine .inr ⟨rfl, ⟨rfl, hs.source, ?_⟩, fun signal hsignal => (by cases hsignal)⟩
      rw [Cargo.messages, Cargo.chunks, ← hs.source, ← hs.config]
      rfl
    · exact .inl (Transfer.isForeign_sending h)
  · rw [Site.apply, take_engine, take_draw, hstep]
    simp only [Engine.drawn_finishTransferring]
    intro n hn heq
    have hlt := (List.getElem?_eq_some_iff.mp hi).1
    have hn' := (hid n (Nat.le_trans (Nat.le_add_right _ _) hn)).mp heq
    simp only [Node.host] at hn
    omega
  · rw [Site.apply, take_engine, hw.incoming]
    exact hs.incoming
  · refine forall_take (P := fun t => t.id = c.id → t.mailbox = [])
      (fun t ht hid => absurd hid (hs.foreign t ht).other) (fun _ ht => ht) fun x hx => ?_
    obtain ⟨outbound, scanId, rfl, -⟩ := hsending x hx
    exact fun _ => rfl

theorem Poised.of_eq {config : Config} {r : Reconfiguration} (hs : s.Poised c base config r) (hserves : t.Serves)
    (hr : t.released = s.released) (he : t.node.engine = s.node.engine) (ha : t.node.addr = s.node.addr)
    (hc : t.node.config = s.node.config) (hd : t.node.draw = s.node.draw) (hf : t.flushed = s.flushed)
    (hforeign : ∀ u ∈ t.node.background.transfers, u.IsForeign c.id)
    (hqueue : ∀ q ∈ t.node.background.queue, q.2 ≠ some (.transfer c.id)) : t.Poised c base config r where
  serves := hserves
  released := hr ▸ hs.released
  view := he ▸ hs.view
  version := he ▸ hs.version
  range := hs.range
  source := ha.trans hs.source
  config := hc.trans hs.config
  newest := hf ▸ hs.newest
  foreign := hforeign
  queue := hqueue
  incoming := he ▸ hs.incoming
  id := he ▸ ha ▸ hd ▸ hs.id
  fits := hs.fits

/-- Until it applies the view change, the site sends nothing of the cargo. -/
theorem Poised.moves {config : Config} {r : Reconfiguration} (hs : s.Poised c base config r) (hm : Moves o s t)
    (hv : ∀ e ∈ s.released, e.2.IsWithin c.range) : t.sent c = s.sent c ∧
      (t.Poised c base config r ∨ t.Ships c base (c.messages config) ∧ t.Ungranted c) := by
  obtain ⟨first, hreleased⟩ := hs.released
  -- The move that starts the shipment is released already, so the replica takes no other event before it.
  have hbusy : s.isIdle ≠ true := by simp [isIdle, hreleased]
  have hserves : t.Serves := (hs.serves.moves hm fun e he => (hv e he).isFaithful).1
  cases hm with
  | hear hi he => exact absurd hi hbusy
  | deliver hi hd => exact absurd hi hbusy
  | @apply e rest hrun hr =>
    obtain ⟨rfl, rfl⟩ := List.cons.inj (hr.symm.trans hreleased)
    exact ⟨sent_of_outbox (outbox_take ..), .inr (hs.apply rest)⟩
  | insert hrun hr hb => rw [hr] at hreleased; cases hreleased
  | finish hrun hr hb => rw [hr] at hreleased; cases hreleased
  | execute hq =>
    have hflushed := flushed_execute hq
    obtain ⟨⟨q, requester?⟩, rest, hq⟩ := List.exists_cons_of_ne_nil hq
    rw [Node.serve_one hq] at hserves hflushed ⊢
    refine ⟨rfl, .inl (hs.of_eq hserves rfl rfl rfl rfl rfl hflushed ?_ fun q hq' => ?_)⟩
    · exact Background.forall_resolve (P := Transfer.IsForeign c.id) _ _ hs.foreign fun t _ ht => ⟨ht.other, ht.sends⟩
    · rw [Background.queue_resolve] at hq'
      exact hs.queue q (hq ▸ .tail _ hq')
  | @transfer id n hn =>
    obtain ⟨u, u', reports, hu, hstep, rfl⟩ := Node.stepTransfer_eq_some hn
    obtain ⟨hmem, huid⟩ := Transfer.of_find? hu
    obtain ⟨hforeign, hmessages⟩ := (hs.foreign u hmem).goes (hs.serves.reads u hmem) (Transfer.goes_of_step hstep)
    have hreads := (Transfer.step_reads (hs.serves.reads u hmem) hstep).2
    refine ⟨sent_of_arrivals _ rfl hmessages, .inl (hs.of_eq hserves rfl rfl rfl rfl rfl (flushed_queue_reads hreads s _)
      (forall_replaced (fun t ht _ => hs.foreign t ht) hforeign) fun q hq => ?_)⟩
    rcases List.mem_append.mp hq with hq | hq
    · exact hs.queue q hq
    · obtain ⟨request, -, rfl⟩ := List.mem_map.mp hq
      rw [← huid]
      exact fun h => (hs.foreign u hmem).other (by simpa using h)
  | wait ms =>
    refine ⟨rfl, .inl (hs.of_eq hserves rfl rfl rfl rfl rfl ?_ ?_ ?_)⟩
    · simp [flushed, Node.advance]
    · simpa [Node.advance] using hs.foreign
    · simpa [Node.advance] using hs.queue
  | register ha =>
    exact ⟨sent_of_outbox (outbox_register ha _), .inl (hs.of_eq hserves rfl rfl rfl rfl rfl rfl hs.foreign hs.queue)⟩

theorem Poised.ungranted {config : Config} {r : Reconfiguration} (hs : s.Poised c base config r) : s.Ungranted c :=
  fun t ht hid => absurd hid (hs.foreign t ht).other

/-- A site that is about to start the transfer of a cargo, or has started it, and still has to send `todo`. -/
def Supplies (c : Cargo) (base : Table) (config : Config) (r : Reconfiguration) (todo : List Message) (s : Site) : Prop :=
  s.Poised c base config r ∧ todo = c.messages config ∨ s.Ships c base todo

/-- A move sends the front of what is to be sent, without a grant at most the announcement. -/
theorem Supplies.moves {config : Config} {r : Reconfiguration} (hc : c.entries = (base.restrict c.range).entries)
    (hs : s.Supplies c base config r todo) (hm : Moves o s t) (hv : ∀ e ∈ s.released, e.2.IsWithin c.range) :
    ∃ front left, todo = front ++ left ∧ t.sent c = s.sent c ++ front ∧ t.Supplies c base config r left ∧
      (s.Ungranted c → (∀ m, o.tells (.message m) → m.id ≠ c.id) →
        t.Ungranted c ∧ (front = [] ∨ front = [.initiate c.announced])) := by
  rcases hs with ⟨hpoised, rfl⟩ | hships
  · obtain ⟨hsent, ht | ⟨ht, hungranted⟩⟩ := hpoised.moves hm hv
    · exact ⟨[], _, rfl, by rw [hsent, List.append_nil], .inl ⟨ht, rfl⟩, fun _ _ => ⟨ht.ungranted, .inl rfl⟩⟩
    · exact ⟨[], _, rfl, by rw [hsent, List.append_nil], .inr ht, fun _ _ => ⟨hungranted, .inl rfl⟩⟩
  · obtain ⟨front, left, hshipped⟩ := hships.moves hc hm hv
    exact ⟨front, left, hshipped.split, hshipped.sent, .inr hshipped.ships, hshipped.ungranted⟩

end Site
end ReplicaGroup
