import ReplicaGroup.Proofs.Engine.Apply
import ReplicaGroup.Proofs.Log
import ReplicaGroup.Proofs.Transfer.Steps

/-! # The acts of a site, one by one

What each act makes of a site, said without the engine's dispatch of events. The engine acts by `take`;
storage and transfers leave the engine alone. -/

namespace ReplicaGroup

namespace Background
variable {b : Background}

@[simp] theorem queue_resolve (reply : Signal) (requester? : Option Requester) :
    (b.resolve reply requester?).queue = b.queue := by
  unfold resolve
  split
  · exact queue_update
  · rfl
  · rfl

@[simp] theorem storeOpen_resolve (reply : Signal) (requester? : Option Requester) :
    (b.resolve reply requester?).storeOpen = b.storeOpen := by
  unfold resolve
  split
  · exact storeOpen_update
  · rfl
  · rfl

@[simp] theorem length_resolve (reply : Signal) (requester? : Option Requester) :
    (b.resolve reply requester?).transfers.length = b.transfers.length := by
  unfold resolve
  split
  · simp
  · rfl
  · rfl

theorem forall_resolve {P : Transfer → Prop} (reply : Signal) (requester? : Option Requester)
    (h : ∀ t ∈ b.transfers, P t)
    (hr : ∀ t, requester? = some (.transfer t.id) → P t → P { t with reply? := some reply }) :
    ∀ t ∈ (b.resolve reply requester?).transfers, P t := by
  unfold resolve
  split
  · exact forall_update h fun t hid => hr t (hid ▸ rfl)
  · exact h
  · exact h

@[simp] theorem expire_frame (now : Nat) : (b.expire now).queue = b.queue ∧
    (b.expire now).transfers = b.transfers ∧ (b.expire now).storeOpen = b.storeOpen := by
  unfold expire
  dsimp only
  generalize List.mergeSort _ _ = due
  induction due generalizing b with
  | nil => exact ⟨rfl, rfl, rfl⟩
  | cons d due ih =>
    obtain ⟨hq, ht, ho⟩ := ih (b := b.wake d.2)
    exact ⟨hq.trans queue_wake, ht.trans transfers_wake, ho.trans storeOpen_wake⟩

end Background

namespace Node

/-- What executing the first request makes of a node. -/
theorem serve_one {n : Node} {r : Request} {requester? : Option Requester}
    {rest : List (Request × Option Requester)} (hq : n.background.queue = (r, requester?) :: rest) : (n.serve 1).1 =
      { n with
        background := ({ n.background with queue := rest } : Background).resolve
          (.response (r.execute n.store).response) requester?
        store := (r.execute n.store).store
        notices := { n.notices with
          stored := n.notices.stored ++
            if requester? = some .engine ∧ n.eventsOpen = true then [(r.execute n.store).response] else [] } } := by
  unfold serve Background.serve hear note
  rw [hq]
  simp only [List.take_succ_cons, List.take_zero, List.drop_succ_cons, List.drop_zero, Background.serveAll]
  by_cases ho : n.eventsOpen = true <;> by_cases hr : requester? = some .engine <;> simp [ho, hr]

@[simp] theorem engine_serve (n : Node) (count : Nat) : (n.serve count).1.engine = n.engine := by
  unfold serve hear
  dsimp only
  split <;> rfl

/-- A node with a transfer replaced by what it has become. -/
abbrev replace (n : Node) (id : TransferId) (u : Transfer) : Node :=
  { n with background := { n.background with
      transfers := n.background.transfers.map fun v => if v.id = id then u else v } }

/-- Lets a transfer go on in one of the ways that it has; `none` if it has to wait. -/
def lead (n : Node) (id : TransferId) (f : Transfer → Option (Transfer × List Transfer.Report)) : Option Node :=
  (n.background.transfers.find? fun t => t.id = id).bind fun t =>
    (f t).map fun (t, reports) =>
      let transfers := n.background.transfers.map fun u => if u.id = id then t else u
      reports.foldl (accept · id) { n with background := { n.background with transfers := transfers } }

/-- What a transfer that goes on makes of a node. -/
theorem lead_eq_some {n m : Node} {id : TransferId} {f : Transfer → Option (Transfer × List Transfer.Report)}
    (h : n.lead id f = some m) :
    ∃ t u reports, n.background.transfers.find? (fun t => t.id = id) = some t ∧ f t = some (u, reports) ∧
      m = (n.replace id u).acceptAll id reports := by
  unfold lead at h
  obtain ⟨t, ht, h⟩ := Option.bind_eq_some_iff.mp h
  obtain ⟨⟨u, reports⟩, hu, rfl⟩ := Option.map_eq_some_iff.mp h
  exact ⟨t, u, reports, ht, hu, foldl_accept reports id _⟩

/-- What a step of a transfer makes of a node. -/
theorem stepTransfer_eq_some {n m : Node} {id : TransferId} (h : n.stepTransfer id = some m) :
    ∃ t u reports, n.background.transfers.find? (fun t => t.id = id) = some t ∧
      t.step ⟨n.background.storeOpen, n.carries⟩ n.now = some (u, reports) ∧
      m = (n.replace id u).acceptAll id reports :=
  lead_eq_some (f := (·.step ⟨n.background.storeOpen, n.carries⟩ n.now)) h

end Node

theorem Transfer.of_find? {transfers : List Transfer} {id : TransferId} {t : Transfer}
    (h : transfers.find? (fun t => t.id = id) = some t) : t ∈ transfers ∧ t.id = id :=
  ⟨List.mem_of_find?_eq_some h, by simpa using List.find?_some h⟩

namespace Site
variable {s t : Site}

/-- What holds of a transfer that has taken a step, and of all others. -/
theorem forall_replaced {P : Transfer → Prop} {transfers : List Transfer} {id : TransferId} {u : Transfer}
    (h : ∀ t ∈ transfers, t.id ≠ id → P t) (hu : P u) :
    ∀ t ∈ transfers.map (fun v => if v.id = id then u else v), P t := by
  intro t ht
  obtain ⟨v, hv, rfl⟩ := List.mem_map.mp ht
  split
  · exact hu
  · next hid => exact h v hv hid

/-! ### The engine -/

@[simp] theorem halt_eq : s.halt = { s with
    running := false
    node := { s.node with background := s.node.background.releaseAll } } := rfl

theorem handle_eq_take {e : Event} (he : e ≠ .stop) :
    s.handle e = s.take (s.node.engine.handle s.node.host e) := by
  unfold handle
  cases e <;> first | rfl | exact absurd rfl he

/-- What comes to a site from outside. -/
structure Outside where
  /-- Whether an event may come. -/
  tells : Event → Prop
  decided : Decided

/-- Whether an act brings to a site what may come from outside, if it brings anything. -/
def Act.From (o : Outside) : Act → Prop
  | .hear e => o.tells e
  | .deliver decisions => ∀ d ∈ decisions, d.value = o.decided d.position
  | _ => True

/-- What a site is told by its own tasks or from outside. -/
inductive Heard (o : Outside) (s : Site) : Event → Site → Prop
  | hear {e : Event} (he : e.isExternal = true) (ho : o.tells e) : Heard o s e s
  | response {i : Nat} {r : Response} (hr : s.node.notices.stored[i]? = some r) :
    Heard o s (.stored r) { s with node := s.node.note fun x => { x with stored := x.stored.eraseIdx i } }
  | completion {i : Nat} {c : Completion} (hc : s.node.notices.completed[i]? = some c) :
    Heard o s (.completed c)
      { s with node := s.node.note fun x => { x with completed := x.completed.eraseIdx i } }
  | stopped {i : Nat} {id : TransferId} (hid : s.node.notices.stopped[i]? = some id) :
    Heard o s (.stopped id) { s with node := s.node.note fun x => { x with stopped := x.stopped.eraseIdx i } }

/-- The ways in which a site can change. -/
inductive Moves (o : Outside) (s : Site) : Site → Prop
  | hear {e : Event} {s' : Site} (hi : s.isIdle = true) (he : Heard o s e s') : Moves o s (s'.handle e)
  | deliver {decisions : List Decision} (hi : s.isIdle = true)
    (hd : ∀ d ∈ decisions, d.value = o.decided d.position) : Moves o s { s with batch? := some decisions }
  | apply {e : Position × Value} {rest : List (Position × Value)} (hrun : s.running = true)
    (hr : s.released = e :: rest) : Moves o s (s.apply e rest)
  | insert {d : Decision} {rest : List Decision} (hrun : s.running = true) (hr : s.released = [])
    (hb : s.batch? = some (d :: rest)) : Moves o s (s.insert d rest)
  | finish (hrun : s.running = true) (hr : s.released = []) (hb : s.batch? = some []) : Moves o s s.finish
  | execute (hq : s.node.background.queue ≠ []) : Moves o s { s with node := (s.node.serve 1).1 }
  | transfer {id : TransferId} {n : Node} (hn : s.node.stepTransfer id = some n) : Moves o s { s with node := n }
  | wait (ms : Nat) : Moves o s { s with node := s.node.advance ms }
  | register {addr : Addr} (ha : s.node.peers.contains addr = false) :
    Moves o s { s with node := s.node.register addr }

theorem moves_of_act {o : Outside} {a : Act} (ha : a.From o) (h : s.act a = some t) : Moves o s t := by
  cases a with
  | hear e =>
    obtain ⟨⟨hi, he⟩, h⟩ := Option.ite_none_right_eq_some.mp h
    cases h
    exact .hear hi (.hear he ha)
  | deliver decisions =>
    obtain ⟨hi, h⟩ := Option.ite_none_right_eq_some.mp h
    cases h
    exact .deliver hi ha
  | advance =>
    obtain ⟨hrun, h⟩ := Option.ite_none_right_eq_some.mp h
    split at h
    · next hr => cases h; exact .apply hrun hr
    · next hr hb => cases h; exact .insert hrun hr hb
    · next hr hb => cases h; exact .finish hrun hr hb
    · cases h
  | response i =>
    obtain ⟨hi, h⟩ := Option.ite_none_right_eq_some.mp h
    obtain ⟨r, hr, rfl⟩ := Option.map_eq_some_iff.mp h
    exact .hear hi (.response hr)
  | completion i =>
    obtain ⟨hi, h⟩ := Option.ite_none_right_eq_some.mp h
    obtain ⟨c, hc, rfl⟩ := Option.map_eq_some_iff.mp h
    exact .hear hi (.completion hc)
  | stopped i =>
    obtain ⟨hi, h⟩ := Option.ite_none_right_eq_some.mp h
    obtain ⟨id, hid, rfl⟩ := Option.map_eq_some_iff.mp h
    exact .hear hi (.stopped hid)
  | execute =>
    obtain ⟨hq, h⟩ := Option.ite_none_left_eq_some.mp h
    cases h
    exact .execute hq
  | transfer id =>
    obtain ⟨n, hn, rfl⟩ := Option.map_eq_some_iff.mp h
    exact .transfer hn
  | wait ms => cases h; exact .wait ms
  | register addr =>
    obtain ⟨hc, h⟩ := Option.ite_none_left_eq_some.mp h
    cases h
    exact .register (Bool.not_eq_true _ ▸ hc)

/-- An act brings nothing from outside but itself. -/
def Act.outside (a : Act) : Outside := ⟨fun e => a = .hear e, fun _ => .noop ⟨0⟩⟩

/-- Every act is a move, but for a batch of decisions: two decisions in it may be about the same position and differ,
    so that no log has brought it. -/
theorem moves_or_delivers {a : Act} (h : s.act a = some t) :
    Moves a.outside s t ∨ ∃ decisions, t = { s with batch? := some decisions } := by
  by_cases hd : ∃ decisions, a = .deliver decisions
  · obtain ⟨decisions, rfl⟩ := hd
    obtain ⟨-, h⟩ := Option.ite_none_right_eq_some.mp h
    exact .inr ⟨decisions, (Option.some.inj h).symm⟩
  · refine .inl (moves_of_act ?_ h)
    cases a with
    | hear e => rfl
    | deliver decisions => exact absurd ⟨decisions, rfl⟩ hd
    | _ => trivial

theorem Heard.eq {o : Outside} {e : Event} (h : Heard o s e t) :
    ∃ notices, t = { s with node := { s.node with notices := notices } } := by
  cases h <;> exact ⟨_, rfl⟩

theorem not_decide_of_heard {o : Outside} {e : Event} (h : Heard o s e t) : ∀ ds, e ≠ .decide ds := by
  rintro ds rfl
  cases h with
  | hear he ho => cases he

/-- What holds at first and survives every act of a kind holds after any acts of that kind. -/
theorem act_induction {A : Act → Prop} {P : Site → Prop} {acts : List Act} (h : s.run acts = some t)
    (ha : ∀ a ∈ acts, A a) (hs : P s) (hact : ∀ u a v, A a → u.act a = some v → P u → P v) : P t := by
  induction acts generalizing s with
  | nil =>
    cases h
    exact hs
  | cons a acts ih =>
    obtain ⟨u, hu, h⟩ := Option.bind_eq_some_iff.mp h
    exact ih h (fun b hb => ha b (.tail _ hb)) (hact s a u (ha a (.head _)) hu hs)

/-- What holds at first and survives every move holds after any acts. -/
theorem run_induction {o : Outside} {P : Site → Prop} {acts : List Act} (h : s.run acts = some t)
    (ha : ∀ a ∈ acts, a.From o) (hs : P s) (hm : ∀ u v, P u → Moves o u v → P v) : P t :=
  act_induction h ha hs fun u _ v ha hact hu => hm u v hu (moves_of_act ha hact)

end Site
end ReplicaGroup
