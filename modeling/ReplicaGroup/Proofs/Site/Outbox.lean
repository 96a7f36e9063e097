import ReplicaGroup.Proofs.Site.Acts
import ReplicaGroup.Proofs.Wire

/-! # What a site has sent

The messages to a peer wait in its inbox in the order in which they were sent. Only its transfers send
messages, and a message that is carried when a step begins arrives. -/

namespace ReplicaGroup

namespace Network
variable {net : Network Inbox} {a b : Addr} {m : Message}

/-- The messages that wait for a peer. -/
def waiting (net : Network Inbox) (a : Addr) : List Message := (net.get? a).elim [] (·.messages)

/-- What arrives in the inbox of `a` of a message that is sent. -/
def arrival? (net : Network Inbox) (a : Addr) (x : Addr × Message) : Option Message :=
  if x.1 = a then (net.route Inbox.isOpen a x.2).toOption.map (·.2) else none

theorem route_eq (net : Network Inbox) (a : Addr) (m : Message) : net.route Inbox.isOpen a m =
    match net.get? a with
    | none => .error (.unknownDestination a)
    | some inbox =>
      match m.transmitted with
      | .error e => .error (.malformed e)
      | .ok arrived => if inbox.isOpen then .ok (inbox, arrived) else .error .channelClosed := by
  unfold route
  cases net.get? a with
  | none => rfl
  | some inbox =>
    cases ht : m.transmitted with
    | error e => simp; rfl
    | ok arrived => by_cases ho : inbox.isOpen = true <;> simp [ho] <;> rfl

theorem get?_post (net : Network Inbox) (b : Addr) (m : Message) (a : Addr) : (net.post b m).get? a =
    (net.get? a).map fun inbox => { inbox with messages := inbox.messages ++ (net.arrival? a (b, m)).toList } := by
  unfold post arrival?
  by_cases hb : b = a
  · subst hb
    rw [if_pos rfl]
    cases hr : net.route Inbox.isOpen b m with
    | error e => cases net.get? b <;> simp [Except.toOption]
    | ok x =>
      obtain ⟨inbox, arrived⟩ := x
      have hget : net.get? b = some inbox := by
        rw [route_eq] at hr
        split at hr
        · cases hr
        · next hget =>
          split at hr
          · cases hr
          · split at hr
            · cases hr; exact hget
            · cases hr
      simp [OrderedMap.get?_insert, hget, Except.toOption]
  · rw [if_neg hb]
    cases hr : net.route Inbox.isOpen b m with
    | error e => cases net.get? a <;> simp
    | ok x => cases hget : net.get? a <;> simp [OrderedMap.get?_insert, Ne.symm hb, hget]

theorem arrival?_post (x : Addr × Message) : (net.post b m).arrival? a x = net.arrival? a x := by
  unfold arrival?
  split
  · rw [route_eq, route_eq, get?_post]
    cases hget : net.get? a with
    | none => rfl
    | some inbox =>
      simp only [Option.map_some]
      cases x.2.transmitted with
      | error e => rfl
      | ok arrived => by_cases ho : inbox.isOpen = true <;> simp [ho, Except.toOption]
  · rfl

theorem waiting_post : (net.post b m).waiting a = net.waiting a ++ (net.arrival? a (b, m)).toList := by
  unfold waiting
  rw [get?_post]
  cases hget : net.get? a with
  | none =>
    unfold arrival?
    split
    · next hb => simp [route_eq, hget, Except.toOption]
    · rfl
  | some inbox => rfl

/-- What waits for a peer after messages to several ones. -/
theorem waiting_postAll (sent : List (Addr × Message)) :
    (net.postAll sent).waiting a = net.waiting a ++ sent.filterMap (net.arrival? a) := by
  unfold postAll
  induction sent generalizing net with
  | nil => simp
  | cons x sent ih =>
    rw [List.foldl_cons, ih, waiting_post, List.append_assoc]
    have hsame : (net.post x.1 x.2).arrival? a = net.arrival? a := funext fun y => arrival?_post y
    rw [hsame, List.filterMap_cons]
    cases net.arrival? a (x.1, x.2) <;> rfl

/-- What arrives belongs to the same transfer. -/
theorem id_of_arrival? {x : Addr × Message} {arrived : Message} (h : net.arrival? a x = some arrived) :
    x.1 = a ∧ arrived.id = x.2.id := by
  unfold arrival? at h
  obtain ⟨hx, h⟩ := Option.ite_none_right_eq_some.mp h
  refine ⟨hx, ?_⟩
  rw [route_eq] at h
  split at h
  · cases h
  · split at h
    · cases h
    · next ht =>
      split at h
      · cases h; exact Wire.id_of_transmitted ht
      · cases h

end Network

/-- A message that fits arrives if it is carried. -/
theorem Node.arrival?_of_carries {n : Node} {a : Addr} {m : Message} (hc : n.carries a m = .ok ()) (hm : m.Fits) :
    n.peers.arrival? a (a, m) = some m := by
  unfold Node.carries at hc
  unfold Network.arrival?
  rw [if_pos rfl]
  rw [Network.route_eq, Wire.transmitted_eq hm] at hc ⊢
  cases hget : n.peers.get? a with
  | none => rw [hget] at hc; cases hc
  | some inbox =>
    rw [hget] at hc
    by_cases ho : inbox.isOpen = true
    · simp [ho, Except.toOption]
    · simp [ho, Except.map] at hc

namespace Site
variable {s t : Site}

/-- The messages to a peer that have been sent and not been taken yet. -/
def outbox (s : Site) (a : Addr) : List Message := s.node.peers.waiting a

@[simp] theorem outbox_take (step : Step) (a : Addr) : (s.take step).outbox a = s.outbox a := by
  rw [outbox, take_peers, outbox]

@[simp] theorem outbox_handle (e : Event) (a : Addr) : (s.handle e).outbox a = s.outbox a := by
  by_cases he : e = .stop
  · subst he
    simp [handle, outbox]
  · rw [handle_eq_take he, outbox_take]

theorem outbox_register {b : Addr} (hb : s.node.peers.contains b = false) (a : Addr) :
    outbox { s with node := s.node.register b } a = s.outbox a := by
  unfold outbox Network.waiting Node.register
  rw [OrderedMap.get?_insert]
  split
  · next hab =>
    subst hab
    have hnone : s.node.peers.get? a = none := by
      rw [OrderedMap.get?_eq_none_iff, ← OrderedMap.contains_iff]
      simp [hb]
    rw [hnone]
    rfl
  · rfl

/-- Only a step of a transfer sends messages. -/
theorem Moves.outbox {o : Outside} (h : Moves o s t) (a : Addr) :
    t.outbox a = s.outbox a ∨ ∃ id n, s.node.stepTransfer id = some n ∧ t = { s with node := n } := by
  cases h with
  | @hear e s' hi he =>
    left
    obtain ⟨notices, rfl⟩ := he.eq
    exact outbox_handle e a
  | apply hrun hr => exact .inl (outbox_take ..)
  | finish hrun hr hb => exact .inl (outbox_take ..)
  | execute hq =>
    obtain ⟨⟨r, requester?⟩, rest, hq⟩ := List.exists_cons_of_ne_nil hq
    rw [Node.serve_one hq]
    exact .inl rfl
  | transfer hn => exact .inr ⟨_, _, hn, rfl⟩
  | register ha => exact .inl (outbox_register ha a)
  | deliver | insert | wait => exact .inl rfl

end Site
end ReplicaGroup
