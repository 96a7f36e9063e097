import ReplicaGroup.Proofs.Site.Converging
import ReplicaGroup.Proofs.Site.Shipping

/-! # A sender and a joiner

Two replicas are at work, each on its own. What one of them has sent to the other waits until the other takes
it, in the order in which it was sent. The rest of the group is outside: it decides, and it tells both of them
anything but messages of the transfer between them. -/

namespace ReplicaGroup

/-- The network without the first message that waits for a peer. -/
def Network.shift (net : Network Inbox) (a : Addr) : Network Inbox :=
  match net.get? a with
  | some inbox => net.insert a { inbox with messages := inbox.messages.tail }
  | none => net

theorem Network.waiting_shift (net : Network Inbox) (a b : Addr) :
    (net.shift a).waiting b = if b = a then (net.waiting a).tail else net.waiting b := by
  unfold shift waiting
  cases ha : net.get? a with
  | none =>
    by_cases h : b = a
    · rw [if_pos h, h, ha]
      rfl
    · rw [if_neg h]
  | some inbox =>
    simp only [OrderedMap.get?_insert]
    by_cases h : b = a
    · rw [if_pos h, if_pos h]
      rfl
    · rw [if_neg h, if_neg h]

/-- The site without the first message that waits for a peer. -/
def Site.shift (s : Site) (a : Addr) : Site := { s with node := { s.node with peers := s.node.peers.shift a } }

theorem Site.outbox_shift (s : Site) (a b : Addr) :
    (s.shift a).outbox b = if b = a then (s.outbox a).tail else s.outbox b := Network.waiting_shift ..

theorem Site.rests_shift (s : Site) (a : Addr) : s.Rests (s.shift a) :=
  ⟨rfl, rfl, rfl, rfl, rfl, rfl, rfl, rfl, fun _ h => h, fun _ h => h, fun _ h => h⟩

/-- An outside that tells nothing but a message. -/
def Site.Outside.only (D : Decided) (m : Message) : Outside := ⟨fun e => e = .message m, D⟩

/-- A site that takes a message. -/
theorem Site.moves_told {s : Site} (hi : s.isIdle = true) (m : Message) (D : Decided) :
    Moves (.only D m) s (s.handle (.message m)) :=
  @Moves.hear _ s _ s hi (.hear rfl rfl)

/-- A replica that may send to another one, and that other one. -/
structure Pair where
  sender : Site
  joiner : Site

namespace Pair
variable {o : Site.Outside} {w w' : Pair}

/-- What can happen to a pair. -/
inductive Act where
  | sender (a : Site.Act)
  | joiner (a : Site.Act)
  /-- The joiner takes the next message from the sender. -/
  | forth
  /-- The sender takes the next message from the joiner. -/
  | back

/-- The pair after an act; `none` if the act is not possible. -/
def act (w : Pair) : Act → Option Pair
  | .sender a => (w.sender.act a).map fun s => { w with sender := s }
  | .joiner a => (w.joiner.act a).map fun t => { w with joiner := t }
  | .forth => (w.sender.outbox w.joiner.node.addr).head?.bind fun m =>
    (w.joiner.act (.hear (.message m))).map fun t => ⟨w.sender.shift w.joiner.node.addr, t⟩
  | .back => (w.joiner.outbox w.sender.node.addr).head?.bind fun m =>
    (w.sender.act (.hear (.message m))).map fun s => ⟨s, w.joiner.shift w.sender.node.addr⟩

/-- The pair after acts, one after the other. -/
def run (w : Pair) : List Act → Option Pair
  | [] => some w
  | a :: rest => (w.act a).bind fun w' => run w' rest

/-- Whether what an act brings from outside may come from there. -/
def Act.From (o : Site.Outside) : Act → Prop
  | .sender a | .joiner a => a.From o
  | .forth | .back => True

/-- The ways in which a pair can change. -/
inductive Moves (o : Site.Outside) (w : Pair) : Pair → Prop
  | sender {s : Site} (h : Site.Moves o w.sender s) : Moves o w ⟨s, w.joiner⟩
  | joiner {t : Site} (h : Site.Moves o w.joiner t) : Moves o w ⟨w.sender, t⟩
  | forth {m : Message} {rest : List Message} (hm : w.sender.outbox w.joiner.node.addr = m :: rest)
    (hi : w.joiner.isIdle = true) : Moves o w ⟨w.sender.shift w.joiner.node.addr, w.joiner.handle (.message m)⟩
  | back {m : Message} {rest : List Message} (hm : w.joiner.outbox w.sender.node.addr = m :: rest)
    (hi : w.sender.isIdle = true) : Moves o w ⟨w.sender.handle (.message m), w.joiner.shift w.sender.node.addr⟩

/-- The first message of a queue is taken while the replica that takes it is idle. -/
theorem ferry_eq_some {queue : List Message} {s : Site} {f : Site → Pair}
    (h : (queue.head?.bind fun m => (s.act (.hear (.message m))).map f) = some w') :
    ∃ m rest, queue = m :: rest ∧ s.isIdle = true ∧ w' = f (s.handle (.message m)) := by
  obtain ⟨m, hm, h⟩ := Option.bind_eq_some_iff.mp h
  obtain ⟨t, ht, rfl⟩ := Option.map_eq_some_iff.mp h
  obtain ⟨rest, hrest⟩ := List.head?_eq_some_iff.mp hm
  obtain ⟨⟨hi, -⟩, ht⟩ := Option.ite_none_right_eq_some.mp ht
  cases ht
  exact ⟨m, rest, hrest, hi, rfl⟩

theorem moves_of_act {a : Act} (ha : a.From o) (h : w.act a = some w') : Moves o w w' := by
  cases a with
  | sender a =>
    obtain ⟨s, hs, rfl⟩ := Option.map_eq_some_iff.mp h
    exact .sender (Site.moves_of_act ha hs)
  | joiner a =>
    obtain ⟨t, ht, rfl⟩ := Option.map_eq_some_iff.mp h
    exact .joiner (Site.moves_of_act ha ht)
  | forth =>
    obtain ⟨m, rest, hm, hi, rfl⟩ := ferry_eq_some h
    exact .forth hm hi
  | back =>
    obtain ⟨m, rest, hm, hi, rfl⟩ := ferry_eq_some h
    exact .back hm hi

theorem run_append (w : Pair) (front back : List Act) : w.run (front ++ back) = (w.run front).bind (·.run back) := by
  induction front generalizing w with
  | nil => rfl
  | cons a front ih =>
    rw [List.cons_append, run, run, Option.bind_assoc]
    exact congrArg _ (funext ih)

/-- What holds at first, and survives every move out of a state on the way, holds after any acts. -/
theorem run_induction {P Q : Pair → Prop} {acts : List Act} (h : w.run acts = some w') (ha : ∀ a ∈ acts, a.From o)
    (hq : ∀ front u, front <+: acts → w.run front = some u → Q u) (hw : P w)
    (hm : ∀ u v, Q u → P u → Moves o u v → P v) : P w' := by
  induction acts generalizing w with
  | nil =>
    cases h
    exact hw
  | cons a acts ih =>
    obtain ⟨u, hu, h⟩ := Option.bind_eq_some_iff.mp h
    refine ih h (fun b hb => ha b (.tail _ hb)) (fun front v hfront hv => ?_)
      (hm w u (hq [] w List.nil_prefix rfl) hw (moves_of_act (ha a (.head _)) hu))
    exact hq (a :: front) v (List.cons_prefix_cons.mpr ⟨rfl, hfront⟩) (Option.bind_eq_some_iff.mpr ⟨u, hu, hv⟩)

end Pair
end ReplicaGroup
