import ReplicaGroup.Proofs.Pair

/-! # A cargo on its way from a sender to a joiner

Of the cargo, a part is written, a part is taken by the joiner's transfer, a part is on its way, and the rest is
still to be sent. Once the joiner has taken the announcement it takes all of this, and then has what the sender
has, unless its engine ends before. -/

namespace ReplicaGroup

/-! ### The cargo on its way -/

theorem Sender.isData_of_mem_chunks {s : Sender} {sent : Nat} {rest : Entries} {m : Message} (hm : m ∈ s.chunks sent rest) :
    m.isData s.outbound.id = true := by
  obtain ⟨n, dropped, rfl⟩ := exists_chunk_of_mem_chunks hm
  exact decide_eq_true rfl

theorem Message.isData_eq_false {id : TransferId} {m : Message} (h : m.id ≠ id) : m.isData id = false := by
  cases m with
  | initiate | grant => rfl
  | data => exact decide_eq_false h

namespace Cargo

/-- The data among what is sent are the chunks, and these are all of the cargo. -/
theorem filter_messages (c : Cargo) (config : Config) :
    (c.messages config).filter (·.isData c.id) = c.chunks config := by
  rw [messages, List.filter_cons_of_neg (by simp [Message.isData])]
  exact List.filter_eq_self.mpr fun m hm => Sender.isData_of_mem_chunks hm

theorem completes_chunks {c : Cargo} (h : c.entries.Fit) (config : Config) : c.Completes [] (c.chunks config) :=
  ⟨c.entries, rfl, Sender.chunked_chunks (s := ⟨c.outbound, c.source, config.chunkEntries, .capturing⟩) h⟩

end Cargo

namespace Site
variable {c : Cargo} {base : Table} {config : Config} {r : Reconfiguration} {todo : List Message} {D : Decided}
  {s t : Site} {a : Addr}

theorem Supplies.shift (hs : s.Supplies c base config r todo) (a : Addr) : (s.shift a).Supplies c base config r todo := by
  rcases hs with ⟨hpoised, htodo⟩ | hships
  · exact .inl ⟨hpoised.of_eq (hpoised.serves.of_eq rfl rfl rfl hpoised.serves.reads) rfl rfl rfl rfl rfl rfl
      hpoised.foreign hpoised.queue, htodo⟩
  · exact .inr ⟨hships.serves.of_eq rfl rfl rfl hships.serves.reads, hships.newer, hships.preserves, hships.transfers,
      hships.drawn, hships.incoming, hships.todo⟩

theorem Tracks.shift {range : KeyRange} {q first : Position} (hs : s.Tracks D range base q first) (a : Addr) :
    (s.shift a).Tracks D range base q first :=
  ⟨hs.serves.of_eq rfl rfl rfl hs.serves.reads, hs.follows.of_eq rfl rfl rfl, hs.reached, hs.agrees⟩

/-- A site that has applied the decisions from some position on, and has the range that they give it. -/
structure Chronicles (D : Decided) (range : KeyRange) (s : Site) : Prop where
  fed : s.Fed D
  order : s.Fresh ∨ ∃ first, s.Follows D [] first
  range : s.Recounts (Engine.KeepsRange range)

theorem Chronicles.moves {o : Outside} {range : KeyRange} (hs : s.Chronicles o.decided range) (hm : Moves o s t) :
    t.Chronicles o.decided range where
  fed := hs.fed.moves hm
  order := by
    rcases hs.order with h | ⟨first, h⟩
    · exact h.moves hs.fed hm
    · exact .inr ⟨first, h.moves hs.fed hm⟩
  range := hs.range.moves (Engine.lasts_keepsRange range) hm

theorem Chronicles.shift {range : KeyRange} (hs : s.Chronicles D range) (a : Addr) : (s.shift a).Chronicles D range where
  fed := hs.fed
  order := hs.order.imp (fun h => ⟨h.pending, h.unreleased, h.applied, h.released⟩) fun ⟨first, h⟩ =>
    ⟨first, h.of_eq rfl rfl rfl⟩
  range := hs.range.of_eq rfl rfl fun h => ⟨h, id⟩

/-- The message that the recipient takes is the first one of what is on its way. -/
theorem sent_shift {m : Message} {rest : List Message} (h : s.outbox c.recipient = m :: rest) :
    s.sent c = [m].filter (fun m => m.id = c.id) ++ (s.shift c.recipient).sent c := by
  rw [sent, sent, outbox_shift, if_pos rfl, h, List.tail_cons, ← List.filter_append, List.singleton_append]

end Site

namespace Pair
variable {c : Cargo} {base : Table} {config : Config} {r : Reconfiguration} {D : Decided} {first : Position}
  {todo : List Message} {w w' : Pair}

/-- Outside of the transfer with an identifier. -/
def outside (id : TransferId) (D : Decided) : Site.Outside := ⟨fun e => ∀ m, e = .message m → m.id ≠ id, D⟩

/-! ### What does not concern the cargo -/

/-- What holds of a pair whose sender has the values of a table when it comes to the view change. -/
structure Grounded (c : Cargo) (base : Table) (D : Decided) (first : Position) (w : Pair) : Prop where
  source : w.sender.node.addr = c.source
  recipient : w.joiner.node.addr = c.recipient
  sender : w.sender.Tracks D c.range base c.snapshot first
  fed : w.sender.Fed D
  joiner : w.joiner.Chronicles D c.range

section Grounded
variable {o : Site.Outside} {s t : Site}

theorem Grounded.act (hw : w.Grounded c base o.decided first) (hwithin : ∀ p, c.snapshot ≤ p → (o.decided p).IsWithin c.range)
    (hm : Site.Moves o w.sender s) : Grounded c base o.decided first { w with sender := s } :=
  ⟨hm.addr.trans hw.source, hw.recipient, hw.sender.moves hw.fed hwithin hm, hw.fed.moves hm, hw.joiner⟩

theorem Grounded.react (hw : w.Grounded c base o.decided first) (hm : Site.Moves o w.joiner t) :
    Grounded c base o.decided first { w with joiner := t } :=
  ⟨hw.source, hm.addr.trans hw.recipient, hw.sender, hw.fed, hw.joiner.moves hm⟩

theorem Grounded.moves (hw : w.Grounded c base o.decided first)
    (hwithin : ∀ p, c.snapshot ≤ p → (o.decided p).IsWithin c.range) (hm : Moves o w w') :
    w'.Grounded c base o.decided first := by
  cases hm with
  | sender hm => exact hw.act hwithin hm
  | joiner hm => exact hw.react hm
  | @forth m rest _ hi =>
    have ht := hw.react (o := .only o.decided m) (Site.moves_told hi m o.decided)
    exact ⟨ht.source, ht.recipient, ht.sender.shift _, ht.fed, ht.joiner⟩
  | @back m rest _ hi =>
    have ht := hw.act (o := .only o.decided m) hwithin (Site.moves_told hi m o.decided)
    exact ⟨ht.source, ht.recipient, ht.sender, ht.fed, ht.joiner.shift _⟩

/-- The joiner has the range from the view change on. -/
theorem Grounded.range_eq (hw : w.Grounded c base o.decided first) (hjoins : w.joiner.Joins c.snapshot r)
    (hr : o.decided c.snapshot = .reconfigure r) (hrange : r.range = c.range)
    (hwithin : ∀ p, c.snapshot < p → (o.decided p).IsWithin c.range) (hrun : w.joiner.running = true)
    (hne : w.joiner.applied ≠ []) :
    ∀ e ∈ w.joiner.released.head?, c.snapshot < e.1 → w.joiner.node.engine.range = c.range := by
  intro e he hlt
  obtain ⟨rest, hrest⟩ := List.head?_eq_some_iff.mp he
  rcases hw.joiner.order with hfresh | ⟨first, hfollows⟩
  · rw [hfresh.released] at hrest
    cases hrest
  · rw [congrArg Prod.fst (hfollows.next hrest)] at hlt
    exact hjoins.range_eq hw.joiner.range hrun hfollows (hfollows.first_le hjoins.first hne) hlt hr hrange hwithin

end Grounded
end Pair

/-! ### Before the joiner takes the announcement -/

namespace Site
variable {c : Cargo} {base : Table} {config : Config} {r : Reconfiguration} {todo : List Message} {s t : Site} {o : Outside}

/-- A site that has sent nothing of a cargo but the announcement, if that. -/
structure Announces (c : Cargo) (base : Table) (config : Config) (r : Reconfiguration) (todo : List Message) (s : Site) :
    Prop where
  supplies : s.Supplies c base config r todo
  ungranted : s.Ungranted c
  sent : ∀ m ∈ s.sent c, m = .initiate c.announced
  data : todo.filter (·.isData c.id) = c.chunks config

/-- The data of the cargo that its recipient has not taken yet. -/
def coming (c : Cargo) (todo : List Message) (s : Site) : List Message := (s.sent c ++ todo).filter (·.isData c.id)

theorem Announces.coming_eq (hs : s.Announces c base config r todo) : coming c todo s = c.chunks config := by
  rw [coming, List.filter_append, hs.data, List.filter_eq_nil_iff.mpr, List.nil_append]
  intro m hm hdata
  rw [hs.sent m hm] at hdata
  cases hdata

/-- As long as it is told nothing of the cargo it sends no data. -/
theorem Announces.moves (hc : c.entries = (base.restrict c.range).entries) (hs : s.Announces c base config r todo)
    (hm : Moves o s t) (hv : ∀ e ∈ s.released, e.2.IsWithin c.range) (ho : ∀ m, o.tells (.message m) → m.id ≠ c.id) :
    ∃ todo, t.Announces c base config r todo := by
  obtain ⟨front, left, hsplit, hsent, ht, hgranted⟩ := hs.supplies.moves hc hm hv
  obtain ⟨hungranted, hfront⟩ := hgranted hs.ungranted ho
  have hannounced : ∀ m ∈ front, m = .initiate c.announced := by
    rcases hfront with rfl | rfl
    · rintro m ⟨⟩
    · exact fun m hm => List.mem_singleton.mp hm
  refine ⟨left, ht, hungranted, fun m hm => ?_, ?_⟩
  · rw [hsent] at hm
    exact (List.mem_append.mp hm).elim (hs.sent m) (hannounced m)
  · have hnone : front.filter (·.isData c.id) = [] := by
      rcases hfront with rfl | rfl <;> rfl
    rw [← hs.data, hsplit, List.filter_append, hnone, List.nil_append]

theorem Announces.shift (hs : s.Announces c base config r todo) {m : Message} {rest : List Message}
    (h : s.outbox c.recipient = m :: rest) : (s.shift c.recipient).Announces c base config r todo where
  supplies := hs.supplies.shift _
  ungranted := hs.ungranted
  sent m' hm' := by
    refine hs.sent m' ?_
    rw [sent_shift h]
    exact List.mem_append_right _ hm'
  data := hs.data

/-- What a move sends is no longer to be sent. -/
theorem Supplies.coming_moves (hc : c.entries = (base.restrict c.range).entries) (hs : s.Supplies c base config r todo)
    (hm : Moves o s t) (hv : ∀ e ∈ s.released, e.2.IsWithin c.range) :
    ∃ left, t.Supplies c base config r left ∧ coming c left t = coming c todo s := by
  obtain ⟨front, left, hsplit, hsent, ht, -⟩ := hs.moves hc hm hv
  exact ⟨left, ht, by rw [coming, hsent, coming, hsplit, List.append_assoc]⟩

/-- What the recipient takes is no longer coming. -/
theorem coming_shift {m : Message} {rest : List Message} (h : s.outbox c.recipient = m :: rest) (todo : List Message) :
    coming c todo s = [m].filter (·.isData c.id) ++ coming c todo (s.shift c.recipient) := by
  rw [coming, coming, sent_shift h, List.append_assoc, List.filter_append]
  congr 1
  rw [List.filter_filter]
  refine List.filter_congr fun m' _ => ?_
  by_cases hid : m'.id = c.id
  · simp [hid]
  · simp [Message.isData_eq_false hid]

end Site

namespace Pair
variable {c : Cargo} {base : Table} {config : Config} {r : Reconfiguration} {o : Site.Outside} {D : Decided}
  {first : Position} {w w' : Pair} {s t : Site}

/-- A joiner has only begun to join before a move if it has after it. -/
theorem Moves.joins (hm : Moves o w w') {p : Position} (h : w'.joiner.Joins p r) : w.joiner.Joins p r := by
  have hsame : w'.joiner.applied = w.joiner.applied → w.joiner.Joins p r := fun happlied =>
    h.of_append (happlied.trans (List.append_nil _).symm)
  cases hm with
  | sender hm => exact h
  | joiner hm =>
    rcases hm.applied with happlied | ⟨e, rest, effects, -, happlied⟩
    · exact hsame happlied
    · exact h.of_append happlied
  | forth hm hi => exact hsame (Site.applied_handle _)
  | back hm hi => exact hsame rfl

/-! ### After the joiner has taken the announcement -/

/-- A pair whose joiner has taken the announcement of the cargo. -/
inductive Taken (c : Cargo) (base : Table) (config : Config) (r : Reconfiguration) (D : Decided) (w : Pair) : Prop
  /-- The joiner has ended. -/
  | ended (ht : w.joiner.Dead)
  /-- The joiner takes the cargo piece by piece. -/
  | streams {todo : List Message} {done : Entries} (hs : w.sender.Supplies c base config r todo)
    (ht : w.joiner.Receives c (Site.coming c todo w.sender) done)
  /-- The joiner has what the sender has. -/
  | landed {first : Position} (ht : w.joiner.Tracks D c.range base (c.snapshot + 1) first)

theorem Taken.act (hc : c.entries = (base.restrict c.range).entries) (hf : w.Taken c base config r D)
    (hv : ∀ e ∈ w.sender.released, e.2.IsWithin c.range) (hm : Site.Moves o w.sender s) :
    Taken c base config r D { w with sender := s } := by
  cases hf with
  | ended ht => exact .ended ht
  | streams hs ht =>
    obtain ⟨left, hs, hcoming⟩ := hs.coming_moves hc hm hv
    exact .streams (w := { w with sender := s }) hs (hcoming ▸ ht)
  | landed ht => exact .landed ht

theorem Taken.react (hc : c.entries = (base.restrict c.range).entries) (hr : o.decided c.snapshot = .reconfigure r)
    (hrange : r.range = c.range) (hwithin : ∀ p, c.snapshot < p → (o.decided p).IsWithin c.range)
    (hw : w.Grounded c base o.decided first) (hf : w.Taken c base config r o.decided) (hm : Site.Moves o w.joiner t)
    (ho : ∀ m, o.tells (.message m) → m.id ≠ c.id) (hjoins : t.Joins c.snapshot r) :
    Taken c base config r o.decided { w with joiner := t } := by
  cases hf with
  | ended ht => exact .ended (ht.moves hm)
  | streams hs ht =>
    have hjoined : w.joiner.Joins c.snapshot r := (Moves.joiner hm).joins hjoins
    rcases ht.moves hc hwithin hw.joiner.fed hw.joiner.order (fun m hm => Message.isData_eq_false (ho m hm)) hjoins
      (hw.range_eq hjoined hr hrange hwithin ht.waits.running) hm with ht | ⟨done, ht⟩ | ⟨first, ht⟩
    · exact .ended ht
    · exact .streams hs ht
    · exact .landed ht
  | landed ht => exact .landed (ht.moves hw.joiner.fed (fun p hp => hwithin p hp) hm)

theorem Taken.forth (hwithin : ∀ p, c.snapshot < p → (o.decided p).IsWithin c.range)
    (hw : w.Grounded c base o.decided first) (hf : w.Taken c base config r o.decided) {m : Message}
    {rest : List Message} (hm : w.sender.outbox c.recipient = m :: rest) (hi : w.joiner.isIdle = true) :
    Taken c base config r o.decided ⟨w.sender.shift c.recipient, w.joiner.handle (.message m)⟩ := by
  have hmoves := Site.moves_told hi m o.decided
  cases hf with
  | ended ht => exact .ended (ht.moves hmoves)
  | streams hs ht =>
    rw [Site.coming_shift hm] at ht
    rcases Site.Receives.handle (e := .message m) ht nofun nofun (by rintro (⟨x, h⟩ | ⟨id, h⟩) <;> cases h) nofun with
      ht | ht
    · exact .ended ht
    · exact .streams (hs.shift _) ht
  | landed ht => exact .landed (ht.moves (o := .only o.decided m) hw.joiner.fed (fun p hp => hwithin p hp) hmoves)

theorem Taken.back (hf : w.Taken c base config r D) (a : Addr) :
    Taken c base config r D { w with joiner := w.joiner.shift a } := by
  cases hf with
  | ended ht => exact .ended ⟨ht.running, ht.serving⟩
  | streams hs ht => exact .streams hs (ht.rests (w.joiner.rests_shift a))
  | landed ht => exact .landed (ht.shift a)

theorem Taken.moves (hc : c.entries = (base.restrict c.range).entries) (hr : D c.snapshot = .reconfigure r)
    (hrange : r.range = c.range) (hwithin : ∀ p, c.snapshot ≤ p → (D p).IsWithin c.range)
    (hw : w.Grounded c base D first) (hf : w.Taken c base config r D) (hm : Moves (outside c.id D) w w')
    (hjoins : w'.joiner.Joins c.snapshot r) : w'.Taken c base config r D := by
  have hlater : ∀ p, c.snapshot < p → (D p).IsWithin c.range := fun p hp => hwithin p (Nat.le_of_lt hp)
  have hv := hw.sender.follows.released_within hw.sender.reached hwithin
  cases hm with
  | sender hm => exact hf.act hc hv hm
  | joiner hm => exact Taken.react (o := outside c.id D) hc hr hrange hlater hw hf hm (fun m h => h m rfl) hjoins
  | forth hm hi =>
    rw [hw.recipient] at hm ⊢
    exact Taken.forth (o := outside c.id D) hlater hw hf hm hi
  | @back m rest hm hi => exact (hf.act hc hv (Site.moves_told hi m D)).back _

/-! ### Whether the joiner takes it -/

/-- A pair whose sender has come to the view change. -/
inductive Ferries (c : Cargo) (base : Table) (config : Config) (r : Reconfiguration) (D : Decided) (w : Pair) : Prop
  /-- The joiner awaits the announcement. -/
  | announced {todo : List Message} (hs : w.sender.Announces c base config r todo) (ht : w.joiner.Awaits c)
    (hback : ∀ m ∈ w.joiner.outbox c.source, m.id ≠ c.id)
  /-- The joiner will not take it any more. -/
  | missed (ht : w.joiner.Deaf c)
  | taken (h : w.Taken c base config r D)

/-- A joiner that has awaited the announcement until now. -/
theorem ferries_of_awaits (hfits : c.entries.Fit) {todo : List Message} (hs : w.sender.Announces c base config r todo)
    (hback : ∀ m ∈ s.outbox c.source, m.id ≠ c.id)
    (ht : w.joiner.Dead ∨ w.joiner.Deaf c ∨ (w.joiner.Awaits c ∧ ∀ a, w.joiner.outbox a = s.outbox a) ∨
      ∀ coming, c.Completes [] coming → w.joiner.Receives c coming []) : w.Ferries c base config r D := by
  rcases ht with ht | ht | ⟨ht, hout⟩ | ht
  · exact .taken (.ended ht)
  · exact .missed ht
  · exact .announced hs ht fun m hm => hback m (hout c.source ▸ hm)
  · refine .taken (.streams hs.supplies (ht _ ?_))
    rw [hs.coming_eq]
    exact Cargo.completes_chunks hfits config

theorem Ferries.moves (hc : c.entries = (base.restrict c.range).entries) (hfits : c.entries.Fit)
    (hr : D c.snapshot = .reconfigure r) (hrange : r.range = c.range)
    (hwithin : ∀ p, c.snapshot ≤ p → (D p).IsWithin c.range) (hw : w.Grounded c base D first)
    (hf : w.Ferries c base config r D) (hm : Moves (outside c.id D) w w') (hjoins : w'.joiner.Joins c.snapshot r) :
    w'.Ferries c base config r D := by
  have hv := hw.sender.follows.released_within hw.sender.reached hwithin
  cases hf with
  | taken h => exact .taken (h.moves hc hr hrange hwithin hw hm hjoins)
  | missed ht =>
    cases hm with
    | sender hm => exact .missed ht
    | joiner hm => exact .missed (ht.moves hm)
    | @forth m rest _ hi => exact .missed (ht.moves (Site.moves_told hi m D))
    | back => exact .missed ⟨ht.joined, ht.transfers⟩
  | announced hs ht hback =>
    cases hm with
    | sender hm =>
      obtain ⟨todo, hs⟩ := hs.moves hc hm hv fun m h => h m rfl
      exact .announced hs ht hback
    | @joiner t hm =>
      exact ferries_of_awaits (w := { w with joiner := t }) hfits hs hback
        (ht.moves (o := outside c.id D) hw.joiner.fed hw.joiner.order (fun m h hid => absurd hid (h m rfl)) hm)
    | @forth m rest hm hi =>
      rw [hw.recipient] at hm ⊢
      refine ferries_of_awaits (w := ⟨_, _⟩) hfits (hs.shift hm) hback
        (ht.moves (o := .only D m) hw.joiner.fed hw.joiner.order ?_ (Site.moves_told hi m D))
      rintro m' ⟨⟩ hid
      exact hs.sent m (List.mem_filter.mpr ⟨hm ▸ .head rest, decide_eq_true hid⟩)
    | @back m rest hm hi =>
      rw [hw.source] at hm ⊢
      obtain ⟨todo, hs⟩ := hs.moves (o := .only D m) hc (Site.moves_told hi m D) hv (by
        rintro m' ⟨⟩
        exact hback m (hm ▸ .head rest))
      refine .announced hs (ht.rests (w.joiner.rests_shift c.source)) fun m' hm' => hback m' ?_
      rw [Site.outbox_shift, if_pos rfl] at hm'
      exact List.mem_of_mem_tail hm'

end Pair
end ReplicaGroup
