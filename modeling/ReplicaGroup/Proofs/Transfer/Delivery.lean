import ReplicaGroup.Proofs.Transfer.Flow

/-! # Transfers deliver what was captured

However the two sides of a transfer, their storage and the channels between them take turns, the transfer
comes to its end, and then the receiver's storage has the captured entries in addition to what it had. -/

namespace ReplicaGroup

/-! ### Writing entries -/

namespace Store

/-- The store after entries are written under a version. -/
def written (s : Store) (es : Entries) (v : Version) : Store := s.afterAll (es.map fun e => .put e.1 e.2 v)

theorem history?_written_of_forall_ne {es : Entries} {k : Key} (h : ∀ e ∈ es, e.1 ≠ k) (s : Store) (v : Version) :
    (s.written es v).history? k = s.history? k := by
  induction es generalizing s with
  | nil => rfl
  | cons e es ih =>
    obtain ⟨he, hes⟩ := List.forall_mem_cons.mp h
    refine (ih hes (s.put e.1 e.2 v)).trans ?_
    rw [history?_put, if_neg he.symm]

/-- Each key is written once. -/
theorem history?_written_of_mem {es : Entries} (ho : es.Pairwise fun a b => a.1 < b.1) {k : Key} {x : Bytes}
    (h : (k, x) ∈ es) (s : Store) (v : Version) :
    (s.written es v).history? k = some (((s.history? k).getD .empty).insert v x) := by
  induction es generalizing s with
  | nil => cases h
  | cons e es ih =>
    obtain ⟨hlt, ho⟩ := List.pairwise_cons.mp ho
    rcases List.mem_cons.mp h with rfl | h
    · have hne : ∀ e ∈ es, e.1 ≠ k := fun e he heq => Std.lt_irrefl (heq ▸ hlt e he)
      refine (history?_written_of_forall_ne hne (s.put k x v) v).trans ?_
      rw [history?_put, if_pos rfl]
    · refine (ih ho h (s.put e.1 e.2 v)).trans ?_
      have hne : k ≠ e.1 := fun heq => Std.lt_irrefl (heq ▸ hlt _ h)
      rw [history?_put, if_neg hne]

end Store

namespace Shipment
variable {c : Shipment}

/-! ### Progress -/

/-- After the announcement, some act of the transfer is possible until both sides have returned: a side that
    listens in vain waits for what the other one has, since what is granted and not taken is on its way. -/
theorem Flows.act {x : Exchange} {left : List Message} {granted? : Option Nat} {done : Entries} {finished : Bool}
    {owed n : Nat} (h : c.Flows x left granted? done finished owed n) :
    (x.sender.returned? = some (.ok c.metadata) ∧ x.receiver.returned? = some (.ok c.metadata)) ∨
      ∃ act, act.isStray = false ∧ (c.step? x act).isSome = true := by
  obtain ⟨sender, receiver, forth, back, introduced⟩ := x
  obtain ⟨hsends, hreceives, -, hcompletes, hbalance⟩ := h
  cases hreceives with
  | granting => exact .inr ⟨.receiver .perform, rfl, rfl⟩
  | asking => exact .inr ⟨.receiver .perform, rfl, rfl⟩
  | asked => exact .inr ⟨.receiver .execute, rfl, rfl⟩
  | answered => exact .inr ⟨.receiver .take, rfl, rfl⟩
  | @listening inbox parts granted hg =>
    cases inbox with
    | cons m inbox => exact .inr ⟨.receiver .take, rfl, rfl⟩
    | nil =>
      cases forth with
      | cons m forth => exact .inr ⟨.reachReceiver, rfl, rfl⟩
      | nil =>
        cases hsends with
        | @streaming inbox out =>
          cases out with
          | cons m out => exact .inr ⟨.sender .perform, rfl, rfl⟩
          | nil =>
            cases inbox with
            | cons m inbox => exact .inr ⟨.sender .take, rfl, rfl⟩
            | nil =>
              cases back with
              | cons m back => exact .inr ⟨.reachSender, rfl, rfl⟩
              -- Nothing is on its way and the sender waits, but the receiver has grants open.
              | nil => exact absurd (hbalance _ rfl) hg
        | ended =>
          cases left with
          | cons m left => exact .inr ⟨.sender .perform, rfl, rfl⟩
          | nil =>
            -- A sender ends with the last chunk, and the receiver would not listen after it.
            obtain ⟨rest, -, hrest⟩ := hcompletes
            cases hrest
  | ended =>
    have hleft : left = [] := (List.append_eq_nil_iff.mp hcompletes.2).2
    cases hsends with
    | streaming => exact absurd (List.append_eq_nil_iff.mp hleft).2 (Sender.chunks_ne_nil _ _ _)
    | ended =>
      subst hleft
      exact .inl ⟨rfl, rfl⟩

/-- Some act of the transfer is possible until both sides have returned. -/
theorem Stage.act {x : Exchange} {n : Nat} (h : c.Stage x n) :
    (x.sender.returned? = some (.ok c.metadata) ∧ x.receiver.returned? = some (.ok c.metadata)) ∨
      ∃ act, act.isStray = false ∧ (c.step? x act).isSome = true := by
  cases h with
  | opening hopens =>
    refine .inr ?_
    cases hopens with
    | asking => exact ⟨.sender .perform, rfl, rfl⟩
    | asked => exact ⟨.sender .execute, rfl, rfl⟩
    | answered => exact ⟨.sender .take, rfl, rfl⟩
    | announcing => exact ⟨.sender .perform, rfl, rfl⟩
    | announced => exact ⟨.reachReceiver, rfl, rfl⟩
  | @introduced front behind =>
    refine .inr ⟨.receiver .take, rfl, ?_⟩
    cases front <;> rfl
  | flowing h => exact h.act

/-! ### Runs -/

theorem stage_start : c.Stage c.start (9 * c.chunks.length + 9) := @Stage.opening c _ [] _ _ .asking (List.forall_mem_nil _)

/-- A run uses up the acts of the transfer, and each stray adds one. -/
theorem Stage.run (hfit : c.captured.Fit) {acts : List Exchange.Act} {x y : Exchange} {n : Nat} (h : c.Stage x n)
    (hrun : c.run acts x = some y) :
    ∃ n', c.Stage y n' ∧ acts.countP (!·.isStray) + n' ≤ n + acts.countP (·.isStray) := by
  induction acts generalizing x n with
  | nil =>
    cases hrun
    exact ⟨n, h, Nat.le_of_eq (Nat.add_comm _ _)⟩
  | cons act acts ih =>
    obtain ⟨z, hz, hrest⟩ := Option.bind_eq_some_iff.mp hrun
    have hgoes := goes_of_step hz
    cases ha : act.isStray with
    | true =>
      cases act with
      | stray m =>
        obtain ⟨n', hy, hn'⟩ := ih (h.stray hgoes) hrest
        refine ⟨n', hy, ?_⟩
        simp only [List.countP_cons, ha, Bool.not_true, Bool.false_eq_true, if_true, if_false]
        omega
      | _ => cases ha
    | false =>
      obtain ⟨k, hz, hk⟩ := h.step hfit ha hgoes
      obtain ⟨n', hy, hn'⟩ := ih hz hrest
      refine ⟨n', hy, ?_⟩
      simp only [List.countP_cons, ha, Bool.not_false, Bool.false_eq_true, if_true, if_false]
      omega

/-- Writing parts one after the other writes all their entries. -/
theorem afterAll_writes (c : Shipment) (s : Store) (parts : List Entries) :
    s.afterAll (parts.map c.write) = s.written parts.flatten c.version.pred := by
  induction parts generalizing s with
  | nil => rfl
  | cons es parts ih =>
    rw [List.flatten_cons, Store.written, List.map_append, Store.afterAll_append]
    refine (ih _).trans ?_
    show ((c.write es).execute s).store.written _ _ = _
    rw [write, Store.execute_snapshot]
    rfl

/-- What is written when the receiver has returned. -/
theorem Flows.delivered {x : Exchange} {left : List Message} {granted? : Option Nat} {done : Entries} {finished : Bool}
    {owed n : Nat} (h : c.Flows x left granted? done finished owed n) {outcome : Except Fault Metadata}
    (hr : x.receiver.returned? = some outcome) :
    outcome = .ok c.metadata ∧ ∃ parts : List Entries, parts.flatten = c.captured ∧
      x.receiver.executed = parts.map c.write ∧ x.receiver.store = c.previous.afterAll (parts.map c.write) := by
  obtain ⟨sender, receiver, forth, back, introduced⟩ := x
  obtain ⟨-, hreceives, -, hcompletes, -⟩ := h
  cases hreceives with
  | @ended inbox parts =>
    cases hr
    exact ⟨rfl, parts, hcompletes.1, rfl, rfl⟩
  | listening | granting | asking | asked | answered => cases hr

theorem Sends.outcome_eq {p : Party Sender} {left : List Message} {granted? : Option Nat} (h : c.Sends p left granted?)
    {outcome : Except Fault Metadata} (hr : p.returned? = some outcome) : outcome = .ok c.metadata := by
  cases h with
  | @streaming inbox out => cases out <;> cases hr
  | ended =>
    cases left with
    | nil =>
      cases hr
      rfl
    | cons m left => cases hr

theorem Stage.outcome_eq {x : Exchange} {n : Nat} (h : c.Stage x n) {outcome : Except Fault Metadata}
    (hr : x.sender.returned? = some outcome) : outcome = .ok c.metadata := by
  cases h with
  | opening hopens => cases hopens <;> cases hr
  | introduced => cases hr
  | flowing h => exact h.sends.outcome_eq hr

theorem Stage.delivered {x : Exchange} {n : Nat} (h : c.Stage x n) {outcome : Except Fault Metadata}
    (hr : x.receiver.returned? = some outcome) :
    outcome = .ok c.metadata ∧ ∃ parts : List Entries, parts.flatten = c.captured ∧
      x.receiver.executed = parts.map c.write ∧ x.receiver.store = c.previous.afterAll (parts.map c.write) := by
  cases h with
  | opening | introduced => cases hr
  | flowing h => exact h.delivered hr

theorem mem_captured_iff {k : Key} {x : Bytes} :
    (k, x) ∈ c.captured ↔ c.range.contains k = true ∧ c.held.visible? k c.version.pred = some x :=
  Scan.mem_shown_iff.trans Scan.shows_read_iff

end Shipment

/-- A transfer delivers what it captured, whatever the sizes of chunks and grants. However both sides, their
    storage and the channels take turns, and whatever goes astray to the receiver: the acts of the transfer are
    bounded but for one more for each stray; as long as not both sides have returned, one is possible; and both
    sides return the metadata. When the receiver has returned, its storage has executed the captured entries as
    puts, each once and in order, and nothing else: each key of the range that the sender's store shows at the
    version before has that value under that version in addition, and no other key has changed. That the captured
    entries fit says that they take less than `2 ^ 64` bytes, as whatever is held in a memory does. -/
theorem transfer_delivers_captured (c : Shipment) (hfit : c.captured.Fit) :
    (c.captured.Pairwise fun a b => a.1 < b.1) ∧
    (∀ k x, (k, x) ∈ c.captured ↔ c.range.contains k = true ∧ c.held.visible? k c.version.pred = some x) ∧
    ∃ bound, ∀ acts x, c.run acts c.start = some x →
      acts.countP (fun act => !act.isStray) ≤ bound + acts.countP (fun act => act.isStray) ∧
      ((x.sender.returned? = some (.ok c.metadata) ∧ x.receiver.returned? = some (.ok c.metadata)) ∨
        ∃ act, act.isStray = false ∧ (c.step? x act).isSome = true) ∧
      (∀ outcome, x.sender.returned? = some outcome → outcome = .ok c.metadata) ∧
      ∀ outcome, x.receiver.returned? = some outcome → outcome = .ok c.metadata ∧
        (∃ parts : List Entries, parts.flatten = c.captured ∧ x.receiver.executed = parts.map c.write) ∧
        (∀ k y, (k, y) ∈ c.captured → x.receiver.store.history? k =
          some (((c.previous.history? k).getD .empty).insert c.version.pred y)) ∧
        ∀ k, (∀ y, (k, y) ∉ c.captured) → x.receiver.store.history? k = c.previous.history? k := by
  refine ⟨Scan.shown_ordered, fun k x => Shipment.mem_captured_iff, 9 * c.chunks.length + 9, fun acts x hrun => ?_⟩
  obtain ⟨n, hstage, hn⟩ := Shipment.stage_start.run hfit hrun
  refine ⟨by omega, hstage.act, fun outcome hr => hstage.outcome_eq hr, fun outcome hr => ?_⟩
  obtain ⟨houtcome, parts, hparts, hexecuted, hstore⟩ := hstage.delivered hr
  rw [c.afterAll_writes, hparts] at hstore
  refine ⟨houtcome, ⟨parts, hparts, hexecuted⟩, fun k y hy => ?_, fun k hk => ?_⟩
  · rw [hstore]
    exact Store.history?_written_of_mem Scan.shown_ordered hy _ _
  · rw [hstore]
    refine Store.history?_written_of_forall_ne (fun e he heq => hk e.2 ?_) _ _
    rw [← heq]
    exact he

/-- Two entries in two chunks, a newer version that is not captured, an older version in the way, sizes of zero,
    and a stray of each kind. -/
theorem delivery_of_two_chunks :
    let c : Shipment :=
      { id := ⟨9⟩, source := .name "a", recipient := .name "b", range := .full, snapshot := 5, version := 2, scanId := ⟨1⟩
        chunkEntries := 0, quota := 0
        held := ((Store.empty.put ⟨[97]⟩ [1] 1).put ⟨[97]⟩ [2] 2).put ⟨[98]⟩ [3] 0
        previous := Store.empty.put ⟨[97]⟩ [9] 0 }
    let acts : List Exchange.Act :=
      [.sender .perform, .stray (.grant ⟨9⟩ 7), .sender .execute, .sender .take, .sender .perform, .receiver .take,
        .stray (.data ⟨8⟩ 0 [] true), .reachReceiver, .stray (.initiate ⟨⟨8⟩, .name "c", .full, ⟨none, none⟩⟩),
        .receiver .take, .receiver .take, .receiver .perform, .reachSender, .sender .take, .sender .perform,
        .reachReceiver, .receiver .take, .receiver .take, .receiver .perform, .receiver .execute, .receiver .take,
        .receiver .perform, .reachSender, .sender .take, .sender .perform, .reachReceiver, .receiver .take,
        .receiver .perform, .receiver .execute, .receiver .take]
    c.captured.Fit ∧ ∃ x, c.run acts c.start = some x ∧ x.sender.returned? = some (.ok c.metadata) ∧
      x.receiver.returned? = some (.ok c.metadata) ∧
      (x.receiver.store.history? ⟨[97]⟩).map (·.entries) = some [(0, [9]), (1, [1])] ∧
      (x.receiver.store.history? ⟨[98]⟩).map (·.entries) = some [(1, [3])] := by
  intro c acts
  have hfit : c.captured.Fit := show (Wire.encodeEntries c.captured).length < 2 ^ 64 by decide
  generalize hrun : c.run acts c.start = run
  have hdone : run.map (fun x => (x.sender.returned?.isSome, x.receiver.returned?.isSome)) = some (true, true) := by
    rw [← hrun]
    decide
  obtain ⟨x, rfl, hx⟩ := Option.map_eq_some_iff.mp hdone
  obtain ⟨hsender, hreceiver⟩ := Prod.mk.inj hx
  obtain ⟨-, -, bound, hdelivers⟩ := transfer_delivers_captured c hfit
  obtain ⟨-, -, hsent, hreceived⟩ := hdelivers acts x hrun
  obtain ⟨sent, hs⟩ := Option.isSome_iff_exists.mp hsender
  obtain ⟨received, hr⟩ := Option.isSome_iff_exists.mp hreceiver
  obtain ⟨hok, -, hwritten, -⟩ := hreceived received hr
  refine ⟨hfit, x, rfl, hs.trans (congrArg some (hsent sent hs)), hr.trans (congrArg some hok), ?_, ?_⟩
  · rw [hwritten ⟨[97]⟩ [1] (by decide)]
    decide
  · rw [hwritten ⟨[98]⟩ [3] (by decide)]
    decide

end ReplicaGroup
