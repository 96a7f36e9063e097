import ReplicaGroup.Proofs.Store.Versions
import ReplicaGroup.Proofs.Transfer.Carrying

/-! # Receiving transfers, step by step

A receiving transfer takes the announcement that comes first, whichever it is. From then on the data of the
announced transfer is taken in order: what it has asked to be written, what waits in its mailbox and what is
still to come are the entries of the cargo. -/

namespace ReplicaGroup

/-- Whether a message is data of a transfer. -/
def Message.isData (id : TransferId) : Message → Bool
  | .data id' .. => id' = id
  | .initiate _ | .grant .. => false

namespace Receiver
variable {s : Receiver} {links : Links} {r : Reception}

/-- Before it waits for data, a receiver may have to grant more, which can fail. -/
theorem awaitData_cases (s : Receiver) (links : Links) (r : Reception) :
    (∃ fault, s.awaitData links r = .fail fault) ∨ ∃ granted sent,
      s.awaitData links r = ⟨.waiting { s with phase := .receiving { r with granted } }, sent⟩ ∧
        ∀ d ∈ sent, (Transfer.Report.deed d).request? = none := by
  unfold awaitData Turn.sending
  dsimp only
  split
  · split
    · exact .inl ⟨_, rfl⟩
    · refine .inr ⟨_, _, rfl, fun d hd => ?_⟩
      cases List.mem_singleton.mp hd
      rfl
  · exact .inr ⟨r.granted, [], rfl, by simp⟩

end Receiver

namespace Cargo

/-- The reception of a cargo. -/
def reception (c : Cargo) (granted : Nat) : Reception := ⟨c.announced, c.snapshot, c.version, granted⟩

/-- The requests that write entries of a cargo. -/
def writes (c : Cargo) (es : Entries) : List Request := es.map fun e => .put e.1 e.2 c.version.pred

theorem writes_append (c : Cargo) (front back : Entries) : c.writes (front ++ back) = c.writes front ++ c.writes back :=
  List.map_append

/-- Whether messages hold the entries of a cargo that follow on from `done`. -/
def Completes (c : Cargo) (done : Entries) (messages : List Message) : Prop :=
  ∃ rest, c.entries = done ++ rest ∧ Chunked c.id rest messages

end Cargo

namespace Transfer
variable {c : Cargo} {coming : List Message} {done : Entries} {t : Transfer} {links : Links} {now : Nat}
  {out : Transfer × List Report}

/-! ### Without the cargo -/

/-- Whether a transfer receives under an identifier of its sender. -/
def Stage.IsReceiving (id : TransferId) : Stage → Prop
  | .running (.receiver s) _ =>
    match s.phase with
    | .opening => False
    | .receiving r | .writing r _ => r.announced.id = id
  | .created _ | .running (.sender _) _ | .reported | .stopped => False

instance (id : TransferId) : DecidablePred (Stage.IsReceiving id)
  | .running (.receiver ⟨_, .opening⟩) _ => inferInstanceAs (Decidable False)
  | .running (.receiver ⟨_, .receiving r⟩) _ => inferInstanceAs (Decidable (r.announced.id = id))
  | .running (.receiver ⟨_, .writing r _⟩) _ => inferInstanceAs (Decidable (r.announced.id = id))
  | .created _ | .running (.sender _) _ | .reported | .stopped => inferInstanceAs (Decidable False)

/-- Whether a transfer will never receive under an identifier of its sender. -/
def Stage.IsDeaf (id : TransferId) : Stage → Prop
  | .running (.receiver s) _ =>
    match s.phase with
    | .opening => False
    | .receiving r | .writing r _ => r.announced.id ≠ id
  | .created .receive => False
  | .created (.send ..) | .running (.sender _) _ | .reported | .stopped => True

theorem Stage.IsDeaf.not_receiving {id : TransferId} {stage : Stage} (h : stage.IsDeaf id) : ¬stage.IsReceiving id := by
  intro hr
  cases stage with
  | running run deadline =>
    cases run with
    | sender s => exact hr
    | receiver s =>
      cases hp : s.phase with
      | opening => simp only [IsDeaf, hp] at h
      | receiving r | writing r last =>
        simp only [IsDeaf, hp] at h
        simp only [IsReceiving, hp] at hr
        exact h hr
  | created | reported | stopped => exact hr

/-- The stage after a turn of a run that is deaf if it goes on. -/
theorem isDeaf_resume {id : TransferId} {u : Transfer} {turn : Turn Run}
    (h : ∀ run, turn.progress = .waiting run → ∀ deadline, (Stage.running run deadline).IsDeaf id) :
    (u.resume now turn).1.stage.IsDeaf id := by
  rw [resume_fst]
  obtain ⟨run | outcome, deeds⟩ := turn
  · exact h run rfl _
  · trivial

theorem isDeaf_sender {id : TransferId} {u : Transfer} (turn : Turn Sender) :
    (u.resume now (turn.map .sender)).1.stage.IsDeaf id := by
  refine isDeaf_resume fun run hrun deadline => ?_
  obtain ⟨s | outcome, deeds⟩ := turn
  · cases hrun
    trivial
  · cases hrun

theorem isDeaf_receiver {id : TransferId} {u : Transfer} {turn : Turn Receiver}
    (h : ∀ s, turn.progress = .waiting s → ∀ deadline, (Stage.running (.receiver s) deadline).IsDeaf id) :
    (u.resume now (turn.map .receiver)).1.stage.IsDeaf id := by
  refine isDeaf_resume fun run hrun deadline => ?_
  obtain ⟨s | outcome, deeds⟩ := turn
  · cases hrun
    exact h s rfl deadline
  · cases hrun

theorem isDeaf_awaitData {id : TransferId} {s : Receiver} {r : Reception} (hr : r.announced.id ≠ id) :
    ∀ s', (s.awaitData links r).progress = .waiting s' → ∀ deadline,
      (Stage.running (.receiver s') deadline).IsDeaf id := by
  intro s' hs' deadline
  rcases s.awaitData_cases links r with ⟨fault, h⟩ | ⟨granted, sent, h, -⟩
  · rw [h] at hs'
    cases hs'
  · rw [h] at hs'
    cases hs'
    exact hr

/-- A receiver that has taken another announcement stays with it. -/
theorem isDeaf_signal {id : TransferId} {s : Receiver} {deadline : Nat}
    (h : (Stage.running (.receiver s) deadline).IsDeaf id) (signal : Signal) :
    ∀ s', (s.signal links signal).progress = .waiting s' → ∀ deadline,
      (Stage.running (.receiver s') deadline).IsDeaf id := by
  have waits : ∀ s', (Turn.wait s).progress = .waiting s' → ∀ deadline, (Stage.running (.receiver s') deadline).IsDeaf id := by
    rintro s' ⟨⟩ deadline
    exact h
  intro s' hs' deadline'
  unfold Receiver.signal at hs'
  split at hs'
  · next hp => simp [Stage.IsDeaf, hp] at h
  · next r _ _ _ _ hp =>
    have hr : r.announced.id ≠ id := by simpa [Stage.IsDeaf, hp] using h
    split at hs'
    · unfold Receiver.write at hs'
      split at hs'
      · cases hs'
      · unfold Turn.requesting at hs'
        split at hs'
        · cases hs'
          exact hr
        · cases hs'
    · exact waits s' hs' deadline'
  · next r last _ hp =>
    have hr : r.announced.id ≠ id := by simpa [Stage.IsDeaf, hp] using h
    split at hs'
    · cases hs'
    · exact isDeaf_awaitData (r := { r with granted := r.granted - 1 }) hr s' hs' deadline'
  · cases hs'
  · exact waits s' hs' deadline'

/-- A transfer that does not receive under an identifier goes on without it. -/
theorem isDeaf_goes {id : TransferId} (h : t.stage.IsDeaf id) (hg : t.Goes links now out) : out.1.stage.IsDeaf id := by
  cases hg with
  | @begin errand hs =>
    rw [hs] at h
    cases errand with
    | receive => cases h
    | send outbound scanId => exact isDeaf_sender _
  | @message run deadline m rest hs hl hm =>
    rw [hs] at h
    cases run with
    | sender s => exact isDeaf_sender _
    | receiver s => exact isDeaf_receiver (isDeaf_signal h _)
  | @reply run deadline reply hs hl hr =>
    rw [hs] at h
    cases run with
    | sender s => exact isDeaf_sender _
    | receiver s => exact isDeaf_receiver (isDeaf_signal h _)
  | giveUp fault hs => trivial
  | stop hs => trivial

/-! ### With the cargo -/

/-- Whether a stage has asked for `done` to be written, while the data in the mailbox and what is still coming
    hold the rest. Once its run has ended it takes nothing any more. -/
def Stage.Receives (c : Cargo) (coming : List Message) (done : Entries) (mailbox : List Message) : Stage → Prop
  | .running (.receiver s) _ =>
    match s.phase with
    | .opening => False
    | .receiving r =>
      (∃ granted, r = c.reception granted) ∧ c.Completes done (mailbox.filter (·.isData c.id) ++ coming)
    | .writing r last =>
      (∃ granted, r = c.reception granted) ∧
        if last then c.entries = done else c.Completes done (mailbox.filter (·.isData c.id) ++ coming)
  | .reported | .stopped => True
  | .created _ | .running (.sender _) _ => False

/-- A transfer that receives a cargo. -/
def Receives (c : Cargo) (coming : List Message) (done : Entries) (t : Transfer) : Prop :=
  t.stage.Receives c coming done t.mailbox

/-- What comes is put into the mailbox. -/
theorem Receives.deliver {m : Message} (h : t.Receives c ([m].filter (·.isData c.id) ++ coming) done) :
    Receives c coming done { t with mailbox := t.mailbox ++ [m] } := by
  have hfilter : ∀ mailbox : List Message, mailbox.filter (·.isData c.id) ++ ([m].filter (·.isData c.id) ++ coming) =
      (mailbox ++ [m]).filter (·.isData c.id) ++ coming := fun mailbox => by
    rw [List.filter_append, List.append_assoc]
  unfold Receives Stage.Receives at h ⊢
  simpa only [hfilter] using h

/-- What a step of a receiving transfer does: it asks for more entries to be written, and its run ends well only
    when all are. -/
structure Received (c : Cargo) (coming : List Message) (done : Entries) (t : Transfer) (out : Transfer × List Report)
    (more : Entries) : Prop where
  receives : out.1.Receives c coming (done ++ more)
  requests : ∀ s : Store, s.afterAll (out.2.filterMap Report.request?) = s.afterAll (c.writes more)
  completed : ∀ x ∈ out.2.filterMap Report.completion?, ∀ metadata, x.outcome = .ok metadata →
    metadata = ⟨some c.snapshot, some c.version⟩ ∧ c.entries = done ++ more
  /-- A run that has ended takes nothing more. -/
  ended : t.isOpen = false → more = [] ∧ out.1.isOpen = false
  closed : (∃ x ∈ out.2, x.completion?.isSome ∨ x.isStopped) → out.1.isOpen = false

theorem completion?_resume (t : Transfer) (now : Nat) (turn : Turn Run) :
    (t.resume now turn).2.filterMap Report.completion? =
      match turn.progress with
      | .waiting _ => []
      | .ended outcome => [⟨t.id, t.role, outcome⟩] := by
  have hdeeds : (turn.deeds.map Report.deed).filterMap Report.completion? = [] := by
    rw [List.filterMap_map]
    exact List.filterMap_eq_nil_iff.mpr fun _ _ => rfl
  rw [resume_snd, List.filterMap_append, hdeeds]
  cases turn.progress <;> rfl

/-- A turn of the receiver, as a step of its transfer. -/
theorem received_resume {u : Transfer} (ht : t.isOpen = true) {turn : Turn Receiver} {more : Entries}
    (hstage : ∀ s, turn.progress = .waiting s → ∀ deadline,
      (Stage.running (.receiver s) deadline).Receives c coming (done ++ more) u.mailbox)
    (hend : ∀ metadata, turn.progress = .ended (.ok metadata) →
      metadata = ⟨some c.snapshot, some c.version⟩ ∧ c.entries = done ++ more)
    (hrequests : ∀ s : Store, s.afterAll (turn.deeds.filterMap fun d => (Report.deed d).request?) =
      s.afterAll (c.writes more)) :
    Received c coming done t (u.resume now (turn.map .receiver)) more := by
  refine ⟨?_, fun s => ?_, fun x hx metadata hok => ?_, fun h => ?_, fun hx => ?_⟩
  · rw [Receives, resume_fst]
    obtain ⟨s | outcome, deeds⟩ := turn
    · exact hstage s rfl _
    · trivial
  · rw [request?_resume]
    exact hrequests s
  · rw [completion?_resume] at hx
    obtain ⟨s | outcome, deeds⟩ := turn
    · cases hx
    · cases List.mem_singleton.mp hx
      exact hend metadata (congrArg Progress.ended hok)
  · rw [ht] at h
    cases h
  · rw [resume_fst]
    obtain ⟨s | outcome, deeds⟩ := turn
    · obtain ⟨x, hx, hclosed⟩ := hx
      rw [resume_snd] at hx
      obtain ⟨d, -, rfl⟩ := List.mem_map.mp (List.append_nil (deeds.map Report.deed) ▸ hx)
      rcases hclosed with h | h <;> cases h
    · rfl

/-- A turn that neither writes nor ends well. -/
theorem received_quiet {u : Transfer} (ht : t.isOpen = true) {turn : Turn Receiver}
    (hstage : ∀ s, turn.progress = .waiting s → ∀ deadline,
      (Stage.running (.receiver s) deadline).Receives c coming done u.mailbox)
    (hend : ∀ metadata, turn.progress ≠ .ended (.ok metadata))
    (hdeeds : ∀ d ∈ turn.deeds, (Report.deed d).request? = none) :
    Received c coming done t (u.resume now (turn.map .receiver)) [] := by
  refine received_resume ht ?_ (fun metadata h => absurd h (hend metadata)) fun s => ?_
  · rw [List.append_nil]
    exact hstage
  · rw [List.filterMap_eq_nil_iff.mpr hdeeds]
    rfl

/-- The request of a chunk writes its entries. -/
theorem afterAll_writeRequest (c : Cargo) (granted : Nat) (es : Entries) (s : Store) :
    s.afterAll [Receiver.writeRequest (c.reception granted) es] = s.afterAll (c.writes es) :=
  Store.execute_snapshot _ _ _

/-- A chunk that comes next is asked to be written. -/
theorem received_write {u : Transfer} (ht : t.isOpen = true) {s : Receiver} {granted : Nat} {chunk : UInt32}
    {payload : Bytes} {last : Bool} (h : c.Completes done (.data c.id chunk payload last ::
      (u.mailbox.filter (·.isData c.id) ++ coming))) :
    ∃ more, Received c coming done t
      (u.resume now ((s.write links (c.reception granted) payload last).map .receiver)) more := by
  unfold Receiver.write
  obtain ⟨rest, hentries, hchunked⟩ := h
  have hread : ∃ es, Wire.read Wire.decodeEntries payload = .ok es ∧
      if last then c.entries = done ++ es else c.Completes (done ++ es) (u.mailbox.filter (·.isData c.id) ++ coming) := by
    generalize u.mailbox.filter (·.isData c.id) ++ coming = later at hchunked ⊢
    cases hchunked with
    | last hread => exact ⟨rest, hread, hentries⟩
    | @more es rest' _ _ _ hread hrest =>
      exact ⟨es, hread, rest', by rw [hentries, List.append_assoc], hrest⟩
  obtain ⟨es, hread, hes⟩ := hread
  rw [hread]
  unfold Turn.requesting
  dsimp only
  split
  · refine ⟨es, received_resume ht ?_ (fun metadata h => by cases h) (afterAll_writeRequest c granted es)⟩
    rintro s' ⟨⟩ deadline
    exact ⟨⟨granted, rfl⟩, hes⟩
  · exact ⟨[], received_quiet ht (fun s' h => by cases h) (fun metadata h => by cases h) (by simp [Turn.fail])⟩

/-- Of the messages that come, only data of the cargo is taken; everything else is passed over. -/
theorem received_message {u : Transfer} (ht : t.isOpen = true) {quota granted : Nat} {m : Message}
    (h : c.Completes done ((m :: u.mailbox).filter (·.isData c.id) ++ coming)) :
    ∃ more, Received c coming done t (u.resume now
      ((Receiver.signal links ⟨quota, .receiving (c.reception granted)⟩ (.message m)).map .receiver)) more := by
  have passes : m.isData c.id = false → ∃ more, Received c coming done t (u.resume now
      ((Turn.wait (⟨quota, .receiving (c.reception granted)⟩ : Receiver)).map .receiver)) more := fun hno => by
    rw [List.filter_cons_of_neg (by simp [hno])] at h
    refine ⟨[], received_quiet ht ?_ (fun metadata h => by cases h) (by simp [Turn.wait])⟩
    rintro s' ⟨⟩ deadline
    exact ⟨⟨granted, rfl⟩, h⟩
  cases m with
  | initiate announced => exact passes rfl
  | grant id n => exact passes rfl
  | data id chunk payload last =>
    unfold Receiver.signal
    dsimp only
    split
    · next hid =>
      obtain rfl : id = c.id := hid
      rw [List.filter_cons_of_pos (by simp [Message.isData])] at h
      exact received_write ht h
    · next hid => exact passes (decide_eq_false hid)

/-- Once a chunk is written the receiver has ended, if it was the last one, or waits for the next one. -/
theorem received_written {u : Transfer} (ht : t.isOpen = true) {quota granted : Nat} {last : Bool}
    (h : if last then c.entries = done else c.Completes done (u.mailbox.filter (·.isData c.id) ++ coming))
    (response : Response) : Received c coming done t (u.resume now
      ((Receiver.signal links ⟨quota, .writing (c.reception granted) last⟩ (.response response)).map .receiver)) [] := by
  cases last with
  | true =>
    refine received_resume ht (fun s' h => by cases h) ?_ fun s => rfl
    rintro metadata ⟨⟩
    exact ⟨rfl, by rw [List.append_nil]; exact h⟩
  | false =>
    show Received c coming done t (u.resume now
      ((Receiver.awaitData links ⟨quota, _⟩ { c.reception granted with granted := granted - 1 }).map .receiver)) []
    rcases Receiver.awaitData_cases ⟨quota, _⟩ links { c.reception granted with granted := granted - 1 } with
      ⟨fault, hturn⟩ | ⟨granted', sent, hturn, hsent⟩
    · rw [hturn]
      exact received_quiet ht (fun s' h => by cases h) (fun metadata h => by cases h) (by simp [Turn.fail])
    · rw [hturn]
      refine received_quiet ht ?_ (fun metadata h => by cases h) hsent
      rintro s' ⟨⟩ deadline
      exact ⟨⟨granted', rfl⟩, h⟩

/-- A transfer that receives a cargo goes on receiving it in order. -/
theorem Receives.goes (h : t.Receives c coming done) (hg : t.Goes links now out) :
    ∃ more, Received c coming done t out more := by
  unfold Receives at h
  cases hg with
  | begin hs => rw [hs] at h; cases h
  | @message run deadline m rest hs hl hm =>
    have ht : t.isOpen = true := by rw [isOpen, hs]
    rw [hs, hm] at h
    cases run with
    | sender s => cases h
    | receiver s =>
      obtain ⟨quota, phase⟩ := s
      cases phase with
      | opening => cases h
      | writing r last => cases hl
      | receiving r =>
        obtain ⟨⟨granted, rfl⟩, hcompletes⟩ := h
        exact received_message (u := { t with mailbox := rest }) ht hcompletes
  | @reply run deadline reply hs hl hr =>
    have ht : t.isOpen = true := by rw [isOpen, hs]
    rw [hs] at h
    cases run with
    | sender s => cases h
    | receiver s =>
      obtain ⟨quota, phase⟩ := s
      cases phase with
      | opening => cases hl
      | receiving r => cases hl
      | writing r last =>
        obtain ⟨⟨granted, rfl⟩, hlast⟩ := h
        refine ⟨[], ?_⟩
        show Received c coming done t (resume { t with reply? := none } now
          ((Receiver.signal links ⟨quota, .writing (c.reception granted) last⟩ reply).map .receiver)) []
        cases reply with
        | replyLost =>
          exact received_quiet (u := { t with reply? := none }) ht (fun s' h => by cases h)
            (fun metadata h => by cases h) (by simp [Receiver.signal, Turn.fail])
        | message m =>
          refine received_quiet (u := { t with reply? := none }) ht ?_ (fun metadata h => by cases h)
            (by simp [Receiver.signal, Turn.wait])
          rintro s' ⟨⟩ deadline
          exact ⟨⟨granted, rfl⟩, hlast⟩
        | response response => exact received_written (u := { t with reply? := none }) ht hlast response
  | giveUp fault hs =>
    have ht : t.isOpen = true := by rw [isOpen, hs]
    refine ⟨[], ?_⟩
    show Received c coming done t (t.resume now ((Turn.fail fault : Turn Receiver).map .receiver)) []
    exact received_quiet ht (fun s' h => by cases h) (fun metadata h => by cases h) (by simp [Turn.fail])
  | stop hs =>
    refine ⟨[], trivial, fun s => rfl, fun x hx => (by cases hx), fun _ => ⟨rfl, rfl⟩, fun _ => rfl⟩

/-! ### Before the announcement -/

/-- A receiving transfer that has taken no announcement, and has nothing of a cargo before it but the cargo's. -/
structure Awaits (c : Cargo) (t : Transfer) : Prop where
  stage : t.stage = .created .receive ∨
    ∃ quota deadline, t.stage = .running (.receiver ⟨quota, .opening⟩) deadline
  mailbox : ∀ m ∈ t.mailbox, m.id = c.id → m = .initiate c.announced

theorem Awaits.not_receiving (h : t.Awaits c) : ¬t.stage.IsReceiving c.id := by
  rcases h.stage with hs | ⟨quota, deadline, hs⟩ <;> rw [hs] <;> exact fun hr => hr

/-- Without data in the mailbox all of the cargo is to come. -/
theorem Awaits.filter_eq_nil (h : ∀ m ∈ t.mailbox, m.id = c.id → m = .initiate c.announced) :
    t.mailbox.filter (·.isData c.id) = [] := by
  rw [List.filter_eq_nil_iff]
  intro m hm hdata
  cases m with
  | initiate | grant => cases hdata
  | data id chunk payload last => cases h _ hm (of_decide_eq_true hdata)

/-- The first announcement decides which transfer is received. -/
theorem Awaits.accepts {u : Transfer} (ht : t.isOpen = true) (hmailbox : ∀ m ∈ u.mailbox, m.id = c.id → m = .initiate c.announced)
    {announced : Initiate} (ha : announced.id = c.id → announced = c.announced) (s : Receiver) :
    (u.resume now ((s.accept links announced).map .receiver)).1.stage.IsDeaf c.id ∨
      ∀ coming, c.Completes [] coming → Received c coming [] t (u.resume now ((s.accept links announced).map .receiver)) [] := by
  unfold Receiver.accept
  split
  · next snapshot version hsnapshot hversion =>
    rcases s.awaitData_cases links ⟨announced, snapshot, version, 0⟩ with ⟨fault, hturn⟩ | ⟨granted, sent, hturn, hsent⟩
    · rw [hturn]
      exact .inl (isDeaf_receiver fun s' h => by cases h)
    · rw [hturn]
      by_cases hid : announced.id = c.id
      · obtain rfl := ha hid
        cases hsnapshot
        cases hversion
        refine .inr fun coming hcoming => received_quiet ht ?_ (fun metadata h => by cases h) hsent
        rintro s' ⟨⟩ deadline
        exact ⟨⟨granted, rfl⟩, by rw [filter_eq_nil hmailbox]; exact hcoming⟩
      · refine .inl (isDeaf_receiver ?_)
        rintro s' ⟨⟩ deadline
        exact hid
  · exact .inl (isDeaf_receiver fun s' h => by cases h)

/-- A transfer that waits for an announcement goes on waiting, or takes the cargo's, or is lost to it. -/
theorem Awaits.goes (h : t.Awaits c) (hg : t.Goes links now out) :
    out.1.Awaits c ∧ out.2 = [] ∨ out.1.stage.IsDeaf c.id ∨
      ∀ coming, c.Completes [] coming → Received c coming [] t out [] := by
  cases hg with
  | begin hs =>
    rcases h.stage with hs' | ⟨quota, deadline, hs'⟩
    · cases hs.symm.trans hs'
      exact .inl ⟨⟨.inr ⟨_, _, rfl⟩, h.mailbox⟩, rfl⟩
    · cases hs.symm.trans hs'
  | @message run deadline m rest hs hl hm =>
    rcases h.stage with hs' | ⟨quota, deadline', hs'⟩
    · cases hs.symm.trans hs'
    · cases hs.symm.trans hs'
      have ht : t.isOpen = true := by rw [isOpen, hs]
      have hrest : ∀ m ∈ rest, m.id = c.id → m = .initiate c.announced := fun m hmem =>
        h.mailbox m (hm ▸ .tail _ hmem)
      cases m with
      | initiate announced =>
        refine .inr (accepts (u := { t with mailbox := rest }) ht hrest (fun hid => ?_) ⟨quota, .opening⟩)
        have hmem : .initiate announced ∈ t.mailbox := hm ▸ .head rest
        exact Message.initiate.inj (h.mailbox _ hmem hid)
      | grant | data => exact .inl ⟨⟨.inr ⟨_, _, rfl⟩, hrest⟩, rfl⟩
  | reply hs hl hr =>
    rcases h.stage with hs' | ⟨quota, deadline', hs'⟩
    · cases hs.symm.trans hs'
    · cases hs.symm.trans hs'
      cases hl
  | giveUp fault hs => exact .inr (.inl trivial)
  | stop hs => exact .inr (.inl trivial)

end Transfer
end ReplicaGroup
