import ReplicaGroup.Proofs.Store.Versions
import ReplicaGroup.Proofs.Transfer.Exchange

/-! # The flow of a transfer

What the two sides of a transfer and everything on the way between them keep to. Before the announcement is
taken, only the sender is at work. From then on, what the receiver has taken and what is still on its way are
the captured entries in order; and what it has granted and not taken is on its way too, as a grant, as data or
as chunks that the sender may send. So a receiver that listens is never left with nothing to come, and a
sender that waits is never left without a grant. Each stage bounds the acts that are still possible. -/

namespace ReplicaGroup

/-! ### The capture -/

theorem Scan.shows_read_iff {id : OpId} {range : KeyRange} {ceiling : Version} {s : Store} {k : Key} {x : Bytes} :
    (Scan.read id range ceiling).Shows s k x ↔ range.contains k = true ∧ s.visible? k ceiling = some x := by
  refine and_congr_right fun _ => ?_
  simp only [Store.visible?, Option.bind_eq_some_iff, History.visible?_eq_some_iff]
  constructor
  · rintro ⟨h, v, stored, hh, hv, hle, hmax, hkeep⟩
    cases hkeep
    exact ⟨h, hh, v, hv, hle, hmax⟩
  · rintro ⟨h, hh, v, hv, hle, hmax⟩
    exact ⟨h, v, x, hh, hv, hle, hmax, rfl⟩

/-- A read of a range is answered with what it shows. -/
theorem Request.execute_shown (id : OpId) (range : KeyRange) (ceiling : Version) (s : Store) :
    ∃ result, ((Request.scan (.read id range ceiling)).execute s).response = .scan result ∧
      result.results.entries = (Scan.read id range ceiling).shown s := by
  refine ⟨_, execute_scan_response (Scan.run_idle rfl s).2, ?_⟩
  exact (Scan.entries_results _ s).trans (Budget.admitted_unlimited _ _ _)

/-! ### What each side does -/

namespace Sender
variable {s : Sender} {links : Links}

/-- A sender whose messages are carried sends as many chunks as it is granted, or all that are left. -/
theorem stream_cases (hc : ∀ m, links.carries s.outbound.recipient m = .ok ()) (quota sent : Nat) (rest : Entries) :
    (∃ front n left, front.length = quota ∧ s.chunks sent rest = front ++ s.chunks n left ∧
      s.stream links quota sent rest =
        ⟨.waiting { s with phase := .streaming n left }, front.map (.send s.outbound.recipient)⟩) ∨
    s.stream links quota sent rest =
      ⟨.ended (.ok s.outbound.metadata), (s.chunks sent rest).map (.send s.outbound.recipient)⟩ := by
  rw [stream_eq hc]
  by_cases hq : quota < (s.chunks sent rest).length
  · refine .inl ⟨(s.chunks sent rest).take quota, sent + quota, rest.drop (quota * s.chunkSize), ?_, ?_, if_pos hq⟩
    · exact List.length_take_of_le (Nat.le_of_lt hq)
    · rw [← drop_chunks hq, List.take_append_drop]
  · exact .inr (if_neg hq)

end Sender

theorem Chunked.isData {id : TransferId} {es : Entries} {l : List Message} (h : Chunked id es l) :
    ∀ m ∈ l, m.isData id = true := by
  induction h with
  | last h => exact fun m hm => List.mem_singleton.mp hm ▸ decide_eq_true rfl
  | more h hl ih => exact List.forall_mem_cons.mpr ⟨decide_eq_true rfl, ih⟩

/-- The chunks that a message grants. -/
def Message.quota : Message → Nat
  | .grant _ quota => quota
  | .initiate _ | .data .. => 0

theorem Links.towards_carries (a : Addr) (m : Message) : (Links.towards a).carries a m = .ok () := if_pos rfl

namespace Shipment
variable {c : Shipment}

/-- The sender in a phase. -/
def sender (c : Shipment) (phase : Sender.Phase) : Sender := ⟨c.outbound, c.source, c.chunkEntries, phase⟩

/-- The receiver in a phase. -/
def receiver (c : Shipment) (phase : Receiver.Phase) : Receiver := ⟨c.quota, phase⟩

def capture (c : Shipment) : Request := .scan (.read c.scanId c.range c.version.pred)

def initiate (c : Shipment) : Initiate := ⟨c.id, c.source, c.range, c.metadata⟩

def reception (c : Shipment) (granted : Nat) : Reception := ⟨c.initiate, c.snapshot, c.version, granted⟩

/-- The grant of the receiver. -/
def grant (c : Shipment) : Message := .grant c.id (max 1 c.quota)

/-- All chunks of the transfer. -/
def chunks (c : Shipment) : List Message := (c.sender .capturing).chunks 0 c.captured

/-- The data of the transfer among messages. -/
def data (c : Shipment) (l : List Message) : List Message := l.filter (·.isData c.id)

/-- The chunks that messages grant. -/
def quotas (l : List Message) : Nat := (l.map Message.quota).sum

/-! ### The invariant -/

/-- A sender that has not been told of the receiver yet, the messages on the way, and the acts that it takes
    until it has announced the transfer. -/
inductive Opens (c : Shipment) : Party Sender → (forth : List Message) → Nat → Prop
  | asking : Opens c { progress := .waiting (c.sender .capturing), todo := [.request c.capture], store := c.held } [] 9
  | asked : Opens c { progress := .waiting (c.sender .capturing), queue := [c.capture], store := c.held } [] 8
  | answered {result : ScanResult} (h : result.results.entries = c.captured) :
    Opens c
      { progress := .waiting (c.sender .capturing), reply? := some (.scan result), store := c.held
        executed := [c.capture] } [] 7
  | announcing :
    Opens c
      { progress := .waiting (c.sender (.streaming 0 c.captured)), todo := [.send c.recipient (.initiate c.initiate)]
        store := c.held, executed := [c.capture] } [] 6
  | announced :
    Opens c { progress := .waiting (c.sender (.streaming 0 c.captured)), store := c.held, executed := [c.capture] }
      [.initiate c.initiate] 5

/-- A sender that has announced the transfer: the messages that it still sends, and, as long as it takes
    grants, the chunks that it has been granted and not sent. -/
inductive Sends (c : Shipment) : Party Sender → (left : List Message) → (granted? : Option Nat) → Prop
  | streaming {inbox out : List Message} {n : Nat} {rest : Entries} (hin : ∀ m ∈ inbox, ∃ id quota, m = .grant id quota) :
    Sends c
      { progress := .waiting (c.sender (.streaming n rest)), todo := out.map (.send c.recipient), inbox
        store := c.held, executed := [c.capture] }
      (out ++ (c.sender .capturing).chunks n rest) (some (out.length + quotas inbox))
  | ended {inbox out : List Message} :
    Sends c
      { progress := .ended (.ok c.metadata), todo := out.map (.send c.recipient), inbox
        store := c.held, executed := [c.capture] }
      out none

/-- A receiver that has taken the announcement: the entries that it has taken, whether it has taken the last
    chunk, the chunks that it has granted and not taken, and the acts that it takes until it listens again. -/
inductive Receives (c : Shipment) : Party Receiver → (done : Entries) → (finished : Bool) → (owed acts : Nat) → Prop
  | listening {inbox : List Message} {parts : List Entries} {granted : Nat} (hg : granted ≠ 0) :
    Receives c
      { progress := .waiting (c.receiver (.receiving (c.reception granted))), inbox
        store := c.previous.afterAll (parts.map c.write), executed := parts.map c.write }
      parts.flatten false granted 0
  | granting {inbox : List Message} {parts : List Entries} :
    Receives c
      { progress := .waiting (c.receiver (.receiving (c.reception (max 1 c.quota)))), todo := [.send c.source c.grant], inbox
        store := c.previous.afterAll (parts.map c.write), executed := parts.map c.write }
      parts.flatten false 0 3
  | asking {inbox : List Message} {parts : List Entries} {es : Entries} {granted : Nat} {last : Bool} :
    Receives c
      { progress := .waiting (c.receiver (.writing (c.reception granted) last)), todo := [.request (c.write es)], inbox
        store := c.previous.afterAll (parts.map c.write), executed := parts.map c.write }
      (parts.flatten ++ es) last (granted - 1) 6
  | asked {inbox : List Message} {parts : List Entries} {es : Entries} {granted : Nat} {last : Bool} :
    Receives c
      { progress := .waiting (c.receiver (.writing (c.reception granted) last)), queue := [c.write es], inbox
        store := c.previous.afterAll (parts.map c.write), executed := parts.map c.write }
      (parts.flatten ++ es) last (granted - 1) 5
  | answered {inbox : List Message} {parts : List Entries} {granted : Nat} {last : Bool} {r : Response} :
    Receives c
      { progress := .waiting (c.receiver (.writing (c.reception granted) last)), reply? := some r, inbox
        store := c.previous.afterAll (parts.map c.write), executed := parts.map c.write }
      parts.flatten last (granted - 1) 4
  | ended {inbox : List Message} {parts : List Entries} {owed : Nat} :
    Receives c
      { progress := .ended (.ok c.metadata), inbox
        store := c.previous.afterAll (parts.map c.write), executed := parts.map c.write }
      parts.flatten true owed 0

/-- What is still to come after the entries `done`, if anything. -/
def Completes (c : Shipment) (done : Entries) (finished : Bool) (coming : List Message) : Prop :=
  if finished then done = c.captured ∧ coming = [] else ∃ rest, c.captured = done ++ rest ∧ Chunked c.id rest coming

/-- Both sides after the announcement. Whatever the receiver has granted and not taken is on its way as data
    or as a grant, as long as the sender takes grants. -/
structure Flows (c : Shipment) (x : Exchange) (left : List Message) (granted? : Option Nat) (done : Entries)
    (finished : Bool) (owed acts : Nat) : Prop where
  sends : c.Sends x.sender left granted?
  receives : c.Receives x.receiver done finished owed acts
  grants : ∀ m ∈ x.back, ∃ id quota, m = .grant id quota
  completes : c.Completes done finished (c.data x.receiver.inbox ++ x.forth ++ left)
  balance : ∀ n, granted? = some n → owed = (c.data x.receiver.inbox).length + x.forth.length + n + quotas x.back

/-- The acts that both sides take at most: each chunk is sent, gets there, and is taken, written and answered
    for, and may need a grant, which is sent, gets there and is taken. -/
def actsLeft (c : Shipment) (x : Exchange) (left : List Message) (acts : Nat) : Nat :=
  9 * left.length + 8 * x.forth.length + 6 * (c.data x.receiver.inbox).length + x.receiver.inbox.length + acts +
    2 * x.back.length + x.sender.inbox.length

/-- The stages of a transfer, each with the acts that it takes at most from there on. -/
inductive Stage (c : Shipment) : Exchange → Nat → Prop
  | opening {p : Party Sender} {inbox forth : List Message} {n : Nat} (hs : c.Opens p forth n)
    (hin : ∀ m ∈ inbox, c.passes m = true) :
    Stage c
      ⟨p, { progress := .waiting (c.receiver .opening), inbox, store := c.previous }, forth, [], false⟩
      (9 * c.chunks.length + inbox.length + n)
  | introduced {front behind : List Message} (hfront : ∀ m ∈ front, c.passes m = true) (hbehind : c.data behind = []) :
    Stage c
      ⟨{ progress := .waiting (c.sender (.streaming 0 c.captured)), store := c.held, executed := [c.capture] },
        { progress := .waiting (c.receiver .opening), inbox := front ++ .initiate c.initiate :: behind
          store := c.previous }, [], [], true⟩
      (9 * c.chunks.length + (front.length + 1 + behind.length) + 3)
  | flowing {x : Exchange} {left : List Message} {granted? : Option Nat} {done : Entries} {finished : Bool}
    {owed n : Nat} (h : c.Flows x left granted? done finished owed n) (hi : x.introduced = true) :
    Stage c x (c.actsLeft x left n)

/-! ### Steps -/

/-- What the sender is doing does not change the chunks. -/
theorem chunks_sender (phase : Sender.Phase) (n : Nat) (rest : Entries) :
    (c.sender phase).chunks n rest = (c.sender .capturing).chunks n rest :=
  Sender.chunks_phase (s := c.sender .capturing) phase

/-- When it has the entries, the sender announces the transfer. -/
theorem signal_capturing (result : ScanResult) :
    (c.sender .capturing).signal (.towards c.recipient) (.response (.scan result)) =
      ⟨.waiting (c.sender (.streaming 0 result.results.entries)), [.send c.recipient (.initiate c.initiate)]⟩ := by
  show Turn.sending _ c.recipient _ _ = _
  rw [Turn.sending, Links.towards_carries]
  rfl

/-- Granted chunks are sent, up to the last one. -/
theorem signal_streaming (id : TransferId) (quota n : Nat) (rest : Entries) :
    (∃ front n' left, front.length = quota ∧
      (c.sender .capturing).chunks n rest = front ++ (c.sender .capturing).chunks n' left ∧
      (c.sender (.streaming n rest)).signal (.towards c.recipient) (.message (.grant id quota)) =
        ⟨.waiting (c.sender (.streaming n' left)), front.map (.send c.recipient)⟩) ∨
    (c.sender (.streaming n rest)).signal (.towards c.recipient) (.message (.grant id quota)) =
      ⟨.ended (.ok c.metadata), ((c.sender .capturing).chunks n rest).map (.send c.recipient)⟩ := by
  have hcases := @Sender.stream_cases (c.sender (.streaming n rest)) (.towards c.recipient) (Links.towards_carries _) quota n rest
  simp only [chunks_sender] at hcases
  exact hcases

theorem Opens.step {p p' : Party Sender} {forth sent : List Message} {n : Nat} {act : Party.Act} (h : c.Opens p forth n)
    (hs : p.step? Sender.isListening (fun signal s => s.signal (.towards c.recipient) signal) act = some (p', sent)) :
    ∃ n', c.Opens p' (forth ++ sent) n' ∧ n' < n := by
  cases h with
  | asking =>
    cases act with
    | perform =>
      cases hs
      exact ⟨8, .asked, by decide⟩
    | take => cases hs
    | execute => cases hs
  | asked =>
    cases act with
    | perform => cases hs
    | take => cases hs
    | execute =>
      -- What is captured is what the store shows when it executes the scan.
      obtain ⟨result, hresponse, hentries⟩ := Request.execute_shown c.scanId c.range c.version.pred c.held
      have hstore := Request.execute_read c.scanId c.range c.version.pred c.held
      cases hs
      refine ⟨7, ?_, by decide⟩
      simp only [capture, hresponse, hstore]
      exact .answered hentries
  | @answered result hentries =>
    cases act with
    | perform => cases hs
    | take =>
      change some (Party.enter _ ((c.sender .capturing).signal _ _), []) = _ at hs
      rw [signal_capturing, hentries] at hs
      cases hs
      exact ⟨6, .announcing, by decide⟩
    | execute => cases hs
  | announcing =>
    cases act with
    | perform =>
      cases hs
      exact ⟨5, .announced, by decide⟩
    | take => cases hs
    | execute => cases hs
  | announced => cases act <;> cases hs

/-- The sender sends in order what is left; a grant that it takes is what it may send then. -/
theorem Sends.step {p p' : Party Sender} {left sent : List Message} {granted? : Option Nat} {act : Party.Act}
    (h : c.Sends p left granted?)
    (hs : p.step? Sender.isListening (fun signal s => s.signal (.towards c.recipient) signal) act = some (p', sent)) :
    ∃ left' granted?', c.Sends p' left' granted?' ∧ left = sent ++ left' ∧
      (∀ n, granted?' = some n → granted? = some (sent.length + n)) ∧
      p'.inbox.length < p.inbox.length + sent.length := by
  cases h with
  | @streaming inbox out n rest hin =>
    cases act with
    | perform =>
      cases out with
      | nil => cases hs
      | cons m out =>
        cases hs
        refine ⟨_, _, .streaming hin, rfl, fun k hk => ?_, Nat.lt_succ_self _⟩
        cases hk
        simp only [List.length_cons, List.length_nil, Option.some.injEq]
        omega
    | take =>
      cases out with
      | cons m out => cases hs
      | nil =>
        cases inbox with
        | nil => cases hs
        | cons m inbox =>
          obtain ⟨⟨id, quota, rfl⟩, hinbox⟩ := List.forall_mem_cons.mp hin
          change some (Party.enter _ ((c.sender (.streaming n rest)).signal _ _), []) = _ at hs
          rcases signal_streaming id quota n rest with ⟨front, n', left, hlen, hsplit, hturn⟩ | hturn
          · rw [hturn] at hs
            cases hs
            refine ⟨_, _, .streaming hinbox, hsplit, fun k hk => ?_, Nat.lt_succ_self _⟩
            cases hk
            simp [quotas, Message.quota, hlen]
          · rw [hturn] at hs
            cases hs
            exact ⟨_, _, .ended, rfl, fun k hk => (by cases hk), Nat.lt_succ_self _⟩
    | execute => cases hs
  | ended =>
    -- What is queued still goes out after the run has ended.
    cases act with
    | perform =>
      cases left with
      | nil => cases hs
      | cons m left =>
        cases hs
        exact ⟨_, _, .ended, rfl, fun k hk => (by cases hk), Nat.lt_succ_self _⟩
    | take => cases left <;> cases hs
    | execute => cases hs

/-- Before the announcement, the receiver passes everything else over. -/
theorem signal_opening_of_passes {m : Message} (hm : c.passes m = true) (links : Links) :
    (c.receiver .opening).signal links (.message m) = .wait (c.receiver .opening) := by
  cases m with
  | initiate announced => cases hm
  | grant id quota => rfl
  | data id n payload last => rfl

/-- The receiver answers the announcement with a grant. -/
theorem signal_opening :
    (c.receiver .opening).signal (.towards c.source) (.message (.initiate c.initiate)) =
      ⟨.waiting (c.receiver (.receiving (c.reception (max 1 c.quota)))), [.send c.source c.grant]⟩ := by
  show Turn.sending _ c.source _ _ = _
  rw [Turn.sending, Links.towards_carries]
  rfl

/-- Afterwards it passes over what is not data of the transfer. -/
theorem signal_receiving_of_not_isData {m : Message} (hm : m.isData c.id = false) (links : Links) (granted : Nat) :
    (c.receiver (.receiving (c.reception granted))).signal links (.message m) =
      .wait (c.receiver (.receiving (c.reception granted))) := by
  cases m with
  | initiate announced => rfl
  | grant id quota => rfl
  | data id n payload last => exact if_neg (of_decide_eq_false hm)

/-- Data of the transfer is written. -/
theorem signal_receiving {payload : Bytes} {es : Entries} (h : Wire.read Wire.decodeEntries payload = .ok es)
    (granted : Nat) (n : UInt32) (last : Bool) :
    (c.receiver (.receiving (c.reception granted))).signal (.towards c.source) (.message (.data c.id n payload last)) =
      ⟨.waiting (c.receiver (.writing (c.reception granted) last)), [.request (c.write es)]⟩ := by
  refine (if_pos rfl).trans ?_
  rw [Receiver.write, h]
  rfl

/-- After a chunk is written the receiver ends or goes on, with a new grant if the last one is used up. -/
theorem signal_writing (granted : Nat) (last : Bool) (r : Response) :
    (c.receiver (.writing (c.reception granted) last)).signal (.towards c.source) (.response r) =
      if last then .finish c.metadata
      else if granted - 1 = 0 then
        ⟨.waiting (c.receiver (.receiving (c.reception (max 1 c.quota)))), [.send c.source c.grant]⟩
      else .wait (c.receiver (.receiving (c.reception (granted - 1)))) := by
  show (if last then _ else Receiver.awaitData _ _ _) = _
  congr 1
  unfold Receiver.awaitData
  refine ite_congr rfl (fun _ => ?_) fun _ => rfl
  show Turn.sending _ c.source _ _ = _
  rw [Turn.sending, Links.towards_carries]
  rfl

/-- What an act of the receiver does to what it has taken: nothing, or it takes the next chunk. -/
inductive Gets (c : Shipment) (p p' : Party Receiver) (sent : List Message) (done : Entries) (finished : Bool) (owed acts : Nat) : Prop
  | nothing (acts' : Nat) (h : c.Receives p' done finished (owed + quotas sent) acts')
    (hsent : ∀ m ∈ sent, ∃ id quota, m = .grant id quota) (hdata : c.data p'.inbox = c.data p.inbox)
    (hacts : p'.inbox.length + acts' + 2 * sent.length < p.inbox.length + acts)
  | chunk (n : UInt32) (payload : Bytes) (last : Bool) (hsent : sent = []) (hfin : finished = false)
    (howed : owed ≠ 0) (hacts : acts = 0) (hlen : p.inbox.length = p'.inbox.length + 1)
    (hdata : c.data p.inbox = .data c.id n payload last :: c.data p'.inbox)
    (h : ∀ es, Wire.read Wire.decodeEntries payload = .ok es → c.Receives p' (done ++ es) last (owed - 1) 6)

/-- Storage that has written one more part. -/
theorem afterAll_write (parts : List Entries) (es : Entries) :
    ((c.write es).execute (c.previous.afterAll (parts.map c.write))).store =
      c.previous.afterAll ((parts ++ [es]).map c.write) := by
  rw [List.map_append, Store.afterAll_append]
  rfl

/-- A listening receiver takes the next chunk, or passes a message over. -/
theorem gets_listening {inbox : List Message} {parts : List Entries} {granted : Nat} (hg : granted ≠ 0) (m : Message) :
    c.Gets
      { progress := .waiting (c.receiver (.receiving (c.reception granted))), inbox := m :: inbox
        store := c.previous.afterAll (parts.map c.write), executed := parts.map c.write }
      (Party.enter
        { progress := .waiting (c.receiver (.receiving (c.reception granted))), inbox
          store := c.previous.afterAll (parts.map c.write), executed := parts.map c.write }
        ((c.receiver (.receiving (c.reception granted))).signal (.towards c.source) (.message m)))
      [] parts.flatten false granted 0 := by
  by_cases hm : m.isData c.id = true
  · cases m with
    | initiate announced => cases hm
    | grant id quota => cases hm
    | data id n payload last =>
      obtain rfl : id = c.id := of_decide_eq_true hm
      refine .chunk n payload last rfl rfl hg rfl rfl (List.filter_cons_of_pos hm) fun es hes => ?_
      rw [signal_receiving hes]
      exact .asking
  · rw [signal_receiving_of_not_isData (Bool.eq_false_iff.mpr hm)]
    refine .nothing _ (.listening hg) (by simp) ?_ (Nat.lt_succ_self _)
    exact (List.filter_cons_of_neg hm).symm

/-- A receiver that takes the answer to a write has ended, or sends a grant, or listens again. -/
theorem gets_answered {inbox : List Message} {parts : List Entries} {granted : Nat} (last : Bool) (r : Response) :
    c.Gets
      { progress := .waiting (c.receiver (.writing (c.reception granted) last)), reply? := some r, inbox
        store := c.previous.afterAll (parts.map c.write), executed := parts.map c.write }
      (Party.enter
        { progress := .waiting (c.receiver (.writing (c.reception granted) last)), inbox
          store := c.previous.afterAll (parts.map c.write), executed := parts.map c.write }
        ((c.receiver (.writing (c.reception granted) last)).signal (.towards c.source) (.response r)))
      [] parts.flatten last (granted - 1) 4 := by
  have hless : inbox.length + 0 + 2 * 0 < inbox.length + 4 := by omega
  rw [signal_writing]
  cases last with
  | true => exact .nothing _ .ended (by simp) rfl hless
  | false =>
    rw [if_neg Bool.false_ne_true]
    by_cases hg : granted - 1 = 0
    · rw [if_pos hg, hg]
      exact .nothing _ .granting (by simp) rfl (Nat.lt_succ_self _)
    · rw [if_neg hg]
      exact .nothing _ (.listening hg) (by simp) rfl hless

theorem Receives.step {p p' : Party Receiver} {sent : List Message} {done : Entries} {finished : Bool}
    {owed acts : Nat} {act : Party.Act} (h : c.Receives p done finished owed acts)
    (hs : p.step? Receiver.isListening (fun signal s => s.signal (.towards c.source) signal) act = some (p', sent)) :
    c.Gets p p' sent done finished owed acts := by
  cases h with
  | @listening inbox parts granted hg =>
    cases act with
    | perform => cases hs
    | take =>
      cases inbox with
      | nil => cases hs
      | cons m inbox =>
        cases hs
        exact gets_listening hg m
    | execute => cases hs
  | granting =>
    cases act with
    | perform =>
      cases hs
      refine .nothing 0 ?_ ?_ rfl (by simp)
      · have hquotas : 0 + quotas [c.grant] = max 1 c.quota := by simp [quotas, grant, Message.quota]
        rw [hquotas]
        exact .listening (by omega)
      · rintro m hm
        exact ⟨_, _, List.mem_singleton.mp hm⟩
    | take => cases hs
    | execute => cases hs
  | asking =>
    cases act with
    | perform =>
      cases hs
      exact .nothing _ .asked (by simp) rfl (Nat.lt_succ_self _)
    | take => cases hs
    | execute => cases hs
  | @asked inbox parts es granted =>
    cases act with
    | perform => cases hs
    | take => cases hs
    | execute =>
      cases hs
      refine .nothing 4 ?_ (by simp) rfl (Nat.lt_succ_self _)
      -- Executing the write adds the entries of the chunk to those stored.
      simp only [afterAll_write]
      have hdone : parts.flatten ++ es = (parts ++ [es]).flatten := by simp
      rw [hdone]
      have hexecuted : parts.map c.write ++ [c.write es] = (parts ++ [es]).map c.write := by simp
      rw [hexecuted]
      exact .answered
  | @answered inbox parts granted last r =>
    cases act with
    | perform => cases hs
    | take =>
      cases hs
      exact gets_answered finished r
    | execute => cases hs
  | ended => cases act <;> cases hs

/-! #### Messages that arrive -/

theorem Sends.arrive {p : Party Sender} {left : List Message} {granted? : Option Nat} (h : c.Sends p left granted?)
    (id : TransferId) (quota : Nat) :
    c.Sends { p with inbox := p.inbox ++ [.grant id quota] } left (granted?.map (· + quota)) := by
  cases h with
  | @streaming inbox out n rest hin =>
    have hgranted : some (out.length + quotas inbox + quota) = some (out.length + quotas (inbox ++ [.grant id quota])) := by
      simp [quotas, Message.quota, Nat.add_assoc]
    rw [Option.map_some, hgranted]
    refine .streaming fun m hm => ?_
    rcases List.mem_append.mp hm with hm | hm
    · exact hin m hm
    · exact ⟨id, quota, List.mem_singleton.mp hm⟩
  | ended => exact .ended

theorem Receives.arrive {p : Party Receiver} {done : Entries} {finished : Bool} {owed acts : Nat}
    (h : c.Receives p done finished owed acts) (m : Message) :
    c.Receives { p with inbox := p.inbox ++ [m] } done finished owed acts := by
  cases h with
  | listening hg => exact .listening hg
  | granting => exact .granting
  | asking => exact .asking
  | asked => exact .asked
  | answered => exact .answered
  | ended => exact .ended

theorem data_concat_of_isData {m : Message} (hm : m.isData c.id = true) (l : List Message) :
    c.data (l ++ [m]) = c.data l ++ [m] := by
  rw [data, List.filter_append, List.filter_cons_of_pos hm]
  rfl

theorem data_concat_of_not_isData {m : Message} (hm : ¬m.isData c.id = true) (l : List Message) :
    c.data (l ++ [m]) = c.data l := by
  rw [data, List.filter_append, List.filter_cons_of_neg hm]
  exact List.append_nil _

theorem Completes.isData {done : Entries} {finished : Bool} {coming : List Message}
    (h : c.Completes done finished coming) : ∀ m ∈ coming, m.isData c.id = true := by
  cases finished with
  | true => exact h.2 ▸ List.forall_mem_nil _
  | false =>
    obtain ⟨rest, -, hrest⟩ := h
    exact hrest.isData

/-- The next chunk holds the next entries. -/
theorem Completes.next {done : Entries} {n : UInt32} {payload : Bytes} {last : Bool} {coming : List Message}
    (h : c.Completes done false (.data c.id n payload last :: coming)) :
    ∃ es, Wire.read Wire.decodeEntries payload = .ok es ∧ c.Completes (done ++ es) last coming := by
  obtain ⟨rest, hcaptured, hrest⟩ := h
  cases hrest with
  | last h => exact ⟨rest, h, hcaptured.symm, rfl⟩
  | more h hl =>
    next es rest =>
    exact ⟨es, h, rest, by rw [hcaptured, List.append_assoc], hl⟩

/-! #### Steps of both sides -/

/-- After the announcement, an act of the transfer moves it on. -/
theorem Flows.step {x y : Exchange} {left : List Message} {granted? : Option Nat} {done : Entries} {finished : Bool}
    {owed n : Nat} (h : c.Flows x left granted? done finished owed n) {act : Exchange.Act} (ha : act.isStray = false)
    (hs : c.Goes x act y) :
    ∃ left' granted?' done' finished' owed' n', c.Flows y left' granted?' done' finished' owed' n' ∧
      c.actsLeft y left' n' < c.actsLeft x left n := by
  obtain ⟨hsends, hreceives, hgrants, hcompletes, hbalance⟩ := h
  cases hs with
  | sender hp =>
    obtain ⟨left', granted?', hsends', rfl, hgranted, hacts⟩ := hsends.step hp
    refine ⟨_, _, _, _, _, _, ⟨hsends', hreceives, hgrants, ?_, fun k hk => ?_⟩, ?_⟩
    · simpa only [List.append_assoc] using hcompletes
    · simp only [hbalance _ (hgranted k hk), List.length_append]
      omega
    · simp only [Shipment.actsLeft, List.length_append]
      omega
  | receiver hp =>
    cases hreceives.step hp with
    | nothing acts' hreceives' hsent hdata hacts =>
      refine ⟨_, _, _, _, _, _, ⟨hsends, hreceives', ?_, ?_, fun k hk => ?_⟩, ?_⟩
      · exact List.forall_mem_append.mpr ⟨hgrants, hsent⟩
      · rw [hdata]
        exact hcompletes
      · rw [hbalance k hk, hdata, quotas, quotas, quotas, List.map_append, List.sum_append, Nat.add_assoc]
      · simp only [Shipment.actsLeft, List.length_append, hdata]
        omega
    | chunk n payload last hsent hfin howed hacts hlen hdata hreceives' =>
      subst hsent hfin hacts
      rw [hdata, List.cons_append, List.cons_append] at hcompletes
      -- The chunk is the next one, and the rest completes what comes after it.
      obtain ⟨es, hes, hcompletes⟩ := hcompletes.next
      refine ⟨_, _, _, _, _, _, ⟨hsends, hreceives' es hes, ?_, hcompletes, fun k hk => ?_⟩, ?_⟩
      · rw [List.append_nil]
        exact hgrants
      · simp only [hbalance k hk, hdata, List.append_nil, List.length_cons]
        omega
      · simp only [Shipment.actsLeft, List.append_nil, hdata, hlen, List.length_cons]
        omega
  | @reachReceiver m rest hforth =>
    have hm : m.isData c.id = true := hcompletes.isData m (by simp [hforth])
    rw [hforth] at hcompletes hbalance
    -- The message only changes its place, so what is to come stays in order.
    have hdata := data_concat_of_isData hm x.receiver.inbox
    refine ⟨_, _, _, _, _, _, ⟨hsends, hreceives.arrive m, hgrants, ?_, fun k hk => ?_⟩, ?_⟩
    · rw [hdata, List.append_assoc _ [m], List.singleton_append]
      exact hcompletes
    · simp only [hbalance k hk, hdata, List.length_append, List.length_cons, List.length_nil]
      omega
    · simp only [Shipment.actsLeft, hdata, hforth, List.length_append, List.length_cons, List.length_nil]
      omega
  | reachSender hback =>
    rw [hback] at hgrants hbalance
    obtain ⟨⟨id, quota, rfl⟩, hrest⟩ := List.forall_mem_cons.mp hgrants
    refine ⟨_, _, _, _, _, _, ⟨hsends.arrive id quota, hreceives, hrest, hcompletes, fun k hk => ?_⟩, ?_⟩
    · obtain ⟨n, hn, rfl⟩ := Option.map_eq_some_iff.mp hk
      rw [hbalance n hn]
      simp only [quotas, List.map_cons, List.sum_cons, Message.quota]
      omega
    · simp only [Shipment.actsLeft, hback, List.length_append, List.length_cons, List.length_nil]
      omega
  | stray => cases ha

/-- A stray changes nothing but what the receiver has to pass over. -/
theorem Flows.stray {x : Exchange} {left : List Message} {granted? : Option Nat} {done : Entries} {finished : Bool}
    {owed n : Nat} (h : c.Flows x left granted? done finished owed n) {m : Message} (hm : ¬m.isData c.id = true) :
    c.Flows { x with receiver := { x.receiver with inbox := x.receiver.inbox ++ [m] } } left granted? done finished owed n := by
  have hdata := data_concat_of_not_isData hm x.receiver.inbox
  refine ⟨h.sends, h.receives.arrive m, h.grants, ?_, fun k hk => ?_⟩
  · rw [hdata]
    exact h.completes
  · rw [hdata]
    exact h.balance k hk

theorem not_isData_of_passes {m : Message} (h : c.passes m = true) : ¬m.isData c.id = true := by
  simp only [passes, Bool.and_eq_true, Bool.not_eq_true'] at h
  simp [h.2]

/-- Nothing has been received when the announcement is taken. -/
theorem completes_chunks (hfit : c.captured.Fit) : c.Completes [] false c.chunks :=
  ⟨c.captured, rfl, Sender.chunked_chunks (s := c.sender .capturing) hfit⟩

/-- Both sides when the announcement is taken. -/
theorem flows_introduced (hfit : c.captured.Fit) {behind : List Message} (hbehind : c.data behind = []) :
    c.Flows
      ⟨{ progress := .waiting (c.sender (.streaming 0 c.captured)), store := c.held, executed := [c.capture] },
        { progress := .waiting (c.receiver (.receiving (c.reception (max 1 c.quota)))), todo := [.send c.source c.grant]
          inbox := behind, store := c.previous }, [], [], true⟩
      c.chunks (some 0) [] false 0 3 where
  sends := @Sends.streaming c [] [] 0 c.captured (List.forall_mem_nil _)
  receives := @Receives.granting c behind []
  grants := List.forall_mem_nil _
  completes := by
    rw [hbehind]
    exact completes_chunks hfit
  balance n hn := by
    cases hn
    rw [hbehind]
    rfl

/-- An act of the transfer takes it to a stage from which fewer acts are possible. -/
theorem Stage.step (hfit : c.captured.Fit) {x y : Exchange} {n : Nat} (h : c.Stage x n) {act : Exchange.Act}
    (ha : act.isStray = false) (hs : c.Goes x act y) : ∃ n', c.Stage y n' ∧ n' < n := by
  cases h with
  | @opening p inbox forth n hopens hin =>
    cases hs with
    | sender hp =>
      obtain ⟨n', hopens', hn⟩ := hopens.step hp
      exact ⟨_, .opening hopens' hin, Nat.add_lt_add_left hn _⟩
    | @receiver act p sent hp =>
      cases act with
      | perform => cases hp
      | take =>
        cases inbox with
        | nil => cases hp
        | cons m inbox =>
          obtain ⟨hm, hinbox⟩ := List.forall_mem_cons.mp hin
          change some (Party.enter _ (Receiver.signal (.towards c.source) _ (.message m)), []) = _ at hp
          rw [signal_opening_of_passes hm] at hp
          cases hp
          exact ⟨_, .opening hopens hinbox, Nat.add_lt_add_right (Nat.lt_succ_self _) n⟩
      | execute => cases hp
    | reachReceiver hforth =>
      -- Before the sender has announced the transfer nothing is on its way.
      cases hopens <;> cases hforth
      have hn : 9 * c.chunks.length + (inbox.length + 1 + 0) + 3 < 9 * c.chunks.length + inbox.length + 5 := by omega
      exact ⟨_, .introduced hin rfl, hn⟩
    | reachSender hback => cases hback
    | stray => cases ha
  | @introduced front behind hfront hbehind =>
    cases hs with
    | @sender act p sent hp => cases act <;> cases hp
    | @receiver act p sent hp =>
      cases act with
      | perform => cases hp
      | take =>
        cases front with
        | nil =>
          -- The announcement is what the receiver has waited for.
          change some (Party.enter _ ((c.receiver .opening).signal (.towards c.source) (.message (.initiate c.initiate))), []) = _ at hp
          rw [signal_opening] at hp
          cases hp
          refine ⟨_, .flowing (flows_introduced hfit hbehind) rfl, ?_⟩
          show 9 * c.chunks.length + 8 * 0 + 6 * (c.data behind).length + behind.length + 3 + 2 * 0 + 0 <
            9 * c.chunks.length + (0 + 1 + behind.length) + 3
          rw [hbehind, List.length_nil]
          omega
        | cons m front =>
          obtain ⟨hm, hfront⟩ := List.forall_mem_cons.mp hfront
          change some (Party.enter _ (Receiver.signal (.towards c.source) _ (.message m)), []) = _ at hp
          rw [signal_opening_of_passes hm] at hp
          cases hp
          have hn : 9 * c.chunks.length + (front.length + 1 + behind.length) + 3 <
              9 * c.chunks.length + (front.length + 1 + 1 + behind.length) + 3 := by omega
          exact ⟨_, .introduced hfront hbehind, hn⟩
      | execute => cases hp
    | reachReceiver hforth => cases hforth
    | reachSender hback => cases hback
    | stray => cases ha
  | flowing h hi =>
    obtain ⟨left', granted?', done', finished', owed', n', hflows, hn⟩ := h.step ha hs
    refine ⟨_, .flowing hflows ?_, hn⟩
    cases hs with
    | sender | receiver | reachSender | stray => exact hi
    | reachReceiver => simp [hi]

theorem Stage.of_eq {x : Exchange} {n n' : Nat} (h : c.Stage x n) (hn : n = n') : c.Stage x n' := hn ▸ h

/-- A stray is one more message to pass over. -/
theorem Stage.stray {x y : Exchange} {n : Nat} (h : c.Stage x n) {m : Message} (hs : c.Goes x (.stray m) y) :
    c.Stage y (n + 1) := by
  cases hs with
  | stray hm =>
    have hdata : ¬m.isData c.id = true := by
      rcases hm with hm | ⟨-, hm⟩
      · exact not_isData_of_passes hm
      · cases m with
        | initiate announced => exact Bool.false_ne_true
        | grant id quota => exact Bool.false_ne_true
        | data id n payload last => cases hm
    cases h with
    | @opening p inbox forth n hopens hin =>
      have hpasses : c.passes m = true := hm.resolve_right fun h => Bool.false_ne_true h.1
      have hin' : ∀ m' ∈ inbox ++ [m], c.passes m' = true :=
        List.forall_mem_append.mpr ⟨hin, List.forall_mem_singleton.mpr hpasses⟩
      refine (Stage.opening hopens hin').of_eq ?_
      simp only [List.length_append, List.length_singleton]
      omega
    | @introduced front behind hfront hbehind =>
      rw [List.append_assoc, List.cons_append]
      refine (Stage.introduced hfront ((data_concat_of_not_isData hdata behind).trans hbehind)).of_eq ?_
      simp only [List.length_append, List.length_singleton]
      omega
    | flowing h hi =>
      refine (Stage.flowing (h.stray hdata) hi).of_eq ?_
      simp only [Shipment.actsLeft, data_concat_of_not_isData hdata, List.length_append, List.length_singleton]
      omega

end Shipment
end ReplicaGroup
