import ReplicaGroup.Proofs.Transfer.Stream

/-! # Sending transfers, step by step

One transfer is followed from its start to its end, with what it still has to send. All others on the same
replica have other identifiers, and what they send is told apart by that. -/

namespace ReplicaGroup

namespace Sender
variable {s : Sender} {links : Links}

/-- What a sender does on a signal. -/
inductive Reacts (s : Sender) (links : Links) : Signal → Turn Sender → Prop
  | passes {signal : Signal} : Reacts s links signal (.wait s)
  | fails {signal : Signal} (fault : Fault) : Reacts s links signal (.fail fault)
  | announces {captured : ScanResult} (hp : s.phase = .capturing) : Reacts s links (.response (.scan captured))
      (.sending links s.outbound.recipient s.announcement
        (.wait { s with phase := .streaming 0 captured.results.entries }))
  | streams {id : TransferId} {quota sent : Nat} {rest : Entries} (hp : s.phase = .streaming sent rest) :
    Reacts s links (.message (.grant id quota)) (s.stream links quota sent rest)

theorem reacts_signal (signal : Signal) : s.Reacts links signal (s.signal links signal) := by
  unfold Sender.signal
  split
  · next hp => exact .announces hp
  · exact .fails _
  · exact .fails _
  · next hp => exact .streams hp
  · exact .passes

/-- A turn that stays with the transfer: it sends to its recipient under its identifier only. -/
structure Stays (s : Sender) (turn : Turn Sender) : Prop where
  outbound : ∀ s', turn.progress = .waiting s' → s'.outbound = s.outbound
  deeds : ∀ m dest, .send dest m ∈ turn.deeds → m.id = s.outbound.id

theorem Reacts.stays {signal : Signal} {turn : Turn Sender} (h : s.Reacts links signal turn) : s.Stays turn := by
  cases h with
  | passes => exact ⟨fun s' h => (by cases h; rfl), fun m dest h => (by cases h)⟩
  | fails fault => exact ⟨fun s' h => (by cases h), fun m dest h => (by cases h)⟩
  | announces hp =>
    unfold Turn.sending
    split
    · exact ⟨fun s' h => (by cases h), fun m dest h => (by cases h)⟩
    · refine ⟨fun s' h => (by cases h; rfl), fun m dest h => ?_⟩
      cases List.mem_singleton.mp h
      rfl
  | streams hp =>
    next id quota sent rest =>
    obtain ⟨front, left, hs⟩ := @streams_stream s links sent rest quota
    refine ⟨fun s' h => ?_, fun m dest h => ?_⟩
    · rcases hs.goes with ⟨n, r, hw, -⟩ | ⟨outcome, he⟩
      · cases hw.symm.trans h
        rfl
      · cases he.symm.trans h
    · rw [hs.deeds] at h
      obtain ⟨m', hm', heq⟩ := List.mem_map.mp h
      cases heq
      exact id_of_mem_chunks (hs.split ▸ List.mem_append_left _ hm')

end Sender

/-- The transfer that is sent, as long as the run has not ended. -/
def Transfer.Stage.outbound? : Transfer.Stage → Option Outbound
  | .created (.send outbound _) => some outbound
  | .running (.sender s) _ => some s.outbound
  | .created .receive | .running (.receiver _) _ | .reported | .stopped => none

namespace Transfer
variable {t : Transfer} {links : Links} {now : Nat} {out : Transfer × List Report}

@[simp] theorem id_resume (t : Transfer) (now : Nat) (turn : Turn Run) : (t.resume now turn).1.id = t.id := by
  rw [resume_fst]
  cases turn.progress <;> rfl

theorem id_of_goes (h : t.Goes links now out) : out.1.id = t.id := by
  cases h with
  | begin hs => exact id_resume ..
  | message hs hl hm => exact id_resume ..
  | reply hs hl hr => exact id_resume ..
  | giveUp fault hs => rfl
  | stop hs => rfl

theorem message?_resume (t : Transfer) (now : Nat) (turn : Turn Run) : (t.resume now turn).2.filterMap Report.message? =
    turn.deeds.filterMap fun d => (Report.deed d).message? := by
  rw [resume_snd, List.filterMap_append, List.filterMap_map]
  cases turn.progress <;> exact List.append_nil _

theorem request?_resume (t : Transfer) (now : Nat) (turn : Turn Run) : (t.resume now turn).2.filterMap Report.request? =
    turn.deeds.filterMap fun d => (Report.deed d).request? := by
  rw [resume_snd, List.filterMap_append, List.filterMap_map]
  cases turn.progress <;> exact List.append_nil _

theorem message?_sends (dest : Addr) (l : List Message) :
    (l.map (Deed.send dest)).filterMap (fun d => (Report.deed d).message?) = l.map fun m => (dest, m) := by
  rw [List.filterMap_map]
  exact List.filterMap_eq_map (f := fun m => (dest, m)) ▸ rfl

theorem request?_sends (dest : Addr) (l : List Message) :
    (l.map (Deed.send dest)).filterMap (fun d => (Report.deed d).request?) = [] := by
  rw [List.filterMap_map]
  exact List.filterMap_eq_nil_iff.mpr fun _ _ => rfl

/-! ### Other transfers -/

/-- A transfer that sends nothing under an identifier. -/
structure IsForeign (id : TransferId) (t : Transfer) : Prop where
  other : t.id ≠ id
  sends : ∀ outbound, t.stage.outbound? = some outbound → outbound.id ≠ id

theorem IsForeign.resume {id : TransferId} (ht : t.id ≠ id) {s : Sender} (hs : s.outbound.id ≠ id) {turn : Turn Sender}
    (h : s.Stays turn) : (t.resume now (turn.map .sender)).1.IsForeign id ∧
      ∀ x ∈ (t.resume now (turn.map .sender)).2.filterMap Report.message?, x.2.id ≠ id := by
  refine ⟨⟨by rwa [id_resume], fun outbound ho => ?_⟩, fun x hx => ?_⟩
  · rw [resume_fst] at ho
    obtain ⟨s' | outcome, deeds⟩ := turn
    · cases ho
      rw [h.outbound s' rfl]
      exact hs
    · cases ho
  · rw [message?_resume] at hx
    obtain ⟨d, hd, hx⟩ := List.mem_filterMap.mp hx
    cases d with
    | request r => cases hx
    | send dest m =>
      cases hx
      rw [h.deeds m dest hd]
      exact hs

theorem stays_start (s : Sender) (scanId : OpId) :
    s.Stays (Sender.start links s.outbound s.source s.chunkEntries scanId) := by
  unfold Sender.start
  split
  · exact ⟨fun s' h => (by cases h), fun m dest h => (by cases h)⟩
  · unfold Turn.requesting
    split
    · exact ⟨fun s' h => (by cases h; rfl), fun m dest h => (by cases List.mem_singleton.mp h)⟩
    · exact ⟨fun s' h => (by cases h), fun m dest h => (by cases h)⟩

/-- A run that reads is that of a sender. -/
theorem sender_of_reads {run : Run} {deadline : Nat} (hs : t.stage = .running run deadline)
    (hr : t.stage.reads = true) : ∃ s : Sender, run = .sender s := by
  cases run with
  | receiver r =>
    rw [hs] at hr
    cases hr
  | sender s => exact ⟨s, rfl⟩

/-- A transfer with another identifier goes on without sending anything under this one. -/
theorem IsForeign.goes {id : TransferId} (hf : t.IsForeign id) (hr : t.stage.reads = true) (hg : t.Goes links now out) :
    out.1.IsForeign id ∧ ∀ x ∈ out.2.filterMap Report.message?, x.2.id ≠ id := by
  have ended : ∀ u : Transfer, u.id = t.id → u.stage.outbound? = none → u.IsForeign id := fun u hu ho =>
    ⟨hu ▸ hf.other, fun outbound h => by rw [ho] at h; cases h⟩
  cases hg with
  | @begin errand hs =>
    rw [hs] at hr
    cases errand with
    | receive => cases hr
    | send outbound scanId =>
      have ho : outbound.id ≠ id := hf.sends outbound (by rw [hs]; rfl)
      exact IsForeign.resume hf.other (s := ⟨outbound, t.addr, t.config.chunkEntries, .capturing⟩) ho
        (stays_start _ scanId)
  | @message run deadline m rest hs hl hm =>
    obtain ⟨s, rfl⟩ := sender_of_reads hs hr
    have ho : s.outbound.id ≠ id := hf.sends s.outbound (by rw [hs]; rfl)
    exact IsForeign.resume (t := { t with mailbox := rest }) hf.other ho (s.reacts_signal _).stays
  | @reply run deadline reply hs hl hr' =>
    obtain ⟨s, rfl⟩ := sender_of_reads hs hr
    have ho : s.outbound.id ≠ id := hf.sends s.outbound (by rw [hs]; rfl)
    exact IsForeign.resume (t := { t with reply? := none }) hf.other ho (s.reacts_signal _).stays
  | giveUp fault hs => exact ⟨ended _ rfl rfl, fun x hx => (by cases hx)⟩
  | stop hs => exact ⟨ended _ rfl rfl, fun x hx => (by cases hx)⟩

end Transfer

/-! ### The transfer that is followed -/

/-- What a transfer moves, and between whom. -/
structure Cargo where
  id : TransferId
  source : Addr
  recipient : Addr
  range : KeyRange
  /-- The position of the view change that caused the transfer, and the version in effect after it. -/
  snapshot : Position
  version : Version
  entries : Entries

namespace Cargo

/-- The transfer as its sender has it. -/
def outbound (c : Cargo) : Outbound := ⟨c.id, c.recipient, c.range, ⟨some c.snapshot, some c.version⟩⟩

/-- The announcement of the transfer. -/
def announced (c : Cargo) : Initiate := ⟨c.id, c.source, c.range, ⟨some c.snapshot, some c.version⟩⟩

/-- Whether a request is the capture of the cargo. -/
def IsCapture (c : Cargo) (r : Request) : Prop := ∃ id, r = .scan (.read id c.range c.version.pred)

/-- Whether a signal brings the captured entries. -/
def IsCaptured (c : Cargo) (signal : Signal) : Prop :=
  ∃ captured, signal = .response (.scan captured) ∧ captured.results.entries = c.entries

/-- Whether `todo` is all that a sender has to send. -/
def Whole (c : Cargo) (s : Sender) (todo : List Message) : Prop :=
  s.outbound = c.outbound ∧ s.source = c.source ∧ todo = .initiate c.announced :: s.chunks 0 c.entries

end Cargo

namespace Transfer
variable {c : Cargo} {todo : List Message} {t : Transfer} {links : Links} {now : Nat} {out : Transfer × List Report}

/-- Whether a transfer still has to send `todo`, at the stage that it is at. Once its run has ended it
    sends nothing any more. -/
def Stage.Carries (c : Cargo) (addr : Addr) (chunkEntries : Nat) (todo : List Message) : Stage → Prop
  | .created (.send outbound _) => c.Whole ⟨outbound, addr, chunkEntries, .capturing⟩ todo
  | .running (.sender s) _ =>
    match s.phase with
    | .capturing => c.Whole s todo
    | .streaming n rest => s.outbound = c.outbound ∧ todo = s.chunks n rest
  | .reported | .stopped => True
  | .created .receive | .running (.receiver _) _ => False

/-- A transfer that carries a cargo. -/
structure Carries (c : Cargo) (todo : List Message) (t : Transfer) : Prop where
  id : t.id = c.id
  stage : t.stage.Carries c t.addr t.config.chunkEntries todo
  reply : ∀ signal, t.reply? = some signal → c.IsCaptured signal

/-- What a step of a carrying transfer does: it sends the front of what is to be sent. Without a grant that
    is at most the announcement. -/
structure Carried (c : Cargo) (t : Transfer) (links : Links) (todo : List Message) (out : Transfer × List Report)
    (front left : List Message) : Prop where
  split : todo = front ++ left
  carries : out.1.Carries c left
  messages : out.2.filterMap Report.message? = front.map fun m => (c.recipient, m)
  carried : ∀ m ∈ front, links.carries c.recipient m = .ok ()
  requests : ∀ r ∈ out.2.filterMap Report.request?, c.IsCapture r
  ungranted : t.mailbox = [] → out.1.mailbox = [] ∧ (front = [] ∨ front = [.initiate c.announced])

theorem Carries.ended {outcome : Except Fault Metadata} (h : t.Carries c todo) :
    (t.finish outcome).1.Carries c todo := ⟨h.id, trivial, fun signal h => (by cases h)⟩

/-- A turn of the sender, as a step of its transfer. -/
theorem carried_resume {u : Transfer} (hid : u.id = c.id) (hreply : ∀ signal, u.reply? = some signal → c.IsCaptured signal)
    {turn : Turn Sender} {front left : List Message} (hsplit : todo = front ++ left)
    (hmessages : (turn.deeds.filterMap fun d => (Report.deed d).message?) = front.map fun m => (c.recipient, m))
    (hcarried : ∀ m ∈ front, links.carries c.recipient m = .ok ())
    (hrequests : ∀ r ∈ turn.deeds.filterMap fun d => (Report.deed d).request?, c.IsCapture r)
    (hstage : ∀ s', turn.progress = .waiting s' → ∀ deadline,
      (Stage.running (.sender s') deadline).Carries c u.addr u.config.chunkEntries left)
    (hungranted : t.mailbox = [] → u.mailbox = [] ∧ (front = [] ∨ front = [.initiate c.announced])) :
    Carried c t links todo (u.resume now (turn.map .sender)) front left := by
  refine ⟨hsplit, ?_, ?_, hcarried, ?_, fun h => ⟨?_, (hungranted h).2⟩⟩
  · rw [resume_fst]
    obtain ⟨s' | outcome, deeds⟩ := turn
    · exact ⟨hid, hstage s' rfl _, hreply⟩
    · exact ⟨hid, trivial, fun signal h => (by cases h)⟩
  · rw [message?_resume]
    exact hmessages
  · rw [request?_resume]
    exact hrequests
  · rw [resume_fst]
    obtain ⟨s' | outcome, deeds⟩ := turn
    · exact (hungranted h).1
    · rfl

/-- A turn that sends nothing and leaves the sender as it is, or ends the run. -/
theorem carried_silent {u : Transfer} (hid : u.id = c.id) (hreply : ∀ signal, u.reply? = some signal → c.IsCaptured signal)
    {turn : Turn Sender} (hdeeds : turn.deeds = [])
    (hstage : ∀ s', turn.progress = .waiting s' → ∀ deadline,
      (Stage.running (.sender s') deadline).Carries c u.addr u.config.chunkEntries todo)
    (hmailbox : t.mailbox = [] → u.mailbox = []) : Carried c t links todo (u.resume now (turn.map .sender)) [] todo :=
  carried_resume hid hreply rfl (by rw [hdeeds]; rfl) (by simp) (by rw [hdeeds]; simp) hstage
    fun h => ⟨hmailbox h, .inl rfl⟩

/-- The first turn asks for the capture. -/
theorem carried_start (hid : t.id = c.id) (hreply : ∀ signal, t.reply? = some signal → c.IsCaptured signal)
    (hwhole : c.Whole ⟨c.outbound, t.addr, t.config.chunkEntries, .capturing⟩ todo) (scanId : OpId) :
    Carried c t links todo (t.resume now
      ((Sender.start links c.outbound t.addr t.config.chunkEntries scanId).map .sender)) [] todo := by
  by_cases hopen : links.storeOpen = true
  · refine carried_resume hid hreply rfl ?_ (by simp) ?_ ?_ fun hm => ⟨hm, .inl rfl⟩
    · simp [Sender.start, Turn.requesting, hopen, Cargo.outbound, Report.message?]
    · intro r hr
      simp only [Sender.start, Turn.requesting, hopen, if_true] at hr
      cases List.mem_singleton.mp hr
      exact ⟨scanId, rfl⟩
    · intro s' hs' deadline
      simp only [Sender.start, Turn.requesting, hopen, if_true] at hs'
      cases hs'
      exact hwhole
  · refine carried_silent hid hreply ?_ ?_ fun hm => hm
    · simp [Sender.start, Turn.requesting, hopen, Cargo.outbound, Turn.fail]
    · intro s' hs'
      simp [Sender.start, Turn.requesting, hopen, Cargo.outbound, Turn.fail] at hs'

/-- The captured entries are announced, and what is left are their chunks. -/
theorem carried_announce {u : Transfer} (hid : u.id = c.id)
    (hreply : ∀ signal, u.reply? = some signal → c.IsCaptured signal) {s : Sender} (hwhole : c.Whole s todo)
    (hmailbox : t.mailbox = [] → u.mailbox = []) : ∃ front left, Carried c t links todo
      (u.resume now ((Turn.sending links s.outbound.recipient s.announcement
        (.wait { s with phase := .streaming 0 c.entries })).map .sender)) front left := by
  obtain ⟨ho, ha, rfl⟩ := hwhole
  have hdest : s.outbound.recipient = c.recipient := by rw [ho]; rfl
  have hann : s.announcement = .initiate c.announced := by rw [Sender.announcement, ho, ha]; rfl
  unfold Turn.sending
  rw [hann, hdest]
  cases hc : links.carries c.recipient (.initiate c.announced) with
  | error fault =>
    refine ⟨[], _, carried_silent hid hreply rfl ?_ hmailbox⟩
    rintro s' ⟨⟩
  | ok _ =>
    refine ⟨[.initiate c.announced], s.chunks 0 c.entries, carried_resume hid hreply rfl rfl ?_ ?_ ?_
      fun hm => ⟨hmailbox hm, .inr rfl⟩⟩
    · exact fun m hm => List.mem_singleton.mp hm ▸ hc
    · intro r hr
      cases hr
    · rintro s' ⟨⟩ deadline
      exact ⟨ho, (Sender.chunks_phase _).symm⟩

/-- A grant lets the front of the chunks go out. -/
theorem carried_stream {u : Transfer} (hid : u.id = c.id)
    (hreply : ∀ signal, u.reply? = some signal → c.IsCaptured signal) {s : Sender} (ho : s.outbound = c.outbound)
    (hmailbox : t.mailbox ≠ []) (quota sent : Nat) (rest : Entries) : ∃ front left,
      Carried c t links (s.chunks sent rest) (u.resume now ((s.stream links quota sent rest).map .sender)) front left := by
  obtain ⟨front, left, hstream⟩ := @Sender.streams_stream s links sent rest quota
  have hdest : s.outbound.recipient = c.recipient := by rw [ho]; rfl
  refine ⟨front, left, carried_resume hid hreply hstream.split ?_ ?_ ?_ ?_ fun hm => absurd hm hmailbox⟩
  · rw [hstream.deeds, message?_sends, hdest]
  · rw [← hdest]
    exact hstream.carried
  · rw [hstream.deeds, request?_sends]
    simp
  · intro s' hs' deadline
    rcases hstream.goes with ⟨n, r, hw, hleft⟩ | ⟨outcome, he⟩
    · cases hw.symm.trans hs'
      exact ⟨ho, hleft.trans (Sender.chunks_phase _).symm⟩
    · cases he.symm.trans hs'

/-- On any signal that is a message, or brings the captured entries, the sender goes on with what is left. -/
theorem carried_signal {u : Transfer} (hid : u.id = c.id)
    (hreply : ∀ signal, u.reply? = some signal → c.IsCaptured signal) {s : Sender} {deadline : Nat}
    (hstage : (Stage.running (.sender s) deadline).Carries c u.addr u.config.chunkEntries todo) {signal : Signal}
    (hsignal : (∃ m, signal = .message m) ∧ t.mailbox ≠ [] ∨ c.IsCaptured signal)
    (hmailbox : t.mailbox = [] → u.mailbox = []) :
    ∃ front left, Carried c t links todo (u.resume now ((s.signal links signal).map .sender)) front left := by
  have hr := @Sender.reacts_signal s links signal
  generalize s.signal links signal = turn at hr
  cases hr with
  | passes =>
    refine ⟨[], todo, carried_silent hid hreply rfl ?_ hmailbox⟩
    rintro s' ⟨⟩ d
    exact hstage
  | fails fault =>
    refine ⟨[], todo, carried_silent hid hreply rfl ?_ hmailbox⟩
    rintro s' ⟨⟩
  | @announces captured hp =>
    rcases hsignal with ⟨⟨m, hm⟩, -⟩ | ⟨captured', heq, hentries⟩
    · cases hm
    · cases heq
      simp only [Stage.Carries, hp] at hstage
      rw [hentries]
      exact carried_announce hid hreply hstage hmailbox
  | @streams id quota sent rest hp =>
    rcases hsignal with ⟨-, hmail⟩ | ⟨captured', heq, -⟩
    · simp only [Stage.Carries, hp] at hstage
      obtain ⟨ho, rfl⟩ := hstage
      exact carried_stream hid hreply ho hmail quota sent rest
    · cases heq

/-- A transfer that carries a cargo goes on carrying what is left of it. -/
theorem Carries.goes (h : t.Carries c todo) (hg : t.Goes links now out) :
    ∃ front left, Carried c t links todo out front left := by
  have hstage := h.stage
  cases hg with
  | @begin errand hs =>
    rw [hs] at hstage
    cases errand with
    | receive => cases hstage
    | send outbound scanId =>
      obtain rfl : outbound = c.outbound := hstage.1
      exact ⟨[], todo, carried_start h.id h.reply hstage scanId⟩
  | @message run deadline m rest hs hl hm =>
    rw [hs] at hstage
    cases run with
    | receiver r => cases hstage
    | sender s =>
      have hmail : t.mailbox ≠ [] := by rw [hm]; exact List.cons_ne_nil m rest
      exact carried_signal (u := { t with mailbox := rest }) h.id h.reply hstage (.inl ⟨⟨m, rfl⟩, hmail⟩)
        fun h0 => absurd h0 hmail
  | @reply run deadline reply hs hl hr =>
    rw [hs] at hstage
    cases run with
    | receiver r => cases hstage
    | sender s =>
      refine carried_signal (u := { t with reply? := none }) h.id ?_ hstage (.inr (h.reply _ hr)) fun h0 => h0
      rintro signal ⟨⟩
  | giveUp fault hs =>
    exact ⟨[], todo, rfl, h.ended, rfl, by simp, fun r hr => (by cases hr), fun _ => ⟨rfl, .inl rfl⟩⟩
  | stop hs =>
    exact ⟨[], todo, rfl, ⟨h.id, trivial, h.reply⟩, rfl, by simp, fun r hr => (by cases hr), fun hm => ⟨hm, .inl rfl⟩⟩

end Transfer
end ReplicaGroup
