import ReplicaGroup.Proofs.Transfer.Flow

/-! # Grants

However the chunks of a transfer are granted, in one grant or in many, late, at once, none at a time or more than
there are, the sender has sent as many of them as it has been granted, up to the last one. With that one it is
done. -/

namespace ReplicaGroup

/-! ### One grant -/

namespace Sender
variable {s : Sender} {links : Links} {rest : Entries}

/-- The sender when it has sent `n` chunks of the entries and more are left. -/
def midway (s : Sender) (entries : Entries) (n : Nat) : Sender :=
  { s with phase := .streaming n (entries.drop (n * s.chunkSize)) }

/-- A further grant goes on where those before it stopped. -/
theorem signal_grant (hc : ∀ m, links.carries s.outbound.recipient m = .ok ()) {granted : Nat}
    (hgranted : granted < (s.chunks 0 rest).length) (id : TransferId) (quota : Nat) :
    (s.midway rest granted).signal links (.message (.grant id quota)) =
      if granted + quota < (s.chunks 0 rest).length then
        ⟨.waiting (s.midway rest (granted + quota)),
          (((s.chunks 0 rest).drop granted).take quota).map (.send s.outbound.recipient)⟩
      else ⟨.ended (.ok s.outbound.metadata), ((s.chunks 0 rest).drop granted).map (.send s.outbound.recipient)⟩ := by
  have hleft : (s.midway rest granted).chunks granted (rest.drop (granted * s.chunkSize)) =
      (s.chunks 0 rest).drop granted := by
    rw [midway, chunks_phase, drop_chunks hgranted, Nat.zero_add]
  refine (stream_eq (s := s.midway rest granted) hc quota granted _).trans ?_
  rw [hleft, List.length_drop]
  by_cases hq : granted + quota < (s.chunks 0 rest).length
  · rw [if_pos hq, if_pos (by omega), midway, midway, Nat.add_mul, ← List.drop_drop]
    rfl
  · rw [if_neg hq, if_neg (by omega)]
    rfl

def sends (s : Sender) (l : List Message) : List Transfer.Report := l.map fun m => .deed (.send s.outbound.recipient m)

theorem sends_append (s : Sender) (front back : List Message) : s.sends (front ++ back) = s.sends front ++ s.sends back :=
  List.map_append

/-- The report that the sender has ended. -/
def ends (s : Sender) (outcome : Except Fault Metadata) : Transfer.Report := .completed ⟨s.outbound.id, .send, outcome⟩

end Sender

/-! ### Grants one after the other -/

theorem Shipment.quotas_append (front back : List Message) : quotas (front ++ back) = quotas front + quotas back := by
  rw [quotas, List.map_append, List.sum_append, quotas, quotas]

namespace Transfer
variable {t : Transfer} {links : Links} {now : Nat}

/-- What a transfer makes of messages that come in lots, each at its time, and what it reports. -/
def hears (links : Links) (t : Transfer) : List (Nat × List Message) → Transfer × List Report
  | [] => (t, [])
  | (now, lot) :: lots =>
    let out := { t with mailbox := t.mailbox ++ lot }.poll links now
    let later := out.1.hears links lots
    (later.1, out.2 ++ later.2)

section Sending
variable {addr : Addr} {config : Config} {s : Sender} {entries : Entries} {granted : Nat} {mailbox : List Message}
variable {reports : List Report}

/-- The transfer of a sender in a stage, with messages still to be heard. -/
def sendingIn (addr : Addr) (config : Config) (s : Sender) (mailbox : List Message) (stage : Stage) : Transfer :=
  { id := s.outbound.id, role := .send, addr, config, stage, mailbox }

/-- Where a sending transfer stands after `granted` chunks have been granted, with messages still to be heard, and
    what it has reported since its announcement. -/
inductive Obeys (addr : Addr) (config : Config) (s : Sender) (entries : Entries) (granted : Nat)
    (mailbox : List Message) : Transfer → List Report → Prop
  | streaming {deadline : Nat} (h : granted < (s.chunks 0 entries).length) :
    Obeys addr config s entries granted mailbox
      (sendingIn addr config s mailbox (.running (.sender (s.midway entries granted)) deadline))
      (s.sends ((s.chunks 0 entries).take granted))
  /-- What comes after the last chunk is left lying. -/
  | ended {left : List Message} (h : (s.chunks 0 entries).length ≤ granted) :
    Obeys addr config s entries granted mailbox (sendingIn addr config s left .reported)
      (s.sends (s.chunks 0 entries) ++ [s.ends (.ok s.outbound.metadata)])

theorem resume_waiting (s' : Sender) (l : List Message) (stage : Stage) :
    (sendingIn addr config s mailbox stage).resume now
        (Turn.map .sender ⟨.waiting s', l.map (.send s.outbound.recipient)⟩) =
      (sendingIn addr config s mailbox (.running (.sender s') (now + config.transferTimeout)), s.sends l) := by
  simp only [resume, Turn.map, Sender.sends, List.map_map, List.append_nil]
  rfl

theorem resume_ended (outcome : Except Fault Metadata) (l : List Message) (stage : Stage) :
    (sendingIn addr config s mailbox stage).resume now
        (Turn.map .sender ⟨.ended outcome, l.map (.send s.outbound.recipient)⟩) =
      (sendingIn addr config s [] .reported, s.sends l ++ [s.ends outcome]) := by
  simp only [resume, Turn.map, Sender.sends, List.map_map]
  rfl

/-- A sender takes one message: what it grants is sent, and of other messages nothing comes. -/
theorem Obeys.take (hc : ∀ m, links.carries s.outbound.recipient m = .ok ()) {deadline : Nat} (m : Message)
    (hgranted : granted < (s.chunks 0 entries).length) :
    ∃ u more,
      (sendingIn addr config s (m :: mailbox) (.running (.sender (s.midway entries granted)) deadline)).step links now =
        some (u, more) ∧
      Obeys addr config s entries (granted + m.quota) mailbox u (s.sends ((s.chunks 0 entries).take granted) ++ more) := by
  cases m with
  | initiate | data =>
    refine ⟨_, [], rfl, ?_⟩
    rw [List.append_nil]
    exact .streaming hgranted
  | grant id quota =>
    have hstep : (sendingIn addr config s (.grant id quota :: mailbox)
        (.running (.sender (s.midway entries granted)) deadline)).step links now =
      some ((sendingIn addr config s mailbox (.running (.sender (s.midway entries granted)) deadline)).resume now
        (((s.midway entries granted).signal links (.message (.grant id quota))).map .sender)) := rfl
    rw [Sender.signal_grant hc hgranted] at hstep
    by_cases hq : granted + quota < (s.chunks 0 entries).length
    · rw [if_pos hq, resume_waiting] at hstep
      refine ⟨_, _, hstep, ?_⟩
      rw [← Sender.sends_append, ← List.take_add]
      exact .streaming hq
    · rw [if_neg hq, resume_ended] at hstep
      refine ⟨_, _, hstep, ?_⟩
      rw [← List.append_assoc, ← Sender.sends_append, List.take_append_drop]
      exact .ended (Nat.le_of_not_lt hq)

/-- A sender that hears nothing waits, unless the time is up. -/
theorem step_silent {deadline : Nat} :
    (sendingIn addr config s [] (.running (.sender (s.midway entries granted)) deadline)).step links now =
      if deadline ≤ now then
        some (sendingIn addr config s [] .reported, [s.ends (.error (.transfer s.outbound.id .noGrant))])
      else none := rfl

/-- What is heard is taken, unless the time is up. -/
theorem Obeys.poll (hc : ∀ m, links.carries s.outbound.recipient m = .ok ())
    (h : Obeys addr config s entries granted mailbox t reports) (now : Nat) :
    s.ends (.error (.transfer s.outbound.id .noGrant)) ∈ (t.poll links now).2 ∨
      Obeys addr config s entries (granted + Shipment.quotas mailbox) [] (t.poll links now).1
        (reports ++ (t.poll links now).2) := by
  -- On the mailbox: a sender that still streams takes the first message of it, one that has ended takes none.
  induction mailbox generalizing t granted reports with
  | nil =>
    cases h with
    | ended h =>
      rw [poll_of_waiting rfl, List.append_nil]
      exact .inr (.ended h)
    | @streaming deadline h =>
      by_cases hd : deadline ≤ now
      · left
        rw [poll_of_step (step_silent.trans (if_pos hd))]
        exact List.mem_append_left _ (.head _)
      · right
        rw [poll_of_waiting (step_silent.trans (if_neg hd)), List.append_nil]
        exact .streaming h
  | cons m mailbox ih =>
    cases h with
    | ended h =>
      rw [poll_of_waiting rfl, List.append_nil]
      exact .inr (.ended (Nat.le_trans h (Nat.le_add_right _ _)))
    | @streaming deadline h =>
      obtain ⟨u, more, hstep, hu⟩ := Obeys.take hc m h
      rw [poll_of_step hstep, ← List.append_assoc]
      rcases ih hu with hsilent | hobeys
      · exact .inl (List.mem_append_right _ hsilent)
      · refine .inr ?_
        rw [Shipment.quotas, List.map_cons, List.sum_cons, ← Nat.add_assoc]
        exact hobeys

theorem Obeys.queue (h : Obeys addr config s entries granted [] t reports) (lot : List Message) :
    Obeys addr config s entries granted lot { t with mailbox := t.mailbox ++ lot } reports := by
  cases h with
  | streaming h => exact .streaming h
  | ended h => exact .ended h

theorem Obeys.hears (hc : ∀ m, links.carries s.outbound.recipient m = .ok ())
    (h : Obeys addr config s entries granted [] t reports) {lots : List (Nat × List Message)}
    (hcalm : s.ends (.error (.transfer s.outbound.id .noGrant)) ∉ (t.hears links lots).2) :
    Obeys addr config s entries (granted + Shipment.quotas (lots.flatMap (·.2))) [] (t.hears links lots).1
      (reports ++ (t.hears links lots).2) := by
  induction lots generalizing t granted reports with
  | nil =>
    rw [Transfer.hears, List.append_nil]
    exact h
  | cons lot lots ih =>
    rw [Transfer.hears] at hcalm ⊢
    rcases (h.queue lot.2).poll hc lot.1 with hsilent | hpolled
    · exact absurd (List.mem_append_left _ hsilent) hcalm
    · rw [List.flatMap_cons, Shipment.quotas_append, ← Nat.add_assoc, ← List.append_assoc]
      exact ih hpolled fun hmem => hcalm (List.mem_append_right _ hmem)

theorem Obeys.reports_eq (h : Obeys addr config s entries granted mailbox t reports) :
    reports = s.sends ((s.chunks 0 entries).take granted) ++
      if (s.chunks 0 entries).length ≤ granted then [s.ends (.ok s.outbound.metadata)] else [] := by
  cases h with
  | streaming h => rw [if_neg (Nat.not_le_of_lt h), List.append_nil]
  | ended h => rw [if_pos h, List.take_of_length_le h]

end Sending

/-! ### Before the first grant -/

section Start
variable {outbound : Outbound} {version : Version}

/-- At first the sender asks its storage for the state of the range. -/
theorem poll_sending (hv : outbound.metadata.version? = some version) (ho : links.storeOpen = true) (addr : Addr)
    (config : Config) (scanId : OpId) :
    (sending addr config outbound scanId).poll links now =
      (sendingIn addr config ⟨outbound, addr, config.chunkEntries, .capturing⟩ []
        (.running (.sender ⟨outbound, addr, config.chunkEntries, .capturing⟩) (now + config.transferTimeout)),
        [.deed (.request (.scan (.read scanId outbound.range version.pred)))]) := by
  have hstart : Sender.start links outbound addr config.chunkEntries scanId =
      ⟨.waiting ⟨outbound, addr, config.chunkEntries, .capturing⟩,
        [.request (.scan (.read scanId outbound.range version.pred))]⟩ := by
    rw [Sender.start, hv]
    exact if_pos ho
  have hstep : (sending addr config outbound scanId).step links now =
      some ((sending addr config outbound scanId).resume now
        ((Sender.start links outbound addr config.chunkEntries scanId).map .sender)) := rfl
  rw [hstart] at hstep
  exact (poll_of_step hstep).trans (by rw [poll_of_waiting rfl]; rfl)

/-- The answer of storage lets the sender announce the transfer. -/
theorem step_captured (addr : Addr) (config : Config) (now : Nat)
    (hc : ∀ m, links.carries outbound.recipient m = .ok ()) (captured : ScanResult) (mailbox : List Message)
    (deadline : Nat) :
    let s : Sender := ⟨outbound, addr, config.chunkEntries, .capturing⟩
    step { sendingIn addr config s mailbox (.running (.sender s) deadline) with
      reply? := some (.response (.scan captured)) } links now =
      some (sendingIn addr config s mailbox
        (.running (.sender (s.midway captured.results.entries 0)) (now + config.transferTimeout)),
        s.sends [s.announcement]) := by
  intro s
  have hsignal : s.signal links (.response (.scan captured)) =
      ⟨.waiting (s.midway captured.results.entries 0), [s.announcement].map (.send outbound.recipient)⟩ := by
    show Turn.sending links outbound.recipient s.announcement _ = _
    rw [Sender.midway, Nat.zero_mul, List.drop_zero, Turn.sending, hc]
    rfl
  have hstep : step { sendingIn addr config s mailbox (.running (.sender s) deadline) with
      reply? := some (.response (.scan captured)) } links now =
      some ((sendingIn addr config s mailbox (.running (.sender s) deadline)).resume now
        ((s.signal links (.response (.scan captured))).map .sender)) := rfl
  rw [hstep, hsignal, resume_waiting]

theorem hears_captured (addr : Addr) (config : Config) (hc : ∀ m, links.carries outbound.recipient m = .ok ())
    (captured : ScanResult) (deadline : Nat) (lot : Nat × List Message) (lots : List (Nat × List Message)) :
    let s : Sender := ⟨outbound, addr, config.chunkEntries, .capturing⟩
    (hears links { sendingIn addr config s [] (.running (.sender s) deadline) with
      reply? := some (.response (.scan captured)) } (lot :: lots)).2 =
      s.sends [s.announcement] ++ (hears links (sendingIn addr config s []
        (.running (.sender (s.midway captured.results.entries 0)) (lot.1 + config.transferTimeout))) (lot :: lots)).2 := by
  intro s
  have hpoll := poll_of_step (step_captured addr config lot.1 hc captured lot.2 deadline)
  have hears_cons : ∀ t : Transfer, (t.hears links (lot :: lots)).2 =
      ({ t with mailbox := t.mailbox ++ lot.2 }.poll links lot.1).2 ++
        (({ t with mailbox := t.mailbox ++ lot.2 }.poll links lot.1).1.hears links lots).2 := fun _ => rfl
  rw [hears_cons, hears_cons, ← List.append_assoc]
  simp only [sendingIn, List.nil_append] at hpoll ⊢
  rw [hpoll]

end Start

end Transfer

/-- The sender obeys any sequence of grants. Whatever lots of messages come, among them grants of any quotas for
    whatever transfer, as long as the sender does not give up waiting: it has asked its storage for the state of the
    range, announced the transfer, and sent the chunks from the first on, as many as have been granted in total, but
    no more than there are. A chunk holds the entries that its number says, the last one is marked and no other, and
    with it the sender ends well and does nothing more. -/
theorem sender_obeys_grants {links : Links} {outbound : Outbound} {version : Version} {captured : ScanResult}
    (hv : outbound.metadata.version? = some version) (ho : links.storeOpen = true)
    (hc : ∀ m, links.carries outbound.recipient m = .ok ()) (hfit : Entries.Fit captured.results.entries)
    (addr : Addr) (config : Config) (scanId : OpId) (begun : Nat) (lot : Nat × List Message)
    (lots : List (Nat × List Message)) :
    let asked := (Transfer.sending addr config outbound scanId).poll links begun
    let told := { asked.1 with reply? := some (.response (.scan captured)) }.hears links (lot :: lots)
    let entries := captured.results.entries
    let c := max 1 config.chunkEntries
    let n := max 1 ((entries.length + c - 1) / c)
    let granted := Shipment.quotas ((lot :: lots).flatMap (·.2))
    .completed ⟨outbound.id, .send, .error (.transfer outbound.id .noGrant)⟩ ∉ told.2 →
    ∃ chunks : List Message,
      asked.2 ++ told.2 =
        (.request (.scan (.read scanId outbound.range version.pred)) ::
          .send outbound.recipient (.initiate ⟨outbound.id, addr, outbound.range, outbound.metadata⟩) ::
          chunks.map (.send outbound.recipient)).map .deed ++
        (if n ≤ granted then [.completed ⟨outbound.id, .send, .ok outbound.metadata⟩] else []) ∧
      chunks.length = min granted n ∧
      (∀ i m, chunks[i]? = some m → ∃ payload, m = .data outbound.id i.toUInt32 payload (decide (i + 1 = n)) ∧
        (n ≤ 2 ^ 32 → i.toUInt32.toNat = i) ∧
        Wire.read Wire.decodeEntries payload = .ok ((entries.drop (i * c)).take c)) ∧
      ((List.range n).map fun i => (entries.drop (i * c)).take c).flatten = entries := by
  intro asked told entries c n granted hcalm
  let s : Sender := ⟨outbound, addr, config.chunkEntries, .capturing⟩
  have hn : (s.chunks 0 entries).length = n := s.length_chunks 0 entries
  have hasked : asked = _ := Transfer.poll_sending hv ho addr config scanId
  let fed := Transfer.hears links (Transfer.sendingIn addr config s []
    (.running (.sender (s.midway entries 0)) (lot.1 + config.transferTimeout))) (lot :: lots)
  have htold : told.2 = s.sends [s.announcement] ++ fed.2 := by
    simp only [told, hasked]
    exact Transfer.hears_captured addr config hc captured _ lot lots
  have hfed : fed.2 = s.sends ((s.chunks 0 entries).take granted) ++
      if n ≤ granted then [s.ends (.ok outbound.metadata)] else [] := by
    have hstart : Transfer.Obeys addr config s entries 0 [] (Transfer.sendingIn addr config s []
        (.running (.sender (s.midway entries 0)) (lot.1 + config.transferTimeout))) _ :=
      .streaming (List.length_pos_iff.mpr (s.chunks_ne_nil 0 entries))
    have hreports := (hstart.hears hc fun hmem => hcalm (htold ▸ List.mem_append_right _ hmem)).reports_eq
    rw [Nat.zero_add, hn] at hreports
    exact hreports
  refine ⟨(s.chunks 0 entries).take granted, ?_, ?_, ?_, ?_⟩
  · rw [hasked, htold, hfed, List.map_cons, List.map_cons, List.map_map]
    rfl
  · rw [List.length_take, hn]
  · intro i m hi
    rw [List.getElem?_take] at hi
    obtain ⟨-, hi⟩ := Option.ite_none_right_eq_some.mp hi
    have hlt : i < n := hn ▸ (List.getElem?_eq_some_iff.mp hi).1
    rw [Sender.getElem?_chunks (hn ▸ hlt), Nat.zero_add, Sender.chunk_eq (hn ▸ hlt), hn] at hi
    cases hi
    refine ⟨_, rfl, fun hfits => ?_, (Wire.reads_entries ?_).read⟩
    · exact UInt32.toNat_ofNat'.trans (Nat.mod_eq_of_lt (Nat.lt_of_lt_of_le hlt hfits))
    · exact (Wire.fit_take_drop (Wire.fit_take_drop hfit _).2 _).1
  · rw [← hn]
    exact s.flatten_slices 0 entries

/-- Three entries in chunks of two: an empty grant, a message of another kind, a grant for another transfer, and more
    than there is. -/
theorem two_chunks_for_six_grants :
    let outbound : Outbound := ⟨⟨7⟩, .name "new", .full, ⟨some 1, some 2⟩⟩
    let captured : ScanResult := ⟨⟨1⟩, .ofList [(⟨[97]⟩, [1]), (⟨[98]⟩, [2]), (⟨[99]⟩, [3])], false, .zero⟩
    let links : Links := .towards outbound.recipient
    let asked := (Transfer.sending (.name "old") { chunkEntries := 2 } outbound ⟨1⟩).poll links 0
    let told := { asked.1 with reply? := some (.response (.scan captured)) }.hears links
      [(1, [.grant ⟨7⟩ 0, .data ⟨7⟩ 0 [] true, .grant ⟨9⟩ 1]), (5, [.grant ⟨7⟩ 3, .grant ⟨7⟩ 2])]
    Entries.Fit captured.results.entries ∧
      .completed ⟨outbound.id, .send, .error (.transfer outbound.id .noGrant)⟩ ∉ told.2 ∧
      ∃ chunks : List Message, asked.2 ++ told.2 =
          (.request (.scan (.read ⟨1⟩ .full 1)) ::
            .send outbound.recipient (.initiate ⟨outbound.id, .name "old", .full, outbound.metadata⟩) ::
            chunks.map (.send outbound.recipient)).map .deed ++
          [.completed ⟨outbound.id, .send, .ok outbound.metadata⟩] ∧
        chunks.length = 2 := by
  intro outbound captured links asked told
  have hfit : Entries.Fit captured.results.entries :=
    show (Wire.encodeEntries captured.results.entries).length < 2 ^ 64 by decide
  have hcalm : .completed ⟨outbound.id, .send, .error (.transfer outbound.id .noGrant)⟩ ∉ told.2 := by
    have hended : (told.2.filterMap Transfer.Report.completion?).all (·.outcome.isOk) = true := by
      simp only [told, asked, links, captured, outbound]
      decide +kernel
    intro hmem
    cases List.all_eq_true.mp hended _ (List.mem_filterMap.mpr ⟨_, hmem, rfl⟩)
  obtain ⟨chunks, hreports, hlength, -, -⟩ := @sender_obeys_grants links outbound 2 captured rfl rfl
    (Links.towards_carries _) hfit (.name "old") { chunkEntries := 2 } ⟨1⟩ 0 _ _ hcalm
  rw [if_pos (by decide)] at hreports
  exact ⟨hfit, hcalm, chunks, hreports, hlength.trans (by decide)⟩

end ReplicaGroup
