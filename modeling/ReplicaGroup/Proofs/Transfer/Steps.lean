import ReplicaGroup.Proofs.Site.Effects

/-! # Steps of a transfer

A step of a transfer is a turn of its run, the end of a run that has waited in vain or was stopped, or
the last step after a stop. -/

namespace ReplicaGroup

namespace Transfer

/-- The ways in which a transfer can go on. -/
inductive Goes (t : Transfer) (links : Links) (now : Nat) : Transfer × List Report → Prop
  | begin {errand : Errand} (hs : t.stage = .created errand) :
    Goes t links now (t.resume now (t.begin links errand))
  | message {run : Run} {deadline : Nat} {m : Message} {rest : List Message} (hs : t.stage = .running run deadline)
    (hl : run.isListening = true) (hm : t.mailbox = m :: rest) :
    Goes t links now ({ t with mailbox := rest }.resume now (run.signal links (.message m)))
  | reply {run : Run} {deadline : Nat} {reply : Signal} (hs : t.stage = .running run deadline)
    (hl : run.isListening = false) (hr : t.reply? = some reply) :
    Goes t links now ({ t with reply? := none }.resume now (run.signal links reply))
  | giveUp {run : Run} {deadline : Nat} (fault : Fault) (hs : t.stage = .running run deadline) :
    Goes t links now (t.finish (.error fault))
  | stop (hs : t.stage = .reported) : Goes t links now ({ t with stage := .stopped }, [.stopped])

theorem goes_of_halt {t : Transfer} {links : Links} {now : Nat} {run : Run} {deadline : Nat}
    {out : Transfer × List Report} (hs : t.stage = .running run deadline) (h : t.halt? = some out) :
    t.Goes links now out := by
  unfold halt? at h
  split at h
  · cases h
    exact .giveUp _ hs
  · cases h

theorem goes_of_step {t : Transfer} {links : Links} {now : Nat} {out : Transfer × List Report}
    (h : t.step links now = some out) : t.Goes links now out := by
  unfold step at h
  split at h
  · next hs => cases h; exact .begin hs
  · next hs =>
    split at h
    · next hl =>
      split at h
      · next hm => cases h; exact .message hs hl hm
      · split at h
        · cases h; exact .giveUp _ hs
        · split at h
          · split at h
            · cases h; exact .giveUp _ hs
            · exact goes_of_halt hs h
          · exact goes_of_halt hs h
    · next hl =>
      split at h
      · next hr => cases h; exact .reply hs (Bool.not_eq_true _ ▸ hl) hr
      · exact goes_of_halt hs h
  · next hs =>
    split at h
    · cases h; exact .stop hs
    · cases h
  · cases h

/-- What the turn of a run makes of its transfer. -/
theorem resume_fst (t : Transfer) (now : Nat) (turn : Turn Run) :
    (t.resume now turn).1 =
      match turn.progress with
      | .waiting run => { t with stage := .running run (now + t.config.transferTimeout) }
      | .ended _ => { t with stage := .reported, mailbox := [], reply? := none } := by
  unfold resume
  cases turn.progress <;> rfl

theorem resume_snd (t : Transfer) (now : Nat) (turn : Turn Run) :
    (t.resume now turn).2 = turn.deeds.map .deed ++
      match turn.progress with
      | .waiting _ => []
      | .ended outcome => [.completed ⟨t.id, t.role, outcome⟩] := by
  unfold resume
  cases turn.progress <;> rfl

variable {t u : Transfer} {links : Links} {now : Nat}

theorem poll_of_step {reports : List Report} (h : t.step links now = some (u, reports)) :
    t.poll links now = ((u.poll links now).1, reports ++ (u.poll links now).2) := by
  rw [poll]
  split
  · next hnone => rw [hnone] at h; cases h
  · next hsome =>
    rw [hsome] at h
    cases h
    rfl

theorem poll_of_waiting (h : t.step links now = none) : t.poll links now = (t, []) := by
  rw [poll]
  split
  · rfl
  · next hsome => rw [hsome] at h; cases h

end Transfer

/-! ### Sending transfers -/

/-- Whether a request only reads a range. -/
def Request.IsRead (r : Request) : Prop := ∃ id range ceiling, r = .scan (.read id range ceiling)

/-- Whether a deed asks storage for nothing but a read. -/
def Deed.IsRead (d : Deed) : Prop := ∀ r, d = .request r → r.IsRead

theorem Turn.sending_deeds {σ : Type} {links : Links} {dest : Addr} {m : Message} {next : Turn σ} {P : Deed → Prop}
    (hm : P (.send dest m)) (hn : ∀ d ∈ next.deeds, P d) : ∀ d ∈ (Turn.sending links dest m next).deeds, P d := by
  unfold Turn.sending
  split
  · simp [fail]
  · intro d hd
    rcases List.mem_cons.mp hd with rfl | hd
    · exact hm
    · exact hn d hd

namespace Sender
variable {s : Sender} {links : Links}

theorem start_deeds (outbound : Outbound) (source : Addr) (chunkEntries : Nat) (scanId : OpId) :
    ∀ d ∈ (start links outbound source chunkEntries scanId).deeds, d.IsRead := by
  unfold start
  split
  · simp [Turn.fail]
  · unfold Turn.requesting
    split
    · intro d hd r hr
      cases (List.mem_singleton.mp hd).symm.trans hr
      exact ⟨_, _, _, rfl⟩
    · simp [Turn.fail]

theorem stream_deeds (quota sent : Nat) (rest : Entries) :
    ∀ d ∈ (s.stream links quota sent rest).deeds, ∃ m, d = .send s.outbound.recipient m := by
  induction quota generalizing sent rest with
  | zero => simp [stream, Turn.wait]
  | succ quota ih =>
    refine Turn.sending_deeds ⟨_, rfl⟩ ?_
    split
    · simp [Turn.finish]
    · exact ih _ _

theorem signal_deeds (signal : Signal) :
    ∀ d ∈ (s.signal links signal).deeds, ∃ m, d = .send s.outbound.recipient m := by
  unfold Sender.signal
  split
  · exact Turn.sending_deeds ⟨_, rfl⟩ (by simp [Turn.wait])
  · simp [Turn.fail]
  · simp [Turn.fail]
  · exact stream_deeds _ _ _
  · simp [Turn.wait]

end Sender

/-- Whether a transfer sends, or has ended its run. -/
def Transfer.Stage.reads : Transfer.Stage → Bool
  | .created (.send ..) | .running (.sender _) _ | .reported | .stopped => true
  | .created .receive | .running (.receiver _) _ => false

namespace Transfer

theorem resume_reads {t : Transfer} {now : Nat} {turn : Turn Sender} (hd : ∀ d ∈ turn.deeds, d.IsRead) :
    (t.resume now (turn.map .sender)).1.stage.reads = true ∧
      ∀ r ∈ (t.resume now (turn.map .sender)).2.filterMap Report.request?, r.IsRead := by
  rw [resume_fst, resume_snd]
  constructor
  · obtain ⟨_ | _, deeds⟩ := turn <;> rfl
  · intro r hr
    obtain ⟨report, hreport, hr⟩ := List.mem_filterMap.mp hr
    rcases List.mem_append.mp hreport with h | h
    · obtain ⟨d, hd', rfl⟩ := List.mem_map.mp h
      cases d with
      | request r' =>
        cases hr
        exact hd _ hd' r rfl
      | send dest m => cases hr
    · obtain ⟨_ | _, deeds⟩ := turn
      · cases h
      · cases List.mem_singleton.mp h
        cases hr

/-- A sending transfer stays one until it ends, and only reads from storage. -/
theorem step_reads {t : Transfer} {links : Links} {now : Nat} {out : Transfer × List Report}
    (ht : t.stage.reads = true) (h : t.step links now = some out) :
    out.1.stage.reads = true ∧ ∀ r ∈ out.2.filterMap Report.request?, r.IsRead := by
  have sends : ∀ (s : Sender) (signal : Signal), ∀ d ∈ (s.signal links signal).deeds, d.IsRead := by
    intro s signal d hd r hr
    obtain ⟨m, rfl⟩ := s.signal_deeds signal d hd
    cases hr
  cases goes_of_step h with
  | @begin errand hs =>
    rw [hs] at ht
    cases errand with
    | receive => cases ht
    | send outbound scanId => exact resume_reads (Sender.start_deeds _ _ _ _)
  | @message run deadline m rest hs hl hm =>
    rw [hs] at ht
    cases run with
    | receiver r => cases ht
    | sender s => exact resume_reads (sends s _)
  | @reply run deadline reply hs hl hr =>
    rw [hs] at ht
    cases run with
    | receiver r => cases ht
    | sender s => exact resume_reads (sends s _)
  | giveUp fault hs => exact ⟨rfl, by simp [finish, Report.request?]⟩
  | stop hs => exact ⟨rfl, by simp [Report.request?]⟩

end Transfer
end ReplicaGroup
