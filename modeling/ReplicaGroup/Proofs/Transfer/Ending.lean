import Mathlib.Data.List.Induction
import ReplicaGroup.Proofs.Transfer.Carrying

/-! # How a transfer ends

A transfer is stopped by its owner at any time. Where its run and the stop are both ready to end it, either may
come first. Whichever does, the end is reported once, and after it only that the transfer has stopped. -/

namespace ReplicaGroup

namespace Transfer

/-- Takes the stop of a transfer whose run might go on. -/
def halt (t : Transfer) : Option (Transfer × List Report) := if t.isOpen then t.halt? else none

/-- What can happen to a transfer. -/
inductive Act where
  /-- Others queue something for it, or leave it without anybody to send it messages. -/
  | change (mailbox : List Message) (orphaned : Bool) (reply? : Option Signal)
  /-- Its owner stops it. -/
  | stop
  | step (links : Links) (now : Nat)
  /-- It takes the stop first. -/
  | halt

/-- The transfer after an act, and what it reports; `none` if the act is not possible. -/
def act (t : Transfer) : Act → Option (Transfer × List Report)
  | .change mailbox orphaned reply? => some ({ t with mailbox, orphaned, reply? }, [])
  | .stop => some ({ t with stopping := true }, [])
  | .step links now => t.step links now
  | .halt => t.halt

/-- The transfer after acts, and all that it reports. -/
def life (t : Transfer) : List Act → Option (Transfer × List Report)
  | [] => some (t, [])
  | a :: acts => (t.act a).bind fun out => (out.1.life acts).map fun later => (later.1, out.2 ++ later.2)

/-- What the run of a transfer does next by itself, whether the transfer is stopped or not; `none` if it has to wait. It
    begins, it takes the response or the message that it waits for, or it gives up because no message can come any more,
    or none has come in time. -/
def turn? (t : Transfer) (links : Links) (now : Nat) : Option (Turn Run) :=
  match t.stage with
  | .created errand => some (t.begin links errand)
  | .running run deadline =>
    if run.isListening then
      match t.mailbox with
      | m :: _ => some (run.signal links (.message m))
      | [] =>
        if t.orphaned then some (.fail .sourceClosed)
        else run.silence?.bind fun fault => if deadline ≤ now then some (.fail fault) else none
    else t.reply?.map (run.signal links)
  | .reported | .stopped => none

/-- A transfer without what its run takes next. -/
def taken (t : Transfer) : Transfer :=
  match t.stage with
  | .running run _ =>
    if run.isListening then { t with mailbox := t.mailbox.tail } else { t with reply? := none }
  | .created _ | .reported | .stopped => t

/-- The fault of being stopped before the run ends. -/
def stopFault (t : Transfer) : Fault := .transfer t.id .stopped

/-- How an act ends the run of a transfer. -/
inductive Ends (t : Transfer) : Act → Except Fault Metadata → Prop
  /-- The run ends by itself, whether the transfer is stopped or not. -/
  | run {links : Links} {now : Nat} {turn : Turn Run} {outcome : Except Fault Metadata}
    (ht : t.turn? links now = some turn) (he : turn.progress = .ended outcome) : Ends t (.step links now) outcome
  /-- The run has to wait, and the transfer is stopped. -/
  | waits {links : Links} {now : Nat} (ht : t.turn? links now = none) (hs : t.stopping = true) :
    Ends t (.step links now) (.error t.stopFault)
  | halt (hs : t.stopping = true) : Ends t .halt (.error t.stopFault)

variable {t u : Transfer} {links : Links} {now : Nat} {reports : List Report}

theorem identity_taken (t : Transfer) : t.taken.id = t.id ∧ t.taken.role = t.role := by
  unfold taken
  split
  · split <;> exact ⟨rfl, rfl⟩
  all_goals exact ⟨rfl, rfl⟩

/-- An open transfer takes the turn of its run. A stop counts only where the run has to wait. -/
theorem step_eq (ho : t.isOpen = true) :
    t.step links now = ((t.turn? links now).map (t.taken.resume now)).or t.halt? := by
  unfold step turn? taken
  cases hs : t.stage with
  | reported | stopped =>
    rw [isOpen, hs] at ho
    cases ho
  | created errand => rfl
  | running run deadline =>
    dsimp only
    cases run.isListening with
    | true =>
      rw [if_pos rfl, if_pos rfl, if_pos rfl]
      cases t.mailbox with
      | cons m rest => rfl
      | nil =>
        dsimp only
        split
        · rfl
        · cases run.silence? with
          | none => rfl
          | some fault =>
            dsimp only [Option.bind_some]
            split <;> rfl
    | false =>
      rw [if_neg Bool.false_ne_true, if_neg Bool.false_ne_true, if_neg Bool.false_ne_true]
      cases t.reply? <;> rfl

theorem isOpen_of_stage (hs : u.stage = t.stage) : u.isOpen = t.isOpen := by rw [isOpen, isOpen, hs]

/-- What an act makes of a transfer. -/
inductive Proceeds (t : Transfer) (a : Act) : Transfer × List Report → Prop
  | changes {u : Transfer} (hstage : u.stage = t.stage) (hstop : t.stopping = true → u.stopping = true)
    (hne : ∀ outcome, ¬t.Ends a outcome) : Proceeds t a (u, [])
  | runs {u : Transfer} {deeds : List Deed} (ho : t.isOpen = true) (hu : u.isOpen = true)
    (hne : ∀ outcome, ¬t.Ends a outcome) : Proceeds t a (u, deeds.map .deed)
  | ends {u : Transfer} {deeds : List Deed} {outcome : Except Fault Metadata} (ho : t.isOpen = true)
    (hu : u.stage = .reported) (he : t.Ends a outcome) :
    Proceeds t a (u, deeds.map .deed ++ [.completed ⟨t.id, t.role, outcome⟩])
  | stops {u : Transfer} (hs : t.stage = .reported) (hstop : u.stopping = true) (hu : u.stage = .stopped) :
    Proceeds t a (u, [.stopped])

/-- A turn of the run goes on, or ends the run, whose outcome is reported. -/
theorem proceeds_resume {turn : Turn Run} (ho : t.isOpen = true) (ht : t.turn? links now = some turn) :
    t.Proceeds (.step links now) (t.taken.resume now turn) := by
  obtain ⟨hid, hrole⟩ := identity_taken t
  unfold resume
  cases hp : turn.progress with
  | waiting run =>
    dsimp only
    rw [List.append_nil]
    refine .runs ho rfl fun outcome he => ?_
    cases he with
    | run ht' he =>
      cases ht.symm.trans ht'
      cases hp.symm.trans he
    | waits ht' hs => cases ht.symm.trans ht'
  | ended outcome =>
    simp only [finish, hid, hrole]
    exact .ends ho rfl (.run ht hp)

theorem proceeds_step {out : Transfer × List Report} (h : t.step links now = some out) :
    t.Proceeds (.step links now) out := by
  cases ho : t.isOpen with
  | true =>
    rw [step_eq ho] at h
    cases ht : t.turn? links now with
    | some turn =>
      rw [ht] at h
      cases h
      exact proceeds_resume ho ht
    | none =>
      rw [ht] at h
      obtain ⟨hs, h⟩ := Option.ite_none_right_eq_some.mp h
      cases h
      exact @Proceeds.ends t _ _ [] _ ho rfl (.waits ht hs)
  | false =>
    unfold step at h
    cases hs : t.stage with
    | created | running => rw [isOpen, hs] at ho; cases ho
    | reported =>
      rw [hs] at h
      obtain ⟨hstop, h⟩ := Option.ite_none_right_eq_some.mp h
      cases h
      exact .stops hs hstop rfl
    | stopped =>
      rw [hs] at h
      cases h

theorem proceeds_halt {out : Transfer × List Report} (h : t.halt = some out) : t.Proceeds .halt out := by
  obtain ⟨ho, h⟩ := Option.ite_none_right_eq_some.mp h
  obtain ⟨hs, h⟩ := Option.ite_none_right_eq_some.mp h
  cases h
  exact @Proceeds.ends t _ _ [] _ ho rfl (.halt hs)

theorem proceeds_of_act {a : Act} {out : Transfer × List Report} (h : t.act a = some out) : t.Proceeds a out := by
  cases a with
  | change mailbox orphaned reply? => cases h; exact .changes rfl (fun hs => hs) nofun
  | stop => cases h; exact .changes rfl (fun _ => rfl) nofun
  | step links now => exact proceeds_step h
  | halt => exact proceeds_halt h

theorem role_resume (t : Transfer) (now : Nat) (turn : Turn Run) : (t.resume now turn).1.role = t.role := by
  rw [resume_fst]
  cases turn.progress <;> rfl

theorem role_of_goes {out : Transfer × List Report} (h : t.Goes links now out) : out.1.role = t.role := by
  cases h with
  | begin hs => exact role_resume ..
  | message hs hl hm => exact role_resume ..
  | reply hs hl hr => exact role_resume ..
  | giveUp fault hs => rfl
  | stop hs => rfl

/-- A transfer keeps its identifier and its side. -/
theorem identity_of_act {a : Act} {out : Transfer × List Report} (h : t.act a = some out) :
    out.1.id = t.id ∧ out.1.role = t.role := by
  cases a with
  | change | stop => cases h; exact ⟨rfl, rfl⟩
  | step links now => exact ⟨id_of_goes (goes_of_step h), role_of_goes (goes_of_step h)⟩
  | halt =>
    obtain ⟨-, h⟩ := Option.ite_none_right_eq_some.mp h
    obtain ⟨-, h⟩ := Option.ite_none_right_eq_some.mp h
    cases h
    exact ⟨rfl, rfl⟩

/-! ### Lives -/

variable {acts : List Act} {a : Act}

theorem life_concat (t : Transfer) (acts : List Act) (a : Act) : t.life (acts ++ [a]) =
    (t.life acts).bind fun out => (out.1.act a).map fun later => (later.1, out.2 ++ later.2) := by
  induction acts generalizing t with
  | nil =>
    simp only [List.nil_append, life, Option.bind_some]
    cases t.act a <;> simp
  | cons b acts ih =>
    simp only [List.cons_append, life]
    cases t.act b with
    | none => rfl
    | some out =>
      simp only [Option.bind_some, ih]
      cases out.1.life acts with
      | none => rfl
      | some mid => cases h : mid.1.act a <;> simp [h]

theorem identity_of_life {out : Transfer × List Report} (h : t.life acts = some out) :
    out.1.id = t.id ∧ out.1.role = t.role := by
  induction acts using List.reverseRecOn generalizing out with
  | nil => cases h; exact ⟨rfl, rfl⟩
  | append_singleton acts a ih =>
    rw [life_concat] at h
    obtain ⟨mid, hmid, h⟩ := Option.bind_eq_some_iff.mp h
    obtain ⟨later, hact, rfl⟩ := Option.map_eq_some_iff.mp h
    obtain ⟨hid, hrole⟩ := identity_of_act hact
    exact ⟨hid.trans (ih hmid).1, hrole.trans (ih hmid).2⟩

/-- Whether the run of a transfer ended with an outcome at one of its acts, open until then. -/
def EndedBy (t : Transfer) (acts : List Act) (outcome : Except Fault Metadata) : Prop :=
  ∃ front a back mid, acts = front ++ a :: back ∧ t.life front = some mid ∧ mid.1.isOpen = true ∧ mid.1.Ends a outcome

/-- What a transfer reports: its deeds while it is open and its run has not ended, then the end of its run, and last that
    it has stopped. -/
inductive Tells (t : Transfer) (acts : List Act) : Transfer × List Report → Prop
  | running {u : Transfer} {deeds : List Deed} (hu : u.isOpen = true) (hne : ∀ outcome, ¬t.EndedBy acts outcome) :
    Tells t acts (u, deeds.map .deed)
  | ended {u : Transfer} {deeds : List Deed} {outcome : Except Fault Metadata} (hu : u.stage = .reported)
    (he : t.EndedBy acts outcome) : Tells t acts (u, deeds.map .deed ++ [.completed ⟨t.id, t.role, outcome⟩])
  | stopped {u : Transfer} {deeds : List Deed} {outcome : Except Fault Metadata} (hu : u.stage = .stopped)
    (hs : u.stopping = true) (he : t.EndedBy acts outcome) :
    Tells t acts (u, deeds.map .deed ++ [.completed ⟨t.id, t.role, outcome⟩, .stopped])

theorem EndedBy.concat {outcome : Except Fault Metadata} (h : t.EndedBy acts outcome) (a : Act) :
    t.EndedBy (acts ++ [a]) outcome := by
  obtain ⟨front, b, back, mid, rfl, hmid⟩ := h
  exact ⟨front, b, back ++ [a], mid, by simp, hmid⟩

/-- An act that ends nothing leaves it open whether the run has ended. -/
theorem EndedBy.of_concat {out : Transfer × List Report} {outcome : Except Fault Metadata}
    (h : t.EndedBy (acts ++ [a]) outcome) (hlife : t.life acts = some out) (hne : ¬out.1.Ends a outcome) :
    t.EndedBy acts outcome := by
  obtain ⟨front, b, back, mid, hacts, hmid, ho, he⟩ := h
  rcases List.eq_nil_or_concat back with rfl | ⟨back, c, rfl⟩
  · obtain ⟨rfl, hb⟩ := List.append_inj' hacts rfl
    cases hb
    cases hlife.symm.trans hmid
    exact absurd he hne
  · rw [List.concat_eq_append, ← List.cons_append, ← List.append_assoc] at hacts
    exact ⟨front, b, back, mid, (List.append_inj' hacts rfl).1, hmid, ho, he⟩

theorem not_isOpen_of_reported (h : t.stage = .reported) : t.isOpen ≠ true := by
  rw [isOpen, h]
  exact Bool.false_ne_true

theorem not_isOpen_of_stopped (h : t.stage = .stopped) : t.isOpen ≠ true := by
  rw [isOpen, h]
  exact Bool.false_ne_true

/-- One act more. -/
theorem Tells.proceeds {out later : Transfer × List Report} (h : t.Tells acts out) (hlife : t.life acts = some out)
    (hp : out.1.Proceeds a later) : t.Tells (acts ++ [a]) (later.1, out.2 ++ later.2) := by
  obtain ⟨hid, hrole⟩ := identity_of_life hlife
  cases h with
  | @running u deeds hu hnone =>
    cases hp with
    | @changes v hstage hstop hne =>
      rw [List.append_nil]
      exact .running ((isOpen_of_stage hstage).trans hu) fun outcome he =>
        hnone outcome (he.of_concat hlife (hne outcome))
    | runs ho hv hne =>
      rw [← List.map_append]
      exact .running hv fun outcome he => hnone outcome (he.of_concat hlife (hne outcome))
    | ends ho hv he =>
      rw [← List.append_assoc, ← List.map_append, hid, hrole]
      exact .ended hv ⟨acts, a, [], _, rfl, hlife, ho, he⟩
    | stops hs hstop hv => exact absurd hu (not_isOpen_of_reported hs)
  | @ended u deeds outcome hu he =>
    cases hp with
    | changes hstage hstop _ =>
      rw [List.append_nil]
      exact .ended (hstage.trans hu) (he.concat a)
    | runs ho hv _ => exact absurd ho (not_isOpen_of_reported hu)
    | ends ho hv _ => exact absurd ho (not_isOpen_of_reported hu)
    | stops hs hstop hv =>
      rw [List.append_assoc]
      exact .stopped hv hstop (he.concat a)
  | @stopped u deeds outcome hu hstop he =>
    cases hp with
    | changes hstage hstays _ =>
      rw [List.append_nil]
      exact .stopped (hstage.trans hu) (hstays hstop) (he.concat a)
    | runs ho hv _ => exact absurd ho (not_isOpen_of_stopped hu)
    | ends ho hv _ => exact absurd ho (not_isOpen_of_stopped hu)
    | stops hs _ hv =>
      rw [hs] at hu
      cases hu

theorem tells_of_life {out : Transfer × List Report} (ht : t.isOpen = true) (h : t.life acts = some out) :
    t.Tells acts out := by
  -- On the last act: what is told before it decides what can still be told.
  induction acts using List.reverseRecOn generalizing out with
  | nil =>
    cases h
    refine @Tells.running t _ _ [] ht fun outcome he => ?_
    obtain ⟨front, b, back, mid, hacts, -⟩ := he
    exact absurd hacts (by simp)
  | append_singleton acts a ih =>
    rw [life_concat] at h
    obtain ⟨mid, hmid, h⟩ := Option.bind_eq_some_iff.mp h
    obtain ⟨later, hact, rfl⟩ := Option.map_eq_some_iff.mp h
    exact (ih hmid).proceeds hmid (proceeds_of_act hact)

/-! ### Stopping -/

theorem stopping_step {out : Transfer × List Report} (h : t.step links now = some out) : out.1.stopping = t.stopping := by
  have turns : ∀ (v : Transfer) turn, (v.resume now turn).1.stopping = v.stopping := fun v turn => by
    rw [resume_fst]
    cases turn.progress <;> rfl
  cases goes_of_step h with
  | begin hs => exact turns ..
  | message hs hl hm => exact turns ..
  | reply hs hl hr => exact turns ..
  | giveUp fault hs => rfl
  | stop hs => rfl

/-- A transfer that is told to stop never has to wait before it has. -/
theorem stopped_of_waiting (hs : t.stopping = true) (h : t.step links now = none) : t.stage = .stopped := by
  cases ho : t.isOpen with
  | true =>
    rw [step_eq ho, Option.or_eq_none_iff] at h
    rw [halt?, if_pos hs] at h
    cases h.2
  | false =>
    unfold step at h
    cases hstage : t.stage with
    | created | running => rw [isOpen, hstage] at ho; cases ho
    | reported =>
      rw [hstage] at h
      exact absurd h (by simp [hs])
    | stopped => rfl

/-- It stops by itself. -/
theorem stopped_poll (hs : t.stopping = true) : (t.poll links now).1.stage = .stopped := by
  -- On the work that is left, which every step lessens.
  induction hw : t.work using Nat.strongRecOn generalizing t with
  | ind w ih =>
    cases h : t.step links now with
    | none =>
      rw [poll_of_waiting h]
      exact stopped_of_waiting hs h
    | some out =>
      rw [poll_of_step h]
      exact ih out.1.work (hw ▸ work_step_lt h) ((stopping_step h).trans hs) rfl

end Transfer
end ReplicaGroup
