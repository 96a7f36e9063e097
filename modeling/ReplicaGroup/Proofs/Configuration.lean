import ReplicaGroup.Proofs.Site.Standing

/-! # The configuration of a group

A group has one replica that serves from the beginning, and replicas that join. A replica that has joined late may
have moved to views that are old news to the group; the move that starts its transfer is news to both, and from there
on they have the same configuration. -/

namespace ReplicaGroup

/-! ### The decided configuration -/

namespace ViewChange

/-- The configuration of a replica that knows no view. -/
def none : ViewChange := ⟨.none, 0, .full⟩

/-- The configuration after a value. -/
def after (c : ViewChange) : Value → ViewChange
  | .reconfigure r => if r.view.isNewerThan c.view then ⟨r.view, r.quorum, r.range⟩ else c
  | _ => c

/-- The configuration after values, one after the other. -/
def afterAll (c : ViewChange) (values : List (Position × Value)) : ViewChange := values.foldl (fun c e => c.after e.2) c

theorem afterAll_append (c : ViewChange) (front back : List (Position × Value)) :
    c.afterAll (front ++ back) = (c.afterAll front).afterAll back := List.foldl_append

/-- A configuration moves with its view. -/
theorem view_after (c : ViewChange) (v : Value) : (c.after v).view = c.view.after v := by
  cases v with
  | reconfigure r =>
    unfold after View.after
    dsimp only
    split <;> rfl
  | op | scan | syncedUp | noop | unknown => rfl

theorem after_of_not_newer {c : ViewChange} {v : Value}
    (hn : ∀ r, v = .reconfigure r → r.view.isNewerThan c.view = false) : c.after v = c := by
  cases v with
  | reconfigure r => exact if_neg (Bool.eq_false_iff.mp (hn r rfl))
  | op | scan | syncedUp | noop | unknown => rfl

theorem after_of_newer {c : ViewChange} {r : Reconfiguration} (hn : r.view.isNewerThan c.view = true) :
    c.after (.reconfigure r) = ⟨r.view, r.quorum, r.range⟩ := if_pos hn

end ViewChange

namespace Decided
variable {D : Decided} {c : ViewChange} {first first' p q n : Position}

/-- The configuration that the decisions from `first` on and before `p` make of `c`. -/
def configured (D : Decided) (c : ViewChange) (first p : Position) : ViewChange := c.afterAll (D.segment first (p - first))

theorem configured_of_le (h : p ≤ first) : D.configured c first p = c := by
  rw [configured, Nat.sub_eq_zero_of_le h]
  rfl

theorem configured_succ (h : first ≤ p) : D.configured c first (p + 1) = (D.configured c first p).after (D p) := by
  have hone : D.segment (first + (p - first)) 1 = [(p, D p)] := by
    rw [Nat.add_sub_of_le h, segment_succ, segment_zero]
  rw [configured, Nat.succ_sub h, Nat.succ_eq_add_one, ← segment_append, ViewChange.afterAll_append, hone]
  rfl

/-- Decisions without any move to a view may as well not be known. -/
theorem configured_of_no_move (hfirst : first ≤ p) (h : ∀ q < first, ∀ r, D q ≠ .reconfigure r) :
    D.configured c first p = D.configured c 0 p := by
  induction p, hfirst using Nat.le_induction with
  | base =>
    rw [configured_of_le (Nat.le_refl first)]
    induction first with
    | zero => exact (configured_of_le (Nat.le_refl 0)).symm
    | succ first ih =>
      rw [configured_succ (Nat.zero_le first), ← ih fun q hq => h q (Nat.lt_succ_of_lt hq)]
      exact (ViewChange.after_of_not_newer fun r hr => absurd hr (h first (Nat.lt_succ_self first) r)).symm
  | succ p hp ih => rw [configured_succ hp, configured_succ (Nat.zero_le p), ih]

/-- Whoever has seen the decisions for longer has no older view. -/
theorem number_configured_le (h : first ≤ first') (hp : first' ≤ p) :
    (D.configured .none first' p).view.number ≤ (D.configured c first p).view.number := by
  induction p, hp using Nat.le_induction with
  | base =>
    rw [configured_of_le (Nat.le_refl first')]
    exact Nat.zero_le _
  | succ p hp ih =>
    rw [configured_succ hp, configured_succ (Nat.le_trans h hp), ViewChange.view_after, ViewChange.view_after]
    exact View.number_after_le ih

/-- A move that is news to the group is news to everybody who sees it, and all have the same configuration from then
    on. -/
theorem configured_eq_of_newer {r : Reconfiguration} (hfirst : first ≤ q) (hr : D q = .reconfigure r)
    (hn : r.view.isNewerThan (D.configured c 0 q).view = true) (hq : q < n) :
    D.configured .none first n = D.configured c 0 n := by
  have hle := number_configured_le (D := D) (c := c) (Nat.zero_le first) hfirst
  induction n, Nat.succ_le_of_lt hq using Nat.le_induction with
  | base =>
    have hn' : r.view.isNewerThan (D.configured .none first q).view = true := by
      simp only [View.isNewerThan, decide_eq_true_iff] at hn ⊢
      exact Nat.lt_of_le_of_lt hle hn
    rw [configured_succ hfirst, configured_succ (Nat.zero_le q), hr, ViewChange.after_of_newer hn,
      ViewChange.after_of_newer hn']
  | succ n hn' ih =>
    rw [configured_succ (Nat.le_trans hfirst (Nat.le_of_succ_le hn')), configured_succ (Nat.zero_le n),
      ih (Nat.lt_of_succ_le hn')]

end Decided

/-! ### The configuration of an engine -/

namespace Engine
variable {e : Engine} {h : Host} {p : Position} {v : Value}

/-- The configuration of an engine. -/
def change (e : Engine) : ViewChange := ⟨e.view, e.quorum, e.range⟩

theorem Kept.change {e' : Engine} (k : e.Kept e') : e'.change = e.change := by
  unfold Engine.change
  rw [k.view, k.quorum, k.range]

theorem change_apply (hf : (e.apply h p v).fault? = none) : (e.apply h p v).engine.change = e.change.after v := by
  have ht := turns_apply hf
  generalize e.apply h p v = s at ht
  cases ht with
  | stays he hx hn hs =>
    rw [he]
    exact (ViewChange.after_of_not_newer hn).symm
  | joins hm hn hv => exact (ViewChange.after_of_newer hn).symm
  | follows hm hn hv => exact (ViewChange.after_of_newer hn).symm
  | moves hm hn hv hsent =>
    refine (kept_finishTransferring _).change.trans ?_
    exact (ViewChange.after_of_newer hn).symm
  | settles hs hv he hx =>
    rw [he]
    rfl

theorem lasts_change (c : ViewChange) : Lasts fun l e => e.change = c.afterAll (l.map Application.decision) where
  kept _ _ _ h k := k.change.trans h
  log _ _ _ h := h
  apply l e h p value hc hf := by
    rw [change_apply hf, List.map_append, ViewChange.afterAll_append, ← hc]
    rfl

/-- Only a move to a newer view starts to send, with the position of the move and the version that follows. -/
theorem Turns.outbound {s : Step} {x : Effect} {outbound : Outbound} (ht : Turns h p e v s) (hx : x ∈ s.effects)
    (ho : x.outbound? = some outbound) : ∃ r version, v = .reconfigure r ∧ e.mode.isServing = true ∧
      r.view.isNewerThan e.view = true ∧ e.version.succ? = some version ∧
      outbound.metadata = ⟨some p, some version⟩ := by
  cases ht with
  | stays he hroutine hn hs => cases hroutine x hx <;> cases ho
  | joins hm hn hv =>
    rw [List.mem_singleton.mp hx] at ho
    cases ho
  | follows hm hn hv => cases hx
  | @moves r version sent hm hn hv hsent =>
    obtain ⟨n, scanId, -, a, -, rfl⟩ := exists_of_mem_sendings (hsent ▸ hx)
    cases ho
    exact ⟨r, version, rfl, hm, hn, hv, rfl⟩
  | settles hs hv he heffects =>
    rw [heffects] at hx
    simp only [List.mem_cons, List.not_mem_nil, or_false] at hx
    rcases hx with rfl | rfl | rfl <;> cases ho

/-- A value that fails does not start to send. -/
theorem outbound_apply {x : Effect} {outbound : Outbound} (hx : x ∈ (e.apply h p v).effects)
    (ho : x.outbound? = some outbound) : ∃ r version, v = .reconfigure r ∧ e.mode.isServing = true ∧
      r.view.isNewerThan e.view = true ∧ e.version.succ? = some version ∧
      outbound.metadata = ⟨some p, some version⟩ := by
  cases v with
  | op op => exact (turns_op op).outbound hx ho
  | reconfigure r =>
    rcases turns_or_fails_reconfigure (h := h) (p := p) (e := e) r with ht | ⟨-, fault, heq⟩
    · exact ht.outbound hx ho
    · rw [show e.apply h p (.reconfigure r) = _ from heq] at hx
      cases hx
  | scan id range => exact (turns_scan id range).outbound hx ho
  | syncedUp id =>
    have hnone : x.outbound? = none :=
      (all_syncedUp (I := fun _ => True) (P := fun x => x.outbound? = none) trivial (fun _ _ _ _ => trivial) (fun _ => rfl)
        rfl).2 x hx
    cases hnone.symm.trans ho
  | noop | unknown => cases hx

end Engine

/-! ### A group -/

/-- What is announced of the transfers that an application starts. -/
def Application.announced (a : Application) : List Metadata := (a.effects.filterMap Effect.outbound?).map (·.metadata)

namespace Site
variable {D : Decided} {initial : ViewChange} {group : List Site} {s t : Site} {n p : Position} {e : Engine}

/-- The first replica of a group, which serves from the beginning. No move to a view is decided before the first
    decision that it sees. -/
def IsFounder (D : Decided) (initial : ViewChange) (s : Site) : Prop :=
  ∃ addr config draw peers, RunsFrom D (bootstrapped addr config draw peers initial) s ∧
    ∀ b ∈ s.applied.head?, ∀ q < b.position, ∀ r, D q ≠ .reconfigure r

/-- Whether a site has started the transfer of a catch-up when it applied a decision before `p`. -/
def HasSent (t : Site) (sync : Syncing) (p : Position) : Prop :=
  ∃ c ∈ t.applied, c.position < p ∧ ⟨some sync.snapshot, some sync.version⟩ ∈ c.announced

/-- A replica that starts with nothing. What it receives before it completes a catch-up is sent by a replica of the
    group, which has started to send before the marker. -/
def IsJoiner (D : Decided) (group : List Site) (s : Site) : Prop :=
  ∃ addr config draw peers, RunsFrom D (fresh addr config draw peers) s ∧
    ∀ b ∈ s.applied, ∀ sync, b.completed? = some sync → ∃ t ∈ group, t.HasSent sync b.position

/-- Whether a replica has seen the decision that has started its transfer, and the later ones. -/
def IsTimely (s : Site) : Prop :=
  ∀ b ∈ s.applied, ∀ sync, b.completed? = some sync → ∀ c ∈ s.applied.head?, c.position ≤ sync.snapshot

/-- A replica that has founded the group and the ones that join it. -/
structure IsGroup (D : Decided) (initial : ViewChange) (founder : Site) (joiners : List Site) : Prop where
  founds : founder.IsFounder D initial
  joins : ∀ s ∈ joiners, s.IsJoiner D (founder :: joiners)

/-- Whether each catch-up that a replica has completed was sent by one of these. -/
def SentBy (R : Site → Prop) (s : Site) : Prop :=
  ∀ b ∈ s.applied, ∀ sync, b.completed? = some sync → ∃ t, R t ∧ t.HasSent sync b.position

/-- A replica whose state goes back to the founder in time: it is the founder, or it has seen the decision that has started
    its transfer, and so goes back the state of the replica that has sent to it. -/
inductive InTime (founder : Site) (joiners : List Site) : Site → Prop
  | founder : InTime founder joiners founder
  | joiner {s : Site} (sender : Application → Syncing → Site) (hs : s ∈ joiners) (ht : s.IsTimely)
    (hsent : ∀ b ∈ s.applied, ∀ sync, b.completed? = some sync → (sender b sync).HasSent sync b.position)
    (hback : ∀ b ∈ s.applied, ∀ sync, b.completed? = some sync → InTime founder joiners (sender b sync)) :
    InTime founder joiners s

/-- Replicas of a group each of which is the founder, or has seen the decision that has started its transfer and was sent
    to by one of them. -/
def IsTraced (founder : Site) (joiners : List Site) (R : Site → Prop) : Prop :=
  ∀ s, R s → s = founder ∨ s ∈ joiners ∧ s.IsTimely ∧ s.SentBy R

/-- A replica that was sent to by the founder goes back in time if it is timely itself. -/
theorem InTime.of_founder {founder : Site} {joiners : List Site} (hs : s ∈ joiners) (ht : s.IsTimely)
    (hsent : s.SentBy (· = founder)) : InTime founder joiners s := by
  refine .joiner (fun _ _ => founder) hs ht (fun b hb sync hsync => ?_) fun _ _ _ _ => .founder
  obtain ⟨_, rfl, h⟩ := hsent b hb sync hsync
  exact h

theorem isTraced_inTime (founder : Site) (joiners : List Site) : IsTraced founder joiners (InTime founder joiners) := by
  intro s hs
  cases hs with
  | founder => exact .inl rfl
  | joiner sender hs ht hsent hback =>
    exact .inr ⟨hs, ht, fun b hb sync hsync => ⟨sender b sync, hback b hb sync hsync, hsent b hb sync hsync⟩⟩

/-- A group in which all have started in time. -/
theorem IsGroup.isTraced {founder : Site} {joiners : List Site} (hg : IsGroup D initial founder joiners)
    (ht : ∀ s ∈ joiners, s.IsTimely) : IsTraced founder joiners (· ∈ founder :: joiners) := by
  intro s hs
  rcases List.mem_cons.mp hs with rfl | hs
  · exact .inl rfl
  · obtain ⟨addr, config, draw, peers, -, hsent⟩ := hg.joins s hs
    exact .inr ⟨hs, ht s hs, hsent⟩

theorem IsTraced.mem {founder : Site} {joiners : List Site} {R : Site → Prop} (hR : IsTraced founder joiners R)
    (hs : R s) : s ∈ founder :: joiners :=
  List.mem_cons.mpr ((hR s hs).imp_right And.left)

theorem IsFounder.change_at (hs : s.IsFounder D initial) (hat : s.At n e) : e.change = D.configured initial 0 n := by
  obtain ⟨addr, config, draw, peers, hruns, hsub⟩ := hs
  obtain ⟨b, hb⟩ := Option.isSome_iff_exists.mp (List.isSome_head?.mpr hat.ne_nil)
  obtain ⟨first, front, hfirst, hfront, rfl, ho, hc⟩ :=
    hruns.at (fresh_bootstrapped ..) rfl (Engine.lasts_change initial) rfl hat
  have hnone : ∀ q < first, ∀ r, D q ≠ .reconfigure r := hfirst b hb ▸ hsub b hb
  rw [hc, ho, ← Decided.configured_of_no_move (Nat.le_add_right first _) hnone, Decided.configured,
    Nat.add_sub_cancel_left]

/-- A joining replica has the configuration of what it has seen, and serves once it has completed a catch-up. -/
theorem IsJoiner.change_at (hs : s.IsJoiner D group) (hat : s.At n e) : ∃ first, (∀ c ∈ s.applied.head?, c.position = first) ∧
    first ≤ n ∧ e.change = D.configured .none first n ∧
    (e.mode.isServing = true → ∃ b ∈ s.applied, b.position < n ∧ ∃ sync, b.completed? = some sync) := by
  obtain ⟨addr, config, draw, peers, hruns, -⟩ := hs
  obtain ⟨first, front, hfirst, hfront, rfl, ho, hc, hserving⟩ := hruns.at (fresh_fresh ..) rfl
    ((Engine.lasts_change .none).and (Engine.lasts_isServing false)) ⟨rfl, rfl⟩ hat
  refine ⟨first, hfirst, Nat.le_add_right first _, ?_, fun h => ?_⟩
  · rw [hc, ho, Decided.configured, Nat.add_sub_cancel_left]
  · rw [hserving, Bool.false_or] at h
    obtain ⟨b, hb, hcompletes⟩ := List.any_eq_true.mp h
    exact ⟨b, hfront.subset hb, (position_lt_of_mem ho hb).2, Application.exists_completed? hcompletes⟩

variable {founder : Site} {joiners : List Site} {R : Site → Prop} {q : Position}

theorem IsJoiner.mono {group' : List Site} (hs : s.IsJoiner D group) (h : group ⊆ group') : s.IsJoiner D group' := by
  obtain ⟨addr, config, draw, peers, hruns, hsent⟩ := hs
  refine ⟨addr, config, draw, peers, hruns, fun b hb sync hsync => ?_⟩
  obtain ⟨t, ht, hsent⟩ := hsent b hb sync hsync
  exact ⟨t, h ht, hsent⟩

/-- A group takes up one more replica. -/
theorem IsGroup.admit (hg : IsGroup D initial founder joiners) (hs : s.IsJoiner D (founder :: joiners ++ [s])) :
    IsGroup D initial founder (joiners ++ [s]) := by
  refine ⟨hg.founds, fun t ht => ?_⟩
  rcases List.mem_append.mp ht with ht | ht
  · exact (hg.joins t ht).mono (List.subset_append_left ..)
  · exact List.mem_singleton.mp ht ▸ hs

/-- Every application of a replica of the group is one of a decision. -/
theorem IsGroup.applied (hg : IsGroup D initial founder joiners) (ht : t ∈ founder :: joiners) {c : Application}
    (hc : c ∈ t.applied) : c.value = D c.position ∧
      ∃ host : Host, c.effects = (c.before.apply host c.position c.value).effects := by
  rcases List.mem_cons.mp ht with rfl | ht
  · obtain ⟨addr, config, draw, peers, hruns, -⟩ := hg.founds
    exact hruns.applied (fresh_bootstrapped ..) rfl hc
  · obtain ⟨addr, config, draw, peers, hruns, -⟩ := hg.joins t ht
    exact hruns.applied (fresh_fresh ..) rfl hc

/-- The replica that has sent a catch-up served when it applied a move to a view, which was news to it. -/
theorem IsGroup.of_hasSent (hg : IsGroup D initial founder joiners) (ht : t ∈ founder :: joiners) {sync : Syncing}
    (hsent : t.HasSent sync p) : sync.snapshot < p ∧
      ∃ e r version, t.At sync.snapshot e ∧ e.mode.isServing = true ∧ D sync.snapshot = .reconfigure r ∧
        r.view.isNewerThan e.view = true ∧ e.version.succ? = some version ∧ sync.version = version := by
  obtain ⟨c, hc, hlt, hannounced⟩ := hsent
  obtain ⟨outbound, ho, hmetadata⟩ := List.mem_map.mp hannounced
  obtain ⟨x, hx, ho⟩ := List.mem_filterMap.mp ho
  obtain ⟨hvalue, host, heffects⟩ := hg.applied ht hc
  obtain ⟨r, version, hr, hserving, hn, hv, hmetadata'⟩ := Engine.outbound_apply (heffects ▸ hx) ho
  have heq := hmetadata.symm.trans hmetadata'
  have hp : sync.snapshot = c.position := Option.some.inj (congrArg Metadata.snapshot? heq)
  have hversion : sync.version = version := Option.some.inj (congrArg Metadata.version? heq)
  rw [hp]
  exact ⟨hlt, c.before, r, version, .past hc, hserving, hvalue ▸ hr, hn, hv, hversion⟩

/-- From the decision on that has started its transfer, a timely replica has the configuration of the group, if the
    sender had it. -/
theorem IsGroup.configured_eq_of_sender (hg : IsGroup D initial founder joiners) (hs : s.IsTimely) {b : Application}
    (hb : b ∈ s.applied) {sync : Syncing} (hsync : b.completed? = some sync) (ht : t ∈ founder :: joiners)
    (hsent : t.HasSent sync b.position)
    (hsender : ∀ e, t.At sync.snapshot e → e.mode.isServing = true → e.change = D.configured initial 0 sync.snapshot) :
    ∀ first, (∀ c ∈ s.applied.head?, c.position = first) → ∀ n, sync.snapshot < n →
      D.configured .none first n = D.configured initial 0 n := by
  intro first hfirst n hqn
  obtain ⟨-, e, r, version, hat, hserving, hr, hn, -⟩ := hg.of_hasSent ht hsent
  obtain ⟨a, ha⟩ := Option.isSome_iff_exists.mp (List.isSome_head?.mpr (List.ne_nil_of_mem hb))
  have hle : first ≤ sync.snapshot := hfirst a ha ▸ hs b hb sync hsync a ha
  have hview : e.view = (D.configured initial 0 sync.snapshot).view := congrArg ViewChange.view (hsender e hat hserving)
  exact Decided.configured_eq_of_newer hle hr (hview ▸ hn) hqn

/-- What holds of the founder wherever it stands, and of a joining replica that serves if it holds of all that have served
    at earlier positions, holds of every replica that serves. The sender of a transfer has stood at an earlier position
    than the replica that has completed it. -/
theorem IsTraced.serving_induction (hR : IsTraced founder joiners R) {P : Nat → Engine → Prop}
    (hfounder : ∀ n e, founder.At n e → P n e)
    (hjoiner : ∀ s ∈ joiners, s.IsTimely → s.SentBy R → ∀ n e, s.At n e → e.mode.isServing = true →
      (∀ p < n, ∀ t, R t → ∀ e', t.At p e' → e'.mode.isServing = true → P p e') → P n e) (n : Nat) :
    ∀ s, R s → ∀ e, s.At n e → e.mode.isServing = true → P n e := by
  induction n using Nat.strong_induction_on with
  | _ n ih =>
    intro s hs e hat hserving
    rcases hR s hs with rfl | ⟨hs, ht, hsent⟩
    · exact hfounder n e hat
    · exact hjoiner s hs ht hsent n e hat hserving ih

/-- A replica that serves has the configuration of the group, if its state goes back to the founder in time. -/
theorem IsGroup.change_at (hg : IsGroup D initial founder joiners) (hR : IsTraced founder joiners R) :
    ∀ n s, R s → ∀ e, s.At n e → e.mode.isServing = true → e.change = D.configured initial 0 n := by
  refine hR.serving_induction (fun n e hat => hg.founds.change_at hat) fun s hs ht hsent n e hat hserving ih => ?_
  obtain ⟨first, hfirst, -, hchange, hcompleted⟩ := (hg.joins s hs).change_at hat
  obtain ⟨b, hb, hlt, sync, hsync⟩ := hcompleted hserving
  obtain ⟨t, ht', hsent⟩ := hsent b hb sync hsync
  have hbefore : sync.snapshot < b.position := (hg.of_hasSent (hR.mem ht') hsent).1
  have heq := hg.configured_eq_of_sender ht hb hsync (hR.mem ht') hsent
    (ih sync.snapshot (Nat.lt_trans hbefore hlt) t ht')
  exact hchange.trans (heq first hfirst n (Nat.lt_trans hbefore hlt))

end Site

/-- Whatever moves to views a group decides, and whenever its replicas start, any two that serve after applying the same
    decisions have the same view, quorum and range, if each of them, and each replica that its state has come from, has
    seen the decision that has started its transfer. Serving or not, and in time or not, a replica that has started later
    never has a newer view than one that has started earlier. -/
theorem serving_configurations_agree {D : Decided} {initial : ViewChange} {founder : Site} {joiners : List Site}
    (hgroup : Site.IsGroup D initial founder joiners) :
    (∀ s t, Site.InTime founder joiners s → Site.InTime founder joiners t → ∀ n e e', s.At n e → t.At n e' →
      e.mode.isServing = true → e'.mode.isServing = true →
        e.view = e'.view ∧ e.quorum = e'.quorum ∧ e.range = e'.range) ∧
    (∀ t ∈ joiners, ∀ n e e', founder.At n e → t.At n e' → e'.view.number ≤ e.view.number) ∧
    ∀ s ∈ joiners, ∀ t ∈ joiners, (∀ b ∈ s.applied.head?, ∀ c ∈ t.applied.head?, b.position ≤ c.position) →
      ∀ n e e', s.At n e → t.At n e' → e'.view.number ≤ e.view.number := by
  refine ⟨?_, ?_, ?_⟩
  · intro s t hs ht n e e' hat hat' hserving hserving'
    have hchange := hgroup.change_at (Site.isTraced_inTime founder joiners) n
    have heq : e.change = e'.change := (hchange s hs e hat hserving).trans (hchange t ht e' hat' hserving').symm
    exact ⟨congrArg ViewChange.view heq, congrArg ViewChange.quorum heq, congrArg ViewChange.range heq⟩
  · intro t ht n e e' hat hat'
    obtain ⟨first, -, hle, hchange, -⟩ := (hgroup.joins t ht).change_at hat'
    show e'.change.view.number ≤ e.change.view.number
    rw [hchange, hgroup.founds.change_at hat]
    exact Decided.number_configured_le (Nat.zero_le first) hle
  · intro s hs t ht hstart n e e' hat hat'
    obtain ⟨first, hfirst, -, hchange, -⟩ := (hgroup.joins s hs).change_at hat
    obtain ⟨first', hfirst', hle', hchange', -⟩ := (hgroup.joins t ht).change_at hat'
    obtain ⟨b, hb⟩ := Option.isSome_iff_exists.mp (List.isSome_head?.mpr hat.ne_nil)
    obtain ⟨c, hc⟩ := Option.isSome_iff_exists.mp (List.isSome_head?.mpr hat'.ne_nil)
    have hle : first ≤ first' := by
      rw [← hfirst b hb, ← hfirst' c hc]
      exact hstart b hb c hc
    show e'.change.view.number ≤ e.change.view.number
    rw [hchange, hchange']
    exact Decided.number_configured_le hle hle'

/-! ### Small groups -/

/-- What is seen of an application, and of the engine just before. -/
structure Sketch where
  position : Position
  mode : Mode
  number : Nat
  version : Version
  completed? : Option Syncing
  announced : List Metadata
deriving DecidableEq

/-- A small sketch of an application. -/
def Application.sketch (a : Application) : Sketch :=
  ⟨a.position, a.before.mode, a.before.view.number, a.before.version, a.completed?, a.announced⟩

/-- A sketch of what a site has applied. -/
def Site.sketches (s : Site) : List Sketch := s.applied.map Application.sketch

/-- The acts by which a replica takes the decisions of some positions in one batch. -/
def Decided.acts (D : Decided) (positions : List Position) : List Site.Act :=
  .deliver (positions.map fun p => ⟨p, D p⟩) :: List.replicate (2 * positions.length + 1) .advance

/-- The acts by which a joining replica receives an empty state to its end, and hears so. -/
def receiveActs : List Site.Act :=
  [.transfer ⟨0⟩, .hear (.message (.data ⟨9⟩ 0 (Wire.encodeEntries []) true)), .transfer ⟨0⟩, .execute,
    .transfer ⟨0⟩, .completion 0]

/-- The configuration of a group of one replica. -/
def smallChange : ViewChange := ⟨⟨1, .ofList [.name "a"]⟩, 1, .full⟩

/-- The first replica of a small group, before it sees a decision. -/
def smallFounder : Site := .bootstrapped (.name "a") default .ofNat (.insert .empty (.name "b") {}) smallChange

/-- The replica that joins a small group, before it sees a decision. -/
def smallJoiner : Site := .fresh (.name "b") default .ofNat (.insert .empty (.name "a") {})

namespace Site
variable {D : Decided} {s t : Site}

theorem exists_at_of_sketch {ks : List Sketch} (hs : s.sketches = ks) (k : Sketch) (hk : k ∈ ks) :
    ∃ e, s.At k.position e ∧ e.mode = k.mode ∧ e.view.number = k.number ∧ e.version = k.version := by
  obtain ⟨b, hb, rfl⟩ := List.mem_map.mp (hs ▸ hk)
  exact ⟨b.before, .past hb, rfl, rfl, rfl⟩

theorem sketch_mem_head? {ks : List Sketch} (hs : s.sketches = ks) {b : Application} (hb : b ∈ s.applied.head?) :
    b.sketch ∈ ks.head? := by
  rw [← hs, sketches, List.head?_map, Option.mem_def.mp hb]
  rfl

/-- The first replica of a small group is known by its sketches. -/
theorem isFounder_of_sketches {acts : List Act} {ks : List Sketch} (hfrom : ∀ a ∈ acts, a.From ⟨fun _ => True, D⟩)
    (hrun : smallFounder.run acts = some s) (hs : s.sketches = ks) (hfirst : ∀ k ∈ ks.head?, k.position = 1)
    (hzero : ∀ r, D 0 ≠ .reconfigure r) : s.IsFounder D smallChange := by
  refine ⟨_, _, _, _, ⟨acts, hfrom, hrun⟩, fun b hb q hq => ?_⟩
  have hposition : b.position = 1 := hfirst b.sketch (sketch_mem_head? hs hb)
  rw [hposition, Nat.lt_one_iff] at hq
  exact hq ▸ hzero

theorem sentBy_of_sketches {ks ks' : List Sketch} (hs : s.sketches = ks) (ht : t.sketches = ks')
    (hsent : ∀ k ∈ ks', ∀ sync ∈ k.completed?, ∃ k' ∈ ks, k'.position < k.position ∧
      ⟨some sync.snapshot, some sync.version⟩ ∈ k'.announced) : t.SentBy (· = s) := by
  intro b hb sync hsync
  obtain ⟨k, hk, hlt, hmem⟩ := hsent b.sketch (ht ▸ List.mem_map_of_mem hb) sync hsync
  obtain ⟨c, hc, rfl⟩ := List.mem_map.mp (hs ▸ hk)
  exact ⟨s, rfl, c, hc, hlt, hmem⟩

theorem SentBy.isJoiner {addr : Addr} {config : Config} {draw : Nat → UInt64} {peers : Network Inbox} {group : List Site}
    (hsent : t.SentBy (· = s)) (hs : s ∈ group) (hruns : RunsFrom D (fresh addr config draw peers) t) :
    t.IsJoiner D group := by
  refine ⟨addr, config, draw, peers, hruns, fun b hb sync hsync => ?_⟩
  obtain ⟨_, rfl, h⟩ := hsent b hb sync hsync
  exact ⟨_, hs, h⟩

/-- A small group is known by the sketches of its replicas. -/
theorem exists_isGroup {acts acts' : List Act} {ks ks' : List Sketch}
    (hfrom : ∀ a ∈ acts ++ acts', a.From ⟨fun _ => True, D⟩)
    (hruns : (smallFounder.run acts).map sketches = some ks ∧ (smallJoiner.run acts').map sketches = some ks')
    (hfirst : ∀ k ∈ ks.head?, k.position = 1) (hzero : ∀ r, D 0 ≠ .reconfigure r)
    (hsent : ∀ k ∈ ks', ∀ sync ∈ k.completed?, ∃ k' ∈ ks, k'.position < k.position ∧
      ⟨some sync.snapshot, some sync.version⟩ ∈ k'.announced) :
    ∃ s t : Site, s.sketches = ks ∧ t.sketches = ks' ∧ t.SentBy (· = s) ∧ IsGroup D smallChange s [t] := by
  obtain ⟨⟨s, hrun, hs⟩, t, hrun', ht⟩ := hruns.imp Option.map_eq_some_iff.mp Option.map_eq_some_iff.mp
  obtain ⟨hacts, hacts'⟩ := List.forall_mem_append.mp hfrom
  have hsent := sentBy_of_sketches hs ht hsent
  refine ⟨s, t, hs, ht, hsent, isFounder_of_sketches hacts hrun hs hfirst hzero, fun u hu => ?_⟩
  cases List.mem_singleton.mp hu
  exact hsent.isJoiner (.head _) ⟨acts', hacts', hrun'⟩

theorem isTimely_of_sketches {ks : List Sketch} (hs : s.sketches = ks)
    (h : ∀ k ∈ ks, ∀ sync ∈ k.completed?, ∀ k' ∈ ks.head?, k'.position ≤ sync.snapshot) : s.IsTimely :=
  fun b hb sync hsync c hc =>
    h b.sketch (hs ▸ List.mem_map_of_mem hb) sync hsync c.sketch (sketch_mem_head? hs hc)

end Site

/-- A move of the founder, one that is old news to it, the move that lets another replica join, and the marker of that
    one. -/
def lateDecided : Decided
  | 1 => .reconfigure ⟨⟨1⟩, ⟨5, .ofList [.name "a"]⟩, 1, 1, .full⟩
  | 2 => .reconfigure ⟨⟨2⟩, ⟨3, .ofList [.name "a", .name "b"]⟩, 2, 1, .full⟩
  | 3 => .reconfigure ⟨⟨3⟩, ⟨6, .ofList [.name "a", .name "b"]⟩, 2, 2, .full⟩
  | 4 => .syncedUp ⟨1⟩
  | p => .noop ⟨.ofNat p⟩

/-- A replica that starts late has moved to a view that the founder has rejected, and agrees with it in the end. -/
theorem late_starter_agrees :
    ∃ s t : Site, Site.IsGroup lateDecided smallChange s [t] ∧ Site.InTime s [t] t ∧
      (∃ e e', s.At 3 e ∧ t.At 3 e' ∧ e.view.number = 5 ∧ e'.view.number = 3) ∧
      ∃ e e', s.At 5 e ∧ t.At 5 e' ∧ e.mode.isServing = true ∧ e'.mode.isServing = true ∧ e.view.number = 6 ∧
        e.view = e'.view ∧ e.quorum = e'.quorum ∧ e.range = e'.range := by
  have hruns : (smallFounder.run (lateDecided.acts [1, 2, 3, 4, 5])).map Site.sketches =
        some [⟨1, .active, 1, 1, none, []⟩, ⟨2, .active, 5, 2, none, []⟩, ⟨3, .active, 5, 2, none, [⟨some 3, some 3⟩]⟩,
          ⟨4, .transferring, 6, 3, none, []⟩, ⟨5, .transferring, 6, 3, none, []⟩] ∧
      (smallJoiner.run (lateDecided.acts [2, 3] ++
          .transfer ⟨0⟩ :: .hear (.message (.initiate ⟨⟨9⟩, .name "a", .full, ⟨some 3, some 3⟩⟩)) :: receiveActs ++
          lateDecided.acts [4, 5])).map Site.sketches =
        some [⟨2, .passive, 0, 0, none, []⟩, ⟨3, .catchingUp, 3, 2, none, []⟩,
          ⟨4, .catchingUp, 6, 3, some ⟨⟨1⟩, 3, 3⟩, []⟩, ⟨5, .active, 6, 3, none, []⟩] := by
    decide
  obtain ⟨s, t, hs, ht, hsent, hgroup⟩ := Site.exists_isGroup (D := lateDecided)
    (by simp [Decided.acts, receiveActs, Site.Act.From]) hruns (by decide) (fun r hr => by cases hr) (by decide)
  have htimely : Site.InTime s [t] t := .of_founder (.head _) (Site.isTimely_of_sketches ht (by decide)) hsent
  have hagree := (serving_configurations_agree hgroup).1 s t .founder htimely 5
  obtain ⟨e₃, hat₃, -, hview₃, -⟩ := Site.exists_at_of_sketch hs ⟨3, .active, 5, 2, none, [⟨some 3, some 3⟩]⟩ (by decide)
  obtain ⟨e₃', hat₃', -, hview₃', -⟩ := Site.exists_at_of_sketch ht ⟨3, .catchingUp, 3, 2, none, []⟩ (by decide)
  obtain ⟨e, hat, hmode, hview, -⟩ := Site.exists_at_of_sketch hs ⟨5, .transferring, 6, 3, none, []⟩ (by decide)
  obtain ⟨e', hat', hmode', hview', -⟩ := Site.exists_at_of_sketch ht ⟨5, .active, 6, 3, none, []⟩ (by decide)
  have hserving : e.mode.isServing = true := by rw [hmode]; rfl
  have hserving' : e'.mode.isServing = true := by rw [hmode']; rfl
  exact ⟨s, t, hgroup, htimely, ⟨e₃, e₃', hat₃, hat₃', hview₃, hview₃'⟩, e, e', hat, hat', hserving, hserving', hview,
    hagree e e' hat hat' hserving hserving'⟩

/-- The move that starts a transfer, an older one, and the marker of the replica that has joined by it. -/
def staleDecided : Decided
  | 1 => .reconfigure ⟨⟨1⟩, ⟨5, .ofList [.name "a", .name "b"]⟩, 2, 1, .full⟩
  | 2 => .reconfigure ⟨⟨2⟩, ⟨3, .ofList [.name "a", .name "b"]⟩, 2, 1, .full⟩
  | 3 => .syncedUp ⟨1⟩
  | p => .noop ⟨.ofNat p⟩

/-- The same, and a move that lets a third replica join, which only the second one takes up, with the marker of the third
    one. -/
def relayedDecided : Decided
  | 4 => .reconfigure ⟨⟨4⟩, ⟨4, .ofList [.name "a", .name "b", .name "c"]⟩, 2, 2, .full⟩
  | 5 => .syncedUp ⟨1⟩
  | p => staleDecided p

/-- The acts by which a replica that sees no decision before the second one holds an announcement until then. -/
def heldActs (D : Decided) : List Site.Act :=
  .hear (.message (.initiate ⟨⟨9⟩, .name "a", .full, ⟨some 1, some 2⟩⟩)) :: D.acts [2] ++ .transfer ⟨0⟩ :: receiveActs ++
    D.acts [3, 4]

/-- A replica that sees the decisions only after the one that has started its transfer holds the announcement until a
    move that is old news to the founder: both serve, with different views. A replica that it sends to has the other view
    as well, even if it has started in time. -/
theorem held_announcement_disagrees :
    (∃ s t : Site, Site.IsGroup staleDecided smallChange s [t] ∧ ∃ e e', s.At 4 e ∧ t.At 4 e' ∧
      e.mode.isServing = true ∧ e'.mode.isServing = true ∧ e.view.number = 5 ∧ e'.view.number = 3) ∧
    ∃ s t u : Site, Site.IsGroup relayedDecided smallChange s [t, u] ∧ u.IsTimely ∧ ∃ e e', s.At 6 e ∧ u.At 6 e' ∧
      e.mode.isServing = true ∧ e'.mode.isServing = true ∧ e.view.number = 5 ∧ e'.view.number = 4 := by
  constructor
  · have hruns : (smallFounder.run (staleDecided.acts [1, 2, 3, 4])).map Site.sketches =
          some [⟨1, .active, 1, 1, none, [⟨some 1, some 2⟩]⟩, ⟨2, .transferring, 5, 2, none, []⟩,
            ⟨3, .transferring, 5, 2, none, []⟩, ⟨4, .transferring, 5, 2, none, []⟩] ∧
        (smallJoiner.run (heldActs staleDecided)).map Site.sketches =
          some [⟨2, .passive, 0, 0, none, []⟩, ⟨3, .catchingUp, 3, 2, some ⟨⟨1⟩, 1, 2⟩, []⟩,
            ⟨4, .active, 3, 2, none, []⟩] := by
      decide
    obtain ⟨s, t, hs, ht, -, hgroup⟩ := Site.exists_isGroup (D := staleDecided)
      (by simp [Decided.acts, heldActs, receiveActs, Site.Act.From]) hruns (by decide) (fun r hr => by cases hr)
      (by decide)
    obtain ⟨e, hat, hmode, hview, -⟩ := Site.exists_at_of_sketch hs ⟨4, .transferring, 5, 2, none, []⟩ (by decide)
    obtain ⟨e', hat', hmode', hview', -⟩ := Site.exists_at_of_sketch ht ⟨4, .active, 3, 2, none, []⟩ (by decide)
    exact ⟨s, t, hgroup, e, e', hat, hat', by rw [hmode]; rfl, by rw [hmode']; rfl, hview, hview'⟩
  · have hruns : (smallFounder.run (relayedDecided.acts [1, 2, 3, 4, 5, 6])).map Site.sketches =
          some [⟨1, .active, 1, 1, none, [⟨some 1, some 2⟩]⟩, ⟨2, .transferring, 5, 2, none, []⟩,
            ⟨3, .transferring, 5, 2, none, []⟩, ⟨4, .transferring, 5, 2, none, []⟩,
            ⟨5, .transferring, 5, 2, none, []⟩, ⟨6, .transferring, 5, 2, none, []⟩] ∧
        (smallJoiner.run (heldActs relayedDecided)).map Site.sketches =
          some [⟨2, .passive, 0, 0, none, []⟩, ⟨3, .catchingUp, 3, 2, some ⟨⟨1⟩, 1, 2⟩, []⟩,
            ⟨4, .active, 3, 2, none, [⟨some 4, some 3⟩]⟩] := by
      decide
    have hrelayed : ((Site.fresh (.name "c") default .ofNat (.insert .empty (.name "b") {})).run
          (relayedDecided.acts [4] ++
            .transfer ⟨0⟩ :: .hear (.message (.initiate ⟨⟨9⟩, .name "b", .full, ⟨some 4, some 3⟩⟩)) :: receiveActs ++
            relayedDecided.acts [5, 6])).map Site.sketches =
        some [⟨4, .passive, 0, 0, none, []⟩, ⟨5, .catchingUp, 4, 3, some ⟨⟨1⟩, 4, 3⟩, []⟩,
          ⟨6, .active, 4, 3, none, []⟩] := by
      decide
    obtain ⟨s, t, hs, ht, -, hgroup⟩ := Site.exists_isGroup (D := relayedDecided)
      (by simp [Decided.acts, heldActs, receiveActs, Site.Act.From]) hruns (by decide) (fun r hr => by cases hr)
      (by decide)
    obtain ⟨u, hu, hsketches⟩ := Option.map_eq_some_iff.mp hrelayed
    have hjoins : u.IsJoiner relayedDecided [s, t, u] :=
      (Site.sentBy_of_sketches ht hsketches (by decide)).isJoiner (.tail _ (.head _))
        ⟨_, by simp [Decided.acts, receiveActs, Site.Act.From], hu⟩
    obtain ⟨e, hat, hmode, hview, -⟩ := Site.exists_at_of_sketch hs ⟨6, .transferring, 5, 2, none, []⟩ (by decide)
    obtain ⟨e', hat', hmode', hview', -⟩ := Site.exists_at_of_sketch hsketches ⟨6, .active, 4, 3, none, []⟩ (by decide)
    exact ⟨s, t, u, hgroup.admit hjoins, Site.isTimely_of_sketches hsketches (by decide), e, e', hat, hat',
      by rw [hmode]; rfl, by rw [hmode']; rfl, hview, hview'⟩

end ReplicaGroup
