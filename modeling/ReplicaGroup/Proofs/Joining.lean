import ReplicaGroup.Proofs.Site.History

/-! # Who serves a joining member

When the group moves to a newer view, each joining member falls to one member of the installed view. That
member starts a transfer to it exactly if it serves by then: a member that still catches up when it
applies the move starts none, and nobody else does in its place. -/

namespace ReplicaGroup

/-- The transfers to an address that an application starts. -/
def Application.sendsTo (b : Application) (a : Addr) : List Outbound :=
  (b.effects.filterMap Effect.outbound?).filter (·.recipient = a)

namespace Engine
variable {e : Engine} {h : Host} {p : Position} {a : Addr}

theorem sendsTo_sendings (range : KeyRange) (version : Version) (drawn : Nat) (l : List Addr) :
    (((sendings h p range version drawn l).filterMap Effect.outbound?).filter (·.recipient = a)).length = l.count a := by
  induction l generalizing drawn with
  | nil => rfl
  | cons b l ih =>
    simp only [sendings, List.filterMap_cons, Effect.outbound?, List.filter_cons, List.count_cons]
    by_cases hb : b = a
    · simp [hb, ih]
    · simp [hb, ih]

/-- Whether a member can send its data: it serves, and there is a version for the next view. -/
def IsReady (e : Engine) : Prop := e.mode.isServing = true ∧ e.version ≠ .last

instance (e : Engine) : Decidable e.IsReady := inferInstanceAs (Decidable (_ ∧ _))

/-- A move to a newer view makes a replica start one transfer to a joining member that falls to it, if the
    replica is ready. -/
theorem sendsTo_reconfigure {r : Reconfiguration} (hn : r.view.isNewerThan e.view = true) (ha : a ∈ r.view.members)
    (hold : a ∉ e.view.members) :
    (((e.reconfigure h p r).effects.filterMap Effect.outbound?).filter (·.recipient = a)).length =
      if e.view.server? a = some h.addr ∧ e.IsReady then 1 else 0 := by
  by_cases hm : e.mode.isServing = true
  · rw [reconfigure_serving hm hn]
    cases hv : e.version.succ? with
    | none =>
      have hlast : e.version = .last := Decidable.byContradiction fun hne => by simp [Version.succ?, hne] at hv
      rw [if_neg fun hr => hr.2.2 hlast]
      rfl
    | some version =>
      have hready : e.IsReady := ⟨hm, (Version.succ?_eq_some_iff.mp hv).1⟩
      have hnodup : (e.view.recipients r.view h.addr).toList.Nodup :=
        (OrderedSet.ordered _).imp fun {b c} hlt (heq : b = c) => Std.lt_irrefl (heq ▸ hlt)
      rw [sendsTo_sendings, hnodup.count]
      have hfalls : a ∈ (e.view.recipients r.view h.addr).toList ↔ e.view.server? a = some h.addr :=
        View.mem_recipients_iff ha hold
      simp only [hready, and_true, hfalls]
  · rw [if_neg fun hr => hm hr.2.1]
    cases hmode : e.mode with
    | passive => rw [reconfigure_passive hmode hn]; split <;> rfl
    | catchingUp => rw [reconfigure_catchingUp hmode hn]; split <;> rfl
    | active | transferring => rw [hmode] at hm; exact absurd rfl hm

end Engine

namespace Site
variable {D : Decided} {initial : View} {s : Site}

/-- A replica of a group that decides `D`. The first one serves the view `initial`, of which it is the only
    member, from the beginning of the log on. Every other one starts with nothing, and was subscribed to the
    log before a view that names it was decided. -/
inductive Belongs (D : Decided) (initial : View) : Site → Prop
  | founder {addr : Addr} {config : Config} {draw : Nat → UInt64} {peers : Network Inbox} {quorum : Nat}
    {range : KeyRange} {acts : List Act} {s : Site} (hself : ∀ a, a ∈ initial.members ↔ a = addr)
    (hacts : ∀ a ∈ acts, a.From ⟨fun _ => True, D⟩)
    (hrun : (bootstrapped addr config draw peers ⟨initial, quorum, range⟩).run acts = some s)
    (hsub : ∀ b ∈ s.applied.head?, ∀ q < b.position, ∀ r, D q ≠ .reconfigure r) : Belongs D initial s
  | joiner {addr : Addr} {config : Config} {draw : Nat → UInt64} {peers : Network Inbox} {acts : List Act} {s : Site}
    (hother : addr ∉ initial.members) (hacts : ∀ a ∈ acts, a.From ⟨fun _ => True, D⟩)
    (hrun : (fresh addr config draw peers).run acts = some s)
    (hsub : ∀ b ∈ s.applied.head?, ∀ q < b.position, ∀ r, D q = .reconfigure r → addr ∉ r.view.members) :
    Belongs D initial s

/-- What is known about a replica of the group when it applies a value. -/
structure Applies (D : Decided) (initial : View) (me : Addr) (front : List Application) (b : Application) : Prop where
  value : b.value = D b.position
  view : me ∈ (D.installed initial 0 b.position).members → b.before.view = D.installed initial 0 b.position
  isServing : b.before.mode.isServing = (decide (me ∈ initial.members) || front.any Application.completes)
  effects : ∃ h : Host, h.addr = me ∧ b.effects = (b.before.apply h b.position b.value).effects

/-- The view at an application, when the replica has seen the decisions from `first` on. -/
theorem Recounts.view_eq {v : View} {first : Position}
    (hs : s.Recounts fun l e => e.view = v.afterAll (l.map Application.decision))
    (ho : s.applied.map Application.decision = D.segment first s.applied.length) {front back : List Application}
    {b : Application} (hb : s.applied = front ++ b :: back) :
    b.value = D b.position ∧ first ≤ b.position ∧ b.before.view = D.installed v first b.position := by
  have hsplit : front.map Application.decision ++ b.decision :: back.map Application.decision =
      D.segment first s.applied.length := by rw [← ho, hb, List.map_append, List.map_cons]
  obtain ⟨hfront, hhere⟩ := Decided.segment_split hsplit
  obtain ⟨hp, hv⟩ := Prod.mk.inj hhere
  rw [List.length_map] at hp hv
  have hlen : b.position - first = front.length := by rw [hp, Nat.add_sub_cancel_left]
  refine ⟨by rw [hp]; exact hv, hp ▸ Nat.le_add_right first _, ?_⟩
  rw [hs.before front b back hb, Decided.installed, hlen]
  rw [List.length_map] at hfront
  rw [hfront]

theorem Belongs.applies (hs : s.Belongs D initial) {front back : List Application} {b : Application}
    (hb : s.applied = front ++ b :: back) : Applies D initial s.node.addr front b := by
  have hmem : b ∈ s.applied := hb ▸ List.mem_append_right _ (.head _)
  obtain ⟨c, hc⟩ : ∃ c, c ∈ s.applied.head? := by
    rw [hb]
    cases front <;> exact ⟨_, rfl⟩
  cases hs with
  | @founder addr config draw peers quorum range acts s hself hacts hrun hsub =>
    have haddr : s.node.addr = addr := addr_run hacts hrun
    obtain ⟨first, ho⟩ := (fresh_bootstrapped ..).applied_run rfl hacts hrun
    have hview := recounts_run (Engine.lasts_view initial) rfl rfl hacts hrun
    have hserving := recounts_run (Engine.lasts_isServing true) rfl rfl hacts hrun
    obtain ⟨hv, hle, hat⟩ := hview.view_eq ho hb
    refine ⟨hv, fun _ => ?_, ?_, hview.effects b hmem⟩
    · -- Nothing moves the view before the first position.
      have hnone : ∀ q < first, ∀ r, D q ≠ .reconfigure r := position_of_head? ho hc ▸ hsub c hc
      rw [hat, Decided.installed_of_no_move hle hnone]
    · rw [hserving.before front b back hb, haddr, decide_eq_true ((hself addr).mpr rfl)]
  | @joiner addr config draw peers acts s hother hacts hrun hsub =>
    have haddr : s.node.addr = addr := addr_run hacts hrun
    obtain ⟨first, ho⟩ := (fresh_fresh ..).applied_run rfl hacts hrun
    have hview := recounts_run (Engine.lasts_view .none) rfl rfl hacts hrun
    have hserving := recounts_run (Engine.lasts_isServing false) rfl rfl hacts hrun
    obtain ⟨hv, hle, hat⟩ := hview.view_eq ho hb
    refine ⟨hv, fun ha => ?_, ?_, hview.effects b hmem⟩
    · rw [hat]
      exact Decided.installed_none_eq hle hother (position_of_head? ho hc ▸ hsub c hc) (haddr ▸ ha)
    · rw [hserving.before front b back hb, haddr, decide_eq_false hother]

/-- Whether a replica has started transfers to an address when it applied the value at `p`. -/
def Sends (s : Site) (p : Position) (a : Addr) : Prop := ∃ b ∈ s.applied, b.position = p ∧ b.sendsTo a ≠ []

/-- Whether a replica was ready when it applied the value at `p`: it is the first one of the group or has
    applied the marker of its catch-up before, and its version was not the last one. -/
def WasReady (initial : View) (s : Site) (p : Position) : Prop :=
  ∃ front b back, s.applied = front ++ b :: back ∧ b.position = p ∧
    (s.node.addr ∈ initial.members ∨ ∃ c ∈ front, c.completes = true) ∧ b.before.version ≠ .last

theorem Applies.isReady_iff {me : Addr} {front : List Application} {b : Application}
    (h : Applies D initial me front b) : b.before.IsReady ↔
      (me ∈ initial.members ∨ ∃ c ∈ front, c.completes = true) ∧ b.before.version ≠ .last := by
  rw [Engine.IsReady, h.isServing, Bool.or_eq_true, decide_eq_true_iff, List.any_eq_true]

/-- How many transfers to a joining member a member of the installed view starts. -/
theorem Applies.length_sendsTo {me a : Addr} {front : List Application} {b : Application}
    (h : Applies D initial me front b) {r : Reconfiguration} (hr : D b.position = .reconfigure r)
    (hnew : r.view.isNewerThan (D.installed initial 0 b.position) = true)
    (hme : me ∈ (D.installed initial 0 b.position).members) (ha : a ∈ r.view.members)
    (hold : a ∉ (D.installed initial 0 b.position).members) :
    (b.sendsTo a).length =
      if (D.installed initial 0 b.position).server? a = some me ∧ b.before.IsReady then 1 else 0 := by
  obtain ⟨host, haddr, heffects⟩ := h.effects
  rw [← h.view hme] at hnew hold ⊢
  rw [Application.sendsTo, heffects, h.value, hr, ← haddr]
  exact Engine.sendsTo_reconfigure hnew ha hold

end Site

/-- When a group moves to a newer view, every joining member falls to one member of the installed view.
    Whatever the timing, that member starts one transfer to it if it is ready when it applies the move,
    and no member of the installed view starts any other; so the joining member is served exactly if the
    member that it falls to is the first replica of the group or has completed its own catch-up by then,
    and has a version left. -/
theorem joining_member_served_iff_ready {D : Decided} {initial : View} {group : List Site}
    (hgroup : ∀ s ∈ group, s.Belongs D initial)
    (haddr : ∀ s ∈ group, ∀ t ∈ group, s.node.addr = t.node.addr → s = t) {p : Position} {r : Reconfiguration}
    (hp : D p = .reconfigure r) (hnew : r.view.isNewerThan (D.installed initial 0 p) = true)
    (hne : (D.installed initial 0 p).members ≠ .empty) {a : Addr} (ha : a ∈ r.view.members)
    (hold : a ∉ (D.installed initial 0 p).members) :
    ∃ x ∈ (D.installed initial 0 p).members, (D.installed initial 0 p).server? a = some x ∧
      (∀ s ∈ group, s.node.addr ∈ (D.installed initial 0 p).members → ∀ b ∈ s.applied, b.position = p →
        (b.sendsTo a).length = if s.node.addr = x ∧ b.before.IsReady then 1 else 0) ∧
      ((∃ s ∈ group, s.node.addr ∈ (D.installed initial 0 p).members ∧ s.Sends p a ∧
          ∀ t ∈ group, t.node.addr ∈ (D.installed initial 0 p).members → t.Sends p a → t = s) ↔
        ∃ s ∈ group, s.node.addr = x ∧ s.WasReady initial p) := by
  obtain ⟨x, hx⟩ := View.exists_server? hne a
  have hmem := View.mem_of_server? hx
  have hcount : ∀ s ∈ group, s.node.addr ∈ (D.installed initial 0 p).members → ∀ b ∈ s.applied, b.position = p →
      (b.sendsTo a).length = if s.node.addr = x ∧ b.before.IsReady then 1 else 0 := by
    rintro s hs hin b hb rfl
    obtain ⟨front, back, hsplit⟩ := List.append_of_mem hb
    rw [((hgroup s hs).applies hsplit).length_sendsTo hp hnew hin ha hold, hx]
    simp only [Option.some.injEq, eq_comm]
  have hsends : ∀ s ∈ group, s.node.addr ∈ (D.installed initial 0 p).members →
      (s.Sends p a ↔ s.node.addr = x ∧ s.WasReady initial p) := by
    intro s hs hin
    constructor
    · rintro ⟨b, hb, hbp, hsent⟩
      have hlen := hcount s hs hin b hb hbp
      by_cases hready : s.node.addr = x ∧ b.before.IsReady
      · obtain ⟨front, back, hsplit⟩ := List.append_of_mem hb
        exact ⟨hready.1, front, b, back, hsplit, hbp,
          ((hgroup s hs).applies hsplit).isReady_iff.mp hready.2⟩
      · rw [if_neg hready] at hlen
        exact absurd (List.eq_nil_of_length_eq_zero hlen) hsent
    · rintro ⟨hsx, front, b, back, hsplit, hbp, hready⟩
      have hb : b ∈ s.applied := hsplit ▸ List.mem_append_right _ (.head _)
      have hlen := hcount s hs hin b hb hbp
      rw [if_pos ⟨hsx, ((hgroup s hs).applies hsplit).isReady_iff.mpr hready⟩] at hlen
      exact ⟨b, hb, hbp, List.ne_nil_of_length_pos (by omega)⟩
  refine ⟨x, hmem, hx, hcount, ?_⟩
  constructor
  · rintro ⟨s, hs, hin, hsent, -⟩
    obtain ⟨hsx, hready⟩ := (hsends s hs hin).mp hsent
    exact ⟨s, hs, hsx, hready⟩
  · rintro ⟨s, hs, hsx, hready⟩
    have hin : s.node.addr ∈ (D.installed initial 0 p).members := hsx ▸ hmem
    refine ⟨s, hs, hin, (hsends s hs hin).mpr ⟨hsx, hready⟩, fun t ht htin htsent => ?_⟩
    exact haddr t ht s hs (((hsends t ht htin).mp htsent).1.trans hsx.symm)

/-- Two views in a row, each with one more member. -/
def growingDecided : Decided
  | 1 => .reconfigure ⟨⟨1⟩, ⟨2, .ofList [.name "a", .name "b"]⟩, 2, 1, .full⟩
  | 2 => .reconfigure ⟨⟨2⟩, ⟨3, .ofList [.name "a", .name "b", .name "c"]⟩, 2, 1, .full⟩
  | p => .noop ⟨.ofNat p⟩

/-- Both views arrive in one batch. -/
def growingActs : List Site.Act :=
  [.deliver ([1, 2].map fun p => ⟨p, growingDecided p⟩), .advance, .advance, .advance, .advance, .advance]

/-- The third member falls to the second one, which still catches up when it applies the third view: both
    members of the second view have applied the third one, and neither sends to the new member. -/
theorem third_member_unserved :
    ∃ s t : Site, (∀ u ∈ [s, t], u.Belongs growingDecided ⟨1, .ofList [.name "a"]⟩) ∧
      (∀ u ∈ [s, t], u.applied.map (·.position) = [1, 2]) ∧
      [s.node.addr, t.node.addr] = (growingDecided.installed ⟨1, .ofList [.name "a"]⟩ 0 2).members.toList ∧
      ∀ u ∈ [s, t], ¬u.Sends 2 (.name "c") := by
  have hacts : ∀ a ∈ growingActs, a.From ⟨fun _ => True, growingDecided⟩ := by simp [growingActs, Site.Act.From]
  generalize hfounder : (Site.bootstrapped (.name "a") default .ofNat .empty
    ⟨⟨1, .ofList [.name "a"]⟩, 1, .full⟩).run growingActs = founder
  generalize hjoiner : (Site.fresh (.name "b") default .ofNat .empty).run growingActs = joiner
  have hruns : founder.map (fun s => (s.node.addr, s.applied.map (·.position))) = some (.name "a", [1, 2]) ∧
      joiner.map (fun t => (t.node.addr, t.applied.map fun b => (b.position, decide b.before.IsReady))) =
        some (.name "b", [(1, false), (2, false)]) := by
    rw [← hfounder, ← hjoiner]
    decide
  obtain ⟨⟨s, rfl, hs⟩, t, rfl, ht⟩ := hruns.imp Option.map_eq_some_iff.mp Option.map_eq_some_iff.mp
  obtain ⟨hsa, hsp⟩ := Prod.mk.inj hs
  obtain ⟨hta, htp⟩ := Prod.mk.inj ht
  have htp' : t.applied.map (·.position) = [1, 2] := by
    have := congrArg (List.map Prod.fst) htp
    rwa [List.map_map] at this
  have hfirst : ∀ u : Site, u.applied.map (·.position) = [1, 2] → ∀ b ∈ u.applied.head?, ∀ q < b.position,
      ∀ r, growingDecided q ≠ .reconfigure r := by
    intro u hu b hb q hq r hr
    obtain ⟨rest, hrest⟩ := List.head?_eq_some_iff.mp hb
    rw [hrest] at hu
    have hq0 : q = 0 := Nat.lt_one_iff.mp ((List.cons.inj hu).1 ▸ hq)
    subst hq0
    cases hr
  have hpair : ∀ u ∈ [s, t], u = s ∨ u = t := by simp
  have hab : Addr.name "a" ≠ .name "b" := by decide
  have hbelongs : ∀ u ∈ [s, t], u.Belongs growingDecided ⟨1, .ofList [.name "a"]⟩ := by
    intro u hu
    rcases hpair u hu with rfl | rfl
    · exact .founder (fun a => by rw [OrderedSet.mem_ofList, List.mem_singleton]) hacts hfounder (hfirst _ hsp)
    · exact .joiner (by decide) hacts hjoiner fun b hb q hq r hr => absurd hr (hfirst _ htp' b hb q hq r)
  have haddr : ∀ u ∈ [s, t], ∀ w ∈ [s, t], u.node.addr = w.node.addr → u = w := by
    intro u hu w hw h
    rcases hpair u hu with rfl | rfl <;> rcases hpair w hw with rfl | rfl
    · rfl
    · exact absurd (hsa.symm.trans (h.trans hta)) hab
    · exact absurd (hsa.symm.trans (h.symm.trans hta)) hab
    · rfl
  obtain ⟨x, -, hx, hcount, -⟩ := joining_member_served_iff_ready (p := 2) (a := .name "c") hbelongs haddr rfl
    (by decide) (by decide) (by decide) (by decide)
  have hxb : x = .name "b" := by
    have : (growingDecided.installed ⟨1, .ofList [.name "a"]⟩ 0 2).server? (.name "c") = some (.name "b") := by decide
    exact (Option.some.inj (this.symm.trans hx)).symm
  subst hxb
  refine ⟨s, t, hbelongs, by simp [hsp, htp'], ?_, ?_⟩
  · rw [hsa, hta]
    decide
  · rintro u hu ⟨b, hb, hbp, hsent⟩
    have hin : u.node.addr ∈ (growingDecided.installed ⟨1, .ofList [.name "a"]⟩ 0 2).members := by
      rcases hpair u hu with rfl | rfl
      · rw [hsa]; decide
      · rw [hta]; decide
    have hlen := hcount u hu hin b hb hbp
    rw [if_neg] at hlen
    · exact hsent (List.eq_nil_of_length_eq_zero hlen)
    · rintro ⟨hub, hready⟩
      rcases hpair u hu with rfl | rfl
      · exact absurd (hsa.symm.trans hub) hab
      · have hmem : (b.position, decide b.before.IsReady) ∈ [(1, false), (2, false)] :=
          htp ▸ List.mem_map_of_mem hb
        simp [hready] at hmem

end ReplicaGroup
