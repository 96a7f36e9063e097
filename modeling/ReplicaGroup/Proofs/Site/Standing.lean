import ReplicaGroup.Proofs.Engine.Turns
import ReplicaGroup.Proofs.Site.History

/-! # Where a site stands

A site that has applied what is decided before a position has one engine after the other while it stands there.
What lasts through the applications holds of all of them, with the applications up to there. -/

namespace ReplicaGroup

theorem Engine.Lasts.and {Q Q' : List Application → Engine → Prop} (hQ : Lasts Q) (hQ' : Lasts Q') :
    Lasts fun l e => Q l e ∧ Q' l e where
  kept l e e' h k := ⟨hQ.kept l e e' h.1 k, hQ'.kept l e e' h.2 k⟩
  log l e log h := ⟨hQ.log l e log h.1, hQ'.log l e log h.2⟩
  apply l e h p v hq hf := ⟨hQ.apply l e h p v hq.1 hf, hQ'.apply l e h p v hq.2 hf⟩

theorem Engine.awaits_iff {e : Engine} {v : Value} :
    e.awaits v = true ↔ ∃ sync, e.syncing? = some sync ∧ v = .syncedUp sync.marker := by
  cases v with
  | syncedUp id =>
    rw [awaits, Option.any_eq_true]
    constructor
    · rintro ⟨sync, hs, hid⟩
      exact ⟨sync, hs, congrArg Value.syncedUp (of_decide_eq_true hid).symm⟩
    · rintro ⟨sync, hs, hid⟩
      exact ⟨sync, hs, decide_eq_true (Value.syncedUp.inj hid).symm⟩
  | op | reconfigure | scan | noop | unknown =>
    refine iff_of_false Bool.false_ne_true ?_
    rintro ⟨_, -, h⟩
    cases h

/-- The catch-up that is completed by applying a value. -/
def Application.completed? (a : Application) : Option Syncing := if a.completes then a.before.syncing? else none

theorem Application.exists_completed? {a : Application} (h : a.completes = true) : ∃ sync, a.completed? = some sync := by
  obtain ⟨sync, hs, -⟩ := Engine.awaits_iff.mp h
  exact ⟨sync, (if_pos h).trans hs⟩

theorem Application.completes_of_completed? {a : Application} {sync : Syncing} (h : a.completed? = some sync) :
    a.completes = true ∧ a.before.syncing? = some sync := by
  obtain ⟨hc, hs⟩ := Option.ite_none_right_eq_some.mp h
  exact ⟨hc, hs⟩

namespace Site
variable {D : Decided} {s start : Site} {n first : Position} {e : Engine} {Q : List Application → Engine → Prop}

/-- The engines of a site when it has applied what is decided before a position, and nothing from there on: the
    one that goes on with the position, and the present one. -/
inductive At (s : Site) : Position → Engine → Prop
  | past {b : Application} (hb : b ∈ s.applied) : s.At b.position b.before
  | now {b : Application} (hrun : s.running = true) (hb : s.applied.getLast? = some b) :
    s.At (b.position + 1) s.node.engine

theorem At.ne_nil (hat : s.At n e) : s.applied ≠ [] := by
  cases hat with
  | past hb => exact List.ne_nil_of_mem hb
  | now hrun hb => exact List.ne_nil_of_mem (List.mem_of_getLast? hb)

/-- A site that has come from another one while `D` was decided. -/
def RunsFrom (D : Decided) (start s : Site) : Prop :=
  ∃ acts, (∀ a ∈ acts, a.From ⟨fun _ => True, D⟩) ∧ start.run acts = some s

/-- What is applied where a site stands, and what holds of the engine there. -/
theorem Recounts.at (hs : s.Recounts Q) (ho : s.applied.map Application.decision = D.segment first s.applied.length)
    (hat : s.At n e) : ∃ front, front <+: s.applied ∧ n = first + front.length ∧
      front.map Application.decision = D.segment first front.length ∧ Q front e := by
  cases hat with
  | @past b hb =>
    obtain ⟨front, back, hsplit⟩ := List.append_of_mem hb
    have hdecisions : front.map Application.decision ++ b.decision :: back.map Application.decision =
        D.segment first s.applied.length := by rw [← ho, hsplit, List.map_append, List.map_cons]
    obtain ⟨hfront, hhere⟩ := Decided.segment_split hdecisions
    rw [List.length_map] at hfront hhere
    exact ⟨front, ⟨b :: back, hsplit.symm⟩, congrArg Prod.fst hhere, hfront, hs.before front b back hsplit⟩
  | @now b hrun hb =>
    obtain ⟨front, hsplit⟩ := List.getLast?_eq_some_iff.mp hb
    have hdecisions : front.map Application.decision ++ [b.decision] = D.segment first s.applied.length := by
      rw [← ho, hsplit, List.map_append, List.map_singleton]
    have hhere := congrArg Prod.fst (Decided.segment_split hdecisions).2
    rw [List.length_map] at hhere
    refine ⟨s.applied, List.prefix_refl _, ?_, ho, hs.now hrun⟩
    rw [hsplit, List.length_append, List.length_singleton, ← Nat.add_assoc]
    exact congrArg Nat.succ hhere

/-- A site that has started fresh has applied the decisions from some position on, and recounts what lasts. -/
theorem RunsFrom.recounts (h : RunsFrom D start s) (hfresh : start.Fresh) (hb : start.batch? = none) :
    (∃ first, s.applied.map Application.decision = D.segment first s.applied.length) ∧
      ∀ Q, Engine.Lasts Q → Q [] start.node.engine → s.Recounts Q := by
  obtain ⟨acts, hacts, hrun⟩ := h
  exact ⟨hfresh.applied_run hb hacts hrun, fun Q hQ h₀ => recounts_run hQ hfresh.applied h₀ hacts hrun⟩

/-- Where a site stands, seen from its first application on. -/
theorem RunsFrom.at (h : RunsFrom D start s) (hfresh : start.Fresh) (hb : start.batch? = none) (hQ : Engine.Lasts Q)
    (h₀ : Q [] start.node.engine) (hat : s.At n e) : ∃ first front, (∀ c ∈ s.applied.head?, c.position = first) ∧
      front <+: s.applied ∧ n = first + front.length ∧ front.map Application.decision = D.segment first front.length ∧
      Q front e := by
  obtain ⟨⟨first, ho⟩, hrecounts⟩ := h.recounts hfresh hb
  obtain ⟨front, hfront⟩ := (hrecounts Q hQ h₀).at ho hat
  exact ⟨first, front, fun c hc => position_of_head? ho hc, hfront⟩

/-- Every application is one of a decision. -/
theorem RunsFrom.applied (h : RunsFrom D start s) (hfresh : start.Fresh) (hb : start.batch? = none) {a : Application}
    (ha : a ∈ s.applied) : a.value = D a.position ∧
      ∃ host : Host, a.effects = (a.before.apply host a.position a.value).effects := by
  obtain ⟨⟨first, ho⟩, hrecounts⟩ := h.recounts hfresh hb
  have htrue : Engine.Lasts fun _ _ => True := ⟨fun _ _ _ _ _ => trivial, fun _ _ _ _ => trivial, fun _ _ _ _ _ _ _ => trivial⟩
  obtain ⟨host, -, heffects⟩ := (hrecounts _ htrue trivial).effects a ha
  have hmem : a.decision ∈ D.segment first s.applied.length := ho ▸ List.mem_map_of_mem ha
  exact ⟨(Decided.mem_segment.mp hmem).2.2, host, heffects⟩

theorem position_lt_of_mem {front : List Application} (ho : front.map Application.decision = D.segment first front.length)
    {a : Application} (ha : a ∈ front) : first ≤ a.position ∧ a.position < first + front.length := by
  have hmem : a.decision ∈ D.segment first front.length := ho ▸ List.mem_map_of_mem ha
  exact ⟨(Decided.mem_segment.mp hmem).1, (Decided.mem_segment.mp hmem).2.1⟩

end Site
end ReplicaGroup
