import ReplicaGroup.Proofs.Engine.Course

/-! # Moves to newer views

A decided move to a newer view needs a version. While one is left, the move is made as a whole: configuration,
version and transfers. When none is left the move fails, and by then the engine has taken over the view, the
quorum and the range; only the version, the mode and the transfers are as before. -/

namespace ReplicaGroup

theorem View.ne_of_isNewerThan {v old : View} (hn : v.isNewerThan old = true) : v ≠ old := by
  rintro rfl
  exact Nat.lt_irrefl _ (of_decide_eq_true hn)

theorem Mode.passive_or_catchingUp_or_isServing (m : Mode) :
    m = .passive ∨ m = .catchingUp ∨ m.isServing = true := by
  cases m <;> simp [isServing]

namespace Engine
variable {e : Engine} {h : Host} {p : Position} {r : Reconfiguration} {s : Step}

/-- The version that a move to a newer view leads to, if one is left. -/
def versionAfter? (e : Engine) (r : Reconfiguration) : Option Version :=
  match e.mode with
  | .passive => r.version.succ?
  | .catchingUp => r.version.succ?.map (max e.version)
  | .active | .transferring => e.version.succ?

theorem versionAfter?_of_passive (hm : e.mode = .passive) : e.versionAfter? r = r.version.succ? := by
  rw [versionAfter?, hm]

theorem versionAfter?_of_catchingUp (hm : e.mode = .catchingUp) :
    e.versionAfter? r = r.version.succ?.map (max e.version) := by
  rw [versionAfter?, hm]

theorem versionAfter?_of_isServing (hm : e.mode.isServing = true) : e.versionAfter? r = e.version.succ? := by
  rw [versionAfter?]
  cases hmode : e.mode <;> rw [hmode] at hm <;> first | rfl | cases hm

/-- A move has been made: view, quorum and range are the new ones, the version is the one that the move leads
    to, and exactly the transfers that are due have been started. -/
structure Made (h : Host) (p : Position) (e : Engine) (r : Reconfiguration) (s : Step) : Prop where
  accepted : s.fault? = none
  view : s.engine.view = r.view
  quorum : s.engine.quorum = r.quorum
  range : s.engine.range = r.range
  version : e.versionAfter? r = some s.engine.version
  /-- A replica that has waited for a view starts to receive, and passes on the announcement that it held. -/
  receives : e.mode = .passive → s.engine.mode = .catchingUp ∧ ∃ id, s.effects = [.startReceive id e.held?] ∧
    s.engine.incoming? = some id ∧ s.engine.held? = none ∧ s.engine.outgoing = e.outgoing
  waits : e.mode = .catchingUp → s.engine.mode = .catchingUp ∧ s.effects = [] ∧
    s.engine.incoming? = e.incoming? ∧ s.engine.held? = e.held? ∧ s.engine.outgoing = e.outgoing
  /-- A serving replica starts one transfer to each joining member that it is responsible for. -/
  sends : e.mode.isServing = true →
    s.engine.mode = (if s.engine.outgoing = [] then .active else .transferring) ∧
    ∃ ids, ids.length = (e.view.recipients r.view h.addr).toList.length ∧
      s.effects.map Effect.outbound? = (ids.zip (e.view.recipients r.view h.addr).toList).map
        (fun t => some ⟨t.1, t.2, r.range, ⟨some p, some s.engine.version⟩⟩) ∧
      s.engine.incoming? = e.incoming? ∧ s.engine.held? = e.held? ∧ s.engine.outgoing = e.outgoing ++ ids
  rest : s.engine.log = e.log ∧ s.engine.lastSnapshot = e.lastSnapshot ∧ s.engine.pruned = e.pruned ∧
    s.engine.syncing? = e.syncing?

theorem map_outbound_sendings (range : KeyRange) (version : Version) (drawn : Nat) (l : List Addr) :
    let ids := (sendings h p range version drawn l).filterMap fun x => x.outbound?.map Outbound.id
    ids.length = l.length ∧ (sendings h p range version drawn l).map Effect.outbound? =
      (ids.zip l).map fun t => some ⟨t.1, t.2, range, ⟨some p, some version⟩⟩ := by
  induction l generalizing drawn with
  | nil => exact ⟨rfl, rfl⟩
  | cons a l ih =>
    obtain ⟨hlength, hmap⟩ := ih (drawn + 2)
    exact ⟨congrArg (· + 1) hlength, congrArg (List.cons _) hmap⟩

theorem finishTransferring_eq (hm : e.mode = .transferring) :
    e.finishTransferring = { e with mode := if e.outgoing = [] then .active else .transferring } := by
  unfold finishTransferring
  by_cases ho : e.outgoing = []
  · simp [hm, ho]
  · simp [← hm, ho]

/-! ### With a version left -/

theorem made_passive {version : Version} (hm : e.mode = .passive) (hn : r.view.isNewerThan e.view = true)
    (hv : r.version.succ? = some version) : Made h p e r (e.reconfigure h p r) := by
  rw [reconfigure_passive hm hn, hv]
  exact {
    accepted := rfl
    view := rfl
    quorum := rfl
    range := rfl
    version := (versionAfter?_of_passive hm).trans hv
    receives := fun _ => ⟨rfl, _, rfl, rfl, rfl, rfl⟩
    waits := fun hc => by rw [hm] at hc; cases hc
    sends := fun hs => by rw [hm] at hs; cases hs
    rest := ⟨rfl, rfl, rfl, rfl⟩ }

theorem made_catchingUp {version : Version} (hm : e.mode = .catchingUp) (hn : r.view.isNewerThan e.view = true)
    (hv : r.version.succ? = some version) : Made h p e r (e.reconfigure h p r) := by
  rw [reconfigure_catchingUp hm hn, hv]
  exact {
    accepted := rfl
    view := rfl
    quorum := rfl
    range := rfl
    version := (versionAfter?_of_catchingUp hm).trans (congrArg _ hv)
    receives := fun hp => by rw [hm] at hp; cases hp
    waits := fun _ => ⟨hm, rfl, rfl, rfl, rfl⟩
    sends := fun hs => by rw [hm] at hs; cases hs
    rest := ⟨rfl, rfl, rfl, rfl⟩ }

theorem made_serving {version : Version} (hm : e.mode.isServing = true) (hn : r.view.isNewerThan e.view = true)
    (hv : e.version.succ? = some version) : Made h p e r (e.reconfigure h p r) := by
  rw [reconfigure_serving hm hn, hv]
  dsimp only
  rw [finishTransferring_eq rfl]
  obtain ⟨hlength, hsent⟩ := map_outbound_sendings (h := h) (p := p) r.range version e.drawn
    (e.view.recipients r.view h.addr).toList
  exact {
    accepted := rfl
    view := rfl
    quorum := rfl
    range := rfl
    version := (versionAfter?_of_isServing hm).trans hv
    receives := fun hp => by rw [hp] at hm; cases hm
    waits := fun hc => by rw [hc] at hm; cases hm
    sends := fun _ => ⟨rfl, _, hlength, hsent, rfl, rfl, rfl⟩
    rest := ⟨rfl, rfl, rfl, rfl⟩ }

/-- A move to a newer view for which a version is left is made. -/
theorem made_of_versionAfter? (hn : r.view.isNewerThan e.view = true) (hv : (e.versionAfter? r).isSome = true) :
    Made h p e r (e.reconfigure h p r) := by
  obtain ⟨version, hv⟩ := Option.isSome_iff_exists.mp hv
  rcases e.mode.passive_or_catchingUp_or_isServing with hm | hm | hm
  · rw [versionAfter?_of_passive hm] at hv
    exact made_passive hm hn hv
  · rw [versionAfter?_of_catchingUp hm] at hv
    obtain ⟨told, hv, -⟩ := Option.map_eq_some_iff.mp hv
    exact made_catchingUp hm hn hv
  · rw [versionAfter?_of_isServing hm] at hv
    exact made_serving hm hn hv

/-! ### Without a version left -/

/-- A move to a newer view for which no version is left fails with the new configuration in place. -/
theorem reconfigure_exhausted (hn : r.view.isNewerThan e.view = true) (hv : e.versionAfter? r = none) :
    e.reconfigure h p r = (e.adopt r).fail (.versionExhausted .last) := by
  rcases e.mode.passive_or_catchingUp_or_isServing with hm | hm | hm
  · rw [versionAfter?_of_passive hm] at hv
    rw [reconfigure_passive hm hn, hv, Version.succ?_eq_none_iff.mp hv]
    rfl
  · rw [versionAfter?_of_catchingUp hm, Option.map_eq_none_iff] at hv
    rw [reconfigure_catchingUp hm hn, hv, Version.succ?_eq_none_iff.mp hv]
    rfl
  · rw [versionAfter?_of_isServing hm] at hv
    rw [reconfigure_serving hm hn, hv, ← Version.succ?_eq_none_iff.mp hv]
    rfl

/-! ### All or nothing -/

/-- A decided move is made as a whole or changes nothing exactly if it is stale or a version is left for it. A
    stale move is ignored, and a newer one with a version left is made. Where no version is left, a newer move
    fails with view, quorum and range replaced and everything else as before. -/
theorem move_made_iff_version_left (h : Host) (p : Position) (r : Reconfiguration) (e : Engine) :
    let s := e.apply h p (.reconfigure r)
    (Made h p e r s ∨ s.engine = e ∧ s.effects = [] ↔
      (r.view.isNewerThan e.view = true → (e.versionAfter? r).isSome = true)) ∧
    (r.view.isNewerThan e.view = false → s = e.done) ∧
    (r.view.isNewerThan e.view = true → (e.versionAfter? r).isSome = true → Made h p e r s) ∧
    (r.view.isNewerThan e.view = true → e.versionAfter? r = none →
      s = (e.adopt r).fail (.versionExhausted .last)) := by
  intro s
  refine ⟨⟨?_, fun hleft => ?_⟩, reconfigure_stale, made_of_versionAfter?, reconfigure_exhausted⟩
  · rintro (hmade | ⟨hsame, -⟩) hn
    · rw [hmade.version]
      rfl
    · -- With no version left the view would have been replaced.
      by_contra hnone
      have hfails : s = _ := reconfigure_exhausted hn (by simpa using hnone)
      rw [hfails] at hsame
      exact View.ne_of_isNewerThan hn (congrArg Engine.view hsame)
  · cases hn : r.view.isNewerThan e.view with
    | true => exact .inl (made_of_versionAfter? hn (hleft hn))
    | false =>
      have hstale : s = e.done := reconfigure_stale hn
      rw [hstale]
      exact .inr ⟨rfl, rfl⟩

/-- A replica that waits for its first view is told the last version. It stays out of the group, but with the
    view and the quorum of the move. -/
theorem exhausted_move_half_made :
    let r : Reconfiguration := ⟨⟨7⟩, ⟨2, .ofList [.name "a", .name "b"]⟩, 2, .last, .full⟩
    let s := apply openHost 1 (.reconfigure r) {}
    ¬(Made openHost 1 {} r s ∨ s.engine = {} ∧ s.effects = []) ∧
      s.fault? = some (.versionExhausted .last) ∧ s.engine.mode = .passive ∧ s.engine.version = 0 ∧
      s.engine.view = r.view ∧ s.engine.quorum = 2 ∧
      (handle openHost (.decide [⟨1, .reconfigure r⟩]) {}).engine.view = r.view := by
  intro r s
  obtain ⟨hwhole, -, -, hfails⟩ := move_made_iff_version_left openHost 1 r {}
  have hfails : s = _ := hfails rfl rfl
  refine ⟨fun hmade => ?_, ?_⟩
  · exact absurd (hwhole.mp hmade rfl) (by decide)
  · rw [hfails]
    exact ⟨rfl, rfl, rfl, rfl, rfl, rfl⟩

end Engine
end ReplicaGroup
