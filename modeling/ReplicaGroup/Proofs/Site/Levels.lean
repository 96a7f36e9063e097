import ReplicaGroup.Proofs.Site.History
import ReplicaGroup.Proofs.Site.Stamping

/-! # The levels of a site

A site that waits for a view has written nothing. While it catches up, its transfer writes at one version, below the
one that the group has. When it serves, it writes at the version of its engine, and its transfers only read. What the
engine does with a value, and what a transfer does in a step, keeps a site on its level or lifts it to the next. -/

namespace ReplicaGroup

theorem View.number_le_of_isNewerThan {v w : View} (h : v.isNewerThan w = true) : w.number ≤ v.number :=
  Nat.le_of_lt (of_decide_eq_true h)

/-! ### Engines -/

namespace Engine
variable {e e' : Engine} {h : Host} {p : Position} {v : Value} {s : Step} {event : Event}

/-- Whether neither the view nor the version of an engine is below that of another one. -/
structure Climbs (e e' : Engine) : Prop where
  view : e.view.number ≤ e'.view.number
  version : e.version ≤ e'.version

theorem Climbs.refl (e : Engine) : e.Climbs e := ⟨Nat.le_refl _, UInt32.le_refl _⟩

theorem Climbs.trans {e'' : Engine} (h : e.Climbs e') (h' : e'.Climbs e'') : e.Climbs e'' :=
  ⟨Nat.le_trans h.view h'.view, UInt32.le_trans h.version h'.version⟩

theorem Turns.climbs (ht : Turns h p e v s) (hp : e.mode = .passive → e.version = 0) : e.Climbs s.engine := by
  cases ht with
  | stays he hx hn hs => rw [he]; exact ⟨Nat.le_refl _, UInt32.le_refl _⟩
  | joins hm hn hv => exact ⟨View.number_le_of_isNewerThan hn, hp hm ▸ UInt32.zero_le⟩
  | follows hm hn hv => exact ⟨View.number_le_of_isNewerThan hn, Version.le_max_left _ _⟩
  | moves hm hn hv hsent =>
    refine ⟨?_, ?_⟩
    · rw [(kept_finishTransferring _).view]
      exact View.number_le_of_isNewerThan hn
    · rw [(kept_finishTransferring _).version]
      exact UInt32.le_of_lt (Version.lt_succ hv)
  | settles hs hv he hx =>
    rw [he, hv]
    exact ⟨Nat.le_refl _, Version.le_max_left _ _⟩

theorem climbs_adopt {r : Reconfiguration} (hn : r.view.isNewerThan e.view = true) : e.Climbs (e.adopt r) :=
  ⟨View.number_le_of_isNewerThan hn, UInt32.le_refl _⟩

/-- What stays of an engine that is told anything but decided values. -/
structure Stays (e e' : Engine) : Prop where
  view : e'.view = e.view
  version : e'.version = e.version
  mode : e'.mode = e.mode ∨ e.mode = .transferring ∧ e'.mode = .active

theorem Stays.refl (e : Engine) : e.Stays e := ⟨rfl, rfl, .inl rfl⟩

theorem Kept.stays (k : e.Kept e') : e.Stays e' := ⟨k.view, k.version, k.mode⟩

theorem Stays.climbs (k : e.Stays e') : e.Climbs e' :=
  ⟨Nat.le_of_eq (congrArg View.number k.view).symm, k.version ▸ UInt32.le_refl _⟩

theorem Stays.mode_eq (k : e.Stays e') (hm : e.mode ≠ .transferring) : e'.mode = e.mode :=
  k.mode.resolve_right fun h => hm h.1

theorem Stays.isServing (k : e.Stays e') : e'.mode.isServing = e.mode.isServing := by
  rcases k.mode with h | ⟨h, h'⟩
  · rw [h]
  · rw [h, h']; rfl

/-- Only the end of its transfer makes a replica wait for a marker. -/
theorem Reacts.syncing (hr : Reacts h e event s) : s.engine.syncing? = e.syncing? ∨ e.mode = .catchingUp ∧
    ∃ c sync, event = .completed c ∧ s.engine.syncing? = some sync ∧
      c.outcome = .ok ⟨some sync.snapshot, some sync.version⟩ := by
  cases hr with
  | quiet he => exact .inl he.syncing
  | holds | received => exact .inl rfl
  | marks hm hrole hin hc he hx => exact .inr ⟨hm, _, _, rfl, by rw [he], hc⟩
  | sent hid => exact .inl (syncing?_finishTransferring _)

/-- A serving engine asks for writes at its version, and no other engine asks for any. -/
theorem Routine.writesAt {r : Request} {w : Version} (hx : e.Routine v (.request r))
    (hw : e.mode.isServing = true → w = e.version) : r.WritesAt w := by
  cases hx with
  | measures range => exact Request.writesAt_size range
  | @executes op hop hm => exact hw hm ▸ op.writesAt_request e.version

theorem Routine.stage? {x : Effect} (hx : e.Routine v x) : x.stage? = none := by
  cases hx <;> rfl

theorem writesAt_replay (snapshot marker : Position) : ∀ r ∈ e.replay snapshot marker, r.WritesAt e.version := by
  intro r hr
  obtain ⟨q, -, hq⟩ := List.mem_filterMap.mp hr
  obtain ⟨rule, -, hcapture⟩ := Option.bind_eq_some_iff.mp hq
  obtain ⟨-, hr⟩ := Option.ite_none_right_eq_some.mp hcapture
  exact Option.some.inj hr ▸ q.2.writesAt_request e.version

end Engine

namespace Node
variable {n m : Node} {w w' : Version}

/-! ### The three levels -/

/-- Whether no transfer writes any more. -/
def Reads (n : Node) : Prop := ∀ stage ∈ n.background.stages, stage.reads = true

/-- A node that waits for a view, and has not written anything. -/
structure Blank (n : Node) : Prop where
  mode : n.engine.mode = .passive
  version : n.engine.version = 0
  settled : n.engine.syncing? = none
  level : n.Level 0
  stages : n.background.stages = []
  completed : n.notices.completed = []

/-- A node that catches up, and whose transfer writes at a version. -/
structure Filling (w : Version) (n : Node) : Prop where
  mode : n.engine.mode = .catchingUp
  level : n.Level w
  stages : ∃ stage, n.background.stages = [stage] ∧ stage.WritesAt w
  completed : ∀ c ∈ n.notices.completed, n.Reads ∧ ∀ m v, c.outcome = .ok m → m.version? = some v → w ≤ v
  syncing : ∀ sync, n.engine.syncing? = some sync → n.Reads ∧ w ≤ sync.version

/-- A node that serves, and writes at the version of its engine. -/
structure Steady (n : Node) : Prop where
  serving : n.engine.mode.isServing = true
  settled : n.engine.syncing? = none
  level : n.Level n.engine.version
  reads : n.Reads

theorem Steady.not_passive (hn : n.Steady) : n.engine.mode ≠ .passive := fun hm => by
  have hserving := hn.serving
  rw [hm] at hserving
  cases hserving

theorem Steady.not_catchingUp (hn : n.Steady) : n.engine.mode ≠ .catchingUp := fun hm => by
  have hserving := hn.serving
  rw [hm] at hserving
  cases hserving

/-- A node on one of the three levels. -/
def IsLevel (n : Node) : Prop := n.Blank ∨ (∃ w, n.Filling w) ∨ n.Steady

theorem IsLevel.steady (hn : n.IsLevel) (hserving : n.engine.mode.isServing = true) : n.Steady := by
  rcases hn with hn | ⟨w, hn⟩ | hn
  · exact absurd (hn.mode ▸ hserving) nofun
  · exact absurd (hn.mode ▸ hserving) nofun
  · exact hn

/-- Nobody has a version before the first view. -/
theorem IsLevel.version_of_passive (hn : n.IsLevel) (hm : n.engine.mode = .passive) : n.engine.version = 0 := by
  rcases hn with hn | ⟨w, hn⟩ | hn
  · exact hn.version
  · exact absurd (hn.mode.symm.trans hm) nofun
  · exact absurd hm hn.not_passive

theorem IsLevel.ordered (hn : n.IsLevel) : n.stamps.Pairwise (· ≤ ·) := by
  rcases hn with hn | ⟨w, hn⟩ | hn
  · exact hn.level.ordered
  · exact hn.level.ordered
  · exact hn.level.ordered

theorem Unwritten.blank (h : n.Unwritten m) (hn : n.Blank) (k : n.engine.Stays m.engine)
    (hs : m.engine.syncing? = n.engine.syncing?) : m.Blank where
  mode := (k.mode_eq (by rw [hn.mode]; exact nofun)).trans hn.mode
  version := k.version.trans hn.version
  settled := hs.trans hn.settled
  level := h.level hn.level
  stages := h.stages.trans hn.stages
  completed := List.eq_nil_of_subset_nil (hn.completed ▸ h.completed)

theorem Unwritten.reads (h : n.Unwritten m) (hn : n.Reads) : m.Reads := by
  intro stage hstage
  rw [h.stages] at hstage
  exact hn stage hstage

theorem Unwritten.filling (h : n.Unwritten m) (hn : n.Filling w) (k : n.engine.Stays m.engine)
    (hs : ∀ sync, m.engine.syncing? = some sync → n.engine.syncing? = some sync ∨
      ∃ c ∈ n.notices.completed, c.outcome = .ok ⟨some sync.snapshot, some sync.version⟩) : m.Filling w where
  mode := (k.mode_eq (by rw [hn.mode]; exact nofun)).trans hn.mode
  level := h.level hn.level
  stages := h.stages ▸ hn.stages
  completed c hc := ⟨h.reads (hn.completed c (h.completed hc)).1, (hn.completed c (h.completed hc)).2⟩
  syncing sync hsync := by
    rcases hs sync hsync with hsync | ⟨c, hc, ho⟩
    · exact ⟨h.reads (hn.syncing sync hsync).1, (hn.syncing sync hsync).2⟩
    · exact ⟨h.reads (hn.completed c hc).1, (hn.completed c hc).2 _ _ ho rfl⟩

theorem Unwritten.steady (h : n.Unwritten m) (hn : n.Steady) (k : n.engine.Stays m.engine)
    (hs : m.engine.syncing? = n.engine.syncing?) : m.Steady where
  serving := k.isServing.trans hn.serving
  settled := hs.trans hn.settled
  level := k.version ▸ h.level hn.level
  reads := h.reads hn.reads

theorem Reads.execute (hn : n.Reads) (hq : n.background.queue ≠ []) : (n.serve 1).1.Reads := fun stage hstage =>
  hn stage ((serve_frame hq).2.2.1 ▸ hstage)

theorem Blank.execute (hn : n.Blank) (hq : n.background.queue ≠ []) : (n.serve 1).1.Blank := by
  obtain ⟨hengine, -, hstages, hcompleted⟩ := serve_frame hq
  exact ⟨hengine ▸ hn.mode, hengine ▸ hn.version, hengine ▸ hn.settled, hn.level.execute hq, hstages ▸ hn.stages,
    hcompleted ▸ hn.completed⟩

theorem Filling.execute (hn : n.Filling w) (hq : n.background.queue ≠ []) : (n.serve 1).1.Filling w := by
  obtain ⟨hengine, -, hstages, hcompleted⟩ := serve_frame hq
  refine ⟨hengine ▸ hn.mode, hn.level.execute hq, hstages ▸ hn.stages, fun c hc => ?_, fun sync hsync => ?_⟩
  · rw [hcompleted] at hc
    exact ⟨(hn.completed c hc).1.execute hq, (hn.completed c hc).2⟩
  · rw [hengine] at hsync
    exact ⟨(hn.syncing sync hsync).1.execute hq, (hn.syncing sync hsync).2⟩

theorem Steady.execute (hn : n.Steady) (hq : n.background.queue ≠ []) : (n.serve 1).1.Steady := by
  obtain ⟨hengine, -, -, -⟩ := serve_frame hq
  exact ⟨hengine ▸ hn.serving, hengine ▸ hn.settled, hengine ▸ hn.level.execute hq, hn.reads.execute hq⟩

end Node

namespace Site
variable {s t : Site} {step : Step} {o : Outside} {w w' : Version}

/-! ### Moves -/

/-- The ways in which a site can change, seen from its storage. -/
inductive Proceeds (s : Site) : Site → Prop
  | hears {t : Site} (h : s.node.Unwritten t.node) (k : s.node.engine.Stays t.node.engine)
    (hs : t.node.engine.syncing? = s.node.engine.syncing? ∨ s.node.engine.mode = .catchingUp ∧
      ∃ c ∈ s.node.notices.completed, ∃ sync, t.node.engine.syncing? = some sync ∧
        c.outcome = .ok ⟨some sync.snapshot, some sync.version⟩)
    (hrun : s.running = false → t.running = false) : Proceeds s t
  | applies {e : Position × Value} {rest : List (Position × Value)} (hrun : s.running = true)
    (hr : s.released = e :: rest) : Proceeds s (s.apply e rest)
  | executes (hq : s.node.background.queue ≠ []) : Proceeds s { s with node := (s.node.serve 1).1 }
  | transfers {id : TransferId} {n : Node} (hn : s.node.stepTransfer id = some n) : Proceeds s { s with node := n }

theorem Heard.unwritten {e : Event} (h : Heard o s e t) : s.node.Unwritten t.node := by
  cases h with
  | hear | response | stopped => exact ⟨rfl, rfl, rfl, rfl, fun _ h => h⟩
  | completion hc => exact ⟨rfl, rfl, rfl, rfl, (List.eraseIdx_sublist ..).subset⟩

theorem Heard.mem_completed {c : Completion} (h : Heard o s (.completed c) t) : c ∈ s.node.notices.completed := by
  cases h with
  | hear he ho => cases he
  | completion hc => exact List.mem_of_getElem? hc

theorem Moves.proceeds (hm : Moves o s t) : s.Proceeds t := by
  cases hm with
  | @hear e u hi he =>
    have hidle := Engine.idle_handle (h := u.node.host) (e := u.node.engine) (not_decide_of_heard he)
    have heq : u.node.engine = s.node.engine := by
      obtain ⟨notices, rfl⟩ := he.eq
      rfl
    refine .hears (he.unwritten.trans (unwritten_handle (not_decide_of_heard he))) ?_ ?_ fun hrun => ?_
    · rw [engine_handle, ← heq]
      exact hidle.1.stays
    · rw [engine_handle, ← heq]
      rcases (Engine.reacts_handle (not_decide_of_heard he)).syncing with h | ⟨hmode, c, sync, rfl, hsync, hc⟩
      · exact .inl h
      · exact .inr ⟨hmode, c, he.mem_completed, sync, hsync, hc⟩
    · have := running_of_isIdle hi
      rw [hrun] at this
      cases this
  | deliver hi hd => exact .hears ⟨rfl, rfl, rfl, rfl, fun _ h => h⟩ (.refl _) (.inl rfl) id
  | apply hrun hr => exact .applies hrun hr
  | insert hrun hr hb => exact .hears ⟨rfl, rfl, rfl, rfl, fun _ h => h⟩ ⟨rfl, rfl, .inl rfl⟩ (.inl rfl) id
  | finish hrun hr hb =>
    refine .hears (unwritten_take (s := { s with batch? := none }) Engine.idle_prune) ?_ (.inl ?_) fun h => ?_
    · rw [Site.finish, take_engine]
      exact Engine.kept_prune.1.stays
    · rw [Site.finish, take_engine]
      exact (Engine.quiet_prune _).syncing
    · rw [hrun] at h
      cases h
  | execute hq => exact .executes hq
  | transfer hn => exact .transfers hn
  | wait ms =>
    obtain ⟨hqueue, htransfers, -⟩ := Background.expire_frame (b := s.node.background) (s.node.now + ms)
    exact .hears ⟨rfl, hqueue, rfl, congrArg (List.map _) htransfers, fun _ h => h⟩ (.refl _) (.inl rfl) id
  | register ha => exact .hears ⟨rfl, rfl, rfl, rfl, fun _ h => h⟩ (.refl _) (.inl rfl) id

/-! ### What an engine asks for -/

section Take
variable {e : Engine} {h : Host} {p : Position} {v : Value}

theorem filterMap_stage?_of_routine (hx : ∀ x ∈ step.effects, e.Routine v x) : step.effects.filterMap Effect.stage? = [] :=
  List.filterMap_eq_nil_iff.mpr fun x hmem => (hx x hmem).stage?

theorem blank_take (hs : s.node.Blank) (hmode : step.engine.mode = .passive)
    (hversion : step.engine.version = s.node.engine.version) (hsync : step.engine.syncing? = s.node.engine.syncing?)
    (hx : ∀ r, .request r ∈ step.effects → r.WritesAt 0) (hstages : step.effects.filterMap Effect.stage? = []) :
    (s.take step).node.Blank where
  mode := by rw [take_engine, hmode]
  version := by rw [take_engine, hversion, hs.version]
  settled := by rw [take_engine, hsync, hs.settled]
  level := (level_take hs.level (UInt32.le_refl 0) hx).1
  stages := by rw [stages_take, hs.stages, hstages]; rfl
  completed := take_completed.trans hs.completed

theorem reads_take_of_stages (hs : s.node.Reads) (hstages : ∀ stage ∈ step.effects.filterMap Effect.stage?, stage.reads = true) :
    (s.take step).node.Reads := by
  intro stage hmem
  rw [stages_take] at hmem
  rcases List.mem_append.mp hmem with hmem | hmem
  · exact hs stage hmem
  · exact hstages stage hmem

theorem filling_take (hs : s.node.Filling w) (hmode : step.engine.mode = .catchingUp)
    (hsync : step.engine.syncing? = s.node.engine.syncing?) (hx : ∀ r, .request r ∈ step.effects → r.WritesAt w)
    (hstages : step.effects.filterMap Effect.stage? = []) : (s.take step).node.Filling w := by
  have hreads : s.node.Reads → (s.take step).node.Reads := fun hr => reads_take_of_stages hr (by simp [hstages])
  refine ⟨by rw [take_engine, hmode], (level_take hs.level (UInt32.le_refl w) hx).1, ?_, fun c hc => ?_, fun sync h => ?_⟩
  · rw [stages_take, hstages, List.append_nil]
    exact hs.stages
  · rw [take_completed] at hc
    exact ⟨hreads (hs.completed c hc).1, (hs.completed c hc).2⟩
  · rw [take_engine, hsync] at h
    exact ⟨hreads (hs.syncing sync h).1, (hs.syncing sync h).2⟩

theorem steady_take (hlevel : s.node.Level w) (hreads : s.node.Reads) (hserving : step.engine.mode.isServing = true)
    (hsettled : step.engine.syncing? = none) (hversion : w ≤ step.engine.version)
    (hx : ∀ r, .request r ∈ step.effects → r.WritesAt step.engine.version)
    (hstages : ∀ stage ∈ step.effects.filterMap Effect.stage?, stage.reads = true) :
    (s.take step).node.Steady ∧ s.node.Writes step.engine.version (s.take step).node := by
  obtain ⟨hlevel', hwrites⟩ := level_take hlevel hversion hx
  refine ⟨⟨?_, ?_, ?_, reads_take_of_stages hreads hstages⟩, hwrites⟩
  · rw [take_engine, hserving]
  · rw [take_engine, hsettled]
  · rw [take_engine]
    exact hlevel'

/-- A node that waits starts to receive at the lowest version. -/
theorem blank_turn (hs : s.node.Blank) (ht : s.node.engine.Turns h p v step) :
    (s.take step).node.Blank ∨ (s.take step).node.Filling 0 := by
  have hserving : s.node.engine.mode.isServing ≠ true := by rw [hs.mode]; exact nofun
  cases ht with
  | stays he hx hn hsync =>
    left
    refine blank_take hs ?_ ?_ ?_ (fun r hr => (hx _ hr).writesAt fun h => absurd h hserving)
      (filterMap_stage?_of_routine hx)
    all_goals rw [he]
    exact hs.mode
  | joins hm hn hversion =>
    right
    refine ⟨by rw [take_engine], (level_take hs.level (UInt32.le_refl 0) fun r hr => ?_).1,
      ⟨.created .receive, ?_, rfl⟩, ?_, ?_⟩
    · cases List.mem_singleton.mp hr
    · rw [stages_take, hs.stages]
      rfl
    · rw [take_completed, hs.completed]
      exact fun c hc => absurd hc List.not_mem_nil
    · rw [take_engine]
      exact fun sync hsync => absurd (hs.settled.symm.trans hsync) nofun
  | follows hm hn hversion => exact absurd (hs.mode.symm.trans hm) nofun
  | moves hm hn hversion hsent => exact absurd hm hserving
  | settles hsync hversion he hx => exact absurd (hs.settled.symm.trans hsync) nofun

/-- A node that catches up goes on with it, or settles at the version of its engine. -/
theorem filling_turn (hs : s.node.Filling w) (ht : s.node.engine.Turns h p v step) :
    (s.take step).node.Filling w ∨ (s.take step).node.Steady := by
  have hserving : s.node.engine.mode.isServing ≠ true := by rw [hs.mode]; exact nofun
  cases ht with
  | stays he hx hn hsync =>
    left
    refine filling_take hs ?_ ?_ (fun r hr => (hx _ hr).writesAt fun h => absurd h hserving)
      (filterMap_stage?_of_routine hx)
    all_goals rw [he]
    exact hs.mode
  | joins hm hn hversion => exact absurd (hs.mode.symm.trans hm) nofun
  | follows hm hn hversion =>
    exact .inl (filling_take hs hm rfl (fun r hr => absurd hr List.not_mem_nil) rfl)
  | moves hm hn hversion hsent => exact absurd hm hserving
  | @settles sync step version hsync hversion he hx =>
    right
    obtain ⟨hreads, hle⟩ := hs.syncing sync hsync
    have heq : step.engine.version = version := by rw [he]
    refine (steady_take hs.level hreads ?_ ?_ ?_ (fun r hr => ?_) (by rw [hx]; simp [Effect.stage?])).1
    · rw [he]
      rfl
    · rw [he]
    · rw [heq, hversion]
      exact UInt32.le_trans hle (Version.le_max_right _ _)
    · rw [heq]
      rw [hx] at hr
      rcases List.mem_cons.mp hr with hr | hr
      · cases hr
        exact Request.writesAt_snapshot (Engine.writesAt_replay sync.snapshot p)
      · rcases List.mem_cons.mp hr with hr | hr
        · cases hr
          exact Request.writesAt_cleanup _ _
        · cases List.mem_singleton.mp hr

/-- A node that serves writes at its version, and moves to a new one without writing. -/
theorem steady_turn (hs : s.node.Steady) (ht : s.node.engine.Turns h p v step) :
    (s.take step).node.Steady ∧ s.node.Writes step.engine.version (s.take step).node := by
  cases ht with
  | stays he hx hn hsync =>
    have heq : step.engine.version = s.node.engine.version := by rw [he]
    refine steady_take hs.level hs.reads ?_ ?_ (heq ▸ UInt32.le_refl _)
      (fun r hr => (hx _ hr).writesAt fun _ => heq) (by simp [filterMap_stage?_of_routine hx])
    · rw [he]
      exact hs.serving
    · rw [he]
      exact hs.settled
  | joins hm hn hversion => exact absurd hm hs.not_passive
  | follows hm hn hversion => exact absurd hm hs.not_catchingUp
  | @moves r version sent hm hn hversion hsent =>
    have k := Engine.kept_finishTransferring { s.node.engine.adopt r with
      version, mode := .transferring
      outgoing := s.node.engine.outgoing ++ sent.filterMap fun x => (Effect.outbound? x).map Outbound.id
      drawn := s.node.engine.drawn + 2 * (s.node.engine.view.recipients r.view h.addr).toList.length }
    refine steady_take hs.level hs.reads (k.isServing.trans rfl) ?_ ?_ (fun q hq => ?_) fun stage hstage => ?_
    · exact (k.syncing nofun).trans hs.settled
    · rw [k.version]
      exact UInt32.le_of_lt (Version.lt_succ hversion)
    · obtain ⟨n, scanId, -, a, -, hx⟩ := Engine.exists_of_mem_sendings (hsent ▸ hq)
      cases hx
    · obtain ⟨x, hmem, hx⟩ := List.mem_filterMap.mp hstage
      obtain ⟨n, scanId, -, a, -, rfl⟩ := Engine.exists_of_mem_sendings (hsent ▸ hmem)
      cases hx
      rfl
  | settles hsync hversion he hx => exact absurd (hs.settled.symm.trans hsync) nofun

end Take

/-! ### Steps -/

/-- The channels of a site stay open. -/
theorem Moves.channels (hm : Moves o s t) :
    t.node.background.storeOpen = s.node.background.storeOpen ∧ t.node.upcallOpen = s.node.upcallOpen := by
  cases hm with
  | @hear e u hi he =>
    obtain ⟨notices, rfl⟩ := he.eq
    by_cases hstop : e = .stop
    · subst hstop
      simp [handle]
    · rw [handle_eq_take hstop]
      exact ⟨take_storeOpen, take_upcallOpen⟩
  | apply hrun hr => exact ⟨take_storeOpen, take_upcallOpen⟩
  | finish hrun hr hb => exact ⟨take_storeOpen, take_upcallOpen⟩
  | execute hq =>
    obtain ⟨⟨r, requester?⟩, rest, hq⟩ := List.exists_cons_of_ne_nil hq
    rw [Node.serve_one hq]
    exact ⟨Background.storeOpen_resolve .., rfl⟩
  | transfer hn =>
    obtain ⟨u, u', reports, -, -, rfl⟩ := Node.stepTransfer_eq_some hn
    exact ⟨rfl, rfl⟩
  | wait ms => exact ⟨(Background.expire_frame (b := s.node.background) (s.node.now + ms)).2.2, rfl⟩
  | deliver | insert | register => exact ⟨rfl, rfl⟩

/-- A site whose channels are open. -/
structure IsOpen (s : Site) : Prop where
  storeOpen : s.node.background.storeOpen = true
  upcallOpen : s.node.upcallOpen = true

theorem IsOpen.moves (hs : s.IsOpen) (hm : Moves o s t) : t.IsOpen :=
  ⟨hm.channels.1.trans hs.storeOpen, hm.channels.2.trans hs.upcallOpen⟩

theorem Starts.isOpen (hs : s.Starts) : s.IsOpen := by
  cases hs <;> exact ⟨rfl, rfl⟩

/-- A step of a transfer, seen from storage and from the engine. -/
structure Steps (id : TransferId) (n m : Node) (t : Transfer) (out : Transfer × List Transfer.Report) : Prop where
  mem : t ∈ n.background.transfers
  step : t.step ⟨n.background.storeOpen, n.carries⟩ n.now = some out
  engine : m.engine = n.engine
  store : m.store = n.store
  queue : m.background.queue =
    n.background.queue ++ (out.2.filterMap Transfer.Report.request?).map fun r => (r, some (.transfer id))
  requests : m.notices.requests = n.notices.requests ++ out.2.filterMap Transfer.Report.request?
  stages : m.background.stages = n.background.transfers.map fun v => if v.id = id then out.1.stage else v.stage
  completed : ∀ c ∈ m.notices.completed, c ∈ n.notices.completed ∨ c ∈ out.2.filterMap Transfer.Report.completion?

theorem exists_steps {n m : Node} {id : TransferId} (h : n.stepTransfer id = some m) :
    ∃ t out, t.id = id ∧ Steps id n m t out := by
  obtain ⟨t, u, reports, ht, hstep, rfl⟩ := Node.stepTransfer_eq_some h
  obtain ⟨hmem, hid⟩ := Transfer.of_find? ht
  refine ⟨t, (u, reports), hid, hmem, hstep, rfl, rfl, rfl, rfl, ?_, fun c hc => ?_⟩
  · rw [Background.stages, List.map_map]
    refine List.map_congr_left fun v _ => ?_
    dsimp only [Function.comp_apply]
    split <;> rfl
  · exact (List.mem_append.mp hc).imp_right fun hc => (List.mem_filter.mp hc).1

/-- A transfer of a node that catches up lifts it to the version that it writes at. -/
theorem filling_transfer (hs : s.node.Filling w) {id : TransferId} {n : Node} (hn : s.node.stepTransfer id = some n) :
    n.engine = s.node.engine ∧ ∃ w', n.Filling w' := by
  obtain ⟨u, out, hid, h⟩ := exists_steps hn
  obtain ⟨stage, hstages, hwrites⟩ := hs.stages
  -- The transfer is the only one.
  have htransfers : s.node.background.transfers = [u] := by
    have hmem := h.mem
    obtain ⟨t, ht, -⟩ := List.map_eq_singleton_iff.mp hstages
    rw [ht] at hmem ⊢
    rw [List.mem_singleton.mp hmem]
  obtain rfl : u.stage = stage := by
    rw [Background.stages, htransfers] at hstages
    exact (List.cons.inj hstages).1
  obtain ⟨w', hw, hout, hended⟩ := Transfer.writes_goes hwrites (Transfer.goes_of_step h.step)
  have hstages' : n.background.stages = [out.1.stage] := by
    rw [h.stages, htransfers, List.map_singleton, if_pos hid]
  have hreads : out.1.stage.reads = true → n.Reads := fun hr stage hstage => by
    rw [hstages'] at hstage
    exact List.mem_singleton.mp hstage ▸ hr
  have hstays : s.node.Reads → n.Reads ∧ w' = w := fun hr => by
    obtain ⟨hw, hr⟩ := hended (hr u.stage (hstages ▸ .head _))
    exact ⟨hreads hr, hw⟩
  refine ⟨h.engine, w', h.engine ▸ hs.mode, (hs.level.queue hw h.store h.queue h.requests hout.requests).1,
    ⟨_, hstages', hout.stage⟩, fun c hc => ?_, fun sync hsync => ?_⟩
  · rcases h.completed c hc with hc | hc
    · obtain ⟨hr, hle⟩ := hs.completed c hc
      obtain ⟨hr, rfl⟩ := hstays hr
      exact ⟨hr, hle⟩
    · exact ⟨hreads (hout.completions c hc).1, (hout.completions c hc).2⟩
  · obtain ⟨hr, hle⟩ := hs.syncing sync (h.engine ▸ hsync)
    obtain ⟨hr, rfl⟩ := hstays hr
    exact ⟨hr, hle⟩

/-- A transfer of a node that serves only reads. -/
theorem steady_transfer (hs : s.node.Steady) {id : TransferId} {n : Node} (hn : s.node.stepTransfer id = some n) :
    n.engine = s.node.engine ∧ n.Steady ∧ n.stamps = s.node.stamps := by
  obtain ⟨u, out, hid, h⟩ := exists_steps hn
  obtain ⟨hout, hrequests⟩ := Transfer.step_reads (hs.reads u.stage (List.mem_map_of_mem h.mem)) h.step
  have hlevel := (hs.level.queue (UInt32.le_refl _) h.store h.queue h.requests fun r hr v hv =>
    absurd ((hrequests r hr).stamps ▸ hv) List.not_mem_nil).1
  refine ⟨h.engine, ⟨h.engine ▸ hs.serving, h.engine ▸ hs.settled, h.engine ▸ hlevel, fun stage hstage => ?_⟩, ?_⟩
  · rw [h.stages] at hstage
    obtain ⟨v, hv, rfl⟩ := List.mem_map.mp hstage
    split
    · exact hout
    · exact hs.reads v.stage (List.mem_map_of_mem hv)
  · rw [Node.stamps, h.requests, List.flatMap_append, List.flatMap_eq_nil_iff.mpr fun r hr => (hrequests r hr).stamps,
      List.append_nil, Node.stamps]

end Site

end ReplicaGroup
