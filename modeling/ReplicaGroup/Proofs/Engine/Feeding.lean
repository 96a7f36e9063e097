import ReplicaGroup.Proofs.Engine.Course

/-! # Feeding decisions

Decisions may be fed to an engine in any batches. Between two batches the log is pruned, and what is pruned is
gone from the log when a marker is applied later; but an engine that waits for its marker has nothing to prune.
So every feeding ends like the one that applies at one go all that is released, and prunes the log once. -/

namespace ReplicaGroup

/-- What a step did, except for pruning. -/
def Step.deeds (s : Step) : List Effect := s.effects.filter fun x => x.watermark?.isNone

/-- What is read off a step's effects, except for its watermarks, is read off its deeds. -/
theorem Step.filterMap_deeds {β : Type} {f : Effect → Option β} (hf : ∀ w, f (.prune w) = none) (s : Step) :
    s.deeds.filterMap f = s.effects.filterMap f := by
  rw [deeds, List.filterMap_filter]
  refine List.filterMap_congr fun x _ => ?_
  cases x with
  | prune w => exact (hf w).symm
  | propose | upcall | request | startSend | startReceive | deliver | stopTransfer | releaseTransfer => rfl

namespace OperationsLog

theorem prune_prune {log : OperationsLog} {w w' : Position} (hw : w ≤ w') :
    (log.prune w).prune w' = log.prune w' := by
  unfold prune
  dsimp only
  congr 1
  refine OrderedMap.ext ?_
  show (log.entries.entries.filter _).filter _ = log.entries.entries.filter _
  rw [List.filter_filter]
  refine List.filter_congr fun e _ => ?_
  by_cases he : w' < e.1
  · simp [he, Nat.lt_of_le_of_lt hw he]
  · simp [he]

end OperationsLog

namespace Engine
open OperationsLog
variable {e : Engine} {h : Host} {calls : List Call}

/-- Feeds batches of decisions. -/
def feed (h : Host) (batches : List (List Decision)) : Engine → Step :=
  Step.forEach (fun ds e => e.handle h (.decide ds)) batches

/-! ### What is pruned between batches -/

/-- What is known while released values are applied: a replica that waits for its marker has nothing to prune,
    and what has to be pruned comes before all values that are still to be applied. -/
structure Lags (later : List (Position × Value)) (e : Engine) : Prop where
  syncing : e.syncing?.isSome → e.mode = .catchingUp
  last : e.lastSnapshot ≤ e.pruned ∨ e.syncing? = none ∧ ∀ y ∈ later, e.lastSnapshot < y.1
  /-- A marker that is waited for comes behind its snapshot. -/
  marker : ∀ sync, e.syncing? = some sync → ∀ y ∈ later, y.2 = .syncedUp sync.marker → sync.snapshot < y.1
  ordered : later.Pairwise fun a b => a.1 < b.1

theorem Lags.apply {x : Position × Value} {later : List (Position × Value)} {s : Step} (hl : Lags (x :: later) e)
    (ha : Applied x.1 e x.2 s) (hpruned : s.engine.pruned = e.pruned) : Lags later s.engine := by
  obtain ⟨p, v⟩ := x
  obtain ⟨hx, hordered⟩ := List.pairwise_cons.mp hl.ordered
  refine ⟨ha.syncing hl.syncing, ?_, fun sync hs y hy => ?_, hordered⟩
  · cases ha with
    | passes isServing catchingUp syncing lastSnapshot hv hx' =>
      rw [lastSnapshot, hpruned, syncing]
      exact hl.last.imp_right fun ⟨hs, hlt⟩ => ⟨hs, fun y hy => hlt y (.tail _ hy)⟩
    | captures hm hw he hx' htold =>
      rw [he]
      refine .inr ⟨Option.not_isSome_iff_eq_none.mp fun hs => ?_, hx⟩
      rw [hl.syncing hs] at hm
      cases hm
    | settles hs he hx' =>
      rw [he]
      exact .inr ⟨rfl, fun y hy => Nat.lt_trans (hl.marker _ hs _ (.head _) rfl) (hx y hy)⟩
  · refine hl.marker sync ?_ y (.tail _ hy)
    cases ha with
    | passes isServing catchingUp syncing lastSnapshot hv hx' => exact syncing ▸ hs
    | captures hm hw he hx' htold => rwa [he] at hs
    | settles hs' he hx' => rw [he] at hs; cases hs

theorem Lags.applyAll {l later : List (Position × Value)} (hl : Lags (l ++ later) e)
    (hf : (applyAll h l e).fault? = none) : Lags later (applyAll h l e).engine :=
  applyAll_induction (I := fun _ front e => Lags (front ++ later) e) [] hf hl
    fun _ _ _ _ _ ha _ hpruned hl => hl.apply ha hpruned

/-- While no marker is waited for, what has to be pruned only grows. -/
theorem le_lastSnapshot_applyAll {l : List (Position × Value)} {w : Position} (hs : e.syncing? = none)
    (hw : w ≤ e.lastSnapshot) (hl : ∀ x ∈ l, w ≤ x.1) (hf : (applyAll h l e).fault? = none) :
    w ≤ (applyAll h l e).engine.lastSnapshot := by
  refine (applyAll_induction (I := fun _ later e => e.syncing? = none ∧ w ≤ e.lastSnapshot ∧ ∀ x ∈ later, w ≤ x.1)
    [] hf ⟨hs, hw, hl⟩ ?_).2.1
  rintro done ⟨p, v⟩ later e s ha - - ⟨hs, hw, hl⟩
  have hlater : ∀ x ∈ later, w ≤ x.1 := fun x hx => hl x (.tail _ hx)
  cases ha with
  | passes isServing catchingUp syncing lastSnapshot hv hx => exact ⟨syncing.trans hs, lastSnapshot ▸ hw, hlater⟩
  | captures hm hw' he hx htold => rw [he]; exact ⟨hs, hl _ (.head _), hlater⟩
  | settles hs' he hx => cases hs.symm.trans hs'

theorem deeds_prune : (e.prune h).deeds = [] := by
  refine List.filter_eq_nil_iff.mpr fun x hx => ?_
  obtain ⟨w, rfl⟩ := kept_prune.2 x hx
  exact Bool.false_ne_true

/-- Once what has to be pruned has grown, it does not matter whether the log was pruned before. -/
theorem trimmed_relog {log : OperationsLog} {w : Position} (hlog : e.log = log) (hp : e.pruned < w)
    (hw : w ≤ e.lastSnapshot) : (e.relog (log.prune w) w).trimmed = e.trimmed := by
  subst hlog
  rw [trimmed_of_lt (Nat.lt_of_lt_of_le hp hw)]
  rcases Nat.eq_or_lt_of_le hw with heq | hlt
  · rw [trimmed_of_le (Nat.le_of_eq heq.symm), heq]
  · rw [trimmed_of_lt (e := e.relog (e.log.prune w) w) hlt]
    show e.relog ((e.log.prune w).prune e.lastSnapshot) e.lastSnapshot = _
    rw [prune_prune hw]

/-! ### One batch or many -/

/-- What a feeding comes to, told from a step that does all at once and does not prune. -/
structure Settled (h : Host) (t s : Step) : Prop where
  fault : s.fault? = none ↔ t.fault? = none ∧ (t.engine.lastSnapshot ≤ t.engine.pruned ∨ h.logOpen = true)
  ends : s.fault? = none → s.engine = t.engine.trimmed ∧ s.deeds = t.deeds

theorem Settled.prepend {a b s t : Step} (hs : Settled h t s) (hd : a.deeds = b.deeds) :
    Settled h { t with effects := b.effects ++ t.effects } { s with effects := a.effects ++ s.effects } := by
  refine ⟨hs.fault, fun hf => ⟨(hs.ends hf).1, ?_⟩⟩
  show (a.effects ++ s.effects).filter _ = (b.effects ++ t.effects).filter _
  rw [List.filter_append, List.filter_append]
  exact congrArg₂ (· ++ ·) hd (hs.ends hf).2

/-- It does not matter for the end whether the log was pruned in the beginning. -/
theorem Settled.of_relog {s t : Step} {log : OperationsLog} {w : Position} (hs : Settled h (t.relog (log.prune w) w) s)
    (ho : h.logOpen = true)
    (ht : t.fault? = none → t.engine.log = log ∧ t.engine.pruned < w ∧ w ≤ t.engine.lastSnapshot) : Settled h t s := by
  refine ⟨hs.fault.trans (and_congr_right fun _ => by simp [ho]), fun hf => ?_⟩
  obtain ⟨hlog, hp, hw⟩ := ht (hs.fault.mp hf).1
  exact ⟨(hs.ends hf).1.trans (trimmed_relog hlog hp hw), (hs.ends hf).2⟩

/-- What has to be pruned between batches may be pruned in the end. -/
theorem settled_of_trimmed {ds : List Decision} {s : Step} (hlog : e.log = after calls)
    (hl : Lags (released calls ds) e) (hp : (e.prune h).fault? = none)
    (hs : ∀ calls, Ready calls e.trimmed → Lags (released calls ds) e.trimmed →
      Settled h (applyAll h (released calls ds)
        (e.trimmed.relog (after (calls ++ insertions ds)) e.trimmed.pruned)) s) :
    Settled h (applyAll h (released calls ds) (e.relog (after (calls ++ insertions ds)) e.pruned)) s := by
  rcases Nat.lt_or_ge e.pruned e.lastSnapshot with hlt | hle
  · obtain ⟨hsync, hlater⟩ := hl.last.resolve_left (Nat.not_le.mpr hlt)
    obtain ⟨hreleased, hafter⟩ := insertions_prune hlater
    have hready := ready_trimmed_of_lt hlog hl.syncing hlt
    have htrimmed := trimmed_of_lt hlt
    have hsettled := hs _ hready (by
      rw [hreleased, htrimmed]
      exact ⟨hl.syncing, .inl (Nat.le_refl _), hl.marker, hl.ordered⟩)
    rw [hreleased, hafter, htrimmed] at hsettled
    let e' := e.relog (after (calls ++ insertions ds)) e.pruned
    have hrelog : applyAll h (released calls ds)
        (e'.relog ((after (calls ++ insertions ds)).prune e.lastSnapshot) e.lastSnapshot) =
        (applyAll h (released calls ds) e').relog ((after (calls ++ insertions ds)).prune e.lastSnapshot) e.lastSnapshot :=
      relog_applyAll fun sync hs => by cases hsync.symm.trans hs
    obtain ⟨hlog', hpruned'⟩ := applyAll_log (h := h) (e := e') (released calls ds)
    refine Settled.of_relog (hrelog ▸ hsettled)
      ((fault?_prune_eq_none_iff.mp hp).resolve_left (Nat.not_le.mpr hlt)) fun hf => ⟨hlog', ?_, ?_⟩
    · rw [hpruned']
      exact hlt
    · exact le_lastSnapshot_applyAll (e := e.relog _ e.pruned) hsync (Nat.le_refl _)
        (fun x hx => Nat.le_of_lt (hlater x hx)) hf
  · have htrimmed := trimmed_of_le hle
    rw [htrimmed] at hs
    exact hs calls ⟨hlog, hle, hl.syncing⟩ hl

/-- The first batch does not see what the later ones add to the log. -/
theorem applyAll_relog_insertions {ds later : List Decision} {front back : List (Position × Value)}
    (hordered : (front ++ back).Pairwise fun a b => a.1 < b.1) (hback : back = released (calls ++ insertions ds) later) :
    applyAll h front (e.relog (after (calls ++ insertions ds ++ insertions later)) e.pruned) =
      (applyAll h front (e.relog (after (calls ++ insertions ds)) e.pruned)).relog
        (after (calls ++ insertions ds ++ insertions later)) e.pruned := by
  refine relog_applyAll (e := e.relog (after (calls ++ insertions ds)) e.pruned) ?_
  intro sync _ x hx
  have hentries := entries_insertions (calls ++ insertions ds) later
  rw [← hback] at hentries
  refine takeWhile_operationsAfter hentries ?_ sync.snapshot
  intro y hy
  exact Nat.le_of_lt ((List.pairwise_append.mp hordered).2.2 x hx y hy)

/-- When the log takes no commands and there is something to prune, there still is when more values are applied. -/
theorem exceeds_pruned {log : OperationsLog} {later : List (Position × Value)} (hl : Lags later e)
    (hp : e.pruned < e.lastSnapshot) (hf : (applyAll h later (e.relog log e.pruned)).fault? = none) :
    (applyAll h later (e.relog log e.pruned)).engine.pruned <
      (applyAll h later (e.relog log e.pruned)).engine.lastSnapshot := by
  obtain ⟨hsync, hlater⟩ := hl.last.resolve_left (Nat.not_le.mpr hp)
  obtain ⟨-, hpruned⟩ := applyAll_log (h := h) (e := e.relog log e.pruned) later
  have hle : ∀ x ∈ later, e.lastSnapshot ≤ x.1 := fun x hx => Nat.le_of_lt (hlater x hx)
  have hgrows := le_lastSnapshot_applyAll (e := e.relog log e.pruned) hsync (Nat.le_refl _) hle hf
  rw [hpruned]
  exact Nat.lt_of_lt_of_le hp hgrows

theorem settled_feed_cons {ds : List Decision} {rest : List (List Decision)} (hr : e.Ready calls)
    (hl : Lags (released calls (ds ++ rest.flatten)) e)
    (hrest : ∀ {calls : List Call} {e : Engine}, e.Ready calls → Lags (released calls rest.flatten) e →
      Settled h (applyAll h (released calls rest.flatten)
        (e.relog (after (calls ++ insertions rest.flatten)) e.pruned)) (e.feed h rest)) :
    Settled h (applyAll h (released calls (ds ++ rest.flatten))
      (e.relog (after (calls ++ insertions (ds ++ rest.flatten))) e.pruned)) (e.feed h (ds :: rest)) := by
  have hcalls : calls ++ insertions (ds ++ rest.flatten) = calls ++ insertions ds ++ insertions rest.flatten := by
    simp [insertions]
  rw [released_append] at hl ⊢
  rw [hcalls]
  obtain ⟨hfault, -, heq⟩ := forEach_decide_eq (h := h) hr.log ds
  have hfirst := applyAll_relog_insertions (h := h) (e := e) hl.ordered rfl
  generalize hfinal : after (calls ++ insertions ds ++ insertions rest.flatten) = final at hfirst ⊢
  generalize ht : applyAll h (released calls ds) (e.relog (after (calls ++ insertions ds)) e.pruned) = t
    at hfault heq hfirst
  rw [applyAll, Step.forEach_append]
  show Settled h ((applyAll h _ _).andThen (applyAll h _)) (((Step.forEach (decide h) ds e).andThen (prune h)).andThen _)
  rw [hfirst]
  -- The first batch is applied and trimmed alike on both sides; if that ends either side, it ends both.
  by_cases hok : t.fault? = none
  · obtain ⟨hlog, hpruned⟩ : t.engine.log = after (calls ++ insertions ds) ∧ t.engine.pruned = e.pruned :=
      ht ▸ applyAll_log _
    have hlag : Lags (released (calls ++ insertions ds) rest.flatten) t.engine := by
      rw [← ht] at hok ⊢
      exact Lags.applyAll (e := e.relog _ e.pruned) ⟨hl.syncing, hl.last, hl.marker, hl.ordered⟩ hok
    rw [heq (hfault.trans hok), Step.andThen_of_none (s := t.relog final e.pruned) hok, ← hpruned]
    by_cases hp : (t.engine.prune h).fault? = none
    · rw [Step.andThen_of_none (Step.fault?_andThen_eq_none_iff.mpr ⟨hok, hp⟩), Step.andThen_of_none hok]
      dsimp only
      rw [engine_prune hp]
      refine Settled.prepend (a := { t with effects := t.effects ++ (t.engine.prune h).effects }) (b := t) ?_ ?_
      · rw [← hfinal]
        exact settled_of_trimmed hlog hlag hp fun calls hr hl => hrest hr hl
      · show (t.effects ++ _).filter _ = _
        rw [List.filter_append]
        exact (congrArg (_ ++ ·) deeds_prune).trans (List.append_nil _)
    · have hstop : (t.andThen (prune h)).fault? ≠ none := fun hf => hp (Step.fault?_andThen_eq_none_iff.mp hf).2
      rw [Step.andThen_of_fault hstop]
      refine ⟨iff_of_false hstop ?_, fun hf => absurd hf hstop⟩
      rintro ⟨hf, hle | hopen⟩ <;> rw [fault?_prune_eq_none_iff, not_or, Nat.not_le] at hp
      · exact Nat.not_lt.mpr hle (exceeds_pruned hlag hp.1 hf)
      · exact hp.2 hopen
  · have hstop : ((Step.forEach (decide h) ds e).andThen (prune h)).fault? ≠ none := fun hf =>
      hok (hfault ▸ (Step.fault?_andThen_eq_none_iff.mp hf).1)
    rw [Step.andThen_of_fault hstop, Step.andThen_of_fault (s := t.relog final e.pruned) hok]
    exact ⟨iff_of_false hstop fun hall => hok hall.1, fun hf => absurd hf hstop⟩

/-- However decisions are batched, they lead to what is released applied at one go. -/
theorem settled_feed (hr : e.Ready calls) {batches : List (List Decision)}
    (hl : Lags (released calls batches.flatten) e) :
    Settled h (applyAll h (released calls batches.flatten)
      (e.relog (after (calls ++ insertions batches.flatten)) e.pruned)) (e.feed h batches) := by
  induction batches generalizing e calls with
  | nil =>
    have hnil : e.relog (after (calls ++ insertions [])) e.pruned = e := by
      rw [insertions, List.map_nil, List.append_nil, ← hr.log]
      rfl
    show Settled h { engine := _ } { engine := e }
    rw [List.flatten_nil, hnil]
    exact ⟨by simp [hr.pruned], fun _ => ⟨(trimmed_of_le hr.pruned).symm, rfl⟩⟩
  | cons ds rest ih => exact settled_feed_cons hr hl ih

/-! ### Any two feedings -/

/-- Let an engine be told anything so far, without a failure, and let two feedings consist of the same decisions, one
    value for each position, in any order, any batches and with any repetitions; if the engine has applied nothing
    yet, let them begin with the same position. If the marker that the engine waits for is decided behind the snapshot
    of its transfer, whether it is among the decisions or waits in the log already, and the one feeding does not fail,
    then the other one does not fail either, both end with the same engine, and both do the same but for pruning. -/
theorem feedings_agree {start : Engine} (hs : start.Starts) {told : List (Host × Event)}
    (hreached : (start.course told).fault? = none) (batches batches' : List (List Decision))
    (hmem : ∀ d, d ∈ batches.flatten ↔ d ∈ batches'.flatten)
    (hvalue : ∀ d ∈ batches.flatten, ∀ d' ∈ batches.flatten, d.position = d'.position → d = d')
    (hfirst : (start.course told).engine.log.applied? = none →
      batches.flatten.head?.map (·.position) = batches'.flatten.head?.map (·.position))
    (hmarker : ∀ sync p, (start.course told).engine.syncing? = some sync →
      ⟨p, .syncedUp sync.marker⟩ ∈ batches.flatten ∨
        (start.course told).engine.log.pending.get? p = some (.syncedUp sync.marker) → sync.snapshot < p)
    (hok : ((start.course told).engine.feed h batches).fault? = none) :
    let s := (start.course told).engine.feed h batches
    let s' := (start.course told).engine.feed h batches'
    s'.fault? = none ∧ s'.engine = s.engine ∧ s'.deeds = s.deeds ∧
      s'.effects.filterMap Effect.request? = s.effects.filterMap Effect.request? ∧
      s'.effects.filterMap Effect.upcall? = s.effects.filterMap Effect.upcall? ∧
      s'.effects.filterMap Effect.outbound? = s.effects.filterMap Effect.outbound? := by
  obtain ⟨calls, hr⟩ := hs.ready.course hreached
  generalize (start.course told).engine = e at hfirst hmarker hok hr ⊢
  have hstart : start? calls = none → e.log.applied? = none := fun hnone => by
    rw [hr.log]
    rcases shows_or_untouched calls with hu | ⟨f, n, hshows⟩
    · exact hu.applied
    · cases hnone.symm.trans hshows.start
  obtain ⟨hreleased, hafter⟩ := insertions_congr hmem hvalue fun hnone => hfirst (hstart hnone)
  have hlags : Lags (released calls batches.flatten) e := by
    refine ⟨hr.syncing, .inl hr.pruned, fun sync hsync y hy hv => ?_, released_ordered ..⟩
    rcases mem_released hy with hwaits | ⟨d, hd, hp, hdv⟩
    · exact hmarker sync y.1 hsync (.inr (by rw [hr.log, ← hv]; exact hwaits))
    · refine hmarker sync y.1 hsync (.inl ?_)
      rw [← hv, ← hdv, ← hp]
      exact hd
  have hfed := settled_feed (h := h) hr hlags
  have hfed' := settled_feed (h := h) hr (hreleased ▸ hlags)
  rw [← hreleased, ← hafter] at hfed'
  have hok' := hfed'.fault.mpr (hfed.fault.mp hok)
  have hdeeds : (e.feed h batches').deeds = (e.feed h batches).deeds :=
    (hfed'.ends hok').2.trans (hfed.ends hok).2.symm
  have hread : ∀ {β : Type} {f : Effect → Option β}, (∀ w, f (.prune w) = none) →
      (e.feed h batches').effects.filterMap f = (e.feed h batches).effects.filterMap f := fun hf => by
    rw [← Step.filterMap_deeds hf, ← Step.filterMap_deeds hf, hdeeds]
  exact ⟨hok', (hfed'.ends hok').1.trans (hfed.ends hok).1.symm, hdeeds, hread fun _ => rfl, hread fun _ => rfl,
    hread fun _ => rfl⟩

/-- The marker, a put that the replica has missed and one that comes behind. -/
theorem feedings_of_marker_agree :
    let e := (({} : Engine).course (receivedUpTo 1)).engine
    let one := e.feed openHost [[onePut 2, ⟨3, .syncedUp ⟨1⟩⟩, onePut 4]]
    let other := e.feed openHost [[onePut 4], [onePut 2, onePut 2], [onePut 4, ⟨3, .syncedUp ⟨1⟩⟩]]
    other.fault? = none ∧ other.engine = one.engine ∧ other.deeds = one.deeds ∧ one.engine.pruned = 4 ∧
      one.effects.filterMap Effect.request? =
        [.snapshot 3 [.put ⟨[2]⟩ [1] 1], .cleanup .full 1, .put ⟨[4]⟩ [1] 1] := by
  have hreached : (({} : Engine).course (receivedUpTo 1)).fault? = none := rfl
  have hagree := feedings_agree (h := openHost) .joining hreached [[onePut 2, ⟨3, .syncedUp ⟨1⟩⟩, onePut 4]]
    [[onePut 4], [onePut 2, onePut 2], [onePut 4, ⟨3, .syncedUp ⟨1⟩⟩]] (by simp; grind) (by simp [onePut]) nofun
    (fun sync p hs hp => ?_) rfl
  · exact ⟨hagree.1, hagree.2.1, hagree.2.2.1, rfl, rfl⟩
  · cases hs
    rcases hp with hp | hp
    · simp only [onePut, List.flatten_cons, List.flatten_nil, List.append_nil, List.mem_cons, List.not_mem_nil, or_false,
        Decision.mk.injEq, reduceCtorEq, and_false, false_or] at hp
      rw [hp.1]
      decide
    · cases hp

/-- Neither condition can be left out. The marker may wait in the log already, so that no decision brings it: when its
    snapshot lies behind it, the log is pruned to the snapshot by one feeding and not by the other. And when the log
    takes no commands any more, no value fails to be applied, but the first prune ends one feeding early. -/
theorem feedings_disagree :
    (let reached := ({} : Engine).course (receivedUpTo 100 ++ [(openHost, .decide [⟨3, .syncedUp ⟨1⟩⟩])])
      let one := reached.engine.feed openHost [[⟨2, .noop ⟨2⟩⟩, onePut 4]]
      let other := reached.engine.feed openHost [[⟨2, .noop ⟨2⟩⟩], [onePut 4]]
      reached.fault? = none ∧ reached.engine.log.applied? = some 1 ∧
        reached.engine.syncing?.map (·.marker) = some ⟨1⟩ ∧ one.fault? = none ∧ other.fault? = none ∧
        one.engine.pruned = 4 ∧ other.engine.pruned = 100) ∧
    let serving := (bootstrap openHost ⟨⟨1, .ofList [.name "b"]⟩, 1, .full⟩ {}).engine
    let closed := { openHost with logOpen := false }
    let one := serving.feed closed [[onePut 1, onePut 2]]
    let other := serving.feed closed [[onePut 1], [onePut 2]]
    (Step.forEach (decide closed) [onePut 1, onePut 2] serving).fault? = none ∧
      one.engine.lastSnapshot = 2 ∧ other.engine.lastSnapshot = 1 := by
  refine ⟨⟨rfl, rfl, rfl, rfl, rfl, rfl, rfl⟩, rfl, rfl, rfl⟩

end Engine
end ReplicaGroup
