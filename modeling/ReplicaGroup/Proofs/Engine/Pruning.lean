import ReplicaGroup.Proofs.Engine.Covering

/-! # What may be pruned

A replica tells the log that it needs nothing up to a position any more. By then every write up to there has been
handed to storage, be it when it was applied or inside of the replay, or was part of the state that the replica has
received. -/

namespace ReplicaGroup

/-! ### Watermarks -/

namespace Engine
variable {e : Engine} {h : Host} {p : Position} {v : Value}

theorem silent_forEach_decide (ds : List Decision) :
    (Step.forEach (decide h) ds e).All (fun e' => e'.pruned = e.pruned) fun x => x.watermark? = none := by
  refine Step.All.forEach rfl fun d _ e' he => ?_
  exact Step.All.forEach (I := fun e'' => e''.pruned = e.pruned) he fun x _ e'' he' =>
    ⟨(apply_pruned x.2).trans he', (quiet_apply x.2).2⟩

/-- The watermarks among effects. -/
def watermarks (done : List Effect) : List Position := done.filterMap Effect.watermark?

theorem watermarks_eq_nil {done : List Effect} (hx : ∀ x ∈ done, x.watermark? = none) : watermarks done = [] :=
  List.filterMap_eq_nil_iff.mpr hx

/-- How the watermarks of a step follow on the last one that was sent before. -/
structure Rises (e : Engine) (s : Step) : Prop where
  ordered : (watermarks s.effects).Pairwise (· < ·)
  above : ∀ w ∈ watermarks s.effects, e.pruned < w ∧ w ≤ s.engine.pruned
  last : e.pruned ≤ s.engine.pruned

theorem Rises.andThen {s : Step} {f : Engine → Step} (hs : e.Rises s) (hf : s.engine.Rises (f s.engine)) :
    e.Rises (s.andThen f) := by
  by_cases hok : s.fault? = none
  · rw [Step.andThen_of_none hok]
    have hall : watermarks (s.effects ++ (f s.engine).effects) = watermarks s.effects ++ watermarks (f s.engine).effects :=
      List.filterMap_append
    refine ⟨?_, fun w hw => ?_, Nat.le_trans hs.last hf.last⟩
    · rw [hall]
      exact List.pairwise_append.mpr ⟨hs.ordered, hf.ordered, fun a ha b hb =>
        Nat.lt_of_le_of_lt (hs.above a ha).2 (hf.above b hb).1⟩
    · rcases List.mem_append.mp (hall ▸ hw) with hw | hw
      · exact ⟨(hs.above w hw).1, Nat.le_trans (hs.above w hw).2 hf.last⟩
      · exact ⟨Nat.lt_of_le_of_lt hs.last (hf.above w hw).1, (hf.above w hw).2⟩
  · rw [Step.andThen_of_fault hok]
    exact hs

theorem rises_of_silent {s : Step} (hs : s.All (fun e' => e'.pruned = e.pruned) fun x => x.watermark? = none) :
    e.Rises s := by
  have hnil := watermarks_eq_nil hs.2
  refine ⟨hnil ▸ .nil, fun w hw => ?_, Nat.le_of_eq hs.1.symm⟩
  rw [hnil] at hw
  cases hw

theorem rises_prune : e.Rises (e.prune h) := by
  rcases Nat.lt_or_ge e.pruned e.lastSnapshot with hlt | hle
  · rw [prune_of_lt hlt, trimmed_of_lt hlt]
    unfold emit
    split
    · refine ⟨List.pairwise_singleton _ _, fun w hw => ?_, Nat.le_of_lt hlt⟩
      rw [List.mem_singleton.mp hw]
      exact ⟨hlt, Nat.le_refl _⟩
    · exact ⟨.nil, fun w hw => absurd hw List.not_mem_nil, Nat.le_of_lt hlt⟩
  · rw [prune_of_le hle]
    exact rises_of_silent (all_done rfl)

/-- Whatever happens, watermarks rise. -/
theorem rises_handle (event : Event) : e.Rises (e.handle h event) := by
  rcases event_cases event with ⟨ds, rfl⟩ | ⟨q, rfl⟩ | ⟨hd, hs⟩
  · exact Rises.andThen (s := Step.forEach (decide h) ds e) (rises_of_silent (silent_forEach_decide ds)) rises_prune
  · rw [handle_snapshot]
    obtain ⟨hordered, habove, hlast⟩ := rises_prune (e := { e with lastSnapshot := max e.lastSnapshot q }) (h := h)
    exact ⟨hordered, habove, hlast⟩
  · obtain ⟨hcalm, hx⟩ := calm_handle (h := h) (e := e) hd hs
    exact rises_of_silent ⟨hcalm.pruned, hx⟩

theorem rises_course (told : List (Host × Event)) : e.Rises (e.course told) := by
  induction told generalizing e with
  | nil => exact rises_of_silent (all_done rfl)
  | cons t told ih => exact (rises_handle t.2).andThen ih

/-! ### The course -/

section Stage
open OperationsLog
variable {D : Decided} {Known : Syncing → Prop} {founder : Bool} {calls calls' : List Call} {ds : List Decision}
  {done : List Effect}

/-- What is known of an engine that has applied all that its log has released. -/
structure Stage (D : Decided) (Known : Syncing → Prop) (founder : Bool) (calls : List Call) (done : List Effect)
    (e : Engine) : Prop where
  untouched : start? calls = none → ∀ first, Tracks D Known founder first first first done e
  shows : ∀ first n, Shows calls first n → Tracks D Known founder first (n + 1) (n + 1) done e

theorem Stage.map {next : List Effect} {e' : Engine} {Known' : Syncing → Prop} (hs : Stage D Known founder calls done e)
    (ht : ∀ {first p stop : Nat}, Tracks D Known founder first p stop done e →
      Tracks D Known' founder first p stop next e') : Stage D Known' founder calls next e' :=
  ⟨fun hnone first => ht (hs.untouched hnone first), fun first n hshows => ht (hs.shows first n hshows)⟩

theorem Stage.congr (hs : Stage D Known founder calls done e) (hstart : start? calls' = start? calls)
    (hearliest : earliest? calls' = earliest? calls) : Stage D Known founder calls' done e := by
  refine ⟨fun hnone => hs.untouched (hstart ▸ hnone), fun first n hshows => ?_⟩
  rcases shows_or_untouched calls with hu | ⟨first', n', hshows'⟩
  · cases (hstart.trans hu.start).symm.trans hshows.start
  · obtain ⟨rfl, rfl⟩ := hshows.agree hshows' hstart hearliest
    exact hs.shows first n hshows'

/-- After a batch, everything is applied again that the log has released. -/
theorem Stage.applyAll (hs : Stage D Known founder calls done e) (hlog : e.log = after calls)
    (hd : AreDecided D (calls ++ insertions ds))
    (hknown : ∀ sync, Known sync → ∀ m, D m = .syncedUp sync.marker → sync.snapshot < m) :
    let t := Engine.applyAll h (released calls ds) (e.relog (after (calls ++ insertions ds)) e.pruned)
    t.fault? = none → Stage D Known founder (calls ++ insertions ds) (done ++ t.effects) t.engine := by
  intro t hf
  have hentries := entries_insertions calls ds
  rw [← hlog] at hentries
  have hbatch : ∀ {first p stop : Nat}, Tracks D Known founder first p p done e →
      released calls ds = D.segment p (stop - p) → first ≤ p → p ≤ stop →
      Tracks D Known founder first stop stop (done ++ t.effects) t.engine := by
    intro first p stop ht hreleased hfirst hstop
    have ht' := ht.relog e.pruned (hreleased ▸ hentries) hfirst hstop
    rw [show t = Engine.applyAll h (released calls ds) _ from rfl, hreleased] at hf ⊢
    exact ht'.applyAll hfirst hstop hknown hf
  rcases shows_or_untouched calls with hu | ⟨first, n, hshows⟩
  · rcases shows_or_untouched (calls ++ insertions ds) with hu' | ⟨first', n', hshows'⟩
    · refine ⟨fun _ first => ?_, fun first n hshows => ?_⟩
      · refine hbatch (hs.untouched hu.start first) ?_ (Nat.le_refl _) (Nat.le_refl _)
        have hall := flatten_releases_insertions calls ds
        rw [hu'.nothing] at hall
        rw [Nat.sub_self]
        exact (List.append_eq_nil_iff.mp hall.symm).2
      · cases hu'.start.symm.trans hshows.start
    · refine ⟨fun hnone => ?_, fun first n hshows => ?_⟩
      · cases hnone.symm.trans hshows'.start
      · obtain ⟨rfl, rfl⟩ := hshows.agree hshows' rfl rfl
        exact hbatch (hs.untouched hu.start first) (hu.released_eq hshows hd) (Nat.le_refl _)
          (Nat.le_succ_of_le hshows.first)
  · refine ⟨fun hnone => ?_, fun first' n' hshows' => ?_⟩
    · cases (start?_append_of_some hshows.start).symm.trans hnone
    · obtain ⟨rfl, hn, hreleased⟩ := hshows.released_eq hshows' hd
      refine hbatch (hs.shows _ n hshows) ?_ (Nat.le_succ_of_le hshows.first) (Nat.succ_le_succ hn)
      rw [hreleased, Nat.succ_sub_succ]

/-- What is known when there is something to prune. -/
theorem Stage.of_lastSnapshot (hs : Stage D Known founder calls done e) (hlog : e.log = after calls)
    (hpos : 0 < e.lastSnapshot) : ∃ first n sync?, start? calls = some first ∧ e.log.applied? = some n ∧
      e.lastSnapshot ≤ n ∧ Came D Known founder done sync? ∧
      Covers D first (n + 1 - first) (sync?.map (·.snapshot)) done := by
  rcases shows_or_untouched calls with hu | ⟨first, n, hshows⟩
  · -- Nothing can be captured or replayed before anything is delivered.
    cases hs.untouched hu.start 0 with
    | waits mode syncing lastSnapshot => exact absurd lastSnapshot (Nat.ne_of_gt hpos)
    | serves mode settled lastSnapshot =>
      exact absurd (lastSnapshot.resolve_left (Nat.not_lt_zero _)) (Nat.ne_of_gt hpos)
  · cases hs.shows first n hshows with
    | waits mode syncing lastSnapshot => exact absurd lastSnapshot (Nat.ne_of_gt hpos)
    | serves mode settled lastSnapshot replayed sync? came covers =>
      refine ⟨first, n, sync?, hshows.start, hlog ▸ hshows.waits.applied, ?_, came, covers⟩
      exact Nat.le_of_lt_succ (lastSnapshot.resolve_right (Nat.ne_of_gt hpos))

end Stage

/-! ### Events -/

/-- Whether an engine that was told some events has waited for the marker of a transfer that it was told to have
    completed. -/
def Awaited (start : Engine) (told : List (Host × Event)) (sync : Syncing) : Prop :=
  ∃ front back host c, told = front ++ back ∧ (start.course front).fault? = none ∧
    (start.course front).engine.syncing? = some sync ∧ (host, .completed c) ∈ front ∧ c.role = .receive ∧
    c.outcome = .ok ⟨some sync.snapshot, some sync.version⟩

section Course
open OperationsLog
variable {D : Decided} {start : Engine} {told : List (Host × Event)} {event : Event} {calls : List Call} {s : Step}

theorem Awaited.append {sync : Syncing} (ha : Awaited start told sync) (next : List (Host × Event)) :
    Awaited start (told ++ next) sync := by
  obtain ⟨front, back, host, c, rfl, hfront⟩ := ha
  exact ⟨front, back ++ next, host, c, List.append_assoc .., hfront⟩

theorem course_concat (start : Engine) (told : List (Host × Event)) (t : Host × Event) :
    start.course (told ++ [t]) = (start.course told).andThen (handle t.1 t.2) := by
  rw [course, Step.forEach_append]
  exact Step.andThen_congr fun _ => Step.andThen_done

theorem delivered_decide (told : List (Host × Event)) (h : Host) (ds : List Decision) :
    delivered (told ++ [(h, .decide ds)]) = delivered told ++ ds := by
  rw [delivered, List.flatMap_append]
  exact congrArg (delivered told ++ ·) (List.append_nil ds)

theorem delivered_other (told : List (Host × Event)) (h : Host) (hd : ∀ ds, event ≠ .decide ds) :
    delivered (told ++ [(h, event)]) = delivered told := by
  rw [delivered, List.flatMap_append]
  cases event with
  | decide ds => exact absurd rfl (hd ds)
  | submit | changeView | measure | stored | message | completed | stopped | stop => exact List.append_nil _

theorem deliveredAt?_other (told : List (Host × Event)) (h : Host) (hd : ∀ ds, event ≠ .decide ds) :
    deliveredAt? (told ++ [(h, event)]) = deliveredAt? told := by
  funext p
  rw [deliveredAt?, delivered_other told h hd, deliveredAt?]

/-- A later delivery does not replace a value. -/
theorem deliveredAt?_append_of_some {p : Position} {v : Value} (hv : deliveredAt? told p = some v)
    (next : List (Host × Event)) : deliveredAt? (told ++ next) p = some v := by
  rw [deliveredAt?, delivered, List.flatMap_append, List.find?_append, Option.map_or]
  exact congrArg (Option.or · _) hv

/-- What is known between the end of an event and the prune that may follow on it. -/
structure Poised (D : Decided) (start : Engine) (told : List (Host × Event)) (calls : List Call) (done : List Effect)
    (e : Engine) : Prop where
  log : e.log = after calls
  syncing : e.syncing?.isSome → e.mode = .catchingUp
  earliest : earliest? calls = deliveredAt? told
  first : start? calls = (delivered told).head?.map (·.position)
  awaited : ∀ sync, e.syncing? = some sync → Awaited start told sync
  stage : Stage D (Awaited start told) start.mode.isServing calls done e

/-- What is known between two events. -/
def Tracked (D : Decided) (start : Engine) (told : List (Host × Event)) (s : Step) : Prop :=
  s.engine.lastSnapshot ≤ s.engine.pruned ∧ ∃ calls, Poised D start told calls s.effects s.engine

theorem Poised.trimmed {done : List Effect} (hp : Poised D start told calls done e) :
    Tracked D start told { engine := e.trimmed, effects := done ++ (e.prune h).effects } := by
  obtain ⟨calls', hready, hstart, hearliest⟩ := exists_ready_trimmed hp.log hp.syncing
  refine ⟨hready.pruned, calls', hready.log, hready.syncing, hearliest.trans hp.earliest, hstart.trans hp.first,
    fun sync hs => hp.awaited sync ?_, (hp.stage.map fun ht => ?_).congr hstart hearliest⟩
  · unfold Engine.trimmed at hs
    split at hs <;> exact hs
  · refine ht.trimmed.quiet fun x hx => ?_
    obtain ⟨w, rfl⟩ := kept_prune.2 x hx
    rfl

theorem Starts.poised (hs : start.Starts) : Poised D start [] [] [] start := by
  have hr := hs.ready
  have hsettled : start.syncing? = none ∧ start.lastSnapshot = 0 := by
    cases hs with
    | joining => exact ⟨rfl, rfl⟩
    | serving host change =>
      show (emit host.upcallOpen _ _).engine.syncing? = none ∧ (emit host.upcallOpen _ _).engine.lastSnapshot = 0
      cases host.upcallOpen <;> exact ⟨rfl, rfl⟩
  refine ⟨hr.log, hr.syncing, rfl, rfl, fun sync hsync => ?_, fun _ first => ?_, fun first n hshows => ?_⟩
  · cases hsettled.1.symm.trans hsync
  · cases hm : start.mode.isServing with
    | false =>
      refine .waits hm hr.syncing hsettled.2 (fun sync hsync => ?_) ?_ fun x hx => absurd hx List.not_mem_nil
      · cases hsettled.1.symm.trans hsync
      · rw [hr.log, Nat.sub_self]
        rfl
    | true =>
      refine .serves hm hsettled.1 (.inr hsettled.2) (fun q requests hx => absurd hx List.not_mem_nil) none rfl ?_
      rw [Nat.sub_self]
      exact Covers.zero
  · cases hshows.start

section Events
variable {done : List Effect}

theorem Poised.decide (hp : Poised D start told calls done e) {ds : List Decision}
    (hd : ∀ p v, deliveredAt? (told ++ [(h, .decide ds)]) p = some v → v = D p)
    (hknown : ∀ sync, Awaited start told sync → ∀ m, D m = .syncedUp sync.marker → sync.snapshot < m)
    (hf : (Step.forEach (Engine.decide h) ds e).fault? = none) :
    let t := Step.forEach (Engine.decide h) ds e
    Poised D start (told ++ [(h, .decide ds)]) (calls ++ insertions ds) (done ++ t.effects) t.engine := by
  obtain ⟨hfault, -, heq⟩ := forEach_decide_eq (h := h) hp.log ds
  have hearliest : earliest? (calls ++ insertions ds) = deliveredAt? (told ++ [(h, .decide ds)]) := by
    funext p
    rw [earliest?_insertions, hp.earliest, deliveredAt?, deliveredAt?, delivered_decide, List.find?_append, Option.map_or]
  rw [heq hf]
  rw [hfault] at hf
  refine ⟨(applyAll_log _).1, ?_, hearliest, ?_, fun sync hs => ?_, ?_⟩
  · exact applyAll_syncing hf hp.syncing
  · rw [start?_insertions, hp.first, delivered_decide, List.head?_append]
    cases (delivered told).head? <;> rfl
  · refine (hp.awaited sync ?_).append _
    rcases applyAll_syncing? (h := h) (e := e.relog (after (calls ++ insertions ds)) e.pruned) (released calls ds)
      with heq | heq
    · exact heq ▸ hs
    · cases heq.symm.trans hs
  · have hstage := hp.stage.applyAll hp.log (fun p v hv => hd p v (hearliest ▸ hv)) hknown hf
    exact hstage.map fun ht => ht.mono fun sync hk => hk.append _

theorem Poised.snapshot (hp : Poised D start told calls done e) {q : Position} {requests : List Request}
    (hq : .request (.snapshot q requests) ∈ done) :
    Poised D start (told ++ [(h, .stored (.snapshot q))]) calls done
      { e with lastSnapshot := max e.lastSnapshot q } where
  log := hp.log
  syncing := hp.syncing
  earliest := by rw [deliveredAt?_other _ _ fun ds heq => by cases heq]; exact hp.earliest
  first := by rw [delivered_other _ _ fun ds heq => by cases heq]; exact hp.first
  awaited sync hs := (hp.awaited sync hs).append _
  stage := hp.stage.map fun ht => (ht.snapshot hq).mono fun sync hk => hk.append _

theorem Poised.calm (hp : Poised D start told calls done e) (hd : ∀ ds, event ≠ .decide ds)
    (hs : ∀ q, event ≠ .stored (.snapshot q)) (hf : (start.course (told ++ [(h, event)])).fault? = none)
    (he : (start.course (told ++ [(h, event)])).engine = (e.handle h event).engine) :
    Poised D start (told ++ [(h, event)]) calls (done ++ (e.handle h event).effects) (e.handle h event).engine := by
  obtain ⟨hcalm, -⟩ := calm_handle (h := h) (e := e) hd hs
  have hkept := (obeys_handle (h := h) (e := e) hd).1
  have hidle := (idle_handle (h := h) (e := e) hd).2
  have hawaited : ∀ sync, (e.handle h event).engine.syncing? = some sync →
      Awaited start (told ++ [(h, event)]) sync := fun sync hsync => by
    rcases hcalm.syncing with heq | ⟨c, sync', rfl, hrole, houtcome, heq⟩
    · exact (hp.awaited sync (heq ▸ hsync)).append _
    · obtain rfl := Option.some.inj (heq.symm.trans hsync)
      exact ⟨told ++ [(h, .completed c)], [], h, c, (List.append_nil _).symm, hf, he ▸ heq,
        List.mem_append_right _ (.head _), hrole, houtcome⟩
  refine ⟨hcalm.log.trans hp.log, fun hsome => ?_, hp.earliest.trans (deliveredAt?_other _ _ hd).symm,
    by rw [delivered_other _ _ hd]; exact hp.first, hawaited, hp.stage.map fun ht => ?_⟩
  · by_cases hm : e.mode = .catchingUp
    · exact hkept.catchingUp_iff.mpr hm
    · exact hkept.catchingUp_iff.mpr (hp.syncing (hkept.syncing hm ▸ hsome))
  · refine ((ht.mono fun sync hk => hk.append _).calm hcalm hkept hawaited).quiet fun x hx => ?_
    have hwork := hidle x hx
    cases x with
    | request r => cases hwork
    | propose | prune | upcall | startSend | startReceive | deliver | stopTransfer | releaseTransfer => rfl

end Events

/-- What is demanded of what a replica is told, when `D` tells the value of each position that is delivered first:
    storage reports only replays that it was asked for, and a received state is as of a position before that of the
    marker that is proposed for it. -/
structure Admissible (D : Decided) (start : Engine) (told : List (Host × Event)) : Prop where
  decided : ∀ p v, deliveredAt? told p = some v → v = D p
  answers : ∀ front host q back, told = front ++ (host, .stored (.snapshot q)) :: back →
    ∃ requests, .request (.snapshot q requests) ∈ (start.course front).effects
  snapshot : ∀ front back sync, told = front ++ back → (start.course front).engine.syncing? = some sync →
    ∀ m, D m = .syncedUp sync.marker → sync.snapshot < m

theorem Admissible.front {front back : List (Host × Event)} (ha : Admissible D start (front ++ back)) :
    Admissible D start front where
  decided p v hv := ha.decided p v (deliveredAt?_append_of_some hv back)
  answers front' host q back' heq := ha.answers front' host q (back' ++ back) (by rw [heq]; simp)
  snapshot front' back' sync heq := ha.snapshot front' (back' ++ back) sync (by rw [heq]; simp)

theorem Admissible.awaited (ha : Admissible D start told) {sync : Syncing} (hs : Awaited start told sync) :
    ∀ m, D m = .syncedUp sync.marker → sync.snapshot < m := by
  obtain ⟨front, back, host, c, htold, -, hsync, -⟩ := hs
  exact ha.snapshot front back sync htold hsync

/-- What is known is known after the next event. -/
theorem Tracked.concat (ht : Tracked D start told (start.course told)) {t : Host × Event}
    (ha : Admissible D start (told ++ [t])) (hf : (start.course (told ++ [t])).fault? = none) :
    Tracked D start (told ++ [t]) (start.course (told ++ [t])) := by
  obtain ⟨h, event⟩ := t
  obtain ⟨hpruned, calls, hp⟩ := ht
  have hcourse := course_concat start told (h, event)
  obtain ⟨htold, hevent⟩ := Step.fault?_andThen_eq_none_iff.mp (hcourse ▸ hf)
  rw [Step.andThen_of_none htold] at hcourse
  rcases event_cases event with ⟨ds, rfl⟩ | ⟨q, rfl⟩ | ⟨hd, hs⟩
  · obtain ⟨hds, hprune⟩ := Step.fault?_andThen_eq_none_iff.mp hevent
    have hpoised := hp.decide ha.decided (fun sync hk => ha.front.awaited hk) hds
    have htracked := hpoised.trimmed (h := h)
    rw [← engine_prune hprune, List.append_assoc] at htracked
    rw [hcourse]
    dsimp only [handle]
    rw [Step.andThen_of_none hds]
    exact htracked
  · obtain ⟨requests, hq⟩ := ha.answers told h q [] rfl
    have htracked := (hp.snapshot (h := h) hq).trimmed (h := h)
    rw [handle_snapshot] at hevent
    rw [← engine_prune hevent] at htracked
    rw [hcourse]
    dsimp only
    rw [handle_snapshot]
    exact htracked
  · obtain ⟨hcalm, -⟩ := calm_handle (h := h) (e := (start.course told).engine) hd hs
    have hpoised := hp.calm hd hs hf (by rw [hcourse])
    rw [hcourse]
    refine ⟨?_, calls, hpoised⟩
    show (handle h event (start.course told).engine).engine.lastSnapshot ≤ _
    rw [hcalm.lastSnapshot, hcalm.pruned]
    exact hpruned

theorem tracked_course (hs : start.Starts) (ha : Admissible D start told) (hf : (start.course told).fault? = none) :
    Tracked D start told (start.course told) := by
  induction told using List.reverseRecOn with
  | nil => exact ⟨hs.ready.pruned, [], hs.poised⟩
  | append_singleton told t ih =>
    have hfront := hf
    rw [course_concat, Step.fault?_andThen_eq_none_iff] at hfront
    exact (ih ha.front hfront.1).concat ha hf

/-- A prune sends what has to be pruned, if that has grown. -/
theorem effects_prune_split {done earlier later : List Effect} {w : Position} (hx : ∀ x ∈ done, x.watermark? = none)
    (hsplit : done ++ (e.prune h).effects = earlier ++ .prune w :: later) :
    earlier = done ∧ w = e.lastSnapshot ∧ e.pruned < e.lastSnapshot := by
  have hnot : Effect.prune w ∉ done := fun hmem => by cases hx _ hmem
  have hmem : Effect.prune w ∈ (e.prune h).effects :=
    (List.mem_append.mp (hsplit ▸ List.mem_append_right _ (.head _))).resolve_left hnot
  rcases Nat.lt_or_ge e.pruned e.lastSnapshot with hlt | hle
  · rw [prune_of_lt hlt] at hsplit hmem
    unfold emit at hsplit hmem
    split at hmem
    · next ho =>
      rw [if_pos ho] at hsplit
      cases List.mem_singleton.mp hmem
      refine ⟨?_, rfl, hlt⟩
      -- Nothing comes behind the watermark, as it is not among the effects before.
      rcases List.eq_nil_or_concat later with rfl | ⟨later, x, rfl⟩
      · exact (List.append_inj' hsplit rfl).1.symm
      · rw [List.concat_eq_append, ← List.cons_append, ← List.append_assoc] at hsplit
        have hdone := (List.append_inj' hsplit rfl).1
        exact absurd (hdone ▸ List.mem_append_right _ (.head _)) hnot
    · cases hmem
  · rw [prune_of_le hle] at hmem
    cases hmem

theorem applied?_engine_prune : (e.prune h).engine.log.applied? = e.log.applied? := kept_prune.1.applied

/-- What is known when a watermark is sent at the end of an event. -/
theorem Poised.sends {done earlier later : List Effect} {w : Position}
    (hp : Poised D start told calls (done ++ s.effects) s.engine) (hx : ∀ x ∈ s.effects, x.watermark? = none)
    (hsplit : s.effects ++ (s.engine.prune h).effects = earlier ++ .prune w :: later) :
    ∃ first n sync?, (delivered told).head?.map (·.position) = some first ∧
      (s.engine.prune h).engine.log.applied? = some n ∧ w ≤ n ∧
      Came D (Awaited start told) start.mode.isServing (done ++ earlier) sync? ∧
      Covers D first (n + 1 - first) (sync?.map (·.snapshot)) (done ++ earlier) := by
  obtain ⟨rfl, rfl, hlt⟩ := effects_prune_split hx hsplit
  obtain ⟨first, n, sync?, hstart, happlied, hle, hcame, hcovers⟩ :=
    hp.stage.of_lastSnapshot hp.log (Nat.zero_lt_of_lt hlt)
  exact ⟨first, n, sync?, hp.first ▸ hstart, applied?_engine_prune.trans happlied, hle, hcame, hcovers⟩

/-- Whatever a replica is told that has begun with nothing or as the first one of its group, as long as that is
    admissible: its watermarks increase strictly. When one is sent, it does not exceed the last applied position; and
    every put and every conditional write that is decided from the first delivered position on, up to the last applied
    one, has been handed to storage before, in order, directly or inside of the replay, unless the replica has received
    a state and the write is decided at or before the snapshot of that transfer. By then the replay of that transfer
    has been handed to storage. -/
theorem watermarks_cover_writes (hs : start.Starts) (ha : Admissible D start told) :
    (watermarks (start.course told).effects).Pairwise (· < ·) ∧
    ∀ front host event back earlier w later, told = front ++ (host, event) :: back →
      (start.course front).fault? = none →
      ((start.course front).engine.handle host event).effects = earlier ++ .prune w :: later →
      ∃ first n sync?,
        (delivered (front ++ [(host, event)])).head?.map (·.position) = some first ∧
        ((start.course front).engine.handle host event).engine.log.applied? = some n ∧ w ≤ n ∧
        Came D (Awaited start (front ++ [(host, event)])) start.mode.isServing ((start.course front).effects ++ earlier)
          sync? ∧
        Covers D first (n + 1 - first) (sync?.map (·.snapshot)) ((start.course front).effects ++ earlier) := by
  refine ⟨(rises_course told).ordered, fun front host event back earlier w later htold hf hsplit => ?_⟩
  rw [htold, ← List.singleton_append, ← List.append_assoc] at ha
  obtain ⟨-, calls, hp⟩ := tracked_course hs ha.front.front hf
  rcases event_cases event with ⟨ds, rfl⟩ | ⟨q, rfl⟩ | ⟨hd, hs⟩
  · have hsilent := silent_forEach_decide (h := host) (e := (start.course front).engine) ds
    dsimp only [handle] at hsplit ⊢
    by_cases hds : (Step.forEach (Engine.decide host) ds (start.course front).engine).fault? = none
    · rw [Step.andThen_of_none hds] at hsplit ⊢
      exact (hp.decide ha.front.decided (fun sync hk => ha.front.front.awaited hk) hds).sends hsilent.2 hsplit
    · rw [Step.andThen_of_fault hds] at hsplit
      cases hsilent.2 _ (hsplit ▸ List.mem_append_right _ (.head _))
  · obtain ⟨requests, hq⟩ := ha.front.answers front host q [] rfl
    rw [handle_snapshot] at hsplit ⊢
    have hpoised := hp.snapshot (h := host) hq
    rw [← List.append_nil (start.course front).effects] at hpoised
    exact Poised.sends (s := { engine := _ }) hpoised (fun x hx => absurd hx List.not_mem_nil) hsplit
  · obtain ⟨-, hsilent⟩ := calm_handle (h := host) (e := (start.course front).engine) hd hs
    cases hsilent _ (hsplit ▸ List.mem_append_right _ (.head _))

/-- Decisions that agree with a sequence agree with it where they are delivered first. -/
theorem eq_of_deliveredAt? (hd : ∀ d ∈ delivered told, d.value = D d.position) (p : Position) (v : Value)
    (hv : deliveredAt? told p = some v) : v = D p := by
  obtain ⟨d, hfind, rfl⟩ := Option.map_eq_some_iff.mp hv
  obtain ⟨hin, rfl⟩ := mem_of_find?_position hfind
  exact hd d hin

end Course

/-- The view change, a put that the joining replica misses, its marker, and a put that it applies. -/
def joinedLog : Decided
  | 1 => .reconfigure ⟨⟨7⟩, ⟨2, .ofList [.name "a", .name "b"]⟩, 2, 0, .full⟩
  | 3 => .syncedUp ⟨1⟩
  | p => (onePut p).value

/-- A replica joins with the state as of position 1. -/
def joinedCourse : List (Host × Event) :=
  receivedUpTo 1 ++ [(openHost, .decide [onePut 2, ⟨3, .syncedUp ⟨1⟩⟩]), (openHost, .stored (.snapshot 3)),
    (openHost, .decide [onePut 4])]

theorem admissible_joinedCourse : Admissible joinedLog {} joinedCourse where
  decided := eq_of_deliveredAt? (by simp [joinedCourse, receivedUpTo, delivered, joinedLog, onePut])
  answers front host q back heq := by
    match front, heq with
    | [], heq | [_], heq | [_, _], heq | [_, _, _, _], heq => cases heq
    | [_, _, _], heq =>
      cases heq
      exact ⟨[.put ⟨[2]⟩ [1] 1], List.mem_of_getElem? (i := 4) rfl⟩
    | _ :: _ :: _ :: _ :: _ :: front, heq =>
      have hlen := congrArg List.length heq
      simp [joinedCourse, receivedUpTo] at hlen
  snapshot front back sync heq hs m hm := by
    have hwaits : ∀ n ≤ 5, (({} : Engine).course (joinedCourse.take n)).engine.syncing?.all (· = ⟨⟨1⟩, 1, 1⟩) := by
      decide
    have hlen : front.length ≤ 5 := by
      have hlen := congrArg List.length heq
      rw [List.length_append] at hlen
      exact Nat.le_trans (Nat.le_add_right ..) (Nat.le_of_eq hlen.symm)
    have hfront : joinedCourse.take front.length = front := by rw [heq, List.take_left]
    have hsync := hwaits front.length hlen
    rw [hfront, hs] at hsync
    obtain rfl : sync = ⟨⟨1⟩, 1, 1⟩ := by simpa using hsync
    unfold joinedLog at hm
    split at hm
    · cases hm
    · decide
    · cases hm

/-- The replica applies its marker, storage reports the replay of the put that the state lacks, and the put behind the
    marker is applied: each time there is more to prune. -/
theorem joined_watermarks_cover_writes :
    let s := ({} : Engine).course joinedCourse
    watermarks s.effects = [1, 3, 4] ∧ (watermarks s.effects).Pairwise (· < ·) ∧
      queued s.effects = [.put ⟨[2]⟩ [1] 1, .cleanup .full 1, .put ⟨[4]⟩ [1] 1] ∧
      ∃ first n sync?, (delivered joinedCourse).head?.map (·.position) = some first ∧
        s.engine.log.applied? = some n ∧ 4 ≤ n ∧
        Came joinedLog (Awaited {} joinedCourse) false s.effects.dropLast sync? ∧
        Covers joinedLog first (n + 1 - first) (sync?.map (·.snapshot)) s.effects.dropLast := by
  intro s
  obtain ⟨hrise, hsend⟩ := watermarks_cover_writes .joining admissible_joinedCourse
  exact ⟨rfl, hrise, rfl, hsend (joinedCourse.take 4) openHost (.decide [onePut 4]) []
    (s.effects.drop 9).dropLast 4 [] rfl rfl rfl⟩

/-- What is decided before the first delivered position is not covered: a put that is delivered later is never applied,
    and the watermarks pass it all the same. -/
theorem late_delivery_uncovered :
    let founder := (bootstrap openHost ⟨⟨1, .ofList [.name "b"]⟩, 1, .full⟩ {}).engine
    let told := [(openHost, Event.decide [onePut 5]), (openHost, .decide [onePut 3]), (openHost, .decide [onePut 6])]
    let s := founder.course told
    s.fault? = none ∧ watermarks s.effects = [5, 6] ∧ delivered told = [onePut 5, onePut 3, onePut 6] ∧
      queued s.effects = [.put ⟨[5]⟩ [1] 1, .put ⟨[6]⟩ [1] 1] := ⟨rfl, rfl, rfl, rfl⟩

end Engine
end ReplicaGroup
