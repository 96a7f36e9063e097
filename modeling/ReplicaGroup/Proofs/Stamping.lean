import ReplicaGroup.Proofs.Site.Levels

/-! # Stamps are ordered

A replica's view and version never decrease, and neither do the stamps of what it asks storage to write, whether
it applies a write, replays it, or receives it. While it serves, no version that is queued is above its own, nor any
that is stored as long as actions stamp what they write, and each move to a newer view makes all later writes newer
than every earlier one. -/

namespace ReplicaGroup

namespace Site
variable {s t : Site} {o : Outside} {w : Version}

section Apply
variable {e : Position × Value} {rest : List (Position × Value)}

/-- Applying a value turns the engine, or moves it to a view for which there is no version. -/
theorem apply_cases (hs : s.IsOpen) (e : Position × Value) :
    s.node.engine.Turns s.node.host e.1 e.2 (s.node.engine.apply s.node.host e.1 e.2) ∨ ∃ r fault,
      r.view.isNewerThan s.node.engine.view = true ∧
        s.node.engine.apply s.node.host e.1 e.2 = (s.node.engine.adopt r).fail fault := by
  rcases Engine.turns_or_fails (h := s.node.host) hs.storeOpen hs.upcallOpen e.1 e.2 s.node.engine with
    ht | ⟨r, fault, -, hn, heq⟩
  · exact .inl ht
  · exact .inr ⟨r, fault, hn, heq⟩

theorem climbs_apply (hs : s.IsOpen) (hp : s.node.engine.mode = .passive → s.node.engine.version = 0) :
    s.node.engine.Climbs (s.apply e rest).node.engine := by
  rw [Site.apply, take_engine]
  rcases apply_cases hs e with ht | ⟨r, fault, hn, heq⟩
  · exact ht.climbs hp
  · rw [heq]
    exact Engine.climbs_adopt hn

theorem blank_apply (hs : s.node.Blank) (ho : s.IsOpen) :
    (s.apply e rest).node.Blank ∨ (s.apply e rest).node.Filling 0 := by
  unfold Site.apply
  rcases apply_cases ho e with ht | ⟨r, fault, -, heq⟩
  · exact blank_turn (s := { s with released := rest, applied := _ }) hs ht
  · rw [heq]
    exact .inl (blank_take (s := { s with released := rest, applied := _ }) hs hs.mode rfl rfl
      (fun r hr => absurd hr List.not_mem_nil) rfl)

theorem filling_apply (hs : s.node.Filling w) (ho : s.IsOpen) :
    (s.apply e rest).node.Filling w ∨ (s.apply e rest).node.Steady := by
  unfold Site.apply
  rcases apply_cases ho e with ht | ⟨r, fault, -, heq⟩
  · exact filling_turn (s := { s with released := rest, applied := _ }) hs ht
  · rw [heq]
    exact .inl (filling_take (s := { s with released := rest, applied := _ }) hs hs.mode rfl
      (fun r hr => absurd hr List.not_mem_nil) rfl)

theorem steady_apply (hs : s.node.Steady) (ho : s.IsOpen) (e : Position × Value) (rest : List (Position × Value)) :
    (s.apply e rest).node.Steady ∧
    s.node.Writes (s.apply e rest).node.engine.version (s.apply e rest).node := by
  unfold Site.apply
  rw [take_engine]
  rcases apply_cases ho e with ht | ⟨r, fault, -, heq⟩
  · exact steady_turn (s := { s with released := rest, applied := _ }) hs ht
  · rw [heq]
    exact steady_take (s := { s with released := rest, applied := _ }) hs.level hs.reads hs.serving hs.settled
      (UInt32.le_refl _) (fun r hr => absurd hr List.not_mem_nil) fun _ h => absurd h List.not_mem_nil

end Apply

/-- A site that serves goes on to write at its version; one that has ended writes nothing. -/
theorem steady_proceeds (hs : s.node.Steady) (ho : s.IsOpen) (hm : s.Proceeds t) :
    t.node.Steady ∧ s.node.Writes t.node.engine.version t.node ∧
      (s.running = false → t.running = false ∧ t.node.stamps = s.node.stamps) := by
  have silent : t.node.stamps = s.node.stamps → s.node.Writes t.node.engine.version t.node := fun h =>
    ⟨[], h.trans (List.append_nil _).symm, fun _ hv => absurd hv List.not_mem_nil⟩
  cases hm with
  | hears h k hsync hrun =>
    have hsync : t.node.engine.syncing? = s.node.engine.syncing? :=
      hsync.resolve_right fun hmode => hs.not_catchingUp hmode.1
    exact ⟨h.steady hs k hsync, silent h.stamps, fun hr => ⟨hrun hr, h.stamps⟩⟩
  | @applies e rest hrun hr =>
    obtain ⟨ht, hw⟩ := steady_apply hs ho e rest
    exact ⟨ht, hw, fun h => absurd (h.symm.trans hrun) nofun⟩
  | executes hq =>
    have hstamps := (Node.serve_frame hq).2.1
    exact ⟨hs.execute hq, silent hstamps, fun h => ⟨h, hstamps⟩⟩
  | transfers hn =>
    obtain ⟨-, ht, hstamps⟩ := steady_transfer hs hn
    exact ⟨ht, silent hstamps, fun h => ⟨h, hstamps⟩⟩

theorem blank_proceeds (hs : s.node.Blank) (ho : s.IsOpen) (hm : s.Proceeds t) :
    t.node.Blank ∨ t.node.Filling 0 := by
  cases hm with
  | hears h k hsync hrun =>
    exact .inl (h.blank hs k (hsync.resolve_right fun hmode => absurd (hs.mode.symm.trans hmode.1) nofun))
  | applies hrun hr => exact blank_apply hs ho
  | executes hq => exact .inl (hs.execute hq)
  | transfers hn =>
    -- There is no transfer yet.
    obtain ⟨u, out, -, h⟩ := exists_steps hn
    have hmem : u.stage ∈ s.node.background.stages := List.mem_map_of_mem h.mem
    rw [hs.stages] at hmem
    cases hmem

theorem filling_proceeds (hs : s.node.Filling w) (ho : s.IsOpen) (hm : s.Proceeds t) :
    (∃ w', t.node.Filling w') ∨ t.node.Steady := by
  cases hm with
  | hears h k hsync hrun =>
    refine .inl ⟨w, h.filling hs k fun sync hsome => ?_⟩
    rcases hsync with heq | ⟨-, c, hc, sync', hsync', ho⟩
    · exact .inl (heq ▸ hsome)
    · cases hsync'.symm.trans hsome
      exact .inr ⟨c, hc, ho⟩
  | applies hrun hr => exact (filling_apply hs ho).imp_left fun h => ⟨w, h⟩
  | executes hq => exact .inl ⟨w, hs.execute hq⟩
  | transfers hn => exact .inl (filling_transfer hs hn).2

theorem climbs_proceeds (hs : s.node.IsLevel) (ho : s.IsOpen) (hm : s.Proceeds t) :
    s.node.engine.Climbs t.node.engine := by
  have climbs_of_eq : t.node.engine = s.node.engine → s.node.engine.Climbs t.node.engine := fun h => h ▸ .refl _
  cases hm with
  | hears h k hsync hrun => exact k.climbs
  | applies hrun hr => exact climbs_apply ho hs.version_of_passive
  | executes hq => exact climbs_of_eq (Node.serve_frame hq).1
  | transfers hn =>
    obtain ⟨u, out, -, h⟩ := exists_steps hn
    exact climbs_of_eq h.engine

/-- A site stays on a level, or moves up to the next one. -/
theorem level_proceeds (hs : s.node.IsLevel) (ho : s.IsOpen) (hm : s.Proceeds t) : t.node.IsLevel := by
  rcases hs with hs | ⟨w, hs⟩ | hs
  · exact (blank_proceeds hs ho hm).imp_right fun h => .inl ⟨0, h⟩
  · exact .inr (filling_proceeds hs ho hm)
  · exact .inr (.inr (steady_proceeds hs ho hm).1)

/-- With nothing stored, a site starts on a level. -/
theorem Starts.isLevel (hs : s.Starts) (hempty : s.node.store = .empty) : s.node.IsLevel := by
  cases hs with
  | fresh => exact .inl ⟨rfl, rfl, rfl, Node.level_empty hempty rfl rfl, rfl, rfl⟩
  | bootstrapped =>
    exact .inr (.inr ⟨rfl, rfl, Node.level_empty hempty rfl rfl, fun _ h => absurd h List.not_mem_nil⟩)

/-- A site is open and on a level after any acts, and its engine has climbed. -/
theorem level_run {acts : List Act} (h : s.run acts = some t) (hs : s.IsOpen) (hlevel : s.node.IsLevel) :
    t.IsOpen ∧ t.node.IsLevel ∧ s.node.engine.Climbs t.node.engine := by
  refine run_induction_any (P := fun t => t.IsOpen ∧ t.node.IsLevel ∧ s.node.engine.Climbs t.node.engine) h
    ⟨hs, hlevel, .refl _⟩ (fun _ _ hu => ⟨⟨hu.1.storeOpen, hu.1.upcallOpen⟩, hu.2⟩) ?_
  rintro o u v ⟨ho, hu, hclimbs⟩ hm
  exact ⟨ho.moves hm, level_proceeds hu ho hm.proceeds, hclimbs.trans (climbs_proceeds hu ho hm.proceeds)⟩

/-- What a site that serves has become, with what it has written since. -/
structure Onwards (s t : Site) (later : List Version) : Prop where
  isOpen : t.IsOpen
  steady : t.node.Steady
  version : s.node.engine.version ≤ t.node.engine.version
  stamps : t.node.stamps = s.node.stamps ++ later
  bound : ∀ v ∈ later, s.node.engine.version ≤ v
  /-- A site that has ended writes nothing. -/
  ended : s.running = false → t.running = false ∧ later = []

theorem Onwards.moves {u : Site} {later : List Version} (h : s.Onwards u later) (hm : Moves o u t) :
    ∃ later, s.Onwards t later := by
  obtain ⟨hsteady, ⟨more, hmore, heq⟩, hsilent⟩ := steady_proceeds h.steady h.isOpen hm.proceeds
  have hle := UInt32.le_trans h.version (climbs_proceeds (.inr (.inr h.steady)) h.isOpen hm.proceeds).version
  refine ⟨later ++ more, h.isOpen.moves hm, hsteady, hle, ?_, fun v hv => ?_, fun hr => ?_⟩
  · rw [hmore, h.stamps, List.append_assoc]
  · rcases List.mem_append.mp hv with hv | hv
    · exact h.bound v hv
    · exact heq v hv ▸ hle
  · obtain ⟨hended, hnone⟩ := h.ended hr
    obtain ⟨hended, hstamps⟩ := hsilent hended
    rw [hmore] at hstamps
    exact ⟨hended, by rw [hnone, List.append_right_eq_self.mp hstamps]; rfl⟩

/-- What a site that serves writes from then on is not below its version. -/
theorem onwards_run {acts : List Act} (h : s.run acts = some t) (hs : s.IsOpen) (hsteady : s.node.Steady) :
    ∃ later, s.Onwards t later := by
  refine run_induction_any (P := fun t => ∃ later, s.Onwards t later) h
    ⟨[], hs, hsteady, UInt32.le_refl _, (List.append_nil _).symm, fun _ h => absurd h List.not_mem_nil, fun h => ⟨h, rfl⟩⟩
    ?_ ?_
  · rintro u decisions ⟨later, hu⟩
    exact ⟨later, ⟨hu.isOpen.storeOpen, hu.isOpen.upcallOpen⟩, hu.steady, hu.version, hu.stamps, hu.bound, hu.ended⟩
  · rintro o u v ⟨later, hu⟩ hm
    exact hu.moves hm

/-- A move to a newer view lifts a site that serves without writing, or ends it. -/
theorem newer_apply (hs : s.node.Steady) (ho : s.IsOpen) {p : Position} {r : Reconfiguration}
    (hn : r.view.isNewerThan s.node.engine.view = true) (rest : List (Position × Value)) :
    (s.apply (p, .reconfigure r) rest).node.stamps = s.node.stamps ∧
      (s.node.engine.version < (s.apply (p, .reconfigure r) rest).node.engine.version ∨
        (s.apply (p, .reconfigure r) rest).running = false) := by
  have stamps_of_none : ∀ (u : Site) (step : Step), step.effects.filterMap Effect.request? = [] →
      (u.take step).node.stamps = u.node.stamps := fun u step h => by
    rw [Node.stamps, take_requests, h, List.append_nil, Node.stamps]
  unfold Site.apply
  rw [take_engine, take_running]
  generalize hstep : s.node.engine.apply s.node.host p (.reconfigure r) = step
  have hcases := apply_cases ho (p, .reconfigure r)
  rw [hstep] at hcases
  rcases hcases with ht | ⟨r', fault, -, heq⟩
  · cases ht with
    | stays he hx hn' hsync => rw [hn' r rfl] at hn; cases hn
    | joins hm hn' hversion => exact absurd hm hs.not_passive
    | follows hm hn' hversion => exact absurd hm hs.not_catchingUp
    | @moves r version sent hm hn' hversion hsent =>
      refine ⟨stamps_of_none _ _ (List.filterMap_eq_nil_iff.mpr fun x hx => ?_), .inl ?_⟩
      · obtain ⟨n, scanId, -, a, -, rfl⟩ := Engine.exists_of_mem_sendings (hsent ▸ hx)
        rfl
      · rw [(Engine.kept_finishTransferring _).version]
        exact Version.lt_succ hversion
  · subst heq
    exact ⟨stamps_of_none _ _ rfl, .inr (Bool.and_false _)⟩

end Site

/-- Whatever a replica is told, and however its storage and its transfers get on: its view and its version never
    decrease, and neither do the stamps of what it asks storage to write, in the order of asking. When it applies a move
    to a newer view while it serves, all later writes are newer than every earlier one. Whenever it serves, no version
    that it has queued is above its own, and none that it has stored, if all actions stamp what they write. -/
theorem stamps_ascend {start u s : Site} (hs : start.Starts) (hempty : start.node.store = .empty)
    {front back : List Site.Act} (hu : start.run front = some u) (h : u.run back = some s) :
    u.node.engine.view.number ≤ s.node.engine.view.number ∧ u.node.engine.version ≤ s.node.engine.version ∧
    s.node.stamps.Pairwise (· ≤ ·) ∧
    (∀ p r rest acts, u.released = (p, .reconfigure r) :: rest → back = .advance :: acts →
      u.node.engine.mode.isServing = true → r.view.isNewerThan u.node.engine.view = true →
      ∃ later, s.node.stamps = u.node.stamps ++ later ∧ ∀ v ∈ u.node.stamps, ∀ w ∈ later, v < w) ∧
    (s.node.engine.mode.isServing = true →
      (∀ q ∈ s.node.background.queue, ∀ v ∈ q.1.stamps, v ≤ s.node.engine.version) ∧
      ((∀ r ∈ s.node.notices.requests, r.IsStamped) → s.node.store.UpTo s.node.engine.version)) := by
  obtain ⟨hopen, hlevel, -⟩ := Site.level_run hu hs.isOpen (hs.isLevel hempty)
  obtain ⟨-, hlevel', hclimbs⟩ := Site.level_run h hopen hlevel
  refine ⟨hclimbs.view, hclimbs.version, hlevel'.ordered, ?_, fun hserving => ?_⟩
  · rintro p r rest acts hr rfl hserving hn
    have hsteady := hlevel.steady hserving
    obtain ⟨u', hact, h⟩ := Option.bind_eq_some_iff.mp h
    obtain ⟨hrun, hact⟩ := Option.ite_none_right_eq_some.mp hact
    rw [hr] at hact
    cases hact
    have hm : Site.Moves ⟨fun _ => True, fun _ => .reconfigure r⟩ u _ := .apply hrun hr
    obtain ⟨hstamps, hnewer⟩ := Site.newer_apply hsteady hopen hn rest (p := p)
    obtain ⟨later, hlater⟩ := Site.onwards_run h (hopen.moves hm) (Site.steady_proceeds hsteady hopen hm.proceeds).1
    refine ⟨later, by rw [hlater.stamps, hstamps], fun v hv w hw => ?_⟩
    rcases hnewer with hlt | hended
    · exact UInt32.lt_of_le_of_lt (hsteady.level.reached v hv) (UInt32.lt_of_lt_of_le hlt (hlater.bound w hw))
    · rw [(hlater.ended hended).2] at hw
      cases hw
  · have hsteady := hlevel'.steady hserving
    exact ⟨fun q hq => hsteady.level.queued_le hq, hsteady.level.stored⟩

/-- A joiner receives two entries below the version of the group, and applies a put while it does. -/
def fillingActs : List Site.Act :=
  [.deliver [⟨1, .reconfigure ⟨⟨1⟩, ⟨2, .ofList [.name "a", .name "b"]⟩, 2, 1, .full⟩⟩,
      ⟨2, .op ⟨⟨2⟩, .put ⟨[97]⟩ [50]⟩⟩],
    .advance, .advance, .advance, .advance, .advance, .transfer ⟨0⟩,
    .hear (.message (.initiate ⟨⟨9⟩, .name "a", .full, ⟨some 1, some 2⟩⟩)), .transfer ⟨0⟩,
    .hear (.message (.data ⟨9⟩ 0 (Wire.encodeEntries [(⟨[97]⟩, [49]), (⟨[98]⟩, [48])]) true)), .transfer ⟨0⟩, .execute,
    .transfer ⟨0⟩, .completion 0,
    .deliver [⟨3, .syncedUp ⟨1⟩⟩, ⟨4, .reconfigure ⟨⟨4⟩, ⟨3, .ofList [.name "b"]⟩, 1, 2, .full⟩⟩],
    .advance, .advance, .advance]

/-- It moves to the next view, removes the second entry by an action, and applies another put. -/
def movingActs : List Site.Act :=
  [.advance, .advance,
    .deliver [⟨5, .op ⟨⟨5⟩, .range ⟨⟨.included ⟨[98]⟩, .unbounded⟩, .unlimited, none, some .delete⟩⟩⟩,
      ⟨6, .op ⟨⟨6⟩, .put ⟨[97]⟩ [51]⟩⟩],
    .advance, .advance, .advance, .advance, .execute, .execute, .execute]

/-- A joiner stamps what it receives with one, what it replays with two, and what it removes and writes after the next view
    change with three. -/
theorem joiner_stamps_ascend : ∃ u s,
    (Site.fresh (.name "b") default .ofNat (.insert .empty (.name "a") {})).run fillingActs = some u ∧
      u.run movingActs = some s ∧ u.node.stamps = [1, 1, 2] ∧ s.node.stamps = [1, 1, 2, 3, 3] ∧
      (∃ later, s.node.stamps = u.node.stamps ++ later ∧ ∀ v ∈ u.node.stamps, ∀ w ∈ later, v < w) ∧
      (∃ r ∈ s.node.notices.requests, r.action? = some .delete) ∧
      (∀ q ∈ s.node.background.queue, ∀ v ∈ q.1.stamps, v ≤ 3) ∧ s.node.store.UpTo 3 := by
  generalize hstart : Site.fresh (.name "b") default .ofNat (.insert .empty (.name "a") {}) = start
  have hfilled : (start.run fillingActs).map (fun u => (u.node.stamps, u.node.engine.mode.isServing)) =
      some ([1, 1, 2], true) := by
    rw [← hstart]
    decide +kernel
  have hreleased : (start.run fillingActs).map (fun u => u.released.map fun e =>
      (e.1, decide (u.node.engine.view.after e.2 = u.node.engine.view))) = some [(4, false)] := by
    rw [← hstart]
    decide +kernel
  have hmoved : ((start.run fillingActs).bind (·.run movingActs)).map (fun s => (s.node.stamps, s.node.engine.version,
      s.node.engine.mode.isServing, s.node.notices.requests.all fun r => r.isLeaf || r.leaves.all (·.action?.isNone))) =
        some ([1, 1, 2, 3, 3], 3, true, true) := by
    rw [← hstart]
    decide +kernel
  -- Equality of actions is not decidable, so the run is unfolded.
  have hactions : ((start.run fillingActs).bind (·.run movingActs)).map
      (fun s => s.node.notices.requests.filterMap Request.action?) = some [.delete] := by
    rw [← hstart]
    rfl
  obtain ⟨u, hu, hfilled⟩ := Option.map_eq_some_iff.mp hfilled
  rw [hu, Option.map_some, Option.some.injEq] at hreleased
  rw [hu, Option.bind_some] at hmoved hactions
  obtain ⟨s, hs, hmoved⟩ := Option.map_eq_some_iff.mp hmoved
  rw [hs, Option.map_some, Option.some.injEq] at hactions
  simp only [Prod.mk.injEq] at hfilled hmoved
  obtain ⟨hstamps, hserving⟩ := hfilled
  obtain ⟨hstamps', hversion, hserving', hleaves⟩ := hmoved
  have hstarts : start.Starts := hstart ▸ .fresh ..
  obtain ⟨-, -, -, hnewer, hbound⟩ := stamps_ascend hstarts (by rw [← hstart]; rfl) hu hs
  obtain ⟨hqueued, hstored⟩ := hbound hserving'
  rw [hversion] at hqueued hstored
  refine ⟨u, s, hu, hs, hstamps, hstamps', ?_, ?_, hqueued, hstored fun r hr => ?_⟩
  · obtain ⟨⟨p, v⟩, hsingle, hv⟩ := List.map_eq_singleton_iff.mp hreleased
    obtain ⟨rfl, hv⟩ := Prod.mk.inj hv
    obtain ⟨r, rfl, hn⟩ := View.exists_newer_of_after_ne (of_decide_eq_false hv)
    exact hnewer 4 r [] _ hsingle rfl hserving hn
  · have hmem : RangeAction.delete ∈ [RangeAction.delete] := .head _
    rw [← hactions] at hmem
    exact List.mem_filterMap.mp hmem
  · rcases Bool.or_eq_true_iff.mp (List.all_eq_true.mp hleaves r hr) with hsingle | hnone
    · refine Request.isStamped_of_isLeaf hsingle fun action haction => ?_
      have hmem : action ∈ [RangeAction.delete] := hactions ▸ List.mem_filterMap.mpr ⟨r, hr, haction⟩
      rw [List.mem_singleton.mp hmem]
      exact RangeAction.isStamped_delete
    · exact Request.isStamped_of_no_action fun leaf hleaf =>
        Option.isNone_iff_eq_none.mp (List.all_eq_true.mp hnone leaf hleaf)

/-- Writes what it has seen once more, above the version that it is given. -/
def RangeAction.overtaking : RangeAction where
  name := "overtaking"
  prepare := .ok ()
  process _ _ := .ok none
  commit seen s := (seen.foldl (fun s v => s.put v.key v.value (v.version + 1)) s, .ok ())

/-- A replica executes a put, and an action that writes its key once more. -/
def overtakingActs : List Site.Act :=
  [.deliver [⟨1, .op ⟨⟨1⟩, .put ⟨[97]⟩ [49]⟩⟩,
      ⟨2, .op ⟨⟨2⟩, .range ⟨.full, .unlimited, none, some .overtaking⟩⟩⟩],
    .advance, .advance, .advance, .advance, .advance, .execute, .execute]

/-- A joiner receives an entry below the ninth version. -/
def receivingActs : List Site.Act :=
  [.deliver [⟨1, .reconfigure ⟨⟨7⟩, ⟨2, .ofList [.name "a", .name "b"]⟩, 2, 1, .full⟩⟩], .advance, .advance, .advance,
    .transfer ⟨0⟩, .hear (.message (.initiate ⟨⟨9⟩, .name "a", .full, ⟨some 1, some 9⟩⟩)), .transfer ⟨0⟩,
    .hear (.message (.data ⟨9⟩ 0 (Wire.encodeEntries [(⟨[97]⟩, [49])]) true)), .transfer ⟨0⟩, .execute]

/-- It applies its marker. -/
def markingActs : List Site.Act := [.deliver [⟨2, .syncedUp ⟨1⟩⟩], .advance, .advance, .advance]

theorem Store.not_upTo {s : Store} {key : Key} {versions : List Version} {v w : Version}
    (h : (s.history? key).map (·.keys) = some versions) (hv : v ∈ versions) (hlt : w < v) : ¬s.UpTo w := by
  intro hs
  obtain ⟨history, hh, rfl⟩ := Option.map_eq_some_iff.mp h
  exact absurd (hs key history hh v hv) (UInt32.not_le.mpr hlt)

/-- An action that does not stamp what it writes leaves a version above that of a replica that serves. So does a
    transfer, if the replica is told that it has ended in another way than it has. -/
theorem unstamped_action_overtakes :
    (∃ s, (Site.bootstrapped (.name "a") default .ofNat .empty ⟨⟨1, .ofList [.name "a"]⟩, 1, .full⟩).run overtakingActs =
        some s ∧ s.running = true ∧ s.node.engine.mode = .active ∧ ¬s.node.store.UpTo s.node.engine.version) ∧
    ∃ u s, (Site.fresh (.name "b") default .ofNat (.insert .empty (.name "a") {})).run receivingActs = some u ∧
      (u.handle (.completed ⟨⟨0⟩, .receive, .ok ⟨some 1, some 2⟩⟩)).run markingActs = some s ∧ s.running = true ∧
      s.node.engine.mode = .active ∧ ¬s.node.store.UpTo s.node.engine.version := by
  have hovertaken : ((Site.bootstrapped (.name "a") default .ofNat .empty ⟨⟨1, .ofList [.name "a"]⟩, 1, .full⟩).run
      overtakingActs).map (fun s => (s.running, s.node.engine.mode, s.node.engine.version,
        (s.node.store.history? ⟨[97]⟩).map (·.keys))) = some (true, .active, 1, some [1, 2]) := by
    decide +kernel
  have htold : ((Site.fresh (.name "b") default .ofNat (.insert .empty (.name "a") {})).run receivingActs).map
      (fun u => ((u.handle (.completed ⟨⟨0⟩, .receive, .ok ⟨some 1, some 2⟩⟩)).run markingActs).map fun s =>
        (s.running, s.node.engine.mode, s.node.engine.version, (s.node.store.history? ⟨[97]⟩).map (·.keys))) =
      some (some (true, .active, 2, some [8])) := by
    decide +kernel
  obtain ⟨s, hs, hovertaken⟩ := Option.map_eq_some_iff.mp hovertaken
  obtain ⟨u, hu, htold⟩ := Option.map_eq_some_iff.mp htold
  obtain ⟨t, ht, htold⟩ := Option.map_eq_some_iff.mp htold
  simp only [Prod.mk.injEq] at hovertaken htold
  obtain ⟨hrun, hmode, hversion, hkeys⟩ := hovertaken
  obtain ⟨hrun', hmode', hversion', hkeys'⟩ := htold
  refine ⟨⟨s, hs, hrun, hmode, ?_⟩, u, t, hu, ht, hrun', hmode', ?_⟩
  · rw [hversion]
    exact Store.not_upTo hkeys (.tail _ (.head _)) (by decide)
  · rw [hversion']
    exact Store.not_upTo hkeys' (.head _) (by decide)

end ReplicaGroup
