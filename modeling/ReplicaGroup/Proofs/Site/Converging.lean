import ReplicaGroup.Proofs.Replay
import ReplicaGroup.Proofs.Site.Receiving
import ReplicaGroup.Proofs.Site.Tracking

/-! # A site that starts to serve

When a site applies its marker it has taken all of the cargo, and replays what was decided since the view
change. From then on its values in the range are the sender's. -/

namespace ReplicaGroup

/-! ### The range -/

/-- What an engine has applied settles its range: it has that of a view change that it has installed, if all
    the others since then keep it. -/
def Engine.KeepsRange (range : KeyRange) (l : List Application) (e : Engine) : Prop :=
  ∀ front a back, l = front ++ a :: back →
    (∃ r, a.value = .reconfigure r ∧ r.view.isNewerThan a.before.view = true ∧ r.range = range) →
      (∀ b ∈ back, b.value.IsWithin range) → e.range = range

theorem Engine.lasts_keepsRange (range : KeyRange) : Lasts (KeepsRange range) where
  kept l e e' h k front a back hl ha hback := k.range.trans (h front a back hl ha hback)
  log l e log h := h
  apply l e h p v hs _ front a back hl ha hback := by
    rw [Engine.apply_range]
    rcases List.eq_nil_or_concat back with rfl | ⟨back, b, rfl⟩
    · obtain ⟨rfl, hlast⟩ := List.append_inj' hl rfl
      obtain ⟨r, hr, hnew, hrange⟩ := ha
      cases hlast
      obtain rfl : v = .reconfigure r := hr
      simp only [hnew, if_true]
      exact hrange
    · rw [List.concat_eq_append] at hl hback
      rw [← List.cons_append, ← List.append_assoc] at hl
      obtain ⟨hfront, hlast⟩ := List.append_inj' hl rfl
      cases hlast
      have hrange := hs front a back hfront ha fun b hb => hback b (List.mem_append_left _ hb)
      have hv : v.IsWithin range := hback _ (List.mem_append_right _ (.head _))
      cases v with
      | reconfigure r =>
        simp only
        split
        · exact hv
        · exact hrange
      | op | scan | syncedUp | noop | unknown => exact hrange

namespace Site
variable {c : Cargo} {coming : List Message} {done : Entries} {s t : Site} {step : Step} {o : Outside}

/-- A site that joins with the view change decided at `p`: it applies decisions from there on at the latest, the
    view is new to it, and its marker is decided later. -/
structure Joins (p : Position) (r : Reconfiguration) (s : Site) : Prop where
  first : ∀ a ∈ s.applied.head?, a.position ≤ p
  view : ∀ a ∈ s.applied, a.position = p → r.view.isNewerThan a.before.view = true
  marker : ∀ a ∈ s.applied, a.completes = true → p < a.position

theorem Joins.of_append {p : Position} {r : Reconfiguration} {new : List Application} (ht : t.Joins p r)
    (h : t.applied = s.applied ++ new) : s.Joins p r := by
  obtain ⟨hfirst, hview, hmarker⟩ := ht
  rw [h] at hfirst hview hmarker
  refine ⟨fun a ha => hfirst a ?_, fun a ha => hview a (List.mem_append_left _ ha),
    fun a ha => hmarker a (List.mem_append_left _ ha)⟩
  rw [List.head?_append, Option.mem_def.mp ha]
  rfl

/-- After the view change the site has its range. -/
theorem Joins.range_eq {D : Decided} {range : KeyRange} {p : Position} {r : Reconfiguration} (hs : s.Joins p r)
    (hrange : s.Recounts (Engine.KeepsRange range)) (hrun : s.running = true) {first : Position}
    (hfollows : s.Follows D [] first) (hfirst : first ≤ p) (hp : p < first + s.applied.length)
    (hD : D p = .reconfigure r) (hr : r.range = range) (hwithin : ∀ q, p < q → (D q).IsWithin range) :
    s.node.engine.range = range := by
  have happlied := hfollows.applied_eq
  have hmem : (p, D p) ∈ s.applied.map Application.decision := by
    rw [happlied]
    exact Decided.mem_segment.mpr ⟨hfirst, hp, rfl⟩
  obtain ⟨a, ha, hdecision⟩ := List.mem_map.mp hmem
  obtain ⟨hposition, hvalue⟩ := Prod.mk.inj hdecision
  obtain ⟨front, back, hsplit⟩ := List.append_of_mem ha
  refine hrange.now hrun front a back hsplit ⟨r, hvalue.trans hD, hs.view a ha hposition, hr⟩ fun b hb => ?_
  have hordered := @Decided.segment_ordered D first s.applied.length
  rw [← happlied, hsplit, List.map_append, List.map_cons] at hordered
  have hlt := (List.pairwise_cons.mp (List.pairwise_append.mp hordered).2.1).1 _ (List.mem_map_of_mem hb)
  have hb' : b.decision ∈ D.segment first s.applied.length := by
    rw [← happlied, hsplit]
    exact List.mem_map_of_mem (List.mem_append_right _ (.tail _ hb))
  rw [show b.value = D b.position from (Decided.mem_segment.mp hb').2.2]
  exact hwithin _ (hposition ▸ hlt)

/-! ### The marker -/

/-- A transfer that has ended writes nothing any more. -/
theorem reads_of_closed {t : Transfer} (h : t.isOpen = false) : t.stage.reads = true := by
  cases hs : t.stage with
  | created errand => rw [Transfer.isOpen, hs] at h; cases h
  | running run deadline => rw [Transfer.isOpen, hs] at h; cases h
  | reported | stopped => rfl

/-- The site has applied its marker: what it has received and what it replays are the sender's values, as far as
    the operations decided since then go. -/
theorem Receives.converges {base : Table} {D : Decided} (hc : c.entries = (base.restrict c.range).entries)
    (hwithin : ∀ p, c.snapshot < p → (D p).IsWithin c.range) (hs : s.Receives c coming done) {first : Position}
    (hfollows : s.Follows D [] first) (hfirst : first ≤ c.snapshot) {m : Position} {marker : OpId}
    {rest : List (Position × Value)} (hr : s.released = (m, .syncedUp marker) :: rest) (hm : c.snapshot < m)
    (hrange : s.node.engine.range = c.range) {sync : Syncing} (hsync : s.node.engine.syncing? = some sync)
    (hsettles : s.node.engine.Settles m sync (s.node.engine.apply s.node.host m (.syncedUp marker)))
    (ht : (s.apply (m, .syncedUp marker) rest).Follows D [] first) :
    (s.apply (m, .syncedUp marker) rest).Tracks D c.range base (c.snapshot + 1) first := by
  obtain ⟨hsnapshot, hversion, hdone⟩ := hs.syncing sync hsync
  obtain ⟨hposition, hvalue⟩ := Prod.mk.inj (hfollows.next hr)
  obtain ⟨n, hn, -⟩ := hfollows.order
  rw [List.nil_append] at hn
  have hlength : s.applied.length < n + 1 := by
    have h := congrArg List.length hn
    rw [hr, Decided.length_segment] at h
    simp at h
    omega
  have hclosed := hs.closed (.inr (.inl (Option.ne_none_iff_exists'.mpr ⟨_, hsync⟩)))
  have happlied : (s.apply (m, .syncedUp marker) rest).applied.length = s.applied.length + 1 := by
    simp [Site.apply]
  have hflushed : (s.apply (m, .syncedUp marker) rest).flushed =
      s.flushed.afterAll ((s.node.engine.apply s.node.host m (.syncedUp marker)).effects.filterMap Effect.request?) :=
    flushed_take
  have hengine : (s.apply (m, .syncedUp marker) rest).node.engine =
      (s.node.engine.apply s.node.host m (.syncedUp marker)).engine := take_engine
  have hlog := congrArg (fun log => log.entries.entries) (Engine.apply_log (e := s.node.engine) (h := s.node.host)
    (p := m) (.syncedUp marker))
  generalize hstep : s.node.engine.apply s.node.host m (.syncedUp marker) = step at hsettles hflushed hengine hlog
  -- The log replays on the marker exactly what was decided between the snapshot and the marker.
  have hreplay : step.engine.replay c.snapshot m =
      (D.operations (c.snapshot + 1) (m - (c.snapshot + 1))).filterMap (·.captured? step.engine.version) :=
    Engine.replay_eq (hlog.trans (hs.waits.recorded.trans hn)) hfirst hm
      (hposition ▸ Nat.add_le_add_left (Nat.le_of_lt hlength) first)
  have hops := @Decided.isWithin_operations D c.range (c.snapshot + 1) (m - (c.snapshot + 1)) hwithin
  obtain ⟨hagrees, hupTo⟩ := Store.agreesOn_replayed hc hops (hversion ▸ hsettles.newer) m
  rw [hsettles.requests, hsnapshot, hversion, hreplay, hrange, hs.flushed, ← hdone] at hflushed
  rw [← hflushed] at hagrees hupTo
  refine ⟨⟨?_, ?_, ?_, ?_, ?_⟩, ht, ?_, ?_⟩
  · rw [hengine, hsettles.mode]
    rfl
  · rw [hengine, hsettles.settled]
  · exact take_storeOpen.trans hs.waits.storeOpen
  · rw [hengine]
    exact hupTo
  · refine reads_take (fun t ht => reads_of_closed (hclosed t ht)) fun x hx => ?_
    rcases hsettles.effects x (hstep ▸ hx) with h | h
    · cases x <;> first | rfl | cases h
    · cases x <;> first | rfl | cases h
  · rw [happlied, ← Nat.add_assoc, ← hposition]
    exact Nat.lt_succ_of_lt hm
  · have hlast : first + (s.apply (m, .syncedUp marker) rest).applied.length - (c.snapshot + 1) =
        m - (c.snapshot + 1) + 1 := by
      rw [happlied, ← Nat.add_assoc, ← hposition]
      exact Nat.succ_sub hm
    -- The marker itself writes nothing.
    have hmarker : (D (c.snapshot + 1 + (m - (c.snapshot + 1)))).operation? = none := by
      rw [Nat.add_sub_cancel' hm, hposition, ← hvalue]
      rfl
    rw [hlast, Decided.operations_succ, hmarker, Option.toList_none, List.append_nil]
    exact hagrees

theorem Receives.apply {base : Table} {D : Decided} (hc : c.entries = (base.restrict c.range).entries)
    (hwithin : ∀ p, c.snapshot < p → (D p).IsWithin c.range) (hs : s.Receives c coming done) {first : Position}
    (hfollows : s.Follows D [] first) {e : Position × Value} {rest : List (Position × Value)}
    (hr : s.released = e :: rest) (ht : (s.apply e rest).Follows D [] first) {r : Reconfiguration}
    (hjoins : (s.apply e rest).Joins c.snapshot r)
    (hrange : s.applied ≠ [] → c.snapshot < e.1 → s.node.engine.range = c.range) :
    (s.apply e rest).Dead ∨ (∃ done, (s.apply e rest).Receives c coming done) ∨
      (s.apply e rest).Tracks D c.range base (c.snapshot + 1) first := by
  have happlied : (s.apply e rest).applied =
      s.applied ++ [⟨e.1, e.2, s.node.engine, (s.node.engine.apply s.node.host e.1 e.2).effects⟩] := take_applied
  have hstep := Engine.follows_apply (h := s.node.host) (p := e.1) hs.waits.serving hs.waits.storeOpen e.2
  obtain ⟨p, v⟩ := e
  generalize hstep' : s.node.engine.apply s.node.host p v = step at hstep happlied
  cases hstep with
  | minor hminor =>
    have hs' := hs.of_eq (hs.waits.next hr step.effects) rfl rfl rfl rfl rfl rfl rfl
    rw [Site.apply, hstep']
    exact (hs'.take_minor hminor).imp_right fun h => .inl ⟨done, h⟩
  | joins hm =>
    rw [hs.joined] at hm
    cases hm
  | serves hsync hsettles =>
    have hmarker : c.snapshot < p := by
      refine hjoins.marker _ (happlied ▸ List.mem_append_right _ (.head _)) ?_
      simp [Application.completes, Engine.awaits, hsync]
    have hfirst : first ≤ c.snapshot := ht.first_le hjoins.first (happlied ▸ by simp)
    have hne : s.applied ≠ [] := fun hnil => by
      have hhead := hjoins.first
      rw [happlied, hnil] at hhead
      exact absurd (hhead _ rfl) (Nat.not_le_of_lt hmarker)
    have hrange := hrange hne hmarker
    exact .inr (.inr (hs.converges hc hwithin hfollows hfirst hr hmarker hrange hsync (hstep' ▸ hsettles) ht))

/-- A receiving site goes on receiving, and ends or serves at last. -/
theorem Receives.moves {base : Table} (hc : c.entries = (base.restrict c.range).entries)
    (hwithin : ∀ p, c.snapshot < p → (o.decided p).IsWithin c.range) (hs : s.Receives c coming done)
    (hf : s.Fed o.decided) (ho : s.Fresh ∨ ∃ first, s.Follows o.decided [] first)
    (htells : ∀ m, o.tells (.message m) → m.isData c.id = false) {r : Reconfiguration} (hjoins : t.Joins c.snapshot r)
    (hrange : s.applied ≠ [] → ∀ e ∈ s.released.head?, c.snapshot < e.1 → s.node.engine.range = c.range)
    (hm : Moves o s t) :
    t.Dead ∨ (∃ done, t.Receives c coming done) ∨
      ∃ first, t.Tracks o.decided c.range base (c.snapshot + 1) first := by
  cases hm with
  | @hear e s' hi he =>
    have hs' := hs.rests he.rests
    have hd := not_decide_of_heard he
    suffices h : (s'.handle e).Dead ∨ (s'.handle e).Receives c coming done from h.imp_right fun h => .inl ⟨done, h⟩
    cases he with
    | hear hexternal htold =>
      refine Receives.handle ?_ hd ?_ ?_ ?_
      · cases e with
        | message m =>
          show s.Receives c ([m].filter (·.isData c.id) ++ coming) done
          rw [List.filter_cons_of_neg (by simp [htells m htold])]
          exact hs
        | submit | decide | changeView | measure | stored | completed | stopped | stop => exact hs
      · rintro r rfl
        cases hexternal
      · rintro (⟨x, rfl⟩ | ⟨id, rfl⟩) <;> cases hexternal
      · rintro x rfl
        cases hexternal
    | response hr =>
      refine hs'.handle hd (fun r h => ?_) (by rintro (⟨x, h⟩ | ⟨id, h⟩) <;> cases h) nofun
      cases h
      exact hs.waits.stored _ (List.mem_of_getElem? hr)
    | completion hx =>
      have hmem := List.mem_of_getElem? hx
      refine hs'.handle hd nofun (fun _ => hs.closed (.inl (.inl (List.ne_nil_of_mem hmem)))) fun x h => ?_
      cases h
      exact hs.completed _ hmem
    | stopped hid =>
      refine hs'.handle hd nofun (fun _ => hs.closed (.inl (.inr (List.ne_nil_of_mem (List.mem_of_getElem? hid))))) nofun
  | deliver hi hd => exact .inr (.inl ⟨done, hs.rests (rests_batch ..)⟩)
  | @apply e rest hrun hr =>
    rcases ho with ho | ⟨first, ho⟩
    · rw [ho.released] at hr
      cases hr
    · have ht := hs.apply hc hwithin ho hr (ho.moves hf (.apply hrun hr)) hjoins fun hne => hrange hne e (hr ▸ rfl)
      exact ht.imp_right fun ht => ht.imp_right fun ht => ⟨first, ht⟩
  | insert hrun hr hb =>
    exact .inr (.inl ⟨done, hs.of_eq (hs.waits.insert hf ho hr hb) rfl rfl rfl rfl rfl rfl rfl⟩)
  | finish hrun hr hb =>
    obtain ⟨heq, -, -⟩ := hs.waits.finish
    rw [heq]
    exact ((hs.rests (rests_batch s none)).take_minor Engine.minor_done).imp_right fun h => .inl ⟨done, h⟩
  | execute hq => exact .inr (.inl ⟨done, hs.execute hq⟩)
  | transfer hn => exact .inr (.inl (hs.transfer hn))
  | wait ms => exact .inr (.inl ⟨done, hs.rests (rests_advance s ms)⟩)
  | register ha => exact .inr (.inl ⟨done, hs.rests (rests_register ..)⟩)

end Site
end ReplicaGroup
