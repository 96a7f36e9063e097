import Mathlib.Data.List.Infix
import ReplicaGroup.Proofs.Pair.Ferries

/-! # A joining replica converges with its sender

A joiner that starts with nothing has heard nothing of a transfer until its sender comes to the view change. If
it takes the announcement then, and serves at last, its values in the range are the sender's as of the same
position, and both answer alike. -/

namespace ReplicaGroup

/-! ### Before the transfer -/

/-- A transfer receives one cargo only. -/
theorem Transfer.isDeaf_of_receives {c c' : Cargo} {t : Transfer} {coming : List Message} {done : Entries}
    (hne : c.announced ≠ c'.announced) (h : t.Receives c coming done)
    (h' : t.Awaits c' ∨ ∃ coming done, t.Receives c' coming done) : t.stage.IsDeaf c.id := by
  unfold Receives at h h'
  cases hs : t.stage with
  | created errand => rw [hs] at h; cases h
  | reported | stopped => trivial
  | running run deadline =>
    rw [hs] at h h'
    cases run with
    | sender s => cases h
    | receiver s =>
      obtain ⟨quota, phase⟩ := s
      rcases h' with h' | ⟨coming', done', h'⟩
      · rcases h'.stage with hstage | ⟨quota', deadline', hstage⟩
        · cases hs.symm.trans hstage
        · cases hs.symm.trans hstage
          cases h
      · cases phase with
        | opening => cases h
        | receiving reception | writing reception last =>
          obtain ⟨⟨granted, rfl⟩, -⟩ := h
          obtain ⟨⟨granted', hreception⟩, -⟩ := h'
          exact absurd (congrArg Reception.announced hreception) hne

namespace Site
variable {c : Cargo} {o : Outside} {s t : Site}

/-- A site that has heard nothing under the identifier of a cargo: it awaits the cargo, whichever view change it
    belongs to. -/
def Unaware (c : Cargo) (s : Site) : Prop := ∀ p, s.Awaits { c with snapshot := p }

theorem Unaware.moves (hfits : c.entries.Fit) (hs : s.Unaware c) (hf : s.Fed o.decided)
    (ho : s.Fresh ∨ ∃ first, s.Follows o.decided [] first) (htells : ∀ m, o.tells (.message m) → m.id ≠ c.id)
    (hm : Moves o s t) : t.Dead ∨ t.Deaf c ∨ t.Unaware c := by
  by_cases hdead : t.Dead
  · exact .inl hdead
  by_cases hdeaf : t.Deaf c
  · exact .inr (.inl hdeaf)
  -- What is left is to await the cargo of each view change, or to receive it.
  have hcases : ∀ p, t.Awaits { c with snapshot := p } ∨
      ∃ coming, t.Receives { c with snapshot := p } coming [] := fun p => by
    rcases (hs p).moves hf ho (fun m hm hid => absurd hid (htells m hm)) hm with h | h | ⟨h, -⟩ | h
    · exact absurd h hdead
    · exact absurd ⟨h.joined, h.transfers⟩ hdeaf
    · exact .inl h
    · exact .inr ⟨_, h _ (Cargo.completes_chunks hfits default)⟩
  refine .inr (.inr fun p => (hcases p).resolve_right ?_)
  rintro ⟨coming, hp⟩
  refine hdeaf ⟨by rw [hp.joined]; nofun, fun u hu => ?_⟩
  have hne : Cargo.announced { c with snapshot := p } ≠ Cargo.announced { c with snapshot := p + 1 } := fun h =>
    absurd (Option.some.inj (congrArg (fun a => a.metadata.snapshot?) h)) (Nat.ne_of_lt (Nat.lt_succ_self p))
  refine Transfer.isDeaf_of_receives (c := { c with snapshot := p }) hne (hp.transfers u hu) ?_
  exact (hcases (p + 1)).imp (fun hq => (hq.transfers u hu).1) fun ⟨coming, hq⟩ => ⟨coming, [], hq.transfers u hu⟩

theorem unaware_fresh (addr : Addr) (config : Config) (draw : Nat → UInt64) (peers : Network Inbox) :
    (fresh addr config draw peers).Unaware c := fun p => by
  refine ⟨⟨rfl, rfl, rfl, rfl, rfl, rfl, ?_, ?_, Nat.zero_le 1⟩, rfl, rfl, rfl, rfl, fun _ => rfl, ?_, ?_⟩
  · rintro q ⟨⟩
  · rintro r ⟨⟩
  · rintro t ⟨⟩
  · rintro announced ⟨⟩

theorem chronicles_fresh (addr : Addr) (config : Config) (draw : Nat → UInt64) (peers : Network Inbox) (D : Decided)
    (range : KeyRange) : (fresh addr config draw peers).Chronicles D range where
  fed := by rintro ds ⟨⟩
  order := .inl ⟨rfl, rfl, rfl, rfl⟩
  range := by
    refine ⟨fun front a back h => ?_, fun a h => (by cases h), fun _ front a back h => ?_⟩
    · cases front <;> cases h
    · cases front <;> cases h

end Site

namespace Pair
variable {c : Cargo} {base : Table} {config : Config} {r : Reconfiguration} {D : Decided} {first : Position}
  {w w' : Pair} {acts : List Act}

/-- Nothing of a transfer is under way. -/
def Untouched (c : Cargo) (w : Pair) : Prop :=
  (∀ m ∈ w.sender.outbox c.recipient, m.id ≠ c.id) ∧ ∀ m ∈ w.joiner.outbox c.source, m.id ≠ c.id

/-- A pair whose joiner has heard nothing of a cargo. -/
structure Precedes (c : Cargo) (D : Decided) (w : Pair) : Prop where
  recipient : w.joiner.node.addr = c.recipient
  joiner : w.joiner.Chronicles D c.range
  unaware : w.joiner.Dead ∨ w.joiner.Deaf c ∨ w.joiner.Unaware c

theorem Precedes.react {o : Site.Outside} {t : Site} (hfits : c.entries.Fit) (hw : w.Precedes c o.decided)
    (htells : ∀ m, o.tells (.message m) → m.id ≠ c.id) (hm : Site.Moves o w.joiner t) (s : Site) :
    Precedes c o.decided ⟨s, t⟩ where
  recipient := hm.addr.trans hw.recipient
  joiner := hw.joiner.moves hm
  unaware := by
    rcases hw.unaware with h | h | h
    · exact .inl (h.moves hm)
    · exact .inr (.inl (h.moves hm))
    · exact h.moves hfits hw.joiner.fed hw.joiner.order htells hm

theorem Precedes.moves (hfits : c.entries.Fit) (hu : w.Untouched c) (hw : w.Precedes c D)
    (hm : Moves (outside c.id D) w w') : w'.Precedes c D := by
  cases hm with
  | sender hm => exact ⟨hw.recipient, hw.joiner, hw.unaware⟩
  | joiner hm => exact hw.react (o := outside c.id D) hfits (fun m h => h m rfl) hm _
  | @forth m rest hm hi =>
    refine hw.react (o := .only D m) hfits ?_ (Site.moves_told hi m D) _
    rintro m' ⟨⟩
    rw [hw.recipient] at hm
    exact hu.1 m (hm ▸ .head rest)
  | back hm hi =>
    refine ⟨hw.recipient, hw.joiner.shift _, ?_⟩
    refine hw.unaware.imp (fun h => ⟨h.running, h.serving⟩) (Or.imp (fun h => ⟨h.joined, h.transfers⟩) fun h p => ?_)
    exact (h p).rests (w.joiner.rests_shift _)

end Pair

/-! ### The transfer -/

namespace Site
variable {c : Cargo} {base : Table} {config : Config} {r : Reconfiguration} {D : Decided} {range : KeyRange}
  {first q n : Position} {s : Site}

/-- A serving site that has applied what is decided before a view change, and goes on with it: the view change
    starts the transfer of a cargo, which has the values in the range. -/
structure Departs (c : Cargo) (config : Config) (r : Reconfiguration) (D : Decided) (s : Site) : Prop where
  poised : s.Poised c s.flushed.newest config r
  follows : ∃ first, s.Follows D [] first
  fed : s.Fed D
  entries : c.entries = (s.flushed.newest.restrict c.range).entries

theorem Departs.decided (hs : s.Departs c config r D) : D c.snapshot = .reconfigure r := by
  obtain ⟨first, hfollows⟩ := hs.follows
  obtain ⟨rest, hr⟩ := hs.poised.released
  exact (hfollows.released (e := (c.snapshot, .reconfigure r)) (hr ▸ .head rest)).symm

theorem Departs.tracks (hs : s.Departs c config r D) :
    ∃ first, s.Tracks D c.range s.flushed.newest c.snapshot first := by
  obtain ⟨first, hfollows⟩ := hs.follows
  obtain ⟨rest, hr⟩ := hs.poised.released
  have hposition : c.snapshot = first + s.applied.length := congrArg Prod.fst (hfollows.next hr)
  refine ⟨first, hs.poised.serves, hfollows, Nat.le_of_eq hposition, ?_⟩
  rw [← hposition, Nat.sub_self]
  exact Table.AgreesOn.refl c.range _

theorem Departs.announces (hs : s.Departs c config r D) (hsent : ∀ m ∈ s.outbox c.recipient, m.id ≠ c.id) :
    s.Announces c s.flushed.newest config r (c.messages config) where
  supplies := .inl ⟨hs.poised, rfl⟩
  ungranted := hs.poised.ungranted
  sent m hm := by
    rw [sent, List.mem_filter, decide_eq_true_iff] at hm
    exact absurd hm.2 (hsent m hm.1)
  data := c.filter_messages config

/-- The position up to which a site has applied the decisions. -/
def position? (s : Site) : Option Position := s.applied.getLast?.map (·.position)

/-- What a site answers once everything queued is executed. -/
def answer? (s : Site) (op : Operation) : Option Answer :=
  op.acknowledgement?.or ((op.request s.node.engine.version).execute s.flushed).response.answer?

theorem Tracks.agrees_at (hs : s.Tracks D range base q first) (hn : s.position? = some n) : q ≤ n + 1 ∧
    Table.AgreesOn range s.flushed.newest (base.runAll (D.operations q (n + 1 - q))).1 := by
  obtain ⟨a, ha, rfl⟩ := Option.map_eq_some_iff.mp hn
  rw [hs.follows.last ha]
  exact ⟨hs.reached, hs.agrees⟩

theorem Serves.answer?_eq (hs : s.Serves) {op : Operation} (hop : op.IsPlain) :
    s.answer? op = some (s.flushed.newest.run op).2 := (op.execute_request hop hs.upTo).2.2

end Site

namespace Pair
variable {c : Cargo} {base : Table} {config : Config} {r : Reconfiguration} {D : Decided} {first : Position}
  {w w' : Pair} {acts : List Act}

theorem Precedes.ferries {w : Pair} (hw : w.Precedes c D) (hu : w.Untouched c) (hs : w.sender.Departs c config r D) :
    (∃ first, w.Grounded c w.sender.flushed.newest D first) ∧ w.Ferries c w.sender.flushed.newest config r D := by
  obtain ⟨first, htracks⟩ := hs.tracks
  refine ⟨⟨first, hs.poised.source, hw.recipient, htracks, hs.fed, hw.joiner⟩, ?_⟩
  rcases hw.unaware with h | h | h
  · exact .taken (.ended h)
  · exact .missed h
  · exact .announced (hs.announces hu.1) (h c.snapshot) hu.2

/-- A joiner that takes the announcement of the cargo is not lost to it. -/
theorem Ferries.taken_of_receiving (hf : w.Ferries c base config r D)
    (h : ∃ t ∈ w.joiner.node.background.transfers, t.stage.IsReceiving c.id) : w.Taken c base config r D := by
  obtain ⟨t, ht, hreceiving⟩ := h
  cases hf with
  | announced hs hawaits hback => exact absurd hreceiving (hawaits.not_receiving t ht)
  | missed hdeaf => exact absurd hreceiving (hdeaf.transfers t ht).not_receiving
  | taken h => exact h

theorem Taken.tracks (hf : w.Taken c base config r D) (hserving : w.joiner.node.engine.mode.isServing = true) :
    ∃ first, w.joiner.Tracks D c.range base (c.snapshot + 1) first := by
  cases hf with
  | ended ht => rw [ht.serving] at hserving; cases hserving
  | streams hs ht => rw [ht.waits.serving] at hserving; cases hserving
  | landed ht => exact ⟨_, ht⟩

theorem joins_of_run {o : Site.Outside} (h : w.run acts = some w') (ha : ∀ a ∈ acts, a.From o) {p : Position}
    (hjoins : w'.joiner.Joins p r) : w.joiner.Joins p r :=
  run_induction (P := fun u => u.joiner.Joins p r → w.joiner.Joins p r) (Q := fun _ => True) h ha
    (fun _ _ _ _ => trivial) id (fun _ _ _ hu hm hv => hu (hm.joins hv)) hjoins

/-- What holds of a grounded pair, and survives every move of one whose joiner joins with the view change, holds
    after any acts. -/
theorem Grounded.run {P : Pair → Prop} (hw : w.Grounded c base D first)
    (hwithin : ∀ p, c.snapshot ≤ p → (D p).IsWithin c.range) (h : w.run acts = some w')
    (ha : ∀ a ∈ acts, a.From (outside c.id D)) (hp : P w)
    (hm : ∀ u v, u.Grounded c base D first → P u → Moves (outside c.id D) u v → v.joiner.Joins c.snapshot r → P v) :
    w'.Grounded c base D first ∧ (w'.joiner.Joins c.snapshot r → P w') := by
  refine run_induction (P := fun u => u.Grounded c base D first ∧ (u.joiner.Joins c.snapshot r → P u))
    (Q := fun _ => True) h ha (fun _ _ _ _ => trivial) ⟨hw, fun _ => hp⟩ fun u v _ hu hmoves => ?_
  exact ⟨hu.1.moves (o := outside c.id D) hwithin hmoves, fun hv => hm u v hu.1 (hu.2 (hmoves.joins hv)) hmoves hv⟩

end Pair

/-- The view change that lets `b` join `a`, which gives up the keys before the range. -/
def joining : Reconfiguration := ⟨⟨1⟩, ⟨2, .ofList [.name "a", .name "b"]⟩, 2, 0, .closedOpen ⟨[1]⟩ ⟨[9]⟩⟩

/-- The view change, a put, a conditional write and the joiner's marker. -/
def joiningLog : Decided
  | 1 => .reconfigure joining
  | 2 => .op ⟨⟨100⟩, .put ⟨[2]⟩ [22]⟩
  | 3 => .op ⟨⟨200⟩, .multi ⟨[⟨⟨[1]⟩, some [11]⟩], .insert .empty ⟨[3]⟩ [33], .empty⟩⟩
  | 4 => .syncedUp ⟨1⟩
  | _ => .noop ⟨0⟩

/-- A sender that goes on with the view change, and sends one entry at a time. -/
def departing : Site where
  node := {
    addr := .name "a"
    config := { chunkEntries := 1 }
    draw := fun n => if n = 0 then 7 else 0
    peers := .insert .empty (.name "b") {}
    engine := { mode := .active, view := ⟨1, .ofList [.name "a"]⟩, log := { OperationsLog.empty with applied? := some 1 } }
    store := ((Store.empty.put ⟨[0]⟩ [10] 0).put ⟨[1]⟩ [11] 0).put ⟨[2]⟩ [12] 0 }
  batch? := some []
  released := [(1, .reconfigure joining)]

/-- What it sends to the joiner. -/
def departed : Cargo where
  id := ⟨7⟩
  source := .name "a"
  recipient := .name "b"
  range := joining.range
  snapshot := 1
  version := 1
  entries := [(⟨[1]⟩, [11]), (⟨[2]⟩, [12])]

theorem serves_departing : departing.Serves where
  serving := rfl
  settled := rfl
  storeOpen := rfl
  upTo := show Store.UpTo 0 (((Store.empty.put ⟨[0]⟩ [10] 0).put ⟨[1]⟩ [11] 0).put ⟨[2]⟩ [12] 0) from
    Store.upTo_empty.put.put.put
  reads := by rintro t ⟨⟩

theorem fits_departed : departed.Fits := by
  refine ⟨⟨?_, ⟨?_, ?_⟩, ?_⟩, ?_⟩
  · show "a".toByteArray.size < 2 ^ 64
    decide
  · show [1].length < 2 ^ 64
    decide
  · show [9].length < 2 ^ 64
    decide
  · rintro p ⟨⟩
    decide
  · show (Wire.encodeEntries departed.entries).length < 2 ^ 64
    decide

theorem poised_departing :
    departing.Poised departed departing.flushed.newest { chunkEntries := 1 } joining where
  serves := serves_departing
  released := ⟨[], rfl⟩
  view := by decide
  version := by decide
  range := rfl
  source := rfl
  config := rfl
  newest := rfl
  foreign := by rintro t ⟨⟩
  queue := by rintro t ⟨⟩
  incoming := by decide
  id := by
    refine ⟨0, by decide, fun n _ => ?_⟩
    by_cases hn : n = 0 <;> simp [departing, departed, hn]
  fits := fits_departed

theorem departs_departing : departing.Departs departed { chunkEntries := 1 } joining joiningLog where
  poised := poised_departing
  follows := ⟨1, fun e he => (by cases he), 0, rfl, rfl⟩
  fed := by rintro ds ⟨⟩ d ⟨⟩
  entries := by decide

theorem isWithin_joiningLog (p : Position) : (joiningLog p).IsWithin joining.range := by
  unfold joiningLog
  split
  · rfl
  · trivial
  · refine ⟨?_, ?_, ?_⟩ <;> decide
  · trivial
  · trivial

/-- The decisions of the log from one position to another. -/
def joiningBatch (first last : Position) : List Decision :=
  (List.range' first (last + 1 - first)).map fun p => ⟨p, joiningLog p⟩

/-- The joiner applies the view change before the sender. -/
def joinActs : List Pair.Act :=
  [.joiner (.deliver (joiningBatch 1 1)), .joiner .advance, .joiner .advance, .joiner .advance]

/-- The sender applies the view change and the put, and captures what was there before; the joiner takes the
    announcement. -/
def announceActs : List Pair.Act :=
  [.sender .advance, .sender .advance, .sender (.deliver (joiningBatch 2 3)), .sender .advance, .sender .advance,
    .joiner (.transfer ⟨0⟩), .sender (.transfer ⟨7⟩), .sender .execute, .sender .execute, .sender (.transfer ⟨7⟩),
    .forth, .joiner (.transfer ⟨0⟩)]

/-- The joiner receives two chunks, and replays the put and the conditional write. -/
def catchUpActs : List Pair.Act :=
  [.sender .advance, .sender .advance, .sender .advance, .back, .sender (.transfer ⟨7⟩), .forth,
    .joiner (.transfer ⟨0⟩), .joiner .execute, .joiner (.transfer ⟨0⟩), .forth, .joiner (.transfer ⟨0⟩),
    .joiner .execute, .joiner (.transfer ⟨0⟩), .joiner (.completion 0), .joiner (.deliver (joiningBatch 2 4)),
    .joiner .advance, .joiner .advance, .joiner .advance, .joiner .advance, .joiner .advance, .joiner .advance,
    .sender (.deliver (joiningBatch 4 4)), .sender .advance, .sender .advance]

/-- The sender at the view change, and a joiner that starts with nothing. -/
def joiningPair : Pair := ⟨departing, .fresh (.name "b") {} .ofNat (.insert .empty (.name "a") {})⟩

theorem from_joiningActs {a : Pair.Act}
    (h : a ∈ joinActs ∨ a ∈ announceActs ∨ a ∈ catchUpActs ∨ a ∈ announceActs ++ catchUpActs) :
    a.From (Pair.outside departed.id joiningLog) := by
  have hbatch : ∀ first last, ∀ d ∈ joiningBatch first last, d.value = joiningLog d.position := fun first last d hd => by
    obtain ⟨p, -, rfl⟩ := List.mem_map.mp hd
    rfl
  have hall : ∀ a ∈ joinActs ++ announceActs ++ catchUpActs, a.From (Pair.outside departed.id joiningLog) := by
    simp only [joinActs, announceActs, catchUpActs, List.cons_append, List.nil_append, List.forall_mem_cons,
      Pair.Act.From, Site.Act.From, Pair.outside]
    simpa using ⟨hbatch 1 1, hbatch 2 3, hbatch 2 4, hbatch 4 4⟩
  refine hall a ?_
  simp only [List.mem_append] at h ⊢
  tauto

end ReplicaGroup
