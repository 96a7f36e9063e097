import Mathlib.Data.List.Forall2
import ReplicaGroup.Proofs.Engine.Course

/-! # What has been handed to storage

A serving replica hands a write to storage when it applies it. One that catches up hands the writes to storage that
it has missed when it applies its marker, in one replay. So whoever serves has handed every write to storage that the
state it has received does not contain, and whoever waits has nothing to prune. -/

namespace ReplicaGroup

/-- The requests that a request stands for: a replay stands for those that it contains. -/
def Request.parts : Request → List Request
  | .snapshot _ requests => requests
  | r => [r]

/-- The requests that effects hand to storage, with those inside of replays, in this order. -/
def queued (done : List Effect) : List Request := (done.filterMap Effect.request?).flatMap Request.parts

theorem queued_append (done next : List Effect) : queued (done ++ next) = queued done ++ queued next := by
  rw [queued, List.filterMap_append, List.flatMap_append]
  rfl

/-- The decisions that are delivered, in this order. -/
def delivered (told : List (Host × Event)) : List Decision :=
  told.flatMap fun t =>
    match t.2 with
    | .decide ds => ds
    | _ => []

/-- The value of a position that is delivered first. -/
def deliveredAt? (told : List (Host × Event)) (p : Position) : Option Value :=
  ((delivered told).find? fun d => d.position = p).map (·.value)

/-- Whether a request writes what a value says, in some version. -/
def Value.IsWrittenBy (v : Value) (r : Request) : Prop := ∃ op version, v = .op op ∧ r = op.request version

/-- The writes that are decided at `n` positions from `first` on, and that a state up to some position does not
    contain. -/
def Decided.writes (D : Decided) (first : Position) (n : Nat) (contained? : Option Position) : List (Position × Value) :=
  (D.segment first n).filter fun e => e.2.isWrite && contained?.all (· < e.1)

/-- Whether every one of these writes has been handed to storage, in order. -/
def Covers (D : Decided) (first : Position) (n : Nat) (contained? : Option Position) (done : List Effect) : Prop :=
  ∃ asked, asked.Sublist (queued done) ∧ List.Forall₂ (fun e r => e.2.IsWrittenBy r) (D.writes first n contained?) asked

namespace Covers
variable {D : Decided} {first : Position} {n : Nat} {contained? : Option Position} {done : List Effect}

theorem append (hc : Covers D first n contained? done) (next : List Effect) :
    Covers D first n contained? (done ++ next) := by
  obtain ⟨asked, hsub, hall⟩ := hc
  exact ⟨asked, queued_append done next ▸ hsub.trans (List.sublist_append_left ..), hall⟩

theorem zero : Covers D first 0 contained? done := ⟨[], List.nil_sublist _, .nil⟩

theorem writes_succ : D.writes first (n + 1) contained? = D.writes first n contained? ++
    if (D (first + n)).isWrite && contained?.all (· < first + n) then [(first + n, D (first + n))] else [] := by
  have hlast : D.segment (first + n) 1 = [(first + n, D (first + n))] := rfl
  rw [Decided.writes, ← Decided.segment_append, List.filter_append, hlast, List.filter_singleton, cond_eq_ite]
  rfl

/-- A value that writes nothing needs no request. -/
theorem skip (hc : Covers D first n contained? done) (hv : (D (first + n)).isWrite = false) :
    Covers D first (n + 1) contained? done := by
  obtain ⟨asked, hsub, hall⟩ := hc
  refine ⟨asked, hsub, ?_⟩
  rw [writes_succ, hv]
  simpa using hall

/-- The request for a write that is applied covers it. -/
theorem write (hc : Covers D first n contained? done) {r : Request} {told : List Effect}
    (hr : (D (first + n)).IsWrittenBy r) (hparts : r.parts = [r]) :
    Covers D first (n + 1) contained? (done ++ .request r :: told) := by
  obtain ⟨asked, hsub, hall⟩ := hc
  have hqueued : queued (done ++ .request r :: told) = queued done ++ r :: queued told := by
    rw [queued_append]
    show queued done ++ (r.parts ++ queued told) = _
    rw [hparts]
    rfl
  rw [Covers, hqueued, writes_succ]
  split
  · refine ⟨asked ++ [r], hsub.append (List.singleton_sublist.mpr (.head _)), List.rel_append hall (.cons hr .nil)⟩
  · exact ⟨asked, hsub.trans (List.sublist_append_left ..), by simpa using hall⟩

end Covers

theorem Operation.parts_request (op : Operation) (version : Version) :
    (op.request version).parts = [op.request version] := by
  unfold request
  split <;> rfl

namespace Engine
variable {e : Engine} {h : Host} {p : Position} {v : Value}

/-! ### What has been handed to storage -/

/-- Where a serving replica has its data from: it has been there from the beginning, or it has received a state, and its
    marker was applied and the replay handed to storage. -/
def Came (D : Decided) (Known : Syncing → Prop) (founder : Bool) (done : List Effect) : Option Syncing → Prop
  | none => founder = true
  | some sync => Known sync ∧ ∃ m requests, D m = .syncedUp sync.marker ∧ .request (.snapshot m requests) ∈ done

/-- What is known of an engine that has applied everything from `first` on, up to `p`, with the log recording everything
    up to `stop`, and has done `done` so far. While it waits it has pruned nothing; when it serves, every write has
    been handed to storage that the received state does not contain. `Known` says what is known of a marker that is
    waited for. -/
inductive Tracks (D : Decided) (Known : Syncing → Prop) (founder : Bool) (first p stop : Position) (done : List Effect)
    (e : Engine) : Prop
  | waits (mode : e.mode.isServing = false) (syncing : e.syncing?.isSome → e.mode = .catchingUp)
    (lastSnapshot : e.lastSnapshot = 0)
    (known : ∀ sync, e.syncing? = some sync → Known sync)
    (log : e.log.entries.entries = D.segment first (stop - first))
    (silent : ∀ x ∈ done, ∀ q requests, x ≠ .request (.snapshot q requests))
  | serves (mode : e.mode.isServing = true) (settled : e.syncing? = none)
    (lastSnapshot : e.lastSnapshot < p ∨ e.lastSnapshot = 0)
    (replayed : ∀ q requests, .request (.snapshot q requests) ∈ done → q < p)
    (sync? : Option Syncing) (came : Came D Known founder done sync?)
    (covers : Covers D first (p - first) (sync?.map (·.snapshot)) done)

section Tracks
variable {D : Decided} {Known : Syncing → Prop} {founder : Bool} {first p stop : Nat} {done : List Effect} {s : Step}

theorem Came.append {sync? : Option Syncing} (hc : Came D Known founder done sync?) (next : List Effect) :
    Came D Known founder (done ++ next) sync? := by
  cases sync? with
  | none => exact hc
  | some sync =>
    obtain ⟨hk, m, requests, hm, hmem⟩ := hc
    exact ⟨hk, m, requests, hm, List.mem_append_left _ hmem⟩

/-- The writes behind a snapshot, and what is captured of the operations behind it. -/
theorem forall₂_captured (snapshot : Position) (version : Version) (l : List (Position × Value)) :
    List.Forall₂ (fun x r => x.2.IsWrittenBy r) (l.filter fun x => x.2.isWrite && (some snapshot).all (· < x.1))
      (((l.filter fun x => snapshot < x.1).filterMap OperationsLog.operationAt?).filterMap fun x =>
        (Rule.find? .active x.2.kind).bind fun rule => rule.capture? x.2 version) := by
  induction l with
  | nil => exact .nil
  | cons x l ih =>
    obtain ⟨p, v⟩ := x
    by_cases hp : snapshot < p
    · have hbehind : ((p, v) :: l).filter (fun x => snapshot < x.1) = (p, v) :: l.filter fun x => snapshot < x.1 :=
        List.filter_cons_of_pos (by simpa using hp)
      rw [hbehind]
      cases v with
      | op op =>
        have hcapture : ((Rule.find? .active op.kind).bind fun rule => rule.capture? op version) =
            if (Value.op op).isWrite then some (op.request version) else none := by
          rw [Rule.find?_of_isServing rfl]
          rfl
        show List.Forall₂ _ _ (List.filterMap _ ((p, op) :: _))
        rw [List.filterMap_cons, hcapture]
        cases hw : (Value.op op).isWrite with
        | true =>
          rw [List.filter_cons_of_pos (by simpa [hw] using hp)]
          exact .cons ⟨op, version, rfl, rfl⟩ ih
        | false =>
          rw [List.filter_cons_of_neg (by simp [hw])]
          exact ih
      | reconfigure | scan | syncedUp | noop | unknown =>
        rw [List.filter_cons_of_neg (by simp [Value.isWrite])]
        exact ih
    · rw [List.filter_cons_of_neg (by simp [hp]), List.filter_cons_of_neg (by simpa using hp)]
      exact ih

/-- What is replayed are the writes that are decided between the snapshot and the marker. -/
theorem forall₂_replay (hlog : e.log.entries.entries = D.segment first (stop - first)) (hfirst : first ≤ p)
    (hstop : p ≤ stop) (snapshot : Position) :
    List.Forall₂ (fun x r => x.2.IsWrittenBy r) (D.writes first (p - first) (some snapshot)) (e.replay snapshot p) := by
  have hat : first + (p - first) = p := Nat.add_sub_cancel' hfirst
  have hsplit := @Decided.segment_append D first (p - first) (stop - p)
  rw [hat, show p - first + (stop - p) = stop - first by omega, ← hlog] at hsplit
  -- What is recorded from the marker on does not show.
  let base : OperationsLog := { e.log with entries := ⟨D.segment first (p - first), Decided.segment_ordered _⟩ }
  have hread : (e.log.operationsAfter snapshot).takeWhile (fun x => x.1 < p) =
      (base.operationsAfter snapshot).takeWhile fun x => x.1 < p :=
    OperationsLog.takeWhile_operationsAfter hsplit.symm (fun x hx => (Decided.mem_segment.mp hx).1) snapshot
  have hall : (base.operationsAfter snapshot).takeWhile (fun x => x.1 < p) = base.operationsAfter snapshot := by
    refine List.takeWhile_eq_self_iff.mpr fun x hx => decide_eq_true ?_
    have hlt := (Decided.mem_segment.mp (OperationsLog.mem_operationsAfter_iff.mp hx).2).2.1
    exact Nat.lt_of_lt_of_le hlt (Nat.le_of_eq hat)
  rw [replay, hread, hall, OperationsLog.operationsAfter_eq]
  exact forall₂_captured snapshot e.version (D.segment first (p - first))

/-- The replay hands every write to storage that is decided between the snapshot and the marker. -/
theorem covers_replay (hlog : e.log.entries.entries = D.segment first (stop - first)) (hfirst : first ≤ p)
    (hstop : p < stop) (hp : (D p).isWrite = false) (snapshot : Position) (done told : List Effect) :
    Covers D first (p + 1 - first) (some snapshot)
      (done ++ .request (.snapshot p (e.replay snapshot p)) :: told) := by
  have hat : first + (p - first) = p := Nat.add_sub_cancel' hfirst
  have hreplay := forall₂_replay hlog hfirst (Nat.le_of_lt hstop) snapshot
  have hsub : (e.replay snapshot p).Sublist
      (queued (done ++ .request (.snapshot p (e.replay snapshot p)) :: told)) := by
    rw [queued_append]
    exact (List.sublist_append_left _ _).trans (List.sublist_append_right _ _)
  rw [Nat.succ_sub hfirst]
  exact Covers.skip ⟨_, hsub, hreplay⟩ (by rwa [hat])

/-- Replays that were asked for before a position are so still, when no other one is asked for. -/
theorem lt_of_replay {next : List Effect} (hdone : ∀ q requests, .request (.snapshot q requests) ∈ done → q < p)
    (hnext : ∀ x ∈ next, ∀ q requests, x ≠ .request (.snapshot q requests)) (q : Position) (requests : List Request)
    (hmem : .request (.snapshot q requests) ∈ done ++ next) : q < p + 1 := by
  rcases List.mem_append.mp hmem with hmem | hmem
  · exact Nat.lt_succ_of_lt (hdone q requests hmem)
  · exact absurd rfl (hnext _ hmem q requests)

/-- A value that is applied keeps it all true, up to the next position. -/
theorem Tracks.apply (ht : Tracks D Known founder first p stop done e) (ha : Applied p e (D p) s)
    (hlog : s.engine.log = e.log) (hfirst : first ≤ p) (hstop : p < stop)
    (hknown : ∀ sync, Known sync → ∀ m, D m = .syncedUp sync.marker → sync.snapshot < m) :
    Tracks D Known founder first (p + 1) stop (done ++ s.effects) s.engine := by
  have hn : p + 1 - first = p - first + 1 := Nat.succ_sub hfirst
  have hat : first + (p - first) = p := Nat.add_sub_cancel' hfirst
  cases ht with
  | waits mode syncing lastSnapshot known log silent =>
    generalize hv : D p = v at ha
    cases ha with
    | passes isServing catchingUp syncing' lastSnapshot' hw hx =>
      refine .waits (isServing.trans mode) (fun hs => catchingUp (syncing (syncing' ▸ hs)))
        (lastSnapshot'.trans lastSnapshot) (fun sync hs => known sync (syncing' ▸ hs)) (hlog ▸ log) ?_
      intro x hmem
      exact (List.mem_append.mp hmem).elim (silent x) (hx x)
    | captures hm => cases mode.symm.trans hm
    | @settles sync s version hs he hx =>
      -- The marker is decided after the snapshot, so what is replayed lies between the two.
      have hlt := hknown sync (known sync hs) p hv
      rw [he, hx]
      refine .serves rfl rfl (.inl (Nat.lt_succ_of_lt hlt)) ?_ (some sync)
        ⟨known sync hs, p, _, hv, List.mem_append_right _ (.head _)⟩
        (covers_replay (e := { e with version }) log hfirst hstop (by rw [hv]; rfl) _ _ _)
      intro q requests hmem
      rcases List.mem_append.mp hmem with hmem | hmem
      · exact absurd rfl (silent _ hmem q requests)
      · obtain ⟨rfl, -⟩ : q = p ∧ _ := by simpa using hmem
        exact Nat.lt_succ_self q
  | serves mode settled lastSnapshot replayed sync? came covers =>
    generalize hv : D p = v at ha
    cases ha with
    | passes isServing catchingUp syncing lastSnapshot' hw hx =>
      refine .serves (isServing.trans mode) (syncing.trans settled)
        (lastSnapshot'.symm ▸ lastSnapshot.imp_left Nat.lt_succ_of_lt) (lt_of_replay replayed hx) sync? (came.append _) ?_
      rw [hn]
      exact (covers.skip (by rw [hat, hv]; exact hw mode)).append _
    | @captures op s told hm hw he hx htold =>
      rw [he, hx]
      refine .serves mode settled (.inl (Nat.lt_succ_self p)) (lt_of_replay replayed ?_) sync? (came.append _) ?_
      · intro x hmem q requests heq
        rcases List.mem_cons.mp hmem with hreq | hmem
        · rw [heq] at hreq
          injection hreq with hreq
          exact op.request_ne_snapshot e.version q requests hreq.symm
        · have hnone := htold x hmem
          rw [heq] at hnone
          cases hnone
      · rw [hn]
        exact covers.write (by rw [hat, hv]; exact ⟨op, e.version, rfl, rfl⟩) (op.parts_request e.version)
    | settles hs => cases settled.symm.trans hs

theorem Tracks.applyAll (ht : Tracks D Known founder first p stop done e) (hfirst : first ≤ p) (hstop : p ≤ stop)
    (hknown : ∀ sync, Known sync → ∀ m, D m = .syncedUp sync.marker → sync.snapshot < m)
    (hf : (applyAll h (D.segment p (stop - p)) e).fault? = none) :
    Tracks D Known founder first stop stop (done ++ (applyAll h (D.segment p (stop - p)) e).effects)
      (applyAll h (D.segment p (stop - p)) e).engine := by
  let Stays (done : List Effect) (later : List (Position × Value)) (e : Engine) : Prop :=
    ∃ q, first ≤ q ∧ q ≤ stop ∧ later = D.segment q (stop - q) ∧ Tracks D Known founder first q stop done e
  have hstays : Stays (done ++ (Engine.applyAll h (D.segment p (stop - p)) e).effects) []
      (Engine.applyAll h (D.segment p (stop - p)) e).engine := by
    refine applyAll_induction (I := Stays) done hf ⟨p, hfirst, hstop, rfl, ht⟩ ?_
    rintro done x later e s ha hlog - ⟨q, hfirst, hq, hlater, ht⟩
    obtain ⟨k, hk⟩ : ∃ k, stop - q = k + 1 := by
      refine Nat.exists_eq_succ_of_ne_zero fun hzero => ?_
      rw [hzero] at hlater
      cases hlater
    rw [hk, Decided.segment_succ] at hlater
    cases hlater
    have hlt : q < stop := by omega
    refine ⟨q + 1, Nat.le_succ_of_le hfirst, hlt, ?_, ht.apply ha hlog hfirst hlt hknown⟩
    rw [show stop - (q + 1) = k by omega]
  obtain ⟨q, -, hq, hnil, ht⟩ := hstays
  have hlen := congrArg List.length hnil
  rw [List.length_nil, Decided.length_segment] at hlen
  obtain rfl : q = stop := Nat.le_antisymm hq (Nat.sub_eq_zero_iff_le.mp hlen.symm)
  exact ht

theorem Tracks.quiet (ht : Tracks D Known founder first p stop done e) {next : List Effect}
    (hx : ∀ x ∈ next, x.request? = none) : Tracks D Known founder first p stop (done ++ next) e := by
  have hnext : ∀ r, .request r ∉ next := fun r hmem => by cases hx _ hmem
  cases ht with
  | waits mode syncing lastSnapshot known log silent =>
    refine .waits mode syncing lastSnapshot known log fun x hmem q requests heq => ?_
    exact (List.mem_append.mp hmem).elim (fun hmem => silent x hmem q requests heq) fun hmem => hnext _ (heq ▸ hmem)
  | serves mode settled lastSnapshot replayed sync? came covers =>
    refine .serves mode settled lastSnapshot (fun q requests hmem => ?_) sync? (came.append _) (covers.append _)
    exact (List.mem_append.mp hmem).elim (replayed q requests) fun hmem => absurd hmem (hnext _)

theorem Tracks.mono {Known' : Syncing → Prop} (ht : Tracks D Known founder first p stop done e)
    (hk : ∀ sync, Known sync → Known' sync) : Tracks D Known' founder first p stop done e := by
  cases ht with
  | waits mode syncing lastSnapshot known log silent =>
    exact .waits mode syncing lastSnapshot (fun sync hs => hk sync (known sync hs)) log silent
  | serves mode settled lastSnapshot replayed sync? came covers =>
    refine .serves mode settled lastSnapshot replayed sync? ?_ covers
    cases sync? with
    | none => exact came
    | some sync => exact ⟨hk sync came.1, came.2⟩

/-- A batch is in the log before its values are applied. -/
theorem Tracks.relog (ht : Tracks D Known founder first p p done e) {log : OperationsLog} (pruned : Position)
    (hlog : log.entries.entries = e.log.entries.entries ++ D.segment p (stop - p)) (hfirst : first ≤ p)
    (hstop : p ≤ stop) :
    Tracks D Known founder first p stop done (e.relog log pruned) := by
  cases ht with
  | waits mode syncing lastSnapshot known log' silent =>
    refine .waits mode syncing lastSnapshot known ?_ silent
    have hsplit := @Decided.segment_append D first (p - first) (stop - p)
    rw [Nat.add_sub_cancel' hfirst, show p - first + (stop - p) = stop - first by omega] at hsplit
    exact hlog.trans ((congrArg (· ++ _) log').trans hsplit)
  | serves mode settled lastSnapshot replayed sync? came covers =>
    exact .serves mode settled lastSnapshot replayed sync? came covers

/-- While an engine waits, there is nothing to prune. -/
theorem Tracks.trimmed (ht : Tracks D Known founder first p stop done e) :
    Tracks D Known founder first p stop done e.trimmed := by
  rcases Nat.lt_or_ge e.pruned e.lastSnapshot with hlt | hle
  · rw [trimmed_of_lt hlt]
    cases ht with
    | waits mode syncing lastSnapshot => exact absurd (lastSnapshot ▸ hlt) (Nat.not_lt_zero _)
    | serves mode settled lastSnapshot replayed sync? came covers =>
      exact .serves mode settled lastSnapshot replayed sync? came covers
  · rwa [trimmed_of_le hle]

/-- Storage reports a replay that it was asked for, so the engine serves. -/
theorem Tracks.snapshot (ht : Tracks D Known founder first p stop done e) {q : Position} {requests : List Request}
    (hq : .request (.snapshot q requests) ∈ done) :
    Tracks D Known founder first p stop done { e with lastSnapshot := max e.lastSnapshot q } := by
  cases ht with
  | waits mode syncing lastSnapshot known log silent => exact absurd rfl (silent _ hq q requests)
  | serves mode settled lastSnapshot replayed sync? came covers =>
    refine .serves mode settled (.inl ?_) replayed sync? came covers
    have hlt := replayed q requests hq
    exact Nat.max_lt.mpr ⟨lastSnapshot.elim id fun hzero => hzero ▸ Nat.zero_lt_of_lt hlt, hlt⟩

theorem Tracks.calm {e' : Engine} {event : Event} (ht : Tracks D Known founder first p stop done e)
    (hc : e.Calm event e') (hk : e.Kept e') (hknown : ∀ sync, e'.syncing? = some sync → Known sync) :
    Tracks D Known founder first p stop done e' := by
  cases ht with
  | waits mode syncing lastSnapshot known log silent =>
    refine .waits (hk.isServing.trans mode) (fun hs => ?_) (hc.lastSnapshot.trans lastSnapshot) hknown (hc.log ▸ log) silent
    by_cases hm : e.mode = .catchingUp
    · exact hk.catchingUp_iff.mpr hm
    · exact hk.catchingUp_iff.mpr (syncing (hk.syncing hm ▸ hs))
  | serves mode settled lastSnapshot replayed sync? came covers =>
    have hm : e.mode ≠ .catchingUp := fun hm => by rw [hm] at mode; cases mode
    exact .serves (hk.isServing.trans mode) ((hk.syncing hm).trans settled) (hc.lastSnapshot ▸ lastSnapshot) replayed sync?
      came covers

end Tracks
end Engine
end ReplicaGroup
