import ReplicaGroup.Proofs.Engine.Pruning
import ReplicaGroup.Proofs.Engine.Turns

/-! # The modes of an engine

An engine waits for a view, then catches up, then serves, or it serves from the beginning. Its mode tells which
transfers it has, whether it holds an announcement, and whether it waits for a marker. -/

namespace ReplicaGroup

/-- How far a replica has come: it waits for a view, it catches up, or it serves. -/
def Mode.stage : Mode → Nat
  | passive => 0
  | catchingUp => 1
  | transferring | active => 2

theorem Mode.stage_of_isServing {mode : Mode} (h : mode.isServing = true) : mode.stage = 2 := by
  cases mode <;> first | rfl | cases h

theorem Mode.eq_passive_of_stage_le {mode mode' : Mode} (h : mode.stage ≤ mode'.stage) (hm : mode' = .passive) :
    mode = .passive := by
  subst hm
  cases mode <;> first | rfl | cases h

theorem Mode.isServing_of_stage_le {mode mode' : Mode} (h : mode.stage ≤ mode'.stage) (hm : mode.isServing = true) :
    mode'.isServing = true := by
  cases mode' with
  | active | transferring => rfl
  | passive | catchingUp =>
    rw [stage_of_isServing hm] at h
    exact absurd h (by decide)

namespace Engine
variable {e e' : Engine} {h : Host} {p : Position} {v : Value} {s : Step} {event : Event}

/-! ### The bookkeeping -/

/-- Whether the bookkeeping of an engine agrees with its mode. -/
structure Coherent (e : Engine) : Prop where
  transferring : e.mode = .transferring ↔ e.outgoing ≠ []
  syncing : e.syncing?.isSome → e.mode = .catchingUp
  held : e.held?.isSome → e.mode = .passive
  passive : e.mode = .passive → e.view.number = 0 ∧ e.version = 0 ∧ e.outgoing = [] ∧ e.incoming? = none

theorem Coherent.outgoing_eq_nil (hc : e.Coherent) (hm : e.mode ≠ .transferring) : e.outgoing = [] :=
  Decidable.byContradiction fun h => hm (hc.transferring.mpr h)

theorem Coherent.syncing_eq_none (hc : e.Coherent) (hm : e.mode ≠ .catchingUp) : e.syncing? = none :=
  Option.not_isSome_iff_eq_none.mp fun h => hm (hc.syncing h)

theorem Coherent.held_eq_none (hc : e.Coherent) (hm : e.mode ≠ .passive) : e.held? = none :=
  Option.not_isSome_iff_eq_none.mp fun h => hm (hc.held h)

theorem Coherent.quiet (hc : e.Coherent) (k : e.Quiet e') : e'.Coherent := by
  obtain ⟨drawn, lastSnapshot, pruned, log, rfl⟩ := k
  exact ⟨hc.transferring, hc.syncing, hc.held, hc.passive⟩

theorem coherent_new : Coherent {} :=
  ⟨iff_of_false (by decide) fun h => h rfl, fun h => absurd h Bool.false_ne_true,
    fun h => absurd h Bool.false_ne_true, fun _ => ⟨rfl, rfl, rfl, rfl⟩⟩

theorem coherent_bootstrap (h : Host) (change : ViewChange) : (bootstrap h change {}).engine.Coherent := by
  have hserving : Coherent
      { view := change.view, quorum := change.quorum, range := change.range, version := 1, mode := .active } :=
    ⟨iff_of_false nofun fun h => h rfl, fun h => absurd h Bool.false_ne_true, fun h => absurd h Bool.false_ne_true, nofun⟩
  exact (all_emit (P := fun _ => True) hserving trivial).1

/-- An engine that stops transferring without any transfer has nothing else in its books. -/
theorem coherent_finishTransferring (hm : e.mode = .transferring) (hs : e.syncing? = none) (hh : e.held? = none) :
    e.finishTransferring.Coherent := by
  unfold finishTransferring
  split
  · next h =>
    refine ⟨iff_of_false nofun fun hne => hne h.2, ?_, ?_, nofun⟩
    · rw [hs]
      exact nofun
    · rw [hh]
      exact nofun
  · next h =>
    refine ⟨iff_of_true hm fun hnil => h ⟨hm, hnil⟩, ?_, ?_, ?_⟩
    · rw [hs]
      exact nofun
    · rw [hh]
      exact nofun
    · rw [hm]
      exact nofun

theorem stage_finishTransferring (e : Engine) : e.finishTransferring.mode.stage = e.mode.stage := by
  unfold finishTransferring
  split
  · next h => rw [h.1]; rfl
  · rfl

/-- A decided value keeps the books in order. -/
theorem Coherent.turn (hc : e.Coherent) (ht : Turns h p e v s) : s.engine.Coherent := by
  cases ht with
  | stays he hx hn hs =>
    rw [he]
    exact ⟨hc.transferring, hc.syncing, hc.held, hc.passive⟩
  | joins hm hn hv =>
    refine ⟨iff_of_false nofun fun hne => hne (hc.passive hm).2.2.1, fun _ => rfl, nofun, nofun⟩
  | follows hm hn hv => exact ⟨hc.transferring, hc.syncing, hc.held, fun h => absurd (hm.symm.trans h) nofun⟩
  | moves hm hn hv hsent =>
    refine coherent_finishTransferring rfl (hc.syncing_eq_none ?_) (hc.held_eq_none ?_)
    · intro heq
      rw [heq] at hm
      cases hm
    · intro heq
      rw [heq] at hm
      cases hm
  | settles hs hv he hx =>
    have hm : e.mode = .catchingUp := hc.syncing (by rw [hs]; rfl)
    rw [he]
    refine ⟨iff_of_false nofun fun hne => hne (hc.outgoing_eq_nil ?_), nofun, ?_, nofun⟩
    · rw [hm]
      exact nofun
    · rw [hc.held_eq_none (by rw [hm]; exact nofun)]
      exact nofun

/-- So does any other event. -/
theorem Coherent.react (hc : e.Coherent) (hr : Reacts h e event s) : s.engine.Coherent := by
  cases hr with
  | quiet he => exact hc.quiet he
  | holds hm => exact ⟨hc.transferring, hc.syncing, fun _ => hm, hc.passive⟩
  | marks hm hrole hin hcompleted he hx =>
    rw [he]
    exact ⟨hc.transferring, fun _ => hm, hc.held, hc.passive⟩
  | sent hid =>
    have hm : e.mode = .transferring := hc.transferring.mpr (List.ne_nil_of_mem hid)
    exact coherent_finishTransferring hm (hc.syncing_eq_none (by rw [hm]; exact nofun))
      (hc.held_eq_none (by rw [hm]; exact nofun))
  | received hid => exact ⟨hc.transferring, hc.syncing, hc.held, fun hm => ⟨(hc.passive hm).1, (hc.passive hm).2.1,
      (hc.passive hm).2.2.1, rfl⟩⟩

/-! ### The stages -/

/-- A decided value takes an engine at most further. -/
theorem Turns.stage_le (hc : e.Coherent) (ht : Turns h p e v s) : e.mode.stage ≤ s.engine.mode.stage := by
  cases ht with
  | stays he hx hn hs => rw [he]
  | joins hm hn hv => exact hm ▸ Nat.zero_le 1
  | follows hm hn hv => exact Nat.le_refl _
  | moves hm hn hv hsent =>
    rw [stage_finishTransferring, Mode.stage_of_isServing hm]
    exact Nat.le_refl 2
  | settles hs hv he hx =>
    rw [he, hc.syncing (by rw [hs]; rfl)]
    exact Nat.le_succ 1

theorem Reacts.stage_eq (hr : Reacts h e event s) : s.engine.mode.stage = e.mode.stage := by
  cases hr with
  | quiet he => rw [he.mode]
  | holds | received => rfl
  | marks hm hrole hin hcompleted he hx => rw [he]
  | sent hid => exact stage_finishTransferring _

/-- A replica that does not serve goes on so, unless the value is the marker that it waits for. -/
theorem Turns.of_waiting (hm : e.mode.isServing = false) (ht : Turns h p e v s) :
    s.engine.mode.isServing = false ∧ s.engine.syncing? = e.syncing? ∧
        (∀ sync, e.syncing? = some sync → v ≠ .syncedUp sync.marker) ∨
      s.engine.mode.isServing = true ∧ ∃ sync, e.syncing? = some sync ∧ v = .syncedUp sync.marker := by
  cases ht with
  | stays he hx hn hs =>
    rw [he]
    exact .inl ⟨hm, rfl, hs⟩
  | joins hpassive hn hv => exact .inl ⟨rfl, rfl, nofun⟩
  | follows _ hn hv => exact .inl ⟨hm, rfl, nofun⟩
  | moves hserving hn hv hsent =>
    rw [hm] at hserving
    cases hserving
  | settles hs hv he hx =>
    rw [he]
    exact .inr ⟨rfl, _, hs, rfl⟩

/-! ### What it tells and starts -/

/-- How often the program above is told that the replica serves. -/
def syncs (done : List Effect) : Nat := (done.filterMap Effect.upcall?).count .synced

theorem syncs_append (done next : List Effect) : syncs (done ++ next) = syncs done + syncs next := by
  rw [syncs, List.filterMap_append, List.count_append]
  rfl

theorem syncs_eq_zero {done : List Effect} (hx : ∀ x ∈ done, x ≠ .upcall .synced) : syncs done = 0 := by
  refine List.count_eq_zero.mpr fun hmem => ?_
  obtain ⟨x, hx', hu⟩ := List.mem_filterMap.mp hmem
  cases x with
  | upcall u => exact hx _ hx' (congrArg Effect.upcall (Option.some.inj hu))
  | propose | prune | request | startSend | startReceive | deliver | stopTransfer | releaseTransfer => cases hu

/-- What an engine in this state has done so far. -/
structure Sound (done : List Effect) (e : Engine) : Prop where
  coherent : e.Coherent
  synced : syncs done ≤ 1
  unsynced : e.mode.isServing = false → syncs done = 0
  unstarted : e.mode = .passive → ∀ x ∈ done, x.outbound? = none ∧ x.isReceive = false

variable {done : List Effect}

/-- A step that tells nothing of serving. -/
theorem Sound.next (hs : Sound done e) (hc : s.engine.Coherent) (hstage : e.mode.stage ≤ s.engine.mode.stage)
    (hx : ∀ x ∈ s.effects, x ≠ .upcall .synced)
    (hstart : s.engine.mode = .passive → ∀ x ∈ s.effects, x.outbound? = none ∧ x.isReceive = false) :
    Sound (done ++ s.effects) s.engine where
  coherent := hc
  synced := by
    rw [syncs_append, syncs_eq_zero hx]
    exact hs.synced
  unsynced hserving := by
    rw [syncs_append, syncs_eq_zero hx]
    refine hs.unsynced (Bool.eq_false_iff.mpr fun htrue => ?_)
    rw [Mode.isServing_of_stage_le hstage htrue] at hserving
    cases hserving
  unstarted hm x hmem := by
    rcases List.mem_append.mp hmem with hmem | hmem
    · exact hs.unstarted (Mode.eq_passive_of_stage_le hstage hm) x hmem
    · exact hstart hm x hmem

theorem Routine.ne_synced {x : Effect} (hx : e.Routine v x) : x ≠ .upcall .synced := by
  cases hx <;> exact nofun

theorem Routine.starts_nothing {x : Effect} (hx : e.Routine v x) : x.outbound? = none ∧ x.isReceive = false := by
  cases hx <;> exact ⟨rfl, rfl⟩

theorem Sound.turn (hs : Sound done e) (ht : Turns h p e v s) : Sound (done ++ s.effects) s.engine := by
  have hc := hs.coherent.turn ht
  have hstage := ht.stage_le hs.coherent
  cases ht with
  | stays he hx hn hsync =>
    exact hs.next hc hstage (fun x hmem => (hx x hmem).ne_synced) fun _ x hmem => (hx x hmem).starts_nothing
  | joins hm hn hv =>
    refine hs.next hc hstage (fun x hmem => ?_) nofun
    rw [List.mem_singleton.mp hmem]
    exact nofun
  | follows hm hn hv =>
    exact hs.next hc hstage (fun x hmem => absurd hmem List.not_mem_nil) fun _ x hmem => absurd hmem List.not_mem_nil
  | @moves r version sent hm hn hv hsent =>
    refine hs.next hc hstage (fun x hmem => ?_) fun hpassive => ?_
    · obtain ⟨n, scanId, -, a, -, rfl⟩ := exists_of_mem_sendings (hsent ▸ hmem)
      exact nofun
    · rw [Mode.eq_passive_of_stage_le hstage hpassive] at hm
      cases hm
  | settles hsync hv he hx =>
    -- Before, the replica caught up, and had told nothing.
    have hbefore : syncs done = 0 := hs.unsynced (by rw [hs.coherent.syncing (by rw [hsync]; rfl)]; rfl)
    have hone : syncs (done ++ s.effects) = 1 := by
      rw [syncs_append, hbefore, hx]
      rfl
    rw [he] at hc ⊢
    exact ⟨hc, Nat.le_of_eq hone, nofun, nofun⟩

theorem ne_synced_handle (hd : ∀ ds, event ≠ .decide ds) : ∀ x ∈ (e.handle h event).effects, x ≠ .upcall .synced := by
  rintro x hx rfl
  rcases (obeys_handle hd).2 _ hx with ⟨op, rfl⟩ | ⟨r, rfl⟩
  · have hall : (e.submit h op).All (fun _ => True) fun x => x ≠ .upcall .synced := by
      unfold submit
      split
      · exact all_done trivial
      · split <;> exact all_emit trivial nofun
    exact hall.2 _ hx rfl
  · have hall : (e.stored h r).All (fun _ => True) fun x => x ≠ .upcall .synced := by
      refine Step.All.andThen (f := finishRequest h r) ?_ fun e' _ => ?_
      · split
        · exact all_emit trivial nofun
        · exact all_done trivial
      · cases r with
        | snapshot position =>
          refine ⟨trivial, fun x hx => ?_⟩
          obtain ⟨watermark, rfl⟩ := kept_prune.2 x hx
          exact nofun
        | get | scan | multi | size | failed => exact all_emit trivial nofun
        | done => exact all_done trivial
    exact hall.2 _ hx rfl

theorem Effect.starts_nothing_of_isWork {x : Effect} (hx : x.isWork = false) : x.outbound? = none ∧ x.isReceive = false := by
  cases x with
  | request | startSend | startReceive => cases hx
  | propose | prune | upcall | deliver | stopTransfer | releaseTransfer => exact ⟨rfl, rfl⟩

theorem Sound.react (hs : Sound done e) (hd : ∀ ds, event ≠ .decide ds) :
    Sound (done ++ (e.handle h event).effects) (e.handle h event).engine :=
  hs.next (hs.coherent.react (reacts_handle hd)) (Nat.le_of_eq (reacts_handle hd).stage_eq.symm) (ne_synced_handle hd)
    fun _ x hx => Effect.starts_nothing_of_isWork ((idle_handle hd).2 x hx)

theorem Sound.prune (hs : Sound done e) : Sound (done ++ (e.prune h).effects) (e.prune h).engine := by
  refine hs.next (hs.coherent.quiet (quiet_prune e)) ?_ (fun x hx => ?_) fun _ x hx => ?_
  · rw [(quiet_prune e).mode]
  · obtain ⟨watermark, rfl⟩ := kept_prune.2 x hx
    exact nofun
  · obtain ⟨watermark, rfl⟩ := kept_prune.2 x hx
    exact ⟨rfl, rfl⟩

theorem Sound.relog (hs : Sound done e) (log : OperationsLog) (pruned : Position) : Sound done (e.relog log pruned) :=
  ⟨hs.coherent.quiet (quiet_relog log pruned e), hs.synced, hs.unsynced, hs.unstarted⟩

/-! ### Batches -/

section Batch
open OperationsLog
variable {l : List (Position × Value)} {calls : List Call} {ds : List Decision}

/-- Values, one after the other, keep the engine sound, and take it at most further. -/
theorem Sound.applyAll (hs : Sound done e) (hf : (applyAll h l e).fault? = none) :
    Sound (done ++ (applyAll h l e).effects) (applyAll h l e).engine ∧
      e.mode.stage ≤ (applyAll h l e).engine.mode.stage := by
  refine applyAll_invariant (I := fun done _ e' => Sound done e' ∧ e.mode.stage ≤ e'.mode.stage) done hf
    ⟨hs, Nat.le_refl _⟩ ?_
  rintro done x later e' hx ⟨hs', hle⟩
  have ht := turns_apply hx
  exact ⟨hs'.turn ht, Nat.le_trans hle (ht.stage_le hs'.coherent)⟩

/-- Among any values, the own marker and nothing else makes a replica serve. -/
theorem isServing_applyAll_iff (hs : Sound done e) (hm : e.mode.isServing = false) (hf : (applyAll h l e).fault? = none) :
    (applyAll h l e).engine.mode.isServing = true ↔
      ∃ sync p, e.syncing? = some sync ∧ (p, .syncedUp sync.marker) ∈ l := by
  induction l generalizing done e with
  | nil =>
    refine iff_of_false (Bool.eq_false_iff.mp hm) ?_
    rintro ⟨_, _, _, hmem⟩
    exact List.not_mem_nil hmem
  | cons x l ih =>
    obtain ⟨hx, hl⟩ := Step.fault?_andThen_eq_none_iff.mp hf
    have ht := turns_apply hx
    rw [Engine.applyAll, Step.forEach, Step.andThen_of_none hx]
    rcases ht.of_waiting hm with ⟨hm', hsync, hne⟩ | ⟨hserving, sync, hsync, hmarker⟩
    · rw [← Engine.applyAll, ih (hs.turn ht) hm' hl, hsync]
      constructor
      · rintro ⟨sync, p, hsome, hmem⟩
        exact ⟨sync, p, hsome, .tail _ hmem⟩
      · rintro ⟨sync, p, hsome, hmem⟩
        rcases List.mem_cons.mp hmem with heq | hmem
        · exact absurd (congrArg Prod.snd heq).symm (hne sync hsome)
        · exact ⟨sync, p, hsome, hmem⟩
    · have hle := ((hs.turn ht).applyAll hl).2
      exact iff_of_true (Mode.isServing_of_stage_le hle hserving) ⟨sync, x.1, hsync, hmarker ▸ .head l⟩

/-- A batch of decisions, the prune after it included. -/
theorem Sound.decide (hs : Sound done e) (hlog : e.log = after calls) (hf : (e.handle h (.decide ds)).fault? = none) :
    Sound (done ++ (e.handle h (.decide ds)).effects) (e.handle h (.decide ds)).engine ∧
      e.mode.stage ≤ (e.handle h (.decide ds)).engine.mode.stage := by
  obtain ⟨ht, heq⟩ := handle_decide_eq hlog hf
  obtain ⟨hall, hle⟩ := (hs.relog _ _).applyAll ht
  refine ⟨?_, (quiet_decide hlog hf).mode ▸ hle⟩
  rw [heq, Step.andThen_of_none ht, ← List.append_assoc]
  exact hall.prune

end Batch

/-! ### The life of an engine -/

/-- What an engine does from its beginning on: it may start to serve at once, and then it is told one event after
    the other, until one fails. -/
def lifetime (founding? : Option (Host × ViewChange)) (told : List (Host × Event)) : Step :=
  (founding?.elim { engine := {} } fun f => bootstrap f.1 f.2 {}).andThen (course told)

/-- Whether an event brings an engine the marker that it waits for: it is a batch that releases the marker. -/
def Brings (e : Engine) (sync : Syncing) (event : Event) : Prop :=
  ∃ ds calls p, event = .decide ds ∧ e.log = .after calls ∧ (p, .syncedUp sync.marker) ∈ OperationsLog.released calls ds

/-- Whether an engine that was told some events has proposed a marker, on the news that its own receive had completed
    while it was catching up. -/
def Marked (founding? : Option (Host × ViewChange)) (told : List (Host × Event)) (sync : Syncing) : Prop :=
  ∃ front host c back, told = front ++ (host, .completed c) :: back ∧ c.role = .receive ∧
    c.outcome = .ok ⟨some sync.snapshot, some sync.version⟩ ∧
    (lifetime founding? front).engine.mode = .catchingUp ∧
    (lifetime founding? front).engine.incoming? = some c.id ∧
    .propose (.syncedUp sync.marker) ∈ ((lifetime founding? front).engine.handle host (.completed c)).effects

section Life
open OperationsLog
variable {founding? : Option (Host × ViewChange)} {told front back : List (Host × Event)} {t : Host × Event}

theorem lifetime_append (front back : List (Host × Event)) :
    lifetime founding? (front ++ back) = (lifetime founding? front).andThen (course back) := by
  rw [lifetime, lifetime, Step.andThen_assoc]
  exact congrArg _ (funext fun e => Step.forEach_append front back e)

theorem lifetime_concat (told : List (Host × Event)) (t : Host × Event) :
    lifetime founding? (told ++ [t]) = (lifetime founding? told).andThen (handle t.1 t.2) := by
  rw [lifetime_append]
  exact Step.andThen_congr fun _ => Step.andThen_done

theorem Marked.append {sync : Syncing} (hm : Marked founding? told sync) (next : List (Host × Event)) :
    Marked founding? (told ++ next) sync := by
  obtain ⟨front, host, c, back, rfl, hfront⟩ := hm
  exact ⟨front, host, c, back ++ next, by simp, hfront⟩

/-- What holds of an engine at each point of its life. -/
structure Lives (founding? : Option (Host × ViewChange)) (told : List (Host × Event)) (s : Step) : Prop where
  sound : Sound s.effects s.engine
  ready : ∃ calls, Ready calls s.engine
  marked : ∀ sync, s.engine.syncing? = some sync → Marked founding? told sync

theorem lives_founded (hf : (lifetime founding? []).fault? = none) :
    Lives founding? [] (lifetime founding? []) := by
  have hstart : lifetime founding? [] = founding?.elim { engine := {} } fun f => bootstrap f.1 f.2 {} := Step.andThen_done
  rw [hstart] at hf ⊢
  cases founding? with
  | none =>
    exact ⟨⟨coherent_new, Nat.zero_le 1, fun _ => rfl, fun _ _ hx => absurd hx List.not_mem_nil⟩,
      ⟨[], Starts.joining.ready⟩, fun sync h => by cases h⟩
  | some founding =>
    obtain ⟨host, change⟩ := founding
    have hready := (Starts.serving host change).ready
    have hcoherent := coherent_bootstrap host change
    rw [Option.elim_some] at hf ⊢
    cases hopen : host.upcallOpen with
    | false =>
      rw [bootstrap, tell, hopen] at hf
      cases hf
    | true =>
      rw [bootstrap, tell, hopen, emit, if_pos rfl] at hready hcoherent ⊢
      have hone : syncs [.upcall .synced] = 1 := rfl
      refine ⟨⟨hcoherent, Nat.le_of_eq hone, fun h => ?_, fun h => ?_⟩, ⟨[], hready⟩, fun sync h => ?_⟩
      all_goals cases h

/-- No event but the end of a receive makes an engine wait for another marker. -/
theorem Lives.marked_handle (hl : Lives founding? told (lifetime founding? told))
    (hf : ((lifetime founding? told).engine.handle t.1 t.2).fault? = none) {sync : Syncing}
    (hs : ((lifetime founding? told).engine.handle t.1 t.2).engine.syncing? = some sync) :
    Marked founding? (told ++ [t]) sync := by
  obtain ⟨host, event⟩ := t
  obtain ⟨calls, hready⟩ := hl.ready
  generalize he : (lifetime founding? told).engine = e at hf hs hready
  have earlier : e.syncing? = some sync → Marked founding? (told ++ [(host, event)]) sync := fun h =>
    (hl.marked sync (he ▸ h)).append _
  by_cases hd : ∃ ds, event = .decide ds
  · obtain ⟨ds, rfl⟩ := hd
    rw [(quiet_decide hready.log hf).syncing] at hs
    rcases applyAll_syncing? (h := host) (e := e.relog (after (calls ++ insertions ds)) e.pruned) (released calls ds)
      with hsync | hsync
    · exact earlier (hsync.symm.trans hs)
    · cases hsync.symm.trans hs
  · have hreacts : Reacts host e event (e.handle host event) := reacts_handle (not_exists.mp hd)
    generalize hstep : e.handle host event = s at hf hs hreacts
    cases hreacts with
    | quiet hquiet => exact earlier (hquiet.syncing ▸ hs)
    | holds hm => exact earlier hs
    | @marks c sync' s hm hrole hin hc heq hx =>
      rw [heq] at hs
      cases hs
      refine ⟨told, host, c, [], rfl, hrole, hc, he ▸ hm, he ▸ hin, ?_⟩
      rw [he, hstep]
      exact hx hf
    | sent hid =>
      rw [syncing?_finishTransferring] at hs
      exact earlier hs
    | received hid => exact earlier hs

theorem Lives.concat (hl : Lives founding? told (lifetime founding? told))
    (hf : (lifetime founding? (told ++ [t])).fault? = none) :
    Lives founding? (told ++ [t]) (lifetime founding? (told ++ [t])) ∧
      (lifetime founding? told).engine.mode.stage ≤ (lifetime founding? (told ++ [t])).engine.mode.stage := by
  obtain ⟨calls, hready⟩ := hl.ready
  rw [lifetime_concat] at hf ⊢
  obtain ⟨htold, ht⟩ := Step.fault?_andThen_eq_none_iff.mp hf
  rw [Step.andThen_of_none htold]
  suffices hsound : Sound ((lifetime founding? told).effects ++ ((lifetime founding? told).engine.handle t.1 t.2).effects)
      ((lifetime founding? told).engine.handle t.1 t.2).engine ∧ (lifetime founding? told).engine.mode.stage ≤
        ((lifetime founding? told).engine.handle t.1 t.2).engine.mode.stage from
    ⟨⟨hsound.1, hready.handle ht, fun sync hs => hl.marked_handle ht hs⟩, hsound.2⟩
  obtain ⟨host, event⟩ := t
  by_cases hd : ∃ ds, event = .decide ds
  · obtain ⟨ds, rfl⟩ := hd
    exact hl.sound.decide hready.log ht
  · have hnone := not_exists.mp hd
    exact ⟨hl.sound.react hnone, Nat.le_of_eq (reacts_handle hnone).stage_eq.symm⟩

theorem lives_lifetime (hf : (lifetime founding? told).fault? = none) :
    Lives founding? told (lifetime founding? told) := by
  induction told using List.reverseRecOn with
  | nil => exact lives_founded hf
  | append_singleton told t ih =>
    have hfront := hf
    rw [lifetime_concat, Step.fault?_andThen_eq_none_iff] at hfront
    exact ((ih hfront.1).concat hf).1

theorem fault?_lifetime_front (hf : (lifetime founding? (front ++ back)).fault? = none) :
    (lifetime founding? front).fault? = none := by
  rw [lifetime_append] at hf
  exact (Step.fault?_andThen_eq_none_iff.mp hf).1

theorem stage_le_lifetime (hf : (lifetime founding? (front ++ back)).fault? = none) :
    (lifetime founding? front).engine.mode.stage ≤ (lifetime founding? (front ++ back)).engine.mode.stage := by
  induction back using List.reverseRecOn with
  | nil => rw [List.append_nil]
  | append_singleton back t ih =>
    rw [← List.append_assoc] at hf ⊢
    have hback := fault?_lifetime_front hf
    exact Nat.le_trans (ih hback) ((lives_lifetime hback).concat hf).2

/-- An event makes an engine serve exactly if it brings the marker that the engine waits for. -/
theorem Lives.isServing_iff (hl : Lives founding? told (lifetime founding? told))
    (hf : (lifetime founding? (told ++ [t])).fault? = none) (hm : (lifetime founding? told).engine.mode.isServing = false) :
    (lifetime founding? (told ++ [t])).engine.mode.isServing = true ↔
      ∃ sync, (lifetime founding? told).engine.syncing? = some sync ∧ (lifetime founding? told).engine.Brings sync t.2 := by
  obtain ⟨calls, hready⟩ := hl.ready
  obtain ⟨host, event⟩ := t
  rw [lifetime_concat] at hf ⊢
  obtain ⟨htold, ht⟩ := Step.fault?_andThen_eq_none_iff.mp hf
  rw [Step.andThen_of_none htold]
  have hsound := hl.sound
  generalize (lifetime founding? told).engine = e at hready hm ht hsound
  dsimp only at ht ⊢
  by_cases hd : ∃ ds, event = .decide ds
  · obtain ⟨ds, rfl⟩ := hd
    -- The prune after the batch leaves the mode, and the marker is waited for whatever log the batch is applied with.
    have hserves : ∀ calls', e.log = after calls' → ((e.handle host (.decide ds)).engine.mode.isServing = true ↔
        ∃ sync p, e.syncing? = some sync ∧ (p, .syncedUp sync.marker) ∈ released calls' ds) := fun calls' hlog => by
      rw [(quiet_decide hlog ht).mode]
      exact isServing_applyAll_iff (hsound.relog _ _) hm (handle_decide_eq hlog ht).1
    constructor
    · intro hserving
      obtain ⟨sync, p, hsync, hmem⟩ := (hserves calls hready.log).mp hserving
      exact ⟨sync, hsync, ds, calls, p, rfl, hready.log, hmem⟩
    · rintro ⟨sync, hsync, ds', calls', p, hds, hlog, hmem⟩
      cases hds
      exact (hserves calls' hlog).mpr ⟨sync, p, hsync, hmem⟩
  · have hnone := not_exists.mp hd
    refine iff_of_false (Bool.eq_false_iff.mp ((obeys_handle hnone).1.isServing.trans hm)) ?_
    rintro ⟨sync, hsync, ds, calls, p, hds, -⟩
    exact hnone ds hds

end Life

/-- Whatever an engine is told without a failure, its mode and its bookkeeping agree. It transfers exactly while it has
    sending transfers, waits for a marker only while it catches up, and holds an announcement only before it has a view;
    until then its view and version are zero, and it has no transfer and has started none. It never goes back to an
    earlier stage. It begins to serve, which is the one way out of its catch-up, exactly by the marker that it waits
    for, and has proposed after its own receive had completed. And it tells at most once that it serves. -/
theorem mode_agrees_with_bookkeeping {founding? : Option (Host × ViewChange)} {told : List (Host × Event)}
    (hf : (lifetime founding? told).fault? = none) :
    (lifetime founding? told).engine.Coherent ∧
    ((lifetime founding? told).engine.mode = .passive →
      ∀ x ∈ (lifetime founding? told).effects, x.outbound? = none ∧ x.isReceive = false) ∧
    (∀ front back, told = front ++ back →
      (lifetime founding? front).engine.mode.stage ≤ (lifetime founding? told).engine.mode.stage) ∧
    (∀ front t back, told = front ++ t :: back → (lifetime founding? front).engine.mode.isServing = false →
      ((lifetime founding? (front ++ [t])).engine.mode.isServing = true ↔
        ∃ sync, (lifetime founding? front).engine.syncing? = some sync ∧
          (lifetime founding? front).engine.Brings sync t.2) ∧
      ∀ sync, (lifetime founding? front).engine.syncing? = some sync → Marked founding? front sync) ∧
    syncs (lifetime founding? told).effects ≤ 1 := by
  have hlives := lives_lifetime hf
  refine ⟨hlives.sound.coherent, hlives.sound.unstarted, ?_, ?_, hlives.sound.synced⟩
  · rintro front back rfl
    exact stage_le_lifetime hf
  · rintro front t back rfl hm
    have hconcat : (lifetime founding? (front ++ [t])).fault? = none := by
      rw [← List.singleton_append, ← List.append_assoc] at hf
      exact fault?_lifetime_front hf
    have hfront := lives_lifetime (fault?_lifetime_front hconcat)
    exact ⟨hfront.isServing_iff hconcat hm, hfront.marked⟩

/-- A replica joins, waits for its marker, and serves when the marker comes: then and only then it tells so. -/
theorem joined_mode_agrees_with_bookkeeping :
    (lifetime none joinedCourse).fault? = none ∧
      ((List.range 6).map fun n => (lifetime none (joinedCourse.take n)).engine.mode.stage) = [0, 1, 1, 2, 2, 2] ∧
      (∃ sync, (lifetime none (joinedCourse.take 2)).engine.syncing? = some sync ∧
        Marked none (joinedCourse.take 2) sync) ∧
      (lifetime none joinedCourse).engine.Coherent ∧ syncs (lifetime none joinedCourse).effects = 1 := by
  have hf : (lifetime none joinedCourse).fault? = none := rfl
  obtain ⟨hcoherent, -, -, hleft, -⟩ := mode_agrees_with_bookkeeping hf
  obtain ⟨-, hmarked⟩ := hleft (joinedCourse.take 2) _ (joinedCourse.drop 3) rfl rfl
  exact ⟨hf, rfl, ⟨⟨⟨1⟩, 1, 1⟩, rfl, hmarked _ rfl⟩, hcoherent, rfl⟩

end Engine
end ReplicaGroup
