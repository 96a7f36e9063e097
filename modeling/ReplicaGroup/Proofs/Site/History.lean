import ReplicaGroup.Proofs.Site.Order
import ReplicaGroup.Proofs.Views

/-! # What a site has applied

A site records what it applies together with its engine just before. What an engine has applied so far
tells which view it has installed, and whether it serves. -/

namespace ReplicaGroup

/-- A property of an engine and of what it has applied so far that lasts until the next application, and
    comes through every application that does not fail. -/
structure Engine.Lasts (Q : List Application → Engine → Prop) : Prop where
  kept : ∀ l e e', Q l e → e.Kept e' → Q l e'
  log : ∀ l e log, Q l e → Q l { e with log := log }
  apply : ∀ l e h p v, Q l e → (e.apply h p v).fault? = none →
    Q (l ++ [⟨p, v, e, (e.apply h p v).effects⟩]) (e.apply h p v).engine

namespace Site
variable {o : Outside} {s t : Site} {Q : List Application → Engine → Prop}

/-- A property holds at each application, and as long as the engine runs. -/
structure Recounts (Q : List Application → Engine → Prop) (s : Site) : Prop where
  before : ∀ front a back, s.applied = front ++ a :: back → Q front a.before
  effects : ∀ a ∈ s.applied, ∃ h : Host, h.addr = s.node.addr ∧
    a.effects = (a.before.apply h a.position a.value).effects
  now : s.running = true → Q s.applied s.node.engine

theorem Recounts.of_eq (hs : s.Recounts Q) (ha : t.applied = s.applied) (haddr : t.node.addr = s.node.addr)
    (hnow : t.running = true → s.running = true ∧ (Q s.applied s.node.engine → Q s.applied t.node.engine)) :
    t.Recounts Q where
  before front a back h := hs.before front a back (ha ▸ h)
  effects a h := haddr ▸ hs.effects a (ha ▸ h)
  now h := ha ▸ (hnow h).2 (hs.now (hnow h).1)

@[simp] theorem addr_handle (e : Event) : (s.handle e).node.addr = s.node.addr := by
  by_cases he : e = .stop
  · subst he
    simp [handle]
  · rw [handle_eq_take he, take_addr]

theorem Moves.addr (h : Moves o s t) : t.node.addr = s.node.addr := by
  cases h with
  | @hear e s' hi he =>
    obtain ⟨notices, rfl⟩ := he.eq
    exact addr_handle e
  | apply hrun hr => exact take_addr
  | finish hrun hr hb => exact take_addr
  | execute hq =>
    obtain ⟨⟨r, requester?⟩, rest, hq⟩ := List.exists_cons_of_ne_nil hq
    rw [Node.serve_one hq]
  | transfer hn =>
    obtain ⟨u, u', reports, -, -, rfl⟩ := Node.stepTransfer_eq_some hn
    rfl
  | deliver | insert | wait | register => rfl

theorem addr_run {acts : List Act} (ha : ∀ a ∈ acts, a.From o) (h : s.run acts = some t) :
    t.node.addr = s.node.addr :=
  run_induction (P := fun u => u.node.addr = s.node.addr) h ha rfl fun _ _ hu hm => hm.addr.trans hu

theorem running_of_isIdle (h : s.isIdle = true) : s.running = true := by
  simp only [isIdle, Bool.and_eq_true] at h
  exact h.1.1

theorem Recounts.moves (hQ : Engine.Lasts Q) (hs : s.Recounts Q) (h : Moves o s t) : t.Recounts Q := by
  cases h with
  | @hear e s' hi he =>
    have hk := (Engine.idle_handle (h := s'.node.host) (e := s'.node.engine) (not_decide_of_heard he)).1
    obtain ⟨notices, rfl⟩ := he.eq
    refine hs.of_eq (applied_handle e) (addr_handle e) fun _ => ⟨running_of_isIdle hi, fun hq => ?_⟩
    rw [engine_handle]
    exact hQ.kept _ _ _ hq hk
  | deliver hi hd => exact hs.of_eq rfl rfl fun h => ⟨h, id⟩
  | @apply e rest hrun hr =>
    have happlied : (s.apply e rest).applied = s.applied ++
        [⟨e.1, e.2, s.node.engine, (s.node.engine.apply s.node.host e.1 e.2).effects⟩] := take_applied
    refine ⟨fun front a back h => ?_, fun a ha => ?_, fun h => ?_⟩
    · rw [happlied] at h
      -- An application before the last one is one of before; the last one started from the engine of now.
      rcases List.eq_nil_or_concat back with rfl | ⟨back, b, rfl⟩
      · obtain ⟨rfl, ha⟩ := List.append_inj' h rfl
        cases ha
        exact hs.now hrun
      · rw [List.concat_eq_append, ← List.cons_append, ← List.append_assoc] at h
        exact hs.before front a back (List.append_inj' h rfl).1
    · rw [happlied] at ha
      rw [show (s.apply e rest).node.addr = s.node.addr from take_addr]
      rcases List.mem_append.mp ha with ha | ha
      · exact hs.effects a ha
      · cases List.mem_singleton.mp ha
        exact ⟨s.node.host, rfl, rfl⟩
    · rw [happlied, apply, take_engine]
      rw [apply, take_running, Bool.and_eq_true, Option.isNone_iff_eq_none] at h
      exact hQ.apply _ _ _ _ _ (hs.now hrun) h.2
  | insert hrun hr hb => exact hs.of_eq rfl rfl fun h => ⟨h, hQ.log _ _ _⟩
  | finish hrun hr hb =>
    refine hs.of_eq take_applied take_addr fun h => ⟨hrun, fun hq => ?_⟩
    rw [finish, take_engine]
    exact hQ.kept _ _ _ hq Engine.idle_prune.1
  | execute hq =>
    obtain ⟨⟨r, requester?⟩, rest, hq⟩ := List.exists_cons_of_ne_nil hq
    rw [Node.serve_one hq]
    exact hs.of_eq rfl rfl fun h => ⟨h, id⟩
  | transfer hn =>
    obtain ⟨u, u', reports, -, -, rfl⟩ := Node.stepTransfer_eq_some hn
    exact hs.of_eq rfl rfl fun h => ⟨h, id⟩
  | wait ms => exact hs.of_eq rfl rfl fun h => ⟨h, id⟩
  | register ha => exact hs.of_eq rfl rfl fun h => ⟨h, id⟩

/-- What holds of an engine that has applied nothing holds at each application. -/
theorem recounts_run {acts : List Act} (hQ : Engine.Lasts Q) (hs : s.applied = []) (h₀ : Q [] s.node.engine)
    (ha : ∀ a ∈ acts, a.From o) (h : s.run acts = some t) : t.Recounts Q := by
  refine run_induction h ha ⟨fun front a back h => ?_, fun a h => ?_, fun _ => hs ▸ h₀⟩
    fun u v hu hm => hu.moves hQ hm
  · rw [hs] at h
    cases front <;> cases h
  · rw [hs] at h
    cases h

end Site

/-! ### Which view is installed, and who serves -/

/-- Whether a value is the marker that the replica waits for. -/
def Engine.awaits (e : Engine) : Value → Bool
  | .syncedUp id => e.syncing?.any (·.marker = id)
  | _ => false

/-- Whether a catch-up was completed by applying a value. -/
def Application.completes (a : Application) : Bool := a.before.awaits a.value

namespace Engine
variable {e : Engine} {h : Host} {p : Position} {v : Value}

@[simp] theorem view_finishTransferring (e : Engine) : e.finishTransferring.view = e.view := by
  unfold finishTransferring
  split <;> rfl

/-- What is applied settles the view, also when the engine fails. -/
theorem apply_view (v : Value) : (e.apply h p v).engine.view = e.view.after v := by
  cases v with
  | op op =>
    exact (all_applyOp (I := fun e' => e'.view = e.view) (P := fun _ => True) (fun _ => rfl) (fun _ => trivial)
      fun _ => trivial).1
  | reconfigure r =>
    have hmoved := moved_reconfigure (h := h) (p := p) (e := e) r
    show (e.reconfigure h p r).engine.view = _
    generalize e.reconfigure h p r = s at hmoved
    cases hmoved with
    | stale hn => rw [View.after, hn]; rfl
    | fails hn | joins _ hn | follows _ hn => rw [View.after, hn]; rfl
    | moves hm hn hv hsent =>
      rw [View.after, hn]
      exact view_finishTransferring _
  | scan id range => exact (all_emit (I := fun e' => e'.view = e.view) (P := fun _ => True) rfl trivial).1
  | syncedUp id =>
    exact (all_syncedUp (I := fun e' => e'.view = e.view) (P := fun _ => True) rfl (fun _ _ _ _ => rfl)
      (fun _ => trivial) trivial).1
  | noop id => rfl
  | unknown id tag => rfl

theorem isServing_reconfigure (r : Reconfiguration) :
    (e.reconfigure h p r).engine.mode.isServing = e.mode.isServing := by
  have hmoved := moved_reconfigure (h := h) (p := p) (e := e) r
  generalize e.reconfigure h p r = s at hmoved
  cases hmoved with
  | stale | fails | follows => rfl
  | joins hm hn hv => rw [hm]; rfl
  | moves hm hn hv hsent => exact (kept_finishTransferring _).isServing.trans hm.symm

/-- Only the marker that is waited for makes a replica serve. -/
theorem isServing_apply (hf : (e.apply h p v).fault? = none) :
    (e.apply h p v).engine.mode.isServing = (e.mode.isServing || e.awaits v) := by
  cases v with
  | op op =>
    refine Eq.trans ?_ (Bool.or_false _).symm
    exact (all_applyOp (I := fun e' => e'.mode.isServing = e.mode.isServing) (P := fun _ => True) (fun _ => rfl)
      (fun _ => trivial) fun _ => trivial).1
  | reconfigure r => exact (isServing_reconfigure r).trans (Bool.or_false _).symm
  | scan id range =>
    refine Eq.trans ?_ (Bool.or_false _).symm
    exact (all_emit (I := fun e' => e'.mode.isServing = e.mode.isServing) (P := fun _ => True) rfl trivial).1
  | syncedUp id =>
    cases hs : e.syncing? with
    | none => simp [apply, syncedUp, awaits, hs, done]
    | some sync =>
      simp only [apply, syncedUp, hs] at hf ⊢
      split
      · next hm =>
        rw [if_pos hm] at hf
        have hstore : h.storeOpen = true := by
          cases ho : h.storeOpen <;> simp [issue, emit, ho, fail, Step.andThen] at hf ⊢
        have htell : h.upcallOpen = true := by
          cases ho : h.upcallOpen <;> simp [issue, tell, emit, hstore, ho, fail, Step.andThen] at hf ⊢
        simp [issue, tell, emit, hstore, htell, Step.andThen, awaits, hs, hm, Mode.isServing]
      · next hm => simp [awaits, hs, hm, done]
  | noop id => exact (Bool.or_false _).symm
  | unknown id tag => exact (Bool.or_false _).symm

theorem lasts_view (v : View) : Lasts fun l e => e.view = v.afterAll (l.map Application.decision) where
  kept _ _ _ h k := k.view.trans h
  log _ _ _ h := h
  apply l e h p value hv _ := by
    rw [apply_view, List.map_append, View.afterAll_append, ← hv]
    rfl

theorem lasts_isServing (first : Bool) :
    Lasts fun l e => e.mode.isServing = (first || l.any Application.completes) where
  kept _ _ _ h k := k.isServing.trans h
  log _ _ _ h := h
  apply l e h p value hs hf := by
    rw [isServing_apply hf, hs, List.any_append, Bool.or_assoc]
    simp [Application.completes]

end Engine
end ReplicaGroup
