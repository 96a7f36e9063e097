import ReplicaGroup.Proofs.Site.Answering
import ReplicaGroup.Proofs.Site.Levels

/-! # Every decided operation is answered once

Whether a replica answers an operation that it applies depends on its mode: before it joins it answers none,
and while it catches up it leaves reads to others. A put is acknowledged and an unsupported operation refused at
once; everything else waits for the response of storage. Neither a replay of captured writes nor a cleanup leads
to an answer. -/

namespace ReplicaGroup

/-- Whether a replica in a mode answers operations of a kind that it applies. -/
def Mode.answers : Mode → Kind → Bool
  | .passive, _ => false
  | .catchingUp, .get | .catchingUp, .range => false
  | .catchingUp, .put | .catchingUp, .multi => true
  | .active, _ | .transferring, _ => true

namespace Application

/-- Whether the value is the operation with an identifier. -/
def isOf (id : OpId) (a : Application) : Bool := a.value.operation?.any fun op => op.id = id

/-- Whether there is an answer to the value. -/
def isAnswered (a : Application) : Bool := a.value.operation?.any fun op => a.before.mode.answers op.kind

/-- Whether the answer has to wait for storage. -/
def waits (a : Application) : Bool :=
  a.value.operation?.any fun op => a.before.mode.isServing && decide (op.kind ≠ .put)

/-- What the value can be answered with. -/
inductive Answers (a : Application) : Answer → Prop
  | acknowledged {op : Operation} {key : Key} {value : Bytes} (hv : a.value = .op op) (hb : op.body = .put key value) :
    Answers a ⟨op.id, .put key⟩
  | unsupported {op : Operation} (hv : a.value = .op op) (hm : a.before.mode = .catchingUp) (hk : op.kind = .multi) :
    Answers a ⟨op.id, .failed .unsupported⟩
  /-- Storage has executed the operation, or failed to. -/
  | executed {op : Operation} {store : Store} {x : Answer} (hv : a.value = .op op)
    (hm : a.before.mode.isServing = true) (hk : op.kind ≠ .put)
    (hx : ((op.request a.before.version).execute store).response.answer? = some x) : Answers a x

/-- The answers that applying a value gives now, and those that it leads to later. -/
inductive Pays (a : Application) (now later : List Answer) : Prop
  | nothing (ha : a.isAnswered = false) (hn : now = []) (hl : later = [])
  | atOnce {x : Answer} (ha : a.isAnswered = true) (hx : a.Answers x) (hn : now = [x]) (hl : later = [])
  | later {x : Answer} (ha : a.isAnswered = true) (hw : a.waits = true) (hx : a.Answers x) (hn : now = [])
    (hl : later = [x])

end Application

/-- A request that leads to no answer. -/
def Request.IsMute (r : Request) : Prop := ∀ s, (r.execute s).response.answer? = none

/-- An effect that gives no answer, and leads to none. -/
def Effect.IsMute (x : Effect) : Prop := x.answer? = none ∧ ∀ r, x.request? = some r → r.IsMute

theorem Store.due_of_mute {rs : List Request} (h : ∀ r ∈ rs, r.IsMute) (s : Store) :
    s.due (rs.map fun r => (r, r.requester?)) = [] := by
  induction rs generalizing s with
  | nil => rfl
  | cons r rs ih =>
    rw [List.map_cons, due, ih fun r' hr' => h r' (.tail _ hr'), h r (.head _) s]
    simp

theorem Scan.id_of_run {sc : Scan} {s : Store} {result : ScanResult} (h : (sc.run s).result = .ok result) :
    result.id = sc.id := by
  unfold run at h
  split at h
  · cases h
  · dsimp only at h
    split at h
    · cases h
    · split at h <;> cases h
      rfl

/-- A scan is answered, with its results or as failed. -/
theorem Scan.exists_answer (sc : Scan) (s : Store) :
    ∃ x, ((Request.scan sc).execute s).response.answer? = some x ∧ x.id = sc.id := by
  simp only [Request.execute]
  cases hr : (sc.run s).result with
  | ok result => exact ⟨_, rfl, Scan.id_of_run hr⟩
  | error fault => exact ⟨_, rfl, rfl⟩

/-- Storage responds to whatever is executed for an operation that is no put. -/
theorem Operation.exists_answer {op : Operation} (hk : op.kind ≠ .put) (v : Version) (s : Store) :
    ∃ x, ((op.request v).execute s).response.answer? = some x ∧ x.id = op.id ∧
      s.due [(op.request v, (op.request v).requester?)] = [x] := by
  have single : ∀ r : Request, r.wantsReply = true → s.due [(r, r.requester?)] = (r.execute s).response.answer?.toList :=
    fun r hr => by
      rw [Store.due, Request.requester?, hr]
      exact List.append_nil _
  obtain ⟨id, body⟩ := op
  cases body with
  | put key value => exact absurd rfl hk
  | get key => exact ⟨_, rfl, rfl, single _ rfl⟩
  | multi w => exact ⟨_, rfl, rfl, single _ rfl⟩
  | range q =>
    obtain ⟨x, hx, hid⟩ := Scan.exists_answer (Scan.current id q v) s
    exact ⟨x, hx, hid, (single _ rfl).trans (congrArg Option.toList hx)⟩

theorem Application.Answers.isOf {a : Application} {x : Answer} (h : a.Answers x) (id : OpId) :
    a.isOf id = decide (x.id = id) := by
  cases h with
  | acknowledged hv hb => simp [Application.isOf, hv, Value.operation?]
  | unsupported hv hm hk => simp [Application.isOf, hv, Value.operation?]
  | @executed op store x hv hm hk hx =>
    obtain ⟨x', hx', hid, -⟩ := op.exists_answer hk a.before.version store
    obtain rfl : x = x' := Option.some.inj (hx.symm.trans hx')
    simp [Application.isOf, hv, Value.operation?, hid]

namespace Engine
variable {e : Engine} {h : Host} {p : Position} {v : Value}

/-- Joining, catching up and starting to serve gives no answer. -/
theorem mute_apply (hv : v.operation? = none) : (e.apply h p v).All (fun _ => True) Effect.IsMute := by
  have request : ∀ r : Request, r.IsMute → Effect.IsMute (.request r) := fun r hr => ⟨rfl, fun r' hr' => by cases hr'; exact hr⟩
  cases v with
  | op op => cases hv
  | reconfigure r =>
    refine ⟨trivial, fun x hx => ?_⟩
    have hmoved := moved_reconfigure (h := h) (p := p) (e := e) r
    rw [show e.apply h p (.reconfigure r) = e.reconfigure h p r from rfl] at hx
    generalize e.reconfigure h p r = s at hmoved hx
    cases hmoved with
    | stale | fails | follows => cases hx
    | joins hm hn hv =>
      cases List.mem_singleton.mp hx
      exact ⟨rfl, nofun⟩
    | moves hm hn hv hsent =>
      obtain ⟨n, scanId, -, a, -, rfl⟩ := exists_of_mem_sendings (hsent ▸ hx)
      exact ⟨rfl, nofun⟩
  | scan id range => exact all_emit trivial (request _ fun _ => rfl)
  | syncedUp id =>
    show (e.syncedUp h p id).All _ _
    unfold syncedUp
    split
    · exact all_done trivial
    · split
      · refine .andThen (.andThen ?_ fun _ _ => ?_) fun _ _ => ?_
        · exact all_emit trivial (request _ fun _ => rfl)
        · exact all_emit trivial (request _ fun _ => rfl)
        · exact all_emit trivial ⟨rfl, nofun⟩
      · exact all_done trivial
  | noop id => exact all_done trivial
  | unknown id tag => exact all_done trivial

/-- The operation is refused: storage gets nothing to do. -/
theorem applyOp_unsupported (hu : h.upcallOpen = true) {op : Operation} (hr : Rule.find? e.mode op.kind = none) :
    e.applyOp h p op = { engine := e, effects := [.upcall (.answer ⟨op.id, .failed .unsupported⟩)] } := by
  simp [applyOp, hr, respond, tell, emit, hu]

/-- The operation is left to others. -/
theorem applyOp_left {op : Operation} {rule : Rule} (hr : Rule.find? e.mode op.kind = some rule)
    (ht : rule.treatment = .ignore ∨ rule.treatment = .defer) : e.applyOp h p op = e.done := by
  unfold applyOp
  rw [hr]
  rcases ht with ht | ht <;> simp [Rule.initiate, ht, Step.andThen, done]

theorem applyOp_acknowledged (hu : h.upcallOpen = true) {id : OpId} {key : Key} {value : Bytes}
    (hm : e.mode = .catchingUp) :
    e.applyOp h p ⟨id, .put key value⟩ = { engine := e, effects := [.upcall (.answer ⟨id, .put key⟩)] } := by
  simp [applyOp, hm, Rule.find?, Operation.kind, Rule.initiate, Operation.acknowledgement?, respond, tell, emit, hu,
    Step.andThen, done]

/-- A serving replica hands the operation to storage, and acknowledges a put. -/
theorem applyOp_executed (ho : h.storeOpen = true) (hu : h.upcallOpen = true) (hm : e.mode.isServing = true)
    (op : Operation) : (e.applyOp h p op).answers = op.acknowledgement?.toList ∧
      (e.applyOp h p op).effects.filterMap Effect.request? = [op.request e.version] := by
  obtain ⟨-, told, hx, -, htold⟩ := applyOp_serving (h := h) (p := p) hm ho op
  rw [Step.answers, hx, htold hu]
  cases op.acknowledgement? <;> exact ⟨rfl, rfl⟩

/-- What a step that applies a value pays, while storage holds what it holds once everything queued is executed. -/
def PaysWith (s : Store) (p : Position) (v : Value) (e : Engine) (step : Step) : Prop :=
  Application.Pays ⟨p, v, e, step.effects⟩ step.answers
    (s.due ((step.effects.filterMap Effect.request?).map fun r => (r, r.requester?)))

theorem pays_applyOp (ho : h.storeOpen = true) (hu : h.upcallOpen = true) (op : Operation) (s : Store) :
    PaysWith s p (.op op) e (e.applyOp h p op) := by
  have left : ∀ rule, Rule.find? e.mode op.kind = some rule → rule.treatment = .ignore ∨ rule.treatment = .defer →
      e.mode.answers op.kind = false → PaysWith s p (.op op) e (e.applyOp h p op) := fun rule hr ht hb =>
    .nothing hb (by rw [applyOp_left hr ht]; rfl) (by rw [applyOp_left hr ht]; rfl)
  -- Only a replica that catches up treats the kinds differently.
  cases hm : e.mode with
  | passive => exact left ⟨.ignore, false⟩ (by rw [hm]; rfl) (.inl rfl) (by rw [hm]; rfl)
  | catchingUp =>
    cases hk : op.kind with
    | get => exact left ⟨.defer, false⟩ (by rw [hm, hk]; rfl) (.inr rfl) (by rw [hm, hk]; rfl)
    | range => exact left ⟨.defer, false⟩ (by rw [hm, hk]; rfl) (.inr rfl) (by rw [hm, hk]; rfl)
    | multi =>
      have hanswered : e.mode.answers op.kind = true := by rw [hm, hk]; rfl
      rw [applyOp_unsupported hu (by rw [hm, hk]; rfl)]
      exact .atOnce hanswered (.unsupported rfl hm hk) rfl rfl
    | put =>
      have hanswered : e.mode.answers op.kind = true := by rw [hm, hk]; rfl
      obtain ⟨id, body⟩ := op
      cases body with
      | put key value =>
        rw [applyOp_acknowledged hu hm]
        exact .atOnce hanswered (.acknowledged rfl rfl) rfl rfl
      | get | range | multi => cases hk
  | active | transferring =>
    have hserving : e.mode.isServing = true := by rw [hm]; rfl
    have hanswered : e.mode.answers op.kind = true := by rw [hm]; rfl
    obtain ⟨hanswers, hrequests⟩ := applyOp_executed (p := p) ho hu hserving op
    unfold PaysWith
    rw [hanswers, hrequests]
    by_cases hk : op.kind = .put
    · obtain ⟨id, body⟩ := op
      cases body with
      | put key value => exact .atOnce hanswered (.acknowledged rfl rfl) rfl rfl
      | get | range | multi => cases hk
    · obtain ⟨x, hx, -, hdue⟩ := op.exists_answer hk e.version s
      have hnone : op.acknowledgement? = none := by
        obtain ⟨id, body⟩ := op
        cases body with
        | put key value => exact absurd rfl hk
        | get | range | multi => rfl
      refine .later hanswered ?_ (.executed rfl hserving hk hx) (by rw [hnone]; rfl) hdue
      simp [Application.waits, Value.operation?, hserving, hk]

theorem pays_apply (ho : h.storeOpen = true) (hu : h.upcallOpen = true) (v : Value) (s : Store) :
    PaysWith s p v e (e.apply h p v) := by
  cases hv : v.operation? with
  | some op =>
    obtain rfl := Value.eq_op_of_operation? hv
    exact pays_applyOp ho hu op s
  | none =>
    have hmute := (mute_apply (h := h) (p := p) (e := e) hv).2
    refine .nothing ?_ (List.filterMap_eq_nil_iff.mpr fun x hx => (hmute x hx).1) (Store.due_of_mute (fun r hr => ?_) s)
    · simp [Application.isAnswered, hv]
    · obtain ⟨x, hx, hr⟩ := List.mem_filterMap.mp hr
      exact (hmute x hx).2 r hr

theorem answers_submitted (hu : h.upcallOpen = true) (op : Operation) : (e.submit h op).answers =
    if e.mode = .catchingUp ∧ op.kind = .multi then [⟨op.id, .failed .unsupported⟩] else [] := by
  have proposes : (e.propose h (.op op)).answers = [] := answers_eq_nil (all_emit trivial rfl)
  unfold submit
  cases hm : e.mode with
  | passive => rfl
  | catchingUp =>
    cases hk : op.kind with
    | multi =>
      simp only [reduceCtorEq, if_false, Rule.find?, Option.isNone_none, if_true, and_self, respond, tell, emit, hu]
      rfl
    | get | put | range => exact proposes
  | active | transferring => cases op.kind <;> exact proposes

end Engine

namespace Site
variable {s t : Site} {o : Outside} {a : Act} {refused : List Operation} {given pending : List (Application × Answer)}

/-- The operation that an act submits, if it is refused at once: it would not be supported if it were decided now. -/
def refusedBy (s : Site) : Act → List Operation
  | .hear (.submit op) => if s.node.engine.mode = .catchingUp ∧ op.kind = .multi then [op] else []
  | _ => []

/-- The operations that are refused when they are submitted. -/
def refusals (s : Site) : List Act → List Operation
  | [] => []
  | a :: acts =>
    s.refusedBy a ++
      match s.act a with
      | some t => t.refusals acts
      | none => []

/-- Every answer that a site has given is for an operation that it refused, or belongs to an application of its own;
    every other application that is answered waits for storage, and its answer is to come. -/
structure Accounts (s : Site) (refused : List Operation) (given pending : List (Application × Answer)) : Prop where
  answers : s.answers.Perm ((refused.map fun op => ⟨op.id, .failed .unsupported⟩) ++ given.map Prod.snd)
  upcoming : s.upcoming.Perm (pending.map Prod.snd)
  applied : ((given ++ pending).map Prod.fst).Perm (s.applied.filter Application.isAnswered)
  own : ∀ r ∈ given ++ pending, r.1.Answers r.2
  waits : ∀ r ∈ pending, r.1.waits = true

/-- A site that can answer, and whose storage takes requests. -/
structure Serviced (s : Site) : Prop where
  telling : s.Telling
  storeOpen : s.node.background.storeOpen = true

theorem Serviced.moves (hs : s.Serviced) (h : Moves o s t) : t.Serviced :=
  ⟨hs.telling.moves h, h.channels.1.trans hs.storeOpen⟩

theorem Accounts.of_eq (h : s.Accounts refused given pending) (ha : t.applied = s.applied)
    (hg : t.answers = s.answers) (hc : t.upcoming.Perm s.upcoming) : t.Accounts refused given pending :=
  ⟨hg ▸ h.answers, hc.trans h.upcoming, ha ▸ h.applied, h.own, h.waits⟩

/-- An application that pays is accounted for. -/
theorem Accounts.pays (h : s.Accounts refused given pending) {a : Application} {now later : List Answer}
    (hp : a.Pays now later) (ha : t.applied = s.applied ++ [a]) (hg : t.answers = s.answers ++ now)
    (hc : t.upcoming = s.upcoming ++ later) : ∃ given' pending', t.Accounts refused given' pending' := by
  have happlied : t.applied.filter Application.isAnswered =
      s.applied.filter Application.isAnswered ++ [a].filter Application.isAnswered := by
    rw [ha, List.filter_append]
  cases hp with
  | nothing hno hn hl =>
    subst hn hl
    rw [List.append_nil] at hg hc
    refine ⟨given, pending, hg ▸ h.answers, hc ▸ h.upcoming, ?_, h.own, h.waits⟩
    rw [happlied, List.filter_cons_of_neg (by simp [hno]), List.filter_nil, List.append_nil]
    exact h.applied
  | @atOnce x hyes hx hn hl =>
    -- The new pair is appended to what was given, in front of what is pending.
    subst hn hl
    rw [List.append_nil] at hc
    refine ⟨given ++ [(a, x)], pending, ?_, hc ▸ h.upcoming, ?_, ?_, h.waits⟩
    · rw [hg, List.map_append, ← List.append_assoc]
      exact h.answers.append_right _
    · rw [happlied, List.filter_cons_of_pos (by exact hyes), List.filter_nil, List.append_assoc, List.singleton_append,
        List.map_append, List.map_cons]
      refine List.perm_middle.trans ((List.perm_append_singleton ..).symm.trans (List.Perm.append_right _ ?_))
      rw [← List.map_append]
      exact h.applied
    · intro r hr
      rw [List.append_assoc, List.singleton_append] at hr
      rcases List.mem_cons.mp (List.perm_middle.mem_iff.mp hr) with rfl | hr
      · exact hx
      · exact h.own r hr
  | @later x hyes hw hx hn hl =>
    subst hn hl
    rw [List.append_nil] at hg
    refine ⟨given, pending ++ [(a, x)], hg ▸ h.answers, ?_, ?_, ?_, ?_⟩
    · rw [hc, List.map_append]
      exact h.upcoming.append_right _
    · rw [happlied, List.filter_cons_of_pos (by exact hyes), List.filter_nil, ← List.append_assoc, List.map_append]
      exact h.applied.append_right _
    · intro r hr
      rw [← List.append_assoc] at hr
      rcases List.mem_append.mp hr with hr | hr
      · exact h.own r hr
      · cases List.mem_singleton.mp hr
        exact hx
    · intro r hr
      rcases List.mem_append.mp hr with hr | hr
      · exact h.waits r hr
      · cases List.mem_singleton.mp hr
        exact hw

/-- An answer that was to come is given. -/
theorem Accounts.passes (h : s.Accounts refused given pending) {x : Answer} (ha : t.applied = s.applied)
    (hg : t.answers = s.answers ++ [x]) (hc : s.upcoming.Perm (x :: t.upcoming)) :
    ∃ given' pending', t.Accounts refused given' pending' := by
  have hx : x ∈ pending.map Prod.snd := h.upcoming.mem_iff.mp (hc.mem_iff.mpr (List.mem_cons_self ..))
  -- Equal answers cannot be told apart: any application that waits for this one will do.
  obtain ⟨r, hr, rfl⟩ := List.mem_map.mp hx
  obtain ⟨front, back, rfl⟩ := List.append_of_mem hr
  have hmoved : ((given ++ [r]) ++ (front ++ back)).Perm (given ++ (front ++ r :: back)) := by
    rw [List.append_assoc, List.singleton_append]
    exact List.perm_middle.symm.append_left given
  refine ⟨given ++ [r], front ++ back, ?_, ?_, ?_, fun q hq => h.own q (hmoved.mem_iff.mp hq), fun q hq => h.waits q ?_⟩
  · rw [hg, List.map_append, ← List.append_assoc]
    exact h.answers.append_right _
  · refine List.Perm.cons_inv (a := r.2) (hc.symm.trans (h.upcoming.trans ?_))
    exact List.perm_middle.map Prod.snd
  · rw [ha]
    exact (hmoved.map Prod.fst).trans h.applied
  · rcases List.mem_append.mp hq with hq | hq
    · exact List.mem_append_left _ hq
    · exact List.mem_append_right _ (.tail _ hq)

theorem Accounts.moves (h : s.Accounts refused given pending) (hs : s.Serviced) (hm : Moves o s t)
    (ho : ∀ op, ¬ o.tells (.submit op)) : ∃ given' pending', t.Accounts refused given' pending' := by
  cases replies_of_moves hs.telling hm with
  | keeps ha hg hc => exact ⟨given, pending, h.of_eq ha hg hc⟩
  | passes ha hg hc => exact h.passes ha hg hc
  | @submits op htells => exact absurd htells (ho op)
  | @applies e step he hstep ha hg hc =>
    subst hstep
    exact h.pays (Engine.pays_apply hs.storeOpen hs.telling.upcallOpen e.2 s.flushed) ha hg hc

theorem Accounts.submit (h : s.Accounts refused given pending) (hs : s.Serviced) (op : Operation) :
    (s.handle (.submit op)).Accounts (refused ++ s.refusedBy (.hear (.submit op))) given pending := by
  obtain ⟨hanswers, hcoming⟩ := answers_handle (s := s) (e := .submit op) nofun
  rw [show s.node.engine.handle s.node.host (.submit op) = s.node.engine.submit s.node.host op from rfl,
    Engine.answers_submitted hs.telling.upcallOpen] at hanswers
  refine ⟨?_, hcoming ▸ h.upcoming, by rw [applied_handle]; exact h.applied, h.own, h.waits⟩
  rw [hanswers, refusedBy]
  split
  · rw [List.map_append, List.append_assoc]
    exact (h.answers.append_right _).trans (by
      rw [List.append_assoc]
      exact List.perm_append_comm.append_left _)
  · rw [List.append_nil, List.append_nil]
    exact h.answers

theorem refusedBy_eq_nil (ha : ∀ op, a ≠ .hear (.submit op)) : s.refusedBy a = [] := by
  unfold refusedBy
  split
  · next op => exact absurd rfl (ha op)
  · rfl

/-- Nothing is refused where nothing is submitted. -/
theorem refusals_eq_nil {acts : List Act} (ha : ∀ a ∈ acts, ∀ op, a ≠ .hear (.submit op)) : s.refusals acts = [] := by
  induction acts generalizing s with
  | nil => rfl
  | cons a acts ih =>
    rw [refusals, refusedBy_eq_nil (ha a (.head _)), List.nil_append]
    split
    · exact ih fun b hb => ha b (.tail _ hb)
    · rfl

theorem Accounts.act (h : s.Accounts refused given pending) (hs : s.Serviced) (hact : s.act a = some t) :
    t.Serviced ∧ ∃ given' pending', t.Accounts (refused ++ s.refusedBy a) given' pending' := by
  by_cases hsubmit : ∃ op, a = .hear (.submit op)
  · obtain ⟨op, rfl⟩ := hsubmit
    have hm := moves_of_act (a := .hear (.submit op)) (o := Act.outside (.hear (.submit op))) rfl hact
    obtain ⟨-, hact⟩ := Option.ite_none_right_eq_some.mp hact
    cases hact
    exact ⟨hs.moves hm, given, pending, h.submit hs op⟩
  have hnot : ∀ op, a ≠ .hear (.submit op) := fun op ha => hsubmit ⟨op, ha⟩
  rw [refusedBy_eq_nil hnot, List.append_nil]
  rcases moves_or_delivers hact with hm | ⟨decisions, rfl⟩
  · exact ⟨hs.moves hm, h.moves hs hm hnot⟩
  · exact ⟨⟨⟨hs.telling.upcallOpen, hs.telling.eventsOpen⟩, hs.storeOpen⟩, given, pending, h.of_eq rfl rfl (.refl _)⟩

theorem Accounts.run {acts : List Act} (h : s.Accounts refused given pending) (hs : s.Serviced)
    (hrun : s.run acts = some t) : ∃ given' pending', t.Accounts (refused ++ s.refusals acts) given' pending' := by
  induction acts generalizing s refused given pending with
  | nil =>
    cases hrun
    exact ⟨given, pending, by rw [refusals, List.append_nil]; exact h⟩
  | cons a acts ih =>
    obtain ⟨u, hact, hrun⟩ := Option.bind_eq_some_iff.mp hrun
    obtain ⟨hu, given', pending', h'⟩ := h.act hs hact
    obtain ⟨given'', pending'', h''⟩ := ih h' hu hrun
    refine ⟨given'', pending'', ?_⟩
    rw [refusals, hact, ← List.append_assoc]
    exact h''

theorem Starts.serviced (hs : s.Starts) : s.Serviced := by
  cases hs <;> exact ⟨⟨rfl, rfl⟩, rfl⟩

theorem Starts.accounts (hs : s.Starts) : s.Accounts [] [] [] := by
  have hnone : s.answers = [] ∧ s.applied = [] ∧ s.node.background.queue = [] ∧ s.node.notices.stored = [] := by
    cases hs <;> exact ⟨rfl, rfl, rfl, rfl⟩
  obtain ⟨hg, ha, hq, hr⟩ := hnone
  refine ⟨.of_eq hg, .of_eq ?_, by rw [ha]; exact .refl _, fun _ hr => absurd hr List.not_mem_nil,
    fun _ hr => absurd hr List.not_mem_nil⟩
  rw [Site.upcoming, hq, hr]
  rfl

theorem Accounts.pending_eq_nil (h : s.Accounts refused given pending) (hq : s.node.background.queue = [])
    (hs : s.node.notices.stored = []) : pending = [] := by
  have hc := h.upcoming
  rw [Site.upcoming, hq, hs] at hc
  exact List.map_eq_nil_iff.mp (List.nil_perm.mp hc)

theorem Accounts.filter_given (h : s.Accounts refused given pending) (id : OpId) :
    (given.map Prod.snd).filter (·.id = id) = (given.filter (·.1.isOf id)).map Prod.snd := by
  rw [List.filter_map]
  refine congrArg _ (List.filter_congr fun r hr => ?_)
  exact ((h.own r (List.mem_append_left _ hr)).isOf id).symm

/-- The answers to an operation that is applied at one position only, and was not refused: they are answers to
    that application, and together with those to come there is one if the operation is answered at all. -/
theorem Accounts.answers_of (h : s.Accounts refused given pending) {a : Application} {id : OpId}
    (hone : s.applied.filter (Application.isOf id) = [a]) (hrefused : ∀ op ∈ refused, op.id ≠ id) :
    (∀ x ∈ s.answers.filter (·.id = id), a.Answers x) ∧
      (s.answers.filter (·.id = id)).length + (pending.filter (·.1.isOf id)).length =
        if a.isAnswered then 1 else 0 := by
  have hperm : (s.answers.filter (·.id = id)).Perm ((given.filter (·.1.isOf id)).map Prod.snd) := by
    have hp := h.answers.filter (·.id = id)
    have hnone : (refused.map fun op => (⟨op.id, .failed .unsupported⟩ : Answer)).filter (·.id = id) = [] := by
      refine List.filter_eq_nil_iff.mpr fun x hx => ?_
      obtain ⟨op, hop, rfl⟩ := List.mem_map.mp hx
      simpa using hrefused op hop
    rwa [List.filter_append, hnone, List.nil_append, h.filter_given] at hp
  have hall : (((given ++ pending).map Prod.fst).filter (Application.isOf id)).Perm
      ([a].filter Application.isAnswered) := by
    have hp := h.applied.filter (Application.isOf id)
    rwa [List.filter_filter, List.filter_congr (fun b _ => Bool.and_comm ..), ← List.filter_filter, hone] at hp
  refine ⟨fun x hx => ?_, ?_⟩
  · obtain ⟨r, hr, rfl⟩ := List.mem_map.mp (hperm.mem_iff.mp hx)
    obtain ⟨hr, hof⟩ := List.mem_filter.mp hr
    have hin : r.1 ∈ ((given ++ pending).map Prod.fst).filter (Application.isOf id) :=
      List.mem_filter.mpr ⟨List.mem_map_of_mem (List.mem_append_left _ hr), hof⟩
    obtain rfl : r.1 = a := List.mem_singleton.mp (List.mem_filter.mp (hall.mem_iff.mp hin)).1
    exact h.own r (List.mem_append_left _ hr)
  · have hlen := hall.length_eq
    rw [List.filter_map, List.length_map, List.filter_append, List.length_append] at hlen
    rw [hperm.length_eq, List.length_map]
    refine hlen.trans ?_
    cases ha : a.isAnswered <;> simp [ha]

end Site

/-- However a replica is fed with decisions, and in whatever order its engine, its storage and the responses go
    on: every answer that it has given refuses an operation that it did not propose, or belongs to one position
    whose value it has applied, and no two belong to the same. A position is answered as its mode and operation
    say, at once or when storage has responded, so that nothing is missing once nothing is queued. -/
theorem decided_operations_answered_once {start s : Site} (hstart : start.Starts) {acts : List Site.Act}
    (h : start.run acts = some s) :
    (∃ given pending, s.Accounts (start.refusals acts) given pending ∧
      (s.node.background.queue = [] → s.node.notices.stored = [] → pending = [])) ∧
    ∀ a id, s.applied.filter (Application.isOf id) = [a] → (∀ op ∈ start.refusals acts, op.id ≠ id) →
      let own := s.answers.filter (·.id = id)
      (∀ x ∈ own, a.Answers x) ∧ own.length ≤ (if a.isAnswered then 1 else 0) ∧
        (a.waits = false ∨ s.node.background.queue = [] ∧ s.node.notices.stored = [] →
          own.length = if a.isAnswered then 1 else 0) := by
  obtain ⟨given, pending, haccounts⟩ := hstart.accounts.run hstart.serviced h
  rw [List.nil_append] at haccounts
  refine ⟨⟨given, pending, haccounts, haccounts.pending_eq_nil⟩, fun a id hone hrefused => ?_⟩
  obtain ⟨hown, hlen⟩ := haccounts.answers_of hone hrefused
  refine ⟨hown, by omega, fun hdone => ?_⟩
  have hnone : pending.filter (·.1.isOf id) = [] := by
    rcases hdone with hdone | ⟨hq, hs⟩
    · refine List.filter_eq_nil_iff.mpr fun r hr hof => ?_
      have hin : r.1 ∈ s.applied.filter (Application.isOf id) := by
        have := haccounts.applied.mem_iff.mp (List.mem_map_of_mem (List.mem_append_right given hr))
        exact List.mem_filter.mpr ⟨(List.mem_filter.mp this).1, hof⟩
      rw [hone] at hin
      rw [← List.mem_singleton.mp hin, haccounts.waits r hr] at hdone
      cases hdone
    · rw [haccounts.pending_eq_nil hq hs]
      rfl
  rwa [hnone, List.length_nil, Nat.add_zero] at hlen

/-- A read before the replica joins, and an operation of each kind while it catches up, in one batch. -/
def joiningActs : List Site.Act :=
  .deliver [⟨1, .op ⟨⟨11⟩, .get ⟨[97]⟩⟩⟩, ⟨2, .reconfigure ⟨⟨1⟩, ⟨2, .ofList [.name "a", .name "b"]⟩, 2, 0, .full⟩⟩,
    ⟨3, .op ⟨⟨12⟩, .put ⟨[97]⟩ [49]⟩⟩, ⟨4, .op ⟨⟨13⟩, .get ⟨[97]⟩⟩⟩, ⟨5, .op ⟨⟨14⟩, .multi ⟨[], .empty, .empty⟩⟩⟩] ::
    List.replicate 11 .advance

/-- Of these, the put and the conditional write are answered. -/
theorem joiner_answers_writes :
    ∃ s, (Site.fresh (.name "b") default .ofNat .empty).run joiningActs = some s ∧
      [11, 12, 13, 14].map (fun n => (s.answers.filter (·.id = ⟨n⟩)).length) = [0, 1, 0, 1] := by
  generalize hrun : (Site.fresh (.name "b") default .ofNat .empty).run joiningActs = run
  have hdone : run.map (fun s => [11, 12, 13, 14].map fun n =>
      (s.applied.filter (Application.isOf ⟨n⟩)).map fun a => (a.isAnswered, a.waits)) =
        some [[(false, false)], [(true, false)], [(false, false)], [(true, false)]] := by
    rw [← hrun]
    decide
  obtain ⟨s, rfl, hs⟩ := Option.map_eq_some_iff.mp hdone
  have hcount : ∀ n b, (s.applied.filter (Application.isOf ⟨n⟩)).map (fun a => (a.isAnswered, a.waits)) = [(b, false)] →
      (s.answers.filter (·.id = ⟨n⟩)).length = if b then 1 else 0 := by
    intro n b hn
    obtain ⟨a, hone, ha⟩ := List.map_eq_singleton_iff.mp hn
    obtain ⟨rfl, hw⟩ := Prod.mk.inj ha
    have hstart : Site.Starts (.fresh (.name "b") default .ofNat .empty) := .fresh ..
    have hnone : (Site.fresh (.name "b") default .ofNat .empty).refusals joiningActs = [] :=
      Site.refusals_eq_nil (by simp [joiningActs])
    exact ((decided_operations_answered_once hstart hrun).2 a ⟨n⟩ hone (by simp [hnone])).2.2 (.inl hw)
  simp only [List.map_cons, List.map_nil, List.cons.injEq, and_true] at hs
  obtain ⟨h1, h2, h3, h4⟩ := hs
  refine ⟨s, rfl, ?_⟩
  simp [hcount _ _ h1, hcount _ _ h2, hcount _ _ h3, hcount _ _ h4]

end ReplicaGroup
