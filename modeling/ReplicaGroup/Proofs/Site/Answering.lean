import Mathlib.Data.List.Perm.Basic
import ReplicaGroup.Proofs.Site.Order
import ReplicaGroup.Proofs.Site.Serving

/-! # The answers of a site

An answer is given when a value is applied, when a client's operation is refused, and when a response of
storage is taken. What storage has queued and the responses not taken yet stand for the answers that are
still to come. -/

namespace ReplicaGroup

/-- The answers that queued requests will lead to. -/
def Store.due : Store → List (Request × Option Requester) → List Answer
  | _, [] => []
  | s, (r, requester?) :: rest =>
    (if requester? = some .engine then (r.execute s).response.answer?.toList else []) ++
      due (r.execute s).store rest

theorem Store.due_append (s : Store) (front back : List (Request × Option Requester)) :
    s.due (front ++ back) = s.due front ++ (s.afterAll (front.map (·.1))).due back := by
  induction front generalizing s with
  | nil => rfl
  | cons r front ih =>
    obtain ⟨r, requester?⟩ := r
    rw [List.cons_append, due, ih, due, List.append_assoc]
    rfl

theorem Store.due_of_transfer (requests : List Request) (id : TransferId) (s : Store) :
    s.due (requests.map fun r => (r, some (.transfer id))) = [] := by
  induction requests generalizing s with
  | nil => rfl
  | cons r requests ih => rw [List.map_cons, due, ih, if_neg (by simp)]; rfl

namespace Site
variable {s t : Site} {step : Step} {o : Outside}

/-- The answers that a site has given. -/
def answers (s : Site) : List Answer := s.node.notices.upcalls.filterMap Upcall.answer?

/-- The answers that a site will give for what is queued. -/
def upcoming (s : Site) : List Answer :=
  s.node.notices.stored.filterMap Response.answer? ++ s.node.store.due s.node.background.queue

/-- Whether the replica can answer, and hears of its storage. -/
structure Telling (s : Site) : Prop where
  upcallOpen : s.node.upcallOpen = true
  eventsOpen : s.node.eventsOpen = true

theorem answers_take : (s.take step).answers = s.answers ++ step.answers := by
  rw [answers, take_upcalls, List.filterMap_append, List.filterMap_filterMap]
  rfl

theorem upcoming_take : (s.take step).upcoming =
    s.upcoming ++ s.flushed.due ((step.effects.filterMap Effect.request?).map fun r => (r, r.requester?)) := by
  rw [upcoming, take_stored, take_store, take_queue, Store.due_append, ← List.append_assoc]
  rfl

theorem upcoming_take_idle (h : step.effects.filterMap Effect.request? = []) : (s.take step).upcoming = s.upcoming := by
  rw [upcoming_take, h]
  exact List.append_nil _

/-- An event other than decisions makes a site give answers, and owe nothing more. -/
theorem answers_handle {e : Event} (he : ∀ ds, e ≠ .decide ds) :
    (s.handle e).answers = s.answers ++ (s.node.engine.handle s.node.host e).answers ∧ (s.handle e).upcoming = s.upcoming := by
  have hidle := filterMap_request?_of_idle (Engine.idle_handle (h := s.node.host) (e := s.node.engine) he)
  by_cases hstop : e = .stop
  · subst hstop
    simp only [handle, halt_eq, answers, upcoming, Background.queue_releaseAll]
    exact ⟨answers_take, upcoming_take_idle hidle⟩
  · rw [handle_eq_take hstop]
    exact ⟨answers_take, upcoming_take_idle hidle⟩

theorem Telling.of_eq (hs : s.Telling) (hu : t.node.upcallOpen = s.node.upcallOpen)
    (he : t.node.eventsOpen = s.node.eventsOpen) : t.Telling :=
  ⟨hu.trans hs.upcallOpen, he.trans hs.eventsOpen⟩

theorem Telling.take (hs : s.Telling) (step : Step) : (s.take step).Telling := hs.of_eq take_upcallOpen take_eventsOpen

theorem Telling.handle (hs : s.Telling) (e : Event) : (s.handle e).Telling := by
  have ht := hs.take (s.node.engine.handle s.node.host e)
  by_cases hstop : e = .stop
  · subst hstop
    exact ⟨ht.upcallOpen, ht.eventsOpen⟩
  · rwa [handle_eq_take hstop]

theorem Telling.moves (hs : s.Telling) (h : Moves o s t) : t.Telling := by
  cases h with
  | @hear e s' hi he =>
    obtain ⟨notices, rfl⟩ := he.eq
    have hs' : Telling { s with node := { s.node with notices := notices } } := ⟨hs.upcallOpen, hs.eventsOpen⟩
    exact hs'.handle e
  | apply hrun hr => exact hs.of_eq take_upcallOpen take_eventsOpen
  | finish hrun hr hb => exact hs.of_eq take_upcallOpen take_eventsOpen
  | execute hq =>
    obtain ⟨⟨r, requester?⟩, rest, hq⟩ := List.exists_cons_of_ne_nil hq
    rw [Node.serve_one hq]
    exact ⟨hs.upcallOpen, hs.eventsOpen⟩
  | transfer hn =>
    obtain ⟨u, u', reports, -, -, rfl⟩ := Node.stepTransfer_eq_some hn
    exact ⟨hs.upcallOpen, hs.eventsOpen⟩
  | deliver | insert | wait | register => exact ⟨hs.upcallOpen, hs.eventsOpen⟩

/-- Executing a request turns the answer that it is owed into a response. -/
theorem upcoming_execute (hs : s.Telling) (hq : s.node.background.queue ≠ []) :
    upcoming { s with node := (s.node.serve 1).1 } = s.upcoming := by
  obtain ⟨⟨r, requester?⟩, rest, hq⟩ := List.exists_cons_of_ne_nil hq
  rw [upcoming, upcoming, Node.serve_one hq, hq, Store.due]
  simp only [Background.queue_resolve, List.filterMap_append, List.append_assoc, hs.eventsOpen, and_true]
  by_cases hr : requester? = some .engine
  · rw [if_pos hr, if_pos hr]
    cases ha : (r.execute s.node.store).response.answer? <;> simp [ha]
  · rw [if_neg hr, if_neg hr]
    rfl

/-- What a move does with the answers of a site. -/
inductive Replies (o : Outside) (s t : Site) : Prop
  | keeps (ha : t.applied = s.applied) (hg : t.answers = s.answers) (hc : t.upcoming.Perm s.upcoming)
  /-- An answer that was to come is given. -/
  | passes {x : Answer} (ha : t.applied = s.applied) (hg : t.answers = s.answers ++ [x])
    (hc : s.upcoming.Perm (x :: t.upcoming))
  | submits {op : Operation} (ho : o.tells (.submit op)) (ha : t.applied = s.applied)
    (hg : t.answers = s.answers ++ (s.node.engine.submit s.node.host op).answers) (hc : t.upcoming = s.upcoming)
  | applies {e : Position × Value} {step : Step} (he : e ∈ s.released)
    (hstep : step = s.node.engine.apply s.node.host e.1 e.2)
    (ha : t.applied = s.applied ++ [⟨e.1, e.2, s.node.engine, step.effects⟩])
    (hg : t.answers = s.answers ++ step.answers)
    (hc : t.upcoming =
      s.upcoming ++ s.flushed.due ((step.effects.filterMap Effect.request?).map fun r => (r, r.requester?)))

theorem replies_silent {e : Event} (hd : ∀ ds, e ≠ .decide ds) (ha : t.applied = s.applied) (hg : t.answers = s.answers)
    (hc : t.upcoming = s.upcoming) (hnone : (t.node.engine.handle t.node.host e).answers = []) :
    Replies o s (t.handle e) := by
  obtain ⟨hanswers, hcoming⟩ := answers_handle (s := t) hd
  refine .keeps ((applied_handle e).trans ha) ?_ (.of_eq (hcoming.trans hc))
  rw [hanswers, hnone, List.append_nil, hg]

/-- Taking a response gives the answer that it leads to, if there is one. -/
theorem replies_response {i : Nat} {r : Response} (hs : s.Telling) (hr : s.node.notices.stored[i]? = some r) :
    Replies o s
      (handle { s with node := s.node.note fun x => { x with stored := x.stored.eraseIdx i } } (.stored r)) := by
  generalize ht : ({ s with node := s.node.note fun x => { x with stored := x.stored.eraseIdx i } } : Site) = t
  obtain ⟨hanswers, hcoming⟩ := answers_handle (s := t) (e := .stored r) nofun
  have htold : (t.node.engine.handle t.node.host (.stored r)).answers = r.answer?.toList :=
    Engine.answers_stored (by rw [← ht]; exact hs.upcallOpen) r
  rw [htold] at hanswers
  have happlied : (t.handle (.stored r)).applied = s.applied := by rw [applied_handle, ← ht]
  -- The response may stand anywhere among those that were not taken yet.
  have hperm : s.upcoming.Perm (r.answer?.toList ++ (t.handle (.stored r)).upcoming) := by
    obtain ⟨hlt, rfl⟩ := List.getElem?_eq_some_iff.mp hr
    have hstored := (List.getElem_cons_eraseIdx_perm hlt).symm.filterMap Response.answer?
    have hcons : ∀ (a : Response) l, (a :: l).filterMap Response.answer? =
        a.answer?.toList ++ l.filterMap Response.answer? := fun a l => by
      cases ha : a.answer? <;> simp [ha]
    rw [hcons] at hstored
    rw [hcoming, ← ht]
    refine (hstored.append_right _).trans (.of_eq (List.append_assoc ..))
  cases ha : r.answer? with
  | none =>
    rw [ha] at hanswers hperm
    exact .keeps happlied (by rw [hanswers, ← ht]; exact List.append_nil _) hperm.symm
  | some x =>
    rw [ha] at hanswers hperm
    exact .passes happlied (by rw [hanswers, ← ht]; rfl) hperm

theorem replies_of_moves (hs : s.Telling) (h : Moves o s t) : Replies o s t := by
  cases h with
  | @hear e s' hi he =>
    have hd := not_decide_of_heard he
    cases he with
    | hear hext ho =>
      -- Of all that comes from outside only a submission can be answered at once.
      by_cases hsub : ∃ op, e = .submit op
      · obtain ⟨op, rfl⟩ := hsub
        obtain ⟨hanswers, hcoming⟩ := answers_handle (s := s) hd
        exact .submits ho (applied_handle _) hanswers hcoming
      · refine replies_silent hd rfl rfl rfl (Engine.answers_eq_nil (Engine.silent_handle hd ?_ fun op hop => hsub ⟨op, hop⟩))
        rintro r rfl
        cases hext
    | response hr => exact replies_response hs hr
    | completion hc =>
      exact replies_silent hd rfl rfl rfl (Engine.answers_eq_nil (Engine.silent_handle hd (by simp) (by simp)))
    | stopped hid =>
      exact replies_silent hd rfl rfl rfl (Engine.answers_eq_nil (Engine.silent_handle hd (by simp) (by simp)))
  | deliver hi hd => exact .keeps rfl rfl (.refl _)
  | @apply e rest hrun hr =>
    let begun : Site := { s with
      released := rest
      applied := s.applied ++ [⟨e.1, e.2, s.node.engine, (s.node.engine.apply s.node.host e.1 e.2).effects⟩] }
    exact .applies (hr ▸ .head _) rfl take_applied (answers_take (s := begun)) (upcoming_take (s := begun))
  | insert hrun hr hb => exact .keeps rfl rfl (.refl _)
  | finish hrun hr hb =>
    refine .keeps take_applied ?_ (.of_eq (upcoming_take_idle (s := { s with batch? := none })
      (filterMap_request?_of_idle Engine.idle_prune)))
    refine (answers_take (s := { s with batch? := none })).trans ?_
    rw [Engine.answers_prune, List.append_nil]
    rfl
  | execute hq =>
    refine .keeps rfl ?_ (.of_eq (upcoming_execute hs hq))
    obtain ⟨⟨r, requester?⟩, rest, hq⟩ := List.exists_cons_of_ne_nil hq
    rw [answers, answers, Node.serve_one hq]
  | transfer hn =>
    obtain ⟨u, u', reports, -, -, rfl⟩ := Node.stepTransfer_eq_some hn
    refine .keeps rfl rfl (.of_eq ?_)
    simp only [upcoming, Store.due_append, Store.due_of_transfer, List.append_nil]
  | wait ms => exact .keeps rfl rfl (.of_eq (by simp [upcoming, Node.advance]))
  | register ha => exact .keeps rfl rfl (.refl _)

end Site
end ReplicaGroup
