import ReplicaGroup.Group
import ReplicaGroup.OrderedMap.Lemmas
import ReplicaGroup.Proofs.Engine.Answers
import Mathlib.Data.List.Nodup
import Mathlib.Data.List.Count

/-! # Which answer an invocation gets

Invocations of one client end in whatever order answers arrive and deadlines come. As long as no two of
them are about the same operation, each one ends on its own: with the first answer to its operation that
is delivered while it waits, and otherwise when its deadline is taken. -/

namespace ReplicaGroup

/-- The end of an invocation with an outcome. -/
def Invocation.ended (i : Invocation) (outcome : Outcome) : Resolution := ⟨i.ticket, i.id, .ok outcome⟩

namespace Client

/-- Takes the deadline of one invocation, if it has come. -/
def lapse (c : Client) (now ticket : Nat) : Client × List Resolution :=
  match c.waiting.find? fun i => i.ticket = ticket ∧ i.deadline ≤ now with
  | some i => { c with pending := c.pending.erase i.id }.finish ticket (.ok (.failed .timeout))
  | none => (c, [])

/-- What happens to a client. -/
inductive Act where
  | invoke (now : Nat) (isOpen : Bool) (id : OpId)
  | deliver (answer : Answer)
  /-- The deadline of one invocation is taken. -/
  | lapse (now ticket : Nat)
  /-- Every deadline that has come is taken. -/
  | expire (now : Nat)
  | endDisplaced

/-- The operation that an act invokes. -/
def Act.invoked? : Act → Option OpId
  | invoke _ _ id => some id
  | _ => none

/-- Whether the replica takes events where the act needs it. -/
def Act.IsOpen : Act → Prop
  | invoke _ isOpen _ => isOpen = true
  | _ => True

/-- The outcome that an act gives an invocation that waits: an answer to its operation, or a timeout where
    the act takes its deadline. -/
def Act.outcome? (i : Invocation) : Act → Option Outcome
  | deliver answer => if answer.id = i.id then some answer.outcome else none
  | invoke now .. | expire now => if i.deadline ≤ now then some (.failed .timeout) else none
  | lapse now ticket => if i.ticket = ticket ∧ i.deadline ≤ now then some (.failed .timeout) else none
  | endDisplaced => none

/-- The client after an act, and the invocations that end. -/
def act (c : Client) : Act → Client × List Resolution
  | .invoke now isOpen id => c.invoke now isOpen id
  | .deliver answer => c.deliver answer
  | .lapse now ticket => c.lapse now ticket
  | .expire now => c.expire now
  | .endDisplaced => c.endDisplaced

/-- The client after acts, and the invocations that end, in order. -/
def run (c : Client) : List Act → Client × List Resolution
  | [] => (c, [])
  | a :: acts => (((c.act a).1.run acts).1, (c.act a).2 ++ ((c.act a).1.run acts).2)

variable {c : Client} {a : Act} {acts : List Act} {i : Invocation}

theorem run_append (front back : List Act) :
    c.run (front ++ back) =
      (((c.run front).1.run back).1, (c.run front).2 ++ ((c.run front).1.run back).2) := by
  induction front generalizing c with
  | nil => rfl
  | cons a front ih => simp only [List.cons_append, run, ih, List.append_assoc]

/-- What holds of a client whose invocations are about different operations: an answer finds exactly the
    invocation of its operation. -/
structure Tidy (c : Client) : Prop where
  settled : c.displaced = []
  apart : c.waiting.Pairwise fun i j => i.ticket ≠ j.ticket
  numbered : ∀ i ∈ c.waiting, i.ticket < c.invoked
  routed : ∀ id ticket, c.pending.get? id = some ticket ↔ ∃ i ∈ c.waiting, i.id = id ∧ i.ticket = ticket

theorem tidy_new (timeout : Nat) : Tidy { timeout } where
  settled := rfl
  apart := .nil
  numbered := by simp
  routed := by simp [OrderedMap.get?_empty]

theorem eq_of_apart {l : List Invocation} (h : l.Pairwise fun i j => i.ticket ≠ j.ticket) {i j : Invocation}
    (hi : i ∈ l) (hj : j ∈ l) (he : i.ticket = j.ticket) : i = j := by
  have nodup : (l.map Invocation.ticket).Nodup := List.pairwise_map.mpr h
  exact List.inj_on_of_nodup_map nodup hi hj he

theorem Tidy.eq_of_ticket (h : Tidy c) {i j : Invocation} (hi : i ∈ c.waiting) (hj : j ∈ c.waiting)
    (he : i.ticket = j.ticket) : i = j := eq_of_apart h.apart hi hj he

theorem Tidy.eq_of_id (h : Tidy c) {i j : Invocation} (hi : i ∈ c.waiting) (hj : j ∈ c.waiting) (he : i.id = j.id) :
    i = j := by
  have first := (h.routed j.id i.ticket).mpr ⟨i, hi, he, rfl⟩
  have second := (h.routed j.id j.ticket).mpr ⟨j, hj, rfl, rfl⟩
  exact h.eq_of_ticket hi hj (Option.some.inj (first.symm.trans second))

/-- The only invocation that waits for an answer to its operation. -/
theorem Tidy.filter_id (h : Tidy c) (hi : i ∈ c.waiting) : c.waiting.filter (·.id = i.id) = [i] := by
  have key : c.waiting.filter (·.id = i.id) = c.waiting.filter (· = i) :=
    List.filter_congr fun j hj => by
      simpa using ⟨fun he => h.eq_of_id hj hi he, fun he => congrArg Invocation.id he⟩
  have nodup : c.waiting.Nodup := h.apart.imp fun hne he => hne (congrArg Invocation.ticket he)
  rw [key, List.filter_eq, List.count_eq_one_of_mem nodup hi, List.replicate_one]

/-! ### Ending some of the invocations -/

/-- The invocations to which `f` gives an outcome end with it, and nothing else changes. -/
structure Ends (c : Client) (f : Invocation → Option Outcome) (r : Client × List Resolution) : Prop where
  waiting : r.1.waiting = c.waiting.filter fun i => (f i).isNone
  pending : ∀ id, r.1.pending.get? id =
    if ∃ i ∈ c.waiting, i.id = id ∧ (f i).isSome then none else c.pending.get? id
  displaced : r.1.displaced = c.displaced
  invoked : r.1.invoked = c.invoked
  timeout : r.1.timeout = c.timeout
  ended : r.2.Perm (c.waiting.filterMap fun i => (f i).map i.ended)

section
variable {f : Invocation → Option Outcome} {r : Client × List Resolution}

theorem Tidy.ends (h : Tidy c) (e : Ends c f r) : Tidy r.1 where
  settled := e.displaced.trans h.settled
  apart := e.waiting ▸ h.apart.filter _
  numbered i hi := by
    rw [e.waiting] at hi
    exact e.invoked ▸ h.numbered i (List.mem_filter.mp hi).1
  routed id ticket := by
    rw [e.pending, e.waiting]
    split
    · rename_i hsome
      obtain ⟨i, hi, rfl, hf⟩ := hsome
      refine iff_of_false (fun h => by cases h) ?_
      rintro ⟨j, hj, hid, -⟩
      obtain ⟨hj, hnone⟩ := List.mem_filter.mp hj
      rw [h.eq_of_id hj hi hid, Option.isNone_iff_eq_none] at hnone
      rw [hnone] at hf
      exact absurd hf (by simp)
    · rename_i hnone
      rw [h.routed]
      constructor
      · rintro ⟨i, hi, hid, ht⟩
        refine ⟨i, List.mem_filter.mpr ⟨hi, ?_⟩, hid, ht⟩
        cases hf : f i with
        | none => rfl
        | some outcome => exact absurd ⟨i, hi, hid, by rw [hf]; rfl⟩ hnone
      · rintro ⟨i, hi, hid, ht⟩
        exact ⟨i, (List.mem_filter.mp hi).1, hid, ht⟩

theorem Ends.filter_id (h : Tidy c) (e : Ends c f r) (hi : i ∈ c.waiting) :
    r.2.filter (·.id = i.id) = ((f i).map i.ended).toList := by
  have key : (c.waiting.filterMap fun j => (f j).map j.ended).filter (·.id = i.id) = ((f i).map i.ended).toList := by
    have pass : (c.waiting.filterMap fun j => (f j).map j.ended).filter (·.id = i.id) =
        (c.waiting.filter (·.id = i.id)).filterMap fun j => (f j).map j.ended := by
      rw [List.filter_filterMap, List.filterMap_filter]
      refine List.filterMap_congr fun j _ => ?_
      cases f j <;> simp [Invocation.ended, Option.filter]
    rw [pass, h.filter_id hi, List.filterMap_cons, List.filterMap_nil]
    cases f i <;> rfl
  -- In which order several invocations end is left open, but there is only one for the operation.
  have perm := e.ended.filter (·.id = i.id)
  rw [key] at perm
  cases hf : f i with
  | none =>
    rw [hf] at perm
    exact List.perm_nil.mp perm
  | some outcome =>
    rw [hf] at perm
    exact List.perm_singleton.mp perm

theorem Ends.mem (e : Ends c f r) {x : Resolution} (hx : x ∈ r.2) :
    ∃ i ∈ c.waiting, ∃ outcome, f i = some outcome ∧ x = i.ended outcome := by
  obtain ⟨i, hi, he⟩ := List.mem_filterMap.mp (e.ended.mem_iff.mp hx)
  obtain ⟨outcome, hf, rfl⟩ := Option.map_eq_some_iff.mp he
  exact ⟨i, hi, outcome, hf, rfl⟩

theorem ends_refl (hf : ∀ i ∈ c.waiting, f i = none) : Ends c f (c, []) where
  waiting := (List.filter_eq_self.mpr fun i hi => by simp [hf i hi]).symm
  pending id := by
    rw [if_neg]
    rintro ⟨i, hi, -, hsome⟩
    simp [hf i hi] at hsome
  displaced := rfl
  invoked := rfl
  timeout := rfl
  ended := by
    rw [List.filterMap_eq_nil_iff.mpr fun i hi => by simp [hf i hi]]

/-- One invocation ends, and its operation is forgotten. -/
theorem ends_finish {outcome : Outcome} (h : Tidy c) (hi : i ∈ c.waiting)
    (hf : ∀ j ∈ c.waiting, f j = if j.ticket = i.ticket then some outcome else none) :
    Ends c f ({ c with pending := c.pending.erase i.id }.finish i.ticket (.ok outcome)) where
  waiting := List.filter_congr fun j hj => by
    rw [hf j hj]
    by_cases he : j.ticket = i.ticket <;> simp [he]
  pending id := by
    have same : (∃ j ∈ c.waiting, j.id = id ∧ (f j).isSome) ↔ i.id = id := by
      constructor
      · rintro ⟨j, hj, rfl, hsome⟩
        rw [hf j hj] at hsome
        have he : j.ticket = i.ticket := by_contra fun hne => by simp [hne] at hsome
        rw [h.eq_of_ticket hj hi he]
      · rintro rfl
        exact ⟨i, hi, rfl, by simp [hf i hi]⟩
    simp only [same, eq_comm (a := i.id)]
    exact OrderedMap.get?_erase c.pending i.id id
  displaced := rfl
  invoked := rfl
  timeout := rfl
  ended := by
    have key : (c.waiting.filter (·.ticket = i.ticket)).map (fun j => Resolution.mk i.ticket j.id (.ok outcome)) =
        c.waiting.filterMap fun j => (f j).map j.ended := by
      rw [← List.filterMap_eq_map, List.filterMap_filter]
      refine List.filterMap_congr fun j hj => ?_
      rw [hf j hj]
      by_cases he : j.ticket = i.ticket <;> simp [he, Invocation.ended]
    exact .of_eq key

theorem ends_deliver (h : Tidy c) (answer : Answer) :
    Ends c (Act.outcome? · (.deliver answer)) (c.deliver answer) := by
  unfold deliver
  cases hp : c.pending.get? answer.id with
  | none =>
    refine ends_refl fun i hi => if_neg fun he => ?_
    have := (h.routed i.id i.ticket).mpr ⟨i, hi, rfl, rfl⟩
    rw [← he, hp] at this
    cases this
  | some ticket =>
    obtain ⟨i, hi, hid, rfl⟩ := (h.routed _ _).mp hp
    rw [← hid]
    refine ends_finish h hi fun j hj => ?_
    have same : answer.id = j.id ↔ j.ticket = i.ticket :=
      ⟨fun he => congrArg Invocation.ticket (h.eq_of_id hj hi (he ▸ hid.symm)),
        fun he => h.eq_of_ticket hj hi he ▸ hid.symm⟩
    simp only [Act.outcome?, same]

theorem ends_lapse (h : Tidy c) (now ticket : Nat) :
    Ends c (Act.outcome? · (.lapse now ticket)) (c.lapse now ticket) := by
  unfold lapse
  cases hfind : c.waiting.find? fun i => i.ticket = ticket ∧ i.deadline ≤ now with
  | none => exact ends_refl fun i hi => if_neg (by simpa using List.find?_eq_none.mp hfind i hi)
  | some i =>
    have hi := List.mem_of_find?_eq_some hfind
    obtain ⟨rfl, hdue⟩ : i.ticket = ticket ∧ i.deadline ≤ now := by simpa using List.find?_some hfind
    refine ends_finish h hi fun j hj => ?_
    have same : (j.ticket = i.ticket ∧ j.deadline ≤ now) ↔ j.ticket = i.ticket :=
      ⟨And.left, fun he => ⟨he, h.eq_of_ticket hj hi he ▸ hdue⟩⟩
    simp only [Act.outcome?, same]

theorem get?_foldl_erase {due : List Invocation} {m : OrderedMap OpId Nat} {id : OpId} :
    (due.foldl (fun m i => m.erase i.id) m).get? id = if ∃ i ∈ due, i.id = id then none else m.get? id := by
  induction due generalizing m with
  | nil => simp
  | cons i due ih =>
    rw [List.foldl_cons, ih, OrderedMap.get?_erase]
    by_cases he : i.id = id
    · simp [he]
    · simp [he, Ne.symm he]

theorem ends_expire (now : Nat) : Ends c (Act.outcome? · (.expire now)) (c.expire now) where
  waiting := List.filter_congr fun i _ => by
    by_cases hdue : i.deadline ≤ now <;> simp [Act.outcome?, hdue]
  pending id := by
    refine get?_foldl_erase.trans ?_
    have same : (∃ i ∈ (c.waiting.filter (·.deadline ≤ now)).mergeSort fun a b => a.deadline ≤ b.deadline, i.id = id) ↔
        ∃ i ∈ c.waiting, i.id = id ∧ (Act.outcome? i (.expire now)).isSome := by
      simp only [List.mem_mergeSort, List.mem_filter, Act.outcome?]
      refine exists_congr fun i => ?_
      by_cases hdue : i.deadline ≤ now <;> simp [hdue]
    simp only [same]
  displaced := rfl
  invoked := rfl
  timeout := rfl
  ended := by
    have key : (c.waiting.filter (·.deadline ≤ now)).map (Invocation.ended · (.failed .timeout)) =
        c.waiting.filterMap fun i => (Act.outcome? i (.expire now)).map i.ended := by
      rw [← List.filterMap_eq_map, List.filterMap_filter]
      refine List.filterMap_congr fun i _ => ?_
      by_cases hdue : i.deadline ≤ now <;> simp [Act.outcome?, hdue]
    exact ((List.mergeSort_perm _ _).map _).trans (.of_eq key)

theorem ends_endDisplaced (h : Tidy c) : Ends c (Act.outcome? · .endDisplaced) c.endDisplaced := by
  have same : c.endDisplaced = (c, []) := by
    simp only [endDisplaced, h.settled, List.map_nil]
    rw [← h.settled]
  rw [same]
  exact ends_refl fun _ _ => rfl

end

/-! ### Starting an invocation -/

/-- The client once an invocation has started to wait. -/
def enter (c : Client) (now : Nat) (id : OpId) : Client :=
  { c with
    pending := c.pending.insert id c.invoked
    waiting := c.waiting ++ [⟨c.invoked, id, now + c.timeout⟩]
    invoked := c.invoked + 1 }

theorem invoke_eq (h : Tidy c) {now : Nat} {id : OpId} (hid : ∀ i ∈ c.waiting, i.id ≠ id) :
    c.invoke now true id = (c.enter now id).expire now := by
  have hp : c.pending.get? id = none := by
    cases hp : c.pending.get? id with
    | none => rfl
    | some ticket =>
      obtain ⟨i, hi, he, -⟩ := (h.routed _ _).mp hp
      exact absurd he (hid i hi)
  simp only [invoke, hp, if_true]
  rfl

theorem tidy_enter (h : Tidy c) {now : Nat} {id : OpId} (hid : ∀ i ∈ c.waiting, i.id ≠ id) :
    Tidy (c.enter now id) where
  settled := h.settled
  apart := List.pairwise_append.mpr ⟨h.apart, List.pairwise_singleton .., fun i hi j hj => by
    cases List.mem_singleton.mp hj
    exact Nat.ne_of_lt (h.numbered i hi)⟩
  numbered i hi := by
    rcases List.mem_append.mp hi with hi | hi
    · exact Nat.lt_succ_of_lt (h.numbered i hi)
    · cases List.mem_singleton.mp hi
      exact Nat.lt_succ_self _
  routed other ticket := by
    simp only [enter, OrderedMap.get?_insert, List.mem_append, List.mem_singleton]
    by_cases he : other = id
    · subst he
      rw [if_pos rfl]
      constructor
      · rintro ⟨⟩
        exact ⟨_, .inr rfl, rfl, rfl⟩
      · rintro ⟨i, hi | rfl, hi', rfl⟩
        · exact absurd hi' (hid i hi)
        · rfl
    · rw [if_neg he, h.routed]
      constructor
      · rintro ⟨i, hi, hi'⟩
        exact ⟨i, .inl hi, hi'⟩
      · rintro ⟨i, hi | rfl, rfl, rfl⟩
        · exact ⟨i, hi, rfl, rfl⟩
        · exact absurd rfl he

/-! ### Runs -/

/-- The client when an act hands out outcomes: an invocation that the act starts waits already. -/
def before (c : Client) : Act → Client
  | .invoke now _ id => c.enter now id
  | _ => c

/-- The acts can follow: they are about operations that no waiting invocation and no other act invokes. -/
structure Admits (c : Client) (acts : List Act) : Prop where
  tidy : Tidy c
  isOpen : ∀ a ∈ acts, a.IsOpen
  nodup : (c.waiting.map Invocation.id ++ acts.filterMap Act.invoked?).Nodup

theorem filterMap_invoked_cons (a : Act) (acts : List Act) :
    (a :: acts).filterMap Act.invoked? = a.invoked?.toList ++ acts.filterMap Act.invoked? := by
  rw [List.filterMap_cons]
  cases a.invoked? <;> rfl

theorem before_ids (a : Act) (c : Client) :
    (c.before a).waiting.map Invocation.id = c.waiting.map Invocation.id ++ a.invoked?.toList := by
  cases a with
  | invoke => exact List.map_append
  | deliver | lapse | expire | endDisplaced => exact (List.append_nil _).symm

namespace Admits
variable (h : Admits c (a :: acts))
include h

theorem fresh {now : Nat} {isOpen : Bool} {id : OpId} (ha : a = .invoke now isOpen id) :
    ∀ i ∈ c.waiting, i.id ≠ id := by
  subst ha
  intro i hi he
  have := (List.nodup_append.mp h.nodup).2.2 i.id (List.mem_map_of_mem hi) id (List.mem_cons_self ..)
  exact this he

theorem before : Tidy (c.before a) := by
  cases a with
  | invoke => exact tidy_enter h.tidy (h.fresh rfl)
  | deliver | lapse | expire | endDisplaced => exact h.tidy

/-- An act hands out its outcomes, and nothing else happens. -/
theorem ends : Ends (c.before a) a.outcome? (c.act a) := by
  cases a with
  | invoke now isOpen id =>
    obtain rfl : isOpen = true := h.isOpen _ (List.mem_cons_self ..)
    have same : c.act (.invoke now true id) = (c.enter now id).expire now := invoke_eq h.tidy (h.fresh rfl)
    rw [same]
    exact ends_expire now
  | deliver answer => exact ends_deliver h.tidy answer
  | lapse now ticket => exact ends_lapse h.tidy now ticket
  | expire now => exact ends_expire now
  | endDisplaced => exact ends_endDisplaced h.tidy

theorem nodup_before : ((c.before a).waiting.map Invocation.id ++ acts.filterMap Act.invoked?).Nodup := by
  rw [before_ids, List.append_assoc, ← filterMap_invoked_cons]
  exact h.nodup

theorem rest : Admits (c.act a).1 acts where
  tidy := h.before.ends h.ends
  isOpen b hb := h.isOpen b (.tail _ hb)
  nodup := by
    have sub : ((c.act a).1.waiting.map Invocation.id).Sublist ((c.before a).waiting.map Invocation.id) := by
      rw [h.ends.waiting]
      exact List.filter_sublist.map _
    exact h.nodup_before.sublist (sub.append_right _)

end Admits

theorem Admits.run {front back : List Act} (h : Admits c (front ++ back)) : Admits (c.run front).1 back := by
  induction front generalizing c with
  | nil => exact h
  | cons a front ih => exact ih h.rest

theorem run_cons (c : Client) (a : Act) (acts : List Act) :
    (c.run (a :: acts)).2 = (c.act a).2 ++ ((c.act a).1.run acts).2 := rfl

/-- Nothing ends for an operation that is not invoked. -/
theorem run_absent (h : Admits c acts) {id : OpId} (hw : ∀ i ∈ c.waiting, i.id ≠ id)
    (hn : id ∉ acts.filterMap Act.invoked?) : (c.run acts).2.filter (·.id = id) = [] := by
  induction acts generalizing c with
  | nil => rfl
  | cons a acts ih =>
    have hbefore : ∀ i ∈ (c.before a).waiting, i.id ≠ id := by
      intro i hi he
      have hid := List.mem_map_of_mem (f := Invocation.id) hi
      rw [before_ids, he] at hid
      rcases List.mem_append.mp hid with hid | hid
      · obtain ⟨j, hj, hje⟩ := List.mem_map.mp hid
        exact hw j hj hje
      · exact hn (List.mem_filterMap.mpr ⟨a, List.mem_cons_self .., by simpa using hid⟩)
    have hnow : (c.act a).2.filter (·.id = id) = [] := by
      refine List.filter_eq_nil_iff.mpr fun x hx => ?_
      obtain ⟨i, hi, outcome, -, rfl⟩ := h.ends.mem hx
      simp [Invocation.ended, hbefore i hi]
    have hlater := ih h.rest (fun i hi => hbefore i (List.mem_filter.mp (h.ends.waiting ▸ hi)).1)
      fun hid => hn (by
        obtain ⟨b, hb, he⟩ := List.mem_filterMap.mp hid
        exact List.mem_filterMap.mpr ⟨b, .tail _ hb, he⟩)
    rw [run_cons, List.filter_append, hnow, hlater, List.append_nil]

/-- A waiting invocation ends with the first outcome that an act gives it, and only once. -/
theorem run_waiting (h : Admits c (a :: acts)) (hi : i ∈ (c.before a).waiting) :
    (c.run (a :: acts)).2.filter (·.id = i.id) =
      (((a :: acts).findSome? (·.outcome? i)).map i.ended).toList := by
  -- once it has been given an outcome it waits no more, and no later act invokes its operation
  induction acts generalizing c a with
  | nil =>
    rw [run_cons, run, List.append_nil, h.ends.filter_id h.before hi, List.findSome?_cons]
    cases a.outcome? i <;> rfl
  | cons b acts ih =>
    rw [run_cons, List.filter_append, h.ends.filter_id h.before hi, List.findSome?_cons]
    cases hf : a.outcome? i with
    | none =>
      have hstill : i ∈ (c.act a).1.waiting := by
        rw [h.ends.waiting]
        exact List.mem_filter.mpr ⟨hi, by simp [hf]⟩
      have hin : i ∈ ((c.act a).1.before b).waiting := by
        cases b with
        | invoke => exact List.mem_append_left _ hstill
        | deliver | lapse | expire | endDisplaced => exact hstill
      exact ih h.rest hin
    | some outcome =>
      have hgone : ∀ j ∈ (c.act a).1.waiting, j.id ≠ i.id := by
        intro j hj he
        rw [h.ends.waiting] at hj
        obtain ⟨hj, hnone⟩ := List.mem_filter.mp hj
        rw [h.before.eq_of_id hj hi he, hf] at hnone
        exact absurd hnone (by simp)
      have hnew : i.id ∉ (b :: acts).filterMap Act.invoked? := fun hid =>
        (List.nodup_append.mp h.nodup_before).2.2 i.id (List.mem_map_of_mem hi) i.id hid rfl
      rw [run_absent h.rest hgone hnew, List.append_nil]

theorem run_counts (h : Admits c acts) :
    (c.run acts).1.invoked = c.invoked + (acts.filterMap Act.invoked?).length ∧
      (c.run acts).1.timeout = c.timeout := by
  induction acts generalizing c with
  | nil => exact ⟨rfl, rfl⟩
  | cons a acts ih =>
    obtain ⟨hinvoked, htimeout⟩ := ih h.rest
    refine ⟨hinvoked.trans ?_, htimeout.trans (h.ends.timeout.trans ?_)⟩
    · rw [h.ends.invoked, List.filterMap_cons]
      cases a with
      | invoke =>
        simp only [before, enter, Act.invoked?, List.length_cons]
        omega
      | deliver | lapse | expire | endDisplaced => rfl
    · cases a <;> rfl

section
variable {timeout now : Nat} {id : OpId} {front back : List Act}

theorem admits_new (hopen : ∀ a ∈ acts, a.IsOpen) (hids : (acts.filterMap Act.invoked?).Nodup) :
    Admits { timeout } acts := ⟨tidy_new timeout, hopen, hids⟩

/-- The invocation of an operation after acts. -/
def invocationAfter (timeout : Nat) (front : List Act) (now : Nat) (id : OpId) : Invocation :=
  ⟨(front.filterMap Act.invoked?).length, id, now + timeout⟩

/-- What an invocation of a client ends with. -/
theorem run_invoke (h : Admits { timeout } (front ++ .invoke now true id :: back)) :
    (run { timeout } (front ++ .invoke now true id :: back)).2.filter (·.id = id) =
      (((Act.invoke now true id :: back).findSome? (·.outcome? (invocationAfter timeout front now id))).map
        (invocationAfter timeout front now id).ended).toList := by
  have hfront : Admits { timeout } front :=
    ⟨h.tidy, fun a ha => h.isOpen a (List.mem_append_left _ ha),
      h.nodup.sublist (((List.sublist_append_left front _).filterMap _).append_left _)⟩
  obtain ⟨hinvoked, htimeout⟩ := run_counts hfront
  have hlast : invocationAfter timeout front now id ∈
      ((run { timeout } front).1.before (.invoke now true id)).waiting := by
    refine List.mem_append_right _ (List.mem_singleton.mpr ?_)
    rw [hinvoked, htimeout, invocationAfter, Nat.zero_add]
  have hearlier : id ∉ front.filterMap Act.invoked? := fun hid => by
    have hnodup : ((front ++ .invoke now true id :: back).filterMap Act.invoked?).Nodup := h.nodup
    rw [List.filterMap_append] at hnodup
    exact (List.nodup_append.mp hnodup).2.2 id hid id (List.mem_cons_self ..) rfl
  rw [run_append, List.filter_append, run_absent hfront nofun hearlier, List.nil_append]
  exact run_waiting h.run hlast

/-- An invocation that is made has a place among the acts. -/
theorem exists_invoke (hopen : ∀ a ∈ acts, a.IsOpen) (hid : id ∈ acts.filterMap Act.invoked?) :
    ∃ front now back, acts = front ++ .invoke now true id :: back := by
  obtain ⟨a, ha, he⟩ := List.mem_filterMap.mp hid
  cases a with
  | invoke now isOpen other =>
    obtain rfl : other = id := Option.some.inj he
    obtain rfl : isOpen = true := hopen _ ha
    obtain ⟨front, back, rfl⟩ := List.append_of_mem ha
    exact ⟨front, now, back, rfl⟩
  | deliver | lapse | expire | endDisplaced => cases he

/-- An answer to one operation changes nothing about how the invocation of another one ends. -/
theorem run_deliver_other {answer : Answer} (h : Admits { timeout } (front ++ .deliver answer :: back))
    (hid : id ≠ answer.id) :
    (run { timeout } (front ++ .deliver answer :: back)).2.filter (·.id = id) =
      (run { timeout } (front ++ back)).2.filter (·.id = id) := by
  have ids : (front ++ .deliver answer :: back).filterMap Act.invoked? = (front ++ back).filterMap Act.invoked? := by
    simp only [List.filterMap_append, List.filterMap_cons, Act.invoked?]
  have hless : Admits { timeout } (front ++ back) :=
    ⟨h.tidy, fun a ha => h.isOpen a (by
      rcases List.mem_append.mp ha with ha | ha
      · exact List.mem_append_left _ ha
      · exact List.mem_append_right _ (.tail _ ha)), ids ▸ h.nodup⟩
  by_cases hmade : id ∈ (front ++ back).filterMap Act.invoked?
  case neg => rw [run_absent h nofun (ids ▸ hmade), run_absent hless nofun hmade]
  rw [List.filterMap_append] at hmade
  rcases List.mem_append.mp hmade with hmade | hmade
  · obtain ⟨start, now, rest, rfl⟩ :=
      exists_invoke (fun a ha => hless.isOpen a (List.mem_append_left _ ha)) hmade
    rw [List.append_assoc, List.append_assoc, List.cons_append, List.cons_append] at *
    rw [run_invoke h, run_invoke hless]
    simp [List.findSome?_cons, List.findSome?_append, Act.outcome?, invocationAfter, Ne.symm hid]
  · obtain ⟨start, now, rest, rfl⟩ :=
      exists_invoke (fun a ha => hless.isOpen a (List.mem_append_right _ ha)) hmade
    have regroup : front ++ .deliver answer :: (start ++ .invoke now true id :: rest) =
        (front ++ .deliver answer :: start) ++ .invoke now true id :: rest := by simp
    rw [regroup] at h ⊢
    rw [← List.append_assoc] at hless ⊢
    rw [run_invoke h, run_invoke hless]
    simp [invocationAfter, List.filterMap_append, List.filterMap_cons, Act.invoked?]

end

/-- A delivered answer ends at most one invocation, the one of its operation. -/
theorem deliver_ends (h : Tidy c) (answer : Answer) :
    (c.deliver answer).2.length ≤ 1 ∧ ∀ x ∈ (c.deliver answer).2, x.id = answer.id ∧ x.outcome = .ok answer.outcome := by
  have e := ends_deliver h answer
  have own : ∀ x ∈ (c.deliver answer).2,
      ∃ i ∈ c.waiting, i.id = answer.id ∧ x = i.ended answer.outcome := by
    intro x hx
    obtain ⟨i, hi, outcome, hf, rfl⟩ := e.mem hx
    simp only [Act.outcome?] at hf
    split at hf
    · exact ⟨i, hi, Eq.symm ‹_›, Option.some.inj hf ▸ rfl⟩
    · cases hf
  refine ⟨?_, fun x hx => ?_⟩
  · cases hnone : (c.deliver answer).2 with
    | nil => simp
    | cons x more =>
      obtain ⟨i, hi, hid, -⟩ := own x (hnone ▸ List.mem_cons_self ..)
      have all : (c.deliver answer).2.filter (·.id = i.id) = (c.deliver answer).2 := by
        refine List.filter_eq_self.mpr fun y hy => ?_
        obtain ⟨j, hj, hjd, rfl⟩ := own y hy
        exact decide_eq_true (hjd.trans hid.symm)
      rw [← hnone, ← all, e.filter_id h hi]
      cases Act.outcome? i (.deliver answer) <;> simp
  · obtain ⟨i, hi, hid, rfl⟩ := own x hx
    exact ⟨hid, rfl⟩

/-! ### Deadlines that come together -/

theorem lapse_eq (h : Tidy c) {now : Nat} (hi : i ∈ c.waiting) (hdue : i.deadline ≤ now) :
    c.lapse now i.ticket =
      ({ c with waiting := c.waiting.filter (·.ticket ≠ i.ticket), pending := c.pending.erase i.id },
        [i.ended (.failed .timeout)]) := by
  have hfind : c.waiting.find? (fun j => j.ticket = i.ticket ∧ j.deadline ≤ now) = some i := by
    cases hfind : c.waiting.find? fun j => j.ticket = i.ticket ∧ j.deadline ≤ now with
    | none => exact absurd (List.find?_eq_none.mp hfind i hi) (by simp [hdue])
    | some j =>
      obtain ⟨ht, -⟩ : j.ticket = i.ticket ∧ j.deadline ≤ now := by simpa using List.find?_some hfind
      rw [h.eq_of_ticket (List.mem_of_find?_eq_some hfind) hi ht]
  have hone : c.waiting.filter (·.ticket = i.ticket) = [i] := by
    rw [← h.filter_id hi]
    refine List.filter_congr fun j hj => decide_eq_decide.mpr ⟨fun he => ?_, fun he => ?_⟩
    · rw [h.eq_of_ticket hj hi he]
    · rw [h.eq_of_id hj hi he]
  unfold lapse
  rw [hfind]
  simp only [finish, hone, List.map_cons, List.map_nil]
  rfl

theorem run_lapse {now : Nat} {due : List Invocation} (h : Tidy c) (hin : ∀ i ∈ due, i ∈ c.waiting)
    (hdue : ∀ i ∈ due, i.deadline ≤ now) (hnodup : due.Nodup) :
    c.run (due.map fun i => .lapse now i.ticket) =
      ({ c with
          waiting := c.waiting.filter (· ∉ due)
          pending := due.foldl (fun m i => m.erase i.id) c.pending },
        due.map (Invocation.ended · (.failed .timeout))) := by
  induction due generalizing c with
  | nil => simp [run]
  | cons i due ih =>
    have hi := hin i (List.mem_cons_self ..)
    have hact : c.act (.lapse now i.ticket) = c.lapse now i.ticket := rfl
    have htidy := h.ends (ends_lapse h now i.ticket)
    rw [lapse_eq h hi (hdue i (List.mem_cons_self ..))] at htidy hact
    have hrest := ih htidy
      (fun j hj => List.mem_filter.mpr ⟨hin j (.tail _ hj), by
        refine decide_eq_true fun ht => (List.nodup_cons.mp hnodup).1 ?_
        exact h.eq_of_ticket (hin j (.tail _ hj)) hi ht ▸ hj⟩)
      (fun j hj => hdue j (.tail _ hj)) (List.nodup_cons.mp hnodup).2
    have hwaiting : (c.waiting.filter (·.ticket ≠ i.ticket)).filter (· ∉ due) = c.waiting.filter (· ∉ i :: due) := by
      rw [List.filter_filter]
      refine List.filter_congr fun j hj => ?_
      have same : j.ticket = i.ticket ↔ j = i := ⟨h.eq_of_ticket hj hi, congrArg _⟩
      simp [same, Bool.and_comm]
    rw [List.map_cons, run, hact, hrest, hwaiting]
    rfl

/-- Taking all deadlines that have come is taking each of them, the earliest first. -/
theorem expire_eq_run (h : Tidy c) (now : Nat) :
    c.expire now = c.run (((c.waiting.filter (·.deadline ≤ now)).mergeSort fun a b => a.deadline ≤ b.deadline).map
      fun i => .lapse now i.ticket) := by
  have nodup : c.waiting.Nodup := h.apart.imp fun hne he => hne (congrArg Invocation.ticket he)
  rw [run_lapse h (fun i hi => (List.mem_filter.mp (List.mem_mergeSort.mp hi)).1)
    (fun i hi => by simpa using (List.mem_filter.mp (List.mem_mergeSort.mp hi)).2)
    ((List.mergeSort_perm _ _).nodup_iff.mpr (nodup.filter _))]
  have hwaiting : (c.waiting.filter fun i => ¬i.deadline ≤ now) = c.waiting.filter (· ∉
      ((c.waiting.filter (·.deadline ≤ now)).mergeSort fun a b => a.deadline ≤ b.deadline)) :=
    List.filter_congr fun i hi => by simp [List.mem_mergeSort, List.mem_filter, hi]
  rw [← hwaiting]
  rfl

/-! ### Correlation -/

/-- Every invocation ends with what it is given first, an answer to its operation or a timeout, and with
    nothing else; every answer ends at most the invocation of its operation and concerns no other one. -/
theorem answers_correlated (timeout : Nat) (acts : List Act) (hopen : ∀ a ∈ acts, a.IsOpen)
    (hids : (acts.filterMap Act.invoked?).Nodup) :
    (∀ front now id back, acts = front ++ .invoke now true id :: back →
      let i := invocationAfter timeout front now id
      let ended := (run { timeout } acts).2.filter (·.id = id)
      ended = (((Act.invoke now true id :: back).findSome? (·.outcome? i)).map i.ended).toList ∧
        ∀ a ∈ back, (a.outcome? i).isSome → ended.length = 1) ∧
    (∀ x ∈ (run { timeout } acts).2, x.id ∈ acts.filterMap Act.invoked?) ∧
    ∀ front answer back, acts = front ++ .deliver answer :: back →
      let told := ((run { timeout } front).1.deliver answer).2
      (told.length ≤ 1 ∧ ∀ x ∈ told, x.id = answer.id ∧ x.outcome = .ok answer.outcome) ∧
      ∀ id ≠ answer.id, (run { timeout } acts).2.filter (·.id = id) =
        (run { timeout } (front ++ back)).2.filter (·.id = id) := by
  have h : Admits { timeout } acts := admits_new hopen hids
  refine ⟨?_, ?_, ?_⟩
  · rintro front now id back rfl i ended
    have hended : ended = _ := run_invoke h
    refine ⟨hended, fun a ha hsome => ?_⟩
    have hfind : ((Act.invoke now true id :: back).findSome? (·.outcome? i)).isSome :=
      List.findSome?_isSome_iff.mpr ⟨a, .tail _ ha, hsome⟩
    obtain ⟨outcome, hfind⟩ := Option.isSome_iff_exists.mp hfind
    rw [hended, hfind]
    rfl
  · intro x hx
    by_contra hn
    have hnone := run_absent h nofun hn
    exact List.ne_nil_of_mem (List.mem_filter.mpr ⟨hx, decide_eq_true rfl⟩) hnone
  · rintro front answer back rfl
    exact ⟨deliver_ends h.run.tidy answer, fun id hid => run_deliver_other h hid⟩

/-- The first of two answers counts, and an answer after the deadline does not. -/
theorem repeated_and_late_answers_ignored :
    let acts : List Act :=
      [.invoke 0 true ⟨1⟩, .invoke 3 true ⟨2⟩, .deliver ⟨⟨2⟩, .put ⟨[7]⟩⟩, .deliver ⟨⟨9⟩, .multi true⟩,
        .deliver ⟨⟨2⟩, .failed .failure⟩, .lapse 12 0, .deliver ⟨⟨1⟩, .get ⟨[7]⟩ none⟩]
    (run { timeout := 10 } acts).2.filter (·.id = ⟨1⟩) = [⟨0, ⟨1⟩, .ok (.failed .timeout)⟩] ∧
      (run { timeout := 10 } acts).2.filter (·.id = ⟨2⟩) = [⟨1, ⟨2⟩, .ok (.put ⟨[7]⟩)⟩] := by
  intro acts
  have h := (answers_correlated 10 acts (by simp [acts, Act.IsOpen]) (by decide)).1
  exact ⟨(h [] 0 ⟨1⟩ _ rfl).1, (h [.invoke 0 true ⟨1⟩] 3 ⟨2⟩ _ rfl).1⟩

theorem foldl_deliver {g : Client × List Resolution → Upcall → Client × List Resolution}
    (hg : ∀ c ended u, g (c, ended) u =
      match u.answer? with
      | some answer => ((c.deliver answer).1, ended ++ (c.deliver answer).2)
      | none => (c, ended))
    (upcalls : List Upcall) (c : Client) (ended : List Resolution) :
    upcalls.foldl g (c, ended) =
      ((c.run ((upcalls.filterMap Upcall.answer?).map .deliver)).1,
        ended ++ (c.run ((upcalls.filterMap Upcall.answer?).map .deliver)).2) := by
  induction upcalls generalizing c ended with
  | nil => simp [run]
  | cons u upcalls ih =>
    rw [List.foldl_cons, hg, List.filterMap_cons]
    cases u.answer? with
    | none => exact ih c ended
    | some answer => rw [ih, List.append_assoc]; rfl

end Client

/-- The client of a replica is handed the answers among the upcalls, in their order. -/
theorem Group.runUpcalls_eq (g : Group) (i : Nat) (r : Replica) :
    g.runUpcalls i r =
      let told := r.client.run ((r.upcalls.filterMap Upcall.answer?).map .deliver)
      let synced := r.synced || r.upcalls.any (· = .synced)
      (g.update i fun r => { r with upcalls := [], synced }).setClient i told.1 told.2 := by
  unfold runUpcalls
  rw [Client.foldl_deliver fun c ended u => by cases u <;> rfl, List.nil_append]

end ReplicaGroup
