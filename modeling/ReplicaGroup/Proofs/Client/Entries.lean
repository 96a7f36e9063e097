import Mathlib.Data.List.Induction
import Mathlib.Data.List.Perm.Basic
import ReplicaGroup.Proofs.Client

/-! # Entries of a client

An invocation is entered under the identifier of its operation before the operation is submitted. Once it has
ended its entry is gone, whether it got an answer or ran into its deadline. Only where the operation could not
be submitted the entry outlives it, until an answer to that operation comes, if one does. -/

namespace ReplicaGroup.Client
open scoped List
variable {c : Client} {a : Act} {acts : List Act} {id : OpId}

/-! ### An invocation has not returned, or has ended -/

/-- The operations of the invocations that have not returned. -/
def unreturned (c : Client) : List OpId := c.waiting.map Invocation.id ++ c.displaced.map Invocation.id

/-- What is started is added to what has not returned, and what ends is taken from there. -/
def Settles (c : Client) (started : List OpId) (r : Client × List Resolution) : Prop :=
  (r.2.map Resolution.id ++ r.1.unreturned).Perm (started ++ c.unreturned)

theorem perm_split (p : Invocation → Prop) [DecidablePred p] (l : List Invocation) :
    ((l.filter p).map Invocation.id ++ (l.filter fun i => ¬p i).map Invocation.id).Perm (l.map Invocation.id) := by
  have hneg : (l.filter fun i => ¬p i) = l.filter fun i => !decide (p i) := List.filter_congr fun i _ => decide_not
  rw [hneg, ← List.map_append]
  exact (List.filter_append_perm _ l).map _

theorem settles_finish (c : Client) (ticket : Nat) (outcome : Except Fault Outcome) :
    c.Settles [] (c.finish ticket outcome) := by
  simp only [Settles, finish, unreturned, List.map_map, List.nil_append, ← List.append_assoc]
  exact (perm_split (·.ticket = ticket) c.waiting).append_right _

theorem settles_expire (c : Client) (now : Nat) : c.Settles [] (c.expire now) := by
  have hsorted := (List.mergeSort_perm (c.waiting.filter (·.deadline ≤ now)) fun a b => a.deadline ≤ b.deadline).map
    Invocation.id
  simp only [Settles, expire, unreturned, List.map_map, List.nil_append, ← List.append_assoc]
  exact ((hsorted.append_right _).trans (perm_split (·.deadline ≤ now) c.waiting)).append_right _

theorem settles_endDisplaced (c : Client) : c.Settles [] c.endDisplaced := by
  simp only [Settles, endDisplaced, unreturned, List.map_map, List.map_nil, List.append_nil, List.nil_append]
  exact List.perm_append_comm

theorem perm_displace (c : Client) (ticket : Nat) : (c.displace ticket).unreturned.Perm c.unreturned := by
  simp only [unreturned, displace, List.map_append]
  exact (List.perm_append_comm.append_left _).trans (List.append_assoc .. ▸
    (List.perm_append_comm.trans (perm_split (·.ticket = ticket) c.waiting)).append_right _)

theorem settles_invoke (c : Client) (now : Nat) (isOpen : Bool) (id : OpId) :
    c.Settles [id] (c.invoke now isOpen id) := by
  unfold invoke
  extract_lets invocation cleared entered
  have hcleared : cleared.unreturned.Perm c.unreturned := by
    unfold cleared
    split
    · exact perm_displace ..
    · exact .refl _
  cases isOpen with
  | false => exact hcleared.cons id
  | true =>
    refine (settles_expire ..).trans ?_
    have hadded : ((entered.waiting ++ [invocation]).map Invocation.id ++ entered.displaced.map Invocation.id).Perm
        (id :: cleared.unreturned) := by
      rw [List.map_append, List.append_assoc]
      exact List.perm_middle
    exact hadded.trans (hcleared.cons id)

theorem settles_act (c : Client) (a : Act) : c.Settles a.invoked?.toList (c.act a) := by
  cases a with
  | invoke now isOpen id => exact settles_invoke c now isOpen id
  | deliver answer =>
    show c.Settles [] (c.deliver answer)
    unfold deliver
    split
    · exact settles_finish ..
    · exact .refl _
  | lapse now ticket =>
    show c.Settles [] (c.lapse now ticket)
    unfold lapse
    split
    · exact settles_finish ..
    · exact .refl _
  | expire now => exact settles_expire c now
  | endDisplaced => exact settles_endDisplaced c

theorem settles_run (c : Client) (acts : List Act) : c.Settles (acts.filterMap Act.invoked?) (c.run acts) := by
  induction acts generalizing c with
  | nil => exact .refl _
  | cons a acts ih =>
    have hnow := c.settles_act a
    have hlater := ih (c.act a).1
    unfold Settles at *
    rw [filterMap_invoked_cons]
    let ended := (c.act a).2.map Resolution.id
    let later := acts.filterMap Act.invoked?
    calc (c.run (a :: acts)).2.map Resolution.id ++ (c.run (a :: acts)).1.unreturned
      _ = ended ++ ((((c.act a).1.run acts).2.map Resolution.id) ++ ((c.act a).1.run acts).1.unreturned) := by
          rw [run, List.map_append, List.append_assoc]
      _ ~ ended ++ (later ++ (c.act a).1.unreturned) := hlater.append_left ended
      -- What starts later has no part in what ends now.
      _ ~ later ++ (ended ++ (c.act a).1.unreturned) := by
          simpa using List.perm_append_comm.append_right (c.act a).1.unreturned
      _ ~ later ++ (a.invoked?.toList ++ c.unreturned) := hnow.append_left later
      _ ~ a.invoked?.toList ++ later ++ c.unreturned := by
          simpa using List.perm_append_comm.append_right c.unreturned

theorem perm_invoked (timeout : Nat) (acts : List Act) :
    ((run { timeout } acts).2.map Resolution.id ++ (run { timeout } acts).1.unreturned).Perm
      (acts.filterMap Act.invoked?) :=
  (settles_run { timeout } acts).trans (.of_eq (List.append_nil _))

/-- Where every operation is invoked once, an invocation has either ended or not returned. -/
theorem mem_unreturned_iff {timeout : Nat} (hids : (acts.filterMap Act.invoked?).Nodup) :
    id ∈ (run { timeout } acts).1.unreturned ↔
      id ∈ acts.filterMap Act.invoked? ∧ ∀ x ∈ (run { timeout } acts).2, x.id ≠ id := by
  have hapart := (List.nodup_append.mp ((perm_invoked timeout acts).nodup_iff.mpr hids)).2.2
  rw [← (perm_invoked timeout acts).mem_iff, List.mem_append, List.mem_map]
  constructor
  · exact fun hid => ⟨.inr hid, fun x hx he => hapart x.id (List.mem_map_of_mem hx) id hid he⟩
  · rintro ⟨⟨x, hx, he⟩ | hid, hends⟩
    · exact absurd he (hends x hx)
    · exact hid

/-! ### What is entered -/

/-- What is entered while no operation is invoked twice: the invocations that wait, and the operations in
    `left`, whose invocations have ended. -/
structure Enters (c : Client) (left : OpId → Prop) : Prop where
  settled : c.displaced = []
  apart : c.waiting.Pairwise fun i j => i.ticket ≠ j.ticket
  numbered : ∀ id ticket, c.pending.get? id = some ticket → ticket < c.invoked
  waiting : ∀ i ∈ c.waiting, c.pending.get? i.id = some i.ticket
  leftover : ∀ id, left id → ∃ ticket, c.pending.get? id = some ticket ∧ ∀ i ∈ c.waiting, i.ticket ≠ ticket
  only : ∀ id, (c.pending.get? id).isSome → left id ∨ ∃ i ∈ c.waiting, i.id = id

theorem enters_new (timeout : Nat) : Enters { timeout } fun _ => False where
  settled := rfl
  apart := .nil
  numbered id ticket h := by cases (OrderedMap.get?_empty id).symm.trans h
  waiting := nofun
  leftover := nofun
  only id h := by cases OrderedMap.get?_empty id ▸ h

section
variable {left : OpId → Prop} {i : Invocation} {now : Nat}

theorem Enters.congr (h : Enters c left) {left' : OpId → Prop} (hsame : ∀ id, left id ↔ left' id) : Enters c left' :=
  (funext fun id => propext (hsame id) : left = left') ▸ h

theorem Enters.not_left (h : Enters c left) (hi : i ∈ c.waiting) : ¬left i.id := by
  intro hleft
  obtain ⟨ticket, hentry, hnone⟩ := h.leftover i.id hleft
  exact hnone i hi (Option.some.inj ((h.waiting i hi).symm.trans hentry))

/-- The entry of a waiting invocation tells its ticket and no other one does. -/
theorem Enters.id_eq_iff (h : Enters c left) (hi : i ∈ c.waiting) {ticket : Nat}
    (hentry : c.pending.get? id = some ticket) : i.id = id ↔ i.ticket = ticket := by
  constructor
  · rintro rfl
    exact Option.some.inj ((h.waiting i hi).symm.trans hentry)
  · rintro rfl
    obtain hleft | ⟨j, hj, rfl⟩ := h.only id (hentry ▸ rfl)
    · obtain ⟨ticket, hticket, hnone⟩ := h.leftover id hleft
      exact absurd (Option.some.inj (hentry.symm.trans hticket)) (hnone i hi)
    · rw [eq_of_apart h.apart hj hi (Option.some.inj ((h.waiting j hj).symm.trans hentry))]

theorem Enters.eq_of_id (h : Enters c left) {j : Invocation} (hi : i ∈ c.waiting) (hj : j ∈ c.waiting)
    (he : i.id = j.id) : i = j :=
  eq_of_apart h.apart hi hj ((h.id_eq_iff hi (h.waiting j hj)).mp he)

/-- What takes away the entries of some operations, and ends the invocations that wait for these. -/
theorem Enters.remove (h : Enters c left) {c' : Client} (gone : OpId → Prop) [DecidablePred gone]
    (hwaiting : c'.waiting = c.waiting.filter fun i => ¬gone i.id)
    (hpending : ∀ id, c'.pending.get? id = if gone id then none else c.pending.get? id)
    (hdisplaced : c'.displaced = c.displaced) (hinvoked : c'.invoked = c.invoked) :
    Enters c' fun id => left id ∧ ¬gone id where
  settled := hdisplaced.trans h.settled
  apart := hwaiting ▸ h.apart.filter _
  numbered id ticket hentry := by
    rw [hpending] at hentry
    split at hentry
    · cases hentry
    · exact hinvoked ▸ h.numbered id ticket hentry
  waiting i hi := by
    obtain ⟨hi, hstays⟩ : i ∈ c.waiting ∧ ¬gone i.id := by simpa [hwaiting] using hi
    rw [hpending, if_neg hstays]
    exact h.waiting i hi
  leftover id hleft := by
    obtain ⟨ticket, hentry, hnone⟩ := h.leftover id hleft.1
    refine ⟨ticket, by rw [hpending, if_neg hleft.2, hentry], fun i hi => hnone i ?_⟩
    exact (List.mem_filter.mp (hwaiting ▸ hi)).1
  only id hsome := by
    rw [hpending] at hsome
    split at hsome
    · cases hsome
    · next hstays =>
      obtain hleft | ⟨i, hi, rfl⟩ := h.only id hsome
      · exact .inl ⟨hleft, hstays⟩
      · exact .inr ⟨i, by simpa [hwaiting] using ⟨hi, hstays⟩, rfl⟩

/-- An entry is taken away, and the invocation that waits for it, if one does, ends. -/
theorem Enters.finish (h : Enters c left) {ticket : Nat} (hentry : c.pending.get? id = some ticket)
    (outcome : Except Fault Outcome) :
    Enters ({ c with pending := c.pending.erase id }.finish ticket outcome).1 fun j => left j ∧ ¬j = id := by
  refine h.remove (· = id) (List.filter_congr fun i hi => ?_) (OrderedMap.get?_erase c.pending id) rfl rfl
  simp only [h.id_eq_iff hi hentry, ne_eq]

theorem Enters.lapse (h : Enters c left) (now ticket : Nat) : Enters (c.lapse now ticket).1 left := by
  unfold Client.lapse
  cases hfind : c.waiting.find? fun i => i.ticket = ticket ∧ i.deadline ≤ now with
  | none => exact h
  | some i =>
    have hi := List.mem_of_find?_eq_some hfind
    obtain ⟨rfl, -⟩ : i.ticket = ticket ∧ i.deadline ≤ now := by simpa using List.find?_some hfind
    refine (h.finish (h.waiting i hi) (.ok (.failed .timeout))).congr fun id => and_iff_left_of_imp ?_
    rintro hleft rfl
    exact h.not_left hi hleft

theorem Enters.expire (h : Enters c left) (now : Nat) : Enters (c.expire now).1 left := by
  let due := (c.waiting.filter (·.deadline ≤ now)).mergeSort fun a b => a.deadline ≤ b.deadline
  have hdue : ∀ i, i ∈ due ↔ i ∈ c.waiting ∧ i.deadline ≤ now := by simp [due, List.mem_mergeSort]
  have hgone : ∀ i ∈ c.waiting, (∃ j ∈ due, j.id = i.id) ↔ i.deadline ≤ now := by
    intro i hi
    constructor
    · rintro ⟨j, hj, he⟩
      obtain ⟨hj, hnow⟩ := (hdue j).mp hj
      exact h.eq_of_id hj hi he ▸ hnow
    · exact fun hnow => ⟨i, (hdue i).mpr ⟨hi, hnow⟩, rfl⟩
  have hends : Enters (c.expire now).1 fun id => left id ∧ ¬∃ j ∈ due, j.id = id :=
    h.remove (fun id => ∃ j ∈ due, j.id = id) (List.filter_congr fun i hi => by simp only [hgone i hi])
      (fun id => get?_foldl_erase) rfl rfl
  refine hends.congr fun id => and_iff_left_of_imp ?_
  rintro hleft ⟨j, hj, rfl⟩
  exact h.not_left ((hdue j).mp hj).1 hleft

/-- The client once an operation is entered: its invocation waits if the operation could be submitted. -/
def entered (c : Client) (now : Nat) (isOpen : Bool) (id : OpId) : Client :=
  { c.enter now id with waiting := if isOpen then (c.enter now id).waiting else c.waiting }

theorem mem_waiting_entered {isOpen : Bool} :
    i ∈ (c.entered now isOpen id).waiting ↔
      i ∈ c.waiting ∨ isOpen = true ∧ i = ⟨c.invoked, id, now + c.timeout⟩ := by
  cases isOpen <;> simp [entered, Client.enter]

theorem get?_entered {isOpen : Bool} {other : OpId} :
    (c.entered now isOpen id).pending.get? other = if other = id then some c.invoked else c.pending.get? other :=
  OrderedMap.get?_insert ..

theorem get?_entered_of_some {isOpen : Bool} {other : OpId} {ticket : Nat} (hfresh : c.pending.get? id = none)
    (hentry : c.pending.get? other = some ticket) :
    (c.entered now isOpen id).pending.get? other = some ticket := by
  rw [get?_entered, if_neg, hentry]
  rintro rfl
  cases hentry.symm.trans hfresh

theorem Enters.entered (h : Enters c left) (hfresh : c.pending.get? id = none) (now : Nat) (isOpen : Bool) :
    Enters (c.entered now isOpen id) fun j => left j ∨ isOpen = false ∧ j = id where
  settled := h.settled
  apart := by
    cases isOpen with
    | false => exact h.apart
    | true =>
      refine List.pairwise_append.mpr ⟨h.apart, List.pairwise_singleton .., fun i hi j hj => ?_⟩
      cases List.mem_singleton.mp hj
      exact Nat.ne_of_lt (h.numbered i.id i.ticket (h.waiting i hi))
  numbered other ticket hentry := by
    rw [get?_entered] at hentry
    split at hentry
    · cases hentry
      exact Nat.lt_succ_self _
    · exact Nat.lt_succ_of_lt (h.numbered other ticket hentry)
  waiting i hi := by
    obtain hi | ⟨-, rfl⟩ := mem_waiting_entered.mp hi
    · exact get?_entered_of_some hfresh (h.waiting i hi)
    · exact get?_entered.trans (if_pos rfl)
  leftover other hleft := by
    obtain hleft | ⟨hclosed, rfl⟩ := hleft
    · obtain ⟨ticket, hentry, hnone⟩ := h.leftover other hleft
      refine ⟨ticket, get?_entered_of_some hfresh hentry, fun i hi => ?_⟩
      obtain hi | ⟨-, rfl⟩ := mem_waiting_entered.mp hi
      · exact hnone i hi
      · exact Nat.ne_of_gt (h.numbered other ticket hentry)
    · refine ⟨c.invoked, get?_entered.trans (if_pos rfl), fun i hi => ?_⟩
      obtain hi | ⟨hopen, -⟩ := mem_waiting_entered.mp hi
      · exact Nat.ne_of_lt (h.numbered i.id i.ticket (h.waiting i hi))
      · cases hclosed.symm.trans hopen
  only other hsome := by
    rw [get?_entered] at hsome
    split at hsome
    · next he =>
      cases isOpen with
      | false => exact .inl (.inr ⟨rfl, he⟩)
      | true => exact .inr ⟨_, mem_waiting_entered.mpr (.inr ⟨rfl, rfl⟩), he.symm⟩
    · obtain hleft | ⟨i, hi, he⟩ := h.only other hsome
      · exact .inl (.inl hleft)
      · exact .inr ⟨i, mem_waiting_entered.mpr (.inl hi), he⟩

theorem invoke_eq_entered (hfresh : c.pending.get? id = none) (isOpen : Bool) :
    c.invoke now isOpen id =
      if isOpen then (c.entered now true id).expire now
      else (c.entered now false id, [⟨c.invoked, id, .error .channelClosed⟩]) := by
  simp only [invoke, hfresh]
  rfl

/-- The operations whose entries outlive their invocations after an act. -/
def Act.leaves (left : OpId → Prop) : Act → OpId → Prop
  | invoke _ isOpen id, j => left j ∨ isOpen = false ∧ j = id
  | deliver answer, j => left j ∧ ¬j = answer.id
  | lapse .., j | expire _, j | endDisplaced, j => left j

theorem Act.left_or_invoked (h : a.leaves left id) : left id ∨ a.invoked? = some id := by
  cases a with
  | invoke => exact h.imp_right fun h => congrArg some h.2.symm
  | deliver => exact .inl h.1
  | lapse | expire | endDisplaced => exact .inl h

theorem Enters.act (h : Enters c left) (hfresh : ∀ id, a.invoked? = some id → c.pending.get? id = none) :
    Enters (c.act a).1 (a.leaves left) := by
  cases a with
  | invoke now isOpen id =>
    have hentered := h.entered (hfresh id rfl) now isOpen
    rw [show c.act (.invoke now isOpen id) = _ from invoke_eq_entered (hfresh id rfl) isOpen]
    cases isOpen with
    | false => exact hentered
    | true => exact hentered.expire now
  | deliver answer =>
    show Enters (c.deliver answer).1 _
    unfold deliver
    cases hentry : c.pending.get? answer.id with
    | some ticket => exact h.finish hentry _
    | none =>
      refine h.congr fun j => (and_iff_left_of_imp ?_).symm
      rintro hleft rfl
      obtain ⟨ticket, hsome, -⟩ := h.leftover _ hleft
      cases hsome.symm.trans hentry
  | lapse now ticket => exact h.lapse now ticket
  | expire now => exact h.expire now
  | endDisplaced =>
    exact { settled := rfl, apart := h.apart, numbered := h.numbered, waiting := h.waiting, leftover := h.leftover,
            only := h.only }

/-- An invocation that ends and leaves its entry has failed to submit its operation. -/
theorem Enters.outcome_of_leaves (h : Enters c left) (hfresh : ∀ id, a.invoked? = some id → c.pending.get? id = none)
    {x : Resolution} (hx : x ∈ (c.act a).2) (hleaves : a.leaves left x.id) : x.outcome = .error .channelClosed := by
  have hnot : ¬left x.id := by
    intro hleft
    have hid : x.id ∈ a.invoked?.toList ++ c.unreturned :=
      (c.settles_act a).mem_iff.mp (List.mem_append_left _ (List.mem_map_of_mem hx))
    obtain hid | hid := List.mem_append.mp hid
    · obtain ⟨ticket, hentry, -⟩ := h.leftover x.id hleft
      cases hentry.symm.trans (hfresh x.id (Option.mem_toList.mp hid))
    · obtain ⟨i, hi, he⟩ : ∃ i ∈ c.waiting, i.id = x.id := by simpa [unreturned, h.settled] using hid
      exact h.not_left hi (he ▸ hleft)
  cases a with
  | invoke now isOpen id =>
    rw [show c.act (.invoke now isOpen id) = _ from invoke_eq_entered (hfresh id rfl) isOpen] at hx
    cases isOpen with
    | false => cases List.mem_singleton.mp hx; rfl
    | true => exact absurd (hleaves.resolve_right nofun) hnot
  | deliver answer => exact absurd hleaves.1 hnot
  | lapse | expire | endDisplaced => exact absurd hleaves hnot

end

/-! ### Whole runs -/

/-- The operation could not be submitted, and no answer to it has been delivered since. -/
def Refused (acts : List Act) (id : OpId) : Prop :=
  ∃ front now back, acts = front ++ .invoke now false id :: back ∧ ∀ answer, .deliver answer ∈ back → answer.id ≠ id

theorem Refused.invoked (h : Refused acts id) : id ∈ acts.filterMap Act.invoked? := by
  obtain ⟨front, now, back, rfl, -⟩ := h
  exact List.mem_filterMap.mpr ⟨_, List.mem_append_right _ (List.mem_cons_self ..), rfl⟩

theorem Refused.concat (h : Refused acts id) (hnone : ∀ answer, a = .deliver answer → answer.id ≠ id) :
    Refused (acts ++ [a]) id := by
  obtain ⟨front, now, back, rfl, hback⟩ := h
  refine ⟨front, now, back ++ [a], by simp, fun answer hanswer => ?_⟩
  obtain hanswer | hanswer := List.mem_append.mp hanswer
  · exact hback answer hanswer
  · exact hnone answer (List.mem_singleton.mp hanswer).symm

theorem leaves_of_refused (h : Refused (acts ++ [a]) id) : a.leaves (Refused acts) id := by
  obtain ⟨front, now, back, he, hnone⟩ := h
  -- The last act is the invocation that was refused, or one of those that came after it.
  obtain rfl | ⟨back, b, rfl⟩ := List.eq_nil_or_concat back
  · obtain ⟨rfl, hlast⟩ := List.append_inj' he rfl
    obtain rfl := List.singleton_inj.mp hlast
    exact .inr ⟨rfl, rfl⟩
  · rw [List.concat_eq_append] at he hnone
    rw [← List.cons_append, ← List.append_assoc] at he
    obtain ⟨rfl, hlast⟩ := List.append_inj' he rfl
    obtain rfl := List.singleton_inj.mp hlast
    have hrefused : Refused (front ++ .invoke now false id :: back) id :=
      ⟨front, now, back, rfl, fun answer hanswer => hnone answer (List.mem_append_left _ hanswer)⟩
    cases a with
    | invoke => exact .inl hrefused
    | deliver answer =>
      exact ⟨hrefused, Ne.symm (hnone answer (List.mem_append_right _ (List.mem_singleton_self _)))⟩
    | lapse | expire | endDisplaced => exact hrefused

theorem refused_concat (acts : List Act) (a : Act) : Refused (acts ++ [a]) = a.leaves (Refused acts) := by
  refine funext fun id => propext ⟨leaves_of_refused, fun h => ?_⟩
  cases a with
  | invoke now isOpen j =>
    obtain h | ⟨rfl, rfl⟩ := h
    · exact h.concat nofun
    · exact ⟨acts, now, [], rfl, nofun⟩
  | deliver answer => exact h.1.concat fun _ he => by cases he; exact Ne.symm h.2
  | lapse | expire | endDisplaced => exact Refused.concat h nofun

theorem enters_run {timeout : Nat} (hids : (acts.filterMap Act.invoked?).Nodup) :
    Enters (run { timeout } acts).1 (Refused acts) ∧
      ∀ x ∈ (run { timeout } acts).2, Refused acts x.id → x.outcome = .error .channelClosed := by
  induction acts using List.reverseRecOn with
  | nil =>
    have hnone : Refused [] = fun _ => False := funext fun id => eq_false fun h => nomatch h.invoked
    exact ⟨hnone ▸ enters_new timeout, nofun⟩
  | append_singleton acts a ih =>
    have hsplit : (acts ++ [a]).filterMap Act.invoked? = acts.filterMap Act.invoked? ++ a.invoked?.toList := by
      rw [List.filterMap_append, filterMap_invoked_cons, List.filterMap_nil, List.append_nil]
    rw [hsplit] at hids
    obtain ⟨hfront, -, hapart⟩ := List.nodup_append.mp hids
    obtain ⟨henters, houtcome⟩ := ih hfront
    have hnew : ∀ id, a.invoked? = some id → id ∉ acts.filterMap Act.invoked? := fun id hid hin =>
      hapart id hin id (Option.mem_toList.mpr hid) rfl
    -- Every operation is invoked once, so nothing is entered for it before.
    have hfresh : ∀ id, a.invoked? = some id → (run { timeout } acts).1.pending.get? id = none := by
      intro id hid
      by_contra hsome
      obtain hleft | ⟨i, hi, rfl⟩ := henters.only id (Option.isSome_iff_ne_none.mpr hsome)
      · exact hnew id hid hleft.invoked
      · exact hnew i.id hid (((mem_unreturned_iff hfront).mp (List.mem_append_left _ (List.mem_map_of_mem hi))).1)
    rw [run_append, refused_concat, run, run, List.append_nil]
    refine ⟨henters.act hfresh, fun x hx hleaves => ?_⟩
    obtain hx | hx := List.mem_append.mp hx
    · obtain hleft | hinvoked := Act.left_or_invoked hleaves
      · exact houtcome x hx hleft
      · have hearlier := (perm_invoked timeout acts).mem_iff.mp (List.mem_append_left _ (List.mem_map_of_mem hx))
        exact absurd hearlier (hnew x.id hinvoked)
    · exact henters.outcome_of_leaves hfresh hx hleaves

/-- Entered are the operations of the invocations that have not returned, and besides them exactly those that
    could not be submitted and have got no answer since: such an invocation ends with a closed channel and leaves
    its entry. Every other invocation takes its entry away when it ends. -/
theorem entry_left_iff_refused (timeout : Nat) (acts : List Act) (hids : (acts.filterMap Act.invoked?).Nodup) :
    let r := run { timeout } acts
    (∀ id, id ∈ r.1.pending.keys ↔
      (id ∈ acts.filterMap Act.invoked? ∧ ∀ x ∈ r.2, x.id ≠ id) ∨ Refused acts id) ∧
    (∀ x ∈ r.2, x.id ∈ r.1.pending.keys ↔ Refused acts x.id) ∧
    (∀ id, Refused acts id → ∃ x ∈ r.2, x.id = id) ∧
    ∀ x ∈ r.2, Refused acts x.id → x.outcome = .error .channelClosed := by
  intro r
  obtain ⟨henters, houtcome⟩ : Enters r.1 (Refused acts) ∧ _ := enters_run hids
  have hwaits : ∀ id, id ∈ r.1.unreturned ↔ ∃ i ∈ r.1.waiting, i.id = id := by simp [unreturned, henters.settled]
  have hkeys : ∀ id, id ∈ r.1.pending.keys ↔
      (id ∈ acts.filterMap Act.invoked? ∧ ∀ x ∈ r.2, x.id ≠ id) ∨ Refused acts id := by
    intro id
    rw [← mem_unreturned_iff hids, hwaits, OrderedMap.mem_keys_iff]
    constructor
    · exact fun hsome => (henters.only id hsome).symm
    · rintro (⟨i, hi, rfl⟩ | hrefused)
      · rw [henters.waiting i hi]
        rfl
      · obtain ⟨ticket, hentry, -⟩ := henters.leftover id hrefused
        rw [hentry]
        rfl
  refine ⟨hkeys, fun x hx => ?_, fun id hrefused => ?_, houtcome⟩
  · rw [hkeys, or_iff_right fun h => h.2 x hx rfl]
  · by_contra hnone
    obtain ⟨i, hi, rfl⟩ := (hwaits id).mp ((mem_unreturned_iff hids).mpr
      ⟨hrefused.invoked, fun x hx he => hnone ⟨x, hx, he⟩⟩)
    exact henters.not_left hi hrefused

/-- Of three invocations only the middle one cannot be submitted. It ends at once, the first one with its answer
    and the last one with a timeout; the entry of the middle one is what is left. -/
theorem refused_invocation_leaves_entry :
    let acts : List Act := [.invoke 0 true ⟨1⟩, .invoke 1 false ⟨2⟩, .invoke 2 true ⟨3⟩, .deliver ⟨⟨1⟩, .put ⟨[7]⟩⟩,
      .expire 12]
    let r := run { timeout := 10 } acts
    (acts.filterMap Act.invoked?).Nodup ∧ r.2.map Resolution.id = [⟨2⟩, ⟨1⟩, ⟨3⟩] ∧
      ∀ x ∈ r.2, x.id ∈ r.1.pending.keys ↔ x.id = ⟨2⟩ := by
  intro acts r
  have hids : (acts.filterMap Act.invoked?).Nodup := by decide
  have hends : r.2.map Resolution.id = [⟨2⟩, ⟨1⟩, ⟨3⟩] := by decide +kernel
  refine ⟨hids, hends, fun x hx => ((entry_left_iff_refused 10 acts hids).2.1 x hx).trans ⟨fun h => ?_, ?_⟩⟩
  · obtain ⟨front, now, back, he, -⟩ := h
    have hin : Act.invoke now false x.id ∈ acts := he ▸ List.mem_append_right _ (List.mem_cons_self ..)
    obtain ⟨-, hid⟩ : now = 1 ∧ x.id = ⟨2⟩ := by simpa [acts] using hin
    exact hid
  · intro he
    exact he ▸ ⟨[.invoke 0 true ⟨1⟩], 1, _, rfl, by simp⟩

end ReplicaGroup.Client
