import ReplicaGroup.OrderedSet.Lemmas
import ReplicaGroup.Proofs.Log

/-! # Views and who serves whom

The members of a view divide the joining members among themselves: each joining member falls to one old
member. Which view is installed is a matter of the log alone, once the log is known far enough back. -/

namespace ReplicaGroup

namespace View
variable {old new v w : View} {a b me : Addr}

/-! ### The sender of a joining member -/

/-- The member that a joining member at `a` falls to: the first one ordered after it, or the last one. -/
def server? (v : View) (a : Addr) : Option Addr := (v.members.toList.find? (a < ·)).or v.members.toList.getLast?

theorem mem_of_server? (h : v.server? a = some b) : b ∈ v.members := by
  rcases Option.or_eq_some_iff.mp h with h | ⟨-, h⟩
  · exact List.mem_of_find?_eq_some h
  · exact List.mem_of_getLast? h

theorem exists_server? (hv : v.members ≠ .empty) (a : Addr) : ∃ b, v.server? a = some b := by
  have hne : v.members.toList ≠ [] := fun h => hv (OrderedSet.ext h)
  unfold server?
  rw [List.getLast?_eq_some_getLast hne]
  cases v.members.toList.find? (a < ·) with
  | some b => exact ⟨b, rfl⟩
  | none => exact ⟨_, rfl⟩

theorem le_of_mem_dropLast {l : List Addr} (hl : l.Pairwise (· < ·)) {last : Addr} (hlast : l.getLast? = some last)
    (hb : b ∈ l) : b = last ∨ b < last := by
  obtain ⟨front, rfl⟩ := List.getLast?_eq_some_iff.mp hlast
  rcases List.mem_append.mp hb with hb | hb
  · exact .inr ((List.pairwise_append.mp hl).2.2 b hb last (by simp))
  · exact .inl (List.mem_singleton.mp hb)

theorem getLast?_eq_some_iff {l : List Addr} (hl : l.Pairwise (· < ·)) :
    l.getLast? = some me ↔ me ∈ l ∧ ∀ b ∈ l, b ≤ me := by
  constructor
  · intro hlast
    refine ⟨List.mem_of_getLast? hlast, fun b hb => ?_⟩
    rcases le_of_mem_dropLast hl hlast hb with rfl | hlt
    · exact Std.le_refl _
    · exact Std.le_of_lt hlt
  · rintro ⟨hme, hmax⟩
    obtain ⟨last, hlast⟩ := Option.isSome_iff_exists.mp (List.getLast?_isSome.mpr (List.ne_nil_of_mem hme))
    rcases le_of_mem_dropLast hl hlast hme with rfl | hlt
    · exact hlast
    · exact absurd (hmax last (List.mem_of_getLast? hlast)) (Std.not_le.mpr hlt)

theorem isLast_iff : v.isLast me = true ↔ ∀ b ∈ v.members, b ≤ me := by
  rw [isLast, List.all_eq_true]
  exact forall₂_congr fun b _ => by rw [decide_eq_true_iff, Std.not_lt]

/-- The largest member before `me` is before `a` exactly when all of them are. -/
theorem all_predecessor?_iff : (v.predecessor? me).all (· < a) = true ↔ ∀ b ∈ v.members, b < me → b < a := by
  unfold predecessor?
  have hl : (v.members.toList.filter (· < me)).Pairwise (· < ·) := v.members.ordered.filter _
  have hmem : ∀ b, b ∈ v.members.toList.filter (· < me) ↔ b ∈ v.members ∧ b < me := fun b => by
    rw [List.mem_filter, decide_eq_true_iff]
    exact .rfl
  cases hlast : (v.members.toList.filter (· < me)).getLast? with
  | none =>
    rw [List.getLast?_eq_none_iff] at hlast
    refine ⟨fun _ b hb hlt => ?_, fun _ => rfl⟩
    have := (hmem b).mpr ⟨hb, hlt⟩
    rw [hlast] at this
    cases this
  | some last =>
    rw [Option.all_some, decide_eq_true_iff]
    constructor
    · intro hla b hb hlt
      rcases le_of_mem_dropLast hl hlast ((hmem b).mpr ⟨hb, hlt⟩) with rfl | h
      · exact hla
      · exact Std.lt_trans h hla
    · intro h
      obtain ⟨hm, hlt⟩ := (hmem last).mp (List.mem_of_getLast? hlast)
      exact h last hm hlt

theorem find?_after_eq_some_iff {l : List Addr} (hl : l.Pairwise (· < ·)) :
    l.find? (a < ·) = some me ↔ me ∈ l ∧ a < me ∧ ∀ b ∈ l, b < me → ¬a < b := by
  induction l with
  | nil => simp
  | cons c l ih =>
    obtain ⟨hc, hl⟩ := List.pairwise_cons.mp hl
    rw [List.find?_cons]
    split
    · next hac =>
      rw [decide_eq_true_iff] at hac
      constructor
      · rintro ⟨⟩
        refine ⟨.head _, hac, fun b hb hlt => ?_⟩
        rcases List.mem_cons.mp hb with rfl | hb
        · exact absurd hlt Std.lt_irrefl
        · exact absurd hlt (Std.not_gt_of_lt (hc b hb))
      · rintro ⟨hmem, -, hmin⟩
        rcases List.mem_cons.mp hmem with rfl | hmem
        · rfl
        · exact absurd hac (hmin c (.head _) (hc me hmem))
    · next hac =>
      have hac : ¬a < c := by simpa using hac
      rw [ih hl]
      constructor
      · rintro ⟨hmem, hlt, hmin⟩
        refine ⟨.tail _ hmem, hlt, fun b hb hbm => ?_⟩
        rcases List.mem_cons.mp hb with rfl | hb
        · exact hac
        · exact hmin b hb hbm
      · rintro ⟨hmem, hlt, hmin⟩
        rcases List.mem_cons.mp hmem with rfl | hmem
        · exact absurd hlt hac
        · exact ⟨hmem, hlt, fun b hb => hmin b (.tail _ hb)⟩

/-- The server of `a`, told by the order of addresses alone. -/
theorem server?_eq_some_iff : v.server? a = some me ↔ me ∈ v.members ∧
    (a < me ∧ (∀ b ∈ v.members, a < b → me ≤ b) ∨ (∀ b ∈ v.members, ¬a < b) ∧ ∀ b ∈ v.members, b ≤ me) := by
  have hfirst : v.members.toList.find? (a < ·) = some me ↔ me ∈ v.members ∧ a < me ∧ ∀ b ∈ v.members, a < b → me ≤ b := by
    rw [find?_after_eq_some_iff v.members.ordered]
    refine and_congr .rfl (and_congr .rfl (forall₂_congr fun b _ => ?_))
    exact ⟨fun h hab => Std.not_lt.mp fun hlt => h hlt hab, fun h hlt hab => Std.not_lt.mpr (h hab) hlt⟩
  have hnone : v.members.toList.find? (a < ·) = .none ↔ ∀ b ∈ v.members, ¬a < b := by
    rw [List.find?_eq_none]
    exact forall₂_congr fun b _ => by rw [decide_eq_true_iff]
  rw [server?, Option.or_eq_some_iff, hfirst, hnone, getLast?_eq_some_iff v.members.ordered]
  constructor
  · rintro (⟨hme, hnext⟩ | ⟨hall, hme, hmax⟩)
    · exact ⟨hme, .inl hnext⟩
    · exact ⟨hme, .inr ⟨hall, hmax⟩⟩
  · rintro ⟨hme, hnext | ⟨hall, hmax⟩⟩
    · exact .inl ⟨hme, hnext⟩
    · exact .inr ⟨hall, hme, hmax⟩

/-- The old members divide the joining members among themselves. -/
theorem mem_recipients_iff (ha : a ∈ new.members) (hold : a ∉ old.members) :
    a ∈ old.recipients new me ↔ old.server? a = some me := by
  rw [server?_eq_some_iff]
  unfold recipients
  split
  · next hme =>
    have hside : ∀ b ∈ old.members, ¬b < a → a < b := fun b hb hlt =>
      (Std.lt_trichotomy a b).resolve_right fun h => h.elim (fun h => hold (h ▸ hb)) hlt
    have hnext : (∀ b ∈ old.members, b < me → b < a) ↔ ∀ b ∈ old.members, a < b → me ≤ b := by
      refine forall₂_congr fun b hb => ⟨fun h hab => ?_, fun h hlt => ?_⟩
      · exact Std.not_lt.mp fun hlt => Std.not_gt_of_lt hab (h hlt)
      · exact Decidable.byContradiction fun hba => Std.not_lt.mpr (h (hside b hb hba)) hlt
    rw [OrderedSet.mem_filter, decide_eq_true_iff, all_predecessor?_iff, hnext, isLast_iff]
    constructor
    · rintro ⟨-, -, ⟨hnext, hlt⟩ | ⟨hmax, hlt⟩⟩
      · exact ⟨hme, .inl ⟨hlt, hnext⟩⟩
      · -- No member is after the largest one, so none is after `a`.
        exact ⟨hme, .inr ⟨fun b hb => Std.not_gt_of_lt (Std.lt_of_le_of_lt (hmax b hb) hlt), hmax⟩⟩
    · rintro ⟨-, ⟨hlt, hnext⟩ | ⟨hall, hmax⟩⟩
      · exact ⟨ha, hold, .inl ⟨hnext, hlt⟩⟩
      · exact ⟨ha, hold, .inr ⟨hmax, Decidable.byContradiction fun h => hall me hme (hside me hme h)⟩⟩
  · next hme => exact ⟨fun h => (by cases h), fun h => absurd h.1 hme⟩

/-! ### Dividing the joining members -/

/-- Only old members send, and only to joining members. -/
theorem joining_of_mem_recipients (h : a ∈ old.recipients new me) :
    me ∈ old.members ∧ a ∈ new.members ∧ a ∉ old.members := by
  unfold recipients at h
  split at h
  · next hme =>
    obtain ⟨ha, hpick⟩ := OrderedSet.mem_filter.mp h
    exact ⟨hme, ha, (of_decide_eq_true hpick).1⟩
  · cases h

/-- When a group moves on from a view with members, each joining member falls to exactly one of them: the
    smallest one ordered after it, or the largest one when none is. Nobody else sends anything. -/
theorem recipients_partition_joining_members (old new : View) (hold : old.members ≠ .empty) :
    (∀ me other, me ≠ other → ∀ a ∈ old.recipients new me, a ∉ old.recipients new other) ∧
      (∀ a, (∃ me ∈ old.members, a ∈ old.recipients new me) ↔ a ∈ new.members ∧ a ∉ old.members) ∧
      (∀ a ∈ new.members, a ∉ old.members → ∀ me, a ∈ old.recipients new me ↔ me ∈ old.members ∧
        (a < me ∧ (∀ b ∈ old.members, a < b → me ≤ b) ∨
          (∀ b ∈ old.members, ¬a < b) ∧ ∀ b ∈ old.members, b ≤ me)) ∧
      ∀ me, me ∉ old.members → old.recipients new me = .empty := by
  refine ⟨fun me other hne a hme hother => ?_, fun a => ⟨?_, ?_⟩, fun a ha hjoin me => ?_, fun me hme => if_neg hme⟩
  · obtain ⟨-, ha, hjoin⟩ := joining_of_mem_recipients hme
    have hserver : some me = some other :=
      ((mem_recipients_iff ha hjoin).mp hme).symm.trans ((mem_recipients_iff ha hjoin).mp hother)
    exact hne (Option.some.inj hserver)
  · rintro ⟨me, -, hme⟩
    exact (joining_of_mem_recipients hme).2
  · rintro ⟨ha, hjoin⟩
    obtain ⟨me, hserver⟩ := exists_server? hold a
    exact ⟨me, mem_of_server? hserver, (mem_recipients_iff ha hjoin).mpr hserver⟩
  · rw [mem_recipients_iff ha hjoin, server?_eq_some_iff]

/-- Members join before the first old member, between the two, and after the last one; one old member leaves. -/
theorem recipients_around_two_members :
    let old : View := ⟨1, .ofList [.name "c", .name "f"]⟩
    let new : View := ⟨2, .ofList [.name "a", .name "d", .name "f", .name "h"]⟩
    old.members ≠ .empty ∧ (old.recipients new (.name "c")).toList = [.name "a"] ∧
      (old.recipients new (.name "f")).toList = [.name "d", .name "h"] ∧
      (∀ a, (∃ me ∈ old.members, a ∈ old.recipients new me) ↔ a ∈ new.members ∧ a ∉ old.members) ∧
      old.recipients new (.name "d") = .empty := by
  intro old new
  have hold : old.members ≠ .empty := by decide
  obtain ⟨-, hunion, -, hnobody⟩ := recipients_partition_joining_members old new hold
  exact ⟨hold, by decide, by decide, hunion, hnobody _ (by decide)⟩

/-! ### The installed view -/

/-- The view that is installed once a value is applied. -/
def after (v : View) : Value → View
  | .reconfigure r => if r.view.isNewerThan v then r.view else v
  | _ => v

/-- The view that is installed once values are applied, one after the other. -/
def afterAll (v : View) (values : List (Position × Value)) : View := values.foldl (fun v e => v.after e.2) v

theorem afterAll_append (v : View) (front back : List (Position × Value)) :
    v.afterAll (front ++ back) = (v.afterAll front).afterAll back := List.foldl_append

/-- Of two replicas, the one with the older view has no newer one after a value, either. A move that is
    news to the other one leaves both with the same view. -/
theorem number_after_le {value : Value} (h : w.number ≤ v.number) : (w.after value).number ≤ (v.after value).number := by
  cases value with
  | reconfigure r =>
    simp only [after, isNewerThan, decide_eq_true_iff]
    split <;> split <;> omega
  | op | scan | syncedUp | noop | unknown => exact h

/-- Only a move to a newer view changes the view. -/
theorem exists_newer_of_after_ne {value : Value} (h : v.after value ≠ v) :
    ∃ r, value = .reconfigure r ∧ r.view.isNewerThan v = true := by
  cases value with
  | reconfigure r => exact ⟨r, rfl, Decidable.byContradiction fun hn => h (if_neg hn)⟩
  | op | scan | syncedUp | noop | unknown => exact absurd rfl h

theorem after_eq_of_newer {r : Reconfiguration} (h : w.number ≤ v.number) (hr : r.view.isNewerThan v = true) :
    w.after (.reconfigure r) = v.after (.reconfigure r) := by
  have hw : r.view.isNewerThan w = true := by
    simp only [isNewerThan, decide_eq_true_iff] at hr ⊢
    omega
  rw [after, after, if_pos hr, if_pos hw]

end View

namespace Decided
variable {D : Decided} {v : View} {first p : Position} {a : Addr}

/-- The view that the decisions from `first` on and before `p` install, from `v` on. -/
def installed (D : Decided) (v : View) (first p : Position) : View := v.afterAll (D.segment first (p - first))

theorem installed_of_le (h : p ≤ first) : D.installed v first p = v := by
  rw [installed, Nat.sub_eq_zero_of_le h]
  rfl

theorem installed_succ (h : first ≤ p) : D.installed v first (p + 1) = (D.installed v first p).after (D p) := by
  have hone : D.segment (first + (p - first)) 1 = [(p, D p)] := by
    rw [Nat.add_sub_of_le h, segment_succ, segment_zero]
  rw [installed, Nat.succ_sub h, Nat.succ_eq_add_one, ← segment_append, View.afterAll_append, hone]
  rfl

/-- Without any move to a view before it, a position sees the view that was there at first. -/
theorem installed_eq_of_no_move (h : ∀ q < p, ∀ r, D q ≠ .reconfigure r) : D.installed v 0 p = v := by
  induction p with
  | zero => exact installed_of_le (Nat.le_refl 0)
  | succ p ih =>
    rw [installed_succ (Nat.zero_le p), ih fun q hq => h q (Nat.lt_succ_of_lt hq)]
    have hp := h p (Nat.lt_succ_self p)
    cases hD : D p with
    | reconfigure r => exact absurd hD (hp r)
    | op | scan | syncedUp | noop | unknown => rfl

/-- Decisions without any move to a view may as well not be known. -/
theorem installed_of_no_move (hfirst : first ≤ p) (h : ∀ q < first, ∀ r, D q ≠ .reconfigure r) :
    D.installed v first p = D.installed v 0 p := by
  have hsplit : D.segment 0 p = D.segment 0 first ++ D.segment first (p - first) := by
    have happend : D.segment 0 first ++ D.segment (0 + first) (p - first) = D.segment 0 (first + (p - first)) :=
      segment_append first (p - first)
    rw [Nat.zero_add, Nat.add_sub_of_le hfirst] at happend
    exact happend.symm
  have hstart : v.afterAll (D.segment 0 first) = v := installed_eq_of_no_move h
  rw [installed, installed, Nat.sub_zero, hsplit, View.afterAll_append, hstart]

/-- Every member was there at first, or a decision names it. -/
theorem mem_installed (h : a ∈ (D.installed v 0 p).members) :
    a ∈ v.members ∨ ∃ q < p, ∃ r, D q = .reconfigure r ∧ a ∈ r.view.members := by
  induction p with
  | zero => exact .inl (by rwa [installed_of_le (Nat.le_refl 0)] at h)
  | succ p ih =>
    have later : a ∈ (D.installed v 0 p).members →
        a ∈ v.members ∨ ∃ q < p + 1, ∃ r, D q = .reconfigure r ∧ a ∈ r.view.members := fun h => by
      rcases ih h with h | ⟨q, hq, r, hr⟩
      · exact .inl h
      · exact .inr ⟨q, Nat.lt_succ_of_lt hq, r, hr⟩
    rw [installed_succ (Nat.zero_le p)] at h
    cases hD : D p with
    | reconfigure r =>
      rw [hD, View.after] at h
      split at h
      · exact .inr ⟨p, Nat.lt_succ_self p, r, hD, h⟩
      · exact later h
    | op | scan | syncedUp | noop | unknown => exact later (by rwa [hD] at h)

/-- A replica that knows the log from some position on has the installed view as soon as it is a member
    of it, if it was no member before that position. -/
theorem installed_none_eq (hfirst : first ≤ p) (hv : a ∉ v.members)
    (hbefore : ∀ q < first, ∀ r, D q = .reconfigure r → a ∉ r.view.members) (ha : a ∈ (D.installed v 0 p).members) :
    D.installed .none first p = D.installed v 0 p := by
  -- Meanwhile the replica may have an older view.
  suffices h : (D.installed .none first p).number ≤ (D.installed v 0 p).number ∧
      (a ∈ (D.installed v 0 p).members → D.installed .none first p = D.installed v 0 p) from h.2 ha
  clear ha
  obtain ⟨n, rfl⟩ := Nat.exists_eq_add_of_le hfirst
  induction n with
  | zero =>
    rw [Nat.add_zero, installed_of_le (Nat.le_refl first)]
    refine ⟨Nat.zero_le _, fun ha => ?_⟩
    rcases mem_installed ha with h | ⟨q, hq, r, hr, h⟩
    · exact absurd h hv
    · exact absurd h (hbefore q hq r hr)
  | succ n ih =>
    have hp : first ≤ first + n := Nat.le_add_right first n
    obtain ⟨hle, heq⟩ := ih hp
    rw [← Nat.add_assoc, installed_succ hp, installed_succ (Nat.zero_le _)]
    generalize first + n = p at hle heq
    refine ⟨View.number_after_le hle, fun ha => ?_⟩
    by_cases hnews : ∃ r, D p = .reconfigure r ∧ r.view.isNewerThan (D.installed v 0 p) = true
    · obtain ⟨r, hr, hnew⟩ := hnews
      rw [hr]
      exact View.after_eq_of_newer hle hnew
    · have hstay : (D.installed v 0 p).after (D p) = D.installed v 0 p := by
        cases hD : D p with
        | reconfigure r => exact if_neg fun hnew => hnews ⟨r, hD, hnew⟩
        | op | scan | syncedUp | noop | unknown => rfl
      rw [heq (hstay ▸ ha)]

end Decided
end ReplicaGroup
