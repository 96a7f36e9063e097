import Mathlib.Data.List.Induction
import ReplicaGroup.Log
import ReplicaGroup.OrderedMap.Lemmas

/-! # What a log releases

A log is called with values and with watermarks, in any order, early, late and twice. Told from the calls
alone: from the first inserted position on, every value is released as soon as nothing before it is missing,
and of several values for one position the first one counts. -/

namespace ReplicaGroup
namespace OperationsLog

/-- A call of a log. -/
inductive Call where
  | insert (position : Position) (value : Value)
  | prune (watermark : Position)

/-- The log after a call, and what the call releases. -/
def call (log : OperationsLog) : Call → OperationsLog × List (Position × Value)
  | .insert position value => log.insert position value
  | .prune watermark => (log.prune watermark, [])

/-- The log after calls. -/
def after (calls : List Call) : OperationsLog := calls.foldl (fun log c => (log.call c).1) .empty

/-- What a call releases when other calls came before it. -/
def releasedBy (before : List Call) (c : Call) : List (Position × Value) := ((after before).call c).2

/-- What each call releases when other calls came before. -/
def releasesAfter (before : List Call) : List Call → List (List (Position × Value))
  | [] => []
  | c :: rest => releasedBy before c :: releasesAfter (before ++ [c]) rest

/-- What each call on an empty log releases. -/
def releases (calls : List Call) : List (List (Position × Value)) := releasesAfter [] calls

/-! ### What is delivered -/

/-- The first value that is inserted at a position. -/
def earliest? (calls : List Call) (p : Position) : Option Value :=
  calls.findSome? fun
    | .insert q v => if q = p then some v else none
    | .prune _ => none

/-- The position that is inserted first. -/
def start? (calls : List Call) : Option Position :=
  calls.findSome? fun
    | .insert q _ => some q
    | .prune _ => none

/-- Whether every position from the first inserted one up to `p` is inserted. -/
def Reaches (calls : List Call) (p : Position) : Prop :=
  ∃ f, start? calls = some f ∧ f ≤ p ∧ ∀ q, f ≤ q → q ≤ p → (earliest? calls q).isSome

/-- Whether an entry is released by a call, and no later call prunes it. -/
def Keeps (calls : List Call) (e : Position × Value) : Prop :=
  ∃ front c back, calls = front ++ c :: back ∧ e ∈ releasedBy front c ∧ ∀ w, .prune w ∈ back → w < e.1

section Calls
variable {calls : List Call} {c : Call} {p f : Position} {v : Value} {e : Position × Value}

theorem after_concat (calls : List Call) (c : Call) : after (calls ++ [c]) = ((after calls).call c).1 := by
  rw [after, List.foldl_append]
  rfl

theorem releasesAfter_append (before l r : List Call) :
    releasesAfter before (l ++ r) = releasesAfter before l ++ releasesAfter (before ++ l) r := by
  induction l generalizing before with
  | nil => simp [releasesAfter]
  | cons c l ih => simp [releasesAfter, ih]

theorem flatten_releases_concat (calls : List Call) (c : Call) :
    (releases (calls ++ [c])).flatten = (releases calls).flatten ++ releasedBy calls c := by
  simp [releases, releasesAfter_append, releasesAfter]

theorem earliest?_concat_insert (calls : List Call) (p : Position) (v : Value) (q : Position) :
    earliest? (calls ++ [.insert p v]) q = (earliest? calls q).or (if p = q then some v else none) := by
  rw [earliest?, List.findSome?_append]
  by_cases h : p = q <;> simp [earliest?, h]

theorem earliest?_concat_prune (calls : List Call) (w q : Position) :
    earliest? (calls ++ [.prune w]) q = earliest? calls q := by
  rw [earliest?, List.findSome?_append]
  exact Option.or_none

/-- A later call does not replace a value. -/
theorem earliest?_append_of_some {back : List Call} (h : earliest? calls p = some v) :
    earliest? (calls ++ back) p = some v := by
  rw [earliest?, List.findSome?_append]
  exact congrArg (Option.or · _) h

theorem start?_append_of_some {back : List Call} (h : start? calls = some f) : start? (calls ++ back) = some f := by
  rw [start?, List.findSome?_append]
  exact congrArg (Option.or · _) h

theorem start?_concat_of_none (h : start? calls = none) (p : Position) (v : Value) :
    start? (calls ++ [.insert p v]) = some p := by
  rw [start?, List.findSome?_append]
  exact congrArg (Option.or · _) h

theorem start?_concat_prune (calls : List Call) (w : Position) : start? (calls ++ [.prune w]) = start? calls := by
  rw [start?, List.findSome?_append]
  exact Option.or_none

/-- Nothing is inserted as long as there is no first position. -/
theorem earliest?_of_start?_eq_none (h : start? calls = none) (p : Position) : earliest? calls p = none := by
  refine List.findSome?_eq_none_iff.mpr fun c hc => ?_
  have := List.findSome?_eq_none_iff.mp h c hc
  cases c with
  | insert q v => cases this
  | prune w => rfl

theorem keeps_concat : Keeps (calls ++ [c]) e ↔
    e ∈ releasedBy calls c ∨ Keeps calls e ∧ ∀ w, c = .prune w → w < e.1 := by
  constructor
  · rintro ⟨front, d, back, hcalls, he, hprune⟩
    rcases List.eq_nil_or_concat back with rfl | ⟨back, d', rfl⟩
    · obtain ⟨rfl, hd⟩ := List.append_inj' hcalls rfl
      cases hd
      exact .inl he
    · rw [List.concat_eq_append] at hcalls hprune
      rw [← List.cons_append, ← List.append_assoc] at hcalls
      obtain ⟨rfl, hd⟩ := List.append_inj' hcalls rfl
      cases hd
      exact .inr ⟨⟨front, d, back, rfl, he, fun w hw => hprune w (List.mem_append_left _ hw)⟩,
        fun w hw => hprune w (by simp [hw])⟩
  · rintro (he | ⟨⟨front, d, back, rfl, he, hprune⟩, hlast⟩)
    · exact ⟨calls, c, [], rfl, he, fun w hw => by cases hw⟩
    · refine ⟨front, d, back ++ [c], by simp, he, fun w hw => ?_⟩
      rcases List.mem_append.mp hw with hw | hw
      · exact hprune w hw
      · exact hlast w (List.mem_singleton.mp hw).symm

end Calls

/-! ### One release -/

/-- What follows on without gap is a run of positions, and the position after the run is missing. -/
theorem leadingRun_spec {l : List (Nat × Value)} (hl : l.Pairwise fun a b => a.1 < b.1) {last : Nat}
    (hlast : ∀ e ∈ l, last < e.1) :
    ∃ k, (leadingRun (some last) l).map (·.1) = List.range' (last + 1) k ∧ leadingRun (some last) l ⊆ l ∧
      ∀ e ∈ l, e.1 ≠ last + k + 1 := by
  induction l generalizing last with
  | nil => exact ⟨0, rfl, fun _ h => h, fun e he => by cases he⟩
  | cons e l ih =>
    obtain ⟨he, hl⟩ := List.pairwise_cons.mp hl
    unfold leadingRun
    by_cases hnext : e.1 = last + 1
    · obtain ⟨k, hkeys, hsub, hmissing⟩ := ih hl he
      rw [hnext] at hkeys hmissing
      refine ⟨k + 1, ?_, ?_, fun x hx => ?_⟩
      · rw [if_pos hnext, List.map_cons, hnext, hkeys, List.range'_succ]
      · rw [if_pos hnext]
        exact List.cons_subset_cons e hsub
      · rcases List.mem_cons.mp hx with rfl | hx
        · omega
        · have := hmissing x hx
          omega
    · rw [if_neg hnext]
      refine ⟨0, rfl, List.nil_subset _, fun x hx => ?_⟩
      have := hlast e (.head _)
      rcases List.mem_cons.mp hx with rfl | hx
      · exact hnext
      · have := he x hx
        omega

/-- The last of a run of positions. -/
theorem getLast?_of_keys {ready : List (Position × Value)} {first k : Nat} (h : ready.map (·.1) = List.range' first (k + 1)) :
    ∃ v, ready.getLast? = some (first + k, v) := by
  have hlast := congrArg List.getLast? h
  rw [List.getLast?_map, List.range'_1_concat, List.getLast?_append, List.getLast?_singleton, Option.some_or] at hlast
  obtain ⟨⟨p, v⟩, hp, rfl⟩ := Option.map_eq_some_iff.mp hlast
  exact ⟨v, hp⟩

/-- What a log looks like from outside: it has released everything up to `n`, waits for the next value, and
    holds what comes later. -/
structure Waits (log : OperationsLog) (V : Nat → Option Value) (n : Nat) : Prop where
  applied : log.applied? = some n
  pending : ∀ p, log.pending.get? p = if n < p then V p else none
  recorded : ∀ e ∈ log.entries.entries, e.1 ≤ n

/-- A log with waiting values releases what follows on without gap, and then waits for a value that is
    missing. -/
theorem Waits.release {log : OperationsLog} {V : Nat → Option Value} {n : Nat} (h : log.Waits V n) :
    ∃ k, log.release.1.Waits V (n + k) ∧ V (n + k + 1) = none ∧
      log.release.2.map (·.1) = List.range' (n + 1) k ∧ (∀ e ∈ log.release.2, V e.1 = some e.2) ∧
      log.release.1.entries.entries = log.entries.entries ++ log.release.2 := by
  have hbelow : ∀ e ∈ log.pending.entries, n < e.1 ∧ V e.1 = some e.2 := fun e he => by
    have hget := OrderedMap.get?_eq_some_iff.mpr he
    rw [h.pending] at hget
    exact Option.ite_none_right_eq_some.mp hget
  obtain ⟨k, hkeys, hsub, hmissing⟩ := leadingRun_spec log.pending.ordered fun e he => (hbelow e he).1
  have hvalues : ∀ e ∈ leadingRun (some n) log.pending.entries, V e.1 = some e.2 := fun e he => (hbelow e (hsub he)).2
  have hnone : V (n + k + 1) = none := by
    have hget : log.pending.get? (n + k + 1) = none := by
      rw [OrderedMap.get?_eq_none_iff]
      intro hmem
      obtain ⟨e, he, hp⟩ := List.mem_map.mp hmem
      exact hmissing e he hp
    rwa [h.pending, if_pos (by omega)] at hget
  refine ⟨k, ?_⟩
  unfold OperationsLog.release
  simp only [h.applied]
  generalize hready : leadingRun (some n) log.pending.entries = ready at hkeys hvalues ⊢
  cases k with
  | zero =>
    rw [List.map_eq_nil_iff.mp hkeys]
    exact ⟨h, hnone, rfl, fun e he => (by cases he), (List.append_nil _).symm⟩
  | succ k =>
    obtain ⟨v, hlast⟩ := getLast?_of_keys hkeys
    -- The released values come after all recorded ones, so they are appended.
    have hready_ordered : ready.Pairwise fun a b => a.1 < b.1 := by
      have hordered : (List.range' (n + 1) (k + 1)).Pairwise (· < ·) := List.pairwise_lt_range'
      rw [← hkeys] at hordered
      exact List.pairwise_map.mp hordered
    have hready_mem : ∀ e : Nat × Value, e ∈ ready → n < e.1 ∧ e.1 ≤ n + (k + 1) := fun e he => by
      have hmem : e.1 ∈ List.range' (n + 1) (k + 1) := hkeys ▸ List.mem_map_of_mem he
      rw [List.mem_range'_1] at hmem
      omega
    have happend : (log.entries.entries ++ ready).Pairwise fun a b => a.1 < b.1 :=
      List.pairwise_append.mpr ⟨log.entries.ordered, hready_ordered, fun a ha b hb =>
        Nat.lt_of_le_of_lt (h.recorded a ha) (hready_mem b hb).1⟩
    have hentries : (ready.foldl (fun m e => m.insert e.1 e.2) log.entries).entries = log.entries.entries ++ ready := by
      rw [OrderedMap.foldl_insert_eq happend]
    simp only [hlast]
    refine ⟨⟨?_, fun p => ?_, fun e he => ?_⟩, hnone, hkeys, hvalues, hentries⟩
    · rw [Nat.add_right_comm, Nat.add_assoc]
    · simp only [OrderedMap.get?_above, h.pending]
      grind
    · rcases List.mem_append.mp (hentries ▸ he) with he | he
      · exact Nat.le_trans (h.recorded e he) (Nat.le_add_right n (k + 1))
      · exact (hready_mem e he).2

/-! ### All calls -/

/-- What a log is after calls that start at `f`. -/
structure Shows (calls : List Call) (f n : Nat) : Prop where
  start : start? calls = some f
  first : f ≤ n
  filled : ∀ p, f ≤ p → p ≤ n → (earliest? calls p).isSome
  missing : earliest? calls (n + 1) = none
  waits : (after calls).Waits (earliest? calls) n
  positions : (releases calls).flatten.map (·.1) = List.range' f (n + 1 - f)
  values : ∀ e ∈ (releases calls).flatten, earliest? calls e.1 = some e.2
  entries : ∀ e, e ∈ (after calls).entries.entries ↔ Keeps calls e

/-- What a log is after calls that insert nothing. -/
structure IsUntouched (calls : List Call) : Prop where
  start : start? calls = none
  applied : (after calls).applied? = none
  pending : (after calls).pending = .empty
  entries : (after calls).entries = .empty
  nothing : (releases calls).flatten = []
  keeps : ∀ e, ¬Keeps calls e

section Steps
variable {calls : List Call} {f n : Nat}

theorem IsUntouched.prune (h : IsUntouched calls) (w : Position) : IsUntouched (calls ++ [.prune w]) where
  start := (start?_concat_prune calls w).trans h.start
  applied := by rw [after_concat]; exact h.applied
  pending := by rw [after_concat]; exact h.pending
  entries := by
    rw [after_concat]
    show (after calls).entries.above w = .empty
    rw [h.entries]
    rfl
  nothing := by rw [flatten_releases_concat, h.nothing]; rfl
  keeps e he := by
    rcases keeps_concat.mp he with he | ⟨he, -⟩
    · cases he
    · exact h.keeps e he

/-- The first value that is inserted is released at once. -/
theorem IsUntouched.insert (h : IsUntouched calls) (p : Nat) (v : Value) :
    Shows (calls ++ [.insert p v]) p p := by
  have hcall : (after calls).call (.insert p v) = (⟨OrderedMap.insert .empty p v, .above (OrderedMap.insert .empty p v) p, some p⟩, [(p, v)]) := by
    show (after calls).insert p v = _
    have hknows : (after calls).knows p = false := by
      rw [knows, h.applied, h.pending]
      rfl
    unfold OperationsLog.insert OperationsLog.release
    rw [hknows]
    simp only [h.applied, h.pending, h.entries]
    rfl
  have hearliest : ∀ q, earliest? (calls ++ [.insert p v]) q = if p = q then some v else none := fun q => by
    rw [earliest?_concat_insert, earliest?_of_start?_eq_none h.start, Option.none_or]
  have hreleased : releasedBy calls (.insert p v) = [(p, v)] := by rw [releasedBy, hcall]
  have hall : (releases (calls ++ [.insert p v])).flatten = [(p, v)] := by
    rw [flatten_releases_concat, h.nothing, hreleased]
    rfl
  refine ⟨start?_concat_of_none h.start p v, Nat.le_refl p, fun q hq hq' => ?_, ?_, ⟨?_, fun q => ?_, fun e he => ?_⟩,
    ?_, fun e he => ?_, fun e => ?_⟩
  · rw [hearliest, if_pos (Nat.le_antisymm hq hq')]
    rfl
  · rw [hearliest, if_neg (by omega)]
  · rw [after_concat, hcall]
  · rw [after_concat, hcall, hearliest, OrderedMap.get?_above, OrderedMap.get?_insert]
    grind [OrderedMap.get?_empty]
  · rw [after_concat, hcall] at he
    cases List.mem_singleton.mp he
    exact Nat.le_refl p
  · rw [hall, Nat.add_sub_cancel_left]
    rfl
  · rw [hall] at he
    cases List.mem_singleton.mp he
    rw [hearliest, if_pos rfl]
  · rw [keeps_concat, hreleased, after_concat, hcall]
    exact ⟨fun he => .inl he, fun he => he.resolve_right fun he => h.keeps e he.1⟩

theorem Shows.prune (h : Shows calls f n) (w : Position) : Shows (calls ++ [.prune w]) f n := by
  have hearliest : earliest? (calls ++ [.prune w]) = earliest? calls := funext (earliest?_concat_prune calls w)
  have hall : (releases (calls ++ [.prune w])).flatten = (releases calls).flatten := by
    rw [flatten_releases_concat]
    exact List.append_nil _
  refine ⟨(start?_concat_prune calls w).trans h.start, h.first, ?_, ?_, ⟨?_, ?_, fun e he => ?_⟩, ?_, ?_, fun e => ?_⟩
  · rw [hearliest]; exact h.filled
  · rw [hearliest]; exact h.missing
  · rw [after_concat]; exact h.waits.applied
  · rw [after_concat, hearliest]; exact h.waits.pending
  · rw [after_concat] at he
    exact h.waits.recorded e (List.mem_filter.mp he).1
  · rw [hall]; exact h.positions
  · rw [hall, hearliest]; exact h.values
  · rw [keeps_concat, after_concat]
    show e ∈ ((after calls).entries.above w).entries ↔ _
    rw [OrderedMap.above, OrderedMap.filter, List.mem_filter, h.entries]
    simp [releasedBy, call]

/-- A value that is known or comes before the start changes nothing. -/
theorem Shows.reject (h : Shows calls f n) {p : Nat} (hk : (after calls).knows p = true) (v : Value) :
    Shows (calls ++ [.insert p v]) f n := by
  have hcall : (after calls).call (.insert p v) = (after calls, []) := by
    show (after calls).insert p v = _
    rw [OperationsLog.insert, if_pos hk]
  -- Only a position before the start can be known without having been inserted.
  have hknown : p < f ∨ (earliest? calls p).isSome := by
    rw [knows, h.waits.applied, Option.any_some, Bool.or_eq_true, decide_eq_true_iff, OrderedMap.contains_iff,
      OrderedMap.mem_keys_iff, h.waits.pending] at hk
    rcases hk with hk | hk
    · exact (Nat.lt_or_ge p f).imp_right fun hf => h.filled p hf hk
    · split at hk
      · exact .inr hk
      · cases hk
  have hearliest : ∀ q, f ≤ q → earliest? (calls ++ [.insert p v]) q = earliest? calls q := fun q hq => by
    rw [earliest?_concat_insert]
    rcases hknown with hp | hp
    · rw [if_neg (show ¬p = q by omega), Option.or_none]
    · by_cases hpq : p = q
      · exact Option.or_of_isSome (hpq ▸ hp)
      · rw [if_neg hpq, Option.or_none]
  have hall : (releases (calls ++ [.insert p v])).flatten = (releases calls).flatten := by
    rw [flatten_releases_concat, releasedBy, hcall]
    exact List.append_nil _
  have hfirst : ∀ q, n < q → f ≤ q := fun q hq => Nat.le_trans h.first (Nat.le_of_lt hq)
  refine ⟨start?_append_of_some h.start, h.first, fun q hq hq' => ?_, ?_, ⟨?_, fun q => ?_, ?_⟩, ?_, fun e he => ?_,
    fun e => ?_⟩
  · rw [hearliest q hq]; exact h.filled q hq hq'
  · rw [hearliest _ (hfirst _ (Nat.lt_succ_self n))]; exact h.missing
  · rw [after_concat, hcall]; exact h.waits.applied
  · rw [after_concat, hcall, h.waits.pending]
    split
    · next hq => exact (hearliest q (hfirst q hq)).symm
    · rfl
  · rw [after_concat, hcall]; exact h.waits.recorded
  · rw [hall]; exact h.positions
  · exact earliest?_append_of_some (h.values e (hall ▸ he))
  · rw [keeps_concat, after_concat, releasedBy, hcall, h.entries]
    simp

/-- A new value is released with all that waited for it, if nothing before it is missing. -/
theorem Shows.accept (h : Shows calls f n) {p : Nat} (hk : (after calls).knows p = false) (v : Value) :
    ∃ k, Shows (calls ++ [.insert p v]) f (n + k) := by
  have hcall : (after calls).call (.insert p v) = release { after calls with pending := (after calls).pending.insert p v } := by
    show (after calls).insert p v = _
    rw [OperationsLog.insert, hk]
    rfl
  -- A position that the log does not know comes after what it has applied, and nothing was inserted there.
  have hnew : n < p ∧ earliest? calls p = none := by
    rw [knows, h.waits.applied, Option.any_some, Bool.or_eq_false_iff, decide_eq_false_iff_not, Nat.not_le] at hk
    obtain ⟨hp, hk⟩ := hk
    have hget : (after calls).pending.get? p = none := by
      rw [OrderedMap.get?_eq_none_iff, ← OrderedMap.contains_iff, hk]
      exact Bool.false_ne_true
    rw [h.waits.pending, if_pos hp] at hget
    exact ⟨hp, hget⟩
  have hearliest : ∀ q, earliest? (calls ++ [.insert p v]) q = if q = p then some v else earliest? calls q := fun q => by
    rw [earliest?_concat_insert]
    by_cases hq : q = p
    · rw [if_pos hq, hq, hnew.2, Option.none_or, if_pos rfl]
    · rw [if_neg hq, if_neg (Ne.symm hq), Option.or_none]
  have hwaits : Waits { after calls with pending := (after calls).pending.insert p v }
      (earliest? (calls ++ [.insert p v])) n := by
    refine ⟨h.waits.applied, fun q => ?_, h.waits.recorded⟩
    rw [OrderedMap.get?_insert, h.waits.pending, hearliest]
    by_cases hq : q = p
    · rw [if_pos hq, if_pos (hq ▸ hnew.1), if_pos hq]
    · rw [if_neg hq, if_neg hq]
  obtain ⟨k, hwaits', hmissing, hkeys, hvalues, hentries⟩ := hwaits.release
  have hreleased : releasedBy calls (.insert p v) =
      (release { after calls with pending := (after calls).pending.insert p v }).2 := by rw [releasedBy, hcall]
  rw [← hreleased] at hkeys hvalues hentries
  have hfilled : ∀ q, f ≤ q → q ≤ n → (earliest? (calls ++ [.insert p v]) q).isSome := fun q hq hq' => by
    rw [hearliest]
    split
    · rfl
    · exact h.filled q hq hq'
  refine ⟨k, start?_append_of_some h.start, Nat.le_trans h.first (Nat.le_add_right n k), fun q hq hq' => ?_, hmissing, ?_,
    ?_, fun e he => ?_, fun e => ?_⟩
  · rcases Nat.lt_or_ge n q with hn | hn
    · have hmem : q ∈ (releasedBy calls (.insert p v)).map (·.1) := by
        rw [hkeys, List.mem_range'_1]
        omega
      obtain ⟨e, he, rfl⟩ := List.mem_map.mp hmem
      rw [hvalues e he]
      rfl
    · exact hfilled q hq hn
  · rw [after_concat, hcall]; exact hwaits'
  · have hfirst := h.first
    rw [flatten_releases_concat, List.map_append, h.positions, hkeys, show n + 1 = f + (n + 1 - f) by omega,
      Nat.add_sub_cancel_left, List.range'_append_1]
    congr 1
    omega
  · rw [flatten_releases_concat] at he
    rcases List.mem_append.mp he with he | he
    · exact earliest?_append_of_some (h.values e he)
    · exact hvalues e he
  · rw [keeps_concat, after_concat, hcall, hentries, List.mem_append, h.entries, Or.comm]
    simp

/-- What a log is after any calls. -/
theorem shows_or_untouched (calls : List Call) : IsUntouched calls ∨ ∃ f n, Shows calls f n := by
  induction calls using List.reverseRecOn with
  | nil => exact .inl ⟨rfl, rfl, rfl, rfl, rfl, fun e ⟨front, c, back, h, _⟩ => by simp at h⟩
  | append_singleton calls c ih =>
    cases c with
    | insert p v =>
      rcases ih with h | ⟨f, n, h⟩
      · exact .inr ⟨p, p, h.insert p v⟩
      · cases hk : (after calls).knows p with
        | true => exact .inr ⟨f, n, h.reject hk v⟩
        | false =>
          obtain ⟨k, h⟩ := h.accept hk v
          exact .inr ⟨f, n + k, h⟩
    | prune w =>
      rcases ih with h | ⟨f, n, h⟩
      · exact .inl (h.prune w)
      · exact .inr ⟨f, n, h.prune w⟩

theorem Shows.reaches_iff (h : Shows calls f n) {p : Nat} : Reaches calls p ↔ f ≤ p ∧ p ≤ n := by
  constructor
  · rintro ⟨f', hf', hp, hfilled⟩
    obtain rfl := Option.some.inj (h.start.symm.trans hf')
    refine ⟨hp, Nat.le_of_not_lt fun hn => ?_⟩
    have hsome := hfilled (n + 1) (Nat.le_succ_of_le h.first) hn
    rw [h.missing] at hsome
    cases hsome
  · rintro ⟨hf, hn⟩
    exact ⟨f, h.start, hf, fun q hq hq' => h.filled q hq (Nat.le_trans hq' hn)⟩

end Steps

theorem nodup_positions (calls : List Call) : ((releases calls).flatten.map (·.1)).Nodup := by
  rcases shows_or_untouched calls with h | ⟨f, n, h⟩
  · rw [h.nothing]
    exact .nil
  · rw [h.positions]
    exact List.nodup_range'

/-- The released positions are those that no gap comes before. -/
theorem mem_positions_iff {calls : List Call} {p : Position} :
    p ∈ (releases calls).flatten.map (·.1) ↔ Reaches calls p := by
  rcases shows_or_untouched calls with h | ⟨f, n, h⟩
  · rw [h.nothing]
    refine iff_of_false (by simp) fun ⟨f, hf, _⟩ => ?_
    rw [h.start] at hf
    cases hf
  · rw [h.positions, h.reaches_iff, List.mem_range'_1]
    have := h.first
    omega

/-- A call releases the positions that it closes the gap before. -/
theorem mem_releasedBy_iff {calls : List Call} {c : Call} {p : Position} :
    p ∈ (releasedBy calls c).map (·.1) ↔ Reaches (calls ++ [c]) p ∧ ¬Reaches calls p := by
  have hnodup := nodup_positions (calls ++ [c])
  rw [flatten_releases_concat, List.map_append] at hnodup
  have hdisjoint := (List.nodup_append.mp hnodup).2.2
  rw [← mem_positions_iff, ← mem_positions_iff, flatten_releases_concat, List.map_append, List.mem_append]
  exact ⟨fun h => ⟨.inr h, fun h' => hdisjoint p h' p h rfl⟩, fun ⟨h, h'⟩ => h.resolve_left h'⟩

/-- The entries that a log records are the released ones that are not pruned. -/
theorem mem_entries_iff {calls : List Call} {e : Position × Value} :
    e ∈ (after calls).entries.entries ↔ Keeps calls e := by
  rcases shows_or_untouched calls with h | ⟨f, n, h⟩
  · rw [h.entries]
    exact iff_of_false (by simp [OrderedMap.empty]) (h.keeps e)
  · exact h.entries e

theorem mem_operationsAfter_iff {log : OperationsLog} {q p : Position} {op : Operation} :
    (p, op) ∈ log.operationsAfter q ↔ q < p ∧ (p, .op op) ∈ log.entries.entries := by
  simp only [operationsAfter, OrderedMap.above, OrderedMap.filter, List.mem_filterMap, List.mem_filter,
    decide_eq_true_eq]
  constructor
  · rintro ⟨⟨p', v⟩, ⟨he, hq⟩, h⟩
    cases v <;> cases h
    exact ⟨hq, he⟩
  · rintro ⟨hq, he⟩
    exact ⟨(p, .op op), ⟨he, hq⟩, rfl⟩

theorem operationsAfter_ordered (log : OperationsLog) (q : Position) :
    (log.operationsAfter q).Pairwise fun a b => a.1 < b.1 := by
  refine (log.entries.above q).ordered.filterMap _ fun a b hab c hc d hd => ?_
  obtain ⟨p, v⟩ := a
  obtain ⟨p', v'⟩ := b
  cases v <;> cases hc
  cases v' <;> cases hd
  exact hab

/-- Whatever is delivered to a log, it has released the positions from the first inserted one to the last that no
    gap comes before, each once, in order and with the value that was inserted first; every position is released
    by the call that closes the gap before it; and the recorded operations after a position are, in order, the
    released ones that no later watermark has reached. -/
theorem log_releases_gapless_first_values (calls : List Call) :
    (match start? calls with
      | none => (after calls).applied? = none ∧ (releases calls).flatten = []
      | some f => ∃ n, Reaches calls n ∧ (∀ p, Reaches calls p → p ≤ n) ∧ (after calls).applied? = some n ∧
          (releases calls).flatten.map (·.1) = List.range' f (n + 1 - f) ∧
          ∀ e ∈ (releases calls).flatten, earliest? calls e.1 = some e.2) ∧
    (∀ front c back, calls = front ++ c :: back → ∀ p,
      p ∈ (releasedBy front c).map (·.1) ↔ Reaches (front ++ [c]) p ∧ ¬Reaches front p) ∧
    ∀ q, ((after calls).operationsAfter q).Pairwise (fun a b => a.1 < b.1) ∧
      ∀ p op, (p, op) ∈ (after calls).operationsAfter q ↔ q < p ∧ Keeps calls (p, .op op) := by
  refine ⟨?_, fun front c back _ p => mem_releasedBy_iff, fun q => ⟨operationsAfter_ordered _ q, fun p op => ?_⟩⟩
  · rcases shows_or_untouched calls with h | ⟨f, n, h⟩
    · rw [h.start]
      exact ⟨h.applied, h.nothing⟩
    · rw [h.start]
      exact ⟨n, h.reaches_iff.mpr ⟨h.first, Nat.le_refl n⟩, fun p hp => (h.reaches_iff.mp hp).2, h.waits.applied,
        h.positions, h.values⟩
  · rw [mem_operationsAfter_iff, mem_entries_iff]

end OperationsLog
end ReplicaGroup
