import Mathlib.Data.List.Infix
import ReplicaGroup.Proofs.Agreement
import ReplicaGroup.Proofs.Site.Serving

/-! # What is seen below a ceiling

A store is read below a ceiling as it was before any version above it was written. Writes above the ceiling
do not show there. Removals do, because they take the whole history of a key away: below the ceiling
exactly the keys that were removed meanwhile are missing. -/

namespace ReplicaGroup

/-- The keys that an operation removes from a table. -/
def Operation.removals (op : Operation) (t : Table) : List Key :=
  match op.body with
  | .range q => if q.removes then (t.returned q).map (·.1) else []
  | .get _ | .put .. | .multi _ => []

/-- The keys that operations remove, run on a table one after the other. -/
def Table.removals (t : Table) : List Operation → List Key
  | [] => []
  | op :: rest => op.removals t ++ removals (t.run op).1 rest

theorem Table.removals_append (t : Table) (front back : List Operation) :
    t.removals (front ++ back) = t.removals front ++ (t.runAll front).1.removals back := by
  induction front generalizing t with
  | nil => rfl
  | cons op front ih => simp [removals, runAll, ih, List.append_assoc]

/-- Without what is removed from a range, less is left of it exactly if something was there. -/
theorem Table.restrict_eraseAll_eq_iff (t : Table) (keys : List Key) (range : KeyRange) :
    (t.eraseAll keys).restrict range = t.restrict range ↔
      ∀ k ∈ keys, range.contains k = true → t.get? k = none := by
  constructor
  · intro h k hk hrange
    have hk' := congrArg (·.get? k) h
    simpa [get?_restrict, hrange, get?_eraseAll, hk] using hk'.symm
  · refine fun h => OrderedMap.ext_get? fun k => ?_
    rw [get?_restrict, get?_restrict, get?_eraseAll]
    by_cases hrange : range.contains k = true
    · by_cases hk : k ∈ keys
      · simp [hk, h k hk hrange]
      · simp [hk]
    · simp [hrange]

namespace Store
variable {s : Store} {ceiling v : Version}

theorem visible?_deleteAll (s : Store) (keys : List Key) (k : Key) (c : Version) :
    visible? (keys.foldl delete s) k c = if k ∈ keys then none else s.visible? k c := by
  induction keys generalizing s with
  | nil => simp
  | cons j keys ih =>
    rw [List.foldl_cons, ih, visible?, visible?, history?_delete]
    by_cases hk : k ∈ keys <;> by_cases hj : k = j <;> simp [hk, hj]

/-- What a plain operation above the ceiling changes below it. -/
theorem visible?_execute {op : Operation} (hop : op.IsPlain) (hv : ceiling < v) (s : Store) (k : Key) :
    ((op.request v).execute s).store.visible? k ceiling =
      if k ∈ op.removals s.newest then none else s.visible? k ceiling := by
  obtain ⟨id, body⟩ := op
  cases body with
  | get key => rfl
  | put key value => exact visible?_put_of_lt hv
  | multi write => exact visible?_putAll_of_lt hv _
  | range q =>
    have hstore : (((Operation.mk id (.range q)).request v).execute s).store = _ :=
      (Request.execute_scan_store _ s).trans (Scan.run_current_of_isPlain id v (hop q rfl) s).1
    rw [hstore]
    by_cases hr : q.removes = true
    · simp only [hr, if_true, visible?_deleteAll, Operation.removals]
    · simp [hr, Operation.removals]

end Store

/-- What was applied in the course of time, under versions that do not decrease. -/
structure Stamped (ceiling : Version) (applied : List Application) : Prop where
  newer : ∀ a ∈ applied, ceiling < a.before.version
  ordered : applied.Pairwise fun a b => a.before.version ≤ b.before.version

theorem Stamped.of_prefix {ceiling : Version} {front applied : List Application} (h : Stamped ceiling applied)
    (hp : front <+: applied) : Stamped ceiling front :=
  ⟨fun a ha => h.newer a (hp.subset ha), h.ordered.sublist hp.sublist⟩

/-- A plain value: its operation, if it is one, is plain. -/
def Value.IsPlain (v : Value) : Prop := ∀ op, v.operation? = some op → op.IsPlain

theorem Value.IsPlain.isFaithful {v : Value} (h : v.IsPlain) : v.IsFaithful := fun op hop => (h op hop).isFaithful

namespace Store
variable {s : Store} {ceiling : Version}

theorem visible?_requests {v : Value} (hv : v.IsPlain) {w : Version} (hw : ceiling < w) (s : Store) (k : Key) :
    (s.afterAll (v.requests w)).visible? k ceiling =
      if k ∈ s.newest.removals v.operation?.toList then none else s.visible? k ceiling := by
  cases v with
  | op op =>
    have hremovals : s.newest.removals (Value.op op).operation?.toList = op.removals s.newest := List.append_nil _
    rw [hremovals]
    exact visible?_execute (hv op rfl) hw s k
  | scan id range =>
    rw [show s.afterAll (Value.requests (.scan id range) w) = s from execute_size range s]
    rfl
  | reconfigure | syncedUp | noop | unknown => rfl

/-- What was applied above the ceiling changes the newest values as on a table, and below the ceiling it
    only removes. -/
theorem visible?_afterAll (hs : s.UpTo ceiling) {applied : List Application} (hplain : ∀ a ∈ applied, a.value.IsPlain)
    (hstamped : Stamped ceiling applied) :
    (s.afterAll (applied.flatMap Application.requests)).newest =
        (s.newest.runAll (applied.filterMap fun a => a.value.operation?)).1 ∧
      (∀ v, ceiling ≤ v → (∀ a ∈ applied, a.before.version ≤ v) →
        (s.afterAll (applied.flatMap Application.requests)).UpTo v) ∧
      ∀ k, (s.afterAll (applied.flatMap Application.requests)).visible? k ceiling =
        if k ∈ s.newest.removals (applied.filterMap fun a => a.value.operation?) then none else s.newest.get? k := by
  induction applied using List.reverseRecOn with
  | nil =>
    refine ⟨rfl, fun v hv _ => hs.mono hv, fun k => ?_⟩
    rw [List.filterMap_nil, Table.removals, if_neg (by simp), get?_newest]
    exact visible?_eq_read? hs k
  | append_singleton front a ih =>
    obtain ⟨hnewest, hupTo, hvisible⟩ := ih (fun b hb => hplain b (by simp [hb])) (hstamped.of_prefix (by simp))
    have hnewer : ceiling < a.before.version := hstamped.newer a (by simp)
    have hbelow : ∀ b ∈ front, b.before.version ≤ a.before.version := fun b hb =>
      (List.pairwise_append.mp hstamped.ordered).2.2 b hb a (by simp)
    have ha := hupTo a.before.version (UInt32.le_of_lt hnewer) hbelow
    have hlast := (hplain a (by simp)).isFaithful.afterAll_requests ha
    have hsplit : s.afterAll ((front ++ [a]).flatMap Application.requests) =
        (s.afterAll (front.flatMap Application.requests)).afterAll (a.value.requests a.before.version) := by
      rw [List.flatMap_append, List.flatMap_singleton, afterAll_append]
      rfl
    have hops : (front ++ [a]).filterMap (fun a => a.value.operation?) =
        front.filterMap (fun a => a.value.operation?) ++ a.value.operation?.toList := by
      rw [List.filterMap_append]
      cases ho : a.value.operation? <;> simp [ho]
    rw [hsplit, hops, Table.runAll_append, Table.removals_append]
    refine ⟨?_, fun v _ hall => hlast.2.mono (hall a (by simp)), fun k => ?_⟩
    · rw [hlast.1, hnewest]
    · rw [visible?_requests (hplain a (by simp)) hnewer, hvisible, hnewest]
      simp only [List.mem_append]
      split <;> split <;> grind

end Store
end ReplicaGroup
