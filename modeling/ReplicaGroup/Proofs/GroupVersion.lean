import ReplicaGroup.Proofs.Configuration

/-! # The version of a group

The replica that has founded a group counts its moves to newer views: each takes the next version. A replica that joins
cannot count what it has not seen. It takes the versions that it is told, by those who have proposed the moves and by the
one that has sent it the state, and counts only from its marker on. -/

namespace ReplicaGroup

namespace Value
variable {view : View} {v : Value}

/-- The move that a value is for a replica with this view. -/
def move? (view : View) : Value → Option Reconfiguration
  | .reconfigure r => if r.view.isNewerThan view then some r else none
  | _ => none

theorem move?_of_newer {r : Reconfiguration} (hn : r.view.isNewerThan view = true) :
    move? view (.reconfigure r) = some r := if_pos hn

theorem move?_of_not_newer (hn : ∀ r, v = .reconfigure r → r.view.isNewerThan view = false) : v.move? view = none := by
  cases v with
  | reconfigure r => exact if_neg (Bool.eq_false_iff.mp (hn r rfl))
  | op | scan | syncedUp | noop | unknown => rfl

end Value

/-! ### What is counted and what is told -/

namespace Decided
variable {D : Decided} {c c' initial : ViewChange} {first first' m n p q : Position}

/-- The moves among the decisions from `first` on and before `p`, for a replica that has begun with `c`. -/
def moves (D : Decided) (c : ViewChange) (first p : Position) : List Reconfiguration :=
  (List.range' first (p - first)).filterMap fun q => (D q).move? (D.configured c first q).view

/-- The version of a group: it begins with one, and each move takes the next. -/
def epoch (D : Decided) (initial : ViewChange) (p : Position) : Nat := 1 + (D.moves initial 0 p).length

/-- The version that follows on the largest one of which moves tell, or a given one. -/
def latest (version : Nat) (moves : List Reconfiguration) : Nat :=
  moves.foldl (fun version r => max version (r.version.toNat + 1)) version

/-- The version that a replica is told by the moves it sees. -/
def told (D : Decided) (first p : Position) : Nat := latest 0 (D.moves .none first p)

theorem moves_of_le (h : p ≤ first) : D.moves c first p = [] := by
  rw [moves, Nat.sub_eq_zero_of_le h]
  rfl

theorem moves_succ (h : first ≤ p) :
    D.moves c first (p + 1) = D.moves c first p ++ ((D p).move? (D.configured c first p).view).toList := by
  have hrange : List.range' first (p + 1 - first) = List.range' first (p - first) ++ [p] := by
    rw [Nat.succ_sub h, List.range'_1_concat, Nat.add_sub_of_le h]
  rw [moves, hrange, List.filterMap_append]
  exact congrArg _ (List.filterMap_cons ..)

theorem epoch_succ (initial : ViewChange) (p : Position) :
    D.epoch initial (p + 1) = D.epoch initial p + ((D p).move? (D.configured initial 0 p).view).toList.length := by
  rw [epoch, moves_succ (Nat.zero_le p), List.length_append, ← Nat.add_assoc, epoch]

theorem told_succ (h : first ≤ p) :
    D.told first (p + 1) = latest (D.told first p) ((D p).move? (D.configured .none first p).view).toList := by
  rw [told, moves_succ h, latest, List.foldl_append]
  rfl

/-- Replicas with the same configuration count the same moves. -/
theorem length_moves_add (hm : first ≤ m) (hm' : first' ≤ m) (hn : m ≤ n)
    (heq : ∀ q, m ≤ q → q < n → D.configured c first q = D.configured c' first' q) :
    (D.moves c first n).length + (D.moves c' first' m).length =
      (D.moves c first m).length + (D.moves c' first' n).length := by
  induction n, hn using Nat.le_induction with
  | base => rfl
  | succ n hn ih =>
    have hih := ih fun q hq hlt => heq q hq (Nat.lt_succ_of_lt hlt)
    rw [moves_succ (Nat.le_trans hm hn), moves_succ (Nat.le_trans hm' hn), heq n hn (Nat.lt_succ_self n),
      List.length_append, List.length_append]
    omega

theorem moves_of_no_move (h : ∀ q < p, ∀ r, D q ≠ .reconfigure r) : D.moves c 0 p = [] := by
  refine List.filterMap_eq_nil_iff.mpr fun q hq => Value.move?_of_not_newer fun r hr => ?_
  rw [Nat.sub_zero, List.mem_range'_1, Nat.zero_add] at hq
  exact absurd hr (h q hq.2 r)

/-- Nothing is counted before the first move. -/
theorem length_moves_of_no_move (hn : first ≤ n) (h : ∀ q < first, ∀ r, D q ≠ .reconfigure r) :
    (D.moves c first n).length = (D.moves c 0 n).length := by
  have hconfigured : ∀ q, first ≤ q → q < n → D.configured c first q = D.configured c 0 q := fun q hq _ =>
    configured_of_no_move hq h
  have hadd := length_moves_add (Nat.le_refl first) (Nat.zero_le first) hn hconfigured
  rw [moves_of_no_move h, moves_of_le (Nat.le_refl first), List.length_nil, Nat.add_zero, Nat.zero_add] at hadd
  exact hadd

theorem epoch_le_succ (initial : ViewChange) (p : Position) : D.epoch initial p ≤ D.epoch initial (p + 1) := by
  rw [epoch_succ]
  exact Nat.le_add_right _ _

theorem epoch_mono (h : p ≤ q) : D.epoch initial p ≤ D.epoch initial q := by
  induction q, h using Nat.le_induction with
  | base => exact Nat.le_refl _
  | succ q hq ih => exact Nat.le_trans ih (epoch_le_succ initial q)

/-- Whether moves are decided before any other move is: each is proposed at the version of the group. What is no move
    any more when it is decided was proposed at an earlier version. -/
structure IsPrompt (D : Decided) (initial : ViewChange) : Prop where
  moves : ∀ p r, D p = .reconfigure r → r.view.isNewerThan (D.configured initial 0 p).view = true →
    r.version.toNat = D.epoch initial p
  stale : ∀ p r, D p = .reconfigure r → r.version.toNat < D.epoch initial (p + 1)

/-- Prompt moves tell of no version that the group does not reach. -/
theorem IsPrompt.told_le (hp : D.IsPrompt initial) (h : first ≤ p) : D.told first p ≤ D.epoch initial p := by
  induction p, h using Nat.le_induction with
  | base =>
    rw [told, moves_of_le (Nat.le_refl first)]
    exact Nat.zero_le _
  | succ p h ih =>
    rw [told_succ h]
    have hnext := Nat.le_trans ih (epoch_le_succ initial p)
    cases hD : D p with
    | reconfigure r =>
      unfold Value.move?
      dsimp only
      split
      · exact Nat.max_le.mpr ⟨hnext, hp.stale p r hD⟩
      · exact hnext
    | op | scan | syncedUp | noop | unknown => exact hnext

/-- Who has seen a prompt move is told the version of the group, from then on. -/
theorem IsPrompt.le_told (hp : D.IsPrompt initial) (hfirst : first ≤ q) {r : Reconfiguration} (hr : D q = .reconfigure r)
    (hn : r.view.isNewerThan (D.configured initial 0 q).view = true) (hq : q < p) : D.epoch initial p ≤ D.told first p := by
  -- A move that the group makes is told at its version.
  have tells : ∀ p r, first ≤ p → D p = .reconfigure r →
      r.view.isNewerThan (D.configured initial 0 p).view = true → D.epoch initial (p + 1) ≤ D.told first (p + 1) := by
    intro p r hfirst hr hn
    have hn' : r.view.isNewerThan (D.configured .none first p).view = true := by
      have hle := number_configured_le (D := D) (c := initial) (Nat.zero_le first) hfirst
      simp only [View.isNewerThan, decide_eq_true_iff] at hn ⊢
      exact Nat.lt_of_le_of_lt hle hn
    rw [told_succ hfirst, epoch_succ, hr, Value.move?_of_newer hn, Value.move?_of_newer hn', ← hp.moves p r hr hn]
    exact Nat.le_max_right _ _
  induction p, Nat.succ_le_of_lt hq using Nat.le_induction with
  | base => exact tells q r hfirst hr hn
  | succ p hqp ih =>
    have hqp : q < p := Nat.lt_of_succ_le hqp
    have hfp : first ≤ p := Nat.le_trans hfirst (Nat.le_of_lt hqp)
    by_cases hmove : ∃ r, D p = .reconfigure r ∧ r.view.isNewerThan (D.configured initial 0 p).view = true
    · obtain ⟨r', hr', hn'⟩ := hmove
      exact tells p r' hfp hr' hn'
    · have hnone : (D p).move? (D.configured initial 0 p).view = none :=
        Value.move?_of_not_newer fun r' hr' => Bool.eq_false_iff.mpr fun hn' => hmove ⟨r', hr', hn'⟩
      rw [told_succ hfp, configured_eq_of_newer hfirst hr hn hqp, epoch_succ, hnone]
      exact ih hqp

end Decided

/-! ### The version of an engine -/

theorem Version.toNat_max (v w : Version) : (max v w).toNat = max v.toNat w.toNat := by
  show (if v ≤ w then w else v).toNat = _
  split
  · next h => exact (Nat.max_eq_right (UInt32.le_iff_toNat_le.mp h)).symm
  · next h => exact (Nat.max_eq_left (Nat.le_of_lt (UInt32.lt_iff_toNat_lt.mp (UInt32.not_le.mp h)))).symm

namespace Engine
variable {e : Engine} {h : Host} {p : Position} {v : Value} {s : Step}

/-- A replica that serves counts. -/
theorem Turns.version_of_serving (ht : Turns h p e v s) (hm : e.mode.isServing = true) (hs : e.syncing? = none) :
    s.engine.version.toNat = e.version.toNat + (v.move? e.view).toList.length ∧ s.engine.syncing? = none := by
  cases ht with
  | stays he hx hn hsync =>
    rw [he, Value.move?_of_not_newer hn]
    exact ⟨rfl, hs⟩
  | joins hpassive hn hv =>
    rw [hpassive] at hm
    cases hm
  | follows hcatching hn hv =>
    rw [hcatching] at hm
    cases hm
  | moves _ hn hv hsent =>
    rw [Value.move?_of_newer hn, syncing?_finishTransferring, (kept_finishTransferring _).version]
    exact ⟨Version.toNat_succ hv, hs⟩
  | settles hsync hv he hx =>
    rw [hs] at hsync
    cases hsync

/-- A replica that does not serve takes the versions of which it is told. -/
theorem Turns.version_of_waiting (ht : Turns h p e v s) (hm : e.mode.isServing = false)
    (hpassive : e.mode = .passive → e.version = 0) :
    (s.engine.mode = .passive → s.engine.version = 0) ∧
      ((∀ sync, e.syncing? = some sync → v ≠ .syncedUp sync.marker) →
        s.engine.version.toNat = Decided.latest e.version.toNat (v.move? e.view).toList) ∧
      ∀ sync, e.syncing? = some sync → v = .syncedUp sync.marker →
        s.engine.version.toNat = max e.version.toNat sync.version.toNat ∧ s.engine.syncing? = none := by
  cases ht with
  | stays he hx hn hsync =>
    rw [he, Value.move?_of_not_newer hn]
    exact ⟨hpassive, fun _ => rfl, fun sync hs hv => absurd hv (hsync sync hs)⟩
  | @joins r version hmode hn hv =>
    rw [Value.move?_of_newer hn]
    refine ⟨nofun, fun _ => ?_, nofun⟩
    rw [hpassive hmode]
    exact (Version.toNat_succ hv).trans (Nat.zero_max _).symm
  | @follows r version hmode hn hv =>
    rw [Value.move?_of_newer hn]
    refine ⟨fun h => absurd (hmode.symm.trans h) nofun, fun _ => ?_, nofun⟩
    exact (Version.toNat_max _ _).trans (by rw [Version.toNat_succ hv]; rfl)
  | moves hserving hn hv hsent =>
    rw [hm] at hserving
    cases hserving
  | @settles sync s version hs hv he hx =>
    rw [he]
    refine ⟨nofun, fun hne => absurd rfl (hne sync hs), fun sync' hs' _ => ?_⟩
    cases hs.symm.trans hs'
    exact ⟨(congrArg UInt32.toNat hv).trans (Version.toNat_max _ _), rfl⟩

/-- Only an engine that catches up waits for a marker, and one without a view has no version. -/
structure Plain (e : Engine) : Prop where
  syncing : e.syncing?.isSome → e.mode = .catchingUp
  passive : e.mode = .passive → e.version = 0

theorem Plain.kept {e' : Engine} (hp : e.Plain) (k : e.Kept e') : e'.Plain where
  syncing hs := by
    by_cases hm : e.mode = .catchingUp
    · exact k.catchingUp_iff.mpr hm
    · exact absurd (hp.syncing (k.syncing hm ▸ hs)) hm
  passive hm := by
    rw [k.version]
    refine hp.passive ?_
    rcases k.mode with hmode | ⟨-, hmode⟩
    · rw [← hmode, hm]
    · cases hmode.symm.trans hm

/-- A replica that waits for a marker does not serve. -/
theorem Plain.syncing_eq_none (hp : e.Plain) (hm : e.mode.isServing = true) : e.syncing? = none := by
  refine Option.not_isSome_iff_eq_none.mp fun hs => ?_
  rw [hp.syncing hs] at hm
  cases hm

theorem Plain.turn (hp : e.Plain) (ht : Turns h p e v s) : s.engine.Plain := by
  cases ht with
  | stays he hx hn hsync =>
    rw [he]
    exact ⟨hp.syncing, hp.passive⟩
  | joins hmode hn hv => exact ⟨fun _ => rfl, nofun⟩
  | follows hmode hn hv => exact ⟨hp.syncing, fun h => absurd (hmode.symm.trans h) nofun⟩
  | moves hserving hn hv hsent =>
    refine ⟨fun hs => ?_, fun hm => ?_⟩
    · rw [syncing?_finishTransferring] at hs
      have hsome : e.syncing?.isSome = true := hs
      rw [hp.syncing_eq_none hserving] at hsome
      cases hsome
    · have hserving' : (finishTransferring _).mode.isServing = false := congrArg Mode.isServing hm
      rw [(kept_finishTransferring _).isServing] at hserving'
      cases hserving'
  | settles hs hv he hx =>
    rw [he]
    exact ⟨nofun, nofun⟩

/-! ### The version of a replica -/

variable {D : Decided} {initial : ViewChange}

/-- What the founder of a group is after what it has applied: it has counted the moves. -/
structure Counts (D : Decided) (initial : ViewChange) (l : List Application) (e : Engine) : Prop where
  plain : e.Plain
  change : e.change = initial.afterAll (l.map Application.decision)
  serving : e.mode.isServing = true
  version : ∀ first, l.map Application.decision = D.segment first l.length →
    e.version.toNat = 1 + (D.moves initial first (first + l.length)).length

/-- What a joining replica is after what it has applied: it has the version that it was told, or the one with which it
    has completed its catch-up and has counted since. -/
structure Takes (D : Decided) (l : List Application) (e : Engine) : Prop where
  plain : e.Plain
  change : e.change = ViewChange.none.afterAll (l.map Application.decision)
  serving : e.mode.isServing = l.any Application.completes
  told : e.mode.isServing = false → ∀ first, l.map Application.decision = D.segment first l.length →
    e.version.toNat = D.told first (first + l.length)
  counted : ∀ first, l.map Application.decision = D.segment first l.length → ∀ b ∈ l, ∀ sync, b.completed? = some sync →
    e.version.toNat + (D.moves .none first b.position).length =
      max (D.told first b.position) sync.version.toNat + (D.moves .none first (first + l.length)).length

/-- The decision that is applied next, and the ones before. -/
theorem decision_of_concat {l : List Application} {first : Position} {a : Application}
    (ho : (l ++ [a]).map Application.decision = D.segment first (l ++ [a]).length) :
    l.map Application.decision = D.segment first l.length ∧ a.position = first + l.length ∧
      a.value = D (first + l.length) := by
  rw [List.map_append, List.map_singleton] at ho
  obtain ⟨hfront, hhere⟩ := Decided.segment_split ho
  rw [List.length_map] at hfront hhere
  exact ⟨hfront, congrArg Prod.fst hhere, congrArg Prod.snd hhere⟩

theorem change_eq_configured {c : ViewChange} {l : List Application} {first : Position}
    (hc : e.change = c.afterAll (l.map Application.decision)) (ho : l.map Application.decision = D.segment first l.length) :
    e.view = (D.configured c first (first + l.length)).view := by
  rw [Decided.configured, Nat.add_sub_cancel_left, ← ho, ← hc]
  rfl

/-- What is counted when one more decision is applied. -/
theorem moves_of_concat {c : ViewChange} {l : List Application} {first : Position} {a : Application}
    (hc : e.change = c.afterAll (l.map Application.decision))
    (ho : (l ++ [a]).map Application.decision = D.segment first (l ++ [a]).length) :
    D.moves c first (first + (l ++ [a]).length) =
      D.moves c first (first + l.length) ++ (a.value.move? e.view).toList := by
  obtain ⟨hfront, -, hvalue⟩ := decision_of_concat ho
  rw [List.length_append, List.length_singleton, ← Nat.add_assoc first, Decided.moves_succ (Nat.le_add_right first _),
    ← change_eq_configured hc hfront, ← hvalue]

theorem lasts_counts (D : Decided) (initial : ViewChange) : Lasts (Counts D initial) where
  kept _ _ _ hc k := ⟨hc.plain.kept k, k.change.trans hc.change, k.isServing.trans hc.serving, k.version ▸ hc.version⟩
  log _ _ _ hc := ⟨⟨hc.plain.syncing, hc.plain.passive⟩, hc.change, hc.serving, hc.version⟩
  apply l e h p v hc hf := by
    have ht := turns_apply hf
    have hnone := hc.plain.syncing_eq_none hc.serving
    refine ⟨hc.plain.turn ht, (lasts_change initial).apply l e h p v hc.change hf, ?_, fun first ho => ?_⟩
    · rw [isServing_apply hf, hc.serving, Bool.true_or]
    · obtain ⟨hversion, -⟩ := ht.version_of_serving hc.serving hnone
      rw [hversion, hc.version first (decision_of_concat ho).1, moves_of_concat hc.change ho, List.length_append,
        Nat.add_assoc]

theorem Takes.counted_of_waiting {l : List Application} (hl : Takes D l e) (hm : e.mode.isServing = false) {b : Application}
    (hb : b ∈ l) : b.completed? = none := by
  refine Option.eq_none_iff_forall_ne_some.mpr fun sync hs => ?_
  have hany : l.any Application.completes = true :=
    List.any_eq_true.mpr ⟨b, hb, (Application.completes_of_completed? hs).1⟩
  rw [hl.serving, hany] at hm
  cases hm

theorem lasts_takes (D : Decided) : Lasts (Takes D) where
  kept _ _ _ hl k := ⟨hl.plain.kept k, k.change.trans hl.change, k.isServing.trans hl.serving,
    k.isServing ▸ k.version ▸ hl.told, k.version ▸ hl.counted⟩
  log _ _ _ hl := ⟨⟨hl.plain.syncing, hl.plain.passive⟩, hl.change, hl.serving, hl.told, hl.counted⟩
  apply l e h p v hl hf := by
    have ht := turns_apply hf
    have hserving := isServing_apply hf
    refine ⟨hl.plain.turn ht, (lasts_change .none).apply l e h p v hl.change hf, ?_, fun hm first ho => ?_,
      fun first ho b hb sync hs => ?_⟩
    · rw [hserving, hl.serving, List.any_append, List.any_cons, List.any_nil, Bool.or_false]
      rfl
    · -- It still waits, so the value was no marker.
      obtain ⟨hfront, -⟩ := decision_of_concat ho
      rw [hserving, Bool.or_eq_false_iff] at hm
      have hother : ∀ sync, e.syncing? = some sync → v ≠ .syncedUp sync.marker := fun sync hsync hv =>
        absurd (awaits_iff.mpr ⟨sync, hsync, hv⟩) (Bool.eq_false_iff.mp hm.2)
      rw [(ht.version_of_waiting hm.1 hl.plain.passive).2.1 hother, hl.told hm.1 first hfront, Decided.told, Decided.told,
        moves_of_concat hl.change ho, Decided.latest, Decided.latest, Decided.latest, List.foldl_append]
    · obtain ⟨hfront, hposition, -⟩ := decision_of_concat ho
      rw [moves_of_concat hl.change ho, List.length_append]
      dsimp only
      cases hm : e.mode.isServing with
      | true =>
        have hnone := hl.plain.syncing_eq_none hm
        rw [(ht.version_of_serving hm hnone).1]
        rcases List.mem_append.mp hb with hb | hb
        · have hcounted := hl.counted first hfront b hb sync hs
          omega
        · rw [List.mem_singleton.mp hb] at hs
          cases hnone.symm.trans (Application.completes_of_completed? hs).2
      | false =>
        rcases List.mem_append.mp hb with hb | hb
        · rw [hl.counted_of_waiting hm hb] at hs
          cases hs
        · rw [List.mem_singleton.mp hb] at hs ⊢
          obtain ⟨hcompletes, hsync⟩ := Application.completes_of_completed? hs
          obtain ⟨sync', hsync', hv⟩ := awaits_iff.mp hcompletes
          cases hsync.symm.trans hsync'
          have hv : v = .syncedUp sync.marker := hv
          rw [((ht.version_of_waiting hm hl.plain.passive).2.2 sync hsync hv).1, hl.told hm first hfront]
          subst hv
          dsimp only at hposition ⊢
          rw [hposition]
          rfl

end Engine

/-! ### The versions of a group -/

namespace Site
variable {D : Decided} {initial : ViewChange} {founder s : Site} {joiners : List Site} {n : Position} {e : Engine}

theorem IsFounder.version_at (hs : s.IsFounder D initial) (hat : s.At n e) : e.version.toNat = D.epoch initial n := by
  obtain ⟨addr, config, draw, peers, hruns, hsub⟩ := hs
  obtain ⟨b, hb⟩ := Option.isSome_iff_exists.mp (List.isSome_head?.mpr hat.ne_nil)
  have hstart : Engine.Counts D initial [] (bootstrapped addr config draw peers initial).node.engine :=
    ⟨⟨nofun, nofun⟩, rfl, rfl, fun first _ => by rw [List.length_nil, Nat.add_zero, Decided.moves_of_le (Nat.le_refl first)]; rfl⟩
  obtain ⟨first, front, hfirst, -, rfl, ho, hcounts⟩ :=
    hruns.at (fresh_bootstrapped ..) rfl (Engine.lasts_counts D initial) hstart hat
  have hnone : ∀ q < first, ∀ r, D q ≠ .reconfigure r := hfirst b hb ▸ hsub b hb
  rw [hcounts.version first ho, Decided.length_moves_of_no_move (Nat.le_add_right first _) hnone]
  rfl

/-- The version with which a replica has completed its catch-up, and what it has counted since. -/
theorem IsJoiner.version_at {group : List Site} (hs : s.IsJoiner D group) (hat : s.At n e)
    (hserving : e.mode.isServing = true) : ∃ first b sync, (∀ c ∈ s.applied.head?, c.position = first) ∧ b ∈ s.applied ∧
      first ≤ b.position ∧ b.position < n ∧ b.completed? = some sync ∧
      e.version.toNat + (D.moves .none first b.position).length =
        max (D.told first b.position) sync.version.toNat + (D.moves .none first n).length := by
  obtain ⟨addr, config, draw, peers, hruns, -⟩ := hs
  have hstart : Engine.Takes D [] (fresh addr config draw peers).node.engine :=
    ⟨⟨nofun, fun _ => rfl⟩, rfl, rfl, fun _ first _ => by
      rw [List.length_nil, Nat.add_zero, Decided.told, Decided.moves_of_le (Nat.le_refl first)]; rfl, fun _ _ _ => nofun⟩
  obtain ⟨first, front, hfirst, hfront, rfl, ho, htakes⟩ :=
    hruns.at (fresh_fresh ..) rfl (Engine.lasts_takes D) hstart hat
  rw [htakes.serving] at hserving
  obtain ⟨b, hb, hcompletes⟩ := List.any_eq_true.mp hserving
  obtain ⟨sync, hsync⟩ := Application.exists_completed? hcompletes
  obtain ⟨hle, hlt⟩ := position_lt_of_mem ho hb
  exact ⟨first, b, sync, hfirst, hfront.subset hb, hle, hlt, hsync, htakes.counted first ho b hb sync hsync⟩

/-- From the decision on that has started its transfer, a timely replica has the configuration of the group. -/
theorem IsGroup.configured_eq (hg : IsGroup D initial founder joiners) (htimely : ∀ s ∈ joiners, s.IsTimely)
    (hs : s ∈ joiners) {b : Application} (hb : b ∈ s.applied) {sync : Syncing} (hsync : b.completed? = some sync) :
    sync.snapshot < b.position ∧ ∀ first, (∀ c ∈ s.applied.head?, c.position = first) → ∀ n, sync.snapshot < n →
      D.configured .none first n = D.configured initial 0 n := by
  obtain ⟨addr, config, draw, peers, -, hsent⟩ := hg.joins s hs
  obtain ⟨t, ht, hsent⟩ := hsent b hb sync hsync
  exact ⟨(hg.of_hasSent ht hsent).1, hg.configured_eq_of_sender (htimely s hs) hb hsync ht hsent
    (hg.change_at (hg.isTraced htimely) sync.snapshot t ht)⟩

/-- What a joining replica has counted since its marker is what the group has counted. -/
theorem IsGroup.version_at (hg : IsGroup D initial founder joiners) (htimely : ∀ s ∈ joiners, s.IsTimely)
    (hs : s ∈ joiners) (hat : s.At n e) (hserving : e.mode.isServing = true) :
    ∃ first b sync, (∀ c ∈ s.applied.head?, c.position = first) ∧ b ∈ s.applied ∧ b.position < n ∧
      b.completed? = some sync ∧ e.version.toNat + D.epoch initial b.position =
        max (D.told first b.position) sync.version.toNat + D.epoch initial n := by
  obtain ⟨first, b, sync, hfirst, hb, hle, hlt, hsync, hversion⟩ := (hg.joins s hs).version_at hat hserving
  obtain ⟨hbefore, hconfigured⟩ := hg.configured_eq htimely hs hb hsync
  have hcount := Decided.length_moves_add (D := D) hle (Nat.zero_le b.position) (Nat.le_of_lt hlt)
    fun q hq _ => hconfigured first hfirst q (Nat.lt_of_lt_of_le hbefore hq)
  refine ⟨first, b, sync, hfirst, hb, hlt, hsync, ?_⟩
  unfold Decided.epoch
  omega

/-- If moves are prompt, every replica that serves has the version of the group. -/
theorem IsGroup.version_at_of_prompt (hg : IsGroup D initial founder joiners) (htimely : ∀ s ∈ joiners, s.IsTimely)
    (hp : D.IsPrompt initial) : ∀ n, ∀ s ∈ founder :: joiners, ∀ e, s.At n e → e.mode.isServing = true →
      e.version.toNat = D.epoch initial n := by
  refine (hg.isTraced htimely).serving_induction (fun n e hat => hg.founds.version_at hat)
    fun s hs htime hsent n e hat hserving ih => ?_
  obtain ⟨first, b, sync, hfirst, hb, hlt, hsync, hversion⟩ := hg.version_at htimely hs hat hserving
  obtain ⟨t, ht, hsent⟩ := hsent b hb sync hsync
  obtain ⟨hbefore, e', r, version, hat', hserving', hr, hn, hv, hsv⟩ := hg.of_hasSent ht hsent
  have hchange : e'.change = D.configured initial 0 sync.snapshot :=
    hg.change_at (hg.isTraced htimely) sync.snapshot t ht e' hat' hserving'
  have hn : r.view.isNewerThan (D.configured initial 0 sync.snapshot).view = true := hchange ▸ hn
  have hsender : sync.version.toNat = D.epoch initial (sync.snapshot + 1) := by
    rw [hsv, Version.toNat_succ hv, ih _ (Nat.lt_trans hbefore hlt) t ht e' hat' hserving', Decided.epoch_succ, hr,
      Value.move?_of_newer hn]
    rfl
  obtain ⟨a, ha⟩ := Option.isSome_iff_exists.mp (List.isSome_head?.mpr hat.ne_nil)
  have hle : first ≤ sync.snapshot := hfirst a ha ▸ htime b hb sync hsync a ha
  have htold : D.told first b.position = D.epoch initial b.position :=
    Nat.le_antisymm (hp.told_le (Nat.le_trans hle (Nat.le_of_lt hbefore))) (hp.le_told hle hr hn hbefore)
  have hmono : D.epoch initial (sync.snapshot + 1) ≤ D.epoch initial b.position := Decided.epoch_mono hbefore
  omega

end Site

/-- In a group whose joining replicas have seen the decisions that have started their transfers, the founder's version is
    one more than the number of moves. A joining replica completes its catch-up, by the marker at some position, with the
    largest version that it was told: by its sender, and by each move that it has seen, which tells the version that
    follows on that of its proposer. Since then it counts like the founder. So it has the version of the group, and
    stamps writes alike, exactly if what it was told was the version of the group at its marker. That is so if all moves
    are prompt; a move that was proposed before another one was decided tells of a version that is too low. -/
theorem joined_version_agrees_iff_told {D : Decided} {initial : ViewChange} {founder : Site} {joiners : List Site}
    (hgroup : Site.IsGroup D initial founder joiners) (htimely : ∀ s ∈ joiners, s.IsTimely) :
    (∀ n e, founder.At n e → e.version.toNat = D.epoch initial n) ∧
    (∀ s ∈ joiners, ∀ n e, s.At n e → e.mode.isServing = true →
      ∃ first b sync, s.applied.head?.map (·.position) = some first ∧ b ∈ s.applied ∧ b.position < n ∧
        b.completed? = some sync ∧
        e.version.toNat + D.epoch initial b.position =
          max (D.told first b.position) sync.version.toNat + D.epoch initial n ∧
        ∀ e', founder.At n e' →
          (e.version = e'.version ↔ max (D.told first b.position) sync.version.toNat = D.epoch initial b.position)) ∧
    (D.IsPrompt initial → ∀ s ∈ founder :: joiners, ∀ t ∈ founder :: joiners, ∀ n e e', s.At n e → t.At n e' →
      e.mode.isServing = true → e'.mode.isServing = true →
        e.version = e'.version) := by
  refine ⟨fun n e hat => hgroup.founds.version_at hat, fun s hs n e hat hserving => ?_,
    fun hp s hs t ht n e e' hat hat' hserving hserving' => ?_⟩
  · obtain ⟨first, b, sync, hfirst, hb, hlt, hsync, heq⟩ := hgroup.version_at htimely hs hat hserving
    obtain ⟨a, ha⟩ := Option.isSome_iff_exists.mp (List.isSome_head?.mpr hat.ne_nil)
    refine ⟨first, b, sync, ?_, hb, hlt, hsync, heq, fun e' hat' => ?_⟩
    · rw [ha, Option.map_some, hfirst a ha]
    · rw [← UInt32.toNat_inj, hgroup.founds.version_at hat']
      omega
  · rw [← UInt32.toNat_inj, hgroup.version_at_of_prompt htimely hp n s hs e hat hserving,
      hgroup.version_at_of_prompt htimely hp n t ht e' hat' hserving']

/-- Two moves that were both proposed at the first version, the marker of the replica that joins with the first one, and
    a put. -/
def overtakenDecided : Decided
  | 1 => .reconfigure ⟨⟨1⟩, ⟨2, .ofList [.name "a", .name "b"]⟩, 2, 1, .full⟩
  | 2 => .reconfigure ⟨⟨2⟩, ⟨3, .ofList [.name "a", .name "b"]⟩, 2, 1, .full⟩
  | 3 => .syncedUp ⟨1⟩
  | 4 => .op ⟨⟨7⟩, .put ⟨[1]⟩ [1]⟩
  | p => .noop ⟨.ofNat p⟩

/-- The replica that joins is told of the second version twice, by its sender and by the move after: it never takes the
    third one, and stamps the put with an older version than the founder does. -/
theorem overtaken_move_disagrees :
    ∃ s t : Site, Site.IsGroup overtakenDecided smallChange s [t] ∧ t.IsTimely ∧
      max (overtakenDecided.told 1 3) 2 = 2 ∧ overtakenDecided.epoch smallChange 3 = 3 ∧
      ∃ e e', s.At 4 e ∧ t.At 4 e' ∧ e.mode.isServing = true ∧ e'.mode.isServing = true ∧ e.change = e'.change ∧
        e'.version ≠ e.version ∧ ∃ op, overtakenDecided 4 = .op op ∧ op.request e.version = .put ⟨[1]⟩ [1] 3 ∧
          op.request e'.version = .put ⟨[1]⟩ [1] 2 := by
  have hruns : (smallFounder.run (overtakenDecided.acts [1, 2, 3, 4])).map Site.sketches =
        some [⟨1, .active, 1, 1, none, [⟨some 1, some 2⟩]⟩, ⟨2, .transferring, 2, 2, none, []⟩,
          ⟨3, .transferring, 3, 3, none, []⟩, ⟨4, .transferring, 3, 3, none, []⟩] ∧
      (smallJoiner.run (overtakenDecided.acts [1] ++
          .transfer ⟨0⟩ :: .hear (.message (.initiate ⟨⟨9⟩, .name "a", .full, ⟨some 1, some 2⟩⟩)) :: receiveActs ++
          overtakenDecided.acts [2, 3, 4])).map Site.sketches =
        some [⟨1, .passive, 0, 0, none, []⟩, ⟨2, .catchingUp, 2, 2, none, []⟩,
          ⟨3, .catchingUp, 3, 2, some ⟨⟨1⟩, 1, 2⟩, []⟩, ⟨4, .active, 3, 2, none, []⟩] := by
    decide
  obtain ⟨s, t, hs, ht, -, hgroup⟩ := Site.exists_isGroup (D := overtakenDecided)
    (by simp [Decided.acts, receiveActs, Site.Act.From]) hruns (by decide) (fun r hr => by cases hr) (by decide)
  have htimely : t.IsTimely := Site.isTimely_of_sketches ht (by decide)
  have htimely' : ∀ u ∈ [t], u.IsTimely := by simpa using htimely
  obtain ⟨e, hat, hmode, -, hversion⟩ := Site.exists_at_of_sketch hs ⟨4, .transferring, 3, 3, none, []⟩ (by decide)
  obtain ⟨e', hat', hmode', -, hversion'⟩ := Site.exists_at_of_sketch ht ⟨4, .active, 3, 2, none, []⟩ (by decide)
  dsimp only at hat hat' hmode hmode' hversion hversion'
  have hserving : e.mode.isServing = true := by rw [hmode]; rfl
  have hserving' : e'.mode.isServing = true := by rw [hmode']; rfl
  have hconfigured := hgroup.change_at (hgroup.isTraced htimely') 4
  have hchange : e.change = e'.change := (hconfigured s (.head _) e hat hserving).trans
    (hconfigured t (.tail _ (.head _)) e' hat' hserving').symm
  have htold : max (overtakenDecided.told 1 3) 2 = 2 ∧ overtakenDecided.epoch smallChange 3 = 3 := by decide
  obtain ⟨-, hjoined, -⟩ := joined_version_agrees_iff_told hgroup htimely'
  obtain ⟨first, b, sync, hhead, hb, -, hsync, -, hagrees⟩ := hjoined t (.head _) 4 e' hat' hserving'
  -- There is one application that completes a catch-up.
  have hfirst : t.sketches.head?.map (·.position) = some first := by
    rw [Site.sketches, List.head?_map, Option.map_map]
    exact hhead
  have honly : ∀ k ∈ t.sketches, ∀ sync ∈ k.completed?, k.position = 3 ∧ sync = ⟨⟨1⟩, 1, 2⟩ := by
    rw [ht]
    decide
  rw [ht] at hfirst
  cases hfirst
  have hcompleted : b.position = 3 ∧ sync = ⟨⟨1⟩, 1, 2⟩ := honly b.sketch (List.mem_map_of_mem hb) sync hsync
  obtain ⟨hposition, rfl⟩ := hcompleted
  refine ⟨s, t, hgroup, htimely, htold.1, htold.2, e, e', hat, hat', hserving, hserving', hchange, fun heq => ?_, _, rfl,
    ?_, ?_⟩
  · have hlevel := (hagrees e hat).mp heq
    rw [hposition, htold.2] at hlevel
    exact absurd (htold.1.symm.trans hlevel) (by decide)
  · rw [hversion]
    rfl
  · rw [hversion']
    rfl

end ReplicaGroup
