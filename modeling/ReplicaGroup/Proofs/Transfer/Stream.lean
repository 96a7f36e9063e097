import ReplicaGroup.Proofs.Transfer.Steps
import ReplicaGroup.Proofs.Wire

/-! # The stream of a transfer

What a sender sends is fixed when it has captured the entries: the announcement, and then the chunks in
their order, however they are granted. A receiver that takes all of them has all the entries. -/

namespace ReplicaGroup

/-- Messages that are all the chunks of a transfer, and the entries in them. -/
inductive Chunked (id : TransferId) : Entries → List Message → Prop
  | last {es : Entries} {n : UInt32} {payload : Bytes} (h : Wire.read Wire.decodeEntries payload = .ok es) :
    Chunked id es [.data id n payload true]
  | more {es rest : Entries} {n : UInt32} {payload : Bytes} {l : List Message}
    (h : Wire.read Wire.decodeEntries payload = .ok es) (hl : Chunked id rest l) :
    Chunked id (es ++ rest) (.data id n payload false :: l)

namespace Sender
variable {s : Sender} {links : Links} {sent i : Nat} {rest : Entries}

theorem chunkSize_pos (s : Sender) : 0 < s.chunkSize := Nat.le_max_left 1 s.chunkEntries

/-- The chunks that are still to be sent, when `sent` chunks are sent and `rest` is left. -/
def chunks (s : Sender) (sent : Nat) (rest : Entries) : List Message :=
  s.chunk sent rest ::
    if h : (rest.drop s.chunkSize).isEmpty = true then [] else s.chunks (sent + 1) (rest.drop s.chunkSize)
termination_by rest.length
decreasing_by
  have hpos := s.chunkSize_pos
  have hne : rest.drop s.chunkSize ≠ [] := fun h0 => h (by rw [h0]; rfl)
  have hlen := List.length_pos_iff.mpr hne
  rw [List.length_drop] at hlen ⊢
  omega

theorem chunks_of_last (h : (rest.drop s.chunkSize).isEmpty = true) : s.chunks sent rest = [s.chunk sent rest] := by
  rw [chunks, dif_pos h]

theorem chunks_of_more (h : ¬(rest.drop s.chunkSize).isEmpty = true) :
    s.chunks sent rest = s.chunk sent rest :: s.chunks (sent + 1) (rest.drop s.chunkSize) := by
  rw [chunks, dif_neg h]

/-- What a sender is doing does not change the chunks. -/
theorem chunks_phase (phase : Phase) : Sender.chunks { s with phase := phase } sent rest = s.chunks sent rest := by
  induction sent, rest using chunks.induct s with
  | case1 sent rest ih =>
    by_cases hlast : (rest.drop s.chunkSize).isEmpty = true
    · rw [chunks_of_last hlast]
      exact chunks_of_last hlast
    · rw [chunks_of_more hlast, ← ih hlast]
      exact chunks_of_more hlast

/-- The chunks hold the entries, if these fit. -/
theorem chunked_chunks (h : rest.Fit) : Chunked s.outbound.id rest (s.chunks sent rest) := by
  induction sent, rest using chunks.induct s with
  | case1 sent rest ih =>
    obtain ⟨htake, hdrop⟩ := Wire.fit_take_drop h s.chunkSize
    by_cases hlast : (rest.drop s.chunkSize).isEmpty = true
    · have hall : rest.take s.chunkSize = rest := by
        have happend := List.take_append_drop s.chunkSize rest
        rwa [List.isEmpty_iff.mp hlast, List.append_nil] at happend
      rw [chunks_of_last hlast, chunk, hlast, hall]
      exact .last (Wire.reads_entries h).read
    · have hmore := Chunked.more (n := sent.toUInt32) (Wire.reads_entries htake).read (ih hlast hdrop)
      rw [List.take_append_drop] at hmore
      rw [chunks_of_more hlast, chunk, Bool.eq_false_iff.mpr hlast]
      exact hmore

/-- Every chunk is cut from what is left of the entries at some point. -/
theorem exists_chunk_of_mem_chunks {m : Message} (hm : m ∈ s.chunks sent rest) :
    ∃ n dropped, m = s.chunk n (rest.drop dropped) := by
  induction sent, rest using chunks.induct s with
  | case1 sent rest ih =>
    by_cases hlast : (rest.drop s.chunkSize).isEmpty = true
    · rw [chunks_of_last hlast] at hm
      exact ⟨sent, 0, List.mem_singleton.mp hm⟩
    · rw [chunks_of_more hlast] at hm
      rcases List.mem_cons.mp hm with hm | hm
      · exact ⟨sent, 0, hm⟩
      · obtain ⟨n, dropped, hm⟩ := ih hlast hm
        exact ⟨n, s.chunkSize + dropped, List.drop_drop ▸ hm⟩

theorem id_of_mem_chunks {m : Message} (hm : m ∈ s.chunks sent rest) : m.id = s.outbound.id := by
  obtain ⟨n, dropped, rfl⟩ := exists_chunk_of_mem_chunks hm
  rfl

/-- Every chunk fits if the entries do. -/
theorem fits_of_mem_chunks {m : Message} (h : rest.Fit) (hm : m ∈ s.chunks sent rest) : m.Fits := by
  obtain ⟨n, dropped, rfl⟩ := exists_chunk_of_mem_chunks hm
  exact (Wire.fit_take_drop (Wire.fit_take_drop h dropped).2 s.chunkSize).1

/-- A turn that goes on with the stream `left`, or ends. -/
structure Streams (s : Sender) (links : Links) (todo : List Message) (turn : Turn Sender) (front left : List Message) :
    Prop where
  split : todo = front ++ left
  deeds : turn.deeds = front.map (.send s.outbound.recipient)
  carried : ∀ m ∈ front, links.carries s.outbound.recipient m = .ok ()
  goes : (∃ n rest, turn.progress = .waiting { s with phase := .streaming n rest } ∧ left = s.chunks n rest) ∨
    ∃ outcome, turn.progress = .ended outcome

/-- A turn that sends a message first. -/
theorem streams_sending {m : Message} {todo left : List Message} {next : Turn Sender}
    (h : ∃ front left', s.Streams links left next front left') (ht : todo = m :: left) :
    ∃ front left', s.Streams links todo (.sending links s.outbound.recipient m next) front left' := by
  subst ht
  unfold Turn.sending
  cases hc : links.carries s.outbound.recipient m with
  | error fault => exact ⟨[], m :: left, rfl, rfl, by simp, .inr ⟨_, rfl⟩⟩
  | ok u =>
    obtain ⟨front, left', hn⟩ := h
    refine ⟨m :: front, left', by rw [hn.split, List.cons_append], ?_, ?_, hn.goes⟩
    · rw [List.map_cons, ← hn.deeds]
      rfl
    · exact List.forall_mem_cons.mpr ⟨hc, hn.carried⟩

/-- Granted chunks are sent in order, as long as they are carried. -/
theorem streams_stream (quota : Nat) : ∃ front left, s.Streams links (s.chunks sent rest) (s.stream links quota sent rest)
    front left := by
  induction quota generalizing sent rest with
  | zero => exact ⟨[], _, rfl, rfl, by simp, .inl ⟨sent, rest, rfl, rfl⟩⟩
  | succ quota ih =>
    rw [stream]
    by_cases hlast : (rest.drop s.chunkSize).isEmpty = true
    · rw [if_pos hlast]
      exact streams_sending ⟨[], [], rfl, rfl, by simp, .inr ⟨_, rfl⟩⟩ (chunks_of_last hlast)
    · rw [if_neg hlast]
      exact streams_sending ih (chunks_of_more hlast)

/-! ### The chunks by number -/

theorem isEmpty_drop_chunk_iff : (rest.drop s.chunkSize).isEmpty = true ↔ rest.length ≤ s.chunkSize := by
  rw [List.isEmpty_iff, List.drop_eq_nil_iff]

theorem chunks_ne_nil (s : Sender) (sent : Nat) (rest : Entries) : s.chunks sent rest ≠ [] := by
  rw [chunks]
  exact List.cons_ne_nil _ _

theorem length_chunks (s : Sender) (sent : Nat) (rest : Entries) :
    (s.chunks sent rest).length = max 1 ((rest.length + s.chunkSize - 1) / s.chunkSize) := by
  induction sent, rest using chunks.induct s with
  | case1 sent rest ih =>
    have hpos := s.chunkSize_pos
    by_cases hlast : (rest.drop s.chunkSize).isEmpty = true
    · rw [chunks_of_last hlast]
      have hle := isEmpty_drop_chunk_iff.mp hlast
      have hlt : (rest.length + s.chunkSize - 1) / s.chunkSize < 2 := Nat.div_lt_of_lt_mul (by omega)
      rw [List.length_singleton]
      omega
    · rw [chunks_of_more hlast, List.length_cons, ih hlast, List.length_drop]
      have hlt := Nat.lt_of_not_le fun hle => hlast (isEmpty_drop_chunk_iff.mpr hle)
      have hsplit : rest.length + s.chunkSize - 1 = (rest.length - s.chunkSize + s.chunkSize - 1) + s.chunkSize := by omega
      rw [hsplit, Nat.add_div_right _ hpos]
      have hone : 1 ≤ (rest.length - s.chunkSize + s.chunkSize - 1) / s.chunkSize :=
        (Nat.one_le_div_iff hpos).mpr (by omega)
      omega

/-- The chunk is the last one where no more are left. -/
theorem length_chunks_eq_one_iff : (s.chunks sent rest).length = 1 ↔ (rest.drop s.chunkSize).isEmpty = true := by
  by_cases hlast : (rest.drop s.chunkSize).isEmpty = true
  · simp [chunks_of_last hlast, hlast]
  · simp [chunks_of_more hlast, hlast, chunks_ne_nil]

/-- After some chunks those of what is left follow. -/
theorem drop_chunks (hi : i < (s.chunks sent rest).length) :
    (s.chunks sent rest).drop i = s.chunks (sent + i) (rest.drop (i * s.chunkSize)) := by
  induction i generalizing sent rest with
  | zero => simp
  | succ i ih =>
    by_cases hlast : (rest.drop s.chunkSize).isEmpty = true
    · rw [chunks_of_last hlast, List.length_singleton] at hi
      omega
    · rw [chunks_of_more hlast, List.length_cons] at hi
      rw [chunks_of_more hlast, List.drop_succ_cons, ih (Nat.lt_of_succ_lt_succ hi), List.drop_drop, Nat.succ_mul,
        Nat.add_comm (i * s.chunkSize), Nat.add_assoc, Nat.add_comm 1 i]

theorem getElem?_chunks (hi : i < (s.chunks sent rest).length) :
    (s.chunks sent rest)[i]? = some (s.chunk (sent + i) (rest.drop (i * s.chunkSize))) := by
  rw [← List.head?_drop, drop_chunks hi, chunks]
  rfl

/-- The entries of a chunk. -/
def slice (s : Sender) (rest : Entries) (i : Nat) : Entries := (rest.drop (i * s.chunkSize)).take s.chunkSize

theorem chunk_eq (hi : i < (s.chunks 0 rest).length) :
    s.chunk i (rest.drop (i * s.chunkSize)) =
      .data s.outbound.id i.toUInt32 (Wire.encodeEntries (s.slice rest i)) (decide (i + 1 = (s.chunks 0 rest).length)) := by
  have hleft : (s.chunks i (rest.drop (i * s.chunkSize))).length = (s.chunks 0 rest).length - i := by
    have hdrop := congrArg List.length (drop_chunks hi)
    rw [List.length_drop, Nat.zero_add] at hdrop
    exact hdrop.symm
  have hlast : (s.chunks i (rest.drop (i * s.chunkSize))).length = 1 ↔ _ := length_chunks_eq_one_iff
  rw [chunk, slice]
  congr 1
  rw [Bool.eq_iff_iff, ← hlast, hleft, decide_eq_true_iff]
  omega

/-- The chunks hold the entries, each of them once and in order. -/
theorem flatten_slices (s : Sender) (sent : Nat) (rest : Entries) :
    ((List.range (s.chunks sent rest).length).map (s.slice rest)).flatten = rest := by
  induction sent, rest using chunks.induct s with
  | case1 sent rest ih =>
    have hfirst : s.slice rest 0 = rest.take s.chunkSize := by rw [slice, Nat.zero_mul, List.drop_zero]
    by_cases hlast : (rest.drop s.chunkSize).isEmpty = true
    · rw [chunks_of_last hlast, List.length_singleton]
      exact (List.append_nil _).trans (hfirst.trans (List.take_of_length_le (isEmpty_drop_chunk_iff.mp hlast)))
    · have hlater : s.slice rest ∘ Nat.succ = s.slice (rest.drop s.chunkSize) := by
        funext i
        simp only [Function.comp, slice, List.drop_drop, Nat.succ_mul, Nat.add_comm]
      rw [chunks_of_more hlast, List.length_cons, List.range_succ_eq_map, List.map_cons, List.map_map, List.flatten_cons,
        hlater, ih hlast, hfirst, List.take_append_drop]

/-! ### Granted chunks -/

/-- Of the chunks that are left a sender sends as many as it is granted, and it ends with the last of them. -/
theorem stream_eq (hc : ∀ m, links.carries s.outbound.recipient m = .ok ()) (quota sent : Nat) (rest : Entries) :
    s.stream links quota sent rest =
      if quota < (s.chunks sent rest).length then
        ⟨.waiting { s with phase := .streaming (sent + quota) (rest.drop (quota * s.chunkSize)) },
          ((s.chunks sent rest).take quota).map (.send s.outbound.recipient)⟩
      else ⟨.ended (.ok s.outbound.metadata), (s.chunks sent rest).map (.send s.outbound.recipient)⟩ := by
  induction quota generalizing sent rest with
  | zero =>
    rw [if_pos (List.length_pos_iff.mpr (s.chunks_ne_nil sent rest))]
    simp [stream, Turn.wait]
  | succ quota ih =>
    rw [stream, Turn.sending, hc]
    by_cases hlast : (rest.drop s.chunkSize).isEmpty = true
    · rw [if_pos hlast, chunks_of_last hlast, if_neg (by simp)]
      rfl
    · rw [if_neg hlast, chunks_of_more hlast, ih, List.length_cons]
      by_cases hq : quota < (s.chunks (sent + 1) (rest.drop s.chunkSize)).length
      · rw [if_pos hq, if_pos (Nat.succ_lt_succ hq), List.drop_drop, Nat.succ_mul]
        simp [Turn.after, Nat.add_comm, Nat.add_left_comm]
      · rw [if_neg hq, if_neg fun h => hq (Nat.lt_of_succ_lt_succ h)]
        rfl

end Sender
end ReplicaGroup
