import ReplicaGroup.Proofs.Wire

/-! # The wire format is self-delimiting

What a decoder decides about bytes stands when more bytes follow: all it can do is wait for more. So where it
reads an encoding back whatever follows, it finds every proper part of the encoding too short. -/

namespace ReplicaGroup
namespace Wire

/-- Bytes that follow change neither what a decoder makes of those before them nor why it refuses them, unless
    those before them are too short. -/
def Patient {α : Type} (decode : Decoder α) : Prop :=
  ∀ bytes more, decode.run bytes = .error .tooShort ∨
    decode.run (bytes ++ more) = (decode.run bytes).map fun x => (x.1, x.2 ++ more)

/-- Bytes that a decoder reads back whatever follows them, and finds too short when anything is missing. -/
structure Delimits {α : Type} (decode : Decoder α) (bytes : Bytes) (a : α) : Prop where
  reads : Reads decode bytes a
  waits : ∀ front, front <+: bytes → front ≠ bytes → decode.run front = .error .tooShort

section Patient
variable {α β : Type} {decode : Decoder α} {f : α → Decoder β}

theorem Reads.delimits {bytes : Bytes} {a : α} (h : Reads decode bytes a) (hp : Patient decode) :
    Delimits decode bytes a := by
  refine ⟨h, ?_⟩
  rintro front ⟨more, rfl⟩ hne
  rcases hp front more with hshort | hmore
  · exact hshort
  · -- What was decoded of the front would leave the missing bytes over.
    have hread := h []
    rw [List.append_nil, hmore] at hread
    cases hrun : decode.run front with
    | error fault =>
      rw [hrun] at hread
      cases hread
    | ok x =>
      rw [hrun] at hread
      obtain ⟨-, hrest⟩ := Prod.mk.inj (Except.ok.inj hread)
      obtain ⟨-, rfl⟩ := List.append_eq_nil_iff.mp hrest
      exact absurd (List.append_nil front).symm hne

/-! ### Decoders -/

theorem patient_pure (a : α) : Patient (pure a) := fun _ _ => .inr rfl

theorem patient_throw (fault : DecodeError) : Patient (throw fault : Decoder α) := fun _ _ => .inr rfl

theorem Patient.bind (h : Patient decode) (hf : ∀ a, Patient (f a)) : Patient (decode >>= f) := by
  intro bytes more
  rw [StateT.run_bind, StateT.run_bind]
  rcases h bytes more with hshort | hmore
  · rw [hshort]
    exact .inl rfl
  · rw [hmore]
    cases decode.run bytes with
    | error fault => exact .inr rfl
    | ok x => exact hf x.1 x.2 more

theorem Patient.map (h : Patient decode) (g : α → β) : Patient (decode >>= fun a => pure (g a)) :=
  h.bind fun a => patient_pure (g a)

theorem patient_byte : Patient decodeByte := by
  intro bytes more
  cases bytes with
  | nil => exact .inl rfl
  | cons b rest => exact .inr rfl

theorem patient_nat (width : Nat) : Patient (decodeNat width) := by
  induction width with
  | zero => exact patient_pure 0
  | succ width ih => exact patient_byte.bind fun low => ih.map _

theorem patient_take (n : Nat) : Patient (takeBytes n) := by
  intro bytes more
  show takeBytes n bytes = _ ∨ takeBytes n (bytes ++ more) = (takeBytes n bytes).map _
  unfold takeBytes
  by_cases hn : bytes.length < n
  · left
    rw [if_pos hn]
  · right
    have hle := Nat.le_of_not_lt hn
    rw [if_neg hn, if_neg (by simp; omega), List.take_append_of_le_length hle, List.drop_append_of_le_length hle]
    rfl

theorem patient_bytes : Patient decodeBytes := (patient_nat 8).bind patient_take

theorem patient_text : Patient decodeText := by
  refine patient_bytes.bind fun bytes => ?_
  split
  · exact patient_pure _
  · exact patient_throw _

theorem patient_flag : Patient decodeFlag := by
  refine patient_byte.bind fun b => ?_
  split
  · exact patient_pure _
  · exact patient_pure _
  · exact patient_throw _

theorem patient_option (h : Patient decode) : Patient (decodeOption decode) := by
  refine patient_byte.bind fun b => ?_
  split
  · exact patient_pure _
  · exact h.map some
  · exact patient_throw _

end Patient

/-! ### Addresses, keys and ranges -/

theorem patient_segment : Patient decodeSegment := patient_byte.bind fun _ => patient_byte.map _

theorem patient_ip : Patient decodeIp := by
  refine (patient_nat 4).bind fun tag => ?_
  split
  · exact patient_byte.bind fun _ => patient_byte.bind fun _ => patient_byte.bind fun _ => patient_byte.map _
  · exact patient_segment.bind fun _ => patient_segment.bind fun _ => patient_segment.bind fun _ =>
      patient_segment.bind fun _ => patient_segment.bind fun _ => patient_segment.bind fun _ =>
        patient_segment.bind fun _ => patient_segment.map _
  · exact patient_throw _

theorem patient_addr : Patient decodeAddr := by
  refine (patient_nat 4).bind fun tag => ?_
  split
  · exact patient_ip.bind fun _ => (patient_nat 2).map _
  · exact patient_text.map _
  · exact patient_throw _

theorem patient_key : Patient decodeKey := patient_bytes.map _

theorem patient_bound : Patient decodeBound := by
  refine (patient_nat 4).bind fun tag => ?_
  split
  · exact patient_pure _
  · exact patient_key.map _
  · exact patient_key.map _
  · exact patient_throw _

theorem patient_range : Patient decodeRange := patient_bound.bind fun _ => patient_bound.map _

theorem patient_metadata : Patient decodeMetadata :=
  (patient_option (patient_nat 8)).bind fun _ => (patient_option ((patient_nat 4).map _)).map _

theorem patient_transferId : Patient decodeTransferId := (patient_nat 8).map _

/-! ### Messages and entries -/

theorem patient_message : Patient decodeMessage := by
  refine (patient_nat 4).bind fun tag => ?_
  split
  · exact patient_transferId.bind fun _ => patient_addr.bind fun _ => patient_range.bind fun _ => patient_metadata.map _
  · exact patient_transferId.bind fun _ => (patient_nat 8).map _
  · exact patient_transferId.bind fun _ => (patient_nat 4).bind fun _ => patient_bytes.bind fun _ => patient_flag.map _
  · exact patient_throw _

theorem patient_many {α : Type} {decode : Decoder α} (h : Patient decode) (n : Nat) : Patient (decodeMany decode n) := by
  induction n with
  | zero => exact patient_pure []
  | succ n ih => exact h.bind fun _ => ih.map _

theorem patient_entries : Patient decodeEntries :=
  (patient_nat 8).bind (patient_many (patient_key.bind fun _ => patient_bytes.map _))

end Wire
end ReplicaGroup
