import Mathlib.Algebra.Ring.Nat
import ReplicaGroup.Network

/-! # The wire format reads back

Every decoder takes from the front of bytes exactly what the encoder has put there, whatever follows, as
long as lengths and numbers fit into the width that they are written in. -/

namespace ReplicaGroup
namespace Wire

/-- A decoder takes `bytes` from the front and makes `a` of them, whatever follows. -/
def Reads {α : Type} (decode : Decoder α) (bytes : Bytes) (a : α) : Prop :=
  ∀ rest, decode.run (bytes ++ rest) = .ok (a, rest)

section Reads
variable {α β : Type} {a : α} {b : β} {front back : Bytes} {decode : Decoder α} {f : α → Decoder β}

theorem reads_pure (a : α) : Reads (pure a) [] a := fun _ => rfl

theorem Reads.bind (h : Reads decode front a) (hf : Reads (f a) back b) : Reads (decode >>= f) (front ++ back) b := by
  intro rest
  rw [List.append_assoc, StateT.run_bind, h]
  exact hf rest

/-- What follows a decoder that takes nothing more. -/
theorem Reads.map (h : Reads decode front a) (g : α → β) : Reads (decode >>= fun a => pure (g a)) front (g a) := by
  have hg := h.bind (f := fun a => pure (g a)) (reads_pure (g a))
  rwa [List.append_nil] at hg

theorem Reads.read (h : Reads decode front a) : Wire.read decode front = .ok a := by
  have := h []
  rw [List.append_nil] at this
  rw [Wire.read, this]
  rfl

theorem reads_byte (b : UInt8) : Reads decodeByte [b] b := fun _ => rfl

/-! ### Numbers -/

theorem length_encodeNat (width n : Nat) : (encodeNat width n).length = width := by
  induction width generalizing n with
  | zero => rfl
  | succ width ih => rw [encodeNat, List.length_cons, ih]

theorem reads_nat {width n : Nat} (h : n < 256 ^ width) : Reads (decodeNat width) (encodeNat width n) n := by
  induction width generalizing n with
  | zero =>
    obtain rfl : n = 0 := by simpa using h
    exact reads_pure 0
  | succ width ih =>
    have hhigh : n / 256 < 256 ^ width := Nat.div_lt_of_lt_mul (by rwa [Nat.pow_succ, Nat.mul_comm] at h)
    have hlow : (n % 256).toUInt8.toNat = n % 256 := by
      rw [UInt8.toNat_ofNat']
      omega
    have hsum : (n % 256).toUInt8.toNat + 256 * (n / 256) = n := by rw [hlow, Nat.mod_add_div]
    have hrest := (ih hhigh).map fun high => (n % 256).toUInt8.toNat + 256 * high
    rw [hsum] at hrest
    exact (reads_byte (n % 256).toUInt8).bind hrest

theorem reads_tag {index : Nat} (h : index < 2 ^ 32) : Reads decodeTag (encodeTag index) index := reads_nat (by simpa using h)

theorem reads_long {n : Nat} (h : n < 2 ^ 64) : Reads decodeLong (encodeLong n) n := reads_nat (by simpa using h)

/-! ### Bytes, texts and parts that may be missing -/

theorem reads_take (bytes : Bytes) : Reads (takeBytes bytes.length) bytes bytes := by
  intro rest
  show takeBytes bytes.length (bytes ++ rest) = _
  unfold takeBytes
  rw [if_neg (by simp), List.take_left, List.drop_left]

theorem reads_bytes {bytes : Bytes} (h : bytes.length < 2 ^ 64) : Reads decodeBytes (encodeBytes bytes) bytes :=
  (reads_long h).bind (reads_take bytes)

theorem reads_text {s : String} (h : s.toByteArray.size < 2 ^ 64) : Reads decodeText (encodeText s) s := by
  have hs : String.fromUTF8? ⟨(s.toByteArray.data.toList).toArray⟩ = some s := by
    have hvalid : (⟨(s.toByteArray.data.toList).toArray⟩ : ByteArray).IsValidUTF8 := by
      rw [Array.toArray_toList]
      exact s.isValidUTF8
    rw [String.fromUTF8?, dif_pos hvalid]
    congr 1
  refine List.append_nil (encodeText s) ▸ (reads_bytes (by simpa using h)).bind ?_
  rw [hs]
  exact reads_pure s

theorem reads_flag (b : Bool) : Reads decodeFlag (encodeFlag b) b := by
  intro rest
  cases b <;> rfl

theorem reads_option {encode : α → Bytes} {a? : Option α} (h : ∀ a, a? = some a → Reads decode (encode a) a) :
    Reads (decodeOption decode) (encodeOption encode a?) a? := by
  cases a? with
  | none => intro rest; rfl
  | some a => exact (reads_byte 1).bind ((h a rfl).map some)

end Reads

/-! ### Addresses, keys and ranges -/

theorem or_segment (s : UInt16) : (s >>> 8).toUInt8.toUInt16 <<< 8 ||| s.toUInt8.toUInt16 = s := by
  refine UInt16.toNat_inj.mp ?_
  have hs := s.toNat_lt
  have hor : s.toNat / 256 * 256 ||| s.toNat % 256 = s.toNat := by
    rw [show s.toNat / 256 * 256 = (s.toNat / 256) <<< 8 from (Nat.shiftLeft_eq _ 8).symm,
      ← Nat.shiftLeft_add_eq_or_of_lt (by omega), Nat.shiftLeft_eq]
    omega
  have hhigh : s.toNat / 256 % 256 * 256 % 65536 = s.toNat / 256 * 256 := by omega
  simpa [Nat.shiftRight_eq_div_pow, Nat.shiftLeft_eq, hhigh] using hor

theorem reads_segment (s : UInt16) : Reads decodeSegment (encodeSegment s) s := by
  have h := ((reads_byte s.toUInt8).map fun low => (s >>> 8).toUInt8.toUInt16 <<< 8 ||| low.toUInt16)
  rw [or_segment] at h
  exact (reads_byte (s >>> 8).toUInt8).bind h

theorem reads_ip (ip : Ip) : Reads decodeIp (encodeIp ip) ip := by
  cases ip with
  | v4 a b c d =>
    refine (reads_tag (by decide)).bind ?_
    exact (reads_byte a).bind ((reads_byte b).bind ((reads_byte c).bind ((reads_byte d).map _)))
  | v6 a b c d e f g h =>
    refine (reads_tag (by decide)).bind ?_
    simp only [List.flatMap_cons, List.flatMap_nil]
    exact (reads_segment a).bind ((reads_segment b).bind ((reads_segment c).bind ((reads_segment d).bind
      ((reads_segment e).bind ((reads_segment f).bind ((reads_segment g).bind ((reads_segment h).bind
        (reads_pure _))))))))

end Wire

/-! ### What fits -/

/-- Whether a name's length can be written. -/
def Addr.Fits : Addr → Prop
  | .socket .. => True
  | .name text => text.toByteArray.size < 2 ^ 64

/-- Whether the length of a key can be written. -/
def Key.Fits (k : Key) : Prop := k.bytes.length < 2 ^ 64

/-- Whether the length of a bound's key can be written. -/
def Bound.Fits : Bound → Prop
  | .unbounded => True
  | .included k | .excluded k => k.Fits

/-- Whether the lengths in a range can be written. -/
def KeyRange.Fits (r : KeyRange) : Prop := r.lower.Fits ∧ r.upper.Fits

/-- Whether a snapshot's position can be written. -/
def Metadata.Fits (m : Metadata) : Prop := ∀ p, m.snapshot? = some p → p < 2 ^ 64

/-- Whether all lengths and numbers of a message can be written. -/
def Message.Fits : Message → Prop
  | .initiate i => i.source.Fits ∧ i.range.Fits ∧ i.metadata.Fits
  | .grant _ quota => quota < 2 ^ 64
  | .data _ _ payload _ => payload.length < 2 ^ 64

/-- Whether the length of encoded entries can be written. -/
def Entries.Fit (es : Entries) : Prop := (Wire.encodeEntries es).length < 2 ^ 64

namespace Wire

theorem reads_addr {a : Addr} (h : a.Fits) : Reads decodeAddr (encodeAddr a) a := by
  cases a with
  | socket ip service =>
    have hnumber : Reads (decodeNat 2) (encodeNat 2 service.toNat) service.toNat := reads_nat service.toNat_lt
    have hservice := hnumber.map fun n => Addr.socket ip n.toUInt16
    rw [show service.toNat.toUInt16 = service by simp] at hservice
    rw [encodeAddr, List.append_assoc]
    exact (reads_tag (by decide)).bind ((reads_ip ip).bind hservice)
  | name text => exact (reads_tag (by decide)).bind ((reads_text h).map Addr.name)

theorem reads_key {k : Key} (h : k.Fits) : Reads decodeKey (encodeKey k) k := (reads_bytes h).map Key.mk

theorem reads_bound {b : Bound} (h : b.Fits) : Reads decodeBound (encodeBound b) b := by
  cases b with
  | unbounded => exact (reads_tag (by decide)).map fun _ => Bound.unbounded
  | included k => exact (reads_tag (by decide)).bind ((reads_key h).map Bound.included)
  | excluded k => exact (reads_tag (by decide)).bind ((reads_key h).map Bound.excluded)

theorem reads_range {r : KeyRange} (h : r.Fits) : Reads decodeRange (encodeRange r) r :=
  (reads_bound h.1).bind ((reads_bound h.2).map _)

theorem reads_metadata {m : Metadata} (h : m.Fits) : Reads decodeMetadata (encodeMetadata m) m := by
  have hversion : Reads (decodeOption (do return (← decodeNat 4).toUInt32))
      (encodeOption (fun v => encodeNat 4 v.toNat) m.version?) m.version? := by
    refine reads_option fun v _ => ?_
    have hnumber : Reads (decodeNat 4) (encodeNat 4 v.toNat) v.toNat := reads_nat v.toNat_lt
    have hv := hnumber.map Nat.toUInt32
    rwa [show v.toNat.toUInt32 = v by simp] at hv
  exact (reads_option fun p hp => reads_long (h p hp)).bind (hversion.map _)

theorem reads_transferId (id : TransferId) : Reads decodeTransferId (encodeTransferId id) id := by
  have h := (reads_long id.number.toNat_lt).map fun n => (⟨n.toUInt64⟩ : TransferId)
  rwa [show id.number.toNat.toUInt64 = id.number by simp] at h

/-! ### Messages -/

theorem reads_message {m : Message} (h : m.Fits) : Reads decodeMessage (encodeMessage m) m := by
  cases m with
  | initiate i =>
    unfold encodeMessage
    simp only [List.append_assoc]
    exact (reads_tag (by decide)).bind ((reads_transferId i.id).bind ((reads_addr h.1).bind
      ((reads_range h.2.1).bind ((reads_metadata h.2.2).map _))))
  | grant id quota =>
    unfold encodeMessage
    simp only [List.append_assoc]
    exact (reads_tag (by decide)).bind ((reads_transferId id).bind ((reads_long h).map _))
  | data id chunk payload last =>
    have hnumber : Reads (decodeNat 4) (encodeNat 4 chunk.toNat) chunk.toNat := reads_nat chunk.toNat_lt
    have hchunk : chunk.toNat.toUInt32 = chunk := by simp
    suffices h : Reads decodeMessage (encodeMessage (.data id chunk payload last))
        (.data id chunk.toNat.toUInt32 payload last) by rwa [hchunk] at h
    unfold encodeMessage
    simp only [List.append_assoc]
    exact (reads_tag (by decide)).bind ((reads_transferId id).bind (hnumber.bind
      ((reads_bytes h).bind ((reads_flag last).map _))))

/-- A message that fits arrives as it was sent. -/
theorem transmitted_eq {m : Message} (h : m.Fits) : m.transmitted = .ok m := (reads_message h).read

/-! ### Messages that do not fit

A length that does not fit garbles what follows it, but the identifier of the transfer stands before any. -/

/-- Whatever a decoder makes of bytes has a property. -/
def Yields {α : Type} (decode : Decoder α) (P : α → Prop) : Prop :=
  ∀ bytes a rest, decode.run bytes = .ok (a, rest) → P a

theorem yields_pure {α : Type} {P : α → Prop} {a : α} (h : P a) : Yields (pure a) P := by
  rintro bytes b rest ⟨⟩
  exact h

theorem yields_bind {α β : Type} {decode : Decoder α} {f : α → Decoder β} {P : β → Prop}
    (h : ∀ a, Yields (f a) P) : Yields (decode >>= f) P := by
  intro bytes b rest hb
  rw [StateT.run_bind] at hb
  cases hd : decode.run bytes with
  | error fault => rw [hd] at hb; cases hb
  | ok x => rw [hd] at hb; exact h x.1 _ _ _ hb

theorem Reads.run_bind {α β : Type} {decode : Decoder α} {front : Bytes} {a : α} (h : Reads decode front a)
    (f : α → Decoder β) (rest : Bytes) : (decode >>= f).run (front ++ rest) = (f a).run rest := by
  rw [StateT.run_bind, h]
  rfl

/-- Whatever arrives of a message, it belongs to the same transfer. -/
theorem id_of_transmitted {m arrived : Message} (h : m.transmitted = .ok arrived) : arrived.id = m.id := by
  obtain ⟨⟨a, rest⟩, hrun, rfl⟩ : ∃ x, decodeMessage.run (encodeMessage m) = .ok x ∧ x.1 = arrived := by
    unfold Message.transmitted read at h
    cases hd : decodeMessage.run (encodeMessage m) with
    | error fault => rw [hd] at h; cases h
    | ok x => rw [hd] at h; cases h; exact ⟨x, rfl, rfl⟩
  cases m with
  | initiate i =>
    simp only [encodeMessage, List.append_assoc, decodeMessage] at hrun
    rw [(reads_tag (by decide)).run_bind] at hrun
    simp only [(reads_transferId i.id).run_bind] at hrun
    exact (yields_bind fun _ => yields_bind fun _ => yields_bind fun _ => yields_pure rfl :
      Yields _ fun m : Message => m.id = i.id) _ _ _ hrun
  | grant id quota =>
    simp only [encodeMessage, List.append_assoc, decodeMessage] at hrun
    rw [(reads_tag (by decide)).run_bind] at hrun
    simp only [(reads_transferId id).run_bind] at hrun
    exact (yields_bind fun _ => yields_pure rfl : Yields _ fun m : Message => m.id = id) _ _ _ hrun
  | data id chunk payload last =>
    simp only [encodeMessage, List.append_assoc, decodeMessage] at hrun
    rw [(reads_tag (by decide)).run_bind] at hrun
    simp only [(reads_transferId id).run_bind] at hrun
    exact (yields_bind fun _ => yields_bind fun _ => yields_bind fun _ => yields_pure rfl :
      Yields _ fun m : Message => m.id = id) _ _ _ hrun

/-! ### Entries -/

theorem length_encodeEntry (e : Key × Bytes) :
    (encodeEntry e).length = 16 + e.1.bytes.length + e.2.length := by
  simp [encodeEntry, encodeKey, encodeBytes, encodeLong, length_encodeNat]
  omega

theorem length_encodeEntries (es : Entries) : (encodeEntries es).length = 8 + (es.flatMap encodeEntry).length := by
  rw [encodeEntries, List.length_append, encodeLong, length_encodeNat]

/-- A part of entries fits if all of them do. -/
theorem fit_take_drop {es : Entries} (h : es.Fit) (n : Nat) : Entries.Fit (es.take n) ∧ Entries.Fit (es.drop n) := by
  unfold Entries.Fit at h ⊢
  rw [← List.take_append_drop n es, length_encodeEntries, List.flatMap_append, List.length_append] at h
  rw [length_encodeEntries, length_encodeEntries]
  omega

theorem length_le_of_mem {es : Entries} {e : Key × Bytes} (h : e ∈ es) :
    (encodeEntry e).length ≤ (es.flatMap encodeEntry).length := by
  obtain ⟨front, back, rfl⟩ := List.append_of_mem h
  simp
  omega

theorem length_le_flatMap (es : Entries) : es.length ≤ (es.flatMap encodeEntry).length := by
  induction es with
  | nil => exact Nat.le_refl 0
  | cons e es ih =>
    rw [List.flatMap_cons, List.length_append, List.length_cons, length_encodeEntry]
    omega

/-- Entries are read back as long as their number and the lengths of their parts can be written. -/
theorem reads_entries_of_lengths {es : Entries} (hcount : es.length < 2 ^ 64)
    (hparts : ∀ e ∈ es, e.1.Fits ∧ e.2.length < 2 ^ 64) : Reads decodeEntries (encodeEntries es) es := by
  refine (reads_long hcount).bind ?_
  clear hcount
  induction es with
  | nil => exact reads_pure []
  | cons e es ih =>
    obtain ⟨he, hes⟩ := List.forall_mem_cons.mp hparts
    have hentry : Reads decodeEntry (encodeEntry e) e := (reads_key he.1).bind ((reads_bytes he.2).map _)
    exact hentry.bind ((ih hes).map _)

theorem reads_entries {es : Entries} (h : es.Fit) : Reads decodeEntries (encodeEntries es) es := by
  unfold Entries.Fit at h
  rw [length_encodeEntries] at h
  have hcount := length_le_flatMap es
  refine reads_entries_of_lengths (by omega) fun e he => ?_
  have hle := length_le_of_mem he
  rw [length_encodeEntry] at hle
  exact ⟨show e.1.bytes.length < 2 ^ 64 by omega, by omega⟩

end Wire
end ReplicaGroup
