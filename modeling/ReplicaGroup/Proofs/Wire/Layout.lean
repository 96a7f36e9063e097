import ReplicaGroup.Group
import ReplicaGroup.Proofs.Wire.Delimited

/-! # The layout of the wire format

Every value is made of numbers, of parts that follow each other, of lists, of alternatives, and of values that may
be missing. Each of these has one layout, whatever value it is a part of: a number has a fixed width and its lowest
byte first, a list its length in eight bytes before it, an alternative its index in four, and a value that may be
missing one byte that tells. Bytes and texts are lists of numbers of one byte. -/

namespace ReplicaGroup

/-- A value, as the wire format sees it. -/
inductive Datum where
  | number (width n : Nat)
  | parts (ds : List Datum)
  | many (ds : List Datum)
  | alternative (index : Nat) (ds : List Datum)
  | missing
  | present (d : Datum)

/-- The `width` low bytes of a number: the byte at place `i` counts multiples of `256 ^ i`. -/
def littleEndian (width n : Nat) : Bytes := (List.range width).map fun i => (n / 256 ^ i % 256).toUInt8

mutual
/-- How a value is laid out. -/
def Datum.layout : Datum → Bytes
  | number width n => littleEndian width n
  | parts ds => layoutAll ds
  | many ds => littleEndian 8 ds.length ++ layoutAll ds
  | alternative index ds => littleEndian 4 index ++ layoutAll ds
  | missing => littleEndian 1 0
  | present d => littleEndian 1 1 ++ d.layout
/-- Values one after the other. -/
def Datum.layoutAll : List Datum → Bytes
  | [] => []
  | d :: ds => d.layout ++ layoutAll ds
end

namespace Datum
variable (width n index : Nat) (d : Datum) (ds : List Datum)

@[simp] theorem layout_number : (number width n).layout = littleEndian width n := rfl

@[simp] theorem layout_parts : (parts ds).layout = layoutAll ds := rfl

@[simp] theorem layout_many : (many ds).layout = littleEndian 8 ds.length ++ layoutAll ds := rfl

@[simp] theorem layout_alternative : (alternative index ds).layout = littleEndian 4 index ++ layoutAll ds := rfl

@[simp] theorem layout_present : (present d).layout = littleEndian 1 1 ++ d.layout := rfl

@[simp] theorem layoutAll_nil : layoutAll [] = [] := rfl

@[simp] theorem layoutAll_cons : layoutAll (d :: ds) = d.layout ++ layoutAll ds := rfl

end Datum

/-! ### The values of transfers -/

/-- Bytes as a list of numbers. -/
def Bytes.datum (b : Bytes) : Datum := .many (b.map fun x => .number 1 x.toNat)

/-- A value that may be missing. -/
def Datum.option {α : Type} (f : α → Datum) : Option α → Datum
  | none => .missing
  | some a => .present (f a)

/-- An internet address by its bytes, the highest first, and the service there. -/
def Ip.datum (service : UInt16) : Ip → Datum
  | v4 a b c d => .alternative 0 [.parts ([a, b, c, d].map fun x => .number 1 x.toNat), .number 2 service.toNat]
  | v6 a b c d e f g h =>
    .alternative 1 [.parts ([a, b, c, d, e, f, g, h].flatMap fun s =>
      [.number 1 (s.toNat / 256), .number 1 (s.toNat % 256)]), .number 2 service.toNat]

def Addr.datum : Addr → Datum
  | socket ip service => .alternative 0 [ip.datum service]
  | name text => .alternative 1 [Bytes.datum text.toByteArray.data.toList]

def Bound.datum : Bound → Datum
  | unbounded => .alternative 0 []
  | included k => .alternative 1 [k.bytes.datum]
  | excluded k => .alternative 2 [k.bytes.datum]

def KeyRange.datum (r : KeyRange) : Datum := .parts [r.lower.datum, r.upper.datum]

def Metadata.datum (m : Metadata) : Datum :=
  .parts [.option (.number 8) m.snapshot?, .option (fun v => .number 4 v.toNat) m.version?]

def TransferId.datum (id : TransferId) : Datum := .number 8 id.number.toNat

def Message.datum : Message → Datum
  | initiate i => .alternative 0 [.parts [i.id.datum, i.source.datum, i.range.datum, i.metadata.datum]]
  | grant id quota => .alternative 1 [id.datum, .number 8 quota]
  | data id chunk payload last =>
    .alternative 2 [id.datum, .number 4 chunk.toNat, payload.datum, .number 1 last.toNat]

def Entries.datum (es : Entries) : Datum := .many (es.map fun e => .parts [e.1.bytes.datum, e.2.datum])

namespace Wire

/-! ### Encodings are layouts -/

theorem encodeNat_eq (width n : Nat) : encodeNat width n = littleEndian width n := by
  unfold littleEndian
  induction width generalizing n with
  | zero => rfl
  | succ width ih =>
    rw [encodeNat, ih, List.range_succ_eq_map, List.map_cons, List.map_map]
    congr 1
    · simp
    · refine List.map_congr_left fun i _ => ?_
      rw [Function.comp_apply, Nat.pow_succ, Nat.mul_comm, Nat.div_div_eq_div_mul]

theorem littleEndian_one (b : UInt8) : littleEndian 1 b.toNat = [b] := by
  have hb : b.toNat % 256 = b.toNat := Nat.mod_eq_of_lt b.toNat_lt
  simp [littleEndian, hb]

@[simp] theorem layoutAll_bytes (b : Bytes) : Datum.layoutAll (b.map fun x => .number 1 x.toNat) = b := by
  induction b with
  | nil => rfl
  | cons x b ih => rw [List.map_cons, Datum.layoutAll_cons, Datum.layout_number, littleEndian_one, ih, List.singleton_append]

@[simp] theorem layout_bytes (b : Bytes) : b.datum.layout = encodeBytes b := by
  rw [Bytes.datum, Datum.layout_many, layoutAll_bytes, List.length_map, ← encodeNat_eq]
  rfl

theorem layoutAll_append (ds ds' : List Datum) : Datum.layoutAll (ds ++ ds') = Datum.layoutAll ds ++ Datum.layoutAll ds' := by
  induction ds with
  | nil => rfl
  | cons d ds ih => rw [List.cons_append, Datum.layoutAll_cons, ih, Datum.layoutAll_cons, List.append_assoc]

theorem layout_option {α : Type} {f : α → Datum} {encode : α → Bytes} (h : ∀ a, (f a).layout = encode a) (a? : Option α) :
    (Datum.option f a?).layout = encodeOption encode a? := by
  cases a? with
  | none => rfl
  | some a =>
    rw [Datum.option, Datum.layout_present, h]
    rfl

/-- A segment goes out with its high byte first, unlike all numbers. -/
theorem layoutAll_segments (l : List UInt16) : Datum.layoutAll (l.flatMap fun s =>
    [.number 1 (s.toNat / 256), .number 1 (s.toNat % 256)]) = l.flatMap encodeSegment := by
  induction l with
  | nil => rfl
  | cons s l ih =>
    have hhigh : s.toNat / 256 % 256 = s.toNat / 256 := by
      have := s.toNat_lt
      omega
    rw [List.flatMap_cons, List.flatMap_cons, layoutAll_append, ih]
    congr 1
    simp only [Datum.layoutAll_cons, Datum.layoutAll_nil, Datum.layout_number, littleEndian, encodeSegment]
    simp [← UInt8.toNat_inj, Nat.shiftRight_eq_div_pow, hhigh]

theorem layout_addr (a : Addr) : a.datum.layout = encodeAddr a := by
  cases a with
  | name text =>
    simp only [Addr.datum, Datum.layout_alternative, Datum.layoutAll_cons, Datum.layoutAll_nil, layout_bytes,
      List.append_nil, ← encodeNat_eq]
    rfl
  | socket ip service =>
    cases ip with
    | v4 a b c d =>
      simp only [Addr.datum, Ip.datum, Datum.layout_alternative, Datum.layout_parts, Datum.layout_number,
        Datum.layoutAll_cons, Datum.layoutAll_nil, layoutAll_bytes, List.append_nil, ← encodeNat_eq]
      rfl
    | v6 a b c d e f g h =>
      simp only [Addr.datum, Ip.datum, Datum.layout_alternative, Datum.layout_parts, Datum.layout_number,
        Datum.layoutAll_cons, Datum.layoutAll_nil, layoutAll_segments, List.append_nil, ← encodeNat_eq]
      simp [encodeAddr, encodeIp, encodeTag]

theorem layout_bound (b : Bound) : b.datum.layout = encodeBound b := by
  cases b <;>
    simp [Bound.datum, encodeBound, encodeTag, encodeKey, encodeNat_eq]

theorem layout_metadata (m : Metadata) : m.datum.layout = encodeMetadata m := by
  have hnumber : ∀ width n, (Datum.number width n).layout = encodeNat width n := fun width n =>
    (encodeNat_eq width n).symm
  have hsnapshot := layout_option (hnumber 8) m.snapshot?
  have hversion := layout_option (fun v : Version => hnumber 4 v.toNat) m.version?
  simp only [Metadata.datum, Datum.layout_parts, Datum.layoutAll_cons, Datum.layoutAll_nil, List.append_nil, hsnapshot,
    hversion]
  rfl

theorem layout_transferId (id : TransferId) : id.datum.layout = encodeTransferId id := (encodeNat_eq 8 id.number.toNat).symm

theorem layout_message (m : Message) : m.datum.layout = encodeMessage m := by
  cases m with
  | initiate i =>
    simp [Message.datum, KeyRange.datum, layout_transferId, layout_addr, layout_bound, layout_metadata, encodeMessage,
      encodeRange, encodeTag, encodeNat_eq]
  | grant id quota =>
    simp [Message.datum, layout_transferId, encodeMessage, encodeTag, encodeLong, encodeNat_eq]
  | data id chunk payload last =>
    have hflag : littleEndian 1 last.toNat = encodeFlag last := by cases last <;> rfl
    simp [Message.datum, layout_transferId, encodeMessage, encodeTag, encodeNat_eq, hflag]

theorem layoutAll_entries (es : Entries) :
    Datum.layoutAll (es.map fun e => .parts [e.1.bytes.datum, e.2.datum]) = es.flatMap encodeEntry := by
  induction es with
  | nil => rfl
  | cons e es ih =>
    simp only [List.map_cons, List.flatMap_cons, Datum.layoutAll_cons, Datum.layoutAll_nil, Datum.layout_parts, layout_bytes,
      List.append_nil, ih]
    rfl

theorem layout_entries (es : Entries) : es.datum.layout = encodeEntries es := by
  rw [Entries.datum, Datum.layout_many, layoutAll_entries, List.length_map, ← encodeNat_eq]
  rfl

end Wire
end ReplicaGroup
