import ReplicaGroup.Hex
import ReplicaGroup.Order

/-! # Addresses

A replica is addressed by an internet socket, which is an internet address with the number of a service
there, or by a plain name. Addresses are totally ordered: sockets come before names, IPv4 before IPv6,
then the numbers of the address decide, then the service; names are ordered by code points, which is the
order of their UTF-8 bytes. -/

namespace ReplicaGroup

/-- An internet address: four bytes, or eight segments. -/
inductive Ip where
  | v4 (a b c d : UInt8)
  | v6 (a b c d e f g h : UInt16)
deriving DecidableEq, Inhabited

namespace Ip

/-- Where the first longest run of zero segments starts, and its length. -/
def longestZeroRun (segments : List UInt16) : Nat × Nat :=
  (List.range segments.length).foldl
    (fun best i =>
      let length := ((segments.drop i).takeWhile (· = 0)).length
      if best.2 < length then (i, length) else best)
    (0, 0)

/-- Segments in hexadecimal without leading zeros, separated by colons. -/
def segmentsText (segments : List UInt16) : String :=
  String.intercalate ":" (segments.map fun s => hexNumber 1 s.toNat)

/-- Four bytes in decimal, separated by dots. -/
def dottedText (a b c d : UInt8) : String :=
  String.intercalate "." ([a, b, c, d].map fun x => toString x.toNat)

/-- The usual text of an address. The first longest run of two or more zero segments is left out; an
    address that embeds an IPv4 address shows it with dots. -/
def text : Ip → String
  | v4 a b c d => dottedText a b c d
  | v6 a b c d e f g h =>
    if [a, b, c, d, e] = [0, 0, 0, 0, 0] ∧ f = 65535 then
      "::ffff:" ++ dottedText (g >>> 8).toUInt8 g.toUInt8 (h >>> 8).toUInt8 h.toUInt8
    else
      let segments := [a, b, c, d, e, f, g, h]
      let (start, length) := longestZeroRun segments
      if 1 < length then
        segmentsText (segments.take start) ++ "::" ++ segmentsText (segments.drop (start + length))
      else segmentsText segments

end Ip

/-- The address of a replica. -/
inductive Addr where
  | socket (ip : Ip) (service : UInt16)
  | name (text : String)
deriving DecidableEq, Inhabited

namespace Addr

/-- The numbers that order addresses: first the kind of address, then its parts. -/
def rank : Addr → List UInt32
  | socket (.v4 a b c d) service =>
    [0, a.toUInt32, b.toUInt32, c.toUInt32, d.toUInt32, service.toUInt32]
  | socket (.v6 a b c d e f g h) service =>
    [1, a.toUInt32, b.toUInt32, c.toUInt32, d.toUInt32, e.toUInt32, f.toUInt32, g.toUInt32,
      h.toUInt32, service.toUInt32]
  | name text => 2 :: text.toList.map Char.val

theorem rank_injective (a b : Addr) (h : a.rank = b.rank) : a = b := by
  match a, b with
  | socket (.v4 ..) _, socket (.v4 ..) _ | socket (.v6 ..) _, socket (.v6 ..) _ =>
    simp_all [rank, UInt8.toUInt32_inj, UInt16.toUInt32_inj]
  | socket (.v4 ..) _, socket (.v6 ..) _ | socket (.v6 ..) _, socket (.v4 ..) _
  | socket (.v4 ..) _, name _ | name _, socket (.v4 ..) _
  | socket (.v6 ..) _, name _ | name _, socket (.v6 ..) _ => simp [rank] at h
  | name s, name t =>
    simp only [rank, List.cons.injEq, true_and] at h
    rw [String.toList_inj.mp ((List.map_inj_right fun _ _ e => Char.ext e).mp h)]

instance : LT Addr := ⟨fun a b => a.rank < b.rank⟩
instance : LE Addr := ⟨fun a b => a.rank ≤ b.rank⟩
instance : DecidableLT Addr := fun a b => inferInstanceAs (Decidable (a.rank < b.rank))
instance : DecidableLE Addr := fun a b => inferInstanceAs (Decidable (a.rank ≤ b.rank))

instance : Std.IsLinearOrder Addr := isLinearOrder_of_key rank rank_injective fun _ _ => .rfl

instance : Std.LawfulOrderLT Addr := lawfulOrderLT_of_key rank (fun _ _ => .rfl) fun _ _ => .rfl

/-- The text of an address: brackets keep the colons of an IPv6 address apart from the service's. -/
def text : Addr → String
  | socket (.v4 a b c d) service => Ip.text (.v4 a b c d) ++ ":" ++ toString service.toNat
  | socket ip service => "[" ++ ip.text ++ "]:" ++ toString service.toNat
  | name text => text

end Addr
end ReplicaGroup
