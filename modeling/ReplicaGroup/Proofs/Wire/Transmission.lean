import ReplicaGroup.Proofs.Wire.Layout

/-! # What is sent arrives

A message crosses the network in its wire form. As nothing is lost there, it is queued unchanged for the replica
that the destination belongs to. -/

namespace ReplicaGroup

/-- A message that fits reaches the inbox of a registered destination as it was sent, if the inbox takes events. -/
theorem Network.route_of_fits {ι : Type} {net : Network ι} {isOpen : ι → Bool} {dest : Addr} {inbox : ι} {m : Message}
    (hm : m.Fits) (hd : net.get? dest = some inbox) (ho : isOpen inbox = true) :
    net.route isOpen dest m = .ok (inbox, m) := by
  unfold Network.route
  rw [hd]
  simp only [Wire.transmitted_eq hm, ho, if_true]
  rfl

namespace Group
variable {g : Group} {i : Nat} {r : Replica}

@[simp] theorem replicas_wake (g : Group) (a : Activity) : (g.wake a).replicas = g.replicas := by
  unfold wake
  split <;> rfl

theorem getElem?_post (hr : g.replicas[i]? = some r) (ho : r.running = true) (e : Event) :
    (g.post i e).replicas[i]? = some { r with inbox := r.inbox ++ [e] } := by
  unfold post
  have hopen : g.isOpen (some i) = true := by simp [isOpen, hr, ho]
  rw [if_pos hopen, replicas_wake]
  simp [update, Array.getElem?_modify, hr]

theorem getElem?_send {dest : Addr} {m : Message} (hm : m.Fits) (hd : g.network.get? dest = some (some i))
    (hr : g.replicas[i]? = some r) (ho : r.running = true) :
    (g.send dest m).replicas[i]? = some { r with inbox := r.inbox ++ [.message m] } := by
  have hopen : g.isOpen (some i) = true := by simp [isOpen, hr, ho]
  unfold send
  rw [Network.route_of_fits hm hd hopen]
  exact getElem?_post hr ho _

end Group

namespace Wire

/-- The wire format loses nothing and is self-delimiting. As long as all lengths and numbers fit into the width
    that they are written in, every message and all entries are read back from their encoding whatever follows it,
    and every proper part of the encoding is found too short. The encoding is laid out as the format says. So a
    message that is sent to a registered address whose inbox takes events arrives there unchanged. -/
theorem wire_is_lossless_and_self_delimiting :
    (∀ m : Message, m.Fits →
      Delimits decodeMessage (encodeMessage m) m ∧
      encodeMessage m = m.datum.layout ∧
      (∀ (ι : Type) (net : Network ι) (isOpen : ι → Bool) (dest : Addr) (inbox : ι), net.get? dest = some inbox →
        isOpen inbox = true → net.route isOpen dest m = .ok (inbox, m)) ∧
      ∀ (g : Group) (dest : Addr) (i : Nat) (r : Replica), g.network.get? dest = some (some i) →
        g.replicas[i]? = some r → r.running = true →
          (g.send dest m).replicas[i]? = some { r with inbox := r.inbox ++ [.message m] }) ∧
    ∀ es : Entries, es.length < 2 ^ 64 → (∀ e ∈ es, e.1.Fits ∧ e.2.length < 2 ^ 64) →
      Delimits decodeEntries (encodeEntries es) es ∧ encodeEntries es = es.datum.layout := by
  refine ⟨?_, ?_⟩
  · intro m hm
    refine ⟨(reads_message hm).delimits patient_message, (layout_message m).symm, ?_, ?_⟩
    · intro ι net isOpen dest inbox hd ho
      exact Network.route_of_fits hm hd ho
    · intro g dest i r hd hr ho
      exact Group.getElem?_send hm hd hr ho
  · intro es hcount hparts
    exact ⟨(reads_entries_of_lengths hcount hparts).delimits patient_entries, (layout_entries es).symm⟩

/-- The announcement of a transfer from an IPv6 address, of a range without upper end, that lacks the snapshot. -/
def partialAnnouncement : Message :=
  .initiate ⟨⟨9⟩, .socket (.v6 0xfe80 0 0 0 0 0 0 1) 8080, ⟨.excluded ⟨[97]⟩, .unbounded⟩, ⟨none, some 2⟩⟩

/-- A group of one replica that takes events. -/
def soloGroup : Group where
  config := default
  range := .full
  draw _ n := .ofNat n
  replicas := #[{ addr := .name "a", client := default }]
  network := .insert .empty (.name "a") (some 0)

/-- The announcement takes 61 bytes, which are too few without the last one, and arrives as it is. -/
theorem partial_announcement_arrives :
    (encodeMessage partialAnnouncement).length = 61 ∧
      decodeMessage.run ((encodeMessage partialAnnouncement).take 60) = .error .tooShort ∧
      decodeMessage.run (encodeMessage partialAnnouncement ++ [255]) = .ok (partialAnnouncement, [255]) ∧
      ((soloGroup.send (.name "a") partialAnnouncement).replicas[0]?.map (·.inbox.length)) = some 1 ∧
      Delimits decodeEntries (encodeEntries [(⟨[97]⟩, [49])]) [(⟨[97]⟩, [49])] := by
  have hfits : partialAnnouncement.Fits := by
    refine ⟨trivial, ⟨?_, trivial⟩, ?_⟩
    · show 1 < 2 ^ 64
      decide
    · intro p hp
      cases hp
  obtain ⟨hmessages, hentries⟩ := wire_is_lossless_and_self_delimiting
  obtain ⟨hdelimits, -, -, hsend⟩ := hmessages partialAnnouncement hfits
  refine ⟨by decide, ?_, hdelimits.reads _, ?_, (hentries [(⟨[97]⟩, [49])] (by decide) ?_).1⟩
  · exact hdelimits.waits _ (List.take_prefix _ _) (by decide)
  · rw [hsend soloGroup (.name "a") 0 { addr := .name "a", client := default } (by decide) rfl rfl]
    rfl
  · intro e he
    obtain rfl := List.mem_singleton.mp he
    exact ⟨show 1 < 2 ^ 64 by decide, show 1 < 2 ^ 64 by decide⟩

end Wire
end ReplicaGroup
