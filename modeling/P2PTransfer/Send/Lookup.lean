import P2PTransfer.Network.Discovery
import P2PTransfer.Transfer.Resume

/-!
# The LAN lookup of a contact

Three commands of the desktop program and the mobile `send_file` look for a contact among
the discovered peers. Each takes the first peer, in the order of an unordered map, that has
the name or the id it looks for. The mobile function is given an id only, and looks for it
under both.

## Main definitions

- `findPeer` — the search that the four share
- `Site.lookup` — what each of them does before and in it
- `Resolves` — the chosen peer is the contact's own device
- `Unambiguous` — nobody else bears the name

## Main results

- `resolves_iff` — the lookup is right in every order exactly when the peers are
  unambiguous
-/

namespace P2PTransfer.Discovery

/-- `eq_ignore_ascii_case`. -/
def eqIgnoreAsciiCase (s t : Text) : Bool := decide (s.map Char.toLower = t.map Char.toLower)

-- the upper-case mapping of single characters
variable (upper : Char → Text)

namespace PeerInfo

/-- The peer announces the id, in its normal form. -/
def carries (p : PeerInfo) (normId : Text) : Bool :=
  p.nodeId.any fun id => decide (normalizeNodeId upper id = normId)

def named (p : PeerInfo) (name : Text) : Bool := eqIgnoreAsciiCase p.deviceName name

end PeerInfo

/-- The search in the order in which the map gives the peers. -/
def findPeer (name id : Text) (peers : List PeerInfo) : Option PeerInfo :=
  peers.find? fun p => p.named name || p.carries upper (normalizeNodeId upper id)

inductive Site where
  | sendToContact
  | addContact
  | listContacts
  | mobileSendFile
deriving DecidableEq

namespace Site

/-- Whether the command goes on to its lookup. `add_contact` wants eight hexadecimal digits
of the id it normalises, `derive_secret_key_from_short_id` of the id as it is. -/
def admits (c : Resume.Contact) : Site → Bool
  | .sendToContact | .listContacts => true
  | .addContact => isShortId (normalizeNodeId upper c.peerId)
  | .mobileSendFile => isShortId (toUppercase upper (trim c.peerId))

/-- The name that the lookup compares with. -/
def soughtName (c : Resume.Contact) : Site → Text
  | .mobileSendFile => c.peerId
  | _ => c.name

/-- The lookup, if it is made. The id of `add_contact` has been normalised before. -/
def lookup (c : Resume.Contact) (peers : List PeerInfo) (site : Site) : Option (Option PeerInfo) :=
  if site.admits upper c then some (findPeer upper (site.soughtName c) c.peerId peers) else none

end Site

/-- The chosen peer has the contact's id or none, and has it if some peer does. -/
structure Resolves (c : Resume.Contact) (peers : List PeerInfo) (chosen : Option PeerInfo) : Prop where
  own : ∀ p, chosen = some p → p.nodeId = none ∨ p.carries upper (normalizeNodeId upper c.peerId)
  found : (∃ p ∈ peers, p.carries upper (normalizeNodeId upper c.peerId)) →
    ∃ p, chosen = some p ∧ p.carries upper (normalizeNodeId upper c.peerId)

/-- Who bears the name that is looked for has the id, or has none while nobody has it. -/
def Unambiguous (c : Resume.Contact) (peers : List PeerInfo) (name : Text) : Prop :=
  ∀ p ∈ peers, p.named name → p.carries upper (normalizeNodeId upper c.peerId) ∨
    p.nodeId = none ∧ ∀ q ∈ peers, ¬ q.carries upper (normalizeNodeId upper c.peerId)

variable {upper : Char → Text} {c : Resume.Contact} {peers order : List PeerInfo} {name : Text}

theorem findPeer_eq_some {id : Text} {p : PeerInfo} (h : findPeer upper name id peers = some p) :
    p ∈ peers ∧ (p.named name ∨ p.carries upper (normalizeNodeId upper id)) := by
  refine ⟨List.mem_of_find?_eq_some h, ?_⟩
  simpa using List.find?_some h

/-- Some peer with the id makes the search find one. -/
theorem exists_findPeer (name : Text) {id : Text} {q : PeerInfo} (hq : q ∈ peers)
    (hid : q.carries upper (normalizeNodeId upper id)) :
    ∃ p, findPeer upper name id peers = some p := by
  apply Option.isSome_iff_exists.mp
  rw [findPeer, List.find?_isSome]
  exact ⟨q, hq, by rw [hid, Bool.or_true]⟩

/-- Among unambiguous peers every order gives the contact's own device. -/
theorem Unambiguous.resolves (h : Unambiguous upper c peers name) (horder : order.Perm peers) :
    Resolves upper c order (findPeer upper name c.peerId order) where
  own p hp := by
    obtain ⟨hmem, hnamed | hid⟩ := findPeer_eq_some hp
    · rcases h p (horder.mem_iff.mp hmem) hnamed with hid | ⟨hnone, -⟩
      · exact .inr hid
      · exact .inl hnone
    · exact .inr hid
  found := by
    rintro ⟨q, hq, hqid⟩
    obtain ⟨p, hp⟩ := exists_findPeer name hq hqid
    refine ⟨p, hp, ?_⟩
    obtain ⟨hmem, hnamed | hid⟩ := findPeer_eq_some hp
    · rcases h p (horder.mem_iff.mp hmem) hnamed with hid | ⟨-, hnobody⟩
      · exact hid
      · exact absurd hqid (hnobody q (horder.mem_iff.mp hq))
    · exact hid

/-- A peer that bears the name is chosen in the orders that begin with it. -/
theorem unambiguous_of_resolves
    (h : ∀ order, order.Perm peers →
      Resolves upper c order (findPeer upper name c.peerId order)) :
    Unambiguous upper c peers name := by
  intro p hp hnamed
  have horder : (p :: peers.erase p).Perm peers := (List.perm_cons_erase hp).symm
  have hchosen : findPeer upper name c.peerId (p :: peers.erase p) = some p := by
    apply List.find?_cons_of_pos
    rw [hnamed, Bool.true_or]
  have hresolves := h _ horder
  rw [hchosen] at hresolves
  by_cases hid : p.carries upper (normalizeNodeId upper c.peerId) = true
  · exact .inl hid
  · refine .inr ⟨?_, fun q hq hqid => ?_⟩
    · exact (hresolves.own p rfl).resolve_right hid
    · obtain ⟨p', hp', hid'⟩ := hresolves.found ⟨q, horder.mem_iff.mpr hq, hqid⟩
      obtain rfl := Option.some.inj hp'
      exact hid hid'

/-- **The lookup resolves a contact to its own device in every order of the peers** exactly
when it is not made, or the peers are unambiguous. -/
theorem resolves_iff (upper : Char → Text) (site : Site) (c : Resume.Contact) (peers : List PeerInfo) :
    (∀ order, order.Perm peers → ∀ chosen, site.lookup upper c order = some chosen →
      Resolves upper c order chosen) ↔
    site.admits upper c = false ∨ Unambiguous upper c peers (site.soughtName c) := by
  cases hadmits : site.admits upper c with
  | false =>
    simp only [Site.lookup, hadmits, true_or, iff_true]
    intro order _ chosen h
    exact absurd h nofun
  | true =>
    simp only [Site.lookup, hadmits, if_true, Option.some.injEq, forall_eq', Bool.true_eq_false,
      false_or]
    constructor
    · exact unambiguous_of_resolves
    · exact fun h order horder => h.resolves horder

/-- A laptop of somebody else, with the name of the contact's. -/
def namesake : PeerInfo where
  deviceName := "Laptop".toList
  tcpPort := 9877
  socketAddr := ⟨"192.168.0.7".toList, 9877⟩
  lastSeenEpoch := 0
  nodeId := some "DEADBEEF".toList

/-- The laptop in the contact book. -/
def laptop : Resume.Contact where
  name := "laptop".toList
  peerId := "A1B2C3D4".toList
  lastKnownIp := "192.168.0.2".toList
  lastKnownPort := 9877
  lastSeen := 0

/-- The namesake is what `send_to_contact` takes for the contact. -/
theorem namesake_chosen :
    ¬ ∀ order, order.Perm [namesake] → ∀ chosen,
      Site.sendToContact.lookup (fun c => [c.toUpper]) laptop order = some chosen →
      Resolves (fun c => [c.toUpper]) laptop order chosen := by
  intro h
  have hchosen := h [namesake] (.refl _) (some namesake) (by decide)
  rcases hchosen.own namesake rfl with hnone | hid
  · exact absurd hnone nofun
  · exact absurd hid (by decide)

end P2PTransfer.Discovery
