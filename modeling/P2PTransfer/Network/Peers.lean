import P2PTransfer.Network.Discovery

/-!
# The peers of the Rust service

The listener and the cleanup task of `DiscoveryService` change one map. Whatever the order of
datagrams and cleanups, the entry of an address is a function of the beacons that were heard
from it since the entry was made. It has the name in the first of them, the version of this
build, and the last id that one of them carried.

## Main definitions

- `PeerTable.cleanup` — one turn of the cleanup task
- `peersAfter` — the map after a history of datagrams and cleanups
- `heard`, `sinceMade` — the beacons from an address, and those since its entry was made

## Main results

- `peersAfter_eq` — the map from the beacons
- `reflects_iff` — when the entries are those of the latest beacons
- `keys_after_cleanup` — a cleanup leaves the addresses heard from within the timeout
-/

namespace P2PTransfer.Discovery

def peerTimeoutSecs : Nat := 30

/-- `saturating_sub` is the subtraction of natural numbers. -/
def PeerInfo.isStale (peer : PeerInfo) (timeout now : Nat) : Bool :=
  decide (timeout < now - peer.lastSeenEpoch)

/-- The `retain` of the cleanup task. -/
def PeerTable.cleanup (peers : PeerTable) (now : Nat) : PeerTable := fun addr =>
  (peers addr).filter fun peer => !peer.isStale peerTimeoutSecs now

/-- What changes the map: a datagram from an ip, or the timer of the cleanup task, at a second
of the clock. -/
inductive Event where
  | datagram (now : Nat) (src : Text) (d : Datagram)
  | cleanup (now : Nat)

def Event.time : Event → Nat
  | .datagram now _ _ | .cleanup now => now

def PeerTable.apply (peers : PeerTable) : Event → PeerTable
  | .datagram now src d => peers.receive now src d
  | .cleanup now => peers.cleanup now

/-- The map of a service that was started with no peers. -/
def peersAfter (history : List Event) : PeerTable :=
  history.foldl PeerTable.apply fun _ => none

/-- The beacon in a datagram that the listener can read. -/
def Datagram.beacon (d : Datagram) : Option Beacon :=
  if d.length ≤ 2048 then Beacon.ofJson d.object else none

/-- The beacon of an event, if it comes from this ip and advertises this port. -/
def Event.beaconFrom (addr : SocketAddr) : Event → Option (Nat × Beacon)
  | .datagram now src d =>
    d.beacon.bind fun b => if (⟨src, b.tcpPort⟩ : SocketAddr) = addr then some (now, b) else none
  | .cleanup _ => none

/-- The beacons from an address, with their seconds. -/
def heard (addr : SocketAddr) (history : List Event) : List (Nat × Beacon) :=
  history.filterMap (Event.beaconFrom addr)

/-- One event over the beacons since the entry was made. A cleanup that finds the last of them
too old begins anew. -/
def sinceStep (addr : SocketAddr) (beacons : List (Nat × Beacon)) (e : Event) :
    List (Nat × Beacon) :=
  match e with
  | .datagram _ _ _ => beacons ++ (e.beaconFrom addr).toList
  | .cleanup now =>
    match beacons.getLast? with
    | some last => if now - last.1 ≤ peerTimeoutSecs then beacons else []
    | none => []

/-- The beacons from an address since its entry was made. -/
def sinceMade (addr : SocketAddr) (history : List Event) : List (Nat × Beacon) :=
  history.foldl (sinceStep addr) []

/-- The last id that one of the beacons carried. -/
def latestId (beacons : List (Nat × Beacon)) : Option Text :=
  (beacons.filterMap fun b => b.2.nodeId).getLast?

/-- The entry of an address from the beacons since it was made. -/
def entryOf (addr : SocketAddr) (beacons : List (Nat × Beacon)) : Option PeerInfo :=
  beacons.head?.bind fun first => beacons.getLast?.map fun last =>
    { deviceName := first.2.deviceName, tcpPort := addr.port, socketAddr := addr,
      lastSeenEpoch := last.1, nodeId := latestId beacons }

theorem latestId_snoc (beacons : List (Nat × Beacon)) (b : Nat × Beacon) :
    latestId (beacons ++ [b]) = (b.2.nodeId <|> latestId beacons) := by
  rw [latestId, List.filterMap_append]
  cases hid : b.2.nodeId <;> simp [hid, latestId]

theorem entryOf_isSome {addr : SocketAddr} {beacons : List (Nat × Beacon)} :
    (entryOf addr beacons).isSome ↔ beacons ≠ [] := by
  cases beacons with
  | nil => simp [entryOf]
  | cons b bs => simp [entryOf, List.getLast?_cons]

theorem receive_of_none {peers : PeerTable} {d : Datagram} (h : d.beacon = none) (now : Nat)
    (src : Text) : peers.receive now src d = peers := by
  rw [Datagram.beacon] at h
  rw [PeerTable.receive, h]

theorem receive_of_some {peers : PeerTable} {d : Datagram} {b : Beacon} (h : d.beacon = some b)
    (now : Nat) (src : Text) : peers.receive now src d =
      Function.update peers ⟨src, b.tcpPort⟩
        (some (b.entry ⟨src, b.tcpPort⟩ now (peers ⟨src, b.tcpPort⟩))) := by
  rw [Datagram.beacon] at h
  rw [PeerTable.receive, h]

/-- One event on one entry. -/
theorem apply_entryOf {peers : PeerTable} {addr : SocketAddr} {beacons : List (Nat × Beacon)}
    (h : peers addr = entryOf addr beacons) (e : Event) :
    peers.apply e addr = entryOf addr (sinceStep addr beacons e) := by
  cases e with
  | datagram now src d =>
    rw [PeerTable.apply, sinceStep, Event.beaconFrom]
    cases hb : d.beacon with
    | none =>
      rw [receive_of_none hb]
      simpa using h
    | some b =>
      rw [receive_of_some hb]
      simp only [Option.bind_some]
      by_cases haddr : (⟨src, b.tcpPort⟩ : SocketAddr) = addr
      · subst haddr
        rw [Function.update_self, if_pos rfl, h]
        cases beacons with
        | nil => cases b.nodeId <;> simp [entryOf, Beacon.entry, latestId]
        | cons first rest =>
          have hlast := latestId_snoc (first :: rest) (now, b)
          rw [List.cons_append] at hlast
          simp [entryOf, Beacon.entry, List.getLast?_cons, hlast]
      · rw [Function.update_of_ne (Ne.symm haddr), if_neg haddr]
        simpa using h
  | cleanup now =>
    have hcleanup : peers.apply (.cleanup now) addr =
      (peers addr).filter fun peer => !peer.isStale peerTimeoutSecs now := rfl
    rw [hcleanup, h, sinceStep]
    cases hlast : beacons.getLast? with
    | none =>
      obtain rfl := List.getLast?_eq_none_iff.mp hlast
      rfl
    | some last =>
      dsimp only
      obtain ⟨first, hfirst⟩ : ∃ first, beacons.head? = some first := by
        cases beacons with
        | nil => cases hlast
        | cons first rest => exact ⟨first, rfl⟩
      split
      · next hfresh =>
        simp only [entryOf, hfirst, hlast, Option.bind_some, Option.map_some]
        rw [Option.filter_some, if_pos]
        simpa [PeerInfo.isStale] using hfresh
      · next hstale =>
        simp only [entryOf, hfirst, hlast, Option.bind_some, Option.map_some]
        rw [Option.filter_some, if_neg]
        · rfl
        · simpa [PeerInfo.isStale] using hstale

theorem sinceMade_snoc (addr : SocketAddr) (history : List Event) (e : Event) :
    sinceMade addr (history ++ [e]) = sinceStep addr (sinceMade addr history) e := by
  rw [sinceMade, List.foldl_append]
  rfl

theorem heard_snoc (addr : SocketAddr) (history : List Event) (e : Event) :
    heard addr (history ++ [e]) = heard addr history ++ (e.beaconFrom addr).toList := by
  rw [heard, List.filterMap_append]
  cases hb : e.beaconFrom addr <;> simp [hb, heard]

/-- **The map.** Every entry comes from the beacons since it was made. -/
theorem peersAfter_eq (history : List Event) (addr : SocketAddr) :
    peersAfter history addr = entryOf addr (sinceMade addr history) := by
  induction history using List.reverseRecOn with
  | nil => rfl
  | append_singleton history e ih =>
    rw [sinceMade_snoc, peersAfter, List.foldl_append]
    exact apply_entryOf ih e

/-- The beacons since an entry was made are the last ones that were heard. -/
theorem sinceMade_suffix (addr : SocketAddr) (history : List Event) :
    sinceMade addr history <:+ heard addr history := by
  induction history using List.reverseRecOn with
  | nil => exact List.nil_suffix
  | append_singleton history e ih =>
    obtain ⟨before, hbefore⟩ := ih
    rw [sinceMade_snoc, heard_snoc, ← hbefore]
    cases e with
    | datagram now src d => exact ⟨before, by rw [sinceStep, List.append_assoc]⟩
    | cleanup now =>
      rw [sinceStep, Event.beaconFrom, Option.toList_none, List.append_nil]
      split
      · split
        · exact List.suffix_append _ _
        · exact List.nil_suffix
      · exact List.nil_suffix

/-- The last of the beacons since an entry was made is the last one that was heard. -/
theorem getLast?_sinceMade {addr : SocketAddr} {history : List Event}
    (h : sinceMade addr history ≠ []) :
    (sinceMade addr history).getLast? = (heard addr history).getLast? := by
  obtain ⟨before, hbefore⟩ := sinceMade_suffix addr history
  rw [← hbefore, List.getLast?_append]
  cases hlast : (sinceMade addr history).getLast? with
  | none => exact absurd (List.getLast?_eq_none_iff.mp hlast) h
  | some last => rfl

/-- What an entry should say: what the last beacon from its address said, and the last id since
the entry was made. -/
def Reflects (history : List Event) (addr : SocketAddr) (peer : PeerInfo) : Prop :=
  ∃ last, (heard addr history).getLast? = some last ∧ peer.deviceName = last.2.deviceName ∧
    peer.tcpPort = last.2.tcpPort ∧ peer.p2ptransferVersion = last.2.p2ptransferVersion ∧
    peer.nodeId = latestId (sinceMade addr history)

/-- Every beacon that is heard advertises the port of the address. -/
theorem port_of_mem_heard {addr : SocketAddr} {history : List Event} {b : Nat × Beacon}
    (h : b ∈ heard addr history) : b.2.tcpPort = addr.port := by
  obtain ⟨e, -, he⟩ := List.mem_filterMap.mp h
  cases e with
  | datagram now src d =>
    obtain ⟨beacon, -, hb⟩ := Option.bind_eq_some_iff.mp he
    split at hb
    · next haddr =>
      obtain rfl := Option.some.inj hb
      rw [← haddr]
    · cases hb
  | cleanup now => cases he

/-- **Names and versions.** The entries are those of the latest beacons exactly when each of these
carries the version of this build and the name of the beacon that made the entry. -/
theorem reflects_iff (history : List Event) :
    (∀ addr peer, peersAfter history addr = some peer → Reflects history addr peer) ↔
      ∀ addr first last, (sinceMade addr history).head? = some first →
        (heard addr history).getLast? = some last →
        last.2.deviceName = first.2.deviceName ∧ last.2.p2ptransferVersion = cargoPkgVersion := by
  constructor
  · intro h addr first last hfirst hlast
    have hne : sinceMade addr history ≠ [] := by
      rintro hnil
      rw [hnil] at hfirst
      cases hfirst
    have hpeer : peersAfter history addr = some
        { deviceName := first.2.deviceName, tcpPort := addr.port, socketAddr := addr,
          lastSeenEpoch := last.1, nodeId := latestId (sinceMade addr history) } := by
      rw [peersAfter_eq, entryOf, hfirst, getLast?_sinceMade hne, hlast]
      rfl
    obtain ⟨last', hlast', hname, -, hversion, -⟩ := h addr _ hpeer
    obtain rfl := Option.some.inj (hlast.symm.trans hlast')
    exact ⟨hname.symm, hversion.symm⟩
  · intro h addr peer hpeer
    rw [peersAfter_eq] at hpeer
    obtain ⟨first, hfirst, hpeer⟩ := Option.bind_eq_some_iff.mp hpeer
    obtain ⟨last, hlast, rfl⟩ := Option.map_eq_some_iff.mp hpeer
    have hne : sinceMade addr history ≠ [] := by
      rintro hnil
      rw [hnil] at hfirst
      cases hfirst
    rw [getLast?_sinceMade hne] at hlast
    obtain ⟨hname, hversion⟩ := h addr first last hfirst hlast
    exact ⟨last, hlast, hname.symm, (port_of_mem_heard (List.mem_of_getLast? hlast)).symm,
      hversion.symm, rfl⟩

def sampleAddr : SocketAddr := ⟨"10.0.0.2".toList, 9877⟩

/-- A beacon of this build from one address. -/
def sampleEvent (now : Nat) (name : Text) : Event :=
  .datagram now sampleAddr.ip ⟨(startBeacon name sampleAddr.port none).toJson, 100⟩

theorem beaconFrom_sampleEvent (now : Nat) (name : Text) :
    (sampleEvent now name).beaconFrom sampleAddr =
      some (now, startBeacon name sampleAddr.port none) := by
  rw [sampleEvent, Event.beaconFrom, Datagram.beacon, if_pos (by simp), Beacon.ofJson_toJson,
    Option.bind_some]
  exact if_pos rfl

/-- Two beacons from one address: the device has been renamed in between. -/
def renamed : List Event := [sampleEvent 0 "desk".toList, sampleEvent 5 "lamp".toList]

theorem heard_renamed : heard sampleAddr renamed =
    [(0, startBeacon "desk".toList sampleAddr.port none),
      (5, startBeacon "lamp".toList sampleAddr.port none)] := by
  rw [heard, renamed, List.filterMap_cons, beaconFrom_sampleEvent, List.filterMap_cons,
    beaconFrom_sampleEvent]
  rfl

theorem sinceMade_renamed : sinceMade sampleAddr renamed = heard sampleAddr renamed := by
  rw [heard_renamed, sinceMade, renamed, List.foldl_cons, List.foldl_cons, List.foldl_nil]
  show ([] ++ ((sampleEvent 0 _).beaconFrom sampleAddr).toList) ++
    ((sampleEvent 5 _).beaconFrom sampleAddr).toList = _
  rw [beaconFrom_sampleEvent, beaconFrom_sampleEvent]
  rfl

theorem renamed_not_reflects :
    ¬ ∀ history addr peer, peersAfter history addr = some peer → Reflects history addr peer := by
  intro h
  have hpeer : peersAfter renamed sampleAddr = some
      { deviceName := "desk".toList, tcpPort := sampleAddr.port, socketAddr := sampleAddr,
        lastSeenEpoch := 5 } := by
    rw [peersAfter_eq, sinceMade_renamed, heard_renamed]
    rfl
  obtain ⟨last, hlast, hname, -⟩ := h _ _ _ hpeer
  rw [heard_renamed] at hlast
  obtain rfl := Option.some.inj hlast
  exact absurd hname (by decide)

/-- A beacon that is young enough has not been forgotten. -/
theorem sinceMade_ne_nil {addr : SocketAddr} {history : List Event} {last : Nat × Beacon} {t : Nat}
    (htime : ∀ e ∈ history, e.time ≤ t) (hlast : (heard addr history).getLast? = some last)
    (hfresh : t ≤ last.1 + peerTimeoutSecs) : sinceMade addr history ≠ [] := by
  induction history using List.reverseRecOn with
  | nil => cases hlast
  | append_singleton history e ih =>
    have hbefore : ∀ e ∈ history, e.time ≤ t := fun e he => htime e (List.mem_append_left _ he)
    rw [heard_snoc] at hlast
    rw [sinceMade_snoc]
    cases e with
    | datagram now src d =>
      rw [sinceStep]
      cases hb : (Event.datagram now src d).beaconFrom addr with
      | some b => simp
      | none =>
        rw [hb, Option.toList_none, List.append_nil] at hlast
        rw [Option.toList_none, List.append_nil]
        exact ih hbefore hlast
    | cleanup now =>
      rw [Event.beaconFrom, Option.toList_none, List.append_nil] at hlast
      have hne := ih hbefore hlast
      have hnow : now ≤ t := htime (.cleanup now) (by simp)
      rw [sinceStep, getLast?_sinceMade hne, hlast]
      dsimp only
      rwa [if_pos (by omega)]

/-- **The live peers.** Under a clock that does not go back, the keys after a cleanup are the
addresses whose last beacon came within the timeout, and each is that of its entry. -/
theorem keys_after_cleanup (history : List Event) (t : Nat)
    (hclock : (history ++ [Event.cleanup t]).Pairwise fun e e' : Event => e.time ≤ e'.time) :
    (∀ addr, (peersAfter (history ++ [.cleanup t]) addr).isSome ↔
      ∃ last, (heard addr history).getLast? = some last ∧ (t : Int) - 30 ≤ last.1) ∧
    ∀ addr peer, peersAfter (history ++ [.cleanup t]) addr = some peer → peer.socketAddr = addr := by
  have htime : ∀ e ∈ history, e.time ≤ t := fun e he =>
    (List.pairwise_append.mp hclock).2.2 e he (.cleanup t) (List.mem_singleton_self _)
  refine ⟨fun addr => ?_, fun addr peer hpeer => ?_⟩
  · rw [peersAfter_eq, entryOf_isSome, sinceMade_snoc, sinceStep]
    constructor
    · intro h
      split at h
      · next last hlast =>
        split at h
        · next hfresh =>
          rw [getLast?_sinceMade h] at hlast
          unfold peerTimeoutSecs at hfresh
          exact ⟨last, hlast, by omega⟩
        · exact absurd rfl h
      · exact absurd rfl h
    · rintro ⟨last, hlast, hfresh⟩
      have hyoung : t ≤ last.1 + peerTimeoutSecs := by
        unfold peerTimeoutSecs
        omega
      have hne := sinceMade_ne_nil htime hlast hyoung
      rw [getLast?_sinceMade hne, hlast]
      dsimp only
      rwa [if_pos (by omega)]
  · rw [peersAfter_eq] at hpeer
    obtain ⟨first, -, hpeer⟩ := Option.bind_eq_some_iff.mp hpeer
    obtain ⟨last, -, rfl⟩ := Option.map_eq_some_iff.mp hpeer
    rfl

/-- At second 30 after its last beacon a peer is kept, and at second 31 it is not. -/
theorem keys_at_timeout :
    (peersAfter (renamed ++ [.cleanup 35]) sampleAddr).isSome ∧
    ¬ (peersAfter (renamed ++ [.cleanup 36]) sampleAddr).isSome := by
  constructor
  · refine ((keys_after_cleanup renamed 35 (by simp [renamed, sampleEvent, Event.time])).1 _).mpr ?_
    rw [heard_renamed]
    exact ⟨_, rfl, by decide⟩
  · intro h
    obtain ⟨last, hlast, hfresh⟩ := ((keys_after_cleanup renamed 36
      (by simp [renamed, sampleEvent, Event.time])).1 _).mp h
    rw [heard_renamed] at hlast
    obtain rfl := Option.some.inj hlast
    exact absurd hfresh (by decide)

end P2PTransfer.Discovery
