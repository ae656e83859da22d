import P2PTransfer.Transfer.Metadata

/-!
# The beacons of LAN discovery

A device tells the network its name, its port and its id in a JSON object. The desktop
programs and the Rust part of the mobile app speak through `DiscoveryService`, the Dart
part of the mobile app through a service of its own. A JSON codec takes an object to a
text and the text back to the object; a text that was cut is no object.

## Main definitions

- `Beacon.toJson`, `Beacon.ofJson` — the object of the Rust service
- `PeerTable.receive` — the listener of the Rust service
- `sendBeacon`, `handleDatagram` — the Dart service
- `normalizeNodeId`, `normaliseKey` — the two normal forms of an id

## Main results

- `Beacon.ofJson_toJson` — the Rust service reads its own beacons
- `id_lost` — neither side reads the id of the other
-/

namespace P2PTransfer.Discovery

/-- The field names that some beacon has or some reader looks for. -/
inductive Key where
  | deviceName
  | version
  | tcpPort
  | nodeId
  | deviceId
deriving DecidableEq

def Key.text : Key → Text
  | .deviceName => "device_name".toList
  | .version => "p2ptransfer_version".toList
  | .tcpPort => "tcp_port".toList
  | .nodeId => "node_id".toList
  | .deviceId => "device_id".toList

theorem Key.text_injective : Function.Injective Key.text := by
  intro a b h
  cases a <;> cases b <;> first | rfl | exact absurd h (by decide)

/-- The values of the fields. Fractions, lists and objects are `other`. -/
inductive JsonValue where
  | null
  | bool (b : Bool)
  | integer (n : Int)
  | string (t : Text)
  | other
deriving DecidableEq

/-- The fields of an object, in the order of the text. -/
abbrev JsonObject := List (Key × JsonValue)

/-- A datagram that holds the text of an object in `length` bytes. -/
structure Datagram where
  object : JsonObject
  length : Nat

structure SocketAddr where
  ip : Text
  port : UInt16
deriving DecidableEq

/-! ### Ids -/

/-- The `White_Space` property. -/
def isWhitespace (c : Char) : Bool :=
  let n := c.toNat
  decide ((0x09 ≤ n ∧ n ≤ 0x0D) ∨ n = 0x20 ∨ n = 0x85 ∨ n = 0xA0 ∨ n = 0x1680 ∨
    (0x2000 ≤ n ∧ n ≤ 0x200A) ∨ n = 0x2028 ∨ n = 0x2029 ∨ n = 0x202F ∨ n = 0x205F ∨ n = 0x3000)

def trim (t : Text) : Text := (t.dropWhile isWhitespace).rdropWhile isWhitespace

/-- `replace("-", "")`. -/
def withoutDashes (t : Text) : Text := t.filter (· ≠ '-')

/-- Eight bytes, all of them hexadecimal digits. -/
def isShortId (id : Text) : Bool :=
  decide (id.length = 8) && id.all fun c =>
    c.isDigit || decide (('a' ≤ c ∧ c ≤ 'f') ∨ ('A' ≤ c ∧ c ≤ 'F'))

-- the upper-case mapping of single characters, which may give several
variable (upper : Char → Text)

def toUppercase (t : Text) : Text := t.flatMap upper

/-- `normalize_node_id`. -/
def normalizeNodeId (id : Text) : Text := toUppercase upper (trim (withoutDashes id))

/-- `_normaliseKey`, on text in which every character is one code unit. -/
def normaliseKey (raw : Text) : Text :=
  let clean := toUppercase upper (withoutDashes raw)
  if 8 ≤ clean.length then clean.take 4 ++ '-' :: (clean.drop 4).take 4 else clean

/-! ### The Rust service -/

structure Beacon where
  deviceName : Text
  p2ptransferVersion : Text
  tcpPort : UInt16
  nodeId : Option Text
deriving DecidableEq

/-- `CARGO_PKG_VERSION`. -/
def cargoPkgVersion : Text := "0.1.0".toList

/-- An optional text is a string or null. -/
def jsonOfOption : Option Text → JsonValue
  | some t => .string t
  | none => .null

/-- An optional text that is absent from the object is null. -/
def optionField (o : JsonObject) (key : Key) : Option (Option Text) :=
  match o.lookup key with
  | none | some .null => some none
  | some (.string t) => some (some t)
  | _ => none

namespace Beacon

/-- The derived `Serialize`. -/
def toJson (b : Beacon) : JsonObject :=
  [(.deviceName, .string b.deviceName), (.version, .string b.p2ptransferVersion),
    (.tcpPort, .integer b.tcpPort.toNat), (.nodeId, jsonOfOption b.nodeId)]

/-- A required field of type `String`. -/
def stringField (o : JsonObject) (key : Key) : Option Text :=
  match o.lookup key with
  | some (.string t) => some t
  | _ => none

/-- A required field of type `u16`. -/
def u16Field (o : JsonObject) (key : Key) : Option UInt16 :=
  match o.lookup key with
  | some (.integer n) => if 0 ≤ n ∧ n < 2 ^ 16 then some (UInt16.ofNat n.toNat) else none
  | _ => none

/-- The derived `Deserialize`. Fields that it does not know are skipped. -/
def ofJson (o : JsonObject) : Option Beacon := do
  let deviceName ← stringField o .deviceName
  let version ← stringField o .version
  let tcpPort ← u16Field o .tcpPort
  let nodeId ← optionField o .nodeId
  return ⟨deviceName, version, tcpPort, nodeId⟩

end Beacon

/-- The beacon of `DiscoveryService::start`. -/
def startBeacon (deviceName : Text) (tcpPort : UInt16) (nodeId : Option Text) : Beacon :=
  ⟨deviceName, cargoPkgVersion, tcpPort, nodeId⟩

structure PeerInfo where
  deviceName : Text
  p2ptransferVersion : Text := cargoPkgVersion
  tcpPort : UInt16
  socketAddr : SocketAddr
  lastSeenEpoch : Nat
  nodeId : Option Text := none
deriving DecidableEq

/-- The map of the listener. -/
abbrev PeerTable := SocketAddr → Option PeerInfo

/-- What a beacon from an address makes of the entry of that address. -/
def Beacon.entry (b : Beacon) (addr : SocketAddr) (now : Nat) : Option PeerInfo → PeerInfo
  | some peer => { peer with lastSeenEpoch := now, nodeId := b.nodeId <|> peer.nodeId }
  | none =>
    { deviceName := b.deviceName, tcpPort := b.tcpPort, socketAddr := addr, lastSeenEpoch := now,
      nodeId := b.nodeId }

/-- One turn of the listener, which reads at most 2048 bytes of a datagram. -/
def PeerTable.receive (peers : PeerTable) (now : Nat) (src : Text) (d : Datagram) : PeerTable :=
  match if d.length ≤ 2048 then Beacon.ofJson d.object else none with
  | some b =>
    let addr : SocketAddr := ⟨src, b.tcpPort⟩
    Function.update peers addr (some (b.entry addr now (peers addr)))
  | none => peers

/-! ### The Dart service -/

structure DiscoveredPeer where
  deviceName : Text
  address : Text
  port : Int
  deviceId : Option Text
deriving DecidableEq

/-- The object of `_sendBeacon`. The id is that of `DeviceIdentityService.deviceId`. -/
def sendBeacon (deviceName localHostname : Text) (tcpPort : Int) (shortId : Option Text) :
    JsonObject :=
  let deviceId := shortId.map fun id =>
    if id.length = 8 then id.take 4 ++ '-' :: id.drop 4 else id
  [(.deviceName, .string (if deviceName ≠ [] then deviceName else localHostname)),
    (.version, .string "1.0.0".toList), (.tcpPort, .integer tcpPort),
    (.deviceId, jsonOfOption deviceId)]

/-- `json[key] as String?`: a failed cast ends the handler. -/
def castString (o : JsonObject) (key : Key) : Option (Option Text) := optionField o key

/-- `json[key] as int?`. -/
def castInt (o : JsonObject) (key : Key) : Option (Option Int) :=
  match o.lookup key with
  | none | some .null => some none
  | some (.integer n) => some (some n)
  | _ => none

/-- The peer that `_handleDatagram` puts in its map, under the address and the port. -/
def handleDatagram (senderIp : Text) (o : JsonObject) :
    Option DiscoveredPeer := do
  let deviceName ← castString o .deviceName
  let port ← castInt o .tcpPort
  let rawKey ← castString o .deviceId
  return { deviceName := deviceName.getD "Unknown Peer".toList, address := senderIp,
           port := port.getD 9877, deviceId := rawKey.map (normaliseKey upper) }

/-! ### What the two services read of each other -/

variable {upper : Char → Text}

theorem u16Field_toNat {o : JsonObject} {key : Key} {port : UInt16}
    (h : o.lookup key = some (.integer port.toNat)) : Beacon.u16Field o key = some port := by
  have hlt : (port.toNat : Int) < 2 ^ 16 := by exact_mod_cast port.toNat_lt
  simp only [Beacon.u16Field, h]
  rw [if_pos ⟨Int.natCast_nonneg _, hlt⟩, Int.toNat_natCast, UInt16.ofNat_toNat]

theorem optionField_jsonOfOption {o : JsonObject} {key : Key} {t : Option Text}
    (h : o.lookup key = some (jsonOfOption t)) : optionField o key = some t := by
  simp only [optionField, h]
  cases t <;> rfl

/-- The Rust service reads what it sends. -/
theorem Beacon.ofJson_toJson (b : Beacon) : ofJson b.toJson = some b := by
  have hport : u16Field b.toJson .tcpPort = some b.tcpPort := u16Field_toNat rfl
  have hid : optionField b.toJson .nodeId = some b.nodeId := optionField_jsonOfOption rfl
  simp only [ofJson, hport, hid]
  rfl

/-- Of a beacon of the Rust service the Dart service reads all but the id. -/
theorem handleDatagram_startBeacon (senderIp name : Text) (port : UInt16) (id : Option Text) :
    handleDatagram upper senderIp (startBeacon name port id).toJson =
      some ⟨name, senderIp, port.toNat, none⟩ := rfl

/-- Of a beacon of the Dart service the Rust service reads all but the id. -/
theorem ofJson_sendBeacon (name host : Text) (port : UInt16) (shortId : Option Text) :
    Beacon.ofJson (sendBeacon name host port.toNat shortId) =
      some ⟨if name ≠ [] then name else host, "1.0.0".toList, port, none⟩ := by
  have hport : Beacon.u16Field (sendBeacon name host port.toNat shortId) .tcpPort = some port :=
    u16Field_toNat rfl
  simp only [Beacon.ofJson, hport]
  rfl

/-- The peer that the Dart service has from a datagram is the one described. -/
def DartYields (upper : Char → Text) (senderIp : Text) (o : JsonObject) (name : Text)
    (port : UInt16) (id : Text) : Prop :=
  ∃ p, handleDatagram upper senderIp o = some p ∧ p.deviceName = name ∧ p.port = port.toNat ∧
    p.deviceId.map (normalizeNodeId upper) = some (normalizeNodeId upper id)

/-- The peer that a new listener of the Rust service has from a datagram is the one
described. -/
def RustYields (upper : Char → Text) (now : Nat) (src : Text) (d : Datagram) (name : Text)
    (port : UInt16) (id : Text) : Prop :=
  ∃ p, PeerTable.receive (fun _ => none) now src d ⟨src, port⟩ = some p ∧
    p.deviceName = name ∧ p.tcpPort = port ∧
    p.nodeId.map (normalizeNodeId upper) = some (normalizeNodeId upper id)

/-- Each service reads the beacons of the other, as far as they fit its buffer. -/
def OneFormat (upper : Char → Text) (name host : Text) (port : UInt16) (id : Text) : Prop :=
  (∀ senderIp, DartYields upper senderIp (startBeacon name port (some id)).toJson name port id) ∧
    ∀ now src length, length ≤ 2048 →
      RustYields upper now src ⟨sendBeacon name host port.toNat (some id), length⟩ name port id

/-- **Neither service reads the id of the other**, whatever the name, the port and the id
are. -/
theorem id_lost (upper : Char → Text) (name host : Text) (port : UInt16) (id : Text) :
    (∀ senderIp,
      ¬ DartYields upper senderIp (startBeacon name port (some id)).toJson name port id) ∧
    (∀ now src length,
      ¬ RustYields upper now src ⟨sendBeacon name host port.toNat (some id), length⟩ name port id) ∧
    ¬ OneFormat upper name host port id := by
  have hdart : ∀ senderIp,
      ¬ DartYields upper senderIp (startBeacon name port (some id)).toJson name port id := by
    rintro senderIp ⟨p, hp, -, -, hid⟩
    rw [handleDatagram_startBeacon] at hp
    obtain rfl := Option.some.inj hp
    exact absurd hid nofun
  have hrust : ∀ now src length, ¬ RustYields upper now src
      ⟨sendBeacon name host port.toNat (some id), length⟩ name port id := by
    rintro now src length ⟨p, hp, -, -, hid⟩
    by_cases hlength : length ≤ 2048
    · simp only [PeerTable.receive, if_pos hlength, ofJson_sendBeacon, Function.update_self] at hp
      obtain rfl := Option.some.inj hp
      exact absurd hid nofun
    · simp only [PeerTable.receive, if_neg hlength] at hp
      exact absurd hp nofun
  exact ⟨hdart, hrust, fun h => hdart [] (h.1 [])⟩

/-- A desktop called `desk` with the id `A1B2C3D4`. -/
theorem desk_not_oneFormat :
    ¬ OneFormat (fun c => [c.toUpper]) "desk".toList "host".toList 9877 "A1B2C3D4".toList := by
  rintro ⟨hdart, -⟩
  obtain ⟨p, hp, -, -, hid⟩ := hdart "192.168.0.2".toList
  rw [handleDatagram_startBeacon] at hp
  obtain rfl := Option.some.inj hp
  exact absurd hid nofun

end P2PTransfer.Discovery
