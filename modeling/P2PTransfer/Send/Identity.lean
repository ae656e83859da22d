import P2PTransfer.Send.Lookup

/-!
# The key of a device id

An id is matched on the LAN in its normal form, without dashes. The secret key of a device is
derived from the id as it is written, of which only the case and the ends are normalised. The
mobile `send_file` and `check_peer_online` do both with one argument.

## Main definitions

- `deriveSecretKeyFromShortId` — the key of an id, or the text of the error
- `sendFileTargets`, `checkPeerOnlineTargets` — what the two functions address
- `OneDevice` — an id has the key of its normal form, and the lookup finds its device
- `getDeviceId` — the id that the programs display

## Main results

- `UppercaseLaws.derive_iff` — a key is derived exactly from an id without dashes
- `UppercaseLaws.derive_getDeviceId` — no displayed id has a key
- `oneDevice_iff` — when the two functions address one device
-/

namespace P2PTransfer.Discovery

def isAsciiHexDigit (c : Char) : Bool :=
  c.isDigit || decide (('a' ≤ c ∧ c ≤ 'f') ∨ ('A' ≤ c ∧ c ≤ 'F'))

/-- `str::len`. -/
def utf8Length (t : Text) : Nat := (t.map Char.utf8Size).sum

/-- `as_bytes`, of a text of ASCII characters. -/
def asBytes (t : Text) : Bytes := t.map Char.toUInt8

def keySalt : Bytes := asBytes "tryp2p_deterministic_key_v1".toList

-- the library functions, and the upper-case mapping of single characters
variable (C : Primitives) (upper : Char → Text)

/-- `derive_secret_key_from_short_id`: the 32 bytes of the key. -/
def deriveSecretKeyFromShortId (shortId : Text) : Except Text C.Digest :=
  let normalized := toUppercase upper (trim shortId)
  if utf8Length normalized ≠ 8 then
    .error "Short ID must be exactly 8 characters.".toList
  else if normalized.all isAsciiHexDigit = false then
    .error "Short ID must contain only hex characters (0-9, A-F).".toList
  else
    .ok (C.blake3 (keySalt ++ asBytes normalized))

/-- What `send_file` addresses: a key over QUIC, before that a peer of the LAN. -/
def sendFileTargets (targetShortId : Text) (peers : List PeerInfo) :
    Except Text (C.Digest × Option PeerInfo) := do
  let key ← deriveSecretKeyFromShortId C upper targetShortId
  return (key, findPeer upper targetShortId targetShortId peers)

/-- What `check_peer_online` addresses. Without a key it goes without QUIC. -/
def checkPeerOnlineTargets (shortId : Text) (peers : List PeerInfo) :
    Option C.Digest × Option PeerInfo :=
  ((deriveSecretKeyFromShortId C upper shortId).toOption, findPeer upper shortId shortId peers)

/-- The key of the device whose id a peer announces. -/
def PeerInfo.deviceKey (p : PeerInfo) : Option C.Digest :=
  p.nodeId.bind fun id => (deriveSecretKeyFromShortId C upper (normalizeNodeId upper id)).toOption

/-- The id has the key of its normal form, and what the lookup finds for it is the device with
this key. -/
structure OneDevice (s : Text) (peers : List PeerInfo) : Prop where
  key : ∃ k, deriveSecretKeyFromShortId C upper s = .ok k ∧
    deriveSecretKeyFromShortId C upper (normalizeNodeId upper s) = .ok k
  send : ∃ k found, sendFileTargets C upper s peers = .ok (k, found) ∧
    ∀ p, found = some p → p.deviceKey C upper = some k
  check : ∃ k found, checkPeerOnlineTargets C upper s peers = (some k, found) ∧
    ∀ p, found = some p → p.deviceKey C upper = some k

/-- `get_device_id`, for the id of the program. -/
def getDeviceId (deviceId : Text) : Text :=
  let id := toUppercase upper deviceId
  if utf8Length id = 8 then id.take 4 ++ '-' :: (id.drop 4).take 4 else id

/-- What the upper-case mapping does to ASCII, and that it leaves no lower-case letter of it. -/
structure UppercaseLaws : Prop where
  ascii : ∀ c : Char, c.toNat < 128 → upper c = [c.toUpper]
  not_lower : ∀ c, ∀ d ∈ upper c, d.isLower = false

variable {C upper} {s id : Text}

/-! ### Texts of hexadecimal digits -/

theorem isShortId_iff :
    isShortId id = true ↔ id.length = 8 ∧ ∀ c ∈ id, isAsciiHexDigit c = true := by
  simp [isShortId, isAsciiHexDigit]

theorem toNat_of_hexDigit {c : Char} (h : isAsciiHexDigit c = true) :
    (48 ≤ c.toNat ∧ c.toNat ≤ 57) ∨ (97 ≤ c.toNat ∧ c.toNat ≤ 102) ∨
      (65 ≤ c.toNat ∧ c.toNat ≤ 70) := by
  simp only [isAsciiHexDigit, Char.isDigit, Bool.or_eq_true, Bool.and_eq_true, decide_eq_true_eq,
    Char.le_def, UInt32.le_iff_toNat_le, ge_iff_le] at h
  exact h.imp id (Or.imp id id)

theorem isWhitespace_of_hexDigit {c : Char} (h : isAsciiHexDigit c = true) :
    isWhitespace c = false := by
  have hrange := toNat_of_hexDigit h
  simp only [isWhitespace, decide_eq_false_iff_not]
  omega

theorem utf8Size_of_hexDigit {c : Char} (h : isAsciiHexDigit c = true) : c.utf8Size = 1 := by
  have hrange := toNat_of_hexDigit h
  apply Char.utf8Size_eq_one_iff.mpr
  apply UInt32.le_iff_toNat_le.mpr
  show c.toNat ≤ 127
  omega

theorem utf8Length_of_hexDigits (h : ∀ c ∈ id, isAsciiHexDigit c = true) :
    utf8Length id = id.length := by
  induction id with
  | nil => rfl
  | cons c id ih =>
    have hrest := ih fun d hd => h d (List.mem_cons_of_mem _ hd)
    simp only [utf8Length, List.map_cons, List.sum_cons, List.length_cons] at hrest ⊢
    rw [hrest, utf8Size_of_hexDigit (h c List.mem_cons_self), Nat.add_comm]

theorem trim_of_shortId (h : isShortId id) : trim id = id := by
  have hdigits := (isShortId_iff.mp h).2
  have hleft : id.dropWhile isWhitespace = id := by
    apply List.dropWhile_eq_self_iff.mpr
    intro hpos
    rw [isWhitespace_of_hexDigit (hdigits _ (List.getElem_mem hpos))]
    exact Bool.false_ne_true
  rw [trim, hleft]
  apply List.rdropWhile_eq_self_iff.mpr
  intro hne
  rw [isWhitespace_of_hexDigit (hdigits _ (List.getLast_mem hne))]
  exact Bool.false_ne_true

/-- Characters that are not white space stay. -/
theorem mem_trim {c : Char} (hc : c ∈ s) (hspace : isWhitespace c = false) : c ∈ trim s := by
  have hdrop : ∀ t : Text, c ∈ t → c ∈ t.dropWhile isWhitespace := by
    intro t ht
    rw [← List.takeWhile_append_dropWhile (p := isWhitespace) (l := t), List.mem_append] at ht
    rcases ht with htake | hdrop
    · rw [List.mem_takeWhile_imp htake] at hspace
      cases hspace
    · exact hdrop
  have hrev := hdrop _ (List.mem_reverse.mpr (hdrop s hc))
  rw [trim, List.rdropWhile]
  exact List.mem_reverse.mpr hrev

/-! ### Normal forms -/

section Normal

variable (hupper : UppercaseLaws upper)
include hupper

theorem UppercaseLaws.not_lower_toUppercase {c : Char} (hc : c ∈ toUppercase upper s) :
    c.isLower = false := by
  obtain ⟨d, -, hd⟩ := List.mem_flatMap.mp hc
  exact hupper.not_lower d c hd

/-- Upper-case hexadecimal digits are their own upper case. -/
theorem UppercaseLaws.toUppercase_eq (hdigits : ∀ c ∈ id, isAsciiHexDigit c = true)
    (hlower : ∀ c ∈ id, c.isLower = false) : toUppercase upper id = id := by
  induction id with
  | nil => rfl
  | cons c id ih =>
    have hrange := toNat_of_hexDigit (hdigits c List.mem_cons_self)
    have hone : upper c = [c] := by
      rw [hupper.ascii c (by omega), Char.toUpper_eq_of_not_isLower]
      simp [hlower c List.mem_cons_self]
    have hrest := ih (fun d hd => hdigits d (List.mem_cons_of_mem _ hd))
      (fun d hd => hlower d (List.mem_cons_of_mem _ hd))
    rw [toUppercase] at hrest ⊢
    rw [List.flatMap_cons, hone, hrest, List.singleton_append]

/-- A normal form that is a short id is normal once more. -/
theorem UppercaseLaws.toUppercase_trim_normal (hs : isShortId (normalizeNodeId upper s)) :
    toUppercase upper (trim (normalizeNodeId upper s)) = normalizeNodeId upper s := by
  rw [trim_of_shortId hs]
  apply hupper.toUppercase_eq (isShortId_iff.mp hs).2
  intro c hc
  exact hupper.not_lower_toUppercase hc

end Normal

/-! ### Keys -/

/-- The key of a text of eight digits. -/
def keyOf (C : Primitives) (id : Text) : C.Digest := C.blake3 (keySalt ++ asBytes id)

/-- The key is that of the normalised text, if this is a short id. -/
theorem derive_of_shortId {normal : Text} (hnormal : toUppercase upper (trim s) = normal)
    (h : isShortId normal) : deriveSecretKeyFromShortId C upper s = .ok (keyOf C normal) := by
  obtain ⟨hlen, hdigits⟩ := isShortId_iff.mp h
  have hall : normal.all isAsciiHexDigit = true := List.all_eq_true.mpr hdigits
  simp only [deriveSecretKeyFromShortId, hnormal, utf8Length_of_hexDigits hdigits, hlen, hall,
    ne_eq, not_true_eq_false, if_false, Bool.true_eq_false]
  rfl

/-- A text with some other character has no key. -/
theorem derive_ne_ok {c : Char} (hc : c ∈ toUppercase upper (trim s))
    (hdigit : isAsciiHexDigit c = false) (k : C.Digest) :
    deriveSecretKeyFromShortId C upper s ≠ .ok k := by
  have hall : (toUppercase upper (trim s)).all isAsciiHexDigit = false := by
    rw [List.all_eq_false]
    exact ⟨c, hc, by rw [hdigit]; exact Bool.false_ne_true⟩
  intro h
  simp only [deriveSecretKeyFromShortId, hall, if_true] at h
  split at h
  · cases h
  · cases h

theorem withoutDashes_eq (h : '-' ∉ s) : withoutDashes s = s := by
  apply List.filter_eq_self.mpr
  intro c hc
  simp only [decide_eq_true_eq]
  rintro rfl
  exact h hc

section Keys

variable (hupper : UppercaseLaws upper)
include hupper

/-- A dash that is in the id is in what is hashed. -/
theorem UppercaseLaws.derive_ne_ok_of_dash (h : '-' ∈ s) (k : C.Digest) :
    deriveSecretKeyFromShortId C upper s ≠ .ok k := by
  have hdash : '-' ∈ toUppercase upper (trim s) := by
    apply List.mem_flatMap.mpr
    refine ⟨'-', mem_trim h (by decide), ?_⟩
    rw [hupper.ascii '-' (by decide)]
    exact List.mem_singleton_self _
  exact derive_ne_ok hdash (by decide) k

theorem UppercaseLaws.derive_normal (hs : isShortId (normalizeNodeId upper s)) :
    deriveSecretKeyFromShortId C upper (normalizeNodeId upper s) =
      .ok (keyOf C (normalizeNodeId upper s)) :=
  derive_of_shortId (hupper.toUppercase_trim_normal hs) hs

/-- A key is derived from an id exactly when it has no dash, and then the right one. -/
theorem UppercaseLaws.derive_iff (hs : isShortId (normalizeNodeId upper s)) :
    deriveSecretKeyFromShortId C upper s = .ok (keyOf C (normalizeNodeId upper s)) ↔ '-' ∉ s := by
  constructor
  · intro hkey hdash
    exact hupper.derive_ne_ok_of_dash hdash _ hkey
  · intro hdash
    apply derive_of_shortId _ hs
    rw [normalizeNodeId, withoutDashes_eq hdash]

/-- The displayed form of an id, -/
theorem UppercaseLaws.getDeviceId_eq (hs : isShortId (normalizeNodeId upper s)) :
    getDeviceId upper (normalizeNodeId upper s) =
      (normalizeNodeId upper s).take 4 ++ '-' :: (normalizeNodeId upper s).drop 4 := by
  obtain ⟨hlen, hdigits⟩ := isShortId_iff.mp hs
  have hsame : toUppercase upper (normalizeNodeId upper s) = normalizeNodeId upper s :=
    hupper.toUppercase_eq hdigits fun c hc => hupper.not_lower_toUppercase hc
  have hrest : ((normalizeNodeId upper s).drop 4).take 4 = (normalizeNodeId upper s).drop 4 := by
    apply List.take_of_length_le
    rw [List.length_drop, hlen]
  simp only [getDeviceId, hsame, utf8Length_of_hexDigits hdigits, hlen, if_true, hrest]

/-- which has the same normal form, -/
theorem UppercaseLaws.normalizeNodeId_getDeviceId (hs : isShortId (normalizeNodeId upper s)) :
    normalizeNodeId upper (getDeviceId upper (normalizeNodeId upper s)) =
      normalizeNodeId upper s := by
  have hdash : '-' ∉ normalizeNodeId upper s := by
    intro h
    exact absurd ((isShortId_iff.mp hs).2 _ h) (by decide)
  have hclean : withoutDashes (getDeviceId upper (normalizeNodeId upper s)) =
      normalizeNodeId upper s := by
    rw [hupper.getDeviceId_eq hs, withoutDashes, List.filter_append,
      List.filter_cons_of_neg (by decide), ← List.filter_append, List.take_append_drop]
    exact withoutDashes_eq hdash
  generalize hid : normalizeNodeId upper s = id at *
  rw [normalizeNodeId, hclean, ← hid]
  exact hupper.toUppercase_trim_normal (hid ▸ hs)

/-- and no key. -/
theorem UppercaseLaws.derive_getDeviceId (hs : isShortId (normalizeNodeId upper s)) (k : C.Digest) :
    deriveSecretKeyFromShortId C upper (getDeviceId upper (normalizeNodeId upper s)) ≠ .ok k := by
  apply hupper.derive_ne_ok_of_dash
  rw [hupper.getDeviceId_eq hs]
  exact List.mem_append_right _ List.mem_cons_self

/-- A peer that announces the id is the device with its key. -/
theorem UppercaseLaws.deviceKey_of_carries {p : PeerInfo}
    (hs : isShortId (normalizeNodeId upper s)) (hid : p.carries upper (normalizeNodeId upper s)) :
    p.deviceKey C upper = some (keyOf C (normalizeNodeId upper s)) := by
  rw [PeerInfo.carries, Option.any_eq_true] at hid
  obtain ⟨id, hnode, hnorm⟩ := hid
  rw [PeerInfo.deviceKey, hnode, Option.bind_some, of_decide_eq_true hnorm, hupper.derive_normal hs]
  rfl

/-- A device that runs announces the text that its own key was derived from. -/
theorem UppercaseLaws.deviceKey_of_own {p : PeerInfo} {k : C.Digest} (hnode : p.nodeId = some id)
    (hid : isShortId (normalizeNodeId upper id))
    (hown : deriveSecretKeyFromShortId C upper id = .ok k) : p.deviceKey C upper = some k := by
  have hdash : '-' ∉ id := by
    intro h
    exact hupper.derive_ne_ok_of_dash h k hown
  have hkey := (hupper.derive_iff (C := C) hid).mpr hdash
  obtain rfl := Except.ok.inj (hkey.symm.trans hown)
  apply hupper.deviceKey_of_carries hid
  rw [PeerInfo.carries, hnode, Option.any_some, decide_eq_true rfl]

/-- The two functions address what the lookup finds, if every peer that bears the name is the
device. -/
theorem UppercaseLaws.oneDevice {order : List PeerInfo} (hs : isShortId (normalizeNodeId upper s))
    (hdash : '-' ∉ s)
    (hnames : ∀ p ∈ order, p.named s →
      p.deviceKey C upper = some (keyOf C (normalizeNodeId upper s))) :
    OneDevice C upper s order := by
  have hkey := (hupper.derive_iff (C := C) hs).mpr hdash
  have hfound : ∀ p, findPeer upper s s order = some p →
      p.deviceKey C upper = some (keyOf C (normalizeNodeId upper s)) := by
    intro p hp
    obtain ⟨hmem, hnamed | hid⟩ := findPeer_eq_some hp
    · exact hnames p hmem hnamed
    · exact hupper.deviceKey_of_carries hs hid
  constructor
  · exact ⟨_, hkey, hupper.derive_normal hs⟩
  · refine ⟨_, _, ?_, hfound⟩
    rw [sendFileTargets, hkey]
    rfl
  · refine ⟨_, _, ?_, hfound⟩
    rw [checkPeerOnlineTargets, hkey]
    rfl

end Keys

theorem OneDevice.no_dash (hupper : UppercaseLaws upper) {order : List PeerInfo}
    (h : OneDevice C upper s order) : '-' ∉ s := by
  obtain ⟨k, hkey, -⟩ := h.key
  intro hdash
  exact hupper.derive_ne_ok_of_dash hdash k hkey

/-- What the lookup finds has the key of the normal form. -/
theorem OneDevice.deviceKey (hupper : UppercaseLaws upper) {order : List PeerInfo} {p : PeerInfo}
    (hs : isShortId (normalizeNodeId upper s)) (h : OneDevice C upper s order)
    (hp : findPeer upper s s order = some p) :
    p.deviceKey C upper = some (keyOf C (normalizeNodeId upper s)) := by
  have hkey := (hupper.derive_iff (C := C) hs).mpr (h.no_dash hupper)
  obtain ⟨k, found, hcheck, hdevice⟩ := h.check
  rw [checkPeerOnlineTargets, hkey, Prod.mk.injEq] at hcheck
  obtain ⟨hk, rfl⟩ := hcheck
  rw [hdevice p hp, ← hk]
  rfl

/-- **One device.** An id whose normal form is a short id has one key, and this is the key of
what the lookup finds in any order of the peers, exactly when it is written without dashes and
every peer with this name is the device. -/
theorem oneDevice_iff (C : Primitives) {upper : Char → Text} (hupper : UppercaseLaws upper)
    {s : Text} (hs : isShortId (normalizeNodeId upper s)) (peers : List PeerInfo) :
    (∀ order, order.Perm peers → OneDevice C upper s order) ↔
      '-' ∉ s ∧ ∀ p ∈ peers, p.named s →
        p.deviceKey C upper = some (keyOf C (normalizeNodeId upper s)) := by
  constructor
  · intro h
    refine ⟨(h peers (.refl _)).no_dash hupper, ?_⟩
    intro p hp hnamed
    -- in an order that begins with the peer it is found
    have horder : (p :: peers.erase p).Perm peers := (List.perm_cons_erase hp).symm
    apply (h _ horder).deviceKey hupper hs
    apply List.find?_cons_of_pos
    rw [hnamed, Bool.true_or]
  · rintro ⟨hdash, hnames⟩ order horder
    apply hupper.oneDevice hs hdash
    intro p hp
    exact hnames p (horder.mem_iff.mp hp)

/-- The upper case of ASCII alone satisfies the laws. -/
theorem uppercaseLaws_toUpper : UppercaseLaws fun c => [c.toUpper] where
  ascii _ _ := rfl
  not_lower c d hd := by
    rw [List.mem_singleton.mp hd]
    exact Char.isLower_toUpper_eq_false c

/-- A peer on the LAN that bears its id as its name, as the programs display it, and another. -/
def lanPeers : List PeerInfo :=
  [{ deviceName := "A1B2C3D4".toList, tcpPort := 9876, socketAddr := ⟨['a'], 9876⟩,
     lastSeenEpoch := 0, nodeId := some "A1B2-C3D4".toList },
   { deviceName := "lamp".toList, tcpPort := 9876, socketAddr := ⟨['b'], 9876⟩, lastSeenEpoch := 0,
     nodeId := some "0000-0000".toList }]

/-- A lower-case id, which the first of them carries, is that device in any order. -/
theorem oneDevice_lower :
    (∀ order, order.Perm lanPeers →
      OneDevice .plain (fun c => [c.toUpper]) "a1b2c3d4".toList order) ∧
    findPeer (fun c => [c.toUpper]) "a1b2c3d4".toList "a1b2c3d4".toList lanPeers.reverse =
      lanPeers.head? :=
  ⟨(oneDevice_iff .plain uppercaseLaws_toUpper (by decide) lanPeers).mpr
    ⟨by decide, by decide⟩, by decide⟩

/-- The id as the programs display it. -/
theorem displayed_not_oneDevice :
    isShortId (normalizeNodeId (fun c => [c.toUpper]) "A1B2-C3D4".toList) ∧
      ¬ ∀ order, order.Perm [] →
        OneDevice .plain (fun c => [c.toUpper]) "A1B2-C3D4".toList order := by
  refine ⟨by decide, ?_⟩
  intro h
  exact (h [] (.refl _)).no_dash uppercaseLaws_toUpper (by decide)

end P2PTransfer.Discovery
