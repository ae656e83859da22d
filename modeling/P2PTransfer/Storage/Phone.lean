import P2PTransfer.Lib.Durable
import P2PTransfer.Lib.Run
import P2PTransfer.Lib.Table
import P2PTransfer.Network.Json
import P2PTransfer.Storage.Restart

/-!
# The data of the phone over its starts

`ContactsService` keeps the contacts in a list and saves the list behind each edit, without
waiting for it everywhere. `DeviceIdentityService` clears the contacts when it finds no valid
key at a start. The system may kill the program at any point of all this.

## Main definitions

- `addOrUpdate`, `remove`, `updateIp` — the edits of the list
- `State`, `Act`, `machine` — the program from one start to the next
- `Book` — what the contacts are for: a partial map from keys

## Main results

- `contacts_kept` — which edits the contacts are made of in any run
-/

namespace P2PTransfer.Phone

open Storage Transition Discovery Json Desktop

variable {D : Type}

/-- `DateTime`, as far as texts of it are written and read. -/
structure Dates (D : Type) where
  toIso8601String : D → Text
  tryParse : Text → Option D
  tryParse_toIso8601String : ∀ d, tryParse (toIso8601String d) = some d

structure Contact (D : Type) where
  deviceKey : Text
  name : Text
  lastIp : Option Text := none
  lastPort : Int := 9877
  addedAt : D

namespace Contact

def copyWithIp (c : Contact D) (ip : Text) (port : Int) : Contact D :=
  { c with lastIp := some ip, lastPort := port }

variable (dates : Dates D)

def toJson (c : Contact D) : Object :=
  [("key".toList, .string c.deviceKey), ("name".toList, .string c.name),
    ("ip".toList, jsonOfOption c.lastIp), ("port".toList, .integer c.lastPort),
    ("added".toList, .string (dates.toIso8601String c.addedAt))]

/-- `as String` -/
def asString : JsonValue → Option Text
  | .string t => some t
  | _ => none

/-- A cast to a type that has null, of a field that may be absent. -/
def asNullable {α : Type} (cast : JsonValue → Option α) : Option JsonValue → Option (Option α)
  | none | some .null => some none
  | some v => (cast v).map some

/-- `(… as num).toInt()`, on whole numbers. -/
def asInt : JsonValue → Option Int
  | .integer n => some n
  | _ => none

/-- `Contact.fromJson`, with the time that it takes where there is none to read. -/
def fromJson (now : D) (j : Object) : Option (Contact D) := do
  let deviceKey ← (j.lookup "key".toList).bind asString
  let name ← (j.lookup "name".toList).bind asString
  let lastIp ← asNullable asString (j.lookup "ip".toList)
  let lastPort ← asNullable asInt (j.lookup "port".toList)
  let added ← asNullable asString (j.lookup "added".toList)
  return { deviceKey := deviceKey, name := name, lastIp := lastIp,
           lastPort := lastPort.getD 9877,
           addedAt := (dates.tryParse (added.getD [])).getD now }

theorem fromJson_toJson (now : D) (c : Contact D) :
    fromJson dates now (c.toJson dates) = some c := by
  have h1 : (c.toJson dates).lookup "key".toList = some (.string c.deviceKey) := rfl
  have h2 : (c.toJson dates).lookup "name".toList = some (.string c.name) := rfl
  have h3 : (c.toJson dates).lookup "ip".toList = some (jsonOfOption c.lastIp) := rfl
  have h4 : (c.toJson dates).lookup "port".toList = some (.integer c.lastPort) := rfl
  have h5 : (c.toJson dates).lookup "added".toList =
      some (.string (dates.toIso8601String c.addedAt)) := rfl
  have hip : asNullable asString (some (jsonOfOption c.lastIp)) = some c.lastIp := by
    cases c.lastIp <;> rfl
  rw [fromJson, h1, h2, h3, h4, h5, hip]
  simp [asNullable, asString, asInt, dates.tryParse_toIso8601String]

end Contact

/-! ### The list -/

-- the lower-case mapping of single characters
variable (lower : Char → Text)

def toLowerCase (t : Text) : Text := t.flatMap lower

/-- The key that the contacts are compared by. -/
def Contact.folded (c : Contact D) : Text := toLowerCase lower c.deviceKey

theorem Contact.folded_copyWithIp (ip : Text) (port : Int) (c : Contact D) :
    (c.copyWithIp ip port).folded lower = c.folded lower := rfl

def indexOf (contacts : List (Contact D)) (deviceKey : Text) : Option Nat :=
  contacts.findIdx? fun x => decide (x.folded lower = toLowerCase lower deviceKey)

def addOrUpdate (contacts : List (Contact D)) (c : Contact D) : List (Contact D) :=
  match indexOf lower contacts c.deviceKey with
  | some idx => contacts.set idx c
  | none => contacts ++ [c]

def remove (contacts : List (Contact D)) (deviceKey : Text) : List (Contact D) :=
  contacts.filter fun c => decide (c.folded lower ≠ toLowerCase lower deviceKey)

def updateIp (contacts : List (Contact D)) (deviceKey ip : Text) (port : Int) :
    List (Contact D) :=
  match indexOf lower contacts deviceKey with
  | some idx => contacts.modify idx fun c => c.copyWithIp ip port
  | none => contacts

inductive Edit (D : Type) where
  | addOrUpdate (c : Contact D)
  | remove (deviceKey : Text)
  | updateIp (deviceKey ip : Text) (port : Int)
  | clear

def Edit.apply (contacts : List (Contact D)) : Edit D → List (Contact D)
  | .addOrUpdate c => Phone.addOrUpdate lower contacts c
  | .remove deviceKey => Phone.remove lower contacts deviceKey
  | .updateIp deviceKey ip port => Phone.updateIp lower contacts deviceKey ip port
  | .clear => []

/-! ### The program -/

/-- Dart also trims the byte order mark. -/
def isDartSpace (c : Char) : Bool := isWhitespace c || decide (c = '\ufeff')

def dartTrim (t : Text) : Text := (t.dropWhile isDartSpace).rdropWhile isDartSpace

/-- Eight characters that match `^[0-9A-F]+$`. -/
def isDeviceKey (t : Text) : Bool :=
  decide (t.length = 8) && t.all fun c => c.isDigit || decide ('A' ≤ c ∧ c ≤ 'F')

inductive Pc where
  | off
  | initializing
  | clearLegacyCache
  | deleteKey
  | writeKey
  | load
  | running
  | startupError
deriving DecidableEq

/-- The key file and the entry of the preferences, and what the program holds. -/
structure State (D : Type) where
  keyFile : ShortIdFile
  prefs : Option (List Object)
  pc : Pc := .off
  shortId : Option Text := none
  contacts : List (Contact D) := []
  -- calls of `save` that wait for the preferences, and lists that are being written
  saves : Nat := 0
  writing : List (List Object) := []

inductive Act (D : Type) where
  | launch
  | readKey
  | clearContacts
  | deleteKey
  | writeKey (generated : Text)
  | load (now : D)
  | addOrUpdate (c : Contact D)
  | remove (deviceKey : Text)
  | updateIp (deviceKey ip : Text) (port : Int)
  | save
  | write
  | kill
  | killWriting (generated : Text) (n : Nat)

variable (dates : Dates D)

def encode (contacts : List (Contact D)) : List Object := contacts.map (Contact.toJson dates)

/-- `ContactsService.load` at a start. -/
def loadContacts (now : D) : Option (List Object) → Option (List (Contact D))
  | none => some []
  | some list => list.mapM (Contact.fromJson dates now)

/-- The end of the process. -/
def State.killed (s : State D) : State D :=
  { s with pc := .off, shortId := none, contacts := [], saves := 0, writing := [] }

def step (s : State D) : Act D → Option (State D)
  | .launch => guarded (s.pc = .off) { s with pc := .initializing }
  | .readKey => guarded (s.pc = .initializing) (match s.keyFile with
      | .readable content =>
        if isDeviceKey (dartTrim content) then
          { s with pc := .load, shortId := some (dartTrim content) }
        else { s with pc := .clearLegacyCache }
      | _ => { s with pc := .clearLegacyCache })
  | .clearContacts => guarded (s.pc = .clearLegacyCache) { s with pc := .deleteKey, prefs := none }
  | .deleteKey => guarded (s.pc = .deleteKey) { s with pc := .writeKey, keyFile := .missing }
  -- `generate_random_short_id` gives a valid key
  | .writeKey generated => guarded (s.pc = .writeKey ∧ isDeviceKey generated)
      { s with pc := .load, keyFile := .readable generated, shortId := some generated }
  | .load now => guarded (s.pc = .load) (match loadContacts dates now s.prefs with
      | some contacts => { s with pc := .running, contacts := contacts }
      | none => { s with pc := .startupError })
  | .addOrUpdate c => guarded (s.pc = .running)
      { s with contacts := addOrUpdate lower s.contacts c, saves := s.saves + 1 }
  | .remove deviceKey => guarded (s.pc = .running)
      { s with contacts := remove lower s.contacts deviceKey, saves := s.saves + 1 }
  | .updateIp deviceKey ip port => guarded (s.pc = .running)
      { s with contacts := updateIp lower s.contacts deviceKey ip port,
               saves := s.saves + if (indexOf lower s.contacts deviceKey).isSome then 1 else 0 }
  -- a save that waits writes the list as it is by then
  | .save => guarded (s.pc = .running ∧ 0 < s.saves)
      { s with saves := s.saves - 1, writing := s.writing ++ [encode dates s.contacts] }
  | .write => guarded (s.writing ≠ [])
      { s with prefs := s.writing.head?, writing := s.writing.tail }
  | .kill => guarded (s.pc ≠ .off) s.killed
  -- a key that has been written in part
  | .killWriting generated n => guarded (s.pc = .writeKey ∧ isDeviceKey generated)
      { s.killed with keyFile := .readable (generated.take n) }

def machine : Machine (State D) (Act D) := ⟨step lower dates⟩

/-- The phone before the first of the starts. -/
def State.start (keyFile : ShortIdFile) (saved : Option (List (Contact D))) : State D where
  keyFile := keyFile
  prefs := saved.map (encode dates)

/-! ### What the contacts are for -/

abbrev Book (D : Type) := Text → Option (Contact D)

def book (contacts : List (Contact D)) : Book D :=
  fun k => contacts.find? fun c => decide (c.folded lower = k)

def Edit.onBook (b : Book D) : Edit D → Book D
  | .addOrUpdate c => Function.update b (c.folded lower) (some c)
  | .remove deviceKey => Function.update b (toLowerCase lower deviceKey) none
  | .updateIp deviceKey ip port =>
    Function.update b (toLowerCase lower deviceKey)
      ((b (toLowerCase lower deviceKey)).map fun c => c.copyWithIp ip port)
  | .clear => fun _ => none

/-- The edits, saves, writes and crashes that an action is. -/
def Act.durable : Act D → List (Durable.Act (Edit D))
  | .clearContacts => [.edit .clear, .save, .write]
  | .addOrUpdate c => [.edit (.addOrUpdate c)]
  | .remove deviceKey => [.edit (.remove deviceKey)]
  | .updateIp deviceKey ip port => [.edit (.updateIp deviceKey ip port)]
  | .save => [.save]
  | .write => [.write]
  | .kill => [.crash]
  | .killWriting _ _ => [.crash]
  | _ => []

/-! ### The list is a table -/

/-- The contacts as a table of their keys. -/
abbrev Contacts := Table (Contact.folded (D := D) lower)

def Edit.onTable (t : Contacts (D := D) lower) : Edit D → Contacts (D := D) lower
  | .addOrUpdate c => t.upsert c
  | .remove deviceKey => t.delete (toLowerCase lower deviceKey)
  | .updateIp deviceKey ip port =>
    t.update (toLowerCase lower deviceKey) (fun c => c.copyWithIp ip port)
      (Contact.folded_copyWithIp lower ip port)
  | .clear => Table.empty _

section Table

variable {lower}

theorem rows_onTable (t : Contacts (D := D) lower) (e : Edit D) :
    (e.onTable lower t).rows = e.apply lower t.rows := by
  cases e with
  | addOrUpdate c => exact Table.rows_upsert
  | remove deviceKey => rfl
  | updateIp deviceKey ip port =>
    exact @Table.rows_update _ _ _ _ _ _ _ (Contact.folded_copyWithIp lower ip port)
  | clear => rfl

/-- Each edit changes one entry of the book, or empties it. -/
theorem find_onTable (t : Contacts (D := D) lower) (e : Edit D) :
    (e.onTable lower t).find = e.onBook lower t.find := by
  funext k
  cases e with
  | addOrUpdate c =>
    rw [Edit.onTable, Table.find_upsert, Edit.onBook, Function.update_apply]
    simp only [eq_comm]
  | remove deviceKey =>
    rw [Edit.onTable, Table.find_delete, Edit.onBook, Function.update_apply]
  | updateIp deviceKey ip port =>
    by_cases hk : k = toLowerCase lower deviceKey
    · subst hk
      rw [Edit.onTable, Table.find_update_self, Edit.onBook, Function.update_self]
    · rw [Edit.onTable, Table.find_update_of_ne hk, Edit.onBook, Function.update_of_ne hk]
  | clear => rfl

/-- A list with the keys of a table stands for its book. -/
theorem book_rows (t : Contacts (D := D) lower) : book lower t.rows = t.find := rfl

end Table

/-! ### A run -/

section Run

variable {lower dates}

theorem dartTrim_of_deviceKey {t : Text} (h : isDeviceKey t = true) : dartTrim t = t := by
  have hspace : ∀ c ∈ t, isDartSpace c = false := by
    intro c hc
    have hkey := List.all_eq_true.mp (Bool.and_eq_true_iff.mp h).2 c hc
    have hrange : 0x30 ≤ c.toNat ∧ c.toNat ≤ 0x46 := by
      simp only [Char.isDigit, Bool.or_eq_true, Bool.and_eq_true, decide_eq_true_eq, Char.le_def,
        UInt32.le_iff_toNat_le, ge_iff_le] at hkey
      have hcases : (0x30 ≤ c.toNat ∧ c.toNat ≤ 0x39) ∨ (0x41 ≤ c.toNat ∧ c.toNat ≤ 0x46) := hkey
      omega
    have hmark : c ≠ '\ufeff' := by
      rintro rfl
      exact absurd hrange (by decide)
    rw [isDartSpace, decide_eq_false hmark, Bool.or_false, isWhitespace, decide_eq_false_iff_not]
    omega
  have hleft : t.dropWhile isDartSpace = t := by
    apply List.dropWhile_eq_self_iff.mpr
    intro hpos
    rw [hspace _ (List.getElem_mem hpos)]
    exact Bool.false_ne_true
  rw [dartTrim, hleft]
  apply List.rdropWhile_eq_self_iff.mpr
  intro hne
  rw [hspace _ (List.getLast_mem hne)]
  exact Bool.false_ne_true

theorem load_encode (now : D) (contacts : List (Contact D)) :
    (encode dates contacts).mapM (Contact.fromJson dates now) = some contacts := by
  induction contacts with
  | nil => rfl
  | cons c contacts ih =>
    rw [encode] at ih ⊢
    rw [List.map_cons, List.mapM_cons, Contact.fromJson_toJson, ih]
    rfl

/-- A start reads what was written. -/
theorem loadContacts_of_prefs {now : D} {prefs : Option (List Object)}
    {contacts : List (Contact D)} (h : prefs.getD [] = encode dates contacts) :
    loadContacts dates now prefs = some contacts := by
  have hload : loadContacts dates now prefs =
      (prefs.getD []).mapM (Contact.fromJson dates now) := by
    cases prefs with
    | none => rfl
    | some list => rfl
  rw [hload, h, load_encode]

variable (dates)

/-- The state holds the copies of `d`, and a key from its load on. -/
structure Kept (s : State D) (d : Durable (Contacts (D := D) lower)) : Prop where
  started : s.pc ≠ .startupError
  prefs : s.prefs.getD [] = encode dates d.saved.rows
  writing : s.writing = d.writing.map fun t => encode dates t.rows
  running : s.pc = .running → s.contacts = d.memory.rows ∧
    (s.saves = 0 → d.memory.rows = (d.writing.getLastD d.saved).rows)
  stopped : s.pc ≠ .running → d.memory = d.saved ∧ s.saves = 0 ∧ d.writing = []
  identity : s.pc = .load ∨ s.pc = .running → ∃ content, s.keyFile = .readable content ∧
    isDeviceKey (dartTrim content) = true ∧ s.shortId = some (dartTrim content)

variable {dates}

/-- The end of the process, with whatever it has done to the key file. -/
theorem Kept.killed {s : State D} {d : Durable (Contacts (D := D) lower)} (h : Kept dates s d)
    (keyFile : ShortIdFile) :
    Kept dates { s.killed with keyFile := keyFile } ⟨d.saved, [], d.saved⟩ where
  started := by simp [State.killed]
  prefs := h.prefs
  writing := rfl
  running := by simp [State.killed]
  stopped := fun _ => ⟨rfl, rfl, rfl⟩
  identity := by simp [State.killed]

/-- The contacts are cleared before the program has read them. -/
theorem Kept.cleared {s : State D} {d : Durable (Contacts (D := D) lower)} (h : Kept dates s d)
    (hpc : s.pc ≠ .running) :
    Kept dates { s with pc := .deleteKey, prefs := none }
      (([.edit .clear, .save, .write] : List (Durable.Act (Edit D))).foldl
        (Durable.step (Edit.onTable lower)) d) := by
  obtain ⟨memory, writing, saved⟩ := d
  obtain ⟨-, hsaves, rfl⟩ := h.stopped hpc
  exact {
    started := by simp
    prefs := rfl
    writing := h.writing
    running := by simp
    stopped := fun _ => ⟨rfl, hsaves, rfl⟩
    identity := by simp }

theorem Kept.loaded {s : State D} {d : Durable (Contacts (D := D) lower)} (h : Kept dates s d)
    (hpc : s.pc = .load) :
    Kept dates { s with pc := .running, contacts := d.saved.rows } d := by
  obtain ⟨hmemory, hsaves, hwriting⟩ := h.stopped (by simp [hpc])
  exact {
    started := by simp
    prefs := h.prefs
    writing := h.writing
    running := fun _ => ⟨by rw [hmemory], fun _ => by rw [hmemory, hwriting]; rfl⟩
    stopped := by simp
    identity := fun _ => h.identity (.inl hpc) }

/-- A step of a start that touches neither the contacts nor their copies. -/
theorem Kept.starting {s t : State D} {d : Durable (Contacts (D := D) lower)} (h : Kept dates s d)
    (hpc : s.pc ≠ .running) (hrunning : t.pc ≠ .running) (hstarted : t.pc ≠ .startupError)
    (hprefs : t.prefs = s.prefs) (hwriting : t.writing = s.writing) (hsaves : t.saves = s.saves)
    (hload : t.pc = .load → ∃ content, t.keyFile = .readable content ∧
      isDeviceKey (dartTrim content) = true ∧ t.shortId = some (dartTrim content)) :
    Kept dates t d where
  started := hstarted
  prefs := hprefs ▸ h.prefs
  writing := hwriting ▸ h.writing
  running := fun hrun => absurd hrun hrunning
  stopped := fun _ => hsaves ▸ h.stopped hpc
  identity := fun hor => hload (hor.resolve_right hrunning)

/-- An edit of the list, with the save behind it unless the edit changes nothing. -/
theorem Kept.edited {s : State D} {d : Durable (Contacts (D := D) lower)} (h : Kept dates s d)
    (hpc : s.pc = .running) (e : Edit D) (n : Nat)
    (hn : n = 0 → e.apply lower s.contacts = s.contacts) :
    Kept dates { s with contacts := e.apply lower s.contacts, saves := s.saves + n }
      { d with memory := e.onTable lower d.memory } where
  started := h.started
  prefs := h.prefs
  writing := h.writing
  running := by
    intro _
    have hrows := (h.running hpc).1
    refine ⟨by rw [rows_onTable, hrows], fun hsaves => ?_⟩
    have hzero := Nat.add_eq_zero_iff.mp hsaves
    rw [rows_onTable, ← hrows, hn hzero.2, hrows]
    exact (h.running hpc).2 hzero.1
  stopped := fun hne => absurd hpc hne
  identity := h.identity

theorem Kept.saving {s : State D} {d : Durable (Contacts (D := D) lower)} (h : Kept dates s d)
    (hpc : s.pc = .running) :
    Kept dates { s with saves := s.saves - 1, writing := s.writing ++ [encode dates s.contacts] }
      { d with writing := d.writing ++ [d.memory] } where
  started := h.started
  prefs := h.prefs
  writing := by
    show s.writing ++ [encode dates s.contacts] = _
    rw [List.map_append, ← h.writing, (h.running hpc).1]
    rfl
  running := by
    intro _
    refine ⟨(h.running hpc).1, fun _ => ?_⟩
    rw [List.getLastD_concat]
  stopped := fun hne => absurd hpc hne
  identity := h.identity

theorem Kept.written {s : State D} {d : Durable (Contacts (D := D) lower)} (h : Kept dates s d)
    (hwriting : s.writing ≠ []) :
    Kept dates { s with prefs := s.writing.head?, writing := s.writing.tail } d.written := by
  obtain ⟨memory, writing, saved⟩ := d
  have hcopies : s.writing = writing.map fun t => encode dates t.rows := h.writing
  cases writing with
  | nil => exact absurd hcopies hwriting
  | cons w ws =>
    have hpc : s.pc = .running := by
      by_contra hne
      cases (h.stopped hne).2.2
    have hlast : (w :: ws).getLastD saved = ws.getLastD w := List.getLastD_cons ..
    rw [List.map_cons] at hcopies
    exact {
      started := h.started
      prefs := by rw [hcopies]; rfl
      writing := by rw [hcopies]; rfl
      running := fun _ => ⟨(h.running hpc).1, fun hsaves => hlast ▸ (h.running hpc).2 hsaves⟩
      stopped := fun hne => absurd hpc hne
      identity := h.identity }

/-- A step does to the copies what it is among edits, saves, writes and crashes. -/
theorem Kept.step {s t : State D} {a : Act D} {d : Durable (Contacts (D := D) lower)}
    (h : Kept dates s d) (hstep : step lower dates s a = some t) :
    Kept dates t (a.durable.foldl (Durable.step (Edit.onTable lower)) d) := by
  cases a with
  | launch =>
    obtain ⟨hpc, rfl⟩ := guarded_eq_some.mp hstep
    exact h.starting (by simp [hpc]) (by simp) (by simp) rfl rfl rfl (by simp)
  | readKey =>
    obtain ⟨hpc, ht⟩ := guarded_eq_some.mp hstep
    have hstopped : s.pc ≠ .running := by simp [hpc]
    split at ht
    · next content hfile =>
      split at ht
      · next hkey =>
        subst ht
        exact h.starting hstopped (by simp) (by simp) rfl rfl rfl fun _ =>
          ⟨content, hfile, hkey, rfl⟩
      · subst ht
        exact h.starting hstopped (by simp) (by simp) rfl rfl rfl (by simp)
    · subst ht
      exact h.starting hstopped (by simp) (by simp) rfl rfl rfl (by simp)
  | clearContacts =>
    obtain ⟨hpc, rfl⟩ := guarded_eq_some.mp hstep
    exact h.cleared (by simp [hpc])
  | deleteKey =>
    obtain ⟨hpc, rfl⟩ := guarded_eq_some.mp hstep
    exact h.starting (by simp [hpc]) (by simp) (by simp) rfl rfl rfl (by simp)
  | writeKey generated =>
    obtain ⟨⟨hpc, hkey⟩, rfl⟩ := guarded_eq_some.mp hstep
    refine h.starting (by simp [hpc]) (by simp) (by simp) rfl rfl rfl fun _ => ?_
    exact ⟨generated, rfl, by rw [dartTrim_of_deviceKey hkey]; exact hkey,
      by rw [dartTrim_of_deviceKey hkey]⟩
  | load now =>
    obtain ⟨hpc, ht⟩ := guarded_eq_some.mp hstep
    rw [loadContacts_of_prefs h.prefs] at ht
    subst ht
    exact h.loaded hpc
  | addOrUpdate c =>
    obtain ⟨hpc, rfl⟩ := guarded_eq_some.mp hstep
    exact h.edited hpc (.addOrUpdate c) 1 fun hn => absurd hn one_ne_zero
  | remove deviceKey =>
    obtain ⟨hpc, rfl⟩ := guarded_eq_some.mp hstep
    exact h.edited hpc (.remove deviceKey) 1 fun hn => absurd hn one_ne_zero
  | updateIp deviceKey ip port =>
    obtain ⟨hpc, rfl⟩ := guarded_eq_some.mp hstep
    apply h.edited hpc (.updateIp deviceKey ip port)
    intro hn
    have hnone : indexOf lower s.contacts deviceKey = none := by
      cases hidx : indexOf lower s.contacts deviceKey with
      | none => rfl
      | some idx =>
        rw [hidx] at hn
        cases hn
    rw [Edit.apply, Phone.updateIp, hnone]
  | save =>
    obtain ⟨⟨hpc, -⟩, rfl⟩ := guarded_eq_some.mp hstep
    exact h.saving hpc
  | write =>
    obtain ⟨hwriting, rfl⟩ := guarded_eq_some.mp hstep
    exact h.written hwriting
  | kill =>
    obtain ⟨-, rfl⟩ := guarded_eq_some.mp hstep
    exact h.killed s.keyFile
  | killWriting generated n =>
    obtain ⟨-, rfl⟩ := guarded_eq_some.mp hstep
    exact h.killed (.readable (generated.take n))

theorem Kept.run {s t : State D} {as : List (Act D)} {d : Durable (Contacts (D := D) lower)}
    (h : Kept dates s d) (hrun : (machine lower dates).run s as = some t) :
    Kept dates t ((as.flatMap Act.durable).foldl (Durable.step (Edit.onTable lower)) d) := by
  induction as generalizing s d with
  | nil =>
    obtain rfl := Option.some.inj hrun
    exact h
  | cons a as ih =>
    obtain ⟨u, hstep, hrest⟩ := Option.bind_eq_some_iff.mp hrun
    rw [List.flatMap_cons, List.foldl_append]
    exact ih (h.step hstep) hrest

theorem Kept.start (keyFile : ShortIdFile) {saved : Option (List (Contact D))}
    {base : Contacts (D := D) lower} (hbase : base.rows = saved.getD []) :
    Kept dates (State.start dates keyFile saved) ⟨base, [], base⟩ where
  started := by simp [State.start]
  prefs := by
    rw [hbase]
    cases saved with
    | none => rfl
    | some list => rfl
  writing := rfl
  running := by simp [State.start]
  stopped := fun _ => ⟨rfl, rfl, rfl⟩
  identity := by simp [State.start]

/-- After a kill the program starts again with its key and the written contacts. -/
theorem Kept.restart {s : State D} {d : Durable (Contacts (D := D) lower)} (h : Kept dates s d)
    (hpc : s.pc = .running) (now : D) :
    (machine lower dates).run s [.kill, .launch, .readKey, .load now] =
      some { s.killed with pc := .running, shortId := s.shortId, contacts := d.saved.rows } := by
  obtain ⟨content, hfile, hkey, hid⟩ := h.identity (.inr hpc)
  have hload : loadContacts dates now s.prefs = some d.saved.rows := loadContacts_of_prefs h.prefs
  simp [machine, Machine.run, Phone.step, guarded, hpc, State.killed, hfile, hkey, hload, hid]

end Run

/-- **The contacts over any starts.** From an installation with distinct keys, whatever the user
and the network do and wherever the program is killed: no start fails. While the program runs
its contacts are made of the edits that have come into them, in their order, each of which
changes one entry of the book. A kill undoes the last of the edits and none of those that have
been saved, and leaves the key as it is. -/
theorem contacts_kept {keyFile : ShortIdFile} {saved : Option (List (Contact D))}
    (hbase : ((saved.getD []).map (Contact.folded lower)).Nodup) {as : List (Act D)} {s : State D}
    (hrun : (machine lower dates).run (State.start dates keyFile saved) as = some s) :
    let made := Durable.edits (as.flatMap Act.durable)
    s.pc ≠ .startupError ∧ made.saved <+: made.memory ∧
    (∀ bs, made.saved <+: (Durable.edits ((as ++ bs).flatMap Act.durable)).saved) ∧
    (s.pc = .running →
      s.contacts = made.memory.foldl (Edit.apply lower) (saved.getD []) ∧
      (s.contacts.map (Contact.folded lower)).Nodup ∧
      book lower s.contacts = made.memory.foldl (Edit.onBook lower) (book lower (saved.getD [])) ∧
      ∀ now, ∃ t, (machine lower dates).run s [.kill, .launch, .readKey, .load now] = some t ∧
        t.pc = .running ∧ t.shortId = s.shortId ∧
        t.contacts = made.saved.foldl (Edit.apply lower) (saved.getD []) ∧
        (s.saves = 0 → s.writing = [] → t.contacts = s.contacts)) := by
  intro made
  let base : Contacts (D := D) lower := ⟨saved.getD [], hbase⟩
  let d := Durable.run (Edit.onTable lower) base (as.flatMap Act.durable)
  have hkept : Kept dates s d := (Kept.start keyFile rfl).run hrun
  have hd : d = made.map fun l => l.foldl (Edit.onTable lower) base := Durable.run_eq _ _ _
  have hrows : ∀ l : List (Edit D), (l.foldl (Edit.onTable lower) base).rows =
      l.foldl (Edit.apply lower) (saved.getD []) := by
    intro l
    exact (List.foldl_hom Table.rows fun t e => (rows_onTable t e).symm).symm
  have hfind : ∀ l : List (Edit D), (l.foldl (Edit.onTable lower) base).find =
      l.foldl (Edit.onBook lower) (book lower (saved.getD [])) := by
    intro l
    exact (List.foldl_hom Table.find fun t e => (find_onTable t e).symm).symm
  have hsaved : d.saved.rows = made.saved.foldl (Edit.apply lower) (saved.getD []) := by
    rw [hd]
    exact hrows _
  refine ⟨hkept.started, Durable.saved_prefix _, fun bs => ?_, fun hpc => ?_⟩
  · rw [List.flatMap_append]
    exact Durable.saved_mono _ _
  · obtain ⟨hcontacts, hquiet⟩ := hkept.running hpc
    refine ⟨?_, hcontacts ▸ d.memory.nodup, ?_, fun now => ?_⟩
    · rw [hcontacts, hd]
      exact hrows _
    · rw [hcontacts, book_rows, hd]
      exact hfind _
    · refine ⟨_, hkept.restart hpc now, rfl, rfl, hsaved, fun hsaves hwriting => ?_⟩
      have hnone : d.writing = [] := by
        rw [hkept.writing] at hwriting
        exact List.map_eq_nil_iff.mp hwriting
      show d.saved.rows = s.contacts
      rw [hcontacts, hquiet hsaves, hnone]
      rfl

/-- Days, each written as that many strokes. -/
def strokes : Dates Nat where
  toIso8601String d := List.replicate d '|'
  tryParse t := some t.length
  tryParse_toIso8601String d := by rw [List.length_replicate]

def laptop : Contact Nat where
  deviceKey := "A1B2-C3D4".toList
  name := "laptop".toList
  addedAt := 3

/-- The contact is saved, its address is not. -/
def laptopSession : List (Act Nat) :=
  [.launch, .readKey, .load 3, .addOrUpdate laptop, .save, .write,
    .updateIp "a1b2-c3d4".toList "10.0.0.7".toList 9877, .save]

theorem contacts_kept_laptop : ∃ s t : State Nat,
    (machine (fun c => [c.toLower]) strokes).run
      (State.start strokes (.readable " DEADBEEF\n".toList) none) laptopSession = some s ∧
    s.contacts = [laptop.copyWithIp "10.0.0.7".toList 9877] ∧
    (machine (fun c => [c.toLower]) strokes).run s [.kill, .launch, .readKey, .load 4] = some t ∧
    t.shortId = s.shortId ∧ t.contacts = [laptop] := by
  obtain ⟨s, hrun, hpc⟩ : ∃ s, (machine (fun c => [c.toLower]) strokes).run
      (State.start strokes (.readable " DEADBEEF\n".toList) none) laptopSession = some s ∧
      s.pc = .running := ⟨_, rfl, rfl⟩
  have hbase : (((none : Option (List (Contact Nat))).getD []).map
      (Contact.folded fun c => [c.toLower])).Nodup := List.nodup_nil
  obtain ⟨-, -, -, hcontacts⟩ := contacts_kept (fun c => [c.toLower]) strokes hbase hrun
  obtain ⟨hmade, -, -, hrestart⟩ := hcontacts hpc
  obtain ⟨t, hload, -, hid, hsaved, -⟩ := hrestart 4
  exact ⟨s, t, hrun, hmade, hload, hid, hsaved⟩

end P2PTransfer.Phone
