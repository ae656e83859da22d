import P2PTransfer.Transfer.Metadata

/-!
# The configuration file

The command line reads and writes `config.toml` as a `P2pConfig`, whose numbers have types of
their own. The desktop reads it as a document, puts a string under a key, and writes the document
back. What the desktop has written is read by the command line only where a string is expected.

## Main definitions

- `Toml` — the library that reads and writes documents
- `Cli.P2pConfig` — the record of the command line, with `load` and `save`
- `Gui.setConfig`, `Gui.Setting` — the command of the desktop, and the keys of its page
- `Readable` — what was set on the page is read by the command line

## Main results

- `readable_iff` — that is so as long as no number is set
-/

namespace P2PTransfer

/-- The values that the two programs put into the file. -/
inductive ConfigValue where
  | string (s : Text)
  | integer (n : Int)
deriving DecidableEq

abbrev ConfigDoc := AList fun _ : Text => ConfigValue

namespace ConfigDoc

def ofEntries (es : List (Text × ConfigValue)) : ConfigDoc :=
  es.foldr (fun e d => d.insert e.1 e.2) ∅

/-- The integers of the format have 64 bits. -/
def fits : ConfigValue → Bool
  | .integer n => decide (-2 ^ 63 ≤ n ∧ n < 2 ^ 63)
  | .string _ => true

def small (d : ConfigDoc) : Bool := d.entries.all fun e => fits e.2

theorem small_insert {d : ConfigDoc} (h : d.small) (key value : Text) :
    ConfigDoc.small (d.insert key (.string value)) := by
  unfold small at h ⊢
  rw [AList.entries_insert, List.all_cons, fits, Bool.true_and]
  exact List.all_eq_true.mpr fun e he =>
    List.all_eq_true.mp h e ((List.kerase_sublist key d.entries).subset he)

theorem lookup_ofEntries (es : List (Text × ConfigValue)) (k : Text) :
    (ofEntries es).lookup k = es.lookup k := by
  induction es with
  | nil => rfl
  | cons e es ih =>
    show AList.lookup k (AList.insert e.1 e.2 (ofEntries es)) = _
    by_cases h : k = e.1
    · subst h
      rw [AList.lookup_insert, List.lookup_cons, beq_self_eq_true]
    · rw [AList.lookup_insert_ne h, ih, List.lookup_cons, beq_eq_false_iff_ne.mpr h]

end ConfigDoc

/-- A document that fits the format can be written, and is read back as it was written. -/
structure Toml where
  File : Type
  render : ConfigDoc → Option File
  parse : File → Option ConfigDoc
  render_isSome : ∀ d, ConfigDoc.small d → (render d).isSome
  parse_render : ∀ d t, render d = some t → ∃ d', parse t = some d' ∧ ∀ k, d'.lookup k = d.lookup k
  parse_small : ∀ t d, parse t = some d → ConfigDoc.small d

namespace Cli

/-- `default_data_dir` depends on the machine, so the defaults do. -/
structure P2pConfig where
  tcpPort : UInt16
  chunkSize : UInt64
  compressionLevel : Int32
  discoveryPort : UInt16
  dataDir : Text
  relayServer : Option Text
  connections : UInt64
deriving DecidableEq

namespace P2pConfig

def default (dataDir : Text) : P2pConfig where
  tcpPort := 9877
  chunkSize := 16 * 1024 * 1024
  compressionLevel := 0
  discoveryPort := 9876
  dataDir := dataDir
  relayServer := none
  connections := 4

/-- The fields under their keys. A relay that is not there has no key. -/
def entries (c : P2pConfig) : List (Text × ConfigValue) :=
  [("tcp_port".toList, .integer c.tcpPort.toNat), ("chunk_size".toList, .integer c.chunkSize.toNat),
    ("compression_level".toList, .integer c.compressionLevel.toInt),
    ("discovery_port".toList, .integer c.discoveryPort.toNat),
    ("data_dir".toList, .string c.dataDir)] ++
  (c.relayServer.map fun r => ("relay_server".toList, ConfigValue.string r)).toList ++
  [("connections".toList, .integer c.connections.toNat)]

/-- A field that may be left out. -/
def field {α : Type} (read : ConfigValue → Option α) (default : α) (value : Option ConfigValue) :
    Option α :=
  match value with
  | none => some default
  | some v => read v

def readU16 : ConfigValue → Option UInt16
  | .integer n => if 0 ≤ n ∧ n < 2 ^ 16 then some (.ofNat n.toNat) else none
  | .string _ => none

def readUsize : ConfigValue → Option UInt64
  | .integer n => if 0 ≤ n ∧ n < 2 ^ 64 then some (.ofNat n.toNat) else none
  | .string _ => none

def readI32 : ConfigValue → Option Int32
  | .integer n => if -2 ^ 31 ≤ n ∧ n < 2 ^ 31 then some (.ofInt n) else none
  | .string _ => none

def readText : ConfigValue → Option Text
  | .string s => some s
  | .integer _ => none

/-- Keys that are no fields are not looked at. -/
def ofLookup (dataDir : Text) (get : Text → Option ConfigValue) : Option P2pConfig := do
  let tcpPort ← field readU16 (default dataDir).tcpPort (get "tcp_port".toList)
  let chunkSize ← field readUsize (default dataDir).chunkSize (get "chunk_size".toList)
  let compressionLevel ←
    field readI32 (default dataDir).compressionLevel (get "compression_level".toList)
  let discoveryPort ← field readU16 (default dataDir).discoveryPort (get "discovery_port".toList)
  let dataDir' ← field readText (default dataDir).dataDir (get "data_dir".toList)
  let relayServer ← field (fun v => (readText v).map some) (default dataDir).relayServer
    (get "relay_server".toList)
  let connections ← field readUsize (default dataDir).connections (get "connections".toList)
  return ⟨tcpPort, chunkSize, compressionLevel, discoveryPort, dataDir', relayServer, connections⟩

theorem ofLookup_eq_some {dataDir : Text} {get : Text → Option ConfigValue} {c : P2pConfig} :
    ofLookup dataDir get = some c ↔
      field readU16 (default dataDir).tcpPort (get "tcp_port".toList) = some c.tcpPort ∧
      field readUsize (default dataDir).chunkSize (get "chunk_size".toList) = some c.chunkSize ∧
      field readI32 (default dataDir).compressionLevel (get "compression_level".toList) =
        some c.compressionLevel ∧
      field readU16 (default dataDir).discoveryPort (get "discovery_port".toList) =
        some c.discoveryPort ∧
      field readText (default dataDir).dataDir (get "data_dir".toList) = some c.dataDir ∧
      field (fun v => (readText v).map some) (default dataDir).relayServer
        (get "relay_server".toList) = some c.relayServer ∧
      field readUsize (default dataDir).connections (get "connections".toList) =
        some c.connections := by
  simp only [ofLookup, Option.bind_eq_bind, Option.bind_eq_some_iff, Option.pure_def,
    Option.some.injEq]
  constructor
  · rintro ⟨_, h1, _, h2, _, h3, _, h4, _, h5, _, h6, _, h7, rfl⟩
    exact ⟨h1, h2, h3, h4, h5, h6, h7⟩
  · rintro ⟨h1, h2, h3, h4, h5, h6, h7⟩
    exact ⟨_, h1, _, h2, _, h3, _, h4, _, h5, _, h6, _, h7, rfl⟩

theorem readU16_toNat (n : UInt16) : readU16 (.integer n.toNat) = some n := by
  have hlt := n.toNat_lt
  simp only [readU16, Int.toNat_natCast, UInt16.ofNat_toNat]
  exact if_pos ⟨by omega, by exact_mod_cast hlt⟩

theorem readUsize_toNat (n : UInt64) : readUsize (.integer n.toNat) = some n := by
  have hlt := n.toNat_lt
  simp only [readUsize, Int.toNat_natCast, UInt64.ofNat_toNat]
  exact if_pos ⟨by omega, by exact_mod_cast hlt⟩

theorem readI32_toInt (n : Int32) : readI32 (.integer n.toInt) = some n := by
  simp only [readI32, Int32.ofInt_toInt]
  exact if_pos ⟨n.le_toInt, n.toInt_lt⟩

theorem field_of_eq {α : Type} {read : ConfigValue → Option α} {value : Option ConfigValue}
    {v : ConfigValue} {x : α} (hvalue : value = some v) (hread : read v = some x) (default : α) :
    field read default value = some x := by
  rw [hvalue]
  exact hread

/-- What is under the keys of a record is read as that record. -/
theorem ofLookup_entries (dataDir : Text) (c : P2pConfig) :
    ofLookup dataDir (fun k => c.entries.lookup k) = some c := by
  have hport : c.entries.lookup "tcp_port".toList = some (.integer c.tcpPort.toNat) := rfl
  have hchunk : c.entries.lookup "chunk_size".toList = some (.integer c.chunkSize.toNat) := rfl
  have hlevel : c.entries.lookup "compression_level".toList =
    some (.integer c.compressionLevel.toInt) := rfl
  have hdiscovery : c.entries.lookup "discovery_port".toList =
    some (.integer c.discoveryPort.toNat) := rfl
  have hdir : c.entries.lookup "data_dir".toList = some (.string c.dataDir) := rfl
  have htext : readText (.string c.dataDir) = some c.dataDir := rfl
  have hrelay : c.entries.lookup "relay_server".toList = c.relayServer.map .string := by
    unfold entries
    cases c.relayServer <;> rfl
  have hconn : c.entries.lookup "connections".toList = some (.integer c.connections.toNat) := by
    unfold entries
    cases c.relayServer <;> rfl
  refine ofLookup_eq_some.mpr ⟨field_of_eq hport (readU16_toNat c.tcpPort) _,
    field_of_eq hchunk (readUsize_toNat c.chunkSize) _,
    field_of_eq hlevel (readI32_toInt c.compressionLevel) _,
    field_of_eq hdiscovery (readU16_toNat c.discoveryPort) _, field_of_eq hdir htext _, ?_,
    field_of_eq hconn (readUsize_toNat c.connections) _⟩
  rw [hrelay]
  cases c.relayServer <;> rfl

def load (T : Toml) (dataDir : Text) (file : T.File) : Option P2pConfig :=
  (T.parse file).bind fun d => ofLookup dataDir fun k => d.lookup k

def save (T : Toml) (c : P2pConfig) : Option T.File := T.render (ConfigDoc.ofEntries c.entries)

end P2pConfig

end Cli

namespace Gui

/-- The document of a file, and the empty one where there is no file. -/
def document (T : Toml) : Option T.File → Option ConfigDoc
  | some t => T.parse t
  | none => some ∅

/-- The value becomes a string, whatever it was before. -/
def setConfig (T : Toml) (file : Option T.File) (key value : Text) : Option T.File :=
  (document T file).bind fun d => T.render (d.insert key (.string value))

/-- The keys of the page. -/
inductive Setting where
  | tcpPort
  | chunkSize
  | compressionLevel
  | discoveryPort
  | dataDir
  | relayServer
  | directoryIdentifier
  | outputDir
deriving DecidableEq

namespace Setting

def key : Setting → Text
  | tcpPort => "tcp_port".toList
  | chunkSize => "chunk_size".toList
  | compressionLevel => "compression_level".toList
  | discoveryPort => "discovery_port".toList
  | dataDir => "data_dir".toList
  | relayServer => "relay_server".toList
  | directoryIdentifier => "directory_identifier".toList
  | outputDir => "output_dir".toList

/-- The settings that are numbers. -/
def numeric : Setting → Bool
  | tcpPort | chunkSize | compressionLevel | discoveryPort => true
  | _ => false

/-- `validate`, over what `Number` makes of a text. A text without a finite number has none. -/
def accepts (number : Text → Option ℚ) (value : Text) : Setting → Prop
  | tcpPort | discoveryPort => value ≠ [] ∧
      ∃ n : ℤ, number value = some (n : ℚ) ∧ 1024 ≤ n ∧ n ≤ 65535
  | chunkSize => value ≠ [] ∧
      ∃ q, number value = some q ∧ 512 * 1024 ≤ q ∧ q ≤ 64 * 1024 * 1024
  | compressionLevel => value ≠ [] ∧ ∃ n : ℤ, number value = some (n : ℚ) ∧ 1 ≤ n ∧ n ≤ 22
  | dataDir | outputDir => value ≠ []
  | relayServer | directoryIdentifier => True

end Setting

/-- The calls of `set_config`, one after the other. -/
def setAll (T : Toml) (file : Option T.File) : List (Setting × Text) → Option (Option T.File)
  | [] => some file
  | call :: calls => (setConfig T file call.1.key call.2).bind fun t => setAll T (some t) calls

/-- The value that was set last. -/
def lastSet (s : Setting) (calls : List (Setting × Text)) : Option Text :=
  calls.reverse.lookup s

end Gui

open Cli Gui

/-- A number is what was set last, and what it was where it was not set. -/
def NumberSet (number : Text → Option ℚ) (set : Option Text) (before after : ℤ) : Prop :=
  match set with
  | some value => number value = some (after : ℚ)
  | none => after = before

/-- The record has the values that were set, and otherwise those of another record. -/
structure Yields (number : Text → Option ℚ) (base : P2pConfig) (calls : List (Setting × Text))
    (c : P2pConfig) : Prop where
  tcpPort : NumberSet number (lastSet .tcpPort calls) base.tcpPort.toNat c.tcpPort.toNat
  chunkSize : NumberSet number (lastSet .chunkSize calls) base.chunkSize.toNat c.chunkSize.toNat
  compressionLevel : NumberSet number (lastSet .compressionLevel calls)
    base.compressionLevel.toInt c.compressionLevel.toInt
  discoveryPort : NumberSet number (lastSet .discoveryPort calls) base.discoveryPort.toNat
    c.discoveryPort.toNat
  dataDir : c.dataDir = (lastSet .dataDir calls).getD base.dataDir
  relayServer : c.relayServer = (lastSet .relayServer calls).or base.relayServer
  connections : c.connections = base.connections

/-- The command line reads the file and has what was set. -/
def Readable (T : Toml) (number : Text → Option ℚ) (dataDir : Text) (base : P2pConfig)
    (file : Option T.File) (calls : List (Setting × Text)) : Prop :=
  ∃ t c, setAll T file calls = some (some t) ∧ P2pConfig.load T dataDir t = some c ∧
    Yields number base calls c

/-- There is no file, or one that the command line has written. -/
def Begins (T : Toml) (dataDir : Text) (base : P2pConfig) (file : Option T.File) : Prop :=
  (file = none ∧ base = .default dataDir) ∨ ∃ t, file = some t ∧ P2pConfig.save T base = some t

/-- What the file holds, key by key. -/
def Holds (T : Toml) (file : Option T.File) (get : Text → Option ConfigValue) : Prop :=
  match file with
  | none => ∀ k, get k = none
  | some t => ∃ d, T.parse t = some d ∧ ∀ k, d.lookup k = get k

/-- The keys after the calls. -/
def setKeys (get : Text → Option ConfigValue) (calls : List (Setting × Text)) :
    Text → Option ConfigValue :=
  calls.foldl (fun get call => Function.update get call.1.key (some (.string call.2))) get

section Calls

variable {T : Toml} {file : Option T.File} {get : Text → Option ConfigValue}

theorem Gui.lastSet_cons (s : Setting) (call : Setting × Text) (calls : List (Setting × Text)) :
    lastSet s (call :: calls) =
      (lastSet s calls).or (if call.1 = s then some call.2 else none) := by
  obtain ⟨k, v⟩ := call
  unfold lastSet
  rw [List.reverse_cons, List.lookup_append]
  by_cases h : k = s
  · subst h
    rw [List.lookup_cons, beq_self_eq_true, if_pos rfl]
  · rw [List.lookup_cons, beq_eq_false_iff_ne.mpr (Ne.symm h), if_neg h]
    rfl

theorem Gui.lastSet_eq_none {s : Setting} {calls : List (Setting × Text)} :
    lastSet s calls = none ↔ ∀ call ∈ calls, call.1 ≠ s := by
  induction calls with
  | nil => simp [lastSet]
  | cons call calls ih => simp [lastSet_cons, ih, and_comm]

theorem Gui.Setting.key_injective : Function.Injective Setting.key := by
  intro s t h
  cases s <;> cases t <;> first | rfl | exact absurd h (by decide)

/-- A key of the page holds what was set last. -/
theorem setKeys_key (get : Text → Option ConfigValue) (calls : List (Setting × Text))
    (s : Setting) :
    setKeys get calls s.key = ((lastSet s calls).map .string).or (get s.key) := by
  induction calls generalizing get with
  | nil => rfl
  | cons call calls ih =>
    show setKeys (Function.update get call.1.key _) calls s.key = _
    rw [ih, lastSet_cons]
    by_cases h : call.1 = s
    · subst h
      rw [Function.update_self, if_pos rfl]
      cases lastSet call.1 calls <;> rfl
    · rw [Function.update_of_ne (fun hk => h (Setting.key_injective hk.symm)), if_neg h]
      cases lastSet s calls <;> rfl

/-- Another key holds what it did. -/
theorem setKeys_of_ne (get : Text → Option ConfigValue) (calls : List (Setting × Text))
    {k : Text} (hk : ∀ s : Setting, k ≠ s.key) : setKeys get calls k = get k := by
  induction calls generalizing get with
  | nil => rfl
  | cons call calls ih =>
    show setKeys (Function.update get call.1.key _) calls k = _
    rw [ih, Function.update_of_ne (hk call.1)]

/-- A call of `set_config` succeeds and changes one key. -/
theorem Holds.setConfig (h : Holds T file get) (key value : Text) :
    ∃ t, setConfig T file key value = some t ∧
      Holds T (some t) (Function.update get key (some (.string value))) := by
  obtain ⟨d, hd, hlookup, hsmall⟩ : ∃ d : ConfigDoc, document T file = some d ∧
      (∀ k, d.lookup k = get k) ∧ d.small := by
    cases file with
    | none => exact ⟨∅, rfl, fun k => (h k).symm, rfl⟩
    | some t =>
      obtain ⟨d, hd, hlookup⟩ := h
      exact ⟨d, hd, hlookup, T.parse_small t d hd⟩
  obtain ⟨t, ht⟩ :=
    Option.isSome_iff_exists.mp (T.render_isSome _ (ConfigDoc.small_insert hsmall key value))
  obtain ⟨d', hd', hlookup'⟩ := T.parse_render _ t ht
  refine ⟨t, ?_, d', hd', fun k => ?_⟩
  · unfold Gui.setConfig
    rw [hd]
    exact ht
  · rw [hlookup']
    by_cases hkey : k = key
    · subst hkey
      rw [AList.lookup_insert, Function.update_self]
    · rw [AList.lookup_insert_ne hkey, Function.update_of_ne hkey, hlookup]

/-- So do all of them. -/
theorem Holds.setAll (h : Holds T file get) (calls : List (Setting × Text)) :
    ∃ file', setAll T file calls = some file' ∧ Holds T file' (setKeys get calls) ∧
      (file' = none ↔ file = none ∧ calls = []) := by
  induction calls generalizing file get with
  | nil => exact ⟨file, rfl, h, by simp⟩
  | cons call calls ih =>
    obtain ⟨t, ht, hholds⟩ := h.setConfig call.1.key call.2
    obtain ⟨file', hall, hholds', hnone⟩ := ih hholds
    refine ⟨file', ?_, hholds', ?_⟩
    · show (Gui.setConfig T file call.1.key call.2).bind _ = _
      rw [ht]
      exact hall
    · rw [hnone]
      simp

/-- What the command line reads depends on what the file holds. -/
theorem Holds.load {t : T.File} (h : Holds T (some t) get) (dataDir : Text) :
    P2pConfig.load T dataDir t = P2pConfig.ofLookup dataDir get := by
  obtain ⟨d, hd, hlookup⟩ := h
  unfold P2pConfig.load
  rw [hd, Option.bind_some]
  exact congrArg _ (funext hlookup)

/-- At the beginning the file holds the base, if there is one. -/
theorem Begins.holds {dataDir : Text} {base : P2pConfig} (h : Begins T dataDir base file) :
    ∃ get, Holds T file get ∧ P2pConfig.ofLookup dataDir get = some base := by
  rcases h with ⟨rfl, rfl⟩ | ⟨t, rfl, ht⟩
  · exact ⟨fun _ => none, fun _ => rfl, rfl⟩
  · obtain ⟨d, hd, hlookup⟩ := T.parse_render _ t ht
    refine ⟨fun k => base.entries.lookup k, ⟨d, hd, fun k => ?_⟩, P2pConfig.ofLookup_entries ..⟩
    rw [hlookup, ConfigDoc.lookup_ofEntries]

end Calls

/-- A string under the key of a number is not read. -/
theorem lastSet_eq_none_of_load {dataDir : Text} {get : Text → Option ConfigValue}
    {calls : List (Setting × Text)} {c : P2pConfig}
    (h : P2pConfig.ofLookup dataDir (setKeys get calls) = some c) {s : Setting}
    (hs : s.numeric) : lastSet s calls = none := by
  obtain ⟨h1, h2, h3, h4, -⟩ := P2pConfig.ofLookup_eq_some.mp h
  cases hset : lastSet s calls with
  | none => rfl
  | some v =>
    have hkey : setKeys get calls s.key = some (.string v) := by
      rw [setKeys_key, hset]
      rfl
    cases s with
    | tcpPort => rw [show "tcp_port".toList = Setting.tcpPort.key from rfl, hkey] at h1; cases h1
    | chunkSize =>
      rw [show "chunk_size".toList = Setting.chunkSize.key from rfl, hkey] at h2
      cases h2
    | compressionLevel =>
      rw [show "compression_level".toList = Setting.compressionLevel.key from rfl, hkey] at h3
      cases h3
    | discoveryPort =>
      rw [show "discovery_port".toList = Setting.discoveryPort.key from rfl, hkey] at h4
      cases h4
    | _ => cases hs

/-- Where no number is set the record is read, with the values that were. -/
theorem exists_yields {dataDir : Text} {get : Text → Option ConfigValue} {base : P2pConfig}
    {calls : List (Setting × Text)} (number : Text → Option ℚ)
    (hbase : P2pConfig.ofLookup dataDir get = some base)
    (hnum : ∀ call ∈ calls, call.1.numeric = false) :
    ∃ c, P2pConfig.ofLookup dataDir (setKeys get calls) = some c ∧
      Yields number base calls c := by
  have hnone : ∀ s : Setting, s.numeric → lastSet s calls = none := fun s hs =>
    lastSet_eq_none.mpr fun call hcall heq => by
      have hfalse := hnum call hcall
      rw [heq, hs] at hfalse
      cases hfalse
  have hsame : ∀ s : Setting, s.numeric → setKeys get calls s.key = get s.key := fun s hs => by
    rw [setKeys_key, hnone s hs]
    rfl
  have hconn : setKeys get calls "connections".toList = get "connections".toList :=
    setKeys_of_ne get calls fun s => by cases s <;> decide
  obtain ⟨h1, h2, h3, h4, h5, h6, h7⟩ := P2pConfig.ofLookup_eq_some.mp hbase
  refine ⟨{ base with
    dataDir := (lastSet .dataDir calls).getD base.dataDir,
    relayServer := (lastSet .relayServer calls).or base.relayServer },
    P2pConfig.ofLookup_eq_some.mpr ⟨?_, ?_, ?_, ?_, ?_, ?_, ?_⟩, ?_⟩
  · exact (congrArg _ (hsame .tcpPort rfl)).trans h1
  · exact (congrArg _ (hsame .chunkSize rfl)).trans h2
  · exact (congrArg _ (hsame .compressionLevel rfl)).trans h3
  · exact (congrArg _ (hsame .discoveryPort rfl)).trans h4
  · rw [show "data_dir".toList = Setting.dataDir.key from rfl, setKeys_key]
    cases lastSet .dataDir calls with
    | none => exact h5
    | some v => rfl
  · rw [show "relay_server".toList = Setting.relayServer.key from rfl, setKeys_key]
    cases lastSet .relayServer calls with
    | none => exact h6
    | some v => rfl
  · rw [hconn]
    exact h7
  · constructor
    · rw [hnone .tcpPort rfl]
      rfl
    · rw [hnone .chunkSize rfl]
      rfl
    · rw [hnone .compressionLevel rfl]
      rfl
    · rw [hnone .discoveryPort rfl]
      rfl
    · rfl
    · rfl
    · rfl

/-- **Settings.** What is set on the page of the desktop is read by the command line exactly when
there is a file to read and no number has been set. -/
theorem readable_iff {T : Toml} (number : Text → Option ℚ) {dataDir : Text} {base : P2pConfig}
    {file : Option T.File} (hbegin : Begins T dataDir base file)
    (calls : List (Setting × Text)) :
    Readable T number dataDir base file calls ↔
      (∀ call ∈ calls, call.1.numeric = false) ∧ ¬ (file = none ∧ calls = []) := by
  obtain ⟨get, hholds, hbase⟩ := hbegin.holds
  obtain ⟨file', hall, hholds', hnone⟩ := hholds.setAll calls
  constructor
  · rintro ⟨t, c, ht, hload, -⟩
    obtain rfl := Option.some.inj (hall.symm.trans ht)
    rw [hholds'.load] at hload
    refine ⟨fun call hcall => ?_, fun hempty => Option.some_ne_none t (hnone.mpr hempty)⟩
    by_contra hnum
    exact lastSet_eq_none.mp (lastSet_eq_none_of_load hload (Bool.not_eq_false _ ▸ hnum)) call hcall
      rfl
  · rintro ⟨hnum, hsome⟩
    obtain ⟨t, rfl⟩ := Option.ne_none_iff_exists'.mp fun heq => hsome (hnone.mp heq)
    obtain ⟨c, hload, hyields⟩ := exists_yields number hbase hnum
    exact ⟨t, c, hall, (hholds'.load dataDir).trans hload, hyields⟩

/-- A library whose files are the documents. -/
def Toml.plain : Toml where
  File := ConfigDoc
  render d := if d.small then some d else none
  parse t := if ConfigDoc.small t then some t else none
  render_isSome d h := by simp [h]
  parse_render d t h := by
    obtain ⟨hsmall, heq⟩ := Option.ite_none_right_eq_some.mp h
    obtain rfl := Option.some.inj heq
    exact ⟨d, if_pos hsmall, fun _ => rfl⟩
  parse_small t d h := by
    obtain ⟨hsmall, heq⟩ := Option.ite_none_right_eq_some.mp h
    obtain rfl := Option.some.inj heq
    exact hsmall

/-- `Number` on the digits of a decimal number. -/
def digits (value : Text) : Option ℚ :=
  if value ≠ [] ∧ value.all Char.isDigit then
    some (value.foldl (fun n c => 10 * n + (c.toNat - 48)) 0 : ℕ)
  else none

/-- A directory and a relay are set where there was no file. -/
theorem sample_readable : Readable .plain digits ['/'] (.default ['/']) none
    [(.dataDir, ['/', 'd']), (.relayServer, ['r']), (.outputDir, ['/', 'o'])] :=
  (readable_iff digits (.inl ⟨rfl, rfl⟩) _).mpr ⟨by decide, by simp⟩

/-- A port that the page accepts is not read. -/
theorem port_not_readable :
    Setting.tcpPort.accepts digits "9878".toList ∧
      ¬ Readable .plain digits ['/'] (.default ['/']) none [(.tcpPort, "9878".toList)] := by
  refine ⟨⟨by decide, 9878, ?_, by norm_num, by norm_num⟩, ?_⟩
  · have hvalue : "9878".toList.foldl (fun n c => 10 * n + (c.toNat - 48)) 0 = 9878 := by decide
    unfold digits
    rw [if_pos (by decide), hvalue]
    norm_num
  · rintro ⟨t, c, ht, hload, -⟩
    have hfile : t = ConfigDoc.ofEntries [("tcp_port".toList, .string "9878".toList)] := by
      have hset : setAll .plain none [(.tcpPort, "9878".toList)] =
        some (some (ConfigDoc.ofEntries [("tcp_port".toList, .string "9878".toList)])) := rfl
      exact (Option.some.inj (Option.some.inj (hset.symm.trans ht))).symm
    have hnone : P2pConfig.load .plain ['/']
        (ConfigDoc.ofEntries [("tcp_port".toList, .string "9878".toList)]) = none := rfl
    rw [hfile, hnone] at hload
    cases hload

end P2PTransfer
