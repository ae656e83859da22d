import P2PTransfer.Network.Discovery
import P2PTransfer.Storage.Config

/-!
# The settings of the command line

Every call of the program first loads its settings, or writes the defaults where there is no file,
and `p2p config` changes them. Between the calls they are kept in the file, which other programs
write as well.

## Main definitions

- `applyConfigSetting` — a text `KEY=VALUE` applied to the settings
- `Invocation.outcome` — a call as a function of the settings alone
- `invoke`, `session` — calls on the file

## Main results

- `session_refines` — on a file that can be loaded the calls do what they do on the settings, and on
  any other file they all fail
-/

namespace P2PTransfer.Cli

open Discovery

/-- `str::split_once('=')` -/
def splitOnce (kv : Text) : Option (Text × Text) :=
  if '=' ∈ kv then some (kv.takeWhile (· ≠ '='), (kv.dropWhile (· ≠ '=')).tail) else none

/-- `str::parse` for an unsigned number below a bound. -/
def parseUnsigned (bound : Nat) (t : Text) : Option Nat :=
  let digits := if t.head? = some '+' then t.tail else t
  if digits ≠ [] ∧ digits.all Char.isDigit ∧ Nat.ofDigitChars 10 digits 0 < bound then
    some (Nat.ofDigitChars 10 digits 0)
  else none

/-- `str::parse::<i32>` -/
def parseI32 (t : Text) : Option Int32 :=
  let digits := if t.head? = some '+' ∨ t.head? = some '-' then t.tail else t
  let n : Int := Nat.ofDigitChars 10 digits 0
  let signed := if t.head? = some '-' then -n else n
  if digits ≠ [] ∧ digits.all Char.isDigit ∧ -2 ^ 31 ≤ signed ∧ signed < 2 ^ 31 then
    some (.ofInt signed)
  else none

inductive SettingError where
  | format
  | notNumber (key : Text)
  | level
  | unknown (key : Text)
deriving DecidableEq

def SettingError.text : SettingError → Text
  | .format => "Format: KEY=VALUE".toList
  | .notNumber key => key ++ " must be a number".toList
  | .level => "compression_level must be 1-22".toList
  | .unknown key => "Unknown config key: ".toList ++ key ++
      ". Valid keys: tcp_port, chunk_size, compression_level, discovery_port, relay_server".toList

/-- `apply_config_setting`. A key is trimmed before it is looked at, but not in a message. -/
def applyConfigSetting (config : P2pConfig) (kv : Text) : Except SettingError P2pConfig :=
  match splitOnce kv with
  | none => .error .format
  | some (key, value) =>
    if trim key = "tcp_port".toList then
      match parseUnsigned (2 ^ 16) (trim value) with
      | some n => .ok { config with tcpPort := .ofNat n }
      | none => .error (.notNumber "tcp_port".toList)
    else if trim key = "chunk_size".toList then
      match parseUnsigned (2 ^ 64) (trim value) with
      | some n => .ok { config with chunkSize := .ofNat n }
      | none => .error (.notNumber "chunk_size".toList)
    else if trim key = "compression_level".toList then
      match parseI32 (trim value) with
      | some n =>
        if 1 ≤ n.toInt ∧ n.toInt ≤ 22 then .ok { config with compressionLevel := n }
        else .error .level
      | none => .error (.notNumber "compression_level".toList)
    else if trim key = "discovery_port".toList then
      match parseUnsigned (2 ^ 16) (trim value) with
      | some n => .ok { config with discoveryPort := .ofNat n }
      | none => .error (.notNumber "discovery_port".toList)
    else if trim key = "relay_server".toList then
      .ok { config with relayServer := some (trim value) }
    else .error (.unknown key)

inductive Command where
  | config (shown : Bool) (set : Option Text) (reset : Bool)
  | other

structure Invocation where
  daemon : Bool
  command : Command

inductive ConfigError where
  | load
  | save
  | setting (e : SettingError)
deriving DecidableEq

namespace P2pConfig

/-- The numbers fit the integers of the file. -/
def Savable (c : P2pConfig) : Prop := c.chunkSize.toNat < 2 ^ 63 ∧ c.connections.toNat < 2 ^ 63

instance (c : P2pConfig) : Decidable c.Savable := inferInstanceAs (Decidable (_ ∧ _))

end P2pConfig

/-- What a call makes of the settings: the new ones, or why they stay. -/
def Invocation.outcome (dataDir : Text) (c : P2pConfig) (inv : Invocation) :
    Except ConfigError P2pConfig :=
  if inv.daemon then .ok c
  else match inv.command with
    | .other => .ok c
    | .config _ set reset =>
      if reset then .ok (.default dataDir)
      else match set with
        | none => .ok c
        | some kv => match applyConfigSetting c kv with
          | .error e => .error (.setting e)
          | .ok c' => if c'.Savable then .ok c' else .error .save

section File

variable (T : Toml) (dataDir : Text)

/-- `main` up to the command: the settings, and the file that is there then. -/
def openConfig : Option T.File → Except ConfigError (P2pConfig × T.File)
  | some t => match P2pConfig.load T dataDir t with
    | some c => .ok (c, t)
    | none => .error .load
  | none => match P2pConfig.save T (.default dataDir) with
    | some t => .ok (.default dataDir, t)
    | none => .error .save

/-- `config.save`, which leaves the file where the settings cannot be written. -/
def saveConfig (t : T.File) (c : P2pConfig) : Option T.File × Except ConfigError P2pConfig :=
  match P2pConfig.save T c with
  | some t' => (some t', .ok c)
  | none => (some t, .error .save)

/-- One call of the program. -/
def invoke (file : Option T.File) (inv : Invocation) :
    Option T.File × Except ConfigError P2pConfig :=
  match openConfig T dataDir file with
  | .error e => (file, .error e)
  | .ok (c, t) =>
    if inv.daemon then (some t, .ok c)
    else match inv.command with
      | .other => (some t, .ok c)
      | .config _ set reset =>
        if reset then saveConfig T t (.default dataDir)
        else match set with
          | none => (some t, .ok c)
          | some kv =>
            -- the file is read once more
            match P2pConfig.load T dataDir t with
            | none => (some t, .error .load)
            | some c => match applyConfigSetting c kv with
              | .error e => (some t, .error (.setting e))
              | .ok c' => saveConfig T t c'

/-- Calls one after the other, with what they return. -/
def session : Option T.File → List Invocation → Option T.File × List (Except ConfigError P2pConfig)
  | file, [] => (file, [])
  | file, inv :: invs =>
    let r := invoke T dataDir file inv
    ((session r.1 invs).1, r.2 :: (session r.1 invs).2)

/-- The same on the settings alone. -/
def outcomes : P2pConfig → List Invocation → P2pConfig × List (Except ConfigError P2pConfig)
  | c, [] => (c, [])
  | c, inv :: invs =>
    let r := inv.outcome dataDir c
    ((outcomes (r.toOption.getD c) invs).1, r :: (outcomes (r.toOption.getD c) invs).2)

end File

section Load

variable {T : Toml} {dataDir : Text} {c : P2pConfig} {t : T.File}

/-- Settings that have been written are read back. -/
theorem load_save (h : P2pConfig.save T c = some t) : P2pConfig.load T dataDir t = some c := by
  obtain ⟨d, hparse, hlookup⟩ := T.parse_render _ _ h
  have hsame : (fun k => d.lookup k) = fun k => c.entries.lookup k := by
    funext k
    rw [hlookup k, ConfigDoc.lookup_ofEntries]
  rw [P2pConfig.load, hparse, Option.bind_some, hsame]
  exact P2pConfig.ofLookup_entries dataDir c

theorem small_ofEntries {es : List (Text × ConfigValue)} (h : ∀ e ∈ es, ConfigDoc.fits e.2) :
    ConfigDoc.small (ConfigDoc.ofEntries es) := by
  induction es with
  | nil => rfl
  | cons e es ih =>
    have hrest := ih fun e' he' => h e' (List.mem_cons_of_mem e he')
    show ConfigDoc.small (AList.insert e.1 e.2 (ConfigDoc.ofEntries es))
    unfold ConfigDoc.small at hrest ⊢
    rw [AList.entries_insert, List.all_cons, h e List.mem_cons_self, Bool.true_and]
    exact List.all_eq_true.mpr fun e' he' =>
      List.all_eq_true.mp hrest e' ((List.kerase_sublist e.1 _).subset he')

theorem fits_of_small {d : ConfigDoc} (h : d.small) {k : Text} {v : ConfigValue}
    (hv : d.lookup k = some v) : ConfigDoc.fits v = true :=
  List.all_eq_true.mp h ⟨k, v⟩ (AList.mem_lookup_iff.mp hv)

theorem fits_integer {n : Int} :
    ConfigDoc.fits (.integer n) = true ↔ -2 ^ 63 ≤ n ∧ n < 2 ^ 63 := decide_eq_true_iff

theorem save_isSome_iff (T : Toml) (c : P2pConfig) : (P2pConfig.save T c).isSome ↔ c.Savable := by
  constructor
  · intro h
    obtain ⟨t, ht⟩ := Option.isSome_iff_exists.mp h
    obtain ⟨d, hparse, hlookup⟩ := T.parse_render _ _ ht
    have hsmall := T.parse_small _ _ hparse
    have hchunk : d.lookup "chunk_size".toList = some (.integer c.chunkSize.toNat) := by
      rw [hlookup, ConfigDoc.lookup_ofEntries]
      rfl
    have hconn : d.lookup "connections".toList = some (.integer c.connections.toNat) := by
      rw [hlookup, ConfigDoc.lookup_ofEntries, P2pConfig.entries]
      cases c.relayServer <;> rfl
    have hfitsChunk := fits_integer.mp (fits_of_small hsmall hchunk)
    have hfitsConn := fits_integer.mp (fits_of_small hsmall hconn)
    exact ⟨by omega, by omega⟩
  · rintro ⟨hchunk, hconn⟩
    apply T.render_isSome
    apply small_ofEntries
    intro e he
    have hport := c.tcpPort.toNat_lt
    have hdiscovery := c.discoveryPort.toNat_lt
    have hlevel := c.compressionLevel.le_toInt
    have hlevel' := c.compressionLevel.toInt_lt
    simp only [P2pConfig.entries, List.mem_append, List.mem_cons, List.not_mem_nil, or_false,
      Option.mem_toList, Option.map_eq_some_iff] at he
    rcases he with ((rfl | rfl | rfl | rfl | rfl) | ⟨r, -, rfl⟩) | rfl
    · exact fits_integer.mpr (by omega)
    · exact fits_integer.mpr (by omega)
    · exact fits_integer.mpr (by omega)
    · exact fits_integer.mpr (by omega)
    · rfl
    · rfl
    · exact fits_integer.mpr (by omega)

theorem saveConfig_of_savable (T : Toml) (t : T.File) (h : c.Savable) :
    ∃ t', P2pConfig.save T c = some t' ∧ saveConfig T t c = (some t', .ok c) := by
  obtain ⟨t', ht'⟩ := Option.isSome_iff_exists.mp ((save_isSome_iff T c).mpr h)
  exact ⟨t', ht', by rw [saveConfig, ht']⟩

theorem saveConfig_of_not_savable (T : Toml) (t : T.File) (h : ¬ c.Savable) :
    saveConfig T t c = (some t, .error .save) := by
  have hnone : P2pConfig.save T c = none := by
    rw [← Option.not_isSome_iff_eq_none, save_isSome_iff]
    exact h
  rw [saveConfig, hnone]

theorem default_savable (dataDir : Text) : (P2pConfig.default dataDir).Savable :=
  ⟨show (16 * 1024 * 1024 : UInt64).toNat < 2 ^ 63 by decide,
    show (4 : UInt64).toNat < 2 ^ 63 by decide⟩

end Load

/-- The settings that a call starts with. -/
def current (T : Toml) (dataDir : Text) : Option T.File → Option P2pConfig
  | some t => P2pConfig.load T dataDir t
  | none => some (.default dataDir)

section Session

variable {T : Toml} {dataDir : Text} {c : P2pConfig} {file : Option T.File}

/-- A call finds its settings, and there is a file that holds them. -/
theorem openConfig_of_current (h : current T dataDir file = some c) :
    ∃ t, openConfig T dataDir file = .ok (c, t) ∧ P2pConfig.load T dataDir t = some c := by
  cases file with
  | some t =>
    have hload : P2pConfig.load T dataDir t = some c := h
    exact ⟨t, by rw [openConfig, hload], hload⟩
  | none =>
    obtain rfl := Option.some.inj h
    obtain ⟨t, ht⟩ :=
      Option.isSome_iff_exists.mp ((save_isSome_iff T _).mpr (default_savable dataDir))
    exact ⟨t, by rw [openConfig, ht], load_save ht⟩

/-- **One call.** It returns what the settings alone determine, and leaves a file that holds the
new settings, or the old ones after an error. -/
theorem invoke_refines (h : current T dataDir file = some c) (inv : Invocation) :
    ∃ t, invoke T dataDir file inv = (some t, inv.outcome dataDir c) ∧
      P2pConfig.load T dataDir t = some ((inv.outcome dataDir c).toOption.getD c) := by
  obtain ⟨t, hopen, hload⟩ := openConfig_of_current h
  obtain ⟨daemon, command⟩ := inv
  rw [invoke, hopen]
  dsimp only [Invocation.outcome]
  cases daemon with
  | true => exact ⟨t, rfl, hload⟩
  | false =>
    cases command with
    | other => exact ⟨t, rfl, hload⟩
    | config shown set reset =>
      cases reset with
      | true =>
        obtain ⟨t', hsave, hresult⟩ := saveConfig_of_savable T t (default_savable dataDir)
        exact ⟨t', hresult, load_save hsave⟩
      | false =>
        cases set with
        | none => exact ⟨t, rfl, hload⟩
        | some kv =>
          dsimp only
          rw [if_neg Bool.false_ne_true, if_neg Bool.false_ne_true, if_neg Bool.false_ne_true,
            if_neg Bool.false_ne_true, hload]
          dsimp only
          cases happly : applyConfigSetting c kv with
          | error e => exact ⟨t, rfl, hload⟩
          | ok c' =>
            dsimp only
            by_cases hsavable : c'.Savable
            · obtain ⟨t', hsave, hresult⟩ := saveConfig_of_savable T t hsavable
              rw [if_pos hsavable]
              exact ⟨t', hresult, load_save hsave⟩
            · rw [if_neg hsavable]
              exact ⟨t, saveConfig_of_not_savable T t hsavable, hload⟩

/-- A level that is in the file by default or has been set. -/
def P2pConfig.LevelOk (c : P2pConfig) : Prop :=
  c.compressionLevel = 0 ∨ (1 ≤ c.compressionLevel.toInt ∧ c.compressionLevel.toInt ≤ 22)

/-- What a setting changes: the field of its key, to a value of its type. -/
theorem applyConfigSetting_cases {c' : P2pConfig} {kv : Text}
    (h : applyConfigSetting c kv = .ok c') :
    ∃ key value, splitOnce kv = some (key, value) ∧
      ((trim key = "tcp_port".toList ∧ ∃ n, c' = { c with tcpPort := n }) ∨
        (trim key = "chunk_size".toList ∧ ∃ n, c' = { c with chunkSize := n }) ∨
        (trim key = "compression_level".toList ∧
          ∃ n : Int32, 1 ≤ n.toInt ∧ n.toInt ≤ 22 ∧ c' = { c with compressionLevel := n }) ∨
        (trim key = "discovery_port".toList ∧ ∃ n, c' = { c with discoveryPort := n }) ∨
        (trim key = "relay_server".toList ∧ c' = { c with relayServer := some (trim value) })) := by
  unfold applyConfigSetting at h
  split at h
  · cases h
  · next key value hsplit =>
    refine ⟨key, value, hsplit, ?_⟩
    split at h
    · next hkey =>
      split at h
      · exact .inl ⟨hkey, _, (Except.ok.inj h).symm⟩
      · cases h
    · split at h
      · next hkey =>
        split at h
        · exact .inr (.inl ⟨hkey, _, (Except.ok.inj h).symm⟩)
        · cases h
      · split at h
        · next hkey =>
          split at h
          · next n _ =>
            split at h
            · next hlevel =>
              exact .inr (.inr (.inl ⟨hkey, n, hlevel.1, hlevel.2, (Except.ok.inj h).symm⟩))
            · cases h
          · cases h
        · split at h
          · next hkey =>
            split at h
            · exact .inr (.inr (.inr (.inl ⟨hkey, _, (Except.ok.inj h).symm⟩)))
            · cases h
          · split at h
            · next hkey => exact .inr (.inr (.inr (.inr ⟨hkey, (Except.ok.inj h).symm⟩)))
            · cases h

theorem applyConfigSetting_levelOk {c' : P2pConfig} {kv : Text} (hc : c.LevelOk)
    (h : applyConfigSetting c kv = .ok c') : c'.LevelOk := by
  obtain ⟨key, value, -, hcases⟩ := applyConfigSetting_cases h
  rcases hcases with ⟨-, n, rfl⟩ | ⟨-, n, rfl⟩ | ⟨-, n, hlow, hhigh, rfl⟩ | ⟨-, n, rfl⟩ | ⟨-, rfl⟩
  · exact hc
  · exact hc
  · exact .inr ⟨hlow, hhigh⟩
  · exact hc
  · exact hc

theorem lookup_relay {k : Text} (hk : k ≠ "relay_server".toList) (relay : Option Text) :
    (relay.map fun r => ("relay_server".toList, ConfigValue.string r)).toList.lookup k = none := by
  cases relay with
  | none => rfl
  | some r =>
    rw [Option.map_some, Option.toList_some, List.lookup_cons, beq_eq_false_iff_ne.mpr hk]
    rfl

/-- A setting leaves what is under every other key of the file. -/
theorem applyConfigSetting_frame {c' : P2pConfig} {kv : Text}
    (h : applyConfigSetting c kv = .ok c') :
    ∃ key value, splitOnce kv = some (key, value) ∧
      ∀ k, k ≠ trim key → c'.entries.lookup k = c.entries.lookup k := by
  obtain ⟨key, value, hsplit, hcases⟩ := applyConfigSetting_cases h
  refine ⟨key, value, hsplit, fun k hk => ?_⟩
  rcases hcases with ⟨hkey, n, rfl⟩ | ⟨hkey, n, rfl⟩ | ⟨hkey, n, -, -, rfl⟩ | ⟨hkey, n, rfl⟩ |
    ⟨hkey, rfl⟩ <;> rw [hkey] at hk
  · simp only [P2pConfig.entries, List.lookup_append, List.lookup_cons,
      beq_eq_false_iff_ne.mpr hk]
  · simp only [P2pConfig.entries, List.lookup_append, List.lookup_cons,
      beq_eq_false_iff_ne.mpr hk]
  · simp only [P2pConfig.entries, List.lookup_append, List.lookup_cons,
      beq_eq_false_iff_ne.mpr hk]
  · simp only [P2pConfig.entries, List.lookup_append, List.lookup_cons,
      beq_eq_false_iff_ne.mpr hk]
  · simp only [P2pConfig.entries, List.lookup_append, lookup_relay hk]

theorem outcome_levelOk (hc : c.LevelOk) (inv : Invocation) :
    ((inv.outcome dataDir c).toOption.getD c).LevelOk := by
  obtain ⟨daemon, command⟩ := inv
  unfold Invocation.outcome
  dsimp only
  cases daemon with
  | true => exact hc
  | false =>
    cases command with
    | other => exact hc
    | config shown set reset =>
      cases reset with
      | true => exact .inl rfl
      | false =>
        cases set with
        | none => exact hc
        | some kv =>
          dsimp only
          cases happly : applyConfigSetting c kv with
          | error e => exact hc
          | ok c' =>
            have hlevel := applyConfigSetting_levelOk hc happly
            by_cases hsavable : c'.Savable
            · simpa [hsavable, Except.toOption] using hlevel
            · simpa [hsavable, Except.toOption] using hc

/-- **Calls on the file are calls on the settings.** From a file that can be loaded, or none, any
calls return what they return on the settings alone, and the file holds the settings that come out;
a setting that is refused leaves it, and one that is not leaves all other keys. A file that cannot
be loaded stays as it is, and every call on it fails, also one that would reset it. -/
theorem session_refines (T : Toml) (dataDir : Text) (file : Option T.File)
    (invs : List Invocation) :
    (∀ c, current T dataDir file = some c →
      (session T dataDir file invs).2 = (outcomes dataDir c invs).2 ∧
      current T dataDir (session T dataDir file invs).1 = some (outcomes dataDir c invs).1 ∧
      (invs ≠ [] → (session T dataDir file invs).1.isSome) ∧
      (c.LevelOk → (outcomes dataDir c invs).1.LevelOk)) ∧
    (current T dataDir file = none →
      session T dataDir file invs = (file, invs.map fun _ => .error .load)) ∧
    ∀ c kv c', applyConfigSetting c kv = .ok c' → ∃ key value, splitOnce kv = some (key, value) ∧
      ∀ k, k ≠ trim key → c'.entries.lookup k = c.entries.lookup k := by
  refine ⟨?_, ?_, fun c kv c' h => applyConfigSetting_frame h⟩
  · induction invs generalizing file with
    | nil => exact fun c hc => ⟨rfl, hc, fun h => absurd rfl h, id⟩
    | cons inv invs ih =>
      intro c hc
      obtain ⟨t, hinvoke, hload⟩ := invoke_refines hc inv
      obtain ⟨hresults, hcurrent, hsome, hlevel⟩ := ih (some t) _ hload
      rw [session, outcomes, hinvoke]
      dsimp only
      refine ⟨by rw [hresults], hcurrent, fun _ => ?_, fun hc => hlevel (outcome_levelOk hc inv)⟩
      cases invs with
      | nil => rfl
      | cons inv' invs => exact hsome (List.cons_ne_nil _ _)
  · intro hnone
    cases file with
    | none => cases hnone
    | some t =>
      have hload : P2pConfig.load T dataDir t = none := hnone
      have hinvoke : ∀ inv, invoke T dataDir (some t) inv = (some t, .error .load) := by
        intro inv
        rw [invoke, openConfig, hload]
      induction invs with
      | nil => rfl
      | cons inv invs ih =>
        rw [session, hinvoke]
        dsimp only
        rw [ih]
        rfl

/-- A level that is refused, a port that is set, and a file of the GUI that stays broken. -/
theorem session_refines_plain :
    (session .plain ['/'] none [⟨false, .config false (some "compression_level=0".toList) false⟩,
        ⟨false, .config false (some "tcp_port = 80".toList) false⟩]).2 =
      [.error (.setting .level), .ok { P2pConfig.default ['/'] with tcpPort := 80 }] ∧
    ∀ invs, session .plain ['/']
        (some (ConfigDoc.ofEntries [("tcp_port".toList, .string "80".toList)])) invs =
      (some (ConfigDoc.ofEntries [("tcp_port".toList, .string "80".toList)]),
        invs.map fun _ => .error .load) := by
  constructor
  · rw [((session_refines .plain ['/'] none _).1 (.default ['/']) rfl).1]
    decide +kernel
  · intro invs
    exact (session_refines .plain ['/'] _ invs).2.1 rfl

end Session

end P2PTransfer.Cli
