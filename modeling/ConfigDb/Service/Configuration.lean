import ConfigDb.Storage.Decimal
import Mathlib.Data.List.ModifyLast

/-!
# The configuration of the service

`model::Configuration` and its constructor, which reads one environment variable after the other and
writes a field for each.

A field depends on the variables whose blocks write it.  These are the variables that are documented
for it, but for two fields: the block of `CONFIG_DB_LOGGING_DIR` writes `logging.level`, which
leaves `logging.dir` without a variable.

## Main definitions

* `Configuration` : the fields, with their defaults.
* `EnvVar` : the documented variables, with the fields that they are documented for.
* `Configuration.ofEnv` : the constructor.

## Main results

* `Configuration.get_ofEnv_congr` : a field depends on the variables whose blocks write it.
* `Configuration.peers_ofEnv` : the peers are those up to the first host that is not set.
* `environment_variables_iff` : when the variables do not interfere, and determine their fields.
-/

namespace ConfigDb

/-- A string literal of ASCII characters. -/
def text (s : String) : Bytes := s.toList.map fun c => UInt8.ofNat c.toNat

/-! ### The fields -/

/-- `Configuration::Encryption`. -/
structure Configuration.Encryption where
  /-- Salt of the key derivation. -/
  salt : Bytes := text "jJ1LFPN2kl8P34saLd4rGe/UWncig04"
  /-- The buffer that the derived key is written to. -/
  key : Bytes := text "mQtFU2PCvbqFhoM4XnB8yQMDETnSUaW"
  /-- The buffer that the derived initialisation vector is written to. -/
  iv : Bytes := text "Mr+xbc4TRKDrnCCrzE4t/7+ORrCfs6i"
  /-- The secret of the key derivation. -/
  secret : Bytes := text "TpSBvWY35C1sqURL9JCy6sKRtScKvCPTTQUZUE/vrfQ="
  /-- The number of rounds of the key derivation. -/
  rounds : Int32 := 1000000
  deriving DecidableEq

/-- `Configuration::Logging`. -/
structure Configuration.Logging where
  /-- One of `debug`, `info`, `warn` and `critical`. -/
  level : Bytes := text "info"
  /-- The directory of the log files. -/
  dir : Bytes := text "logs/"
  /-- Write to the console too. -/
  console : Bool := false
  deriving DecidableEq

/-- `Configuration::SSL`, with the defaults of the platforms other than Apple's. -/
structure Configuration.SSL where
  /-- The file of the authority's certificate. -/
  caCertificate : Bytes := text "/opt/spt/certs/ca.crt"
  /-- The file of the certificate. -/
  certificate : Bytes := text "/opt/spt/certs/server.crt"
  /-- The file of the key. -/
  key : Bytes := text "/opt/spt/certs/server.key"
  /-- Use TLS. -/
  enable : Bool := false
  deriving DecidableEq

/-- `Configuration::Services`, with the defaults of the platforms other than Apple's. -/
structure Configuration.Services where
  /-- The port of the HTTP service, `0` for none. -/
  http : Bytes := text "6020"
  /-- The port of the TCP service. -/
  tcp : Int32 := 2020
  /-- The port of the notification service. -/
  notify : Int32 := 2120
  deriving DecidableEq

/-- `Configuration::Peer`. -/
structure Configuration.Peer where
  /-- The host of the peer. -/
  host : Bytes := []
  /-- The notification port of the peer. -/
  port : Int32 := 0
  deriving DecidableEq

/-- `Configuration::Storage`, with the defaults of the platforms other than Apple's. -/
structure Configuration.Storage where
  /-- The directory of the database. -/
  dbpath : Bytes := text "/opt/spt/data/config-db"
  /-- The directory of the backups. -/
  backupPath : Bytes := text "/opt/spt/data/config-db/backup"
  /-- The size of the block cache. -/
  blockCacheSizeMb : UInt64 := 8
  /-- The seconds between two sweeps for expired keys. -/
  cleanExpiredKeysInterval : UInt32 := 1
  /-- The initial size of the encrypter pool. -/
  encrypterInitialPoolSize : UInt32 := 5
  /-- The number of backups to keep. -/
  maxBackups : UInt32 := 5
  /-- Guard the database by a mutex. -/
  useMutex : Bool := true
  deriving DecidableEq

/-- `model::Configuration`; the default of `threads` is the number of cores. -/
structure Configuration where
  /-- The encryption of the values. -/
  encryption : Configuration.Encryption := {}
  /-- The logs. -/
  logging : Configuration.Logging := {}
  /-- The certificates. -/
  ssl : Configuration.SSL := {}
  /-- The services and their ports. -/
  services : Configuration.Services := {}
  /-- The database. -/
  storage : Configuration.Storage := {}
  /-- The instances to listen to. -/
  peers : List Configuration.Peer := []
  /-- The number of threads of the service. -/
  threads : UInt32
  /-- Keep decrypted values in the value cache. -/
  enableCache : Bool := false
  deriving DecidableEq

/-- A field of the configuration. -/
inductive Field
  | threads | enableCache
  | encryptionSalt | encryptionKey | encryptionIv | encryptionSecret | encryptionRounds
  | loggingLevel | loggingDir | loggingConsole
  | servicesHttp | servicesTcp | servicesNotify
  | peers
  | storageDbpath | storageBackupPath | storageBlockCacheSizeMb | storageCleanExpiredKeysInterval
  | storageEncrypterInitialPoolSize | storageMaxBackups | storageUseMutex
  | ssl
  deriving DecidableEq

/-- The type of a field. -/
abbrev Field.Value : Field → Type
  | .threads => UInt32
  | .enableCache => Bool
  | .encryptionSalt | .encryptionKey | .encryptionIv | .encryptionSecret => Bytes
  | .encryptionRounds => Int32
  | .loggingLevel | .loggingDir => Bytes
  | .loggingConsole => Bool
  | .servicesHttp => Bytes
  | .servicesTcp | .servicesNotify => Int32
  | .peers => List Configuration.Peer
  | .storageDbpath | .storageBackupPath => Bytes
  | .storageBlockCacheSizeMb => UInt64
  | .storageCleanExpiredKeysInterval | .storageEncrypterInitialPoolSize => UInt32
  | .storageMaxBackups => UInt32
  | .storageUseMutex => Bool
  | .ssl => Configuration.SSL

/-- The value of a field. -/
def Configuration.get (c : Configuration) : (f : Field) → f.Value
  | .threads => c.threads
  | .enableCache => c.enableCache
  | .encryptionSalt => c.encryption.salt
  | .encryptionKey => c.encryption.key
  | .encryptionIv => c.encryption.iv
  | .encryptionSecret => c.encryption.secret
  | .encryptionRounds => c.encryption.rounds
  | .loggingLevel => c.logging.level
  | .loggingDir => c.logging.dir
  | .loggingConsole => c.logging.console
  | .servicesHttp => c.services.http
  | .servicesTcp => c.services.tcp
  | .servicesNotify => c.services.notify
  | .peers => c.peers
  | .storageDbpath => c.storage.dbpath
  | .storageBackupPath => c.storage.backupPath
  | .storageBlockCacheSizeMb => c.storage.blockCacheSizeMb
  | .storageCleanExpiredKeysInterval => c.storage.cleanExpiredKeysInterval
  | .storageEncrypterInitialPoolSize => c.storage.encrypterInitialPoolSize
  | .storageMaxBackups => c.storage.maxBackups
  | .storageUseMutex => c.storage.useMutex
  | .ssl => c.ssl

/-! ### The variables -/

/-- The environment of the process. -/
abbrev Environment := String → Option Bytes

/-- An environment variable that is documented. -/
inductive EnvVar
  | threads | enableCache
  | encryptionSalt | encryptionKey | encryptionIv | encryptionSecret | encryptionRounds
  | loggingLevel | loggingDir | loggingConsole
  | servicesHttp | servicesTcp | servicesNotify
  | peerHost (n : Fin 7) | peerPort (n : Fin 7)
  | storageDbpath | storageBackupPath | storageBlockCacheSizeMb | storageCleanExpiredKeysInterval
  | storageEncrypterInitialPoolSize | storageMaxBackups | storageUseMutex
  deriving DecidableEq

/-- The name of a variable. -/
def EnvVar.name : EnvVar → String
  | .threads => "CONFIG_DB_THREADS"
  | .enableCache => "CONFIG_DB_ENABLE_CACHE"
  | .encryptionSalt => "CONFIG_DB_ENCRYPTION_SALT"
  | .encryptionKey => "CONFIG_DB_ENCRYPTION_KEY"
  | .encryptionIv => "CONFIG_DB_ENCRYPTION_IV"
  | .encryptionSecret => "CONFIG_DB_ENCRYPTION_SECRET"
  | .encryptionRounds => "CONFIG_DB_ENCRYPTION_ROUNDS"
  | .loggingLevel => "CONFIG_DB_LOGGING_LEVEL"
  | .loggingDir => "CONFIG_DB_LOGGING_DIR"
  | .loggingConsole => "CONFIG_DB_LOGGING_CONSOLE"
  | .servicesHttp => "CONFIG_DB_SERVICES_HTTP"
  | .servicesTcp => "CONFIG_DB_SERVICES_TCP"
  | .servicesNotify => "CONFIG_DB_SERVICES_NOTIFY"
  | .peerHost n => "CONFIG_DB_PEERS" ++ Nat.repr n ++ "_HOST"
  | .peerPort n => "CONFIG_DB_PEERS" ++ Nat.repr n ++ "_PORT"
  | .storageDbpath => "CONFIG_DB_STORAGE_DBPATH"
  | .storageBackupPath => "CONFIG_DB_STORAGE_BACKUP_PATH"
  | .storageBlockCacheSizeMb => "CONFIG_DB_STORAGE_BLOCK_CACHE_SIZE_MB"
  | .storageCleanExpiredKeysInterval => "CONFIG_DB_STORAGE_CLEAN_EXPIRED_KEYS_INTERVAL"
  | .storageEncrypterInitialPoolSize => "CONFIG_DB_STORAGE_ENCRYPTER_INITIAL_POOL_SIZE"
  | .storageMaxBackups => "CONFIG_DB_STORAGE_MAX_BACKUPS"
  | .storageUseMutex => "CONFIG_DB_STORAGE_USE_MUTEX"

/-- The field that a variable is documented for. -/
def EnvVar.field : EnvVar → Field
  | .threads => .threads
  | .enableCache => .enableCache
  | .encryptionSalt => .encryptionSalt
  | .encryptionKey => .encryptionKey
  | .encryptionIv => .encryptionIv
  | .encryptionSecret => .encryptionSecret
  | .encryptionRounds => .encryptionRounds
  | .loggingLevel => .loggingLevel
  | .loggingDir => .loggingDir
  | .loggingConsole => .loggingConsole
  | .servicesHttp => .servicesHttp
  | .servicesTcp => .servicesTcp
  | .servicesNotify => .servicesNotify
  | .peerHost _ | .peerPort _ => .peers
  | .storageDbpath => .storageDbpath
  | .storageBackupPath => .storageBackupPath
  | .storageBlockCacheSizeMb => .storageBlockCacheSizeMb
  | .storageCleanExpiredKeysInterval => .storageCleanExpiredKeysInterval
  | .storageEncrypterInitialPoolSize => .storageEncrypterInitialPoolSize
  | .storageMaxBackups => .storageMaxBackups
  | .storageUseMutex => .storageUseMutex

/-- `std::getenv`. -/
def EnvVar.getenv (v : EnvVar) (env : Environment) : Option Bytes := env v.name

/-! ### The constructor -/

/-- `std::isspace`. -/
def isSpace (b : UInt8) : Bool := b == 32 || (9 ≤ b && b ≤ 13)

/-- `std::strtol( value, nullptr, 10 )` and `std::strtoll`, both into 64 bits: white space, a sign,
and digits, of which there may be none; numbers that do not fit are cut off. -/
def strtol (value : Bytes) : ℤ :=
  let digits (s : Bytes) : ℕ := (s.takeWhile isDigit).foldl (fun n d => 10 * n + (d.toNat - 48)) 0
  match value.dropWhile isSpace with
  | 45 :: s => max (-(digits s : ℤ)) (-2 ^ 63)
  | 43 :: s => min (digits s) (2 ^ 63 - 1)
  | s => min (digits s) (2 ^ 63 - 1)

/-- The levels that are accepted. -/
def levels : List Bytes := [text "debug", text "info", text "warn", text "critical"]

/-- What the block of a variable does with its value. -/
def EnvVar.assign (value : Bytes) (c : Configuration) : EnvVar → Configuration
  | .threads => { c with threads := UInt32.ofInt (strtol value) }
  | .enableCache => { c with enableCache := value == text "true" }
  | .encryptionSalt => { c with encryption.salt := value }
  | .encryptionKey => { c with encryption.key := value }
  | .encryptionIv => { c with encryption.iv := value }
  | .encryptionSecret => { c with encryption.secret := value }
  | .encryptionRounds => { c with encryption.rounds := Int32.ofInt (strtol value) }
  | .loggingLevel => if value ∈ levels then { c with logging.level := value } else c
  -- the source writes the level, not the directory
  | .loggingDir => { c with logging.level := value }
  | .loggingConsole => { c with logging.console := value == text "true" }
  | .servicesHttp => { c with services.http := value }
  | .servicesTcp => { c with services.tcp := Int32.ofInt (strtol value) }
  | .servicesNotify => { c with services.notify := Int32.ofInt (strtol value) }
  | .peerHost n =>
    if c.peers.length = n then { c with peers := c.peers ++ [{ host := value }] } else c
  | .peerPort n =>
    if c.peers.length = n + 1 then
      { c with peers := c.peers.modifyLast fun p => { p with port := Int32.ofInt (strtol value) } }
    else c
  | .storageDbpath => { c with storage.dbpath := value }
  | .storageBackupPath => { c with storage.backupPath := value }
  | .storageBlockCacheSizeMb => { c with storage.blockCacheSizeMb := UInt64.ofInt (strtol value) }
  | .storageCleanExpiredKeysInterval =>
    { c with storage.cleanExpiredKeysInterval := UInt32.ofInt (strtol value) }
  | .storageEncrypterInitialPoolSize =>
    { c with storage.encrypterInitialPoolSize := UInt32.ofInt (strtol value) }
  | .storageMaxBackups => { c with storage.maxBackups := UInt32.ofInt (strtol value) }
  | .storageUseMutex => { c with storage.useMutex := value == text "true" }

/-- The block of a variable. -/
def EnvVar.read (env : Environment) (c : Configuration) (v : EnvVar) : Configuration :=
  match v.getenv env with
  | some value => v.assign value c
  | none => c

/-- The variables of the peers. -/
def EnvVar.peers : List EnvVar :=
  (List.finRange 7).flatMap fun n => [EnvVar.peerHost n, EnvVar.peerPort n]

/-- The variables in the order in which they are read. -/
def EnvVar.order : List EnvVar :=
  EnvVar.threads :: .enableCache :: .encryptionSalt :: .encryptionKey :: .encryptionIv ::
    .encryptionSecret :: .encryptionRounds :: .loggingLevel :: .loggingDir :: .loggingConsole ::
    .servicesHttp :: .servicesTcp :: .servicesNotify :: EnvVar.peers.append
      [.storageDbpath, .storageBackupPath, .storageBlockCacheSizeMb,
        .storageCleanExpiredKeysInterval, .storageEncrypterInitialPoolSize, .storageMaxBackups,
        .storageUseMutex]

/-- `Configuration::Configuration`. -/
def Configuration.ofEnv (cores : UInt32) (env : Environment) : Configuration :=
  EnvVar.order.foldl (EnvVar.read env) { threads := cores }

/-! ### Which blocks write a field -/

/-- The field that the block of a variable writes. -/
def EnvVar.writes : EnvVar → Field
  | .loggingDir => .loggingLevel
  | v => v.field

theorem EnvVar.writes_eq_field {v : EnvVar} (h : v ≠ .loggingDir) : v.writes = v.field := by
  cases v <;> first
    | rfl
    | exact absurd rfl h

theorem EnvVar.get_assign_of_ne {v : EnvVar} {f : Field} (h : v.writes ≠ f) (value : Bytes)
    (c : Configuration) : (v.assign value c).get f = c.get f := by
  cases v with
  | loggingLevel =>
    simp only [assign]
    split
    · cases f <;> first
        | rfl
        | exact absurd rfl h
    · rfl
  | peerHost n =>
    simp only [assign]
    split
    · cases f <;> first
        | rfl
        | exact absurd rfl h
    · rfl
  | peerPort n =>
    simp only [assign]
    split
    · cases f <;> first
        | rfl
        | exact absurd rfl h
    · rfl
  | _ =>
    cases f <;> first
      | rfl
      | exact absurd rfl h

theorem EnvVar.get_assign_congr (v : EnvVar) (value : Bytes) {c c' : Configuration}
    (h : c.get v.writes = c'.get v.writes) :
    (v.assign value c).get v.writes = (v.assign value c').get v.writes := by
  cases v with
  | loggingLevel =>
    simp only [assign]
    split
    · rfl
    · exact h
  | peerHost n =>
    have hp : c.peers = c'.peers := h
    simp only [assign, hp]
    split
    · rfl
    · exact h
  | peerPort n =>
    have hp : c.peers = c'.peers := h
    simp only [assign, hp]
    split
    · rfl
    · exact h
  | _ => rfl

/-- **A field depends on the blocks that write it**: two environments that agree on the variables of
these make the same of it, and the other blocks can be left out. -/
theorem EnvVar.get_foldl {f : Field} {env env' : Environment}
    (h : ∀ v : EnvVar, v.writes = f → v.getenv env = v.getenv env') (vs : List EnvVar)
    {c c' : Configuration} (hc : c.get f = c'.get f) :
    (vs.foldl (EnvVar.read env) c).get f =
      ((vs.filter fun v => v.writes = f).foldl (EnvVar.read env') c').get f := by
  induction vs generalizing c c' with
  | nil => exact hc
  | cons v vs ih =>
    by_cases hv : v.writes = f
    · rw [List.filter_cons_of_pos (by simpa using hv), List.foldl_cons, List.foldl_cons]
      refine ih ?_
      subst hv
      rw [EnvVar.read, EnvVar.read, h v rfl]
      cases v.getenv env' with
      | none => exact hc
      | some value => exact v.get_assign_congr value hc
    · rw [List.filter_cons_of_neg (by simpa using hv), List.foldl_cons]
      refine ih ?_
      rw [EnvVar.read, ← hc]
      cases v.getenv env with
      | none => rfl
      | some value => exact EnvVar.get_assign_of_ne hv value c

namespace Configuration

variable {cores : UInt32} {env env' : Environment}

theorem get_ofEnv (cores : UInt32) (env : Environment) (f : Field) :
    (ofEnv cores env).get f = ((EnvVar.order.filter fun v => v.writes = f).foldl
      (EnvVar.read env) { threads := cores }).get f :=
  EnvVar.get_foldl (fun _ _ => rfl) _ rfl

/-- **A field depends on the variables whose blocks write it.** -/
theorem get_ofEnv_congr {f : Field}
    (h : ∀ v : EnvVar, v.writes = f → v.getenv env = v.getenv env') :
    (ofEnv cores env).get f = (ofEnv cores env').get f := by
  rw [get_ofEnv cores env']
  exact EnvVar.get_foldl h _ rfl

theorem get_ofEnv_of_single (cores : UInt32) {v : EnvVar}
    (hv : (EnvVar.order.filter fun w => w.writes = v.writes) = [v]) {x : Bytes}
    (hx : v.getenv env = some x) :
    (ofEnv cores env).get v.writes = (v.assign x { threads := cores }).get v.writes := by
  rw [get_ofEnv, hv, List.foldl_cons, List.foldl_nil, EnvVar.read, hx]

/-- The level that `CONFIG_DB_LOGGING_LEVEL` sets, or the default. -/
def levelSet (env : Environment) : Bytes :=
  match EnvVar.loggingLevel.getenv env with
  | some value => if value ∈ levels then value else text "info"
  | none => text "info"

/-- **The level** is the value of `CONFIG_DB_LOGGING_DIR`, if this is set. -/
theorem level_ofEnv (cores : UInt32) (env : Environment) :
    (ofEnv cores env).logging.level = (EnvVar.loggingDir.getenv env).getD (levelSet env) := by
  have hblocks : (EnvVar.order.filter fun v => v.writes = .loggingLevel) =
      [.loggingLevel, .loggingDir] := by decide
  have h := get_ofEnv cores env .loggingLevel
  rw [hblocks, List.foldl_cons, List.foldl_cons, List.foldl_nil] at h
  refine h.trans ?_
  simp only [EnvVar.read, levelSet, EnvVar.assign, get]
  cases EnvVar.loggingDir.getenv env with
  | some dir => rfl
  | none =>
    cases EnvVar.loggingLevel.getenv env with
    | none => rfl
    | some value =>
      simp only [Option.getD_none]
      split_ifs <;> rfl

/-! ### The peers -/

/-- The peers that hosts and ports make, up to the first host that is not set. -/
def peersOf (env : Environment) (ns : List (Fin 7)) : List Peer :=
  (ns.takeWhile fun n => ((EnvVar.peerHost n).getenv env).isSome).map fun n =>
    { host := ((EnvVar.peerHost n).getenv env).getD [],
      port := (((EnvVar.peerPort n).getenv env).map fun x => Int32.ofInt (strtol x)).getD 0 }

theorem peers_read_of_eq {c : Configuration} {n : Fin 7} (h : c.peers.length = n) :
    (EnvVar.read env (EnvVar.read env c (.peerHost n)) (.peerPort n)).peers =
      c.peers ++ peersOf env [n] := by
  have hne : ¬ c.peers.length = n + 1 := by omega
  simp only [EnvVar.read, peersOf]
  cases hh : (EnvVar.peerHost n).getenv env with
  | none =>
    cases (EnvVar.peerPort n).getenv env <;> simp [EnvVar.assign, hne, hh]
  | some host =>
    have hlen : (c.peers ++ [({ host := host } : Peer)]).length = n + 1 := by simp [h]
    cases hp : (EnvVar.peerPort n).getenv env with
    | none => simp [EnvVar.assign, h, hh, hp]
    | some port => simp [EnvVar.assign, h, hh, hp, List.modifyLast_concat]

theorem peers_read_of_lt {c : Configuration} {n : Fin 7} (h : c.peers.length < n) :
    (EnvVar.read env (EnvVar.read env c (.peerHost n)) (.peerPort n)).peers = c.peers := by
  have hne : ¬ c.peers.length = n := by omega
  have hne' : ¬ c.peers.length = n + 1 := by omega
  simp only [EnvVar.read]
  cases (EnvVar.peerHost n).getenv env <;> cases (EnvVar.peerPort n).getenv env <;>
    simp [EnvVar.assign, hne, hne']

theorem peers_foldl (k : ℕ) (ns : List (Fin 7)) (hns : ns.map Fin.val = List.range' k ns.length)
    (c : Configuration) (hc : c.peers.length ≤ k) :
    ((ns.flatMap fun n => [EnvVar.peerHost n, EnvVar.peerPort n]).foldl (EnvVar.read env) c).peers =
      if c.peers.length = k then c.peers ++ peersOf env ns else c.peers := by
  induction ns generalizing k c with
  | nil => simp [peersOf]
  | cons n ns ih =>
    rw [List.map_cons, List.length_cons, List.range'_succ, List.cons.injEq] at hns
    obtain ⟨rfl, hns⟩ := hns
    rw [List.flatMap_cons, List.foldl_append, List.foldl_cons, List.foldl_cons, List.foldl_nil]
    set c' := EnvVar.read env (EnvVar.read env c (.peerHost n)) (.peerPort n) with hc'
    by_cases hlen : c.peers.length = n
    · have hpeers : c'.peers = c.peers ++ peersOf env [n] := peers_read_of_eq hlen
      rw [if_pos hlen]
      cases hh : (EnvVar.peerHost n).getenv env with
      | none =>
        have hnil : peersOf env [n] = [] := by simp [peersOf, hh]
        have hnil' : peersOf env (n :: ns) = [] := by simp [peersOf, hh]
        rw [hnil, List.append_nil] at hpeers
        have hlen' : c'.peers.length = c.peers.length := congrArg List.length hpeers
        rw [ih _ hns c' (by omega), if_neg (by omega), hpeers, hnil', List.append_nil]
      | some host =>
        have hcons : peersOf env (n :: ns) = peersOf env [n] ++ peersOf env ns := by
          simp [peersOf, hh]
        have hone : (peersOf env [n]).length = 1 := by simp [peersOf, hh]
        have hlen' : c'.peers.length = n + 1 := by simp [hpeers, hone, hlen]
        rw [ih _ hns c' (by omega), if_pos hlen', hpeers, hcons, List.append_assoc]
    · have hpeers : c'.peers = c.peers := peers_read_of_lt (by omega)
      have hlen' : c'.peers.length = c.peers.length := congrArg List.length hpeers
      rw [ih _ hns c' (by omega), if_neg (by omega), if_neg hlen, hpeers]

/-- **The peers** are those up to the first host that is not set. -/
theorem peers_ofEnv (cores : UInt32) (env : Environment) :
    (ofEnv cores env).peers = peersOf env (List.finRange 7) := by
  have hblocks : (EnvVar.order.filter fun v => v.writes = .peers) =
      (List.finRange 7).flatMap fun n => [EnvVar.peerHost n, EnvVar.peerPort n] := by decide
  have h := get_ofEnv cores env .peers
  rw [hblocks] at h
  exact h.trans (peers_foldl 0 (List.finRange 7) (by decide) { threads := cores } le_rfl)

theorem getElem?_takeWhile {α : Type} {p : α → Bool} {l : List α} {i : ℕ} {a : α} :
    (l.takeWhile p)[i]? = some a ↔
      l[i]? = some a ∧ ∀ j ≤ i, ∀ b, l[j]? = some b → p b = true := by
  induction l generalizing i with
  | nil => simp
  | cons b l ih =>
    rw [List.takeWhile_cons]
    by_cases hb : p b = true
    · rw [if_pos hb]
      cases i with
      | zero =>
        simp only [List.getElem?_cons_zero, Option.some.injEq, Nat.le_zero, forall_eq,
          iff_self_and, forall_eq']
        intro _
        exact hb
      | succ i =>
        rw [List.getElem?_cons_succ, List.getElem?_cons_succ, ih]
        refine and_congr Iff.rfl ⟨fun h j hj x hx => ?_, fun h j hj x hx => ?_⟩
        · cases j with
          | zero =>
            obtain rfl : b = x := by simpa using hx
            exact hb
          | succ j => exact h j (by omega) x (by simpa using hx)
        · exact h (j + 1) (by omega) x (by simpa using hx)
    · rw [if_neg hb]
      simp only [List.getElem?_nil, reduceCtorEq, false_iff, not_and, not_forall]
      intro _
      exact ⟨0, by omega, b, by simp, hb⟩

theorem getElem?_peers (cores : UInt32) (env : Environment) (n : Fin 7) :
    (ofEnv cores env).peers[n.val]? =
      if ∀ m ≤ n, ((EnvVar.peerHost m).getenv env).isSome = true then
        some { host := ((EnvVar.peerHost n).getenv env).getD [],
               port := (((EnvVar.peerPort n).getenv env).map fun x =>
                 Int32.ofInt (strtol x)).getD 0 }
      else none := by
  have hfin (j : Fin 7) : (List.finRange 7)[j.val]? = some j := by simp
  rw [peers_ofEnv, peersOf, List.getElem?_map]
  split_ifs with h
  · have htake : ((List.finRange 7).takeWhile fun n =>
        ((EnvVar.peerHost n).getenv env).isSome)[n.val]? = some n := by
      refine getElem?_takeWhile.2 ⟨hfin n, fun j hj b hb => ?_⟩
      rw [hfin ⟨j, by omega⟩] at hb
      obtain rfl := Option.some.inj hb
      exact h _ hj
    rw [htake]
    rfl
  · rw [Option.map_eq_none_iff, Option.eq_none_iff_forall_ne_some]
    intro m hm
    obtain ⟨hmn, hall⟩ := getElem?_takeWhile.1 hm
    exact h fun j hj => hall j.val hj j (hfin j)

end Configuration

/-! ### Numerals -/

/-- `std::to_string` of a signed number. -/
def decimal (n : ℤ) : Bytes := if n < 0 then 45 :: toString n.natAbs else toString n.natAbs

theorem digits_toString (n : ℕ) :
    ((toString n).takeWhile isDigit).foldl (fun n d => 10 * n + (d.toNat - 48)) 0 = n := by
  rw [List.takeWhile_eq_self_iff.2 (numeral_toString n), foldl_digits, decimalValue_toString,
    Nat.zero_mul, Nat.zero_add]

theorem strtol_toString (n : ℕ) : strtol (toString n) = min (n : ℤ) (2 ^ 63 - 1) := by
  have hdigits := digits_toString n
  have hnum := numeral_toString n
  cases hs : toString n with
  | nil => exact absurd hs (toString_ne_nil n)
  | cons d s =>
    rw [hs] at hdigits hnum
    have hd := isDigit_iff.1 (hnum d List.mem_cons_self)
    have hspace : isSpace d = false := by
      simp only [isSpace, Bool.or_eq_false_iff, beq_eq_false_iff_ne, ne_eq, Bool.and_eq_false_iff,
        decide_eq_false_iff_not, UInt8.not_le, UInt8.lt_iff_toNat_lt]
      refine ⟨?_, .inr (by simp; omega)⟩
      rintro rfl
      simp at hd
    simp only [strtol, List.dropWhile_cons, hspace, Bool.false_eq_true, if_false]
    split
    · next h =>
      obtain ⟨rfl, -⟩ := List.cons.inj h
      simp at hd
    · next h =>
      obtain ⟨rfl, -⟩ := List.cons.inj h
      simp at hd
    · rw [hdigits]

theorem strtol_decimal {n : ℤ} (h₁ : -2 ^ 63 ≤ n) (h₂ : n < 2 ^ 63) : strtol (decimal n) = n := by
  unfold decimal
  split_ifs with hn
  · have hspace : isSpace 45 = false := by decide
    simp only [strtol, List.dropWhile_cons, hspace, Bool.false_eq_true, if_false, digits_toString]
    omega
  · rw [strtol_toString]
    omega

/-! ### What a variable should do -/

/-- The text of a flag. -/
def flag (b : Bool) : Bytes := if b then text "true" else text "false"

/-- The text of what a configuration has in the place that a variable is documented for. -/
def EnvVar.shown (c : Configuration) : EnvVar → Option Bytes
  | .threads => some (decimal c.threads.toNat)
  | .enableCache => some (flag c.enableCache)
  | .encryptionSalt => some c.encryption.salt
  | .encryptionKey => some c.encryption.key
  | .encryptionIv => some c.encryption.iv
  | .encryptionSecret => some c.encryption.secret
  | .encryptionRounds => some (decimal c.encryption.rounds.toInt)
  | .loggingLevel => some c.logging.level
  | .loggingDir => some c.logging.dir
  | .loggingConsole => some (flag c.logging.console)
  | .servicesHttp => some c.services.http
  | .servicesTcp => some (decimal c.services.tcp.toInt)
  | .servicesNotify => some (decimal c.services.notify.toInt)
  | .peerHost n => c.peers[n.val]?.map Configuration.Peer.host
  | .peerPort n => c.peers[n.val]?.map fun p => decimal p.port.toInt
  | .storageDbpath => some c.storage.dbpath
  | .storageBackupPath => some c.storage.backupPath
  | .storageBlockCacheSizeMb => some (decimal c.storage.blockCacheSizeMb.toNat)
  | .storageCleanExpiredKeysInterval => some (decimal c.storage.cleanExpiredKeysInterval.toNat)
  | .storageEncrypterInitialPoolSize => some (decimal c.storage.encrypterInitialPoolSize.toNat)
  | .storageMaxBackups => some (decimal c.storage.maxBackups.toNat)
  | .storageUseMutex => some (flag c.storage.useMutex)

/-- The value is one for the variable: some configuration has it in this place, and a level is one
of those that are accepted. -/
def EnvVar.Valid (v : EnvVar) (x : Bytes) : Prop :=
  (∃ c, v.shown c = some x) ∧ (v = .loggingLevel → x ∈ levels)

/-- What else has to be the case for the value `x` of a variable to get to its place. -/
def EnvVar.Arrives (env : Environment) (x : Bytes) : EnvVar → Prop
  | .loggingLevel => ∀ dir, EnvVar.loggingDir.getenv env = some dir → dir = x
  | .loggingDir => x = text "logs/"
  | .peerHost n => ∀ m < n, ((EnvVar.peerHost m).getenv env).isSome = true
  | .peerPort n => ∀ m ≤ n, ((EnvVar.peerHost m).getenv env).isSome = true
  | .storageBlockCacheSizeMb => decimalValue x < 2 ^ 63
  | _ => True

theorem flag_beq {x : Bytes} (h : ∃ b, flag b = x) : flag (x == text "true") = x := by
  obtain ⟨b, rfl⟩ := h
  cases b <;> decide

theorem decimal_uint32 {x : Bytes} (h : ∃ n : UInt32, decimal n.toNat = x) :
    decimal (UInt32.ofInt (strtol x)).toNat = x := by
  obtain ⟨n, rfl⟩ := h
  have hn := n.toNat_lt
  rw [strtol_decimal (by omega) (by omega), UInt32.ofInt, UInt32.toNat_ofNat']
  congr 1
  omega

theorem decimal_int32 {x : Bytes} (h : ∃ n : Int32, decimal n.toInt = x) :
    decimal (Int32.ofInt (strtol x)).toInt = x := by
  obtain ⟨n, rfl⟩ := h
  have hlo := n.le_toInt
  have hhi := n.toInt_lt
  rw [strtol_decimal (by omega) (by omega), Int32.ofInt_toInt]

theorem decimal_natCast (n : ℕ) : decimal n = toString n := by
  rw [decimal, if_neg (by omega), Int.natAbs_natCast]

theorem decimal_uint64 {x : Bytes} (h : ∃ n : UInt64, decimal n.toNat = x) :
    decimal (UInt64.ofInt (strtol x)).toNat = x ↔ decimalValue x < 2 ^ 63 := by
  obtain ⟨n, rfl⟩ := h
  have hn := n.toNat_lt
  have hback : (UInt64.ofInt (strtol (decimal n.toNat))).toNat = min n.toNat (2 ^ 63 - 1) := by
    rw [decimal_natCast, strtol_toString, UInt64.ofInt, UInt64.toNat_ofNat']
    omega
  rw [hback, decimal_natCast, decimal_natCast, decimalValue_toString, toString_injective.eq_iff]
  omega

theorem EnvVar.shown_congr {v : EnvVar} {c c' : Configuration}
    (h : c.get v.field = c'.get v.field) : v.shown c = v.shown c' := by
  cases v <;>
  · simp only [field, Configuration.get] at h
    simp only [shown, h]

/-- The variables of the peers, of the logs and of the block cache are not like the others. -/
def EnvVar.Plain : EnvVar → Prop
  | .loggingLevel | .loggingDir | .peerHost _ | .peerPort _ | .storageBlockCacheSizeMb => False
  | _ => True

theorem EnvVar.shown_assign {v : EnvVar} (hv : v.Plain) {x : Bytes} (hx : v.Valid x)
    (c : Configuration) : v.shown (v.assign x c) = some x := by
  obtain ⟨⟨c', hc⟩, -⟩ := hx
  cases v <;> first
    | exact hv.elim
    | exact congrArg some (flag_beq ⟨_, Option.some.inj hc⟩)
    | exact congrArg some (decimal_uint32 ⟨_, Option.some.inj hc⟩)
    | exact congrArg some (decimal_int32 ⟨_, Option.some.inj hc⟩)
    | rfl

theorem EnvVar.Plain.blocks {v : EnvVar} (hv : v.Plain) : v.writes = v.field ∧
    (EnvVar.order.filter fun w => w.writes = v.writes) = [v] := by
  cases v <;> first
    | exact hv.elim
    | exact ⟨rfl, by decide⟩

/-- **What a variable does**: a valid value gets to its place exactly if `Arrives` holds. -/
theorem EnvVar.shown_ofEnv_iff (cores : UInt32) (env : Environment) (v : EnvVar) (x : Bytes)
    (hx : v.getenv env = some x) (hvalid : v.Valid x) :
    v.shown (Configuration.ofEnv cores env) = some x ↔ v.Arrives env x := by
  have hplain (hv : v.Plain) : v.shown (Configuration.ofEnv cores env) = some x := by
    obtain ⟨hwrites, hblocks⟩ := hv.blocks
    have hget := Configuration.get_ofEnv_of_single cores hblocks hx
    rw [hwrites] at hget
    rw [EnvVar.shown_congr hget, EnvVar.shown_assign hv hvalid]
  cases v with
  | loggingLevel =>
    have hset : Configuration.levelSet env = x := by
      rw [Configuration.levelSet, hx]
      exact if_pos (hvalid.2 rfl)
    simp only [shown, Configuration.level_ofEnv, hset, Option.some.injEq, Arrives]
    cases EnvVar.loggingDir.getenv env <;> simp
  | loggingDir =>
    have hdir : (Configuration.ofEnv cores env).logging.dir = text "logs/" := by
      have hnone : (EnvVar.order.filter fun v => v.writes = .loggingDir) = [] := by decide
      have h := Configuration.get_ofEnv cores env .loggingDir
      rw [hnone] at h
      exact h
    rw [shown, hdir, Option.some.injEq]
    exact eq_comm
  | peerHost n =>
    rw [shown, Configuration.getElem?_peers]
    simp only [Arrives]
    split_ifs with h
    · exact iff_of_true (by simp [hx]) fun m hm => h m hm.le
    · refine iff_of_false (by simp) fun hall => h fun m hm => ?_
      obtain hlt | rfl := hm.lt_or_eq
      · exact hall m hlt
      · simp [hx]
  | peerPort n =>
    have hport : ∃ n : Int32, decimal n.toInt = x := by
      obtain ⟨c, hc⟩ := hvalid.1
      obtain ⟨p, -, hp⟩ := Option.map_eq_some_iff.1 hc
      exact ⟨p.port, hp⟩
    rw [shown, Configuration.getElem?_peers]
    simp only [Arrives]
    split_ifs with h
    · refine iff_of_true ?_ h
      rw [hx, Option.map_some, Option.map_some, Option.getD_some, decimal_int32 hport]
    · exact iff_of_false (by simp) h
  | storageBlockCacheSizeMb =>
    obtain ⟨c, hc⟩ := hvalid.1
    have hget : (Configuration.ofEnv cores env).get .storageBlockCacheSizeMb =
        UInt64.ofInt (strtol x) :=
      Configuration.get_ofEnv_of_single cores (v := .storageBlockCacheSizeMb) (by decide) hx
    have hsize : (Configuration.ofEnv cores env).storage.blockCacheSizeMb =
        UInt64.ofInt (strtol x) := hget
    rw [shown, hsize, Option.some.injEq]
    exact decimal_uint64 ⟨_, Option.some.inj hc⟩
  | _ => exact iff_of_true (hplain trivial) trivial

/-- **What the variables of a field do to the others.**  If two environments differ only in the
variables that are documented for a field, then the other fields agree, unless the field is
`logging.dir` and the levels that come of it differ. -/
theorem Configuration.agree_iff (cores : UInt32) {f : Field} {env env' : Environment}
    (h : ∀ v : EnvVar, v.field ≠ f → v.getenv env = v.getenv env') :
    (∀ g, g ≠ f → (ofEnv cores env).get g = (ofEnv cores env').get g) ↔
      (f = .loggingDir → (EnvVar.loggingDir.getenv env).getD (levelSet env) =
        (EnvVar.loggingDir.getenv env').getD (levelSet env')) := by
  constructor
  · rintro hall rfl
    have hlevel := hall .loggingLevel (by decide)
    simpa only [get, level_ofEnv] using hlevel
  · intro hdir g hg
    by_cases hlevel : f = .loggingDir ∧ g = .loggingLevel
    · obtain ⟨rfl, rfl⟩ := hlevel
      simpa only [get, level_ofEnv] using hdir rfl
    · refine get_ofEnv_congr fun v hv => h v ?_
      by_cases hvd : v = .loggingDir
      · subst hvd
        rintro rfl
        exact hlevel ⟨rfl, hv.symm⟩
      · rw [← EnvVar.writes_eq_field hvd, hv]
        exact hg

/-- The environment that sets one variable. -/
def Environment.only (v : EnvVar) (x : Bytes) : Environment :=
  fun name => if name = v.name then some x else none

theorem EnvVar.name_injOn : (EnvVar.order.map EnvVar.name).Nodup := by decide +kernel

theorem EnvVar.mem_order (v : EnvVar) : v ∈ EnvVar.order := by
  cases v with
  | peerHost n => revert n; decide
  | peerPort n => revert n; decide
  | _ => decide

theorem EnvVar.getenv_only {v w : EnvVar} (x : Bytes) :
    w.getenv (Environment.only v x) = if w = v then some x else none := by
  have hname : w.name = v.name ↔ w = v :=
    ⟨fun h => List.inj_on_of_nodup_map EnvVar.name_injOn w.mem_order v.mem_order h,
      congrArg EnvVar.name⟩
  simp only [getenv, Environment.only, hname]

/-- **When the variables do not interfere, and determine their fields.**  Two environments that
differ only in the variables that are documented for one field lead to configurations that agree in
the other fields, if and only if, in case this field is `logging.dir`, the two values of
`CONFIG_DB_LOGGING_DIR` are the same, where the level stands for a missing value.  And a variable
that is set to a valid value determines its field, if and only if: for `logging.dir`, it is the
default; for `logging.level`, `CONFIG_DB_LOGGING_DIR` is not set to anything else; for a peer, the
hosts before it, and that of a port, are set; and for the size of the block cache, it is a signed
number of 64 bits. -/
theorem environment_variables_iff (cores : UInt32) :
    (∀ (f : Field) (env env' : Environment),
      (∀ v : EnvVar, v.field ≠ f → v.getenv env = v.getenv env') →
      ((∀ g, g ≠ f → (Configuration.ofEnv cores env).get g =
          (Configuration.ofEnv cores env').get g) ↔
        (f = .loggingDir →
          (EnvVar.loggingDir.getenv env).getD (Configuration.levelSet env) =
            (EnvVar.loggingDir.getenv env').getD (Configuration.levelSet env')))) ∧
      ∀ (env : Environment) (v : EnvVar) (x : Bytes), v.getenv env = some x → v.Valid x →
        (v.shown (Configuration.ofEnv cores env) = some x ↔ v.Arrives env x) :=
  ⟨fun _ _ _ h => Configuration.agree_iff cores h, EnvVar.shown_ofEnv_iff cores⟩

/-- The level that is set is the level, if no directory is. -/
theorem environment_variables_iff_level :
    EnvVar.loggingLevel.shown (Configuration.ofEnv 4
      (Environment.only .loggingLevel (text "warn"))) = some (text "warn") := by
  have hset : EnvVar.loggingLevel.getenv (Environment.only .loggingLevel (text "warn")) =
      some (text "warn") := by rw [EnvVar.getenv_only, if_pos rfl]
  refine ((environment_variables_iff 4).2 _ _ _ hset
    ⟨⟨{ threads := 4, logging.level := text "warn" }, rfl⟩, fun _ => by decide⟩).2 ?_
  simp [EnvVar.Arrives, EnvVar.getenv_only]

/-- **A directory for a level.**  Setting `CONFIG_DB_LOGGING_DIR` leaves the directory what it was,
and makes the level of it. -/
theorem environment_variables_interfere :
    let env : Environment := fun _ => none
    let env' : Environment := Environment.only .loggingDir (text "/tmp/")
    (∀ v : EnvVar, v.field ≠ .loggingDir → v.getenv env = v.getenv env') ∧
      (Configuration.ofEnv 4 env).get .loggingLevel ≠
        (Configuration.ofEnv 4 env').get .loggingLevel ∧
      EnvVar.loggingDir.Valid (text "/tmp/") ∧
      EnvVar.loggingDir.shown (Configuration.ofEnv 4 env') ≠ some (text "/tmp/") := by
  intro env env'
  have hdir : EnvVar.loggingDir.getenv env' = some (text "/tmp/") := by
    rw [EnvVar.getenv_only, if_pos rfl]
  refine ⟨fun v hv => ?_, ?_, ⟨⟨{ threads := 4, logging.dir := text "/tmp/" }, rfl⟩, nofun⟩, ?_⟩
  · rw [EnvVar.getenv_only, if_neg (by rintro rfl; exact hv rfl)]
    rfl
  · have hlevel := Configuration.level_ofEnv 4 env
    have hlevel' := Configuration.level_ofEnv 4 env'
    rw [hdir] at hlevel'
    simp only [Configuration.get, hlevel, hlevel']
    decide
  · rw [Ne, EnvVar.shown_ofEnv_iff 4 env' .loggingDir (text "/tmp/") hdir]
    · simp only [EnvVar.Arrives]
      decide
    · exact ⟨⟨{ threads := 4, logging.dir := text "/tmp/" }, rfl⟩, nofun⟩

end ConfigDb
