import ConfigDb.Storage.Path

/-!
# The storage operations

`internal::Database` of `src/lib/db/storage.cpp`, function by function, as programs over the
database calls of `ConfigDb.Storage.Basic`.

The functions of the source that work inside a transaction carry the suffix `Txn` here; the public
ones are `set`, `remove`, `move`, `get`, `list` and `ttl`, with the suffix `Batch` for the overloads
that take a vector.  Log messages and the counters that only feed them are left out.  The branches
for `model::GetNode( d ) == nullptr` are left out too: `GetNode` returns an address inside the
buffer it is given and never a null pointer.
-/

namespace ConfigDb

open Std

namespace Database

variable (cfg : Config)

/-! ### The value cache -/

/-- Look a key up in the value cache, if it is enabled. -/
def findValue (ks : Bytes) : DbProg (Option Bytes) :=
  if cfg.enableCache then cacheFind ks else return none

/-- Put an entry into the value cache, if it is enabled. -/
def putValue (ks value : Bytes) : DbProg Unit :=
  if cfg.enableCache then cachePut ks value else return ()

/-- Erase a key from the value cache, if it is enabled. -/
def eraseValue (ks : Bytes) : DbProg Unit :=
  if cfg.enableCache then cacheErase ks else return ()

/-! ### The tree -/

/-- `Database::addChild` : the children of `path` as a sorted set, with `child` put in. -/
def addChild (path child : Bytes) (node : Node) : DbProg Bool :=
  let set : ExtTreeSet Bytes := ExtTreeSet.ofList node.children
  if set.contains child then return true
  else txnPut .forrest path ⟨(set.insert child).toList⟩

/-- `Database::createChild`. -/
def createChild (path child : Bytes) : DbProg Bool := txnPut .forrest path ⟨[child]⟩

/-- The loop of `Database::manageTree`. -/
def manageTreeLoop : List Tuple → DbProg Bool
  | [] => return true
  | (path, child) :: tuples => do
    match ← txnGet .forrest path with
    | .ok node =>
      if !(← addChild path child node) then return false
      manageTreeLoop tuples
    | .notFound =>
      if !(← createChild path child) then return false
      manageTreeLoop tuples
    | .error => return false

/-- `Database::manageTree` : add the path of a key to the tree. -/
def manageTree (key : Bytes) : DbProg Bool := manageTreeLoop (treeComponents key)

/-- `Database::removeChildNode` : whether it worked, and whether no child was left. -/
def removeChildNode (path child : Bytes) (node : Node) : DbProg (Bool × Bool) := do
  let vec := node.children.filter fun item => child != item
  if vec.isEmpty then
    if ← txnDelete .forrest path then return (true, true)
    return (false, false)
  if ← txnPut .forrest path ⟨vec⟩ then return (true, false)
  return (false, false)

/-- The loop of `Database::removeChild`, over the tuples from the last to the first. -/
def removeChildLoop : List Tuple → DbProg Bool
  | [] => return true
  | (path, child) :: tuples => do
    match ← txnGet .forrest path with
    | .ok node =>
      let (status, empty) ← removeChildNode path child node
      if !status then return false
      if !empty then return true
      match ← txnGet .data path with
      -- the path has a value of its own, so its parents keep it
      | .ok _ => return true
      | _ => removeChildLoop tuples
    | .notFound => return true
    | .error => return false

/-- `Database::removeChild` : take a key out of the tree, upwards as far as nothing is left. -/
def removeChild (key : Bytes) : DbProg Bool := removeChildLoop (treeComponents key).reverse

/-! ### Inside a transaction -/

/-- The `rollback` lambdas of `set` and `remove`: roll back and report failure. -/
def rollback : DbProg Bool := do
  let _ ← txnRollback
  return false

/-- The `ifNotExists` check that `set` and `move` begin with: whether the call is refused, because
the key is there or cannot be looked up. -/
def refused (opts : Options) (ks : Bytes) : DbProg Bool := do
  if !opts.ifNotExists then return false
  match ← txnGet .data ks with
  | .ok _ => return true
  | .notFound => return false
  | .error => return true

/-- The entry of a key in the tree or, for a cache entry, in the `cache` column. -/
def enterKey (ks : Bytes) (cache : Bool) : DbProg Bool :=
  if cache then txnPut .cache ks [49] else manageTree ks

/-- The expiration branch of `set`: the time in the `expiration` column and, with the time of the
write appended, as a key of the `expiring` column. -/
def setExpiration (ks : Bytes) (seconds : UInt32) : DbProg Bool := do
  if seconds = 0 then return true
  let ns := (← now) + seconds.toNat * 10 ^ 9
  if !(← txnPut .expiration ks (toString ns)) then return false
  let ns1 ← now
  txnPut .expiring (toString ns ++ toString ns1) ks

/-- `Database::set( key, value, opts, txn )`. -/
def setTxn (key value : Bytes) (opts : Options) : DbProg Bool := do
  if !(← acquireEncrypter) then return false
  let v := cfg.cipher.encrypt value
  let ks := getKey key
  if ← refused opts ks then return false
  if !(← txnPut .data ks v) then return ← rollback
  if !(← enterKey ks opts.cache) then return ← rollback
  if !(← setExpiration ks opts.expirationInSeconds) then return ← rollback
  putValue cfg ks value
  return true

/-- Take a key out of the `cache` column if the committed database has it there, and out of the
tree otherwise.  The source tests the status of the lookup where it means that of the deletion, so
a failed deletion goes unnoticed. -/
def removeEntry (ks : Bytes) : DbProg Bool := do
  match ← dbGet .cache ks with
  | .ok _ =>
    let _ ← txnDelete .cache ks
    return true
  | _ => removeChild ks

/-- `Database::remove( key, txn, rollbackOnError )`. -/
def removeTxn (key : Bytes) (rollbackOnError : Bool) : DbProg Bool := do
  let undo : DbProg Bool := if rollbackOnError then rollback else return false
  let ks := getKey key
  if !(← txnDelete .data ks) then return ← undo
  if !(← txnDelete .expiration ks) then return ← undo
  if !(← removeEntry ks) then return ← undo
  eraseValue cfg ks
  return true

/-- The whole seconds from the time `cns` to the time stamp `v`, which is read as a signed 64-bit
number. -/
def ttlAt (cns v : ℕ) : ℕ :=
  let ns := Int.bmod v (2 ^ 64)
  if (cns : ℤ) < ns then ((ns - cns) / 10 ^ 9).toNat else 0

/-- `Database::parseTTL` : the whole seconds left until a time stamp. -/
def parseTTL (value : Bytes) : DbProg ℕ := do
  match fromChars 64 value with
  | none => return 0
  | some v => return ttlAt (← now) v

/-- The expiration of the destination of a move: the requested one, or what is left of the
source's. -/
def moveExpiration (opts : Options) (ks : Bytes) : DbProg ℕ := do
  if opts.expirationInSeconds ≠ 0 then return opts.expirationInSeconds.toNat
  match ← txnGet .expiration ks with
  | .ok nsv => parseTTL nsv
  | _ => return 0

/-- The options under which a move sets its destination; `cvalue` is the cache marker of the
source. -/
def moveOptions (opts : Options) (cvalue : Reply Bytes) (exp : ℕ) : Options where
  expirationInSeconds := UInt32.ofNat exp
  ifNotExists := opts.ifNotExists
  cache := match cvalue with
    | .ok c => if c.isEmpty then opts.cache else true
    | _ => opts.cache

/-- `Database::move( key, dest, opts, txn )`. -/
def moveTxn (key dest : Bytes) (opts : Options) : DbProg Bool := do
  if !(← acquireEncrypter) then return false
  let ks := getKey key
  let ds := getKey dest
  if ← refused opts ds then return false
  match ← txnGet .data ks with
  | .ok v =>
    let value := cfg.cipher.decrypt v
    let cvalue ← txnGet .cache ks
    let exp ← moveExpiration opts ks
    if !(← removeTxn cfg ks true) then return ← rollback
    if !(← setTxn cfg ds value (moveOptions opts cvalue exp)) then return ← rollback
    return true
  | _ => return false

/-! ### Public calls -/

/-- Take or give back the mutex of the store, if the configuration asks for it. -/
def ifMutex (p : DbProg Unit) : DbProg Unit := if cfg.useMutex then p else return ()

/-- Hold the mutex of the store while `p` runs. -/
def withMutex {α : Type} (exclusive : Bool) (p : DbProg α) : DbProg α := do
  ifMutex cfg (lock exclusive)
  let a ← p
  ifMutex cfg unlock
  return a

/-- Commit if the work of the transaction is done. -/
def commitIf (saved : Bool) : DbProg Bool := if saved then txnCommit else return false

/-- The body of a writing call: a transaction, its work, and the commit if the work is done. -/
def withTxn (work : DbProg Bool) : DbProg Bool := do
  beginTransaction
  let saved ← work
  let ok ← commitIf saved
  releaseTransaction
  return ok

/-- `Database::get( key )`. -/
def get (key : Bytes) : DbProg (Option Bytes) := do
  if key.isEmpty then return none
  let ks := getKey key
  match ← findValue cfg ks with
  | some v => return some v
  | none =>
    match ← withMutex cfg false (dbGet .data ks) with
    | .ok value =>
      if !(← acquireEncrypter) then return none
      let ret := cfg.cipher.decrypt value
      putValue cfg ks ret
      return some ret
    | _ => return none

/-- `Database::set( data )`. -/
def set (data : RequestData) : DbProg Bool := do
  if data.key.isEmpty then return false
  if data.options.cache && data.options.expirationInSeconds == 0 then return false
  withMutex cfg true (withTxn (setTxn cfg data.key data.value data.options))

/-- `Database::remove( key )`. -/
def remove (key : Bytes) : DbProg Bool := do
  if key.isEmpty then return false
  withMutex cfg true (withTxn (removeTxn cfg key true))

/-- `Database::move( data )`. -/
def move (data : RequestData) : DbProg Bool := do
  if data.key.isEmpty then return false
  if data.value.isEmpty then return false
  withMutex cfg true (withTxn (moveTxn cfg data.key data.value data.options))

/-- `Database::ttl( key )`. -/
def ttl (key : Bytes) : DbProg ℕ :=
  withMutex cfg false do
    match ← dbGet .expiration (getKey key) with
    | .ok value => parseTTL value
    | _ => return 0

/-- `Database::list( key )`. -/
def list (key : Bytes) : DbProg (Option (List Bytes)) := do
  if key.isEmpty then return none
  withMutex cfg false do
    match ← dbGet .forrest (getKey key) with
    | .ok node => return some node.children
    | _ => return none

/-- Run `f` on the items one after the other, up to the first that fails: the loops of the batch
overloads of `set`, `remove` and `move`. -/
def forAll {α : Type} (f : α → DbProg Bool) : List α → DbProg Bool
  | [] => return true
  | a :: as => do
    if !(← f a) then return false
    forAll f as

/-- `Database::set( kvs )`. -/
def setBatch (kvs : List RequestData) : DbProg Bool :=
  withMutex cfg true (withTxn (forAll (fun d => setTxn cfg d.key d.value d.options) kvs))

/-- `Database::remove( keys )`. -/
def removeBatch (keys : List Bytes) : DbProg Bool :=
  withMutex cfg true (withTxn (forAll (fun key => removeTxn cfg key true) keys))

/-- `Database::move( kvs )`. -/
def moveBatch (kvs : List RequestData) : DbProg Bool :=
  withMutex cfg true (withTxn (forAll (fun d => moveTxn cfg d.key d.value d.options) kvs))

/-- `db->MultiGet` : one lookup per key. -/
def multiGet (c : Column) : List Bytes → DbProg (List (Reply c.Value))
  | [] => return []
  | k :: ks => return (← dbGet c k) :: (← multiGet c ks)

/-- The first loop of `Database::get( vec )` : the answers found in the value cache, and the keys
that were not. -/
def findCached : List Bytes → DbProg (List (Bytes × Option Bytes) × List Bytes)
  | [] => return ([], [])
  | ks :: rest => do
    match ← findValue cfg ks with
    | some v =>
      let (found, keys) ← findCached rest
      return ((ks, some v) :: found, keys)
    | none =>
      let (found, keys) ← findCached rest
      return (found, ks :: keys)

/-- The last loop of `Database::get( vec )` : decrypt what the database returned. -/
def decryptAll : List (Bytes × Reply Bytes) → DbProg (List (Bytes × Option Bytes))
  | [] => return []
  | (ks, .ok value) :: rest => do
    let ret := cfg.cipher.decrypt value
    putValue cfg ks ret
    return (ks, some ret) :: (← decryptAll rest)
  | (ks, _) :: rest => return (ks, none) :: (← decryptAll rest)

/-- `Database::get( vec )`. -/
def getBatch (vec : List Bytes) : DbProg (List (Bytes × Option Bytes)) := do
  if !(← acquireEncrypter) then return []
  let (result, keys) ← findCached cfg (vec.map getKey)
  if keys.isEmpty then return result
  let values ← withMutex cfg false (multiGet .data keys)
  return result ++ (← decryptAll cfg (keys.zip values))

/-- The last loop of `Database::ttl( vec )`. -/
def parseAll : List (Bytes × Reply Bytes) → DbProg (List (Bytes × ℕ))
  | [] => return []
  | (ks, .ok value) :: rest => return (ks, ← parseTTL value) :: (← parseAll rest)
  | (ks, _) :: rest => return (ks, 0) :: (← parseAll rest)

/-- `Database::ttl( vec )`, which looks the keys up as they are. -/
def ttlBatch (vec : List Bytes) : DbProg (List (Bytes × ℕ)) := do
  let values ← withMutex cfg false (multiGet .expiration vec)
  parseAll (vec.zip values)

/-- `Database::list( vec )`, which looks the keys up as they are. -/
def listBatch (vec : List Bytes) : DbProg (List (Bytes × Option (List Bytes))) := do
  let values ← withMutex cfg false (multiGet .forrest vec)
  return vec.zipWith (fun ks reply => match reply with
    | .ok node => (ks, some node.children)
    | _ => (ks, none)) values

/-! ### The expiry sweep -/

/-- The first loop of `clearExpired` : collect the entries, as long as nobody asks to stop. -/
def collect : List (Bytes × Bytes) → DbProg (List (Bytes × Bytes))
  | [] => return []
  | e :: es => do
    if ← stopped then return [e]
    return e :: (← collect es)

/-- One turn of the second loop of `clearExpired` : remove the key and, if that worked, the entry
itself. -/
def expireKey (entry : Bytes × Bytes) : DbProg Unit := do
  if ← removeTxn cfg entry.2 false then
    let _ ← txnDelete .expiring entry.1
  else return ()

/-- The second loop of `clearExpired`. -/
def sweep : List (Bytes × Bytes) → DbProg Unit
  | [] => return ()
  | e :: es => do
    expireKey cfg e
    if ← stopped then return ()
    sweep es

/-- `Database::clearExpired( stop )`.  It does not take the mutex: the line that would is commented
out in the source. -/
def clearExpired : DbProg Unit := do
  let _ ← now
  beginTransaction
  let ns ← now
  let keys ← collect (← dbScan .expiring (toString ns))
  if ← stopped then releaseTransaction
  else do
    sweep cfg keys
    let _ ← txnCommit
    releaseTransaction

end Database

end ConfigDb
