import ConfigDb.Effect.Txn

/-!
# The data model of the storage layer

Byte strings, the five column families the code uses (`handles[1]` to `handles[5]`), the request
records, the configuration the storage code reads, and the calls it makes.

Strings of the source are byte strings (`Bytes`) in byte order, which is the order of RocksDB keys
and of `std::set<std::string_view>`.  A value of the `forrest` column is a serialised flatbuffers
table; the model stores the table itself (`Node`).
-/

namespace ConfigDb

/-- A byte string. -/
abbrev Bytes := List UInt8

instance : LawfulBEq Bytes := inferInstance

/-- The character `/`. -/
def slash : UInt8 := 47

/-- The column families, in the order of `Database::handles` after the default one. -/
inductive Column
  /-- Keys and their encrypted values. -/
  | data
  /-- Paths and the names of their children. -/
  | forrest
  /-- Keys and the time they expire. -/
  | expiration
  /-- Expiration times, with a time stamp against collisions, and the expiring key. -/
  | expiring
  /-- Markers for the keys stored as cache entries. -/
  | cache
  deriving DecidableEq, Repr

/-- A node of the tree: the `Node` table of `tree.fbs`. -/
structure Node where
  /-- The names of the children. -/
  children : List Bytes
  deriving DecidableEq, Repr

/-- The type of the values of a column. -/
abbrev Column.Value : Column → Type
  | .data => Bytes
  | .forrest => Node
  | .expiration => Bytes
  | .expiring => Bytes
  | .cache => Bytes

/-- The contents of the column families. -/
abbrev Columns := Store Bytes Column.Value

/-- `model::RequestData::Options`. -/
structure Options where
  /-- Time to live of the key; `0` for none. -/
  expirationInSeconds : UInt32 := 0
  /-- Store only if the key does not exist. -/
  ifNotExists : Bool := false
  /-- Treat the value as a cache entry, which is not added to the tree. -/
  cache : Bool := false
  deriving DecidableEq, Repr

/-- `model::RequestData`; for a move, `value` is the destination key. -/
structure RequestData where
  /-- The key. -/
  key : Bytes
  /-- The value, or the destination of a move. -/
  value : Bytes
  /-- The options. -/
  options : Options := {}
  deriving DecidableEq, Repr

/-- The functions `Encrypter::encrypt` and `Encrypter::decrypt`; OpenSSL is not modelled. -/
structure Cipher where
  /-- `Encrypter::encrypt`. -/
  encrypt : Bytes → Bytes
  /-- `Encrypter::decrypt`. -/
  decrypt : Bytes → Bytes

/-- Decryption undoes encryption. -/
def Cipher.Lawful (c : Cipher) : Prop := ∀ v, c.decrypt (c.encrypt v) = v

/-- The part of `model::Configuration` that the storage code reads. -/
structure Config where
  /-- `enableCache` : keep decrypted values in the value cache. -/
  enableCache : Bool
  /-- `storage.useMutex` : guard reads and writes by the mutex of the store. -/
  useMutex : Bool
  /-- The cipher that `encryption` configures. -/
  cipher : Cipher

/-- The configuration with the mutex and, for a cipher, the identity. -/
def Config.plain (enableCache : Bool) : Config := ⟨enableCache, true, ⟨id, id⟩⟩

theorem Config.plain_lawful (enableCache : Bool) : (Config.plain enableCache).cipher.Lawful :=
  fun _ => rfl

/-- The calls of the storage code to its own process. -/
inductive ProcOp
  /-- Read the clock, in nanoseconds since the epoch. -/
  | now
  /-- Load the flag that asks the expiry thread to stop. -/
  | stop
  /-- Acquire an encrypter from the pool. -/
  | acquireEncrypter
  /-- Look a key up in the value cache. -/
  | cacheFind (k : Bytes)
  /-- Put an entry into the value cache. -/
  | cachePut (k v : Bytes)
  /-- Erase a key from the value cache. -/
  | cacheErase (k : Bytes)

/-- The answers to the calls of the storage code to its own process. -/
abbrev ProcOp.Res : ProcOp → Type
  | .now => ℕ
  | .stop => Bool
  | .acquireEncrypter => Bool
  | .cacheFind _ => Option Bytes
  | .cachePut _ _ => Unit
  | .cacheErase _ => Unit

/-- The calls of the storage code. -/
abbrev DbOp := Op Bytes Column.Value ProcOp

/-- Programs of the storage layer. -/
abbrev DbProg := Prog (Op.Res (K := Bytes) (V := Column.Value) ProcOp.Res)

/-! ### Calls -/

/-- A call to the database. -/
def callStore (o : TxnOp Bytes Column.Value) : DbProg o.Res :=
  Prog.perform (R := Op.Res (K := Bytes) (V := Column.Value) ProcOp.Res) (.store o)

/-- A call to the process. -/
def callOwn (x : ProcOp) : DbProg x.Res :=
  Prog.perform (R := Op.Res (K := Bytes) (V := Column.Value) ProcOp.Res) (.own x)

/-- `std::unique_lock( mutex )`, or `std::shared_lock( mutex )`. -/
def lock (exclusive : Bool) : DbProg Unit := callStore (.lock exclusive)

/-- The end of the scope of a lock. -/
def unlock : DbProg Unit := callStore .unlock

/-- The `TXN` macro: a pooled transaction object, begun anew. -/
def beginTransaction : DbProg Unit := callStore .begin

/-- The end of the scope of the pool's proxy: `Pool::release`. -/
def releaseTransaction : DbProg Unit := callStore .release

/-- `txn->Get`. -/
def txnGet (c : Column) (k : Bytes) : DbProg (Reply c.Value) := callStore (.get c k)

/-- `txn->Put`. -/
def txnPut (c : Column) (k : Bytes) (v : c.Value) : DbProg Bool := callStore (.put c k v)

/-- `txn->Delete`. -/
def txnDelete (c : Column) (k : Bytes) : DbProg Bool := callStore (.delete c k)

/-- `txn->Commit`. -/
def txnCommit : DbProg Bool := callStore .commit

/-- `txn->Rollback`. -/
def txnRollback : DbProg Bool := callStore .rollback

/-- `db->Get`. -/
def dbGet (c : Column) (k : Bytes) : DbProg (Reply c.Value) := callStore (.read c k)

/-- `db.NewIterator` with an upper bound, from the first key on. -/
def dbScan (c : Column) (limit : Bytes) : DbProg (List (Bytes × c.Value)) :=
  callStore (.scan c limit)

/-- `high_resolution_clock::now`. -/
def now : DbProg ℕ := callOwn .now

/-- `stop.load()`. -/
def stopped : DbProg Bool := callOwn .stop

/-- `pool.acquire()` for an encrypter. -/
def acquireEncrypter : DbProg Bool := callOwn .acquireEncrypter

/-- `ValueCache::find`. -/
def cacheFind (k : Bytes) : DbProg (Option Bytes) := callOwn (.cacheFind k)

/-- `ValueCache::put`. -/
def cachePut (k v : Bytes) : DbProg Unit := callOwn (.cachePut k v)

/-- `ValueCache::erase`. -/
def cacheErase (k : Bytes) : DbProg Unit := callOwn (.cacheErase k)

/-! ### Numbers as text -/

/-- `std::to_string` of a non-negative number. -/
def toString (n : ℕ) : Bytes :=
  if n = 0 then [48] else (Nat.digits 10 n).reverse.map fun d => UInt8.ofNat (48 + d)

/-- The byte is a decimal digit. -/
def isDigit (b : UInt8) : Bool := 48 ≤ b && b ≤ 57

/-- `std::from_chars` into an unsigned integer of `w` bits: the leading digits, if there are any
and their value fits. -/
def fromChars (w : ℕ) (s : Bytes) : Option ℕ :=
  match s.takeWhile isDigit with
  | [] => none
  | ds =>
    let n := ds.foldl (fun n d => 10 * n + (d.toNat - 48)) 0
    if n < 2 ^ w then some n else none

end ConfigDb
