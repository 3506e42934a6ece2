import ConfigDb.Storage.Database

/-!
# Running the storage operations

The state of a running store, the environment it runs in, and the two ways of running a storage
program: `Database.exec` with the faithful database, `Database.execIdeal` with the one in which no
call fails.  `Call` lists the public calls; `runCalls` runs a sequence of them.
-/

namespace ConfigDb

open Std

/-- The state that a process keeps beside the database. -/
structure Local where
  /-- The value cache. -/
  valueCache : ExtTreeMap Bytes Bytes
  /-- The number of clock readings so far. -/
  nows : ℕ
  /-- The number of loads of the stop flag so far. -/
  loads : ℕ
  /-- The number of encrypters asked for so far. -/
  acquires : ℕ

/-- What the environment decides. -/
structure Env where
  /-- Whether the `n`-th fallible database call, of the given kind, fails. -/
  fails : ℕ → Fallible → Bool
  /-- The `n`-th reading of the clock, in nanoseconds. -/
  clock : ℕ → ℕ
  /-- The `n`-th reading of the stop flag. -/
  stop : ℕ → Bool
  /-- Whether the encrypter pool is exhausted at the `n`-th request. -/
  starved : ℕ → Bool

/-- No call fails, and nobody stops the expiry sweep. -/
structure Env.Reliable (env : Env) : Prop where
  fails : ∀ n e, env.fails n e = false
  stop : ∀ n, env.stop n = false
  starved : ∀ n, env.starved n = false

/-- The reliable environment with a given clock. -/
def Env.reliable (clock : ℕ → ℕ) : Env := ⟨fun _ _ => false, clock, fun _ => false, fun _ => false⟩

theorem Env.reliable_reliable (clock : ℕ → ℕ) : (Env.reliable clock).Reliable :=
  ⟨fun _ _ => rfl, fun _ => rfl, fun _ => rfl⟩

/-- Answer the calls of the storage code to its own process. -/
def ProcOp.handle (env : Env) : (x : ProcOp) → Local → x.Res × Local
  | .now, l => (env.clock l.nows, { l with nows := l.nows + 1 })
  | .stop, l => (env.stop l.loads, { l with loads := l.loads + 1 })
  | .acquireEncrypter, l => (!env.starved l.acquires, { l with acquires := l.acquires + 1 })
  | .cacheFind k, l => (l.valueCache[k]?, l)
  | .cachePut k v, l => ((), { l with valueCache := l.valueCache.insert k v })
  | .cacheErase k, l => ((), { l with valueCache := l.valueCache.erase k })

/-- The state of a running store. -/
abbrev Db := TxnDb Bytes Column.Value × Local

/-- The state of a running store on the ideal database. -/
abbrev IdealDb := TxnView Bytes Column.Value × Local

/-- The columns on disk. -/
abbrev Db.columns (s : Db) : Columns := s.1.committed

/-- The idle state of a store with the given columns and a transaction pool of `n` empty slots. -/
def Db.idle (cols : Columns) (n : ℕ) : Db :=
  (⟨cols, [], List.replicate n none, 0⟩, ⟨∅, 0, 0, 0⟩)

/-- The empty store with a transaction pool of `n` empty slots. -/
def Db.init (n : ℕ) : Db := Db.idle Store.empty n

@[simp] theorem Db.columns_init (n : ℕ) : (Db.init n).columns = Store.empty := rfl

/-- Run a storage program on the faithful database. -/
def exec {α : Type} (env : Env) (p : DbProg α) (s : Db) : α × Db :=
  Prog.run (Op.handle (TxnOp.handle env.fails) (ProcOp.handle env)) p s

/-- Run a storage program on the ideal database. -/
def execIdeal {α : Type} (env : Env) (p : DbProg α) (s : IdealDb) : α × IdealDb :=
  Prog.run (Op.handle TxnOp.ideal (ProcOp.handle env)) p s

/-- What the ideal database keeps of a state. -/
def Db.ideal (s : Db) : IdealDb := (s.1.ideal, s.2)

/-- **In a reliable environment the store behaves as on the ideal database.** -/
theorem exec_ideal {α : Type} {env : Env} (henv : env.Reliable) (p : DbProg α) (s : Db) :
    (exec env p s).1 = (execIdeal env p s.ideal).1 ∧
      (exec env p s).2.ideal = (execIdeal env p s.ideal).2 := by
  refine Prog.run_sim (S := fun (s : Db) t => s.ideal = t) (fun e s t hst => ?_) p rfl
  subst hst
  cases e with
  | store o =>
    obtain ⟨h1, h2⟩ := TxnOp.handle_ideal henv.fails o s.1
    exact ⟨h1, Prod.ext h2 rfl⟩
  | own x => exact ⟨rfl, rfl⟩

/-! ### The public calls -/

/-- The public calls of the storage layer, and the expiry sweep. -/
inductive Call
  | get (key : Bytes)
  | set (data : RequestData)
  | remove (key : Bytes)
  | move (data : RequestData)
  | ttl (key : Bytes)
  | list (key : Bytes)
  | getBatch (keys : List Bytes)
  | setBatch (kvs : List RequestData)
  | removeBatch (keys : List Bytes)
  | moveBatch (kvs : List RequestData)
  | ttlBatch (keys : List Bytes)
  | listBatch (keys : List Bytes)
  | clearExpired
  deriving DecidableEq, Repr

/-- The calls of clients that change the store. -/
def Call.Mutates : Call → Prop
  | .set _ | .remove _ | .move _ | .setBatch _ | .removeBatch _ | .moveBatch _ => True
  | _ => False

/-- What the public calls return. -/
inductive Answer
  | unit
  | bool (b : Bool)
  | value (v : Option Bytes)
  | seconds (n : ℕ)
  | nodes (l : Option (List Bytes))
  | values (l : List (Bytes × Option Bytes))
  | ttls (l : List (Bytes × ℕ))
  | lists (l : List (Bytes × Option (List Bytes)))
  deriving DecidableEq, Repr

/-- The program of a call. -/
def Call.prog (cfg : Config) : Call → DbProg Answer
  | .get key => .value <$> Database.get cfg key
  | .set data => .bool <$> Database.set cfg data
  | .remove key => .bool <$> Database.remove cfg key
  | .move data => .bool <$> Database.move cfg data
  | .ttl key => .seconds <$> Database.ttl cfg key
  | .list key => .nodes <$> Database.list cfg key
  | .getBatch keys => .values <$> Database.getBatch cfg keys
  | .setBatch kvs => .bool <$> Database.setBatch cfg kvs
  | .removeBatch keys => .bool <$> Database.removeBatch cfg keys
  | .moveBatch kvs => .bool <$> Database.moveBatch cfg kvs
  | .ttlBatch keys => .ttls <$> Database.ttlBatch cfg keys
  | .listBatch keys => .lists <$> Database.listBatch cfg keys
  | .clearExpired => (fun _ => .unit) <$> Database.clearExpired cfg

/-- The answer of a call. -/
def Call.answer (env : Env) (cfg : Config) (s : Db) (c : Call) : Answer :=
  (exec env (c.prog cfg) s).1

/-- The state after a call. -/
def Call.next (env : Env) (cfg : Config) (s : Db) (c : Call) : Db :=
  (exec env (c.prog cfg) s).2

/-- The state after a sequence of calls. -/
def runCalls (env : Env) (cfg : Config) (s : Db) (cs : List Call) : Db :=
  cs.foldl (Call.next env cfg) s

end ConfigDb
