import ConfigDb.Service.Replication

/-!
# The handlers of the TCP server

`coroutine::process` (`src/service/tcp/server.cpp`) hands a request that has passed
`VerifyRequestBuffer` to one of six handlers.  Verification checks that every offset points into the
buffer; it accepts a table without any of its fields, and any byte as the action.

A handler reads all fields that it needs before it calls the storage layer, and writes its response
at the end.  To read through an absent field is to crash, here `none`.

## Main definitions

* `RequestTable` : a request as verification leaves it.
* `Response` : what is written to the client.
* `Server.handle`, `Server.processTable` : the handlers, and the choice between them.

## Main results

* `answered_once_iff` : when a request is answered, and once.
* `request_not_answered` : requests that crash the server or stay without an answer.
-/

namespace ConfigDb

open Std Database

/-! ### Tables -/

/-- The table `model::Request`, with any byte as the action. -/
structure RequestTable where
  /-- The code of the action. -/
  action : UInt8 := 0
  /-- The keys and values. -/
  data : Option (List KeyValue) := none
  deriving DecidableEq, Repr

/-- The actions and their codes. -/
def RequestAction.ofCode : UInt8 → Option RequestAction
  | 0 => some .get
  | 1 => some .put
  | 2 => some .delete
  | 3 => some .list
  | 4 => some .move
  | 5 => some .ttl
  | _ => none

/-- The union `model::ValueVariant`. -/
inductive ValueVariant
  | value (value : Bytes)
  | children (value : List Bytes)
  | success (value : Bool)
  deriving DecidableEq, Repr

/-- The table `model::KeyValueResult`. -/
structure KeyValueResult where
  /-- The key. -/
  key : Bytes
  /-- What was found. -/
  value : ValueVariant
  deriving DecidableEq, Repr

/-- The table `model::Response`, which has one field, the union `model::ResultVariant`. -/
inductive Response
  | keyValueResults (value : List KeyValueResult)
  | success (value : Bool)
  deriving DecidableEq, Repr

namespace Server

/-! ### The handlers -/

/-- A result of `coroutine::get`. -/
def valueResult (e : Bytes × Option Bytes) : KeyValueResult :=
  ⟨e.1, match e.2 with
    | some v => .value v
    | none => .success false⟩

/-- A result of `coroutine::list`. -/
def childrenResult (e : Bytes × Option (List Bytes)) : KeyValueResult :=
  ⟨e.1, match e.2 with
    | some v => .children v
    | none => .success false⟩

/-- A result of `coroutine::ttl`. -/
def ttlResult (e : Bytes × ℕ) : KeyValueResult := ⟨e.1, .value (toString e.2)⟩

section

variable (env : Env) (cfg : Config) (s : Db)

/-- Run a call of the storage layer and make a response of its result. -/
def run {α : Type} (p : DbProg α) (response : α → Response) : Db × Response :=
  ((exec env p s).2, response (exec env p s).1)

/-- `coroutine::get`. -/
def get (request : Request) : Option (Db × Response) :=
  request.keys.map fun keys =>
    run env s (getBatch cfg keys) fun value => .keyValueResults (value.map valueResult)

/-- `coroutine::list`. -/
def list (request : Request) : Option (Db × Response) :=
  request.keys.map fun keys =>
    run env s (listBatch cfg keys) fun value => .keyValueResults (value.map childrenResult)

/-- `coroutine::put`. -/
def put (request : Request) : Option (Db × Response) :=
  (pairs request).map fun pairs => run env s (setBatch cfg pairs) .success

/-- `coroutine::remove`. -/
def remove (request : Request) : Option (Db × Response) :=
  request.keys.map fun keys => run env s (removeBatch cfg keys) .success

/-- `coroutine::move`. -/
def move (request : Request) : Option (Db × Response) :=
  (pairs request).map fun pairs => run env s (moveBatch cfg pairs) .success

/-- `coroutine::ttl`. -/
def ttl (request : Request) : Option (Db × Response) :=
  request.keys.map fun keys =>
    run env s (ttlBatch cfg keys) fun value => .keyValueResults (value.map ttlResult)

/-- The handler of an action: the store afterwards, and the response. -/
def handle (request : Request) : Option (Db × Response) :=
  match request.action with
  | .get => get env cfg s request
  | .list => list env cfg s request
  | .put => put env cfg s request
  | .delete => remove env cfg s request
  | .move => move env cfg s request
  | .ttl => ttl env cfg s request

/-- `coroutine::process` : the store afterwards, and the responses that are written.  For a code
that is none of the actions nothing is done. -/
def processTable (request : RequestTable) : Option (Db × List Response) :=
  match RequestAction.ofCode request.action with
  | some action => (handle env cfg s ⟨action, request.data⟩).map fun r => (r.1, [r.2])
  | none => some (s, [])

end

end Server

/-- The request has what its handler reads: the action is known, there is a vector, every item has a
key and, in a `Put` or `Move`, a value. -/
def RequestTable.Complete (request : RequestTable) : Prop :=
  ∃ action ∈ RequestAction.ofCode request.action, ∃ kvs ∈ request.data,
    ∀ kv ∈ kvs, kv.key.isSome ∧ (action = .put ∨ action = .move → kv.value.isSome)

/-! ### What the handlers read -/

theorem mapM_isSome {α β : Type} {f : α → Option β} {l : List α} :
    (l.mapM f).isSome ↔ ∀ a ∈ l, (f a).isSome := by
  induction l with
  | nil => simp
  | cons a l ih =>
    rw [List.forall_mem_cons, ← ih, List.mapM_cons]
    cases f a <;> cases l.mapM f <;> simp

theorem Request.keys_isSome (request : Request) :
    request.keys.isSome ↔ ∃ kvs ∈ request.data, ∀ kv ∈ kvs, kv.key.isSome := by
  unfold Request.keys
  cases request.data with
  | none => simp
  | some kvs => simp [mapM_isSome]

theorem Server.pair_isSome {kv : KeyValue} :
    (Server.pair kv).isSome ↔ kv.key.isSome ∧ kv.value.isSome := by
  obtain ⟨key, value, options⟩ := kv
  cases options <;> cases key <;> cases value <;> simp [Server.pair]

theorem Server.pairs_isSome (request : Request) :
    (Server.pairs request).isSome ↔
      ∃ kvs ∈ request.data, ∀ kv ∈ kvs, kv.key.isSome ∧ kv.value.isSome := by
  unfold Server.pairs
  cases request.data with
  | none => simp
  | some kvs => simp [mapM_isSome, Server.pair_isSome]

section

variable (env : Env) (cfg : Config) (s : Db)

/-- **What a handler reads**: a handler crashes unless every item has a key and, if it stores or
moves, a value. -/
theorem Server.handle_isSome (action : RequestAction) (data : Option (List KeyValue)) :
    (Server.handle env cfg s ⟨action, data⟩).isSome ↔
      ∃ kvs ∈ data, ∀ kv ∈ kvs,
        kv.key.isSome ∧ (action = .put ∨ action = .move → kv.value.isSome) := by
  have hkeys := Request.keys_isSome ⟨action, data⟩
  have hpairs := Server.pairs_isSome ⟨action, data⟩
  cases action with
  | get => simpa [Server.handle, Server.get] using hkeys
  | put => simpa [Server.handle, Server.put] using hpairs
  | delete => simpa [Server.handle, Server.remove] using hkeys
  | list => simpa [Server.handle, Server.list] using hkeys
  | move => simpa [Server.handle, Server.move] using hpairs
  | ttl => simpa [Server.handle, Server.ttl] using hkeys

theorem Server.handle_serve (request : Request) :
    (Server.handle env cfg s request).map Prod.fst =
      (Server.serve env cfg s request).map Prod.fst := by
  obtain ⟨action, data⟩ := request
  unfold Server.serve
  cases action with
  | get =>
    simp only [Server.handle, Server.get, Server.process]
    cases Request.keys ⟨.get, data⟩ <;> simp [Server.run, Call.next, Call.prog, exec]
  | put =>
    simp only [Server.handle, Server.put, Server.process]
    cases Server.pairs ⟨.put, data⟩ <;> simp [Server.run, Call.next, Call.prog, exec]
  | delete =>
    simp only [Server.handle, Server.remove, Server.process]
    cases Request.keys ⟨.delete, data⟩ <;> simp [Server.run, Call.next, Call.prog, exec]
  | list =>
    simp only [Server.handle, Server.list, Server.process]
    cases Request.keys ⟨.list, data⟩ <;> simp [Server.run, Call.next, Call.prog, exec]
  | move =>
    simp only [Server.handle, Server.move, Server.process]
    cases Server.pairs ⟨.move, data⟩ <;> simp [Server.run, Call.next, Call.prog, exec]
  | ttl =>
    simp only [Server.handle, Server.ttl, Server.process]
    cases Request.keys ⟨.ttl, data⟩ <;> simp [Server.run, Call.next, Call.prog, exec]

end

/-- **When a request that passed verification is answered, and once**: if and only if its action is
one of the six, it has a vector of items, every item has a key and, in a `Put` or `Move`, every item
has a value.  Otherwise the handler reads through an absent field, or nothing is written. -/
theorem answered_once_iff (env : Env) (cfg : Config) (s : Db) (request : RequestTable) :
    (∃ s' response, Server.processTable env cfg s request = some (s', [response])) ↔
      request.Complete := by
  obtain ⟨code, data⟩ := request
  unfold Server.processTable RequestTable.Complete
  cases ha : RequestAction.ofCode code with
  | none => simp
  | some action =>
    have hread := Server.handle_isSome env cfg s action data
    rw [Option.isSome_iff_exists] at hread
    simp only [Option.map_eq_some_iff, Prod.mk.injEq, List.cons.injEq, and_true,
      Option.mem_def, Option.some.injEq, exists_eq_left']
    constructor
    · rintro ⟨s', response, r, hr, -, -⟩
      exact hread.1 ⟨r, hr⟩
    · intro h
      obtain ⟨r, hr⟩ := hread.2 h
      exact ⟨r.1, r.2, r, hr, rfl, rfl⟩

/-- **Requests that are not answered.**  A `Get` without a vector, a `Put` without a value and a
`Delete` without a key crash the server; a request with the action `6` stays without an answer. -/
theorem request_not_answered :
    let env := Env.reliable fun _ => 0
    let cfg := Config.plain false
    Server.processTable env cfg (Db.init 1) ⟨0, none⟩ = none ∧
      Server.processTable env cfg (Db.init 1) ⟨1, some [{ key := some [97] }]⟩ = none ∧
      Server.processTable env cfg (Db.init 1) ⟨2, some [{ value := some [1] }]⟩ = none ∧
      (Server.processTable env cfg (Db.init 1) ⟨6, some []⟩).map Prod.snd = some [] := by
  exact ⟨rfl, rfl, rfl, rfl⟩

end ConfigDb
