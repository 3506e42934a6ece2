import ConfigDb.Api.RoundTrip
import ConfigDb.Effect.Runs
import ConfigDb.Storage.Ttl

/-!
# Sessions over the network

An operation of the client library becomes a request, which is framed, sent, cut into reads, put
together again, verified, and dispatched to a handler; the handler makes one call to the storage
layer, and its answer takes the same way back.  As long as the messages fit, none of this can be
noticed: a session of operations over the network gives the answers of the storage calls, made
directly one after the other, and leaves the store as they do.

The environment of the server may fail in any way.

## Main definitions

* `Operation.call`, `Operation.returned` : the call that an operation stands for, and what the
  operation makes of its answer.
* `Operation.session`, `Operation.directs` : operations over the network, and on the store itself.

## Main result

* `session_transparent` : the two agree.
-/

namespace ConfigDb

open Std Api

/-! ### The server -/

/-- The response of the server to the answer of a call. -/
def Server.response : ConfigDb.Answer → Response
  | .bool b => .success b
  | .values value => .keyValueResults (value.map valueResult)
  | .lists value => .keyValueResults (value.map childrenResult)
  | .ttls value => .keyValueResults (value.map ttlResult)
  | _ => .keyValueResults []

/-- **A handler makes the call of its request**, and responds with the answer. -/
theorem Server.handle_eq (env : Env) (cfg : Config) (s : Db) (request : Request) :
    Server.handle env cfg s request = (Server.process request).map fun c =>
      (c.next env cfg s, Server.response (c.answer env cfg s)) := by
  obtain ⟨action, data⟩ := request
  cases action with
  | get =>
    simp only [Server.handle, Server.get, Server.process]
    cases Request.keys ⟨.get, data⟩ <;>
      simp [Server.run, Call.next, Call.answer, Call.prog, Server.response]
  | put =>
    simp only [Server.handle, Server.put, Server.process]
    cases Server.pairs ⟨.put, data⟩ <;>
      simp [Server.run, Call.next, Call.answer, Call.prog, Server.response]
  | delete =>
    simp only [Server.handle, Server.remove, Server.process]
    cases Request.keys ⟨.delete, data⟩ <;>
      simp [Server.run, Call.next, Call.answer, Call.prog, Server.response]
  | list =>
    simp only [Server.handle, Server.list, Server.process]
    cases Request.keys ⟨.list, data⟩ <;>
      simp [Server.run, Call.next, Call.answer, Call.prog, Server.response]
  | move =>
    simp only [Server.handle, Server.move, Server.process]
    cases Server.pairs ⟨.move, data⟩ <;>
      simp [Server.run, Call.next, Call.answer, Call.prog, Server.response]
  | ttl =>
    simp only [Server.handle, Server.ttl, Server.process]
    cases Request.keys ⟨.ttl, data⟩ <;>
      simp [Server.run, Call.next, Call.answer, Call.prog, Server.response]

namespace Api

/-! ### Operations as calls -/

namespace Operation

/-- The call to the storage layer that an operation stands for.  A file that cannot be opened makes
none. -/
def call : Operation → Option Call
  | .get key => some (.getBatch [key])
  | .set data => some (.setBatch [data])
  | .remove key => some (.removeBatch [key])
  | .move data => some (.moveBatch [data])
  | .list path => some (.listBatch [path])
  | .ttl key => some (.ttlBatch [key])
  | .getBatch keys => some (.getBatch keys)
  | .setBatch kvs => some (.setBatch kvs)
  | .removeBatch keys => some (.removeBatch keys)
  | .moveBatch kvs => some (.moveBatch kvs)
  | .listBatch paths => some (.listBatch paths)
  | .ttlBatch keys => some (.ttlBatch keys)
  | .importFile lines => lines.map fun lines => .setBatch (lines.filterMap parseLine)

/-- What an operation makes of the answer of its call. -/
def returned : Operation → ConfigDb.Answer → Answer
  | .get _, .values [e] => .value e.2
  -- a node without names is taken for none
  | .list _, .lists [e] => .nodes (if e.2 = some [] then none else e.2)
  | .ttl _, .ttls [e] => .seconds e.2
  | .getBatch keys, .values value => .values (if value.length = keys.length then value else [])
  | .listBatch paths, .lists value => .lists (if value.length = paths.length then value else [])
  | .ttlBatch keys, .ttls value =>
    .ttls (if value.length = keys.length then value.map fun e => (e.1, (e.2 : ℤ)) else [])
  | .importFile (some lines), .bool b =>
    .imported (b, UInt32.ofNat (lines.filterMap parseLine).length, UInt32.ofNat lines.length)
  | .set _, .bool b | .remove _, .bool b | .move _, .bool b | .setBatch _, .bool b
  | .removeBatch _, .bool b | .moveBatch _, .bool b => .bool b
  | op, _ => op.unavailable

/-- An operation on the store itself: the store afterwards, and what it returns. -/
def direct (env : Env) (cfg : Config) (op : Operation) (s : Db) : Db × Answer :=
  match op.call with
  | some c => (c.next env cfg s, op.returned (c.answer env cfg s))
  | none => (s, op.unavailable)

/-- Operations over the network, one after the other: how they end, and the store afterwards. -/
def session (fb : Flatbuffers) (logged : Bool) (env : Env) (cfg : Config) :
    List Operation → Db → List End × Db
  | [], s => ([], s)
  | op :: ops, s =>
    let r := op.remote fb logged env cfg s
    (r.2 :: (session fb logged env cfg ops r.1).1, (session fb logged env cfg ops r.1).2)

/-- Operations on the store itself, one after the other. -/
def directs (env : Env) (cfg : Config) : List Operation → Db → List Answer × Db
  | [], s => ([], s)
  | op :: ops, s =>
    let r := op.direct env cfg s
    (r.2 :: (directs env cfg ops r.1).1, (directs env cfg ops r.1).2)

/-- The messages of an operation can be built, and fit: the server reads the request to its end,
and the client the response. -/
structure Fits (fb : Flatbuffers) (env : Env) (cfg : Config) (s : Db) (op : Operation) : Prop where
  request : ∀ request ∈ op.request, fb.CarriesRequest request ∧
    (fb.encodeRequest request).length + 4 < maxBytes
  response : ∀ c ∈ op.call, fb.CarriesResponse (Server.response (c.answer env cfg s)) ∧
    (fb.encodeResponse (Server.response (c.answer env cfg s))).length ≤ maxMessageSize

/-! ### The way there -/

theorem keys_keysRequest (action : RequestAction) (keys : List Bytes) :
    (keysRequest action keys).keys = some keys := by
  have h : (keys.map fun key => ({ key := some key } : KeyValue)).mapM KeyValue.key =
      some keys := by
    induction keys with
    | nil => rfl
    | cons key keys ih => simp [ih]
  exact h

theorem pairs_map_createKeyValue (action : RequestAction) (kvs : List RequestData) :
    Server.pairs ⟨action, some (kvs.map createKeyValue)⟩ = some kvs :=
  mapM_pair_createKeyValue kvs

/-- **The server makes the call that the operation stands for.** -/
theorem process_request (op : Operation) : op.request.bind Server.process = op.call := by
  cases op with
  | get key => exact congrArg (Option.map Call.getBatch) (keys_keysRequest .get [key])
  | remove key => exact congrArg (Option.map Call.removeBatch) (keys_keysRequest .delete [key])
  | list path => exact congrArg (Option.map Call.listBatch) (keys_keysRequest .list [path])
  | ttl key => exact congrArg (Option.map Call.ttlBatch) (keys_keysRequest .ttl [key])
  | getBatch keys => exact congrArg (Option.map Call.getBatch) (keys_keysRequest .get keys)
  | removeBatch keys => exact congrArg (Option.map Call.removeBatch) (keys_keysRequest .delete keys)
  | listBatch paths => exact congrArg (Option.map Call.listBatch) (keys_keysRequest .list paths)
  | ttlBatch keys => exact congrArg (Option.map Call.ttlBatch) (keys_keysRequest .ttl keys)
  | set data => exact congrArg (Option.map Call.setBatch) (pairs_map_createKeyValue .put [data])
  | move data => exact congrArg (Option.map Call.moveBatch) (pairs_map_createKeyValue .move [data])
  | setBatch kvs => exact congrArg (Option.map Call.setBatch) (pairs_map_createKeyValue .put kvs)
  | moveBatch kvs => exact congrArg (Option.map Call.moveBatch) (pairs_map_createKeyValue .move kvs)
  | importFile lines =>
    cases lines with
    | none => rfl
    | some lines =>
      exact congrArg (Option.map Call.setBatch)
        (pairs_map_createKeyValue .put (lines.filterMap parseLine))

theorem processTable_request (env : Env) (cfg : Config) (s : Db) {op : Operation}
    {request : Request} {c : Call} (hreq : op.request = some request) (hc : op.call = some c) :
    Server.processTable env cfg s request.table =
      some (c.next env cfg s, [Server.response (c.answer env cfg s)]) := by
  have hprocess : Server.process request = some c := by
    rw [← hc, ← process_request, hreq]
    rfl
  simp only [Server.processTable, Request.table, RequestAction.ofCode_code]
  change (Server.handle env cfg s request).map _ = _
  rw [Server.handle_eq, hprocess]
  rfl

end Operation

/-! ### The way back -/

theorem string_valueResult (e : Bytes × Option Bytes) :
    (Server.valueResult e).table.string = some e.2 := by
  obtain ⟨k, v⟩ := e
  cases v <;> rfl

theorem names_childrenResult (e : Bytes × Option (List Bytes)) :
    (Server.childrenResult e).table.names = some e.2 := by
  obtain ⟨k, l⟩ := e
  cases l <;> rfl

theorem results_table {α : Type} (n : ℕ) (failure : α)
    (read : List KeyValueResultTable → Option α) (value : List KeyValueResult) :
    results n failure read (some (Response.keyValueResults value).table) =
      if value.length = n then read (value.map KeyValueResult.table) else some failure := by
  simp only [Response.table, results, Option.bind_eq_bind, Option.bind_some, List.length_map]
  rfl

theorem mapM_map_table {α β : Type} {f : KeyValueResultTable → Option β} {g : α → KeyValueResult}
    {b : α → β} {l : List α} (h : ∀ a ∈ l, f (g a).table = some (b a)) :
    ((l.map g).map KeyValueResult.table).mapM f = some (l.map b) := by
  induction l with
  | nil => rfl
  | cons a l ih =>
    rw [List.forall_mem_cons] at h
    rw [List.map_cons, List.map_cons, List.mapM_cons, h.1, ih h.2]
    rfl

theorem results_mapM {α β : Type} (n : ℕ) {f : KeyValueResultTable → Option β}
    {g : α → KeyValueResult} {b : α → β} {value : List α}
    (h : ∀ a ∈ value, f (g a).table = some (b a)) :
    results n [] (fun value => value.mapM f)
        (some (Response.keyValueResults (value.map g)).table) =
      some (if value.length = n then value.map b else []) := by
  rw [results_table, mapM_map_table h, List.length_map]
  split_ifs <;> rfl

theorem valueResult_read (e : Bytes × Option Bytes) :
    (do
      let v ← (Server.valueResult e).table.string
      return (← (Server.valueResult e).table.key, v)) = some e := by
  rw [string_valueResult]
  rfl

theorem childrenResult_read (e : Bytes × Option (List Bytes)) :
    (do
      let names ← (Server.childrenResult e).table.names
      return (← (Server.childrenResult e).table.key, names)) = some e := by
  rw [names_childrenResult]
  rfl

theorem ttlAt_lt (cns v : ℕ) : Database.ttlAt cns v < 2 ^ 63 := by
  have hb : Int.bmod v (2 ^ 64) < 2 ^ 63 := Int.bmod_lt (by norm_num)
  unfold Database.ttlAt
  dsimp only
  split_ifs
  · omega
  · norm_num

theorem parseTTL_lt (env : Env) (value : Bytes) (s : Db) :
    (exec env (Database.parseTTL value) s).1 < 2 ^ 63 := by
  unfold Database.parseTTL
  split
  case h_1 =>
    rw [exec_pure]
    exact Nat.two_pow_pos 63
  case h_2 v _ =>
    rw [exec_bind, exec_pure]
    dsimp only
    exact ttlAt_lt _ v

theorem parseAll_lt (env : Env) (es : List (Bytes × Reply Bytes)) (s : Db) :
    ∀ e ∈ (exec env (Database.parseAll es) s).1, e.2 < 2 ^ 63 := by
  induction es generalizing s with
  | nil => simp [Database.parseAll]
  | cons e es ih =>
    obtain ⟨k, r⟩ := e
    cases r with
    | ok value =>
      simp only [Database.parseAll, exec_bind, exec_pure, List.forall_mem_cons]
      exact ⟨parseTTL_lt env value s, ih _⟩
    | notFound =>
      simp only [Database.parseAll, exec_bind, exec_pure, List.forall_mem_cons]
      exact ⟨Nat.two_pow_pos 63, ih s⟩
    | error =>
      simp only [Database.parseAll, exec_bind, exec_pure, List.forall_mem_cons]
      exact ⟨Nat.two_pow_pos 63, ih s⟩

theorem ttlBatch_lt (env : Env) (cfg : Config) (keys : List Bytes) (s : Db) :
    ∀ e ∈ (exec env (Database.ttlBatch cfg keys) s).1, e.2 < 2 ^ 63 := by
  rw [Database.ttlBatch, exec_bind]
  exact parseAll_lt env _ _

theorem seconds_toString {n : ℕ} (h : n < 2 ^ 63) : seconds (toString n) = some (n : ℤ) := by
  have hread : fromChars 64 (toString n) = some n := fromChars_toString (by omega)
  have hsigned : Int.bmod n (2 ^ 64) = n := bmod_of_lt (by omega) (by exact_mod_cast h)
  rw [seconds, hread]
  exact congrArg some hsigned

theorem ttlResult_read {e : Bytes × ℕ} (he : e.2 < 2 ^ 63) :
    (do
      let sv ← (Server.ttlResult e).table.string
      return ttlPairs (← (Server.ttlResult e).table.key) sv) = some [(e.1, (e.2 : ℤ))] := by
  have hsec : seconds (toString e.2) = some (e.2 : ℤ) := seconds_toString he
  change some (ttlPairs e.1 (some (toString e.2))) = _
  simp only [ttlPairs, hsec]

section

variable {env : Env} {cfg : Config} {s : Db} {op : Operation}

/-- **The client makes of the response what the operation makes of the answer.** -/
theorem Operation.interpret_response {c : Call} (hc : op.call = some c) :
    op.interpret (some (Server.response (c.answer env cfg s)).table) =
      some (op.returned (c.answer env cfg s)) := by
  -- a single operation is sent as a batch of one, and any other number of results is a failure
  cases op with
  | get key =>
    obtain rfl := Option.some.inj hc
    simp only [Call.answer, Call.prog, exec_map, Server.response]
    generalize (exec env (Database.getBatch cfg [key]) s).1 = value
    change (results 1 none _ _).map Answer.value = _
    rw [results_table]
    rcases value with _ | ⟨e, _ | ⟨e', l⟩⟩
    · rfl
    · simp only [List.length_singleton, if_true, List.map_cons, List.map_nil, string_valueResult]
      rfl
    · simp [returned, unavailable]
  | list path =>
    obtain rfl := Option.some.inj hc
    simp only [Call.answer, Call.prog, exec_map, Server.response]
    generalize (exec env (Database.listBatch cfg [path]) s).1 = value
    simp only [Operation.interpret, Api.list, Option.bind_eq_bind, Option.bind_some]
    rw [results_table]
    rcases value with _ | ⟨e, _ | ⟨e', l⟩⟩
    · rfl
    · simp only [List.length_singleton, if_true, List.map_cons, List.map_nil, names_childrenResult]
      obtain ⟨k, _ | _ | ⟨name, l⟩⟩ := e <;> rfl
    · simp [returned, unavailable]
  | ttl key =>
    obtain rfl := Option.some.inj hc
    have hlt := ttlBatch_lt env cfg [key] s
    simp only [Call.answer, Call.prog, exec_map, Server.response]
    generalize (exec env (Database.ttlBatch cfg [key]) s).1 = value at hlt ⊢
    simp only [Operation.interpret, Api.ttl, Option.bind_eq_bind, Option.bind_some]
    rw [results_table]
    rcases value with _ | ⟨e, _ | ⟨e', l⟩⟩
    · rfl
    · have hsec : seconds (toString e.2) = some (e.2 : ℤ) := seconds_toString (hlt e (by simp))
      change (some (((some (toString e.2)).bind seconds).getD 0)).map Answer.seconds = _
      rw [Option.bind_some, hsec]
      rfl
    · simp [returned, unavailable]
  | getBatch keys =>
    obtain rfl := Option.some.inj hc
    simp only [Call.answer, Call.prog, exec_map, Server.response]
    generalize (exec env (Database.getBatch cfg keys) s).1 = value
    change (results keys.length [] (fun value => value.mapM _) _).map Answer.values = _
    rw [results_mapM keys.length fun e _ => valueResult_read e, List.map_id']
    rfl
  | listBatch paths =>
    obtain rfl := Option.some.inj hc
    simp only [Call.answer, Call.prog, exec_map, Server.response]
    generalize (exec env (Database.listBatch cfg paths) s).1 = value
    change (results paths.length [] (fun value => value.mapM _) _).map Answer.lists = _
    rw [results_mapM paths.length fun e _ => childrenResult_read e, List.map_id']
    rfl
  | ttlBatch keys =>
    obtain rfl := Option.some.inj hc
    have hlt := ttlBatch_lt env cfg keys s
    simp only [Call.answer, Call.prog, exec_map, Server.response]
    generalize (exec env (Database.ttlBatch cfg keys) s).1 = value at hlt ⊢
    have hflat : (value.map fun e => [(e.1, (e.2 : ℤ))]).flatten =
        value.map fun e => (e.1, (e.2 : ℤ)) := by
      rw [← List.flatMap_def, List.map_eq_flatMap]
    change (results keys.length [] _ _).map Answer.ttls = _
    rw [results_table, mapM_map_table fun e he => ttlResult_read (hlt e he), List.length_map]
    simp only [returned, Option.pure_def, Option.bind_eq_bind, Option.bind_some, hflat]
    split_ifs <;> rfl
  | importFile lines =>
    cases lines with
    | none => simp [call] at hc
    | some lines =>
      obtain rfl := Option.some.inj hc
      simp only [Call.answer, Call.prog, exec_map]
      rfl
  | _ =>
    obtain rfl := Option.some.inj hc
    simp only [Call.answer, Call.prog, exec_map]
    rfl

theorem Operation.eq_of_call (h : op.call = none) : op = .importFile none := by
  cases op with
  | importFile lines =>
    cases lines with
    | none => rfl
    | some lines => simp [call] at h
  | _ => simp [call] at h

/-- **An operation over the network is the operation on the store itself**, if its messages fit. -/
theorem Operation.remote_eq (fb : Flatbuffers) (logged : Bool) (h : op.Fits fb env cfg s) :
    op.remote fb logged env cfg s =
      ((op.direct env cfg s).1, .returns (op.direct env cfg s).2) := by
  have hprocess := op.process_request
  cases hreq : op.request with
  | none =>
    have hc : op.call = none := by
      rw [← hprocess, hreq]
      rfl
    obtain rfl := Operation.eq_of_call hc
    rfl
  | some request =>
    obtain ⟨hcarries, hmax⟩ := h.request request hreq
    cases hc : op.call with
    | none =>
      obtain rfl := Operation.eq_of_call hc
      simp [Operation.request] at hreq
    | some c =>
      obtain ⟨hresponse, hsize⟩ := h.response c hc
      rw [Operation.remote_of_lt hreq hcarries hmax (processTable_request env cfg s hreq hc)]
      simp only [Operation.direct, hc]
      refine Prod.ext rfl ((Operation.run_written hreq (fun _ => hresponse) _).2 ⟨?_, ?_⟩)
      · unfold maxMessageSize at hsize
        unfold maxBufferSize
        omega
      · rw [if_pos hsize]
        exact Operation.interpret_response hc

end

end Api

/-- **Sessions over the network are sessions on the store itself**, for every sequence of operations
whose messages fit: whatever fails at the server, every operation returns what it makes of the
answer of its own call, and the store is left as these calls leave it. -/
theorem session_transparent (fb : Flatbuffers) (logged : Bool) (env : Env) (cfg : Config)
    (ops : List Operation) (s : Db)
    (h : Along (fun s op => (Operation.direct env cfg op s).1) (fun s op => op.Fits fb env cfg s) s
      ops) :
    Operation.session fb logged env cfg ops s =
      ((Operation.directs env cfg ops s).1.map .returns, (Operation.directs env cfg ops s).2) := by
  induction ops generalizing s with
  | nil => rfl
  | cons op ops ih =>
    obtain ⟨hfits, hrest⟩ := h
    simp only [Operation.session, Operation.directs, Operation.remote_eq fb logged hfits,
      ih _ hrest, List.map_cons]

theorem fits_two :
    let v : Bytes := [97, 97, 97, 97]
    let env := Env.reliable fun n => n
    let set : Operation := .set ⟨[47, 97], v, {}⟩
    set.Fits (.about v) env (.plain false) (Db.init 1) ∧
      (Operation.get [47, 97]).Fits (.about v) env (.plain false)
        (set.direct env (.plain false) (Db.init 1)).1 := by
  intro v env set
  have hset : (Call.setBatch [⟨[47, 97], v, {}⟩]).answer env (.plain false) (Db.init 1) =
      .bool true := by decide +kernel
  have hget : (Call.getBatch [[47, 97]]).answer env (.plain false)
      (set.direct env (.plain false) (Db.init 1)).1 = .values [([47, 97], some v)] := by
    decide +kernel
  have hvalue : Server.response (.values [([47, 97], some v)]) = valueResponse [47, 97] v := rfl
  refine ⟨⟨?_, ?_⟩, ?_, ?_⟩
  · rintro _ ⟨⟩
    exact ⟨carriesRequest_set v, by decide⟩
  · rintro _ ⟨⟩
    rw [hset]
    exact ⟨carriesResponse_success v true, by decide⟩
  · rintro _ ⟨⟩
    exact ⟨carriesRequest_get v, by decide⟩
  · rintro _ ⟨⟩
    rw [hget, hvalue]
    exact ⟨carriesResponse_value (by decide),
      show (valueBuffer v).length ≤ maxMessageSize by decide⟩

/-- `/a` is set to four bytes, and got. -/
theorem session_transparent_two :
    let v : Bytes := [97, 97, 97, 97]
    let env := Env.reliable fun n => n
    let ops := [.set ⟨[47, 97], v, {}⟩, .get [47, 97]]
    (Operation.session (.about v) true env (.plain false) ops (Db.init 1)).1 =
        [.returns (.bool true), .returns (.value (some v))] ∧
      (Operation.session (.about v) true env (.plain false) ops (Db.init 1)).2 =
        (Operation.directs env (.plain false) ops (Db.init 1)).2 := by
  intro v env ops
  obtain ⟨hfitsSet, hfitsGet⟩ := fits_two
  have hrun := session_transparent (.about v) true env (.plain false) ops (Db.init 1)
    ⟨hfitsSet, hfitsGet, trivial⟩
  have hdirects : (Operation.directs env (.plain false) ops (Db.init 1)).1 =
      [.bool true, .value (some v)] := by decide +kernel
  simp only [hrun, hdirects, List.map_cons, List.map_nil, and_self]

end ConfigDb
