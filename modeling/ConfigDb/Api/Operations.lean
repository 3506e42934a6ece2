import ConfigDb.Api.Connection
import ConfigDb.Api.Encoders
import ConfigDb.Service.Process

/-!
# The operations of the client

The thirteen operations of `src/api/api.cpp` take a connection from the pool, make a call on it, and
go down a ladder of checks on the response: it may be a null pointer, it may be of another variant,
it may have another number of results.  In a response that passed verification every field may be
absent and a union may have a type without a table; verification checks offsets only.

To read through an absent field, or through a null response, is to crash, here `none`.

## Main definitions

* `Api.ResponseTable` : a response as verification leaves it.
* `Api.Operation`, `Api.Operation.interpret` : the operations, and what they make of a response.
* `Api.Operation.run` : an operation, from the pool to its end.
* `Api.Operation.Complete` : the response has what the operation reads.

## Main results

* `Api.Operation.interpret_isSome` : when an operation does not crash on a response.
* `Api.Operation.reads_of_interpret` : what it returns was read from the response, or means failure.
* `api_degrades_iff` : when an operation returns.
* `list_crashes` : an answer of four bytes.
-/

namespace ConfigDb

namespace Api

/-! ### Responses -/

/-- The table `model::Value`. -/
structure ValueTable where
  /-- The value. -/
  value : Option Bytes := none
  deriving DecidableEq

/-- The table `model::Children`. -/
structure ChildrenTable where
  /-- The names of the children. -/
  value : Option (List Bytes) := none
  deriving DecidableEq

/-- The table `model::Success`. -/
structure SuccessTable where
  /-- The call was successful. -/
  value : Bool := false
  deriving DecidableEq

/-- The union `model::ValueVariant`: its type, with the table, which may be absent. -/
inductive ValueUnion
  | value (table : Option ValueTable)
  | children (table : Option ChildrenTable)
  | success (table : Option SuccessTable)
  | other
  deriving DecidableEq

/-- The table `model::KeyValueResult`. -/
structure KeyValueResultTable where
  /-- The key. -/
  key : Option Bytes := none
  /-- What was found. -/
  value : ValueUnion := .other
  deriving DecidableEq

/-- The table `model::KeyValueResults`. -/
structure KeyValueResultsTable where
  /-- The results. -/
  value : Option (List KeyValueResultTable) := none
  deriving DecidableEq

/-- The table `model::Response`, which has one field, the union `model::ResultVariant`. -/
inductive ResponseTable
  | keyValueResults (table : Option KeyValueResultsTable)
  | success (table : Option SuccessTable)
  | other
  deriving DecidableEq

/-- The functions of flatbuffers: the encoders, and the decoders, which verify a buffer before it is
read. -/
structure Flatbuffers where
  /-- The buffer of a request. -/
  encodeRequest : Request → Bytes
  /-- `VerifyRequestBuffer` and `GetRequest`. -/
  decodeRequest : Bytes → Option RequestTable
  /-- The buffer of a response. -/
  encodeResponse : Response → Bytes
  /-- `VerifyResponseBuffer` and `GetResponse`. -/
  decodeResponse : Bytes → Option ResponseTable

/-- `VerifyResponseBuffer`. -/
def Flatbuffers.verify (fb : Flatbuffers) (b : Bytes) : Bool := (fb.decodeResponse b).isSome

/-- The string of a result of the type `Value`. -/
def KeyValueResultTable.string (r : KeyValueResultTable) : Option (Option Bytes) :=
  match r.value with
  | .value table => do return some (← (← table).value)
  | _ => some none

/-- The names in a result of the type `Children`. -/
def KeyValueResultTable.names (r : KeyValueResultTable) : Option (Option (List Bytes)) :=
  match r.value with
  | .children table => do return some (← (← table).value)
  | _ => some none

/-! ### The ladders -/

/-- The checks of the operations that read results: the response, its variant and the number of
results. -/
def results {α : Type} (n : ℕ) (failure : α) (read : List KeyValueResultTable → Option α) :
    Option ResponseTable → Option α
  | none => some failure
  | some (.keyValueResults table) => do
    let value ← (← table).value
    if value.length = n then read value else return failure
  | some _ => some failure

/-- The checks of the operations that are successful or not. -/
def succeeded : Option ResponseTable → Option Bool
  | none => some false
  | some (.success table) => table.map SuccessTable.value
  | some _ => some false

/-- `api::get( key )`. -/
def get : Option ResponseTable → Option (Option Bytes) :=
  results 1 none fun value => match value with
    | r :: _ => r.string
    | [] => some none

/-- `api::set( data )`. -/
def set : Option ResponseTable → Option Bool := succeeded

/-- `api::remove( key )`. -/
def remove : Option ResponseTable → Option Bool := succeeded

/-- `api::move( data )`. -/
def move : Option ResponseTable → Option Bool := succeeded

/-- `api::list( path )`, which does not check the response. -/
def list (response : Option ResponseTable) : Option (Option (List Bytes)) := do
  let response ← response
  results 1 none (fun value => match value with
    | r :: _ => do
      match ← r.names with
      | some [] => return none
      | names => return names
    | [] => some none) (some response)

/-- `std::from_chars` of a time to live, as a number of seconds. -/
def seconds (sv : Bytes) : Option ℤ := (fromChars 64 sv).map fun v => Int.bmod v (2 ^ 64)

/-- `api::ttl( key )`, which does not check the response. -/
def ttl (response : Option ResponseTable) : Option ℤ := do
  let response ← response
  results 1 0 (fun value => match value with
    | r :: _ => do return ((← r.string).bind seconds).getD 0
    | [] => some 0) (some response)

/-- `api::get( keys )`. -/
def getBatch (keys : List Bytes) : Option ResponseTable → Option (List (Bytes × Option Bytes)) :=
  results keys.length [] fun value => value.mapM fun r => do
    let v ← r.string
    return (← r.key, v)

/-- `api::set( kvs )`. -/
def setBatch : Option ResponseTable → Option Bool := succeeded

/-- `api::remove( keys )`. -/
def removeBatch : Option ResponseTable → Option Bool := succeeded

/-- `api::move( kvs )`. -/
def moveBatch : Option ResponseTable → Option Bool := succeeded

/-- `api::list( paths )`. -/
def listBatch (paths : List Bytes) :
    Option ResponseTable → Option (List (Bytes × Option (List Bytes))) :=
  results paths.length [] fun value => value.mapM fun r => do
    let names ← r.names
    return (← r.key, names)

/-- The pairs that the loop of `api::ttl( keys )` adds for a result. -/
def ttlPairs (key : Bytes) (sv : Option Bytes) : List (Bytes × ℤ) :=
  match sv with
  | some sv =>
    match seconds sv with
    | some v => [(key, v)]
    -- after the warning the loop adds the pair once more
    | none => [(key, 0), (key, 0)]
  | none => [(key, 0)]

/-- `api::ttl( keys )`. -/
def ttlBatch (keys : List Bytes) : Option ResponseTable → Option (List (Bytes × ℤ)) :=
  results keys.length [] fun value => do
    return (← value.mapM fun r => do
      let sv ← r.string
      return ttlPairs (← r.key) sv).flatten

/-- The key and the value in a line of a file: they are separated by spaces. -/
def parseLine (line : Bytes) : Option RequestData :=
  if 32 ∈ line then
    some ⟨line.takeWhile (· != 32), (line.dropWhile (· != 32)).dropWhile (· == 32), {}⟩
  else none

/-- `api::import( file )`, with the lines of the file: the numbers are those of the keys and of the
lines. -/
def importFile (lines : List Bytes) (response : Option ResponseTable) :
    Option (Bool × UInt32 × UInt32) := do
  return (← succeeded response, UInt32.ofNat (lines.filterMap parseLine).length,
    UInt32.ofNat lines.length)

/-! ### Operations -/

/-- An operation; a file that cannot be opened has no lines. -/
inductive Operation
  | get (key : Bytes)
  | set (data : RequestData)
  | remove (key : Bytes)
  | move (data : RequestData)
  | list (path : Bytes)
  | ttl (key : Bytes)
  | getBatch (keys : List Bytes)
  | setBatch (kvs : List RequestData)
  | removeBatch (keys : List Bytes)
  | moveBatch (kvs : List RequestData)
  | listBatch (paths : List Bytes)
  | ttlBatch (keys : List Bytes)
  | importFile (lines : Option (List Bytes))

/-- What an operation returns. -/
inductive Answer
  | bool (b : Bool)
  | value (v : Option Bytes)
  | nodes (l : Option (List Bytes))
  | seconds (n : ℤ)
  | values (l : List (Bytes × Option Bytes))
  | lists (l : List (Bytes × Option (List Bytes)))
  | ttls (l : List (Bytes × ℤ))
  | imported (r : Bool × UInt32 × UInt32)
  deriving DecidableEq

/-- The request for some keys. -/
def keysRequest (action : RequestAction) (keys : List Bytes) : Request :=
  ⟨action, some (keys.map fun key => { key := some key })⟩

namespace Operation

/-- The request that is sent, if one is. -/
def request : Operation → Option Request
  | .get key => some (keysRequest .get [key])
  | .set data => some (BaseConnection.set data)
  | .remove key => some (keysRequest .delete [key])
  | .move data => some (BaseConnection.move data)
  | .list path => some (keysRequest .list [path])
  | .ttl key => some (keysRequest .ttl [key])
  | .getBatch keys => some (keysRequest .get keys)
  | .setBatch kvs => some (BaseConnection.setBatch kvs)
  | .removeBatch keys => some (keysRequest .delete keys)
  | .moveBatch kvs => some (BaseConnection.moveBatch kvs)
  | .listBatch paths => some (keysRequest .list paths)
  | .ttlBatch keys => some (keysRequest .ttl keys)
  | .importFile lines =>
    lines.map fun lines => BaseConnection.setBatch (lines.filterMap parseLine)

/-- What an operation makes of a response, which may be a null pointer; `none` if it reads through
null. -/
def interpret : Operation → Option ResponseTable → Option Answer
  | .get _, r => (Api.get r).map .value
  | .set _, r => (Api.set r).map .bool
  | .remove _, r => (Api.remove r).map .bool
  | .move _, r => (Api.move r).map .bool
  | .list _, r => (Api.list r).map .nodes
  | .ttl _, r => (Api.ttl r).map .seconds
  | .getBatch keys, r => (Api.getBatch keys r).map .values
  | .setBatch _, r => (Api.setBatch r).map .bool
  | .removeBatch _, r => (Api.removeBatch r).map .bool
  | .moveBatch _, r => (Api.moveBatch r).map .bool
  | .listBatch paths, r => (Api.listBatch paths r).map .lists
  | .ttlBatch keys, r => (Api.ttlBatch keys r).map .ttls
  | .importFile (some lines), r => (Api.importFile lines r).map .imported
  | .importFile none, _ => some (.imported (false, 0, 0))

/-- What an operation returns if the pool has no connection. -/
def unavailable : Operation → Answer
  | .get _ => .value none
  | .list _ => .nodes none
  | .ttl _ => .seconds 0
  | .getBatch _ => .values []
  | .listBatch _ => .lists []
  | .ttlBatch _ => .ttls []
  | .importFile _ => .imported (false, 0, 0)
  | _ => .bool false

/-- What means that an operation has failed. -/
def failures (op : Operation) : List Answer :=
  match op with
  | .importFile (some lines) => [op.unavailable, .imported (false,
      UInt32.ofNat (lines.filterMap parseLine).length, UInt32.ofNat lines.length)]
  | op => [op.unavailable]

end Operation

/-- How an operation ends. -/
inductive End
  /-- It waits for a read. -/
  | waits
  /-- It throws. -/
  | throws
  /-- It reads through null. -/
  | crashes
  /-- It returns. -/
  | returns (a : Answer)
  deriving DecidableEq

/-- Read a response. -/
def End.of : Option Answer → End
  | some a => .returns a
  | none => .crashes

/-- What the result of a call is to an operation: the exception, or the response. -/
def Flatbuffers.response (fb : Flatbuffers) : Result → Option (Option ResponseTable)
  | .thrown => none
  | .null => some none
  | .response bytes => some (fb.decodeResponse bytes)

/-- The end of an operation after its call. -/
def Operation.conclude (op : Operation) : Option (Option ResponseTable) → End
  | none => .throws
  | some response => .of (op.interpret response)

/-- An operation on the connection that the pool hands out, if it does. -/
def Operation.run (fb : Flatbuffers) (logged : Bool) (acquired : Option Connection)
    (op : Operation) (x : Exchange) : End :=
  match acquired with
  | none => .returns op.unavailable
  | some c =>
    match op.request with
    | none => .of (op.interpret none)
    | some request =>
      match writeImpl logged fb.verify c
          { x with request := fb.encodeRequest request } with
      | none => .waits
      | some o => op.conclude (fb.response o.result)

/-! ### What an operation reads -/

/-- If the result has the type `Value`, the string is there. -/
def KeyValueResultTable.HasString (r : KeyValueResultTable) : Prop :=
  ∀ table, r.value = .value table → ∃ t ∈ table, t.value.isSome

/-- If the result has the type `Children`, the names are there. -/
def KeyValueResultTable.HasNames (r : KeyValueResultTable) : Prop :=
  ∀ table, r.value = .children table → ∃ t ∈ table, t.value.isSome

/-- If the response has results, the vector is there, and if it has `n` results, these are so. -/
def ResponseTable.Has (n : ℕ) (P : List KeyValueResultTable → Prop) : ResponseTable → Prop
  | .keyValueResults table => ∃ t ∈ table, ∃ value ∈ t.value, value.length = n → P value
  | _ => True

/-- If the response says whether the call was successful, the table is there. -/
def ResponseTable.HasSuccess : ResponseTable → Prop
  | .success table => table.isSome
  | _ => True

namespace Operation

/-- The response has what the operation reads.  A null pointer will do, but not for `list` and `ttl`
of one key. -/
def Complete (op : Operation) : Option ResponseTable → Prop
  | none =>
    match op with
    | .list _ | .ttl _ => False
    | _ => True
  | some r =>
    match op with
    | .get _ | .ttl _ => r.Has 1 fun value => ∀ x ∈ value, x.HasString
    | .list _ => r.Has 1 fun value => ∀ x ∈ value, x.HasNames
    | .getBatch keys | .ttlBatch keys =>
      r.Has keys.length fun value => ∀ x ∈ value, x.key.isSome ∧ x.HasString
    | .listBatch paths =>
      r.Has paths.length fun value => ∀ x ∈ value, x.key.isSome ∧ x.HasNames
    | .importFile none => True
    | _ => r.HasSuccess

/-- The answer is what the response says, read from fields that are there. -/
def Reads (op : Operation) (r : ResponseTable) (a : Answer) : Prop :=
  match op with
  | .get _ => ∃ key v, r = .keyValueResults (some ⟨some [⟨key, .value (some ⟨some v⟩)⟩]⟩) ∧
      a = .value (some v)
  | .list _ => ∃ key l, l ≠ [] ∧
      r = .keyValueResults (some ⟨some [⟨key, .children (some ⟨some l⟩)⟩]⟩) ∧ a = .nodes (some l)
  | .ttl _ => ∃ key sv n, r = .keyValueResults (some ⟨some [⟨key, .value (some ⟨some sv⟩)⟩]⟩) ∧
      Api.seconds sv = some n ∧ a = .seconds n
  | .getBatch keys => ∃ value vs, r = .keyValueResults (some ⟨some value⟩) ∧
      value.length = keys.length ∧
      List.Forall₂ (fun x e => x.key = some e.1 ∧ x.string = some e.2) value vs ∧ a = .values vs
  | .listBatch paths => ∃ value vs, r = .keyValueResults (some ⟨some value⟩) ∧
      value.length = paths.length ∧
      List.Forall₂ (fun x e => x.key = some e.1 ∧ x.names = some e.2) value vs ∧ a = .lists vs
  | .ttlBatch keys => ∃ value vs, r = .keyValueResults (some ⟨some value⟩) ∧
      value.length = keys.length ∧
      List.Forall₂ (fun x es => ∃ key sv, x.key = some key ∧ x.string = some sv ∧
        es = ttlPairs key sv) value vs ∧ a = .ttls vs.flatten
  | .importFile lines => ∃ ls ∈ lines, r = .success (some ⟨true⟩) ∧
      a = .imported (true, UInt32.ofNat (ls.filterMap parseLine).length, UInt32.ofNat ls.length)
  | _ => r = .success (some ⟨true⟩) ∧ a = .bool true

end Operation

/-! ### One ladder after the other -/

theorem string_isSome (r : KeyValueResultTable) : r.string.isSome ↔ r.HasString := by
  obtain ⟨key, value⟩ := r
  cases value with
  | value table =>
    obtain _ | ⟨_ | v⟩ := table <;> simp [KeyValueResultTable.string, KeyValueResultTable.HasString]
  | _ => simp [KeyValueResultTable.string, KeyValueResultTable.HasString]

theorem names_isSome (r : KeyValueResultTable) : r.names.isSome ↔ r.HasNames := by
  obtain ⟨key, value⟩ := r
  cases value with
  | children table =>
    obtain _ | ⟨_ | v⟩ := table <;> simp [KeyValueResultTable.names, KeyValueResultTable.HasNames]
  | _ => simp [KeyValueResultTable.names, KeyValueResultTable.HasNames]

theorem string_eq_some {r : KeyValueResultTable} {v : Bytes} (h : r.string = some (some v)) :
    ∃ key, r = ⟨key, .value (some ⟨some v⟩)⟩ := by
  obtain ⟨key, value⟩ := r
  cases value with
  | value table =>
    obtain _ | ⟨_ | w⟩ := table <;> simp_all [KeyValueResultTable.string]
  | _ => simp [KeyValueResultTable.string] at h

theorem names_eq_some {r : KeyValueResultTable} {l : List Bytes} (h : r.names = some (some l)) :
    ∃ key, r = ⟨key, .children (some ⟨some l⟩)⟩ := by
  obtain ⟨key, value⟩ := r
  cases value with
  | children table =>
    obtain _ | ⟨_ | w⟩ := table <;> simp_all [KeyValueResultTable.names]
  | _ => simp [KeyValueResultTable.names] at h

section

variable {α : Type} {n : ℕ} {failure : α} {read : List KeyValueResultTable → Option α}

theorem results_isSome (r : ResponseTable) :
    (results n failure read (some r)).isSome ↔ r.Has n fun value => (read value).isSome := by
  cases r with
  | keyValueResults table =>
    obtain _ | ⟨_ | value⟩ := table
    · simp [results, ResponseTable.Has]
    · simp [results, ResponseTable.Has]
    · by_cases hn : value.length = n <;> simp [results, ResponseTable.Has, hn]
  | _ => simp [results, ResponseTable.Has]

theorem results_eq_some {response : Option ResponseTable} {a : α}
    (h : results n failure read response = some a) : a = failure ∨ ∃ value,
      response = some (.keyValueResults (some ⟨some value⟩)) ∧ value.length = n ∧
        read value = some a := by
  obtain _ | r := response
  · exact .inl (Option.some.inj h).symm
  · cases r with
    | keyValueResults table =>
      obtain _ | ⟨_ | value⟩ := table
      · simp [results] at h
      · simp [results] at h
      · by_cases hn : value.length = n
        · exact .inr ⟨value, rfl, hn, by simpa [results, hn] using h⟩
        · have ha : failure = a := by simpa [results, hn] using h
          exact .inl ha.symm
    | _ => exact .inl (Option.some.inj h).symm

theorem Has_congr {P Q : List KeyValueResultTable → Prop} (r : ResponseTable)
    (h : ∀ value, value.length = n → (P value ↔ Q value)) : r.Has n P ↔ r.Has n Q := by
  cases r with
  | keyValueResults table =>
    refine exists_congr fun t => and_congr Iff.rfl (exists_congr fun value => and_congr Iff.rfl ?_)
    exact forall_congr' fun hn => h value hn
  | _ => exact Iff.rfl

end

theorem succeeded_isSome (r : ResponseTable) :
    (succeeded (some r)).isSome ↔ r.HasSuccess := by
  cases r <;> simp [succeeded, ResponseTable.HasSuccess]

theorem succeeded_eq_some {response : Option ResponseTable} {b : Bool}
    (h : succeeded response = some b) : b = false ∨ response = some (.success (some ⟨true⟩)) ∧
      b = true := by
  obtain _ | r := response
  · exact .inl (Option.some.inj h).symm
  · cases r with
    | success table =>
      obtain _ | ⟨_ | _⟩ := table <;> simp_all [succeeded]
    | _ => exact .inl (Option.some.inj h).symm

theorem forall₂_of_mapM {α β : Type} {f : α → Option β} {l : List α} {bs : List β}
    (h : l.mapM f = some bs) : List.Forall₂ (fun a b => f a = some b) l bs := by
  induction l generalizing bs with
  | nil =>
    obtain rfl : bs = [] := by simpa [eq_comm] using h
    exact .nil
  | cons a l ih =>
    simp only [List.mapM_cons, Option.bind_eq_bind, Option.bind_eq_some_iff, Option.pure_def,
      Option.some.injEq] at h
    obtain ⟨b, hb, bs', hbs, rfl⟩ := h
    exact .cons hb (ih hbs)

/-! ### The operations -/

theorem get_isSome (r : ResponseTable) :
    (get (some r)).isSome ↔ r.Has 1 fun value => ∀ x ∈ value, x.HasString := by
  rw [get, results_isSome]
  refine Has_congr r fun value hn => ?_
  obtain ⟨x, rfl⟩ := List.length_eq_one_iff.1 hn
  simp [string_isSome]

theorem list_isSome (r : ResponseTable) :
    (list (some r)).isSome ↔ r.Has 1 fun value => ∀ x ∈ value, x.HasNames := by
  simp only [list, Option.bind_eq_bind, Option.bind_some]
  rw [results_isSome]
  refine Has_congr r fun value hn => ?_
  obtain ⟨x, rfl⟩ := List.length_eq_one_iff.1 hn
  simp only [List.mem_singleton, forall_eq, ← names_isSome]
  obtain _ | _ | _ | _ := x.names <;> simp

theorem ttl_isSome (r : ResponseTable) :
    (ttl (some r)).isSome ↔ r.Has 1 fun value => ∀ x ∈ value, x.HasString := by
  simp only [ttl, Option.bind_eq_bind, Option.bind_some]
  rw [results_isSome]
  refine Has_congr r fun value hn => ?_
  obtain ⟨x, rfl⟩ := List.length_eq_one_iff.1 hn
  simp only [List.mem_singleton, forall_eq, ← string_isSome]
  cases x.string <;> simp

theorem getBatch_isSome (keys : List Bytes) (r : ResponseTable) :
    (getBatch keys (some r)).isSome ↔
      r.Has keys.length fun value => ∀ x ∈ value, x.key.isSome ∧ x.HasString := by
  rw [getBatch, results_isSome]
  refine Has_congr r fun value _ => ?_
  rw [mapM_isSome]
  refine forall₂_congr fun x _ => ?_
  rw [← string_isSome]
  cases x.string <;> cases x.key <;> simp

theorem listBatch_isSome (paths : List Bytes) (r : ResponseTable) :
    (listBatch paths (some r)).isSome ↔
      r.Has paths.length fun value => ∀ x ∈ value, x.key.isSome ∧ x.HasNames := by
  rw [listBatch, results_isSome]
  refine Has_congr r fun value _ => ?_
  rw [mapM_isSome]
  refine forall₂_congr fun x _ => ?_
  rw [← names_isSome]
  cases x.names <;> cases x.key <;> simp

theorem ttlBatch_isSome (keys : List Bytes) (r : ResponseTable) :
    (ttlBatch keys (some r)).isSome ↔
      r.Has keys.length fun value => ∀ x ∈ value, x.key.isSome ∧ x.HasString := by
  rw [ttlBatch, results_isSome]
  refine Has_congr r fun value _ => ?_
  have hflat {β : Type} (o : Option (List (List β))) :
      (do return (← o).flatten : Option (List β)).isSome = o.isSome := by cases o <;> rfl
  rw [hflat, mapM_isSome]
  refine forall₂_congr fun x _ => ?_
  rw [← string_isSome]
  cases x.string <;> cases x.key <;> simp

namespace Operation

/-- **When an operation does not crash**: if the response has what it reads. -/
theorem interpret_isSome (op : Operation) (response : Option ResponseTable) :
    (op.interpret response).isSome ↔ op.Complete response := by
  cases response with
  | none =>
    cases op with
    | importFile lines => cases lines <;> simp [interpret, Complete, Api.importFile, succeeded]
    | list path => simp [interpret, Complete, Api.list]
    | ttl key => simp [interpret, Complete, Api.ttl]
    | _ => exact iff_of_true rfl trivial
  | some r =>
    cases op with
    | get key => rw [interpret, Option.isSome_map, get_isSome, Complete]
    | list path => rw [interpret, Option.isSome_map, list_isSome, Complete]
    | ttl key => rw [interpret, Option.isSome_map, ttl_isSome, Complete]
    | getBatch keys => rw [interpret, Option.isSome_map, getBatch_isSome, Complete]
    | listBatch paths => rw [interpret, Option.isSome_map, listBatch_isSome, Complete]
    | ttlBatch keys => rw [interpret, Option.isSome_map, ttlBatch_isSome, Complete]
    | importFile lines =>
      cases lines with
      | none => simp [interpret, Complete]
      | some lines =>
        change ((Api.importFile lines (some r)).map Answer.imported).isSome ↔ r.HasSuccess
        rw [Option.isSome_map, ← succeeded_isSome, Api.importFile]
        cases succeeded (some r) <;> simp
    | _ =>
      change ((succeeded (some r)).map Answer.bool).isSome ↔ r.HasSuccess
      rw [Option.isSome_map, succeeded_isSome]

end Operation

/-! ### What the operations return -/

theorem exists_of_single {α : Type} {response : Option ResponseTable} {failure a : α}
    {read : List KeyValueResultTable → Option α} (h : results 1 failure read response = some a) :
    a = failure ∨ ∃ x, response = some (.keyValueResults (some ⟨some [x]⟩)) ∧
      read [x] = some a := by
  refine (results_eq_some h).imp_right ?_
  rintro ⟨value, rfl, hn, hread⟩
  obtain ⟨x, rfl⟩ := List.length_eq_one_iff.1 hn
  exact ⟨x, rfl, hread⟩

theorem key_and_found {β : Type} {key : Option Bytes} {found : Option β} {e : Bytes × β}
    (h : (do let v ← found; return (← key, v)) = some e) : key = some e.1 ∧ found = some e.2 := by
  obtain ⟨v, hv, h⟩ := Option.bind_eq_some_iff.1 h
  obtain ⟨k, hk, h⟩ := Option.bind_eq_some_iff.1 h
  obtain rfl : (k, v) = e := Option.some.inj h
  exact ⟨hk, hv⟩

section

variable {response : Option ResponseTable} {keys : List Bytes}

theorem get_eq_some {v : Option Bytes} (h : get response = some v) : v = none ∨ ∃ key w,
    response = some (.keyValueResults (some ⟨some [⟨key, .value (some ⟨some w⟩)⟩]⟩)) ∧
      v = some w := by
  rcases exists_of_single h with rfl | ⟨x, rfl, hx⟩
  · exact .inl rfl
  · cases v with
    | none => exact .inl rfl
    | some w =>
      obtain ⟨key, rfl⟩ := string_eq_some hx
      exact .inr ⟨key, w, rfl, rfl⟩

theorem list_eq_some {l : Option (List Bytes)} (h : list response = some l) : l = none ∨
    ∃ key names, names ≠ [] ∧
      response = some (.keyValueResults (some ⟨some [⟨key, .children (some ⟨some names⟩)⟩]⟩)) ∧
      l = some names := by
  obtain ⟨r, rfl, hr⟩ := Option.bind_eq_some_iff.1 h
  rcases exists_of_single hr with rfl | ⟨x, hx, hnames⟩
  · exact .inl rfl
  · obtain ⟨names, hn, hnames⟩ := Option.bind_eq_some_iff.1 hnames
    obtain _ | _ | ⟨n, ns⟩ := names
    · exact .inl (Option.some.inj hnames).symm
    · exact .inl (Option.some.inj hnames).symm
    · obtain ⟨key, rfl⟩ := names_eq_some hn
      exact .inr ⟨key, n :: ns, by simp, hx, (Option.some.inj hnames).symm⟩

theorem ttl_eq_some {n : ℤ} (h : ttl response = some n) : n = 0 ∨ ∃ key sv,
    response = some (.keyValueResults (some ⟨some [⟨key, .value (some ⟨some sv⟩)⟩]⟩)) ∧
      seconds sv = some n := by
  obtain ⟨r, rfl, hr⟩ := Option.bind_eq_some_iff.1 h
  rcases exists_of_single hr with rfl | ⟨x, hx, hstring⟩
  · exact .inl rfl
  · obtain ⟨sv, hsv, hstring⟩ := Option.bind_eq_some_iff.1 hstring
    obtain rfl : (sv.bind seconds).getD 0 = n := Option.some.inj hstring
    cases sv with
    | none => exact .inl rfl
    | some sv =>
      cases hn : seconds sv with
      | none => exact .inl (by rw [Option.bind_some, hn, Option.getD_none])
      | some n =>
        obtain ⟨key, rfl⟩ := string_eq_some hsv
        exact .inr ⟨key, sv, hx, by rw [Option.bind_some, hn, Option.getD_some]⟩

theorem getBatch_eq_some {vs : List (Bytes × Option Bytes)} (h : getBatch keys response = some vs) :
    vs = [] ∨ ∃ value, response = some (.keyValueResults (some ⟨some value⟩)) ∧
      value.length = keys.length ∧
      List.Forall₂ (fun x e => x.key = some e.1 ∧ x.string = some e.2) value vs := by
  refine (results_eq_some h).imp_right ?_
  rintro ⟨value, hresponse, hn, hread⟩
  exact ⟨value, hresponse, hn, (forall₂_of_mapM hread).imp fun x e => key_and_found⟩

theorem listBatch_eq_some {vs : List (Bytes × Option (List Bytes))}
    (h : listBatch keys response = some vs) :
    vs = [] ∨ ∃ value, response = some (.keyValueResults (some ⟨some value⟩)) ∧
      value.length = keys.length ∧
      List.Forall₂ (fun x e => x.key = some e.1 ∧ x.names = some e.2) value vs := by
  refine (results_eq_some h).imp_right ?_
  rintro ⟨value, hresponse, hn, hread⟩
  exact ⟨value, hresponse, hn, (forall₂_of_mapM hread).imp fun x e => key_and_found⟩

theorem ttlBatch_eq_some {vs : List (Bytes × ℤ)} (h : ttlBatch keys response = some vs) :
    vs = [] ∨ ∃ value ess, response = some (.keyValueResults (some ⟨some value⟩)) ∧
      value.length = keys.length ∧
      List.Forall₂ (fun x es => ∃ key sv, x.key = some key ∧ x.string = some sv ∧
        es = ttlPairs key sv) value ess ∧ vs = ess.flatten := by
  refine (results_eq_some h).imp_right ?_
  rintro ⟨value, hresponse, hn, hread⟩
  obtain ⟨ess, hess, hread⟩ := Option.bind_eq_some_iff.1 hread
  refine ⟨value, ess, hresponse, hn, (forall₂_of_mapM hess).imp fun x es he => ?_,
    (Option.some.inj hread).symm⟩
  obtain ⟨sv, hsv, he⟩ := Option.bind_eq_some_iff.1 he
  obtain ⟨key, hk, he⟩ := Option.bind_eq_some_iff.1 he
  exact ⟨key, sv, hk, hsv, (Option.some.inj he).symm⟩

end

namespace Operation

/-- **What an operation returns** means failure, or was read from the response. -/
theorem reads_of_interpret (op : Operation) {response : Option ResponseTable} {a : Answer}
    (h : op.interpret response = some a) :
    a ∈ op.failures ∨ ∃ r, response = some r ∧ op.Reads r a := by
  have hbool (op : Operation) (hf : op.failures = [.bool false])
      (hr : ∀ r a, op.Reads r a ↔ r = .success (some ⟨true⟩) ∧ a = .bool true)
      (h : (succeeded response).map Answer.bool = some a) :
      a ∈ op.failures ∨ ∃ r, response = some r ∧ op.Reads r a := by
    obtain ⟨b, hb, rfl⟩ := Option.map_eq_some_iff.1 h
    rcases succeeded_eq_some hb with rfl | ⟨rfl, rfl⟩
    · exact .inl (hf ▸ List.mem_singleton_self _)
    · exact .inr ⟨_, rfl, (hr _ _).2 ⟨rfl, rfl⟩⟩
  cases op with
  | get key =>
    obtain ⟨v, hv, rfl⟩ := Option.map_eq_some_iff.1 h
    rcases get_eq_some hv with rfl | ⟨key, w, rfl, rfl⟩
    · exact .inl (List.mem_singleton_self _)
    · exact .inr ⟨_, rfl, key, w, rfl, rfl⟩
  | list path =>
    obtain ⟨l, hl, rfl⟩ := Option.map_eq_some_iff.1 h
    rcases list_eq_some hl with rfl | ⟨key, names, hne, rfl, rfl⟩
    · exact .inl (List.mem_singleton_self _)
    · exact .inr ⟨_, rfl, key, names, hne, rfl, rfl⟩
  | ttl key =>
    obtain ⟨n, hn, rfl⟩ := Option.map_eq_some_iff.1 h
    rcases ttl_eq_some hn with rfl | ⟨key, sv, rfl, hsv⟩
    · exact .inl (List.mem_singleton_self _)
    · exact .inr ⟨_, rfl, key, sv, n, rfl, hsv, rfl⟩
  | getBatch keys =>
    obtain ⟨vs, hvs, rfl⟩ := Option.map_eq_some_iff.1 h
    rcases getBatch_eq_some hvs with rfl | ⟨value, rfl, hn, hall⟩
    · exact .inl (List.mem_singleton_self _)
    · exact .inr ⟨_, rfl, value, vs, rfl, hn, hall, rfl⟩
  | listBatch paths =>
    obtain ⟨vs, hvs, rfl⟩ := Option.map_eq_some_iff.1 h
    rcases listBatch_eq_some hvs with rfl | ⟨value, rfl, hn, hall⟩
    · exact .inl (List.mem_singleton_self _)
    · exact .inr ⟨_, rfl, value, vs, rfl, hn, hall, rfl⟩
  | ttlBatch keys =>
    obtain ⟨vs, hvs, rfl⟩ := Option.map_eq_some_iff.1 h
    rcases ttlBatch_eq_some hvs with rfl | ⟨value, ess, rfl, hn, hall, rfl⟩
    · exact .inl (List.mem_singleton_self _)
    · exact .inr ⟨_, rfl, value, ess, rfl, hn, hall, rfl⟩
  | importFile lines =>
    cases lines with
    | none =>
      obtain rfl := Option.some.inj h
      exact .inl (List.mem_singleton_self _)
    | some lines =>
      obtain ⟨v, hv, rfl⟩ := Option.map_eq_some_iff.1 h
      obtain ⟨b, hb, hv⟩ := Option.bind_eq_some_iff.1 hv
      obtain rfl := Option.some.inj hv
      rcases succeeded_eq_some hb with rfl | ⟨rfl, rfl⟩
      · exact .inl (List.mem_cons_of_mem _ (List.mem_singleton_self _))
      · exact .inr ⟨_, rfl, lines, rfl, rfl, rfl⟩
  | _ => exact hbool _ rfl (fun _ _ => Iff.rfl) h

end Operation

/-! ### What a call hears -/

/-- The connection is not valid, or it is closed and cannot be opened. -/
def Unusable (c : Connection) (connects : Bool) : Prop :=
  c.status = false ∨ (c.isOpen = false ∧ connects = false)

/-- The bytes of the response, as they are read: the length in front of them is cut off at the
limit. -/
def body (reads : List Read) : Bytes :=
  ((delivered reads).drop 4).take (min (u32OfBytes (delivered reads)) maxMessageSize)

/-- The response of a call, by what happens at the socket: a null pointer if the connection cannot
be used or the first read returns less than five bytes, and otherwise what flatbuffers makes of the
bytes, once they have arrived and unless a warning about them throws. -/
inductive Hears (fb : Flatbuffers) (logged : Bool) (c : Connection) (connects : Bool)
    (reads : List Read) : Option ResponseTable → Prop
  | unusable (h : Unusable c connects) : Hears fb logged c connects reads none
  | short (h : ¬ Unusable c connects) {bytes : Bytes} {rest : List Read}
      (hreads : reads = .data bytes :: rest) (hlen : bytes.length < 5) :
      Hears fb logged c connects reads none
  | whole (h : ¬ Unusable c connects) {bytes : Bytes} {rest : List Read}
      (hreads : reads = .data bytes :: rest) (hlen : 5 ≤ bytes.length)
      (hlog : ¬ (logged ∧ 2 ^ 31 ≤ u32OfBytes (delivered reads)))
      (hall : min (u32OfBytes (delivered reads)) maxMessageSize + 4 ≤ (delivered reads).length) :
      Hears fb logged c connects reads (fb.decodeResponse (body reads))

section

variable {fb : Flatbuffers} {logged : Bool} {c : Connection} {x : Exchange}

theorem readLoop_eq_none {target : ℕ} {buffer : Bytes} {reads : List Read} (hr : .error ∉ reads)
    (h : (buffer ++ delivered reads).length < target) : readLoop target buffer reads = none := by
  induction reads generalizing buffer with
  | nil =>
    rw [delivered, List.append_nil] at h
    rw [readLoop, if_neg (Nat.not_le.2 h)]
  | cons r reads ih =>
    have hlt : buffer.length < target := by
      rw [List.length_append] at h
      omega
    cases r with
    | error => exact absurd List.mem_cons_self hr
    | data d =>
      rw [readLoop_data hlt]
      refine ih (fun hm => hr (List.mem_cons_of_mem _ hm)) ?_
      rwa [delivered_data, ← List.append_assoc] at h

theorem response_finish (sent : Bytes) (len : ℕ) (buffer : Bytes) :
    fb.response (finish fb.verify c sent len (true, buffer)).result =
      some (fb.decodeResponse ((buffer.drop 4).take len)) := by
  generalize hb : (buffer.drop 4).take len = b
  cases hd : fb.decodeResponse b with
  | none => simp [finish, hb, Flatbuffers.verify, hd, Flatbuffers.response]
  | some r => simp [finish, hb, Flatbuffers.verify, hd, Flatbuffers.response]

theorem body_of_prefix (reads : List Read) {buffer : Bytes} {len : ℕ}
    (h : buffer <+: delivered reads) (hlen : len + 4 ≤ buffer.length) :
    (buffer.drop 4).take len = ((delivered reads).drop 4).take len := by
  obtain ⟨rest, hrest⟩ := h
  rw [← hrest, List.drop_append_of_le_length (by omega),
    List.take_append_of_le_length (by rw [List.length_drop]; omega)]

/-- **What a call hears**, when no error occurs at the socket. -/
theorem response_of_receive (sent : Bytes) {bytes : Bytes} {reads : List Read}
    (hr : .error ∉ reads) (h₅ : 5 ≤ bytes.length) (response : Option ResponseTable) :
    (∃ o, receive logged fb.verify c sent (.data bytes :: reads) = some o ∧
        fb.response o.result = some response) ↔
      (¬ (logged ∧ 2 ^ 31 ≤ u32OfBytes (delivered (.data bytes :: reads))) ∧
        min (u32OfBytes (delivered (.data bytes :: reads))) maxMessageSize + 4 ≤
          (delivered (.data bytes :: reads)).length ∧
        response = fb.decodeResponse (body (.data bytes :: reads))) := by
  have hlen : u32OfBytes (delivered (.data bytes :: reads)) = u32OfBytes bytes :=
    u32OfBytes_append (by omega) _
  rw [receive, if_neg (Nat.not_lt.2 h₅), body, hlen]
  simp only
  by_cases hlog : logged = true ∧ 2 ^ 31 ≤ u32OfBytes bytes
  · rw [if_pos hlog]
    refine iff_of_false ?_ fun h => h.1 hlog
    rintro ⟨o, ho, hresponse⟩
    obtain rfl := Option.some.inj ho
    cases hresponse
  · rw [if_neg hlog]
    by_cases hall : min (u32OfBytes bytes) maxMessageSize + 4 ≤ (bytes ++ delivered reads).length
    · obtain ⟨b, hb⟩ := readLoop_delivered hall
      obtain ⟨hle, hprefix⟩ := prefix_of_readLoop hb
      have hbody := body_of_prefix (.data bytes :: reads) hprefix hle
      rw [hb, Option.map_some]
      simp only [Option.some.injEq, exists_eq_left', response_finish, hbody]
      exact ⟨fun h => ⟨hlog, hall, h.symm⟩, fun h => h.2.2.symm⟩
    · rw [readLoop_eq_none hr (Nat.not_le.1 hall)]
      refine iff_of_false (by simp) fun h => hall h.2.1

theorem hears_iff (fb : Flatbuffers) (logged : Bool) (c : Connection) (hw : x.writeError = none)
    (hr : .error ∉ x.reads) (response : Option ResponseTable) :
    (∃ o, writeImpl logged fb.verify c x = some o ∧ fb.response o.result = some response) ↔
      Hears fb logged c x.connects x.reads response := by
  by_cases hu : Unusable c x.connects
  · have hs := (socket_status c x.connects).2 hu
    simp only [writeImpl, hs, Bool.not_false, if_true, Option.some.injEq, exists_eq_left']
    constructor
    · intro h
      obtain rfl : none = response := Option.some.inj h
      exact .unusable hu
    · rintro (_ | ⟨h, -, -⟩ | ⟨h, -, -, -, -⟩)
      · rfl
      · exact absurd hu h
      · exact absurd hu h
  · have hs : (c.socket x.connects).status = true := by
      rw [← Bool.not_eq_false, socket_status]
      exact hu
    simp only [writeImpl, hs, Bool.not_true, Bool.false_eq_true, if_false, hw]
    cases hreads : x.reads with
    | nil =>
      refine iff_of_false (by simp [receive]) ?_
      rintro (h | ⟨-, h, -⟩ | ⟨-, h, -, -, -⟩)
      · exact hu h
      · cases h
      · cases h
    | cons r reads =>
      cases r with
      | error => exact absurd (hreads ▸ List.mem_cons_self) hr
      | data bytes =>
        have hr' : .error ∉ reads := fun hm => hr (hreads ▸ List.mem_cons_of_mem _ hm)
        by_cases h₅ : bytes.length < 5
        · rw [receive, if_pos h₅]
          simp only [Option.some.injEq, exists_eq_left']
          constructor
          · intro h
            obtain rfl : none = response := Option.some.inj h
            exact .short hu rfl h₅
          · rintro (_ | _ | ⟨-, h, hlen, -, -⟩)
            · rfl
            · rfl
            · cases h
              exact absurd h₅ (Nat.not_lt.2 hlen)
        · rw [response_of_receive _ hr' (Nat.not_lt.1 h₅)]
          constructor
          · rintro ⟨hlog, hall, rfl⟩
            exact .whole hu rfl (Nat.not_lt.1 h₅) hlog hall
          · rintro (h | ⟨-, h, hlen⟩ | ⟨-, h, hlen, hlog, hall⟩)
            · exact absurd h hu
            · cases h
              exact absurd hlen h₅
            · exact ⟨hlog, hall, rfl⟩

end

/-- What an operation needs: a connection and a request, or it fails at once; and a response that
has what it reads. -/
def Operation.Served (fb : Flatbuffers) (logged : Bool) (acquired : Option Connection)
    (op : Operation) (x : Exchange) : Prop :=
  acquired = none ∨ op.request = none ∨ ∃ c ∈ acquired, ∃ response,
    Hears fb logged c x.connects x.reads response ∧ op.Complete response

section

variable {fb : Flatbuffers} {logged : Bool} {c : Connection} {x : Exchange} {op : Operation}

theorem Operation.conclude_eq_returns {o : Option (Option ResponseTable)} {a : Answer} :
    op.conclude o = .returns a ↔
      ∃ response, o = some response ∧ op.interpret response = some a := by
  cases o with
  | none => simp [Operation.conclude]
  | some response =>
    cases h : op.interpret response <;> simp [Operation.conclude, End.of, h]

theorem Hears.decoded {connects : Bool} {reads : List Read} {r : ResponseTable}
    (h : Hears fb logged c connects reads (some r)) :
    ∃ bytes, bytes <:+: delivered reads ∧ fb.decodeResponse bytes = some r := by
  generalize hresponse : some r = response at h
  cases h with
  | unusable hu => cases hresponse
  | short hu hreads hlen => cases hresponse
  | whole hu hreads hlen hlog hall =>
    exact ⟨body reads, ((List.take_prefix _ _).isInfix).trans (List.drop_suffix _ _).isInfix, rfl⟩

/-- An operation that sends a request returns what it makes of what it hears. -/
theorem Operation.run_eq_returns {request : Request} (hreq : op.request = some request)
    (hw : x.writeError = none) (hr : .error ∉ x.reads) (a : Answer) :
    op.run fb logged (some c) x = .returns a ↔
      ∃ response, Hears fb logged c x.connects x.reads response ∧
        op.interpret response = some a := by
  let y : Exchange := { x with request := fb.encodeRequest request }
  have hhears := hears_iff fb logged c (x := y) hw hr
  have hrun : op.run fb logged (some c) x = match writeImpl logged fb.verify c y with
      | none => .waits
      | some o => op.conclude (fb.response o.result) := by
    rw [Operation.run, hreq]
  rw [hrun]
  cases hwrite : writeImpl logged fb.verify c y with
  | none =>
    refine iff_of_false (by simp) ?_
    rintro ⟨response, h, -⟩
    obtain ⟨o, ho, -⟩ := (hhears response).2 h
    rw [hwrite] at ho
    cases ho
  | some o =>
    rw [hwrite] at hhears
    simp only [Option.some.injEq, exists_eq_left'] at hhears
    rw [Operation.conclude_eq_returns]
    exact exists_congr fun response => and_congr (hhears response) Iff.rfl

end

end Api

open Api

/-- **When an operation of the client degrades.**  When no error occurs at the socket, an operation
returns an answer that means failure or that was read from what the server sent, if and only if the
pool has no connection or nothing is to be sent, or there is a response and the operation finds in
it what it reads.  There is one if the connection cannot be used or the first read returns less than
five bytes (a null pointer, which `list` and `ttl` of one key read through), or if enough bytes
arrive and no warning about their number throws (then it may be a null pointer or a table, in which
the fields that are read have to be present). -/
theorem api_degrades_iff (fb : Flatbuffers) (logged : Bool) (acquired : Option Api.Connection)
    (op : Operation) (x : Exchange) (hw : x.writeError = none) (hr : Read.error ∉ x.reads) :
    (∃ a, op.run fb logged acquired x = .returns a ∧ (a ∈ op.failures ∨
        ∃ bytes r, bytes <:+: delivered x.reads ∧ fb.decodeResponse bytes = some r ∧
          op.Reads r a)) ↔
      op.Served fb logged acquired x := by
  unfold Operation.Served
  cases acquired with
  | none =>
    refine iff_of_true ⟨op.unavailable, rfl, .inl ?_⟩ (.inl rfl)
    cases op with
    | importFile lines => cases lines <;> exact List.mem_cons_self
    | _ => exact List.mem_cons_self
  | some c =>
    cases hreq : op.request with
    | none =>
      refine iff_of_true ?_ (.inr (.inl rfl))
      cases op with
      | importFile lines =>
        cases lines with
        | none => exact ⟨_, rfl, .inl List.mem_cons_self⟩
        | some lines => cases hreq
      | _ => cases hreq
    | some request =>
      simp only [reduceCtorEq, Option.mem_def, Option.some.injEq, exists_eq_left', false_or]
      constructor
      · rintro ⟨a, ha, -⟩
        obtain ⟨response, h, ha⟩ := (op.run_eq_returns hreq hw hr a).1 ha
        exact ⟨response, h, (op.interpret_isSome response).1 (Option.isSome_of_eq_some ha)⟩
      · rintro ⟨response, h, hc⟩
        obtain ⟨a, ha⟩ := Option.isSome_iff_exists.1 ((op.interpret_isSome response).2 hc)
        refine ⟨a, (op.run_eq_returns hreq hw hr a).2 ⟨response, h, ha⟩,
          (op.reads_of_interpret ha).imp_right ?_⟩
        rintro ⟨r, rfl, hreads⟩
        obtain ⟨bytes, hbytes, hdecode⟩ := h.decoded
        exact ⟨bytes, r, hbytes, hdecode, hreads⟩

/-- A table `model::Response` whose union has the type `KeyValueResults` and no table. -/
def typeOnly : Bytes := [12, 0, 0, 0, 0, 0, 6, 0, 5, 0, 4, 0, 6, 0, 0, 0, 1]

/-- Decoders that know this table and no other. -/
def Api.Flatbuffers.sample : Flatbuffers where
  encodeRequest _ := []
  decodeRequest _ := none
  encodeResponse _ := []
  decodeResponse b := if b = typeOnly then some (.keyValueResults none) else none

/-- What is sent back arrives in one read. -/
def sentBack (answer : List UInt8) : Exchange where
  request := []
  answer := answer
  reads := [.data answer]

/-- `get` takes four bytes for a failure. -/
theorem api_degrades_iff_get :
    ∃ a, (Operation.get [47, 97]).run .sample true (some {}) (sentBack [0, 0, 0, 0]) = .returns a ∧
      (a ∈ (Operation.get [47, 97]).failures ∨ ∃ bytes r,
        bytes <:+: delivered (sentBack [0, 0, 0, 0]).reads ∧
          Flatbuffers.sample.decodeResponse bytes = some r ∧
          (Operation.get [47, 97]).Reads r a) :=
  (api_degrades_iff .sample true (some {}) (.get [47, 97]) (sentBack [0, 0, 0, 0]) rfl
    (by decide)).2
    (.inr (.inr ⟨{}, rfl, none, .short (by simp [Unusable]) rfl (by decide), trivial⟩))

/-- **Reading through null.**  After four bytes, `list` and `ttl` read through a null response,
which `get` takes for a failure; and after a response with a type and no table, `get` reads through
that. -/
theorem list_crashes :
    (Operation.list [47, 97]).run .sample true (some {}) (sentBack [0, 0, 0, 0]) = .crashes ∧
      (Operation.ttl [47, 97]).run .sample true (some {}) (sentBack [0, 0, 0, 0]) = .crashes ∧
      (Operation.get [47, 97]).run .sample true (some {}) (sentBack [0, 0, 0, 0]) =
        .returns (.value none) ∧
      (Operation.get [47, 97]).run .sample true (some {}) (sentBack (frame typeOnly)) =
        .crashes := by
  refine ⟨?_, ?_, ?_, ?_⟩ <;> rfl

end ConfigDb
