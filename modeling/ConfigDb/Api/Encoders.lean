import ConfigDb.Stream.Table
import ConfigDb.Service.Replication

/-!
# The encoders of requests

A request that carries values is built at several places: by `set` and `move` of `BaseConnection`,
for one key and for several (`src/api/impl/connection.cpp`), by `builder` of the HTTP service for
the notification of its peers (`src/service/http/server.cpp`), and by `set` and `move` of the Python
client (`client/python/client.py`).  All of them fill the same three options, and the TCP server
reads them back.

The table of the options is built slot by slot, as flatbuffers does it: a value that is the default
of its field is not written.

## Main definitions

* `OptionsField`, `createOptions` : the table of the options.
* `Encoder` : a call of one of the encoders; `Encoder.request` is what it builds.

## Main results

* `encoders_agree_iff` : when the server decodes what was encoded.
* `cache_lost` : the encoders that lose the cache flag.
-/

namespace ConfigDb

open Std

/-! ### The table of the options -/

/-- The fields of `model::Options`. -/
inductive OptionsField
  | ifNotExists
  | expirationInSeconds
  | cache
  deriving DecidableEq, Repr

namespace OptionsField

/-- The types of the fields. -/
abbrev Value : OptionsField → Type
  | .ifNotExists => Bool
  | .expirationInSeconds => UInt32
  | .cache => Bool

instance : (f : OptionsField) → DecidableEq f.Value
  | .ifNotExists => inferInstanceAs (DecidableEq Bool)
  | .expirationInSeconds => inferInstanceAs (DecidableEq UInt32)
  | .cache => inferInstanceAs (DecidableEq Bool)

/-- The defaults of the schema. -/
def default : (f : OptionsField) → f.Value
  | .ifNotExists => false
  | .expirationInSeconds => 0
  | .cache => false

end OptionsField

/-- The slots of a table of options. -/
abbrev OptionsSlots := Slots OptionsField.Value

namespace OptionsSlots

/-- `StartTable`, `Start`. -/
def start : OptionsSlots := Slots.start

@[simp] theorem slot_start (f : OptionsField) : start.slot f = none := rfl

/-- `add_if_not_exists`, `AddIfNotExists`. -/
def addIfNotExists (s : OptionsSlots) (v : Bool) : OptionsSlots :=
  s.add OptionsField.default .ifNotExists v

/-- `add_expiration_in_seconds`, `AddExpirationInSeconds`. -/
def addExpirationInSeconds (s : OptionsSlots) (v : UInt32) : OptionsSlots :=
  s.add OptionsField.default .expirationInSeconds v

/-- `add_cache`, `AddCache`. -/
def addCache (s : OptionsSlots) (v : Bool) : OptionsSlots := s.add OptionsField.default .cache v

/-- The finished table, as its fields are read. -/
def table (s : OptionsSlots) : OptionsTable where
  ifNotExists := s.read OptionsField.default .ifNotExists
  expirationInSeconds := s.read OptionsField.default .expirationInSeconds
  cache := s.read OptionsField.default .cache

end OptionsSlots

/-- `model::CreateOptions`. -/
def createOptions (ifNotExists : Bool := false) (expirationInSeconds : UInt32 := 0)
    (cache : Bool := false) : OptionsTable :=
  (((OptionsSlots.start.addExpirationInSeconds expirationInSeconds).addCache cache).addIfNotExists
    ifNotExists).table

/-! ### The encoders -/

/-- The item that `set` and `move` build for a record. -/
def createKeyValue (data : RequestData) : KeyValue :=
  ⟨some data.key, some data.value, some (createOptions data.options.ifNotExists
    data.options.expirationInSeconds data.options.cache)⟩

namespace BaseConnection

/-- `BaseConnection::set( data )`. -/
def set (data : RequestData) : Request := ⟨.put, some [createKeyValue data]⟩

/-- `BaseConnection::set( kvs )`. -/
def setBatch (kvs : List RequestData) : Request := ⟨.put, some (kvs.map createKeyValue)⟩

/-- `BaseConnection::move( data )`. -/
def move (data : RequestData) : Request := ⟨.move, some [createKeyValue data]⟩

/-- `BaseConnection::move( kvs )`. -/
def moveBatch (kvs : List RequestData) : Request := ⟨.move, some (kvs.map createKeyValue)⟩

end BaseConnection

namespace Client

/-- `Client.set`; the options are packed in the order of the schema. -/
def set (key value : Bytes) (ifNotExists : Bool) (expirationInSeconds : UInt32) (cache : Bool) :
    Request :=
  let options := ((OptionsSlots.start.addIfNotExists ifNotExists).addExpirationInSeconds
    expirationInSeconds).addCache cache
  ⟨.put, some [⟨some key, some value, some options.table⟩]⟩

/-- `Client.move`, which adds its two flags to the same field. -/
def move (key dest : Bytes) (ifNotExists cache : Bool) : Request :=
  let options := (OptionsSlots.start.addIfNotExists ifNotExists).addIfNotExists cache
  ⟨.move, some [⟨some key, some dest, some options.table⟩]⟩

end Client

/-- A call of an encoder. -/
inductive Encoder
  /-- `BaseConnection::set( data )`. -/
  | set (data : RequestData)
  /-- `BaseConnection::set( kvs )`. -/
  | setBatch (kvs : List RequestData)
  /-- `BaseConnection::move( data )`. -/
  | move (data : RequestData)
  /-- `BaseConnection::move( kvs )`. -/
  | moveBatch (kvs : List RequestData)
  /-- `builder( req )` of the HTTP service. -/
  | builder (req : RequestData)
  /-- `set` of the Python client. -/
  | clientSet (key value : Bytes) (ifNotExists : Bool) (expirationInSeconds : UInt32) (cache : Bool)
  /-- `move` of the Python client, which has no expiration. -/
  | clientMove (key dest : Bytes) (ifNotExists cache : Bool)

namespace Encoder

/-- The request that is built. -/
def request : Encoder → Request
  | .set data => BaseConnection.set data
  | .setBatch kvs => BaseConnection.setBatch kvs
  | .move data => BaseConnection.move data
  | .moveBatch kvs => BaseConnection.moveBatch kvs
  | .builder req => Endpoints.builder req
  | .clientSet key value ifNotExists expirationInSeconds cache =>
    Client.set key value ifNotExists expirationInSeconds cache
  | .clientMove key dest ifNotExists cache => Client.move key dest ifNotExists cache

/-- The action that is asked for. -/
def action : Encoder → RequestAction
  | .set _ | .setBatch _ | .builder _ | .clientSet .. => .put
  | .move _ | .moveBatch _ | .clientMove .. => .move

/-- The records that are handed to the encoder. -/
def records : Encoder → List RequestData
  | .set data | .move data | .builder data => [data]
  | .setBatch kvs | .moveBatch kvs => kvs
  | .clientSet key value ifNotExists expirationInSeconds cache =>
    [⟨key, value, ⟨expirationInSeconds, ifNotExists, cache⟩⟩]
  | .clientMove key dest ifNotExists cache => [⟨key, dest, ⟨0, ifNotExists, cache⟩⟩]

/-- The HTTP service and the `move` of the Python client are not given the cache flag. -/
def KeepsCache : Encoder → Prop
  | .builder req => req.options.cache = false
  | .clientMove _ _ _ cache => cache = false
  | _ => True

instance : (e : Encoder) → Decidable e.KeepsCache
  | .builder req => inferInstanceAs (Decidable (req.options.cache = false))
  | .clientMove _ _ _ cache => inferInstanceAs (Decidable (cache = false))
  | .set _ | .setBatch _ | .move _ | .moveBatch _ | .clientSet .. =>
    inferInstanceAs (Decidable True)

end Encoder

/-! ### Decoding -/

section

open Slots

/-- **The table of the options has the values that it was created with.** -/
@[simp] theorem createOptions_eq (ifNotExists : Bool) (expirationInSeconds : UInt32)
    (cache : Bool) :
    createOptions ifNotExists expirationInSeconds cache =
      ⟨ifNotExists, expirationInSeconds, cache⟩ := by
  unfold createOptions OptionsSlots.table OptionsSlots.addIfNotExists OptionsSlots.addCache
    OptionsSlots.addExpirationInSeconds
  congr 1
  · exact read_add _ (by simp) _
  · rw [read_add_of_ne _ _ (by decide), read_add_of_ne _ _ (by decide)]
    exact read_add _ rfl _
  · rw [read_add_of_ne _ _ (by decide)]
    exact read_add _ (by simp) _

theorem clientSet_options (ifNotExists : Bool) (expirationInSeconds : UInt32) (cache : Bool) :
    (((OptionsSlots.start.addIfNotExists ifNotExists).addExpirationInSeconds
      expirationInSeconds).addCache cache).table = ⟨ifNotExists, expirationInSeconds, cache⟩ := by
  unfold OptionsSlots.table OptionsSlots.addIfNotExists OptionsSlots.addCache
    OptionsSlots.addExpirationInSeconds
  congr 1
  · rw [read_add_of_ne _ _ (by decide), read_add_of_ne _ _ (by decide)]
    exact read_add _ rfl _
  · rw [read_add_of_ne _ _ (by decide)]
    exact read_add _ (by simp) _
  · exact read_add _ (by simp) _

theorem clientMove_options (ifNotExists cache : Bool) :
    ((OptionsSlots.start.addIfNotExists ifNotExists).addIfNotExists cache).table =
      { ifNotExists := ifNotExists || cache } := by
  unfold OptionsSlots.table OptionsSlots.addIfNotExists
  congr 1
  · rw [read_add_self, read_add _ rfl]
    cases ifNotExists <;> cases cache <;> rfl
  · rw [read_add_of_ne _ _ (by decide), read_add_of_ne _ _ (by decide)]
    rfl
  · rw [read_add_of_ne _ _ (by decide), read_add_of_ne _ _ (by decide)]
    rfl

end

theorem pair_createKeyValue (data : RequestData) :
    Server.pair (createKeyValue data) = some data := by
  simp [Server.pair, createKeyValue]

theorem mapM_pair_createKeyValue (kvs : List RequestData) :
    (kvs.map createKeyValue).mapM Server.pair = some kvs := by
  induction kvs with
  | nil => rfl
  | cons data kvs ih => simp [pair_createKeyValue, ih]

/-- The notification of the HTTP service leaves the cache flag to its default. -/
theorem builder_eq (req : RequestData) :
    Endpoints.builder req = ⟨.put, some [⟨some req.key, some req.value,
      some (createOptions req.options.ifNotExists req.options.expirationInSeconds)⟩]⟩ := by
  rw [createOptions_eq]
  rfl

theorem Encoder.action_request (e : Encoder) : e.request.action = e.action := by
  cases e <;> rfl

/-- **When the server decodes what was encoded**: the action and the records, in their order and
with every option unchanged.  It does so for every encoder but two, the notification of the HTTP
service and the `move` of the Python client, and for these as long as the cache flag is not set. -/
theorem encoders_agree_iff (e : Encoder) :
    (e.request.action = e.action ∧ Server.pairs e.request = some e.records) ↔ e.KeepsCache := by
  rw [and_iff_right e.action_request]
  cases e with
  | set data =>
    refine iff_of_true ?_ trivial
    simp [Encoder.request, BaseConnection.set, Encoder.records, Server.pairs, pair_createKeyValue]
  | setBatch kvs => exact iff_of_true (mapM_pair_createKeyValue kvs) trivial
  | move data =>
    refine iff_of_true ?_ trivial
    simp [Encoder.request, BaseConnection.move, Encoder.records, Server.pairs, pair_createKeyValue]
  | moveBatch kvs => exact iff_of_true (mapM_pair_createKeyValue kvs) trivial
  | builder req =>
    obtain ⟨key, value, options⟩ := req
    obtain ⟨expirationInSeconds, ifNotExists, cache⟩ := options
    simp [Encoder.request, builder_eq, Encoder.records, Encoder.KeepsCache, Server.pairs,
      Server.pair, eq_comm]
  | clientSet key value ifNotExists expirationInSeconds cache =>
    refine iff_of_true ?_ trivial
    simp [Encoder.request, Client.set, Encoder.records, Server.pairs, Server.pair,
      clientSet_options]
  | clientMove key dest ifNotExists cache =>
    -- the two flags come back as one
    cases cache <;>
      simp [Encoder.request, Client.move, Encoder.records, Encoder.KeepsCache, Server.pairs,
        Server.pair, clientMove_options]

/-- **The encoders that lose the cache flag.**  The notification of an HTTP `PUT` of a cache entry
is decoded as one of a plain entry; a cache move of the Python client is decoded as one that must
not overwrite its destination. -/
theorem cache_lost :
    let req : RequestData := ⟨[97], [1], ⟨60, false, true⟩⟩
    Server.pairs (Encoder.builder req).request = some [⟨[97], [1], ⟨60, false, false⟩⟩] ∧
      Server.pairs (Encoder.builder req).request ≠ some (Encoder.builder req).records ∧
      Server.pairs (Encoder.clientMove [97] [98] false true).request =
        some [⟨[97], [98], ⟨0, true, false⟩⟩] ∧
      Server.pairs (Encoder.clientMove [97] [98] false true).request ≠
        some (Encoder.clientMove [97] [98] false true).records := by
  decide

end ConfigDb
