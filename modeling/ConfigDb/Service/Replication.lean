import ConfigDb.Storage.Replica

/-!
# Replication to a peer

A node that accepts a mutation emits a notification, and its peers apply it.  The request of a TCP
client is sent on as it came (`src/service/tcp/server.cpp`), that of an HTTP client is encoded anew
by `builder` (`src/service/http/server.cpp`), and the peer decodes both in `Listener::process`
(`src/service/tcp/listener.cpp`).

A flatbuffers table is modelled by the values of its fields.  A string, vector or table that was
never written is a null pointer, here `none`, and to dereference it is to crash, here again `none`.
The configuration has peers, so that every accepted mutation is announced.

## Main results

* `cache_entry_replicated_to_tree` : a cache entry made by HTTP becomes a plain entry at the peer.
* `listener_crashes_without_options` : a TCP request without options crashes the peer.
* `replication_faithful` : when the peer ends with the same contents.
-/

namespace ConfigDb

open Std Database

/-! ### Requests -/

/-- `model::Action`. -/
inductive RequestAction
  | get
  | put
  | delete
  | list
  | move
  | ttl
  deriving DecidableEq, Repr

/-- The table `model::Options`; a field that was never written has its default. -/
structure OptionsTable where
  /-- Only set the value if the key does not exist. -/
  ifNotExists : Bool := false
  /-- Expire the key after this number of seconds. -/
  expirationInSeconds : UInt32 := 0
  /-- Treat the value as a cache entry. -/
  cache : Bool := false
  deriving DecidableEq, Repr

/-- The table `model::KeyValue`. -/
structure KeyValue where
  /-- The key. -/
  key : Option Bytes := none
  /-- The value, or the destination of a move. -/
  value : Option Bytes := none
  /-- The options. -/
  options : Option OptionsTable := none
  deriving DecidableEq, Repr

/-- The table `model::Request`. -/
structure Request where
  /-- What to do. -/
  action : RequestAction := .get
  /-- With which keys and values. -/
  data : Option (List KeyValue) := none
  deriving DecidableEq, Repr

/-- The keys of a request, as `get`, `list`, `remove` and `ttl` of the server and `remove` of the
listener collect them. -/
def Request.keys (request : Request) : Option (List Bytes) := do
  (← request.data).mapM KeyValue.key

/-- Every item of the request has options. -/
def Request.HasOptions (request : Request) : Prop :=
  ∀ kv ∈ request.data.getD [], kv.options.isSome

instance (request : Request) : Decidable request.HasOptions :=
  inferInstanceAs (Decidable (∀ kv ∈ request.data.getD [], kv.options.isSome))

/-- What is emitted: the request, if the call was successful. -/
def emitted (value : Answer) (request : Request) : Option Request :=
  if value = .bool true then some request else none

/-! ### The TCP server -/

namespace Server

/-- The body of the loops of `coroutine::put` and `coroutine::move`. -/
def pair (kv : KeyValue) : Option RequestData :=
  match kv.options with
  | some options => do
    return ⟨← kv.key, ← kv.value,
      ⟨options.expirationInSeconds, options.ifNotExists, options.cache⟩⟩
  | none => do return ⟨← kv.key, ← kv.value, {}⟩

/-- The pairs that `coroutine::put` and `coroutine::move` collect. -/
def pairs (request : Request) : Option (List RequestData) := do
  (← request.data).mapM pair

/-- `coroutine::process` : the call that it makes to the storage layer. -/
def process (request : Request) : Option Call :=
  match request.action with
  | .get => Call.getBatch <$> request.keys
  | .list => Call.listBatch <$> request.keys
  | .put => Call.setBatch <$> pairs request
  | .delete => Call.removeBatch <$> request.keys
  | .move => Call.moveBatch <$> pairs request
  | .ttl => Call.ttlBatch <$> request.keys

/-- A request at the server: the store afterwards, and the notification. -/
def serve (env : Env) (cfg : Config) (s : Db) (request : Request) : Option (Db × Option Request) :=
  (process request).map fun c => (c.next env cfg s, emitted (c.answer env cfg s) request)

end Server

/-! ### The HTTP server -/

/-- `boost::algorithm::replace_first_copy( input, search, "" )`. -/
def eraseFirst (search : Bytes) : Bytes → Bytes
  | [] => []
  | b :: input =>
    if search.isPrefixOf (b :: input) then (b :: input).drop search.length
    else b :: eraseFirst search input

/-- What `put` reads of an HTTP request. -/
structure HttpRequest where
  /-- The path of the URI. -/
  path : Bytes
  /-- The body. -/
  body : Bytes
  /-- The header `x-config-db-if-not-exists`. -/
  ifNotExists : Option Bytes := none
  /-- The header `x-config-db-ttl`. -/
  ttl : Option Bytes := none
  /-- The header `x-config-db-cache`. -/
  cache : Option Bytes := none
  deriving DecidableEq, Repr

namespace Endpoints

/-- The text `/key`. -/
def keyText : Bytes := [47, 107, 101, 121]

/-- The text `true`. -/
def trueText : Bytes := [116, 114, 117, 101]

/-- The key of a path. -/
def key (path : Bytes) : Bytes := eraseFirst keyText path

/-- The options of `put`. -/
def options (req : HttpRequest) : Options where
  expirationInSeconds := match req.ttl.bind (fromChars 64) with
    | some ttl => UInt32.ofNat ttl
    | none => 0
  ifNotExists := req.ifNotExists == some trueText
  cache := req.cache == some trueText

/-- The record that `put` hands to the storage layer. -/
def requestData (req : HttpRequest) : RequestData := ⟨key req.path, req.body, options req⟩

/-- `endpoints::builder( req )`. -/
def builder (req : RequestData) : Request where
  action := .put
  data := some [⟨some req.key, some req.value,
    some { ifNotExists := req.options.ifNotExists
           expirationInSeconds := req.options.expirationInSeconds }⟩]

/-- `endpoints::builder( key )`. -/
def builderKey (key : Bytes) : Request where
  action := .delete
  data := some [{ key := some key }]

/-- `endpoints::put` : the store afterwards, and the notification. -/
def put (env : Env) (cfg : Config) (s : Db) (req : HttpRequest) : Db × Option Request :=
  if req.body.isEmpty then (s, none)
  else
    let c := Call.set (requestData req)
    (c.next env cfg s, emitted (c.answer env cfg s) (builder (requestData req)))

/-- `endpoints::remove` : the store afterwards, and the notification. -/
def remove (env : Env) (cfg : Config) (s : Db) (path : Bytes) : Db × Option Request :=
  let c := Call.remove (key path)
  (c.next env cfg s, emitted (c.answer env cfg s) (builderKey (key path)))

end Endpoints

/-! ### The listener -/

namespace Listener

/-- The body of the loops of `Listener::put` and `Listener::move`. -/
def pair (kv : KeyValue) : Option RequestData := do
  let options ← kv.options
  return ⟨← kv.key, ← kv.value, ⟨options.expirationInSeconds, false, options.cache⟩⟩

/-- The pairs that `Listener::put` and `Listener::move` collect. -/
def pairs (request : Request) : Option (List RequestData) := do
  (← request.data).mapM pair

/-- `Listener::process` : the call that it makes to the storage layer, if any. -/
def process (request : Request) : Option (Option Call) :=
  match request.action with
  | .put => (fun ps => some (.setBatch ps)) <$> pairs request
  | .delete => (fun keys => some (.removeBatch keys)) <$> request.keys
  | .move => (fun ps => some (.moveBatch ps)) <$> pairs request
  | _ => some none

/-- A notification at the listener: the store afterwards. -/
def apply (env : Env) (cfg : Config) (s : Db) (request : Request) : Option Db :=
  (process request).map fun
    | some c => c.next env cfg s
    | none => s

end Listener

/-! ### Mutations -/

/-- A mutation that a node receives. -/
inductive Mutation
  /-- A TCP request. -/
  | tcp (request : Request)
  /-- An HTTP `PUT`. -/
  | httpPut (req : HttpRequest)
  /-- An HTTP `DELETE`. -/
  | httpDelete (path : Bytes)
  deriving DecidableEq, Repr

/-- A mutation at a node: the store afterwards, and the notification. -/
def Mutation.serve (env : Env) (cfg : Config) (s : Db) : Mutation → Option (Db × Option Request)
  | .tcp request => Server.serve env cfg s request
  | .httpPut req => some (Endpoints.put env cfg s req)
  | .httpDelete path => some (Endpoints.remove env cfg s path)

/-- The peer in state `s'` applies the notification and is like the node in state `t` afterwards. -/
def Replicated (env' : Env) (cfg' : Config) (s' t : Db) (note : Request) : Prop :=
  ∃ t', Listener.apply env' cfg' s' note = some t' ∧ Alike t.columns t'.columns

/-- When a mutation is replicated: a TCP `Put` or `Move` has options with every item, and the nodes
agree about the expirations of the moves; an HTTP `PUT` is not of a cache entry, or the key is
marked as one and is in the tree already. -/
def Mutation.Faithful (env env' : Env) (cfg cfg' : Config) (s s' : Db) : Mutation → Prop
  | .tcp request => match request.action with
    | .put => request.HasOptions
    | .move => request.HasOptions ∧ ∀ ps ∈ Server.pairs request,
        ExpiriesAgree env env' cfg cfg' (ps.map .move) ((Call.moveBatch ps).start env s)
          ((Call.moveBatch ps).start env' s')
    | _ => True
  | .httpPut req => (Endpoints.options req).cache = false ∨
      (s.columns.get .cache (getKey (Endpoints.key req.path)) = some [49] ∧
        s.columns.link (treeComponents (getKey (Endpoints.key req.path))) .forrest =
          s.columns .forrest)
  | .httpDelete _ => True

/-- A move of more than one key. -/
def Mutation.MovesSeveral : Mutation → Prop
  | .tcp request => request.action = .move ∧ 1 < (request.data.getD []).length
  | _ => False

/-! ### Decoding -/

section

variable {kvs : List KeyValue} {ps : List RequestData} {request : Request}

theorem length_of_mapM {α β : Type} {f : α → Option β} {l : List α} {l' : List β}
    (h : l.mapM f = some l') : l'.length = l.length := by
  induction l generalizing l' with
  | nil =>
    obtain rfl : [] = l' := by simpa using h
    rfl
  | cons a l ih =>
    rw [List.mapM_cons] at h
    cases ha : f a with
    | none => simp [ha] at h
    | some b =>
      cases hl : l.mapM f with
      | none => simp [ha, hl] at h
      | some bs =>
        obtain rfl : b :: bs = l' := by simpa [ha, hl] using h
        simp [ih hl]

theorem Server.pair_unconditional {kv : KeyValue} {d : RequestData} (h : Server.pair kv = some d)
    (ho : kv.options.isSome) : Listener.pair kv = some d.unconditional := by
  obtain ⟨key, value, options⟩ := kv
  cases options with
  | none => simp at ho
  | some o =>
    cases key with
    | none => simp [Server.pair] at h
    | some key =>
      cases value with
      | none => simp [Server.pair] at h
      | some value =>
        obtain rfl : _ = d := by simpa [Server.pair] using h
        rfl

/-- With options everywhere the listener decodes what the server has decoded, without
`ifNotExists`. -/
theorem mapM_pair_unconditional (h : kvs.mapM Server.pair = some ps)
    (ho : ∀ kv ∈ kvs, kv.options.isSome) :
    kvs.mapM Listener.pair = some (ps.map .unconditional) := by
  induction kvs generalizing ps with
  | nil =>
    obtain rfl : [] = ps := by simpa using h
    rfl
  | cons kv kvs ih =>
    rw [List.forall_mem_cons] at ho
    rw [List.mapM_cons] at h ⊢
    cases hd : Server.pair kv with
    | none => simp [hd] at h
    | some d =>
      cases hds : kvs.mapM Server.pair with
      | none => simp [hd, hds] at h
      | some ds =>
        obtain rfl : d :: ds = ps := by simpa [hd, hds] using h
        simp [Server.pair_unconditional hd ho.1, ih hds ho.2]

theorem options_of_mapM_pair (h : kvs.mapM Listener.pair = some ps) :
    ∀ kv ∈ kvs, kv.options.isSome := by
  induction kvs generalizing ps with
  | nil => simp
  | cons kv kvs ih =>
    rw [List.mapM_cons] at h
    cases hd : Listener.pair kv with
    | none => simp [hd] at h
    | some d =>
      cases hds : kvs.mapM Listener.pair with
      | none => simp [hd, hds] at h
      | some ds =>
        refine List.forall_mem_cons.2 ⟨?_, ih hds⟩
        cases ho : kv.options with
        | none => simp [Listener.pair, ho] at hd
        | some o => rfl

/-- **A request without options crashes the listener**, and only such a request does. -/
theorem listener_pairs_iff (h : Server.pairs request = some ps) :
    (Listener.pairs request).isSome ↔ request.HasOptions := by
  obtain ⟨kvs, hk, hp⟩ := Option.bind_eq_some_iff.1 h
  have hl : Listener.pairs request = kvs.mapM Listener.pair := by simp [Listener.pairs, hk]
  have ho : request.HasOptions ↔ ∀ kv ∈ kvs, kv.options.isSome := by simp [Request.HasOptions, hk]
  rw [hl, ho]
  constructor
  · intro hs
    obtain ⟨qs, hq⟩ := Option.isSome_iff_exists.1 hs
    exact options_of_mapM_pair hq
  · intro hs
    rw [mapM_pair_unconditional hp hs]
    rfl

theorem listener_pairs_eq (h : Server.pairs request = some ps) (ho : request.HasOptions) :
    Listener.pairs request = some (ps.map .unconditional) := by
  obtain ⟨kvs, hk, hp⟩ := Option.bind_eq_some_iff.1 h
  rw [Listener.pairs, hk]
  exact mapM_pair_unconditional hp (by simpa [Request.HasOptions, hk] using ho)

end

/-! ### The call of the peer -/

section

variable {env env' : Env} {cfg cfg' : Config} {s s' : Db} {c c' : Call}

/-- The call `c'` of the peer replays the call `c` of the node. -/
structure Replays (env env' : Env) (s s' : Db) (c c' : Call) : Prop where
  items : c'.items env' s' = (c.items env s).map Item.replay
  start : c.start env s = (⟨s.columns, s.columns⟩, s.2)
  start' : c'.start env' s' = (⟨s'.columns, s'.columns⟩, s'.2)

theorem Replays.twin (hr : Replays env env' s s' c c') (h : Alike s.columns s'.columns) :
    Twin (c.start env s) (c'.start env' s') := by
  rw [hr.start, hr.start']
  exact ⟨h, h.cache⟩

/-- A call that was accepted is replayed with the same effect, if the nodes agree about the
expirations. -/
theorem Replays.alike (hr : Replays env env' s s' c c') (henv : env.Reliable)
    (henv' : env'.Reliable) (hcipher : cfg.cipher = cfg'.cipher) (h : Alike s.columns s'.columns)
    {as : List Action} (ha : c.actions env cfg s = some as)
    (hx : ExpiriesAgree env env' cfg cfg' (c.items env s) (c.start env s) (c'.start env' s')) :
    Alike (c.next env cfg s).columns (c'.next env' cfg' s').columns := by
  obtain ⟨bs, hb, halike⟩ := replay_accepted henv henv' (hr.twin h) hcipher ha hx
  rw [← hr.items] at hb
  have hb' : c'.actions env' cfg' s' = some bs := hb
  rw [c.next_columns henv, c'.next_columns henv', ha, hb']
  simpa only [hr.start, hr.start'] using halike

/-- A call of one item is replayed with the same effect only if the nodes agree about it. -/
theorem Replays.agrees_of_alike (hr : Replays env env' s s' c c') (henv : env.Reliable)
    (henv' : env'.Reliable) (hcipher : cfg.cipher = cfg'.cipher) (h : Alike s.columns s'.columns)
    {i : Item} (hi : c.items env s = [i]) {as : List Action} (ha : c.actions env cfg s = some as)
    (halike : Alike (c.next env cfg s).columns (c'.next env' cfg' s').columns) :
    ExpiryAgrees env env' (c.start env s) (c'.start env' s') i := by
  have hi' : c'.items env' s' = [i.replay] := by rw [hr.items, hi]; rfl
  have ha₁ : i.actions env cfg (c.start env s) = some as := by
    rw [← itemActions_singleton, ← hi]
    exact ha
  obtain ⟨bs, hb, hiff⟩ := i.replay_actions env' (hr.twin h) hcipher ha₁
  have hb' : c'.actions env' cfg' s' = some bs := by
    rw [Call.actions, hi', itemActions_singleton]
    exact hb
  rw [c.next_columns henv, c'.next_columns henv', ha, hb'] at halike
  refine hiff.1 ?_
  simpa only [hr.start, hr.start'] using halike

theorem expiriesAgree_of_not_moves {is : List Item} (h : ∀ i ∈ is, ∀ d, i ≠ .move d)
    {t t' : IdealDb} : ExpiriesAgree env env' cfg cfg' is t t' := by
  induction is generalizing t t' with
  | nil => trivial
  | cons i is ih =>
    rw [List.forall_mem_cons] at h
    refine ⟨?_, ih h.2⟩
    cases i with
    | move d => exact absurd rfl (h.1 d)
    | _ => trivial

theorem replays_setBatch (ps : List RequestData) :
    Replays env env' s s' (.setBatch ps) (.setBatch (ps.map .unconditional)) where
  items := by simp [Call.items, Call.enters, Call.work, Item.replay]
  start := rfl
  start' := rfl

theorem replays_moveBatch (ps : List RequestData) :
    Replays env env' s s' (.moveBatch ps) (.moveBatch (ps.map .unconditional)) where
  items := by simp [Call.items, Call.enters, Call.work, Item.replay]
  start := rfl
  start' := rfl

theorem replays_removeBatch (keys : List Bytes) :
    Replays env env' s s' (.removeBatch keys) (.removeBatch keys) where
  items := by simp [Call.items, Call.enters, Call.work, Item.replay]
  start := rfl
  start' := rfl

theorem replays_set {d : RequestData} (hd : (Call.set d).enters = true) :
    Replays env env' s s' (.set d) (.setBatch [d.unconditional]) where
  items := by
    rw [Call.items, Call.items, if_pos hd]
    rfl
  start := rfl
  start' := rfl

theorem replays_remove {key : Bytes} (hk : (Call.remove key).enters = true) :
    Replays env env' s s' (.remove key) (.removeBatch [key]) where
  items := by
    rw [Call.items, Call.items, if_pos hk]
    rfl
  start := rfl
  start' := rfl

end

/-! ### The mutations, one kind at a time -/

section

variable {env env' : Env} {cfg cfg' : Config} {s s' t : Db} {note : Request}

theorem emitted_eq_some {value : Answer} {request : Request}
    (h : emitted value request = some note) :
    value = .bool true ∧ request = note := by
  unfold emitted at h
  split_ifs at h with hv
  exact ⟨hv, Option.some.inj h⟩

theorem Server.serve_eq_some {request : Request}
    (h : Server.serve env cfg s request = some (t, some note)) :
    ∃ c, Server.process request = some c ∧ c.Mutates ∧ c.answer env cfg s = .bool true ∧
      t = c.next env cfg s ∧ note = request := by
  obtain ⟨c, hc, he⟩ := Option.map_eq_some_iff.1 h
  rw [Prod.mk.injEq] at he
  obtain ⟨ht, hn⟩ := he
  obtain ⟨hv, rfl⟩ := emitted_eq_some hn
  refine ⟨c, hc, ?_, hv, ht.symm, rfl⟩
  -- the reading calls do not answer with a truth value
  unfold Server.process at hc
  cases ha : request.action <;> rw [ha] at hc <;>
    obtain ⟨x, -, rfl⟩ := Option.map_eq_some_iff.1 hc <;>
    first
      | trivial
      | simp [Call.answer, Call.prog] at hv

theorem listener_apply {request : Request} {ps : List RequestData}
    (hps : Server.pairs request = some ps) (ho : request.HasOptions)
    {call : List RequestData → Call}
    (hact : (request.action = .put ∧ call = .setBatch) ∨
      (request.action = .move ∧ call = .moveBatch)) :
    Listener.apply env' cfg' s' request =
      some ((call (ps.map .unconditional)).next env' cfg' s') := by
  rcases hact with ⟨hact, rfl⟩ | ⟨hact, rfl⟩ <;>
    simp [Listener.apply, Listener.process, hact, listener_pairs_eq hps ho]

/-- **Without options the listener crashes.** -/
theorem listener_crashes_without_options {request : Request} {ps : List RequestData}
    (hps : Server.pairs request = some ps) (ho : ¬ request.HasOptions)
    (hact : request.action = .put ∨ request.action = .move) :
    Listener.apply env' cfg' s' request = none := by
  have hl : Listener.pairs request = none := by
    rwa [← listener_pairs_iff hps, Bool.not_eq_true, Option.isSome_eq_false_iff,
      Option.isNone_iff_eq_none] at ho
  rcases hact with hact | hact <;> simp [Listener.apply, Listener.process, hact, hl]

theorem hasOptions_of_replicated {request : Request} {ps : List RequestData}
    (hps : Server.pairs request = some ps)
    (hact : request.action = .put ∨ request.action = .move)
    (hrep : Replicated env' cfg' s' t request) : request.HasOptions := by
  by_contra ho
  obtain ⟨t', ht', -⟩ := hrep
  simp [listener_crashes_without_options hps ho hact] at ht'

variable (henv : env.Reliable) (henv' : env'.Reliable) (hcipher : cfg.cipher = cfg'.cipher)
  (h : Alike s.columns s'.columns)
include henv henv' hcipher h

theorem replicated_put {request : Request} (hact : request.action = .put) {ps : List RequestData}
    (hps : Server.pairs request = some ps)
    (hans : (Call.setBatch ps).answer env cfg s = .bool true) :
    Replicated env' cfg' s' ((Call.setBatch ps).next env cfg s) request ↔ request.HasOptions := by
  refine ⟨hasOptions_of_replicated hps (.inl hact), fun ho => ?_⟩
  obtain ⟨-, as, has⟩ := Call.accepted_of_answer (c := .setBatch ps) henv trivial hans
  refine ⟨_, listener_apply hps ho (.inl ⟨hact, rfl⟩), ?_⟩
  refine (replays_setBatch ps).alike henv henv' hcipher h has (expiriesAgree_of_not_moves ?_)
  simp [Call.items, Call.enters, Call.work]

theorem replicated_delete {request : Request} (hact : request.action = .delete)
    {keys : List Bytes} (hkeys : request.keys = some keys)
    (hans : (Call.removeBatch keys).answer env cfg s = .bool true) :
    Replicated env' cfg' s' ((Call.removeBatch keys).next env cfg s) request := by
  obtain ⟨-, as, has⟩ := Call.accepted_of_answer (c := .removeBatch keys) henv trivial hans
  refine ⟨(Call.removeBatch keys).next env' cfg' s',
    by simp [Listener.apply, Listener.process, hact, hkeys], ?_⟩
  refine (replays_removeBatch keys).alike henv henv' hcipher h has (expiriesAgree_of_not_moves ?_)
  simp [Call.items, Call.enters, Call.work]

theorem replicated_move {request : Request} (hact : request.action = .move)
    {ps : List RequestData} (hps : Server.pairs request = some ps)
    (hans : (Call.moveBatch ps).answer env cfg s = .bool true) (ho : request.HasOptions)
    (hx : ExpiriesAgree env env' cfg cfg' (ps.map .move) ((Call.moveBatch ps).start env s)
      ((Call.moveBatch ps).start env' s')) :
    Replicated env' cfg' s' ((Call.moveBatch ps).next env cfg s) request := by
  obtain ⟨-, as, has⟩ := Call.accepted_of_answer (c := .moveBatch ps) henv trivial hans
  exact ⟨_, listener_apply hps ho (.inr ⟨hact, rfl⟩),
    (replays_moveBatch ps).alike henv henv' hcipher h has hx⟩

/-- A move of one key is replicated only if the nodes agree about its expiration. -/
theorem agrees_of_replicated_move {request : Request} (hact : request.action = .move)
    {ps : List RequestData} (hps : Server.pairs request = some ps) (hone : ps.length ≤ 1)
    (hans : (Call.moveBatch ps).answer env cfg s = .bool true)
    (hrep : Replicated env' cfg' s' ((Call.moveBatch ps).next env cfg s) request) :
    ExpiriesAgree env env' cfg cfg' (ps.map .move) ((Call.moveBatch ps).start env s)
      ((Call.moveBatch ps).start env' s') := by
  have ho := hasOptions_of_replicated hps (.inr hact) hrep
  obtain ⟨-, as, has⟩ := Call.accepted_of_answer (c := .moveBatch ps) henv trivial hans
  obtain ⟨t', ht', halike⟩ := hrep
  rw [listener_apply hps ho (.inr ⟨hact, rfl⟩)] at ht'
  obtain rfl := Option.some.inj ht'
  match ps, hone with
  | [], _ => trivial
  | [d], _ =>
    exact ⟨(replays_moveBatch [d]).agrees_of_alike henv henv' hcipher h rfl has halike, trivial⟩

theorem replicated_httpDelete {key : Bytes}
    (hans : (Call.remove key).answer env cfg s = .bool true) :
    Replicated env' cfg' s' ((Call.remove key).next env cfg s) (Endpoints.builderKey key) := by
  obtain ⟨hen, as, has⟩ := Call.accepted_of_answer (c := .remove key) henv trivial hans
  refine ⟨(Call.removeBatch [key]).next env' cfg' s', rfl, ?_⟩
  refine (replays_remove hen).alike henv henv' hcipher h has (expiriesAgree_of_not_moves ?_)
  simp [Call.items, hen, Call.work]

/-- **An HTTP `PUT`** is replicated if it is not of a cache entry, or if the key is marked as one
and is in the tree already. -/
theorem replicated_httpPut {d : RequestData} (hans : (Call.set d).answer env cfg s = .bool true) :
    Replicated env' cfg' s' ((Call.set d).next env cfg s) (Endpoints.builder d) ↔
      d.options.cache = false ∨ (s.columns.get .cache (getKey d.key) = some [49] ∧
        s.columns.link (treeComponents (getKey d.key)) .forrest = s.columns .forrest) := by
  obtain ⟨hen, as, has⟩ := Call.accepted_of_answer (c := .set d) henv trivial hans
  -- what the peer sets
  let d' : RequestData := ⟨d.key, d.value, { expirationInSeconds := d.options.expirationInSeconds }⟩
  have happly : Listener.apply env' cfg' s' (Endpoints.builder d) =
      some ((Call.setBatch [d']).next env' cfg' s') := rfl
  have hrep : Replicated env' cfg' s' ((Call.set d).next env cfg s) (Endpoints.builder d) ↔
      Alike ((Call.set d).next env cfg s).columns
        ((Call.setBatch [d']).next env' cfg' s').columns := by
    simp [Replicated, happly]
  rw [hrep]
  cases hc : d.options.cache with
  | false =>
    refine iff_of_true ?_ (.inl rfl)
    have hd' : d' = d.unconditional := by simp [d', RequestData.unconditional, hc]
    rw [hd']
    refine (replays_set hen).alike henv henv' hcipher h has (expiriesAgree_of_not_moves ?_)
    simp [Call.items, hen, Call.work]
  | true =>
    have has' : (Call.setBatch [d']).actions env' cfg' s' =
        some [putAction env' s'.2 (getKey d.key) d.value d'.options] := rfl
    have hact : as = [putAction env s.2 (getKey d.key) d.value d.options] := by
      rw [Call.actions, Call.items, if_pos hen] at has
      simp only [Call.work, itemActions, Item.actions] at has
      split_ifs at has
      · cases has
      · exact (Option.some.inj has).symm
    rw [(Call.set d).next_columns henv, (Call.setBatch [d']).next_columns henv', has, has', hact]
    simp only [Bool.true_eq_false, false_or]
    exact h.setEntry_cache_iff hcipher hc rfl rfl

end

/-- **Replication is faithful** to the mutations that meet `Mutation.Faithful`: the peer applies the
notification and ends with the same contents.  Moves of several keys apart, it is faithful to no
others. -/
theorem replication_faithful (env env' : Env) (henv : env.Reliable) (henv' : env'.Reliable)
    (cfg cfg' : Config) (hcipher : cfg.cipher = cfg'.cipher) (s s' : Db)
    (h : Alike s.columns s'.columns) (m : Mutation) (t : Db) (note : Request)
    (hs : m.serve env cfg s = some (t, some note)) :
    (m.Faithful env env' cfg cfg' s s' → Replicated env' cfg' s' t note) ∧
      (¬ m.MovesSeveral → Replicated env' cfg' s' t note → m.Faithful env env' cfg cfg' s s') := by
  cases m with
  | tcp request =>
    obtain ⟨c, hc, hmut, hans, rfl, rfl⟩ := Server.serve_eq_some hs
    unfold Server.process at hc
    simp only [Mutation.Faithful]
    cases ha : note.action with
    | put =>
      rw [ha] at hc
      obtain ⟨ps, hps, rfl⟩ := Option.map_eq_some_iff.1 hc
      have hiff := replicated_put henv henv' hcipher h ha hps hans
      exact ⟨hiff.2, fun _ => hiff.1⟩
    | delete =>
      rw [ha] at hc
      obtain ⟨keys, hkeys, rfl⟩ := Option.map_eq_some_iff.1 hc
      exact ⟨fun _ => replicated_delete henv henv' hcipher h ha hkeys hans, fun _ _ => trivial⟩
    | move =>
      rw [ha] at hc
      obtain ⟨ps, hps, rfl⟩ := Option.map_eq_some_iff.1 hc
      refine ⟨fun hf => replicated_move henv henv' hcipher h ha hps hans hf.1 (hf.2 ps hps), ?_⟩
      intro hone hrep
      refine ⟨hasOptions_of_replicated hps (.inr ha) hrep, fun qs hqs => ?_⟩
      obtain rfl := Option.some.inj (hps.symm.trans hqs)
      refine agrees_of_replicated_move henv henv' hcipher h ha hps ?_ hans hrep
      obtain ⟨kvs, hk, hp⟩ := Option.bind_eq_some_iff.1 hps
      simpa [Mutation.MovesSeveral, ha, hk, length_of_mapM hp] using hone
    | get | list | ttl =>
      rw [ha] at hc
      obtain ⟨x, -, rfl⟩ := Option.map_eq_some_iff.1 hc
      exact hmut.elim
  | httpPut req =>
    have hput : Endpoints.put env cfg s req = (t, some note) := Option.some.inj hs
    unfold Endpoints.put at hput
    split_ifs at hput with hb
    · simp at hput
    obtain ⟨ht, hn⟩ := Prod.mk.inj hput
    obtain ⟨hans, rfl⟩ := emitted_eq_some hn
    obtain rfl := ht
    have hiff := replicated_httpPut henv henv' hcipher h hans
    exact ⟨hiff.2, fun _ => hiff.1⟩
  | httpDelete path =>
    obtain ⟨ht, hn⟩ := Prod.mk.inj (Option.some.inj hs)
    obtain ⟨hans, rfl⟩ := emitted_eq_some hn
    obtain rfl := ht
    exact ⟨fun _ => replicated_httpDelete henv henv' hcipher h hans, fun _ _ => trivial⟩

/-- A TCP `Put` of a cache entry, with options, is replicated. -/
theorem replication_faithful_put :
    let env := Env.reliable fun _ => 10 ^ 18
    let env' := Env.reliable fun _ => 10 ^ 18 + 5
    let request : Request := ⟨.put, some [⟨some [97], some [1],
      some { ifNotExists := true, expirationInSeconds := 10, cache := true }⟩]⟩
    let t := (Call.setBatch [⟨[97], [1], ⟨10, true, true⟩⟩]).next env (.plain false) (Db.init 1)
    (Mutation.tcp request).serve env (.plain false) (Db.init 1) = some (t, some request) ∧
      Replicated env' (.plain true) (Db.init 2) t request := by
  intro env env' request t
  have hs : (Mutation.tcp request).serve env (.plain false) (Db.init 1) = some (t, some request) :=
    rfl
  exact ⟨hs, (replication_faithful env env' (Env.reliable_reliable _) (Env.reliable_reliable _)
    (.plain false) (.plain true) rfl (Db.init 1) (Db.init 2) (Alike.refl _) (.tcp request) t request
    hs).1 (show request.HasOptions by decide)⟩

/-- **A cache entry made by HTTP is a plain entry at the peer**, since `builder` leaves the option
out: the key is in the `cache` column of the node and in the tree of the peer. -/
theorem cache_entry_replicated_to_tree :
    let env := Env.reliable fun _ => 10 ^ 18
    let req : HttpRequest := ⟨[47, 107, 101, 121, 47, 97], [1], none, some [57],
      some [116, 114, 117, 101]⟩
    let note : Request :=
      ⟨.put, some [⟨some [47, 97], some [1], some { expirationInSeconds := 9 }⟩]⟩
    let t := (Call.set ⟨[47, 97], [1], ⟨9, false, true⟩⟩).next env (.plain false) (Db.init 1)
    (Mutation.httpPut req).serve env (.plain false) (Db.init 1) = some (t, some note) ∧
      t.columns.get .cache [47, 97] = some [49] ∧ t.columns.get .forrest [47] = none ∧
      (∃ t', Listener.apply env (.plain false) (Db.init 1) note = some t' ∧
        t'.columns.get .cache [47, 97] = none ∧ t'.columns.get .forrest [47] = some ⟨[[97]]⟩) ∧
      ¬ Replicated env (.plain false) (Db.init 1) t note := by
  intro env req note t
  have happly : Listener.apply env (.plain false) (Db.init 1) note =
      some ((Call.setBatch [⟨[47, 97], [1], { expirationInSeconds := 9 }⟩]).next env (.plain false)
        (Db.init 1)) := rfl
  refine ⟨rfl, by decide, by decide, ⟨_, happly, by decide, by decide⟩, ?_⟩
  rintro ⟨t', ht', halike⟩
  obtain rfl := Option.some.inj (happly.symm.trans ht')
  have hmark := Store.get_congr halike.cache [47, 97]
  revert hmark
  decide

/-- A TCP `Put` without options is accepted, and crashes the listener. -/
example :
    let env := Env.reliable fun _ => 10 ^ 18
    let request : Request := ⟨.put, some [⟨some [97], some [1], none⟩]⟩
    ((Mutation.tcp request).serve env (.plain false) (Db.init 1)).map Prod.snd =
        some (some request) ∧
      (Listener.apply env (.plain false) (Db.init 1) request).isNone := by
  decide

/-- A `Move` of a key whose expiration has one second left at the node, and less at the peer, leaves
a time stamp at the node only. -/
example :
    let env := Env.reliable fun _ => 10 ^ 18
    let env' := Env.reliable fun _ => 10 ^ 18 + 1
    let s := (Call.set ⟨[97], [1], { expirationInSeconds := 1 }⟩).next env (.plain false)
      (Db.init 1)
    let request : Request := ⟨.move, some [⟨some [97], some [98], some {}⟩]⟩
    (((Mutation.tcp request).serve env (.plain false) s).map fun r =>
        (r.2, (r.1.columns.get .expiration [47, 98]).isSome)) = some (some request, true) ∧
      ((Listener.apply env' (.plain false) s request).map fun t' =>
        (t'.columns.get .expiration [47, 98]).isSome) = some false := by
  decide

end ConfigDb
