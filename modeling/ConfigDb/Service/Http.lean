import ConfigDb.Service.Configuration
import ConfigDb.Service.Replication

/-!
# The HTTP service

The handlers of `src/service/http/server.cpp` answer a request at once, with one call to the storage
layer, but for a `PUT`: it has a body, which arrives in chunks, and the chunks of several streams
arrive in any order.  Each `PUT` collects its chunks in a buffer of its own, and makes its call when
its stream ends, which an empty chunk says.

Which of the handlers gets a request is for nghttp2 to decide, and so is what it sends to the
client: here are the responses that the handlers write.  The routing of nghttp2 and the text of a
JSON object are parameters.

## Main definitions

* `Http.get`, `Http.put`, `Http.remove`, `Http.list`, `Http.root` : the handlers.
* `Http.Service.step`, `Http.Service.run` : the service, one event at a time.
* `Http.Uploads`, `Http.Jobs` : which bodies have arrived, and what the service is asked for.
* `Http.Job.perform` : what is asked for, on the store itself.

## Main result

* `http_streams` : however the chunks of the streams arrive, the service does what it is asked for.
-/

namespace ConfigDb

namespace Http

/-! ### Requests and responses -/

/-- A request, before its body. -/
structure Head where
  /-- The method. -/
  method : Bytes
  /-- The path of the URI. -/
  path : Bytes
  /-- The headers. -/
  headers : List (Bytes × Bytes) := []
  deriving DecidableEq

/-- `req.header().find( name )`. -/
def Head.find (req : Head) (name : Bytes) : Option Bytes :=
  (req.headers.find? fun h => h.1 == name).map Prod.snd

/-- A response that a handler writes: the head, and then the body, with which it ends. -/
structure Written where
  /-- The status code. -/
  code : ℕ
  /-- The headers. -/
  headers : List (Bytes × Bytes) := []
  /-- The body. -/
  body : Bytes
  deriving DecidableEq

/-- The JSON objects of the responses. -/
inductive Json
  /-- A key and its value. -/
  | entry (key value : Bytes)
  /-- The names of children. -/
  | children (names : List Bytes)
  deriving DecidableEq

/-- The handlers of `endpoints::setup`. -/
inductive Handler
  /-- The handler of `/key/`. -/
  | key
  /-- The handler of `/list/`. -/
  | list
  /-- The handler of `/`. -/
  | root
  deriving DecidableEq

/-- What the libraries do. -/
structure Libraries where
  /-- The handler that nghttp2 gives a request to; `none` if it answers the request itself. -/
  route : Head → Option Handler
  /-- `boost::json::serialize`. -/
  serialize : Json → Bytes

/-- `endpoints::write`. -/
def write (code : ℕ) (json : Bytes) : Written where
  code := code
  headers := [(text "content-type", text "application/json; charset=utf-8"),
    (text "content-length", toString json.length)]
  body := json

/-- The body of a successful mutation, and also of one without a body. -/
def okText : Bytes := text "\x7b\"code\": 200, \"cause\": \"Ok\"\x7d"

/-- The body of a response to a request for a key that is missing. -/
def notFoundText : Bytes := text "\x7b\"code\": 404, \"cause\": \"Not found\"\x7d"

/-- The body of a response to a request whose method is not known. -/
def methodText : Bytes := text "\x7b\"code\": 405, \"cause\": \"Method not supported\"\x7d"

/-- The body of a response to a value that could not be saved. -/
def unableText : Bytes := text "\x7b\"code\": 412, \"cause\": \"Unable to save\"\x7d"

/-- The body of a response to a request for the status. -/
def statusText : Bytes := text "\x7b\"status\": \"ok\"\x7d"

/-- What comes of a request: the store afterwards, the responses, and the notification. -/
structure Served where
  /-- The store. -/
  store : Db
  /-- The responses that are written. -/
  written : List Written
  /-- The notification that is emitted. -/
  note : Option Request := none

/-! ### The handlers -/

section

variable (lib : Libraries) (peers : Bool) (env : Env) (cfg : Config) (s : Db)

/-- `endpoints::get`. -/
def get (req : Head) : Served :=
  let key := eraseFirst Endpoints.keyText req.path
  let c := Call.get key
  match c.answer env cfg s with
  | .value (some value) => ⟨c.next env cfg s, [write 200 (lib.serialize (.entry key value))], none⟩
  | _ => ⟨c.next env cfg s, [write 404 notFoundText], none⟩

/-- What `put` reads of a request. -/
def httpRequest (req : Head) (body : Bytes) : HttpRequest where
  path := req.path
  body := body
  ifNotExists := req.find (text "x-config-db-if-not-exists")
  ttl := req.find (text "x-config-db-ttl")
  cache := req.find (text "x-config-db-cache")

/-- The end of `endpoints::put`, when the body is there. -/
def put (req : Head) (body : Bytes) : Served :=
  if body.isEmpty then ⟨s, [write 400 okText], none⟩
  else
    let rd := Endpoints.requestData (httpRequest req body)
    let c := Call.set rd
    if c.answer env cfg s = .bool true then
      ⟨c.next env cfg s, [write 200 okText], if peers then some (Endpoints.builder rd) else none⟩
    else ⟨c.next env cfg s, [write 412 unableText], none⟩

/-- `endpoints::remove`. -/
def remove (req : Head) : Served :=
  let key := eraseFirst Endpoints.keyText req.path
  let c := Call.remove key
  if c.answer env cfg s = .bool true then
    ⟨c.next env cfg s, [write 200 okText], if peers then some (Endpoints.builderKey key) else none⟩
  else ⟨c.next env cfg s, [write 404 notFoundText], none⟩

/-- `endpoints::list`. -/
def list (req : Head) : Served :=
  let key := eraseFirst (text "/list") req.path
  let c := Call.list key
  match c.answer env cfg s with
  | .nodes (some names) => ⟨c.next env cfg s, [write 200 (lib.serialize (.children names))], none⟩
  | _ => ⟨c.next env cfg s, [write 404 notFoundText], none⟩

end

/-- What the handler of `/` writes; it goes on when it has responded to an unknown path. -/
def root (req : Head) : List Written :=
  (if req.path ≠ text "/" then [⟨404, [], notFoundText⟩] else []) ++
    if req.method = text "GET" then [⟨200, [], statusText⟩] else [⟨405, [], methodText⟩]

/-- The request is a `PUT` of a key. -/
def Head.isPut (lib : Libraries) (req : Head) : Bool :=
  lib.route req == some .key && req.method == text "PUT"

/-- The lambdas of `endpoints::setup`, but for a `PUT`. -/
def handle (lib : Libraries) (peers : Bool) (env : Env) (cfg : Config) (s : Db)
    (req : Head) : Served :=
  match lib.route req with
  | some .key =>
    -- a `PUT` is not responded to before its body is there
    if req.method = text "GET" then get lib env cfg s req
    else if req.method = text "DELETE" then remove peers env cfg s req
    else ⟨s, [⟨405, [], methodText⟩], none⟩
  | some .list =>
    if req.method = text "GET" then list lib env cfg s req
    else ⟨s, [⟨405, [], methodText⟩], none⟩
  | some .root => ⟨s, root req, none⟩
  | none => ⟨s, [], none⟩

/-! ### The service -/

/-- What happens on the streams. -/
inductive Event (ι : Type)
  /-- A request. -/
  | request (id : ι) (req : Head)
  /-- A chunk of the body; an empty one is the end of the stream. -/
  | data (id : ι) (chunk : Bytes)

/-- The service. -/
structure Service (ι : Type) where
  /-- The store. -/
  store : Db
  /-- The bodies that are being collected, with their requests. -/
  bodies : ι → Option (Head × Bytes) := fun _ => none
  /-- The responses, with their streams. -/
  written : List (ι × Written) := []
  /-- The notifications. -/
  notes : List Request := []

variable {ι : Type}

/-- A request has been served. -/
def Service.served (s : Service ι) (id : ι) (r : Served) : Service ι :=
  { s with
    store := r.store
    written := s.written ++ r.written.map fun w => (id, w)
    notes := s.notes ++ r.note.toList }

section

variable [DecidableEq ι] (lib : Libraries) (peers : Bool) (env : Env) (cfg : Config)

/-- One event. -/
def Service.step (s : Service ι) : Event ι → Service ι
  | .request id req =>
    if req.isPut lib then { s with bodies := Function.update s.bodies id (some (req, [])) }
    else s.served id (handle lib peers env cfg s.store req)
  | .data id chunk =>
    match s.bodies id with
    -- nobody has asked for the data of this stream
    | none => s
    | some (req, body) =>
      if chunk.isEmpty then s.served id (put peers env cfg s.store req body)
      else { s with bodies := Function.update s.bodies id (some (req, body ++ chunk)) }

/-- The service, from an event to the next one. -/
def Service.run (s : Service ι) (evs : List (Event ι)) : Service ι :=
  evs.foldl (Service.step lib peers env cfg) s

end

/-! ### What the service is asked for -/

/-- What an event adds to the body of a stream. -/
def Event.chunk [DecidableEq ι] (id : ι) : Event ι → Bytes
  | .data id' chunk => if id' = id then chunk else []
  | .request _ _ => []

/-- An event after which the body of a stream is another one. -/
def Event.Resets (lib : Libraries) (id : ι) : Event ι → Prop
  | .data _ _ => False
  | .request id' req => id' = id ∧ req.isPut lib

/-- A `PUT` has been received on the stream, and since then the chunks of this body. -/
def Uploads [DecidableEq ι] (lib : Libraries) (id : ι) (evs : List (Event ι)) (req : Head)
    (body : Bytes) : Prop :=
  ∃ before since, evs = before ++ .request id req :: since ∧ req.isPut lib ∧
    (∀ e ∈ since, ¬ e.Resets lib id) ∧ body = since.flatMap (Event.chunk id)

/-- What a client asks for. -/
inductive Job
  /-- A request other than a `PUT`. -/
  | request (req : Head)
  /-- A `PUT`, with its body. -/
  | put (req : Head) (body : Bytes)
  deriving DecidableEq

/-- What the clients ask for, with their streams: a `PUT` counts when its stream ends. -/
inductive Jobs [DecidableEq ι] (lib : Libraries) : List (Event ι) → List (ι × Job) → Prop
  | nil : Jobs lib [] []
  | request {evs js id req} (h : Jobs lib evs js) (hput : ¬ req.isPut lib) :
      Jobs lib (evs ++ [.request id req]) (js ++ [(id, .request req)])
  | begins {evs js id req} (h : Jobs lib evs js) (hput : req.isPut lib) :
      Jobs lib (evs ++ [.request id req]) js
  | chunk {evs js id chunk} (h : Jobs lib evs js) (hne : chunk ≠ []) :
      Jobs lib (evs ++ [.data id chunk]) js
  | ends {evs js id req body} (h : Jobs lib evs js) (hup : Uploads lib id evs req body) :
      Jobs lib (evs ++ [.data id []]) (js ++ [(id, .put req body)])
  | stray {evs js id} (h : Jobs lib evs js) (hup : ∀ req body, ¬ Uploads lib id evs req body) :
      Jobs lib (evs ++ [.data id []]) js

namespace Job

/-- The call to the storage layer that a job needs, if it needs one. -/
def call (lib : Libraries) : Job → Option Call
  | .put req body =>
    if body.isEmpty then none else some (.set (Endpoints.requestData (httpRequest req body)))
  | .request req =>
    match lib.route req with
    | some .key =>
      if req.method = text "GET" then some (.get (eraseFirst Endpoints.keyText req.path))
      else if req.method = text "DELETE" then
        some (.remove (eraseFirst Endpoints.keyText req.path))
      else none
    | some .list =>
      if req.method = text "GET" then some (.list (eraseFirst (text "/list") req.path)) else none
    | _ => none

/-- The responses to a job that needs no call. -/
def refused (lib : Libraries) : Job → List Written
  | .put _ _ => [write 400 okText]
  | .request req =>
    match lib.route req with
    | some .root => root req
    | some _ => [⟨405, [], methodText⟩]
    | none => []

/-- The response to a job whose call has this answer. -/
def reply (lib : Libraries) : Job → Answer → Written
  | .put _ _, answer => if answer = .bool true then write 200 okText else write 412 unableText
  | .request req, .value (some value) =>
    write 200 (lib.serialize (.entry (eraseFirst Endpoints.keyText req.path) value))
  | .request _, .nodes (some names) => write 200 (lib.serialize (.children names))
  | .request _, .bool true => write 200 okText
  | .request _, _ => write 404 notFoundText

/-- The notification of a job, if it is a mutation. -/
def note : Job → Option Request
  | .put req body => some (Endpoints.builder (Endpoints.requestData (httpRequest req body)))
  | .request req => some (Endpoints.builderKey (eraseFirst Endpoints.keyText req.path))

/-- A job on the store itself.  A notification is emitted if the service has peers and the store has
been changed. -/
def perform (lib : Libraries) (peers : Bool) (env : Env) (cfg : Config) (s : Db)
    (job : Job) : Served :=
  match job.call lib with
  | none => ⟨s, job.refused lib, none⟩
  | some c => ⟨c.next env cfg s, [job.reply lib (c.answer env cfg s)],
      if peers ∧ c.answer env cfg s = .bool true then job.note else none⟩

end Job

section

variable {lib : Libraries} {peers : Bool} {env : Env} {cfg : Config} {s : Db}

/-! ### The handlers do what they are asked for -/

theorem get_eq (req : Head) : get lib env cfg s req =
    let c := Call.get (eraseFirst Endpoints.keyText req.path)
    ⟨c.next env cfg s, [(Job.request req).reply lib (c.answer env cfg s)], none⟩ := by
  unfold get
  simp only [Call.answer, Call.prog, exec_map]
  cases (exec env (Database.get cfg (eraseFirst Endpoints.keyText req.path)) s).1 <;> rfl

theorem list_eq (req : Head) : list lib env cfg s req =
    let c := Call.list (eraseFirst (text "/list") req.path)
    ⟨c.next env cfg s, [(Job.request req).reply lib (c.answer env cfg s)], none⟩ := by
  unfold list
  simp only [Call.answer, Call.prog, exec_map]
  cases (exec env (Database.list cfg (eraseFirst (text "/list") req.path)) s).1 <;> rfl

theorem remove_eq (req : Head) : remove peers env cfg s req =
    let c := Call.remove (eraseFirst Endpoints.keyText req.path)
    ⟨c.next env cfg s, [(Job.request req).reply lib (c.answer env cfg s)],
      if peers ∧ c.answer env cfg s = .bool true then (Job.request req).note else none⟩ := by
  unfold remove
  simp only [Call.answer, Call.prog, exec_map]
  cases (exec env (Database.remove cfg (eraseFirst Endpoints.keyText req.path)) s).1 <;>
    cases peers <;> rfl

theorem put_eq (req : Head) (body : Bytes) :
    put peers env cfg s req body = (Job.put req body).perform lib peers env cfg s := by
  unfold put Job.perform Job.call
  by_cases hbody : body.isEmpty = true
  · simp only [hbody, if_true]
    rfl
  · simp only [if_neg hbody, Call.answer, Call.prog, exec_map]
    cases (exec env (Database.set cfg (Endpoints.requestData (httpRequest req body))) s).1 <;>
      cases peers <;> rfl

theorem perform_of_call {job : Job} {c : Call} (hcall : job.call lib = some c)
    (hans : c.answer env cfg s ≠ .bool true) : job.perform lib peers env cfg s =
      ⟨c.next env cfg s, [job.reply lib (c.answer env cfg s)], none⟩ := by
  simp only [Job.perform, hcall, hans, and_false, if_false]

theorem perform_of_none {job : Job} (hcall : job.call lib = none) :
    job.perform lib peers env cfg s = ⟨s, job.refused lib, none⟩ := by
  simp only [Job.perform, hcall]

/-- **A handler makes the call of its request**, and responds with the answer. -/
theorem handle_eq (req : Head) : handle lib peers env cfg s req =
    (Job.request req).perform lib peers env cfg s := by
  unfold handle
  cases hhandler : lib.route req with
  | none =>
    have hcall : (Job.request req).call lib = none := by simp only [Job.call, hhandler]
    simp only [perform_of_none hcall, Job.refused, hhandler]
  | some h =>
    cases h with
    | key =>
      by_cases hget : req.method = text "GET"
      · have hcall : (Job.request req).call lib =
            some (.get (eraseFirst Endpoints.keyText req.path)) := by
          simp only [Job.call, hhandler, if_pos hget]
        have hans : (Call.get (eraseFirst Endpoints.keyText req.path)).answer env cfg s ≠
            .bool true := by
          simp [Call.answer, Call.prog, exec_map]
        rw [perform_of_call hcall hans]
        simp only [if_pos hget, get_eq]
      · by_cases hdelete : req.method = text "DELETE"
        · have hcall : (Job.request req).call lib =
              some (.remove (eraseFirst Endpoints.keyText req.path)) := by
            simp only [Job.call, hhandler, if_neg hget, if_pos hdelete]
          simp only [if_neg hget, if_pos hdelete, Job.perform, hcall]
          exact remove_eq req
        · have hcall : (Job.request req).call lib = none := by
            simp only [Job.call, hhandler, if_neg hget, if_neg hdelete]
          simp only [perform_of_none hcall, if_neg hget, if_neg hdelete, Job.refused, hhandler]
    | list =>
      by_cases hget : req.method = text "GET"
      · have hcall : (Job.request req).call lib =
            some (.list (eraseFirst (text "/list") req.path)) := by
          simp only [Job.call, hhandler, if_pos hget]
        have hans : (Call.list (eraseFirst (text "/list") req.path)).answer env cfg s ≠
            .bool true := by
          simp [Call.answer, Call.prog, exec_map]
        rw [perform_of_call hcall hans]
        simp only [if_pos hget, list_eq]
      · have hcall : (Job.request req).call lib = none := by
          simp only [Job.call, hhandler, if_neg hget]
        simp only [perform_of_none hcall, if_neg hget, Job.refused, hhandler]
    | root =>
      have hcall : (Job.request req).call lib = none := by simp only [Job.call, hhandler]
      simp only [perform_of_none hcall, Job.refused, hhandler]

/-- A `PUT` at a service with peers is the mutation that its peers are told of. -/
theorem serve_httpPut (req : Head) (body : Bytes) :
    (.httpPut (httpRequest req body) : Mutation).serve env cfg s =
      some ((put true env cfg s req body).store, (put true env cfg s req body).note) := by
  simp only [Mutation.serve, Endpoints.put, put, emitted]
  have hbody : (httpRequest req body).body = body := rfl
  rw [hbody]
  split_ifs <;> rfl

/-- A `DELETE` at a service with peers is the mutation that its peers are told of. -/
theorem serve_httpDelete (req : Head) : (.httpDelete req.path : Mutation).serve env cfg s =
    some ((remove true env cfg s req).store, (remove true env cfg s req).note) := by
  unfold Mutation.serve Endpoints.remove remove emitted Endpoints.key
  by_cases hans : (Call.remove (eraseFirst Endpoints.keyText req.path)).answer env cfg s =
      .bool true
  · rw [if_pos hans]
    dsimp only
    rw [if_pos hans]
    rfl
  · rw [if_neg hans]
    dsimp only
    rw [if_neg hans]

/-! ### The streams -/

variable [DecidableEq ι] {id : ι} {req : Head} {body : Bytes} {evs : List (Event ι)}
  {t : Service ι} {e : Event ι}

theorem run_concat (t : Service ι) (evs : List (Event ι)) (e : Event ι) :
    t.run lib peers env cfg (evs ++ [e]) =
      (t.run lib peers env cfg evs).step lib peers env cfg e := by
  rw [Service.run, List.foldl_append]
  rfl

theorem uploads_concat : Uploads lib id (evs ++ [e]) req body ↔
    (e = .request id req ∧ req.isPut lib ∧ body = []) ∨
      (¬ e.Resets lib id ∧ ∃ b, Uploads lib id evs req b ∧ body = b ++ e.chunk id) := by
  constructor
  · rintro ⟨before, since, hevs, hput, hsince, rfl⟩
    rcases List.eq_nil_or_concat since with rfl | ⟨since, e', rfl⟩
    · -- the request is the last event
      obtain ⟨-, he⟩ := List.append_inj' hevs rfl
      exact .inl ⟨List.singleton_inj.1 he, hput, rfl⟩
    · rw [List.concat_eq_append, ← List.cons_append, ← List.append_assoc] at hevs
      obtain ⟨hpre, he⟩ := List.append_inj' hevs rfl
      obtain rfl := List.singleton_inj.1 he
      rw [List.concat_eq_append] at hsince ⊢
      refine .inr ⟨hsince e (by simp), since.flatMap (Event.chunk id), ?_, by simp⟩
      exact ⟨before, since, hpre, hput, fun e' he' => hsince e' (by simp [he']), rfl⟩
  · rintro (⟨rfl, hput, rfl⟩ | ⟨hresets, b, ⟨before, since, rfl, hput, hsince, rfl⟩, rfl⟩)
    · exact ⟨evs, [], rfl, hput, by simp, rfl⟩
    · refine ⟨before, since ++ [e], by simp, hput, ?_, by simp⟩
      intro e' he'
      rcases List.mem_append.1 he' with he' | he'
      · exact hsince e' he'
      · rwa [List.mem_singleton.1 he']

theorem step_bodies (t : Service ι) (e : Event ι) (id : ι) :
    (t.step lib peers env cfg e).bodies id = match e with
      | .request id' req => if id = id' ∧ req.isPut lib then some (req, []) else t.bodies id
      | .data id' chunk =>
        if id = id' then (t.bodies id).map fun p => (p.1, p.2 ++ chunk) else t.bodies id := by
  cases e with
  | request id' req =>
    unfold Service.step
    by_cases hput : req.isPut lib = true
    · by_cases hid : id = id'
      · subst hid
        simp [hput]
      · simp [hput, hid]
    · simp only [hput, and_false, Bool.false_eq_true, if_false]
      rfl
  | data id' chunk =>
    unfold Service.step
    by_cases hid : id = id'
    · subst hid
      cases hbody : t.bodies id with
      | none => simp [hbody]
      | some p =>
        by_cases hchunk : chunk = []
        · simp [hbody, hchunk, Service.served]
        · simp [hbody, hchunk]
    · cases hbody : t.bodies id' with
      | none => simp [hbody, hid]
      | some p =>
        by_cases hchunk : chunk = []
        · simp [hbody, hchunk, hid, Service.served]
        · simp [hbody, hchunk, hid]

/-- **The buffers of the service** are the bodies that have arrived, stream by stream. -/
theorem bodies_iff (evs : List (Event ι)) (id : ι) (req : Head) (body : Bytes) :
    (Service.run lib peers env cfg { store := s } evs).bodies id = some (req, body) ↔
      Uploads lib id evs req body := by
  induction evs using List.reverseRecOn generalizing req body with
  | nil =>
    constructor
    · intro h
      cases h
    · rintro ⟨before, since, hevs, -⟩
      simp at hevs
  | append_singleton evs e ih =>
    rw [uploads_concat, run_concat, step_bodies]
    cases e with
    | request id' req' =>
      by_cases hid : id = id'
      · subst hid
        by_cases hput : req'.isPut lib = true
        · -- a new upload takes the place of the one before
          have hreq : req' = req → body = [] → req.isPut lib = true := fun h _ => h ▸ hput
          simpa [hput, Event.Resets] using hreq
        · have hreq : req' = req → req.isPut lib = true → body = [] → Uploads lib id evs req body :=
            fun h h' => absurd (h ▸ h') hput
          simpa [hput, Event.Resets, Event.chunk, ih] using hreq
      · have hne : ¬ id' = id := fun h => hid h.symm
        simp [hid, hne, Event.Resets, Event.chunk, ih]
    | data id' chunk =>
      by_cases hid : id = id'
      · subst hid
        have hflip (b : Bytes) : b ++ chunk = body ↔ body = b ++ chunk := eq_comm
        simp [Event.Resets, Event.chunk, ← ih, hflip]
      · have hne : ¬ id' = id := fun h => hid h.symm
        simp [hid, hne, Event.Resets, Event.chunk, ih]

/-- Jobs on the store itself, one after the other: their responses and notifications. -/
def Jobs.serve (lib : Libraries) (peers : Bool) (env : Env) (cfg : Config)
    (t : Service ι) (js : List (ι × Job)) : Service ι :=
  js.foldl (fun t j => t.served j.1 (j.2.perform lib peers env cfg t.store)) t

omit [DecidableEq ι] in
theorem serve_concat (t : Service ι) (js : List (ι × Job)) (j : ι × Job) :
    Jobs.serve lib peers env cfg t (js ++ [j]) =
      (Jobs.serve lib peers env cfg t js).served j.1
        (j.2.perform lib peers env cfg (Jobs.serve lib peers env cfg t js).store) := by
  rw [Jobs.serve, List.foldl_append]
  rfl

/-- The service without its buffers. -/
def Service.settled (t : Service ι) : Service ι := { t with bodies := fun _ => none }

omit [DecidableEq ι] in
theorem settled_served (t : Service ι) (id : ι) (r : Served) :
    (t.served id r).settled = t.settled.served id r := rfl

/-- The event asks for nothing. -/
def Service.Quiet (lib : Libraries) (t : Service ι) : Event ι → Prop
  | .request _ req => req.isPut lib
  | .data id chunk => t.bodies id = none ∨ chunk ≠ []

theorem settled_step_quiet (h : t.Quiet lib e) : (t.step lib peers env cfg e).settled =
    t.settled := by
  cases e with
  | request id req =>
    have hput : req.isPut lib = true := h
    rw [Service.step, if_pos hput]
    rfl
  | data id chunk =>
    unfold Service.step
    cases hbody : t.bodies id with
    | none => simp only [hbody]
    | some p =>
      have hchunk : ¬ chunk.isEmpty = true := by
        rcases h with h | h
        · rw [hbody] at h
          cases h
        · simpa using h
      simp only [hbody, if_neg hchunk]
      rfl

/-- **The service does what it is asked for**, in the order in which it is. -/
theorem run_of_jobs {js : List (ι × Job)} (h : Jobs lib evs js) (s : Db) :
    (Service.run lib peers env cfg { store := s } evs).settled =
      Jobs.serve lib peers env cfg { store := s } js := by
  induction h with
  | nil => rfl
  | @request evs js id req _ hput ih =>
    have hstep : (Service.run lib peers env cfg { store := s } evs).step lib peers env
        cfg (.request id req) = (Service.run lib peers env cfg { store := s } evs).served id
          (handle lib peers env cfg
            (Service.run lib peers env cfg { store := s } evs).store req) := if_neg hput
    rw [run_concat, hstep, serve_concat, settled_served, ih, handle_eq, ← ih]
    rfl
  | @begins evs js id req _ hput ih =>
    have hquiet : (Service.run lib peers env cfg { store := s } evs).Quiet lib
        (.request id req) := hput
    rw [run_concat, settled_step_quiet hquiet, ih]
  | @chunk evs js id chunk _ hne ih =>
    have hquiet : (Service.run lib peers env cfg { store := s } evs).Quiet lib
        (.data id chunk) := .inr hne
    rw [run_concat, settled_step_quiet hquiet, ih]
  | @ends evs js id req body _ hup ih =>
    -- what has been collected is what the stream has uploaded
    have hbody : (Service.run lib peers env cfg { store := s } evs).bodies id =
        some (req, body) := (bodies_iff evs id req body).2 hup
    have hstep : ((Service.run lib peers env cfg { store := s } evs).step lib peers env
        cfg (.data id [])).settled =
          (Service.run lib peers env cfg { store := s } evs).settled.served id
            (put peers env cfg (Service.run lib peers env cfg { store := s } evs).store req
              body) := by
      simp only [Service.step, hbody]
      rfl
    rw [run_concat, hstep, serve_concat, put_eq, ih, ← ih]
    rfl
  | @stray evs js id _ hup ih =>
    have hbody : (Service.run lib peers env cfg { store := s } evs).bodies id = none := by
      cases hsome : (Service.run lib peers env cfg { store := s } evs).bodies id with
      | none => rfl
      | some p => exact absurd ((bodies_iff evs id p.1 p.2).1 hsome) (hup p.1 p.2)
    have hquiet : (Service.run lib peers env cfg { store := s } evs).Quiet lib
        (.data id []) :=
      .inl hbody
    rw [run_concat, settled_step_quiet hquiet, ih]

theorem exists_jobs (evs : List (Event ι)) : ∃ js, Jobs lib evs js := by
  induction evs using List.reverseRecOn with
  | nil => exact ⟨[], .nil⟩
  | append_singleton evs e ih =>
    obtain ⟨js, hjs⟩ := ih
    cases e with
    | request id req =>
      by_cases hput : req.isPut lib = true
      · exact ⟨js, .begins hjs hput⟩
      · exact ⟨_, .request hjs hput⟩
    | data id chunk =>
      by_cases hchunk : chunk = []
      · subst hchunk
        by_cases hup : ∃ req body, Uploads lib id evs req body
        · obtain ⟨req, body, hup⟩ := hup
          exact ⟨_, .ends hjs hup⟩
        · exact ⟨js, .stray hjs fun req body h => hup ⟨req, body, h⟩⟩
      · exact ⟨js, .chunk hjs hchunk⟩

end

end Http

open Http

/-- **However the chunks of the streams arrive, the service does what it is asked for.**  The
requests and the chunks of the bodies of any number of streams arrive in any order, cut in any way.
The store, the responses with their streams and the notifications are those of the jobs, done one
after the other on the store itself: a request other than a `PUT` is a job when it arrives, and a
`PUT` is one when its stream ends, with the chunks of this stream as its body.  This holds whatever
handler nghttp2 gives a request to. -/
theorem http_streams {ι : Type} [DecidableEq ι] (lib : Libraries) (peers : Bool)
    (env : Env) (cfg : Config) (s : Db) (evs : List (Event ι)) :
    (∃ js, Jobs lib evs js) ∧ ∀ js, Jobs lib evs js →
      let t := Service.run lib peers env cfg { store := s } evs
      let t' := Jobs.serve lib peers env cfg { store := s } js
      t.store = t'.store ∧ t.written = t'.written ∧ t.notes = t'.notes := by
  refine ⟨exists_jobs evs, fun js hjs => ?_⟩
  have hrun : (Service.run lib peers env cfg { store := s } evs).settled =
      Jobs.serve lib peers env cfg { store := s } js := run_of_jobs hjs s
  have hstore := congrArg Service.store hrun
  have hwritten := congrArg Service.written hrun
  have hnotes := congrArg Service.notes hrun
  exact ⟨hstore, hwritten, hnotes⟩

end ConfigDb
