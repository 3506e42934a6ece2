import ConfigDb.Api.Operations
import ConfigDb.Storage.CipherFailure

/-!
# An operation over the network

An operation of the client, from the connection that the pool hands out to the server and back, over
a network that is benign: a message has arrived in full before its reader starts, so every read
returns as many bytes as its buffer takes.

The two directions have limits of their own.  The server reads a request to its end if its frame has
less than 8 MiB; the client cuts a response off at 4 MiB.

## Main definitions

* `fullReads` : the reads of bytes that have arrived in full.
* `Server.answers` : what the server writes for what a connection has read.
* `Api.Operation.remote` : an operation over the network.
* `Api.Flatbuffers.Carries` : flatbuffers carries the messages about a key and its value.

## Main results

* `Connection.run_fullReads` : the server hands a request that it reads to its end to verification.
* `Api.Operation.run_arrived` : what an operation makes of a response that has arrived.
* `set_get_iff` : when a value that was set is read.
* `large_value_not_read` : a value of 5 MiB.
-/

namespace ConfigDb

open Std Database

/-! ### Full reads -/

/-- The reads of some bytes that have arrived in full, by a reader whose buffer takes `n` bytes. -/
def fullReads (n : ℕ) (bytes : Bytes) : List Bytes :=
  if _h : bytes = [] ∨ n = 0 then []
  else bytes.take n :: fullReads n (bytes.drop n)
termination_by bytes.length
decreasing_by
  rw [not_or] at _h
  rw [List.length_drop]
  have := List.length_pos_of_ne_nil _h.1
  omega

section

variable {n : ℕ} {bytes : Bytes}

theorem fullReads_of_ne_nil (hn : 0 < n) (h : bytes ≠ []) :
    fullReads n bytes = bytes.take n :: fullReads n (bytes.drop n) := by
  rw [fullReads, dif_neg]
  rintro (rfl | rfl)
  · exact h rfl
  · exact absurd hn (lt_irrefl 0)

@[simp] theorem fullReads_nil (n : ℕ) : fullReads n [] = [] := by
  rw [fullReads, dif_pos (.inl rfl)]

theorem flatten_fullReads (hn : 0 < n) (bytes : Bytes) : (fullReads n bytes).flatten = bytes := by
  fun_induction fullReads n bytes with
  | case1 bytes h =>
    rcases h with rfl | rfl
    · rfl
    · exact absurd hn (lt_irrefl 0)
  | case2 bytes h ih => rw [List.flatten_cons, ih, List.take_append_drop]

theorem length_pos_of_mem_fullReads {data : Bytes} (h : data ∈ fullReads n bytes) :
    0 < data.length := by
  fun_induction fullReads n bytes with
  | case1 bytes hend => cases h
  | case2 bytes hend ih =>
    rw [not_or] at hend
    rcases List.mem_cons.1 h with rfl | h
    · rw [List.length_take]
      have := List.length_pos_of_ne_nil hend.1
      omega
    · exact ih h

end

/-! ### The server -/

theorem length_frame (payload : Bytes) : (frame payload).length = payload.length + 4 := by
  rw [frame, List.length_append, length_u32Bytes, Nat.add_comm]

theorem drop_frame (payload rest : Bytes) : (frame payload ++ rest).drop 4 = payload ++ rest := by
  rw [frame, List.append_assoc, List.drop_left' (length_u32Bytes _)]

namespace Connection

/-- The loop ends with the reads that end with the request, and nothing is echoed. -/
theorem run_filling_served (docSize read : ℕ) (rbuf : Bytes) (hmax : docSize < maxBytes)
    {fs : List Bytes} (hfs : fs ≠ []) (hne : ∀ f ∈ fs, 0 < f.length)
    (hsum : read + fs.flatten.length = docSize) :
    (run (.filling docSize read rbuf) fs).2 = [.verify (rbuf ++ fs.flatten)] := by
  induction fs generalizing read rbuf with
  | nil => exact absurd rfl hfs
  | cons f fs ih =>
    rw [List.forall_mem_cons] at hne
    rw [List.flatten_cons, List.length_append, ← Nat.add_assoc] at hsum
    cases fs with
    | nil =>
      have hend : read + f.length = docSize := by simpa using hsum
      simp [run, step, loop, hend]
    | cons f' fs' =>
      -- another read is to come, and it is not empty
      have hpos : 0 < f'.length := hne.2 f' List.mem_cons_self
      have hend : read + f.length ≠ docSize := by
        rw [List.flatten_cons, List.length_append] at hsum
        omega
      have hstep : step (.filling docSize read rbuf) f =
          (.filling docSize (read + f.length) (rbuf ++ f), []) := by
        simp [step, loop, hend, hmax]
      have hrun := ih (read + f.length) (rbuf ++ f) (by simp) hne.2 hsum
      simp [run, hstep] at hrun ⊢
      exact hrun

variable {payload : Bytes}

theorem documentSize_take_frame (hp : 0 < payload.length) (hsize : payload.length < 2 ^ 32) :
    documentSize ((frame payload).take bufSize) = payload.length + 4 := by
  have h₅ : 5 ≤ ((frame payload).take bufSize).length := by
    rw [List.length_take, length_frame, bufSize]
    omega
  rw [documentSize_of_le h₅, u32OfBytes_take (by decide), frame, u32OfBytes_u32Bytes hsize]

/-- **A request that is read to its end** is handed to verification, and nothing else is. -/
theorem run_fullReads (hp : 0 < payload.length) (hmax : payload.length + 4 < maxBytes) :
    (run .idle (fullReads bufSize (frame payload))).2 = [.verify payload] := by
  have hdoc := documentSize_take_frame hp (by unfold maxBytes at hmax; omega)
  have hne : frame payload ≠ [] := by simp [frame, u32Bytes]
  have hpos : 0 < bufSize := by decide
  have hlen := length_frame payload
  have hdrop : (frame payload).drop 4 = payload := by simpa using drop_frame payload []
  rw [fullReads_of_ne_nil hpos hne]
  by_cases hbuf : payload.length + 4 ≤ bufSize
  · have htake : (frame payload).take bufSize = frame payload :=
      List.take_of_length_le (by omega)
    have hrest : (frame payload).drop bufSize = [] := List.drop_eq_nil_of_le (by omega)
    rw [htake] at hdoc ⊢
    rw [hrest, fullReads_nil]
    simp only [run]
    rw [step_idle_once (by omega) (.inl (by omega)), hdrop]
    rfl
  · have htake : ((frame payload).take bufSize).length = bufSize := by
      rw [List.length_take]
      omega
    have hflat := flatten_fullReads hpos ((frame payload).drop bufSize)
    have hfs : fullReads bufSize ((frame payload).drop bufSize) ≠ [] := by
      intro h
      rw [h, List.flatten_nil] at hflat
      have := List.drop_eq_nil_iff.1 hflat.symm
      omega
    have hrun := run_filling_served (payload.length + 4) bufSize
      (((frame payload).take bufSize).drop 4) hmax hfs
      (fun f hf => length_pos_of_mem_fullReads hf) (by rw [hflat, List.length_drop]; omega)
    have hbytes : ((frame payload).take bufSize).drop 4 ++ (frame payload).drop bufSize =
        payload := by
      rw [← List.drop_append_of_le_length (by rw [htake]; decide), List.take_append_drop, hdrop]
    simp only [run]
    rw [step_idle_long (by omega) (by omega) htake.le, htake, hdoc]
    rw [hflat, hbytes] at hrun
    exact hrun

theorem run_fullReads_long (hmax : maxBytes ≤ payload.length + 4)
    (hsize : payload.length < 2 ^ 32) :
    ∃ rest, (run .idle (fullReads bufSize (frame payload))).2 =
      .verify (payload.take (bufSize - 4)) :: rest := by
  have hp : 0 < payload.length := by unfold maxBytes at hmax; omega
  have hdoc := documentSize_take_frame hp hsize
  have hne : frame payload ≠ [] := by simp [frame, u32Bytes]
  have hdrop : ((frame payload).take bufSize).drop 4 = payload.take (bufSize - 4) := by
    rw [List.drop_take]
    simpa using congrArg (List.take (bufSize - 4)) (drop_frame payload [])
  refine ⟨(run .idle (fullReads bufSize ((frame payload).drop bufSize))).2, ?_⟩
  rw [fullReads_of_ne_nil (by decide) hne]
  simp only [run]
  rw [step_idle_once (by omega) (.inr (by omega)), hdrop]
  rfl

end Connection

open Api

/-! ### Messages -/

/-- The code of an action. -/
def RequestAction.code : RequestAction → UInt8
  | .get => 0
  | .put => 1
  | .delete => 2
  | .list => 3
  | .move => 4
  | .ttl => 5

@[simp] theorem RequestAction.ofCode_code (action : RequestAction) :
    RequestAction.ofCode action.code = some action := by
  cases action <;> rfl

/-- The table of a request. -/
def Request.table (request : Request) : RequestTable := ⟨request.action.code, request.data⟩

/-- The union of a result. -/
def ValueVariant.table : ValueVariant → ValueUnion
  | .value v => .value (some ⟨some v⟩)
  | .children l => .children (some ⟨some l⟩)
  | .success b => .success (some ⟨b⟩)

/-- The table of a result. -/
def KeyValueResult.table (r : KeyValueResult) : KeyValueResultTable := ⟨some r.key, r.value.table⟩

/-- The table of a response. -/
def Response.table : Response → ResponseTable
  | .keyValueResults value => .keyValueResults (some ⟨some (value.map KeyValueResult.table)⟩)
  | .success b => .success (some ⟨b⟩)

/-- The response to a `get` of a key that has a value. -/
def valueResponse (key v : Bytes) : Response := .keyValueResults [⟨getKey key, .value v⟩]

/-! ### The answers of the server -/

/-- The limit for the size of a buffer, which flatbuffers asserts. -/
def maxBufferSize : ℕ := 2 ^ 31 - 1

namespace Server

variable (fb : Flatbuffers) (env : Env) (cfg : Config)

/-- A response as it is written, unless the assertion about its buffer fails. -/
def written (response : Response) : Option Bytes :=
  if (fb.encodeResponse response).length < maxBufferSize then
    some (frame (fb.encodeResponse response))
  else none

/-- What is done with what a connection has read: the store afterwards, and what is written to the
client until the server crashes, if it does. -/
def answers : Db → List Served → Db × Bytes
  | s, [] => (s, [])
  | s, .echo bytes :: rest => ((answers s rest).1, bytes ++ (answers s rest).2)
  | s, .verify rbuf :: rest =>
    match fb.decodeRequest rbuf with
    | none => ((answers s rest).1, frame rbuf ++ (answers s rest).2)
    | some request =>
      match processTable env cfg s request with
      | none => (s, [])
      | some r =>
        match r.2.mapM (written fb) with
        | none => (r.1, [])
        | some frames => ((answers r.1 rest).1, frames.flatten ++ (answers r.1 rest).2)

variable {fb env cfg} {s s' : Db} {rbuf : Bytes}

theorem answers_rejected (env : Env) (cfg : Config) (s : Db) (h : fb.decodeRequest rbuf = none)
    (rest : List Served) :
    ∃ s' more, answers fb env cfg s (.verify rbuf :: rest) = (s', frame rbuf ++ more) := by
  rw [answers, h]
  exact ⟨_, _, rfl⟩

/-- The only request on a connection is answered by its response, if that can be built. -/
theorem answers_single {request : RequestTable} {response : Response}
    (h : fb.decodeRequest rbuf = some request)
    (hprocess : processTable env cfg s request = some (s', [response])) :
    answers fb env cfg s [.verify rbuf] = (s', ((written fb response).getD [])) := by
  rw [answers, h]
  simp only [hprocess, List.mapM_cons, List.mapM_nil]
  cases written fb response <;> simp [answers]

end Server


/-! ### The operations -/

namespace Api

/-- The type of the union in a response is the code `c`. -/
def ResponseTable.HasType (c : UInt8) : ResponseTable → Prop
  | .keyValueResults _ => c = 1
  | .success _ => c = 2
  | .other => True

/-- A call in which the answer has arrived in full before it is read. -/
def arrived (answer : Bytes) : Exchange where
  request := []
  answer := answer
  reads := (fullReads readSize answer).map .data

/-- An operation on a connection that is open, valid and empty, over a benign network: the store
afterwards, and how the operation ends.  If the assertion about the buffer of the request fails,
then the client crashes. -/
def Operation.remote (fb : Flatbuffers) (logged : Bool) (env : Env) (cfg : Config) (op : Operation)
    (s : Db) : Db × End :=
  match op.request with
  | none => (s, op.run fb logged (some {}) (arrived []))
  | some request =>
    if (fb.encodeRequest request).length < maxBufferSize then
      let reads := fullReads bufSize (frame (fb.encodeRequest request))
      let answer := Server.answers fb env cfg s (ConfigDb.Connection.run .idle reads).2
      (answer.1, op.run fb logged (some {}) (arrived answer.2))
    else (s, .crashes)

/-- What flatbuffers does with a request whose buffer can be built.  The buffer is a request, and if
four bytes or more are missing at its end, it is none: they are part of a string, a vector or a
table.  Read as a response, it has a union whose type is the action, since both are the first field
of a table. -/
structure Flatbuffers.CarriesRequest (fb : Flatbuffers) (request : Request) : Prop where
  size : 0 < (fb.encodeRequest request).length
  whole : fb.decodeRequest (fb.encodeRequest request) = some request.table
  cut : ∀ n, n + 4 ≤ (fb.encodeRequest request).length →
    fb.decodeRequest ((fb.encodeRequest request).take n) = none
  typed : ∀ n, ∀ t ∈ fb.decodeResponse ((fb.encodeRequest request).take n),
    t.HasType request.action.code

/-- What flatbuffers does with a response whose buffer can be built; the sizes of buffers are
multiples of four. -/
structure Flatbuffers.CarriesResponse (fb : Flatbuffers) (response : Response) : Prop where
  size : 0 < (fb.encodeResponse response).length
  aligned : 4 ∣ (fb.encodeResponse response).length
  whole : fb.decodeResponse (fb.encodeResponse response) = some response.table
  cut : ∀ n, n + 4 ≤ (fb.encodeResponse response).length →
    fb.decodeResponse ((fb.encodeResponse response).take n) = none

/-- What flatbuffers does with the messages of a `set` and a `get` of a key, if their buffers can be
built. -/
structure Flatbuffers.Carries (fb : Flatbuffers) (key v : Bytes) : Prop where
  set : (fb.encodeRequest (BaseConnection.set ⟨key, v, {}⟩)).length < maxBufferSize →
    fb.CarriesRequest (BaseConnection.set ⟨key, v, {}⟩)
  value : v.length ≤ (fb.encodeRequest (BaseConnection.set ⟨key, v, {}⟩)).length
  get : (fb.encodeRequest (keysRequest .get [key])).length < maxBufferSize →
    fb.CarriesRequest (keysRequest .get [key])
  success : ∀ b, (fb.encodeResponse (.success b)).length < maxBufferSize →
    fb.CarriesResponse (.success b)
  response : (fb.encodeResponse (valueResponse key v)).length < maxBufferSize →
    fb.CarriesResponse (valueResponse key v)

section

variable {fb : Flatbuffers} {logged : Bool} {op : Operation} {request : Request}

theorem delivered_map_data (reads : List Bytes) : delivered (reads.map .data) = reads.flatten := by
  induction reads with
  | nil => rfl
  | cons bytes reads ih => rw [List.map_cons, delivered_data, ih, List.flatten_cons]

theorem delivered_arrived (answer : Bytes) : delivered (arrived answer).reads = answer := by
  rw [arrived, delivered_map_data, flatten_fullReads (by decide)]

/-- **What an operation makes of a response that has arrived**, whatever comes after it: it reads
the bytes of the response up to the limit. -/
theorem Operation.run_arrived (fb : Flatbuffers) (logged : Bool) (hreq : op.request = some request)
    {buffer : Bytes} (hp : 0 < buffer.length) (hsize : buffer.length < maxBufferSize) (more : Bytes)
    (a : Answer) :
    op.run fb logged (some {}) (arrived (frame buffer ++ more)) = .returns a ↔
      op.interpret (fb.decodeResponse (buffer.take maxMessageSize)) = some a := by
  have hr : Read.error ∉ (arrived (frame buffer ++ more)).reads := by
    simp [arrived]
  rw [op.run_eq_returns hreq rfl hr]
  have hu : ¬ Unusable {} true := by simp [Unusable]
  have hne : frame buffer ++ more ≠ [] := by simp [frame, u32Bytes]
  have hdelivered := delivered_arrived (frame buffer ++ more)
  have hlen : u32OfBytes (delivered (arrived (frame buffer ++ more)).reads) = buffer.length := by
    rw [hdelivered, frame, List.append_assoc, u32OfBytes_u32Bytes]
    unfold maxBufferSize at hsize
    omega
  have hbody : body (arrived (frame buffer ++ more)).reads = buffer.take maxMessageSize := by
    rw [body, hlen, hdelivered, drop_frame, List.take_append_of_le_length (Nat.min_le_left _ _),
      Nat.min_comm, ← List.take_take, List.take_length]
  have hreads : (arrived (frame buffer ++ more)).reads =
      .data ((frame buffer ++ more).take readSize) ::
        (fullReads readSize ((frame buffer ++ more).drop readSize)).map .data := by
    rw [arrived, fullReads_of_ne_nil (by decide) hne, List.map_cons]
  have h₅ : 5 ≤ ((frame buffer ++ more).take readSize).length := by
    rw [List.length_take, List.length_append, length_frame, readSize]
    omega
  constructor
  · rintro ⟨response, h, ha⟩
    cases h with
    | unusable h => exact absurd h hu
    | short h hr' hlt =>
      obtain ⟨hd, -⟩ := List.cons.inj (hreads.symm.trans hr')
      obtain rfl := Read.data.inj hd
      omega
    | whole h hr' hge hlog hall => rwa [hbody] at ha
  · intro ha
    refine ⟨_, .whole hu hreads h₅ ?_ ?_, by rwa [hbody]⟩
    · rw [hlen]
      rintro ⟨-, hlong⟩
      unfold maxBufferSize at hsize
      omega
    · rw [hlen, hdelivered, List.length_append, length_frame]
      omega

theorem Operation.run_arrived_nil (hreq : op.request = some request) (a : Answer) :
    op.run fb logged (some {}) (arrived []) ≠ .returns a := by
  have hr : Read.error ∉ (arrived []).reads := by simp [arrived]
  rw [ne_eq, op.run_eq_returns hreq rfl hr]
  rintro ⟨response, h, -⟩
  cases h with
  | unusable h => simp [Unusable] at h
  | short h hr' hlt => simp [arrived] at hr'
  | whole h hr' hge hlog hall => simp [arrived] at hr'

variable {env : Env} {cfg : Config} {s s' : Db}

theorem Operation.remote_of_lt (hreq : op.request = some request)
    (hfb : fb.CarriesRequest request) (hmax : (fb.encodeRequest request).length + 4 < maxBytes)
    {response : Response}
    (hprocess : Server.processTable env cfg s request.table = some (s', [response])) :
    op.remote fb logged env cfg s =
      (s', op.run fb logged (some {}) (arrived ((Server.written fb response).getD []))) := by
  have hsize : (fb.encodeRequest request).length < maxBufferSize := by
    unfold maxBytes at hmax
    unfold maxBufferSize
    omega
  simp only [Operation.remote, hreq, if_pos hsize,
    ConfigDb.Connection.run_fullReads hfb.size hmax, Server.answers_single hfb.whole hprocess]

/-- An operation whose request is too long hears what the server has read of it. -/
theorem Operation.remote_of_le (hreq : op.request = some request)
    (hfb : fb.CarriesRequest request) (hmax : maxBytes ≤ (fb.encodeRequest request).length + 4)
    (hsize : (fb.encodeRequest request).length < maxBufferSize) (a : Answer) :
    (op.remote fb logged env cfg s).2 = .returns a ↔
      op.interpret (fb.decodeResponse ((fb.encodeRequest request).take (bufSize - 4))) =
        some a := by
  have hlong : bufSize ≤ (fb.encodeRequest request).length := by
    unfold maxBytes at hmax
    unfold bufSize
    omega
  obtain ⟨rest, hrest⟩ := ConfigDb.Connection.run_fullReads_long hmax
    (by unfold maxBufferSize at hsize; omega)
  obtain ⟨s', more, hanswer⟩ := Server.answers_rejected env cfg s
    (hfb.cut (bufSize - 4) (by unfold bufSize at hlong ⊢; omega)) rest
  have hlen : ((fb.encodeRequest request).take (bufSize - 4)).length = bufSize - 4 := by
    rw [List.length_take]
    omega
  simp only [Operation.remote, hreq, if_pos hsize, hrest, hanswer]
  rw [Operation.run_arrived fb logged hreq (by rw [hlen]; decide) (by rw [hlen]; decide),
    List.take_take]
  exact Iff.rfl

/-- What an operation makes of a response: nothing if it is longer than the limit. -/
theorem Operation.run_written (hreq : op.request = some request) {response : Response}
    (hfb : (fb.encodeResponse response).length < maxBufferSize → fb.CarriesResponse response)
    (a : Answer) :
    op.run fb logged (some {}) (arrived ((Server.written fb response).getD [])) = .returns a ↔
      (fb.encodeResponse response).length < maxBufferSize ∧
        op.interpret (if (fb.encodeResponse response).length ≤ maxMessageSize then
          some response.table else none) = some a := by
  by_cases hsize : (fb.encodeResponse response).length < maxBufferSize
  · have hc := hfb hsize
    have hrun := Operation.run_arrived fb logged hreq hc.size hsize [] a
    rw [List.append_nil] at hrun
    rw [Server.written, if_pos hsize, Option.getD_some, hrun, and_iff_right hsize]
    split_ifs with hle
    · rw [List.take_of_length_le hle, hc.whole]
    · -- what is cut off is no response
      obtain ⟨k, hk⟩ := hc.aligned
      rw [hc.cut maxMessageSize (by unfold maxMessageSize at hle ⊢; omega)]
  · rw [Server.written, if_neg hsize, Option.getD_none]
    exact iff_of_false (Operation.run_arrived_nil hreq a) fun h => hsize h.1

/-! ### Setting and getting -/

variable {key v : Bytes}

theorem processTable_set (env : Env) (cfg : Config) (s : Db) (key v : Bytes) :
    ∃ b, (Call.setBatch [⟨key, v, {}⟩]).answer env cfg s = .bool b ∧
      Server.processTable env cfg s (BaseConnection.set ⟨key, v, {}⟩).table =
        some ((Call.setBatch [⟨key, v, {}⟩]).next env cfg s, [.success b]) := by
  refine ⟨(exec env (Database.setBatch cfg [⟨key, v, {}⟩]) s).1,
    by simp only [Call.answer, Call.prog, exec_map], ?_⟩
  have hpairs : Server.pairs (BaseConnection.set ⟨key, v, {}⟩) = some [⟨key, v, {}⟩] := by
    simp [BaseConnection.set, Server.pairs, pair_createKeyValue]
  simp only [Server.processTable, Request.table, RequestAction.ofCode_code]
  change (Server.put env cfg s (BaseConnection.set ⟨key, v, {}⟩)).map _ = _
  rw [Server.put, hpairs]
  simp only [Option.map_some, Server.run, Call.next, Call.prog, exec_map]

theorem processTable_get (env : Env) (cfg : Config) (s : Db) (key : Bytes) :
    ∃ vs, (Call.getBatch [key]).answer env cfg s = .values vs ∧
      Server.processTable env cfg s (keysRequest .get [key]).table =
        some ((Call.getBatch [key]).next env cfg s,
          [.keyValueResults (vs.map Server.valueResult)]) := by
  refine ⟨(exec env (Database.getBatch cfg [key]) s).1,
    by simp only [Call.answer, Call.prog, exec_map], ?_⟩
  simp only [Server.processTable, Request.table, RequestAction.ofCode_code]
  change (Server.get env cfg s (keysRequest .get [key])).map _ = _
  simp only [Server.get, keysRequest, Request.keys, List.map_cons, List.map_nil, Option.pure_def,
    Option.bind_eq_bind, Option.bind_some, List.mapM_cons, List.mapM_nil, Option.map_some,
    Server.run, Call.next, Call.prog, exec_map]

/-- **A `set` that returns `true`** was read to its end, and the store has made it. -/
theorem remote_set_eq_true (hfb : fb.Carries key v)
    (h : ((Operation.set ⟨key, v, {}⟩).remote fb logged env cfg s).2 = .returns (.bool true)) :
    (fb.encodeRequest (BaseConnection.set ⟨key, v, {}⟩)).length + 4 < maxBytes ∧
      (Call.setBatch [⟨key, v, {}⟩]).answer env cfg s = .bool true ∧
      ((Operation.set ⟨key, v, {}⟩).remote fb logged env cfg s).1 =
        (Call.setBatch [⟨key, v, {}⟩]).next env cfg s := by
  have hreq : (Operation.set ⟨key, v, {}⟩).request = some (BaseConnection.set ⟨key, v, {}⟩) := rfl
  by_cases hsize :
      (fb.encodeRequest (BaseConnection.set ⟨key, v, {}⟩)).length < maxBufferSize
  · have hc := hfb.set hsize
    by_cases hmax : (fb.encodeRequest (BaseConnection.set ⟨key, v, {}⟩)).length + 4 < maxBytes
    · obtain ⟨b, hb, hprocess⟩ := processTable_set env cfg s key v
      rw [Operation.remote_of_lt hreq hc hmax hprocess] at h ⊢
      obtain ⟨-, h⟩ := (Operation.run_written hreq (hfb.success b) _).1 h
      refine ⟨hmax, ?_, rfl⟩
      split_ifs at h
      · obtain rfl : b = true := by simpa [Operation.interpret, Api.set, succeeded,
          Response.table] using h
        exact hb
      · simp [Operation.interpret, Api.set, succeeded] at h
    · -- the first bytes of the request have the type of results
      rw [Operation.remote_of_le hreq hc (Nat.not_lt.1 hmax) hsize] at h
      have htyped := hc.typed (bufSize - 4)
      cases hd : fb.decodeResponse ((fb.encodeRequest (BaseConnection.set ⟨key, v, {}⟩)).take
          (bufSize - 4)) with
      | none => simp [hd, Operation.interpret, Api.set, succeeded] at h
      | some t =>
        have ht := htyped t hd
        cases t with
        | keyValueResults table => simp [hd, Operation.interpret, Api.set, succeeded] at h
        | success table => exact absurd (show (1 : UInt8) = 2 from ht) (by decide)
        | other => simp [hd, Operation.interpret, Api.set, succeeded] at h
  · rw [Operation.remote, hreq] at h
    simp [hsize] at h

/-- **When a `get` returns a value that is stored**: if both messages are within their limits. -/
theorem remote_get_iff (hfb : fb.Carries key v)
    (hv : (Call.getBatch [key]).answer env cfg s = .values [(getKey key, some v)]) :
    ((Operation.get key).remote fb logged env cfg s).2 = .returns (.value (some v)) ↔
      (fb.encodeRequest (keysRequest .get [key])).length + 4 < maxBytes ∧
        (fb.encodeResponse (valueResponse key v)).length ≤ maxMessageSize := by
  have hreq : (Operation.get key).request = some (keysRequest .get [key]) := rfl
  by_cases hsize : (fb.encodeRequest (keysRequest .get [key])).length < maxBufferSize
  · have hc := hfb.get hsize
    by_cases hmax : (fb.encodeRequest (keysRequest .get [key])).length + 4 < maxBytes
    · obtain ⟨vs, hvs, hprocess⟩ := processTable_get env cfg s key
      obtain rfl := ConfigDb.Answer.values.inj (hvs.symm.trans hv)
      have hresponse : Server.processTable env cfg s (keysRequest .get [key]).table =
          some ((Call.getBatch [key]).next env cfg s, [valueResponse key v]) := hprocess
      rw [Operation.remote_of_lt hreq hc hmax hresponse, and_iff_right hmax,
        Operation.run_written hreq hfb.response]
      split_ifs with hle
      · refine iff_of_true ⟨?_, rfl⟩ hle
        unfold maxMessageSize at hle
        unfold maxBufferSize
        omega
      · refine iff_of_false (fun h => ?_) hle
        simp [Operation.interpret, Api.get, results] at h
    · refine iff_of_false (fun h => ?_) fun h => hmax h.1
      -- the first bytes of the request have no type
      rw [Operation.remote_of_le hreq hc (Nat.not_lt.1 hmax) hsize] at h
      have htyped := hc.typed (bufSize - 4)
      cases hd : fb.decodeResponse ((fb.encodeRequest (keysRequest .get [key])).take
          (bufSize - 4)) with
      | none => simp [hd, Operation.interpret, Api.get, results] at h
      | some t =>
        have ht := htyped t hd
        cases t with
        | keyValueResults table => exact absurd (show (0 : UInt8) = 1 from ht) (by decide)
        | success table => exact absurd (show (0 : UInt8) = 2 from ht) (by decide)
        | other => simp [hd, Operation.interpret, Api.get, results] at h
  · refine iff_of_false (fun h => ?_) fun h => hsize ?_
    · rw [Operation.remote, hreq] at h
      simp [hsize] at h
    · have := h.1
      unfold maxBytes at this
      unfold maxBufferSize
      omega

/-- A batch `get` of one key whose committed value is `v`, if the value cache has nothing else. -/
theorem getBatch_answer_of_value (henv : env.Reliable)
    (hv : s.columns.value cfg (getKey key) = some v)
    (hm : cfg.enableCache = true → s.2.valueCache[getKey key]? = some v) :
    (Call.getBatch [key]).answer env cfg s = .values [(getKey key, some v)] := by
  have hl := IdealDb.cacheLookup_eq (s := s.ideal) hm
  have hval : s.ideal.1.committed.value cfg (getKey key) = some v := hv
  rw [Call.answer_ideal henv, Call.prog, execIdeal_map, getBatch_ideal henv]
  cases hen : cfg.enableCache with
  | true => simp [hl, hen]
  | false => simp [hl, hen, hval]

/-- After a `set` that answers `true` the value of its key is committed, and in the value cache. -/
theorem getBatch_answer_of_set (henv : env.Reliable)
    (hcipher : cfg.cipher.decrypt (cfg.cipher.encrypt v) = v)
    (h : (Call.setBatch [⟨key, v, {}⟩]).answer env cfg s = .bool true) :
    (Call.getBatch [key]).answer env cfg ((Call.setBatch [⟨key, v, {}⟩]).next env cfg s) =
      .values [(getKey key, some v)] := by
  obtain ⟨hcols, hcache⟩ := Call.next_of_sets (.inr rfl) h
  refine getBatch_answer_of_value henv ?_ fun hen => ?_
  · rw [hcols, Store.value, Store.setEntry_data, if_pos rfl, Option.map_some, hcipher]
  · rw [hcache, if_pos hen]
    exact ExtTreeMap.getElem?_insert_self

end

end Api

/-- **When a value that was set is read.**  After a `set` that returns `true`, a `get` of the key
returns the value if and only if the server reads the request for the key to its end and the
response with the value has at most 4 MiB; the cipher has to be lawful on values that OpenSSL can
take. -/
theorem set_get_iff (fb : Flatbuffers) (logged : Bool) (env : Env) (henv : env.Reliable)
    (cfg : Config)
    (hcfg : ∀ w : Bytes, w.length + 16 < 2 ^ 31 → cfg.cipher.decrypt (cfg.cipher.encrypt w) = w)
    (s : Db) (key v : Bytes) (hfb : fb.Carries key v)
    (hset : ((Operation.set ⟨key, v, {}⟩).remote fb logged env cfg s).2 =
      .returns (.bool true)) :
    ((Operation.get key).remote fb logged env cfg
        ((Operation.set ⟨key, v, {}⟩).remote fb logged env cfg s).1).2 =
          .returns (.value (some v)) ↔
      (fb.encodeRequest (keysRequest .get [key])).length + 4 < maxBytes ∧
        (fb.encodeResponse (valueResponse key v)).length ≤ maxMessageSize := by
  obtain ⟨hmax, hanswer, hnext⟩ := remote_set_eq_true hfb hset
  have hlen : v.length + 16 < 2 ^ 31 := by
    have := hfb.value
    unfold maxBytes at hmax
    omega
  rw [hnext]
  exact remote_get_iff hfb (getBatch_answer_of_set henv (hcfg v hlen) hanswer)

/-! ### The key `/a` -/

/-- The buffer of the request to set `/a` to a value whose length is a multiple of four. -/
def setBuffer (v : Bytes) : Bytes :=
  [12, 0, 0, 0, 8, 0, 12, 0, 7, 0, 8, 0, 8, 0, 0, 0, 0, 0, 0, 1, 4, 0, 0, 0, 1, 0, 0, 0,
    16, 0, 0, 0, 0, 0, 10, 0, 16, 0, 4, 0, 8, 0, 12, 0, 10, 0, 0, 0, 12, 0, 0, 0,
    16, 0, 0, 0] ++
  (u32Bytes (v.length + 24) ++ [2, 0, 0, 0, 47, 97, 0, 0] ++ u32Bytes v.length ++ v ++
    [0, 0, 0, 0, 4, 0, 4, 0, 4, 0, 0, 0])

/-- The buffer of the request to get `/a`. -/
def getBuffer : Bytes :=
  [12, 0, 0, 0, 8, 0, 8, 0, 0, 0, 4, 0, 8, 0, 0, 0, 4, 0, 0, 0, 1, 0, 0, 0, 12, 0, 0, 0,
    0, 0, 6, 0, 8, 0, 4, 0, 6, 0, 0, 0, 4, 0, 0, 0, 2, 0, 0, 0, 47, 97, 0, 0]

/-- The buffer of a response that says whether the call was successful. -/
def successBuffer : Bool → Bytes
  | true => [12, 0, 0, 0, 8, 0, 14, 0, 7, 0, 8, 0, 8, 0, 0, 0, 0, 0, 0, 2, 12, 0, 0, 0, 0, 0, 6, 0,
      8, 0, 7, 0, 6, 0, 0, 0, 0, 0, 0, 1]
  | false => [12, 0, 0, 0, 8, 0, 12, 0, 7, 0, 8, 0, 8, 0, 0, 0, 0, 0, 0, 2, 8, 0, 0, 0, 4, 0, 4, 0,
      4, 0, 0, 0]

/-- The buffer of the response with the value of `/a`, if its length is a multiple of four. -/
def valueBuffer (v : Bytes) : Bytes :=
  [12, 0, 0, 0, 8, 0, 12, 0, 7, 0, 8, 0, 8, 0, 0, 0, 0, 0, 0, 1, 4, 0, 0, 0, 202, 255, 255, 255,
    4, 0, 0, 0, 1, 0, 0, 0, 16, 0, 0, 0, 0, 0, 10, 0, 16, 0, 8, 0, 7, 0, 12, 0, 10, 0, 0, 0,
    0, 0, 0, 1, 8, 0, 0, 0, 20, 0, 0, 0, 2, 0, 0, 0, 47, 97, 0, 0, 0, 0, 6, 0, 8, 0, 4, 0,
    6, 0, 0, 0, 4, 0, 0, 0] ++ (u32Bytes v.length ++ v ++ [0, 0, 0, 0])

/-- The part of flatbuffers that knows the messages about `/a` and one value. -/
def Api.Flatbuffers.about (v : Bytes) : Flatbuffers where
  encodeRequest request := if request.action = .put then setBuffer v else getBuffer
  decodeRequest b :=
    if b = setBuffer v then some (BaseConnection.set ⟨[47, 97], v, {}⟩).table
    else if b = getBuffer then some (keysRequest .get [[47, 97]]).table
    else none
  encodeResponse response := match response with
    | .success b => successBuffer b
    | .keyValueResults _ => valueBuffer v
  decodeResponse b :=
    if b = successBuffer true then some (Response.success true).table
    else if b = successBuffer false then some (Response.success false).table
    else if b = valueBuffer v then some (valueResponse [47, 97] v).table
    else none

section

variable {v : Bytes}

theorem ne_of_getElem? {l m : Bytes} (i : ℕ) {a b : UInt8} (hl : l[i]? = some a)
    (hm : m[i]? = some b) (h : a ≠ b) : l ≠ m := by
  rintro rfl
  exact h (Option.some.inj (hl.symm.trans hm))

theorem take_ne_of_getElem? {l m : Bytes} (i : ℕ) {a b : UInt8} (hl : l[i]? = some a)
    (hm : m[i]? = some b) (h : a ≠ b) (n : ℕ) : l.take n ≠ m := by
  rintro rfl
  rw [List.getElem?_take] at hm
  split_ifs at hm
  exact h (Option.some.inj (hl.symm.trans hm))

theorem take_ne_of_lt {l : Bytes} {n : ℕ} (h : n + 4 ≤ l.length) : l.take n ≠ l := by
  intro heq
  have := congrArg List.length heq
  rw [List.length_take] at this
  omega

theorem length_setBuffer (v : Bytes) : (setBuffer v).length = v.length + 84 := by
  simp only [setBuffer, List.length_append, length_u32Bytes, List.length_cons, List.length_nil]
  omega

theorem length_valueBuffer (v : Bytes) : (valueBuffer v).length = v.length + 100 := by
  simp only [valueBuffer, List.length_append, length_u32Bytes, List.length_cons, List.length_nil]
  omega

theorem decodeResponse_about_of_ne {b : Bytes} (h₁ : b ≠ successBuffer true)
    (h₂ : b ≠ successBuffer false) (h₃ : b ≠ valueBuffer v) :
    (Flatbuffers.about v).decodeResponse b = none := by
  simp only [Flatbuffers.about, if_neg h₁, if_neg h₂, if_neg h₃]

theorem carriesRequest_set (v : Bytes) :
    (Flatbuffers.about v).CarriesRequest (BaseConnection.set ⟨[47, 97], v, {}⟩) where
  size := by
    change 0 < (setBuffer v).length
    rw [length_setBuffer]
    omega
  whole := if_pos rfl
  cut n hn := by
    change (Flatbuffers.about v).decodeRequest ((setBuffer v).take n) = none
    have h₁ : (setBuffer v).take n ≠ setBuffer v := take_ne_of_lt hn
    have h₂ : (setBuffer v).take n ≠ getBuffer :=
      take_ne_of_getElem? 6 rfl rfl (by decide) n
    simp only [Flatbuffers.about, if_neg h₁, if_neg h₂]
  typed n t ht := by
    have hnone : (Flatbuffers.about v).decodeResponse ((setBuffer v).take n) = none :=
      decodeResponse_about_of_ne
        (take_ne_of_getElem? 6 rfl rfl (by decide) n)
        (take_ne_of_getElem? 19 rfl rfl (by decide) n)
        (take_ne_of_getElem? 24 rfl rfl (by decide) n)
    exact absurd (hnone.symm.trans ht) (by simp)

theorem carriesRequest_get (v : Bytes) :
    (Flatbuffers.about v).CarriesRequest (keysRequest .get [[47, 97]]) where
  size := show 0 < getBuffer.length by decide
  whole := by
    have h : getBuffer ≠ setBuffer v := ne_of_getElem? 6 rfl rfl (by decide)
    change (Flatbuffers.about v).decodeRequest getBuffer = _
    simp only [Flatbuffers.about, if_neg h, if_true]
  cut n hn := by
    change (Flatbuffers.about v).decodeRequest (getBuffer.take n) = none
    have h₁ : getBuffer.take n ≠ setBuffer v :=
      take_ne_of_getElem? 6 rfl rfl (by decide) n
    have h₂ : getBuffer.take n ≠ getBuffer := take_ne_of_lt hn
    simp only [Flatbuffers.about, if_neg h₁, if_neg h₂]
  typed n t ht := by
    have hnone : (Flatbuffers.about v).decodeResponse (getBuffer.take n) = none :=
      decodeResponse_about_of_ne
        (take_ne_of_getElem? 6 rfl rfl (by decide) n)
        (take_ne_of_getElem? 6 rfl rfl (by decide) n)
        (take_ne_of_getElem? 6 rfl rfl (by decide) n)
    exact absurd (hnone.symm.trans ht) (by simp)

theorem carriesResponse_success (v : Bytes) (b : Bool) :
    (Flatbuffers.about v).CarriesResponse (.success b) where
  size := by
    change 0 < (successBuffer b).length
    cases b <;> decide
  aligned := by
    change 4 ∣ (successBuffer b).length
    cases b <;> decide
  whole := by cases b <;> rfl
  cut n hn := by
    change (Flatbuffers.about v).decodeResponse ((successBuffer b).take n) = none
    cases b with
    | true =>
      exact decodeResponse_about_of_ne (take_ne_of_lt hn)
        (take_ne_of_getElem? 6 rfl rfl (by decide) n)
        (take_ne_of_getElem? 6 rfl rfl (by decide) n)
    | false =>
      exact decodeResponse_about_of_ne (take_ne_of_getElem? 6 rfl rfl (by decide) n)
        (take_ne_of_lt hn)
        (take_ne_of_getElem? 19 rfl rfl (by decide) n)

theorem carriesResponse_value (h₄ : 4 ∣ v.length) :
    (Flatbuffers.about v).CarriesResponse (valueResponse [47, 97] v) where
  size := by
    change 0 < (valueBuffer v).length
    rw [length_valueBuffer]
    omega
  aligned := by
    change 4 ∣ (valueBuffer v).length
    rw [length_valueBuffer]
    omega
  whole := by
    have h₁ : valueBuffer v ≠ successBuffer true := ne_of_getElem? 6 rfl rfl (by decide)
    have h₂ : valueBuffer v ≠ successBuffer false := ne_of_getElem? 19 rfl rfl (by decide)
    change (Flatbuffers.about v).decodeResponse (valueBuffer v) = _
    simp only [Flatbuffers.about, if_neg h₁, if_neg h₂, if_true]
  cut n hn := by
    change (Flatbuffers.about v).decodeResponse ((valueBuffer v).take n) = none
    exact decodeResponse_about_of_ne
      (take_ne_of_getElem? 6 rfl rfl (by decide) n)
      (take_ne_of_getElem? 19 rfl rfl (by decide) n)
      (take_ne_of_lt hn)

theorem carries_about (h₄ : 4 ∣ v.length) : (Flatbuffers.about v).Carries [47, 97] v where
  set _ := carriesRequest_set v
  value := by
    change v.length ≤ (setBuffer v).length
    rw [length_setBuffer]
    omega
  get _ := carriesRequest_get v
  success b _ := carriesResponse_success v b
  response _ := carriesResponse_value h₄

/-- The environment, the configuration and the store of the examples: `/a` is set. -/
theorem remote_set_about (h₄ : 4 ∣ v.length) (hmax : v.length + 88 < maxBytes) :
    let set := (Operation.set ⟨[47, 97], v, {}⟩).remote (.about v) true (Env.reliable fun n => n)
      (.plain false) (Db.init 1)
    set.2 = .returns (.bool true) ∧
      (Call.getBatch [[47, 97]]).answer (Env.reliable fun n => n) (.plain false) set.1 =
        .values [([47, 97], some v)] := by
  intro set
  have henv := Env.reliable_reliable fun n => n
  have hsets : (Call.setBatch [⟨[47, 97], v, {}⟩]).Sets ⟨[47, 97], v, {}⟩ := .inr rfl
  have hanswer : (Call.setBatch [⟨[47, 97], v, {}⟩]).answer (Env.reliable fun n => n)
      (.plain false) (Db.init 1) = .bool true := by
    refine Call.answer_true_of_work henv hsets.mutates (hsets.work _ _).1 (hsets.work _ _).2 ?_
    rw [ne_eq, hsets.answer_iff henv]
    simp [Call.TurnedAway, Call.enters]
  obtain ⟨b, hb, hprocess⟩ := processTable_set (Env.reliable fun n => n) (.plain false)
    (Db.init 1) [47, 97] v
  obtain rfl : b = true := ConfigDb.Answer.bool.inj (hb.symm.trans hanswer)
  have hreq : (Operation.set ⟨[47, 97], v, {}⟩).request =
    some (BaseConnection.set ⟨[47, 97], v, {}⟩) := rfl
  have hlen : ((Flatbuffers.about v).encodeRequest
      (BaseConnection.set ⟨[47, 97], v, {}⟩)).length = v.length + 84 := length_setBuffer v
  have hset : set = _ := Operation.remote_of_lt hreq (carriesRequest_set v) (by omega) hprocess
  refine ⟨?_, ?_⟩
  · rw [hset]
    exact (Operation.run_written hreq (fun _ => carriesResponse_success v true) _).2
      ⟨show (successBuffer true).length < maxBufferSize by decide, rfl⟩
  · rw [hset]
    exact getBatch_answer_of_set henv rfl hanswer

end

/-- A value of four bytes is read. -/
theorem set_get_iff_small :
    let env := Env.reliable fun n => n
    let s := ((Operation.set ⟨[47, 97], [97, 97, 97, 97], {}⟩).remote (.about [97, 97, 97, 97]) true
      env (.plain false) (Db.init 1)).1
    ((Operation.get [47, 97]).remote (.about [97, 97, 97, 97]) true env (.plain false) s).2 =
      .returns (.value (some [97, 97, 97, 97])) :=
  (set_get_iff (.about [97, 97, 97, 97]) true (Env.reliable fun n => n)
    (Env.reliable_reliable _) (.plain false) (fun _ _ => rfl) (Db.init 1) [47, 97] [97, 97, 97, 97]
    (carries_about (by decide)) (remote_set_about (by decide) (by decide)).1).2
    ⟨by decide, by decide⟩

/-- **A value that was set is not read.**  `/a` is set to a value of 5 MiB, which is less than the
server takes; `set` returns `true`, and then `get` returns nothing. -/
theorem large_value_not_read :
    let v : Bytes := List.replicate (5 * 1024 * 1024) 97
    let env := Env.reliable fun n => n
    let set := (Operation.set ⟨[47, 97], v, {}⟩).remote (.about v) true env (.plain false)
      (Db.init 1)
    let get := (Operation.get [47, 97]).remote (.about v) true env (.plain false) set.1
    (Flatbuffers.about v).Carries [47, 97] v ∧ set.2 = .returns (.bool true) ∧
      get.2 = .returns (.value none) := by
  intro v env set get
  have hv : v.length = 5 * 1024 * 1024 := List.length_replicate
  have h₄ : 4 ∣ v.length := by omega
  have hfb : (Flatbuffers.about v).Carries [47, 97] v := carries_about h₄
  clear_value v
  obtain ⟨hset, hget⟩ := remote_set_about h₄ (by unfold maxBytes; omega)
  refine ⟨hfb, hset, ?_⟩
  have hreq : (Operation.get [47, 97]).request = some (keysRequest .get [[47, 97]]) := rfl
  obtain ⟨vs, hvs, hprocess⟩ := processTable_get env (.plain false) set.1 [47, 97]
  obtain rfl := ConfigDb.Answer.values.inj (hvs.symm.trans hget)
  have hresponse : Server.processTable env (.plain false) set.1
      (keysRequest .get [[47, 97]]).table = some ((Call.getBatch [[47, 97]]).next env (.plain false)
        set.1, [valueResponse [47, 97] v]) := hprocess
  have hlen : ((Flatbuffers.about v).encodeResponse (valueResponse [47, 97] v)).length =
    v.length + 100 := length_valueBuffer v
  have hrun : get = _ := Operation.remote_of_lt hreq (carriesRequest_get v)
    (show getBuffer.length + 4 < maxBytes by decide) hresponse
  rw [hrun]
  refine (Operation.run_written hreq hfb.response _).2 ⟨?_, ?_⟩
  · unfold maxBufferSize
    omega
  · rw [if_neg (by unfold maxMessageSize; omega)]
    rfl

end ConfigDb
