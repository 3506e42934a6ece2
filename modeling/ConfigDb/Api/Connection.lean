import ConfigDb.Service.Connection

/-!
# A pooled client connection

`BaseConnection::writeImpl` (`src/api/impl/connection.hpp`) sends a request and reads the answer.
One stream buffer serves both directions: the request is put behind whatever the buffer holds, the
buffer is written to the socket, and what the socket returns is put into it.  The call ends by a
null pointer, a response or an exception, and afterwards the connection goes back to its pool,
unless it has been marked as invalid.

What happens at the socket during a call is an `Exchange`: whether a closed socket can be opened
again, at which byte the write fails if it does, what the server answers and what the reads return.
The verification of a response is a parameter, and so is whether warnings are logged: the warning
about a long answer converts its length to a signed number, which throws if the number is too large.

## Main definitions

* `Api.writeImpl` : one call; `none` if it still waits for a read.
* `Api.Outcome.InStep` : the connection is discarded, or its buffer is empty and the answer has been
  read to its end.
* `Api.Orderly` : the exchanges after which it is.
* `Api.Reused` : the calls on a connection that the pool hands out again.

## Main results

* `connection_in_step_iff` : when a call leaves the connection in step, and what holds of one that
  is used again.
* `connection_out_of_step` : a short read, a failed write and a failed read.
-/

namespace ConfigDb

namespace Api

/-- The size of the buffer of a read. -/
def readSize : ℕ := 256

/-- `MAX_MESSAGE_SIZE`. -/
def maxMessageSize : ℕ := 4 * 1024 * 1024

/-- What a call of `read_some` does. -/
inductive Read
  /-- It returns some bytes. -/
  | data (bytes : List UInt8)
  /-- It throws. -/
  | error
  deriving DecidableEq

/-- `BaseConnection`, with the state of its socket. -/
structure Connection where
  /-- What `valid` returns. -/
  status : Bool := true
  /-- The socket is open. -/
  isOpen : Bool := true
  /-- The stream buffer. -/
  buffer : List UInt8 := []
  deriving DecidableEq

/-- What happens during a call. -/
structure Exchange where
  /-- The buffer of the request. -/
  request : List UInt8
  /-- A closed socket can be connected again. -/
  connects : Bool := true
  /-- The number of bytes written before the write fails, if it does. -/
  writeError : Option ℕ := none
  /-- The bytes that the server answers with. -/
  answer : List UInt8
  /-- What the reads do. -/
  reads : List Read
  deriving DecidableEq

/-- How a call ends. -/
inductive Result
  /-- It returns a null pointer. -/
  | null
  /-- It returns the response in these bytes. -/
  | response (bytes : List UInt8)
  /-- It throws. -/
  | thrown
  deriving DecidableEq

/-- The end of a call. -/
structure Outcome where
  /-- What the caller gets. -/
  result : Result
  /-- The connection afterwards. -/
  connection : Connection
  /-- The bytes written to the socket. -/
  sent : List UInt8
  /-- The bytes read from the socket. -/
  received : List UInt8
  deriving DecidableEq

/-- `Connection::socket`. -/
def Connection.socket (c : Connection) (connects : Bool) : Connection :=
  if c.isOpen then c
  else if connects then { c with isOpen := true }
  else { c with status := false }

/-- The loop of `writeImpl` : read on until the buffer has `target` bytes.  The result says whether
it got there or a read has thrown. -/
def readLoop (target : ℕ) (buffer : List UInt8) (reads : List Read) :
    Option (Bool × List UInt8) :=
  if target ≤ buffer.length then some (true, buffer)
  else match reads with
    | [] => none
    | .error :: _ => some (false, buffer)
    | .data bytes :: reads => readLoop target (buffer ++ bytes) reads
termination_by structural reads

section

variable (logged : Bool) (verify : List UInt8 → Bool)

/-- `writeImpl` after the loop. -/
def finish (c : Connection) (sent : List UInt8) (len : ℕ) : Bool × List UInt8 → Outcome
  | (false, buffer) => ⟨.thrown, { c with buffer := buffer }, sent, buffer⟩
  | (true, buffer) =>
    let body := (buffer.drop 4).take len
    if verify body then ⟨.response body, { c with buffer := [] }, sent, buffer⟩
    else ⟨.null, { c with buffer := [], status := false }, sent, buffer⟩

/-- `writeImpl` from the first read on; `sent` has been written, and the buffer is empty. -/
def receive (c : Connection) (sent : List UInt8) : List Read → Option Outcome
  | [] => none
  | .error :: _ => some ⟨.thrown, { c with buffer := [] }, sent, []⟩
  | .data bytes :: reads =>
    if bytes.length < 5 then some ⟨.null, { c with buffer := bytes }, sent, bytes⟩
    else
      let len := u32OfBytes bytes
      -- the log message about the length
      if logged ∧ 2 ^ 31 ≤ len then some ⟨.thrown, { c with buffer := bytes }, sent, bytes⟩
      else
        let len := min len maxMessageSize
        (readLoop (len + 4) bytes reads).map (finish verify c sent len)

/-- `BaseConnection::writeImpl`. -/
def writeImpl (c : Connection) (x : Exchange) : Option Outcome :=
  let c := c.socket x.connects
  if !c.status then some ⟨.null, c, [], []⟩
  else
    let out := c.buffer ++ frame x.request
    match x.writeError with
    | some k => some ⟨.thrown, { c with buffer := out.drop k }, out.take k, []⟩
    | none => receive logged verify c out x.reads

end

/-! ### In step -/

/-- The size of the frame that an answer begins with. -/
def frameSize (answer : List UInt8) : ℕ := u32OfBytes answer + 4

/-- After the call the connection is not valid, or its buffer is empty and every byte of the frame
of the answer has been read. -/
def Outcome.InStep (o : Outcome) (answer : List UInt8) : Prop :=
  o.connection.status = false ∨
    (o.connection.buffer = [] ∧ frameSize answer ≤ o.received.length)

instance (o : Outcome) (answer : List UInt8) : Decidable (o.InStep answer) :=
  inferInstanceAs (Decidable (_ ∨ _))

/-- The bytes that the reads return up to the first that throws. -/
def delivered : List Read → List UInt8
  | [] => []
  | .error :: _ => []
  | .data bytes :: reads => bytes ++ delivered reads

/-- The reads return the given bytes, or the first of them, in order; none is empty, and none has
more than the buffer takes. -/
structure ReadsFrom (bytes : List UInt8) (reads : List Read) : Prop where
  bytes : delivered reads <+: bytes
  sizes : ∀ b, .data b ∈ reads → 0 < b.length ∧ b.length ≤ readSize

/-- A read that begins before the byte `target` of the answer reaches to the byte `last`. -/
def Straddles (target last : ℕ) (reads : List Read) : Prop :=
  ∃ before bytes after, reads = before ++ .data bytes :: after ∧ .error ∉ before ∧
    (delivered before).length < target ∧ last ≤ (delivered before).length + bytes.length

/-- The exchanges that leave a connection in step.  The connection is not valid, or cannot be opened
again; or the write does not fail, the first read returns at least five bytes, the answer arrives as
far as it is read, and if it is longer than the limit then no warning is logged or the length is a
signed number, and what is read of it does not pass verification or reaches to its end. -/
def Orderly (logged : Bool) (verify : List UInt8 → Bool) (c : Connection) (x : Exchange) : Prop :=
  c.status = false ∨ (c.isOpen = false ∧ x.connects = false) ∨
    (x.writeError = none ∧ (∃ bytes ∈ x.reads.head?, ∃ d, bytes = .data d ∧ 5 ≤ d.length) ∧
      min (frameSize x.answer) (maxMessageSize + 4) ≤ (delivered x.reads).length ∧
      (maxMessageSize < u32OfBytes x.answer →
        ¬ (logged ∧ 2 ^ 31 ≤ u32OfBytes x.answer) ∧
          (verify ((x.answer.drop 4).take maxMessageSize) = false ∨
            Straddles (maxMessageSize + 4) (frameSize x.answer) x.reads)))

/-! ### The loop -/

section

variable {target : ℕ} {buffer b bytes answer sent : List UInt8} {reads : List Read}

@[simp] theorem delivered_data (bytes : List UInt8) (reads : List Read) :
    delivered (.data bytes :: reads) = bytes ++ delivered reads := rfl

theorem readLoop_data (h : buffer.length < target) :
    readLoop target buffer (.data bytes :: reads) = readLoop target (buffer ++ bytes) reads := by
  rw [readLoop, if_neg (Nat.not_le.2 h)]

theorem readLoop_of_le (h : target ≤ buffer.length) :
    readLoop target buffer reads = some (true, buffer) := by
  rw [readLoop.eq_def, if_pos h]

theorem received_of_readLoop {ok : Bool} (h : readLoop target buffer reads = some (ok, b)) :
    b <+: buffer ++ delivered reads := by
  induction reads generalizing buffer with
  | nil =>
    unfold readLoop at h
    split_ifs at h
    obtain ⟨-, rfl⟩ : true = ok ∧ buffer = b := by simpa using h
    exact List.prefix_append _ _
  | cons r reads ih =>
    by_cases hle : target ≤ buffer.length
    · obtain ⟨-, rfl⟩ : true = ok ∧ buffer = b := by simpa [readLoop_of_le hle] using h
      exact List.prefix_append _ _
    · cases r with
      | error =>
        obtain ⟨-, rfl⟩ : false = ok ∧ buffer = b := by simpa [readLoop, hle] using h
        exact List.prefix_append _ _
      | data d =>
        rw [readLoop_data (Nat.not_le.1 hle)] at h
        rw [delivered_data, ← List.append_assoc]
        exact ih h

theorem prefix_of_readLoop (h : readLoop target buffer reads = some (true, b)) :
    target ≤ b.length ∧ b <+: buffer ++ delivered reads := by
  refine ⟨?_, received_of_readLoop h⟩
  induction reads generalizing buffer with
  | nil =>
    unfold readLoop at h
    split_ifs at h with hle
    obtain rfl : buffer = b := by simpa using h
    exact hle
  | cons r reads ih =>
    by_cases hle : target ≤ buffer.length
    · obtain rfl : buffer = b := by simpa [readLoop_of_le hle] using h
      exact hle
    · cases r with
      | error => simp [readLoop, hle] at h
      | data d =>
        rw [readLoop_data (Nat.not_le.1 hle)] at h
        exact ih h

theorem readLoop_delivered (h : target ≤ (buffer ++ delivered reads).length) :
    ∃ b, readLoop target buffer reads = some (true, b) := by
  induction reads generalizing buffer with
  | nil =>
    rw [delivered, List.append_nil] at h
    exact ⟨buffer, readLoop_of_le h⟩
  | cons r reads ih =>
    by_cases hle : target ≤ buffer.length
    · exact ⟨buffer, readLoop_of_le hle⟩
    · cases r with
      | error =>
        rw [delivered, List.append_nil] at h
        exact absurd h hle
      | data d =>
        rw [delivered_data, ← List.append_assoc] at h
        rw [readLoop_data (Nat.not_le.1 hle)]
        exact ih h

theorem readLoop_straddles (last : ℕ) (h : readLoop target buffer reads = some (true, b))
    (hlt : buffer.length < target) (hlast : target ≤ last) :
    last ≤ b.length ↔ Straddles (target - buffer.length) (last - buffer.length) reads := by
  induction reads generalizing buffer with
  | nil => simp [readLoop, Nat.not_le.2 hlt] at h
  | cons r reads ih =>
    cases r with
    | error => simp [readLoop, Nat.not_le.2 hlt] at h
    | data d =>
      rw [readLoop_data hlt] at h
      by_cases hle : target ≤ (buffer ++ d).length
      · -- the loop ends with this read
        obtain rfl : buffer ++ d = b := by simpa [readLoop_of_le hle] using h
        rw [List.length_append] at hle ⊢
        constructor
        · intro hle'
          exact ⟨[], d, reads, rfl, List.not_mem_nil, by simp [delivered]; omega,
            by simp [delivered]; omega⟩
        · rintro ⟨before, bytes, after, heq, -, hbefore, hafter⟩
          cases before with
          | nil =>
            obtain rfl : d = bytes := by simpa using (List.cons.inj heq).1
            simp only [delivered, List.length_nil] at hafter
            omega
          | cons r before =>
            obtain rfl : Read.data d = r := (List.cons.inj heq).1
            rw [delivered_data, List.length_append] at hbefore
            omega
      · rw [ih h (Nat.not_le.1 hle)]
        rw [List.length_append] at hle ⊢
        constructor
        · rintro ⟨before, bytes, after, rfl, herr, hbefore, hafter⟩
          refine ⟨.data d :: before, bytes, after, rfl, by simpa using herr, ?_, ?_⟩ <;>
            rw [delivered_data, List.length_append] <;> omega
        · rintro ⟨before, bytes, after, heq, herr, hbefore, hafter⟩
          cases before with
          | nil =>
            obtain ⟨hd, rfl⟩ := List.cons.inj heq
            obtain rfl : d = bytes := by simpa using hd
            simp only [delivered, List.length_nil] at hafter
            omega
          | cons r before =>
            obtain ⟨rfl, rfl⟩ := List.cons.inj heq
            rw [delivered_data, List.length_append] at hbefore hafter
            exact ⟨before, bytes, after, rfl, fun hm => herr (List.mem_cons_of_mem _ hm),
              by omega, by omega⟩

/-! ### One call -/

theorem prefix_of_readsFrom (h : ReadsFrom answer (.data bytes :: reads)) : bytes <+: answer :=
  (List.prefix_append _ _).trans h.bytes

theorem u32OfBytes_of_prefix (h : bytes <+: answer) (h₄ : 4 ≤ bytes.length) :
    u32OfBytes answer = u32OfBytes bytes := by
  obtain ⟨rest, rfl⟩ := h
  exact u32OfBytes_append h₄ rest

variable {logged : Bool} {verify : List UInt8 → Bool} {c : Connection} {x : Exchange} {o : Outcome}

/-- A call that has sent its request and got enough with the first read goes on with the loop. -/
theorem receive_long (h₅ : 5 ≤ bytes.length) (hlog : ¬ (logged ∧ 2 ^ 31 ≤ u32OfBytes bytes)) :
    receive logged verify c sent (.data bytes :: reads) =
      (readLoop (min (u32OfBytes bytes) maxMessageSize + 4) [] (.data bytes :: reads)).map
        (finish verify c sent (min (u32OfBytes bytes) maxMessageSize)) := by
  rw [readLoop_data (Nat.succ_pos _), List.nil_append]
  simp only [receive, Nat.not_lt.2 h₅, if_false, hlog]

/-- A call that has read what it wanted leaves the connection in step if and only if the answer was
no longer than the limit, or was rejected, or has been read to its end all the same. -/
theorem finish_inStep_iff (hc : c.status = true) {len : ℕ} (hreads : ReadsFrom answer reads)
    (hlen : len = min (u32OfBytes answer) maxMessageSize)
    (hloop : readLoop (len + 4) [] reads = some (true, b)) :
    (finish verify c sent len (true, b)).InStep answer ↔
      (maxMessageSize < u32OfBytes answer →
        verify ((answer.drop 4).take maxMessageSize) = false ∨
          Straddles (maxMessageSize + 4) (frameSize answer) reads) := by
  obtain ⟨hle, hprefix⟩ := prefix_of_readLoop hloop
  have hbody : (b.drop 4).take len = (answer.drop 4).take len := by
    obtain ⟨rest, rfl⟩ := hprefix.trans hreads.bytes
    rw [List.drop_append_of_le_length (by omega),
      List.take_append_of_le_length (by rw [List.length_drop]; omega)]
  have hstraddles := readLoop_straddles (frameSize answer) hloop (Nat.succ_pos _)
    (by rw [frameSize]; omega)
  rw [List.length_nil, Nat.sub_zero, Nat.sub_zero] at hstraddles
  cases hv : verify ((answer.drop 4).take len) with
  | false =>
    have hstep : (finish verify c sent len (true, b)).InStep answer :=
      .inl (by simp [finish, hbody, hv])
    refine iff_of_true hstep fun hmax => .inl ?_
    rwa [hlen, min_eq_right hmax.le] at hv
  | true =>
    have hstep : (finish verify c sent len (true, b)).InStep answer ↔
        frameSize answer ≤ b.length := by
      simp [Outcome.InStep, finish, hbody, hv, hc]
    rw [hstep]
    by_cases hmax : maxMessageSize < u32OfBytes answer
    · rw [hlen, min_eq_right hmax.le] at hv hstraddles
      simp [hmax, hv, hstraddles]
    · refine iff_of_true ?_ fun h => absurd h hmax
      rw [frameSize]
      omega

/-- **A call that has sent its request** leaves the connection in step if and only if the reads are
orderly. -/
theorem receive_inStep_iff (hc : c.status = true) (hreads : ReadsFrom answer reads)
    (h : receive logged verify c sent reads = some o) :
    o.InStep answer ↔
      (∃ r ∈ reads.head?, ∃ d, r = .data d ∧ 5 ≤ d.length) ∧
        min (frameSize answer) (maxMessageSize + 4) ≤ (delivered reads).length ∧
        (maxMessageSize < u32OfBytes answer →
          ¬ (logged ∧ 2 ^ 31 ≤ u32OfBytes answer) ∧
            (verify ((answer.drop 4).take maxMessageSize) = false ∨
              Straddles (maxMessageSize + 4) (frameSize answer) reads)) := by
  cases reads with
  | nil => simp [receive] at h
  | cons r reads =>
    cases r with
    | error =>
      obtain rfl := Option.some.inj h
      simp [Outcome.InStep, hc, frameSize]
    | data bytes =>
      by_cases h₅ : bytes.length < 5
      · -- the short read stays in the buffer
        obtain rfl : _ = o := by simpa [receive, h₅] using h
        have hne : bytes ≠ [] := by
          rintro rfl
          exact absurd (hreads.sizes [] List.mem_cons_self).1 (by simp)
        have h₅' : ¬ 5 ≤ bytes.length := Nat.not_le.2 h₅
        simp [Outcome.InStep, hc, hne, h₅']
      · have h₅ := Nat.not_lt.1 h₅
        have hu := u32OfBytes_of_prefix (prefix_of_readsFrom hreads) (by omega)
        by_cases hlog : logged ∧ 2 ^ 31 ≤ u32OfBytes bytes
        · -- the log message throws
          have hthrown : receive logged verify c sent (.data bytes :: reads) =
              some ⟨.thrown, { c with buffer := bytes }, sent, bytes⟩ := by
            simp only [receive, if_neg (Nat.not_lt.2 h₅), if_pos hlog]
          obtain rfl := Option.some.inj (hthrown.symm.trans h)
          have hmax : maxMessageSize < u32OfBytes answer := by
            unfold maxMessageSize
            omega
          have hne : bytes ≠ [] := List.ne_nil_of_length_pos (by omega)
          constructor
          · rintro (hstatus | ⟨hbuffer, -⟩)
            · simp [hc] at hstatus
            · exact absurd hbuffer hne
          · rintro ⟨-, -, hlong⟩
            exact absurd (hu ▸ hlog) (hlong hmax).1
        · rw [receive_long h₅ hlog] at h
          have htarget : min (u32OfBytes bytes) maxMessageSize + 4 =
              min (frameSize answer) (maxMessageSize + 4) := by
            rw [frameSize, hu, Nat.add_min_add_right]
          have hhead : ∃ r ∈ (Read.data bytes :: reads).head?, ∃ d, r = .data d ∧ 5 ≤ d.length :=
            ⟨_, rfl, bytes, rfl, h₅⟩
          obtain ⟨⟨ok, b⟩, hloop, rfl⟩ := Option.map_eq_some_iff.1 h
          cases ok with
          | false =>
            -- a read has thrown before the end of the answer
            have hshort : ¬ min (frameSize answer) (maxMessageSize + 4) ≤
                (delivered (.data bytes :: reads)).length := by
              intro hle
              obtain ⟨b', hb'⟩ := readLoop_delivered
                (show _ ≤ ([] ++ delivered (.data bytes :: reads)).length from hle)
              rw [← htarget, hloop] at hb'
              simp at hb'
            constructor
            · rintro (hstatus | ⟨rfl, hsize⟩)
              · simp [finish, hc] at hstatus
              · simp [finish, frameSize] at hsize
            · rintro ⟨-, hle, -⟩
              exact absurd hle hshort
          | true =>
            have hle : min (frameSize answer) (maxMessageSize + 4) ≤
                (delivered (.data bytes :: reads)).length := by
              obtain ⟨hle, hprefix⟩ := prefix_of_readLoop hloop
              exact htarget ▸ hle.trans hprefix.length_le
            rw [finish_inStep_iff hc hreads (by rw [hu]) hloop]
            rw [← hu] at hlog
            simp only [hhead, hle, hlog, not_false_eq_true, true_and]

theorem socket_status (c : Connection) (connects : Bool) :
    (c.socket connects).status = false ↔
      c.status = false ∨ (c.isOpen = false ∧ connects = false) := by
  unfold Connection.socket
  cases hopen : c.isOpen <;> cases connects <;> simp

@[simp] theorem socket_buffer (c : Connection) (connects : Bool) :
    (c.socket connects).buffer = c.buffer := by
  unfold Connection.socket
  split_ifs <;> rfl

/-- **When a call leaves the connection in step.** -/
theorem writeImpl_inStep_iff (hreads : ReadsFrom x.answer x.reads)
    (h : writeImpl logged verify c x = some o) :
    o.InStep x.answer ↔ Orderly logged verify c x := by
  unfold writeImpl at h
  cases hs : (c.socket x.connects).status with
  | false =>
    simp only [hs, Bool.not_false, if_true] at h
    obtain rfl := Option.some.inj h
    have hinvalid := (socket_status c x.connects).1 hs
    exact iff_of_true (.inl hs) (hinvalid.imp_right .inl)
  | true =>
    have hvalid : ¬ (c.status = false ∨ (c.isOpen = false ∧ x.connects = false)) := by
      rw [← socket_status, hs]
      simp
    rw [not_or] at hvalid
    simp only [hs, Bool.not_true, Bool.false_eq_true, if_false] at h
    rw [Orderly, or_iff_right hvalid.1, or_iff_right hvalid.2]
    cases hw : x.writeError with
    | some k =>
      -- nothing of the answer has been read
      rw [hw] at h
      obtain rfl := Option.some.inj h
      simp [Outcome.InStep, frameSize]
    | none =>
      rw [hw] at h
      rw [receive_inStep_iff hs hreads h, and_iff_right rfl]

/-- What a call that has sent its request has read, and which bytes a response is in. -/
theorem received_of_receive (h : receive logged verify c sent reads = some o) :
    o.sent = sent ∧ o.received <+: delivered reads ∧
      ∀ body, o.result = .response body → body <+: o.received.drop 4 := by
  cases reads with
  | nil => simp [receive] at h
  | cons r reads =>
    cases r with
    | error =>
      obtain rfl := Option.some.inj h
      simp
    | data bytes =>
      simp only [receive] at h
      split_ifs at h with h₅ hlog
      · obtain rfl := Option.some.inj h
        simp
      · obtain rfl := Option.some.inj h
        simp
      · obtain ⟨⟨ok, b⟩, hloop, rfl⟩ := Option.map_eq_some_iff.1 h
        have hprefix := received_of_readLoop hloop
        cases ok with
        | false => exact ⟨rfl, hprefix, by simp [finish]⟩
        | true =>
          simp only [finish]
          split_ifs
          · refine ⟨rfl, hprefix, fun body hbody => ?_⟩
            obtain rfl := Result.response.inj hbody
            exact List.take_prefix _ _
          · exact ⟨rfl, hprefix, by simp⟩

theorem received_of_writeImpl (hc : c.buffer = []) (h : writeImpl logged verify c x = some o)
    (hw : x.writeError = none ∨ (c.socket x.connects).status = false) :
    (o.sent = frame x.request ∨ (o.connection.status = false ∧ o.sent = [])) ∧
      o.received <+: delivered x.reads ∧
      ∀ body, o.result = .response body → body <+: o.received.drop 4 := by
  unfold writeImpl at h
  cases hs : (c.socket x.connects).status with
  | false =>
    simp only [hs, Bool.not_false, if_true] at h
    obtain rfl := Option.some.inj h
    exact ⟨.inr ⟨hs, rfl⟩, List.nil_prefix, by simp⟩
  | true =>
    simp only [hs, Bool.not_true, Bool.false_eq_true, if_false] at h
    cases hw' : x.writeError with
    | some k =>
      rw [hw', hs] at hw
      simp at hw
    | none =>
      rw [hw'] at h
      obtain ⟨hsent, hreceived, hresult⟩ := received_of_receive h
      rw [socket_buffer, hc, List.nil_append] at hsent
      exact ⟨.inl hsent, hreceived, hresult⟩

/-- **An orderly call on a connection in step**, answered by a frame: it sends the frame of its
request, or nothing; it reads nothing but its answer, and all of it if the connection stays valid;
and the response is in the answer. -/
theorem orderly_call (hc : c.buffer = []) (hreads : ReadsFrom x.answer x.reads)
    (h : writeImpl logged verify c x = some o) (ho : Orderly logged verify c x)
    {payload : List UInt8} (hp : payload.length < 2 ^ 32) (hanswer : x.answer = frame payload) :
    ((o.sent = frame x.request ∨ (o.connection.status = false ∧ o.sent = [])) ∧
      o.received <+: x.answer ∧
      (o.connection.status = true → o.received = x.answer) ∧
      ∀ body, o.result = .response body → body <+: x.answer.drop 4) ∧
      (o.connection.status = true → o.connection.buffer = []) := by
  have hw : x.writeError = none ∨ (c.socket x.connects).status = false := by
    rcases ho with hinvalid | hclosed | ⟨hw, -⟩
    · exact .inr ((socket_status _ _).2 (.inl hinvalid))
    · exact .inr ((socket_status _ _).2 (.inr hclosed))
    · exact .inl hw
  obtain ⟨hsent, hreceived, hresult⟩ := received_of_writeImpl hc h hw
  have hpre := hreceived.trans hreads.bytes
  have hsize : frameSize x.answer = x.answer.length := by
    rw [frameSize, hanswer, frame, u32OfBytes_u32Bytes hp, List.length_append, length_u32Bytes,
      Nat.add_comm]
  have hstep := (writeImpl_inStep_iff hreads h).2 ho
  refine ⟨⟨hsent, hpre, fun hs => ?_, fun body hbody => ?_⟩, fun hs => ?_⟩
  · rcases hstep with hstep | ⟨-, hstep⟩
    · simp [hs] at hstep
    · exact hpre.eq_of_length_le (hsize ▸ hstep)
  · exact (hresult body hbody).trans (hpre.drop 4)
  · rcases hstep with hstep | ⟨hstep, -⟩
    · simp [hs] at hstep
    · exact hstep

end

/-! ### A connection that is used again -/

/-- The calls on a connection, one after the other: the connection before the call, what happens
during the call, and its end.  `unread` are the bytes that have been sent by the server and not been
read.  A connection that is not valid is not used again. -/
inductive Reused (logged : Bool) (verify : List UInt8 → Bool) :
    Connection → List UInt8 → List (Connection × Exchange × Outcome) → Prop
  /-- The connection stays in the pool. -/
  | idle (c : Connection) (unread : List UInt8) : Reused logged verify c unread []
  /-- A call after which the pool discards the connection. -/
  | discarded {c : Connection} {unread : List UInt8} {x : Exchange} {o : Outcome}
      (hreads : ReadsFrom (unread ++ x.answer) x.reads) (h : writeImpl logged verify c x = some o)
      (hs : o.connection.status = false) : Reused logged verify c unread [(c, x, o)]
  /-- A call after which the pool takes the connection back. -/
  | released {c : Connection} {unread : List UInt8} {x : Exchange} {o : Outcome}
      {calls : List (Connection × Exchange × Outcome)}
      (hreads : ReadsFrom (unread ++ x.answer) x.reads) (h : writeImpl logged verify c x = some o)
      (hs : o.connection.status = true)
      (hcalls : Reused logged verify o.connection ((unread ++ x.answer).drop o.received.length)
        calls) : Reused logged verify c unread ((c, x, o) :: calls)

/-- **Along the calls on a connection that is used again**, all of them orderly and answered by a
frame each, the connection stays in step. -/
theorem Reused.in_step {logged : Bool} {verify : List UInt8 → Bool} {c : Connection}
    {unread : List UInt8} {calls : List (Connection × Exchange × Outcome)}
    (h : Reused logged verify c unread calls) (hu : unread = []) (hc : c.buffer = [])
    (hcalls : ∀ u ∈ calls, Orderly logged verify u.1 u.2.1 ∧
      ∃ payload, payload.length < 2 ^ 32 ∧ u.2.1.answer = frame payload) :
    ∀ u ∈ calls, u.1.buffer = [] ∧
      (u.2.2.sent = frame u.2.1.request ∨
        (u.2.2.connection.status = false ∧ u.2.2.sent = [])) ∧
      u.2.2.received <+: u.2.1.answer ∧
      (u.2.2.connection.status = true → u.2.2.received = u.2.1.answer) ∧
      ∀ body, u.2.2.result = .response body → body <+: u.2.1.answer.drop 4 := by
  -- by induction on the calls, before each of which nothing is left unread
  induction h with
  | idle c unread => simp
  | discarded hreads h hs =>
    subst hu
    rw [List.forall_mem_singleton] at hcalls ⊢
    obtain ⟨ho, payload, hp, hanswer⟩ := hcalls
    exact ⟨hc, (orderly_call hc hreads h ho hp hanswer).1⟩
  | released hreads h hs _ ih =>
    subst hu
    rw [List.forall_mem_cons] at hcalls ⊢
    obtain ⟨⟨ho, payload, hp, hanswer⟩, hrest⟩ := hcalls
    obtain ⟨hcall, hbuffer⟩ := orderly_call hc hreads h ho hp hanswer
    refine ⟨⟨hc, hcall⟩, ih ?_ (hbuffer hs) hrest⟩
    rw [hcall.2.2.1 hs, List.nil_append, List.drop_length]

end Api

open Api

/-- **When a pooled connection stays in step.**  A call that returns or throws leaves a connection
that is not valid, or whose buffer is empty and whose answer has been read to the end of its frame,
if and only if the exchange is orderly.  If all exchanges on a connection are, and each request is
answered by a frame, then every call begins with an empty buffer and sends exactly the frame of its
request, unless the socket cannot be opened; it reads nothing but its own answer, and all of it if
the connection is used again; and its response is in that answer. -/
theorem connection_in_step_iff (logged : Bool) (verify : List UInt8 → Bool) :
    (∀ c x o, ReadsFrom x.answer x.reads → writeImpl logged verify c x = some o →
      (o.InStep x.answer ↔ Orderly logged verify c x)) ∧
    ∀ c calls, c.buffer = [] → Reused logged verify c [] calls →
      (∀ u ∈ calls, Orderly logged verify u.1 u.2.1 ∧
        ∃ payload, payload.length < 2 ^ 32 ∧ u.2.1.answer = frame payload) →
      ∀ u ∈ calls, u.1.buffer = [] ∧
        (u.2.2.sent = frame u.2.1.request ∨
          (u.2.2.connection.status = false ∧ u.2.2.sent = [])) ∧
        u.2.2.received <+: u.2.1.answer ∧
        (u.2.2.connection.status = true → u.2.2.received = u.2.1.answer) ∧
        ∀ body, u.2.2.result = .response body → body <+: u.2.1.answer.drop 4 := by
  constructor
  · intro c x o hreads h
    exact writeImpl_inStep_iff hreads h
  · intro c calls hc h hcalls
    exact h.in_step rfl hc hcalls

/-- The buffer of the response to a successful mutation. -/
def successResponse : List UInt8 :=
  [12, 0, 0, 0, 8, 0, 12, 0, 8, 0, 4, 0, 8, 0, 0, 0, 16, 0, 0, 0, 2, 0, 0, 0, 6, 0, 8, 0,
    4, 0, 0, 0, 8, 0, 0, 0, 1, 0, 0, 0]

/-- A request to delete a key, and its answer in two reads. -/
def deleteExchange : Exchange where
  request := deleteRequest
  answer := frame successResponse
  reads := [.data ((frame successResponse).take 30), .data ((frame successResponse).drop 30)]

/-- A call whose answer arrives in two reads. -/
theorem connection_in_step_delete :
    let o : Api.Outcome :=
      ⟨.response successResponse, {}, frame deleteRequest, frame successResponse⟩
    ReadsFrom deleteExchange.answer deleteExchange.reads ∧
      writeImpl true (· == successResponse) {} deleteExchange = some o ∧
      o.InStep deleteExchange.answer := by
  intro o
  have hreads : ReadsFrom deleteExchange.answer deleteExchange.reads := by
    refine ⟨by decide, fun b hb => ?_⟩
    rcases List.mem_cons.1 hb with hb | hb
    · obtain rfl := Read.data.inj hb
      decide
    · obtain rfl := Read.data.inj (List.mem_singleton.1 hb)
      decide
  have hcall : writeImpl true (· == successResponse) {} deleteExchange = some o := by
    decide +kernel
  refine ⟨hreads, hcall,
    ((connection_in_step_iff true (· == successResponse)).1 {} deleteExchange o hreads hcall).2 ?_⟩
  refine .inr (.inr ⟨rfl, ⟨_, rfl, _, rfl, by decide⟩, by decide, ?_⟩)
  intro hlong
  exact absurd hlong (by decide)

/-- **A pooled connection out of step.**  The first read returns three bytes of the answer; the
write fails after two bytes; the first read fails; the length of the answer is not a signed number. 
The connection stays valid each time, with bytes in its buffer or an answer that has not been read,
and after the first of them the next call sends the three bytes in front of its request. -/
theorem connection_out_of_step :
    let verify := (· == successResponse)
    let short := { deleteExchange with reads := [.data [40, 0, 0]] }
    let unsent := { deleteExchange with writeError := some 2 }
    let unread := { deleteExchange with reads := [.error] }
    let huge := { deleteExchange with
      answer := [0, 0, 0, 128, 1], reads := [.data [0, 0, 0, 128, 1]] }
    let stale : Api.Connection := { buffer := [40, 0, 0] }
    (writeImpl true verify {} short = some ⟨.null, stale, frame deleteRequest, [40, 0, 0]⟩ ∧
        ¬ (⟨.null, stale, frame deleteRequest, [40, 0, 0]⟩ : Api.Outcome).InStep short.answer) ∧
      (writeImpl true verify stale deleteExchange).map Api.Outcome.sent =
        some ([40, 0, 0] ++ frame deleteRequest) ∧
      (writeImpl true verify {} unsent).map (·.connection) =
        some { buffer := (frame deleteRequest).drop 2 } ∧
      writeImpl true verify {} unread = some ⟨.thrown, {}, frame deleteRequest, []⟩ ∧
      (writeImpl true verify {} huge).map (·.connection) =
        some { buffer := [0, 0, 0, 128, 1] } := by
  refine ⟨⟨?_, ?_⟩, ?_, ?_, ?_, ?_⟩ <;> decide +kernel

end ConfigDb
