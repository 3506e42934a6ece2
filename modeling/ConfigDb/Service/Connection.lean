import ConfigDb.Service.Listener

/-!
# The request stream of a connection

`coroutine::serve` (`src/service/tcp/server.cpp`) calls `respond` again and again on a connection,
and a call of `respond` reads one request: the length of the request in four bytes, and the request.
Like the listener of the notifications it decides by what the first read returns, and carries
nothing over to the next call.  Unlike the listener it hands all bytes that it has read, after the
first four, to the verification of the request.

The coroutine waits at two places, so a connection is in one of two states: `idle` at the first read
of a call, `filling` at the read inside the loop.

A request of 8 MiB or more is not read to its end.  The call ends with the first read, and the next
one takes the bytes that follow for the beginning of another request.

## Main definitions

* `frame` : the bytes that a client writes for a request.
* `Connection.step`, `Connection.run` : the connection, one read at a time.
* `FramedBy` : the reads in which a frame arrives.
* `Chunks` : a way of cutting bytes into reads; `Taken` : what a single call can read.

## Main results

* `requests_decoded_iff` : exactly the requests are handed to verification if and only if every
  frame arrives in reads of its own.
* `joined_requests_not_decoded` : two requests that arrive in one read.
* `oversized_not_executed_iff` : when nothing inside a frame that is too long is executed.
* `hidden_request_executed` : a request inside such a frame.
-/

namespace ConfigDb

/-- The bytes that a client writes for a request. -/
def frame (payload : List UInt8) : List UInt8 := u32Bytes payload.length ++ payload

/-- What `respond` does with what it has read. -/
inductive Served
  /-- Write the bytes back: echo, noop, ping etc. -/
  | echo (bytes : List UInt8)
  /-- Hand the buffer to `VerifyRequestBuffer`. -/
  | verify (rbuf : List UInt8)
  deriving DecidableEq

/-- The buffer handed to verification. -/
def Served.request : Served → Option (List UInt8)
  | .echo _ => none
  | .verify rbuf => some rbuf

/-- Where the connection waits for bytes. -/
inductive Connection
  /-- At the first read of a call of `respond`. -/
  | idle
  /-- At the read in the loop. -/
  | filling (docSize read : ℕ) (rbuf : List UInt8)
  deriving DecidableEq

namespace Connection

/-- The condition of the loop of `respond`, and what comes after the loop. -/
def loop (docSize read : ℕ) (rbuf : List UInt8) : Connection × List Served :=
  if docSize < maxBytes ∧ read ≠ docSize then (.filling docSize read rbuf, [])
  else (.idle, [.verify rbuf])

/-- `coroutine::respond`, from one read to the next. -/
def step : Connection → List UInt8 → Connection × List Served
  | .idle, data =>
    let docSize := documentSize data
    if docSize < 5 then (.idle, [.echo (data.take docSize)])
    else if docSize ≤ bufSize then (.idle, [.verify (data.drop 4)])
    else loop docSize data.length (data.drop 4)
  | .filling docSize read rbuf, data => loop docSize (read + data.length) (rbuf ++ data)

/-- The state after some reads, and what has been done with them. -/
def run : Connection → List (List UInt8) → Connection × List Served
  | c, [] => (c, [])
  | c, data :: reads =>
    ((run (c.step data).1 reads).1, (c.step data).2 ++ (run (c.step data).1 reads).2)

/-- The buffers handed to verification. -/
def requests (c : Connection) (reads : List (List UInt8)) : List (List UInt8) :=
  (c.run reads).2.filterMap Served.request

end Connection

/-- The frame of a request arrives in the reads `g`: it is all of them, it is a single read if it
fits into the buffer, and otherwise the first read has more than the length. -/
structure FramedBy (payload : List UInt8) (g : List (List UInt8)) : Prop where
  bytes : g.flatten = frame payload
  single : payload.length + 4 ≤ bufSize → g.length = 1
  first : ∀ data ∈ g.head?, 5 ≤ data.length

/-! ### One call -/

theorem documentSize_of_le {data : List UInt8} (h : 5 ≤ data.length) :
    documentSize data = u32OfBytes data + 4 :=
  if_neg (Nat.not_lt.2 h)

theorem le_length_of_documentSize {data : List UInt8} (h : ¬ documentSize data < 5) :
    5 ≤ data.length := by
  unfold documentSize at h
  split_ifs at h <;> omega

namespace Connection

variable {data payload : List UInt8} {reads : List (List UInt8)}

theorem requests_cons (c : Connection) (data : List UInt8) (reads : List (List UInt8)) :
    c.requests (data :: reads) =
      (c.step data).2.filterMap Served.request ++ (c.step data).1.requests reads := by
  simp [requests, run]

theorem run_cons_fst (c : Connection) (data : List UInt8) (reads : List (List UInt8)) :
    (c.run (data :: reads)).1 = ((c.step data).1.run reads).1 := rfl

theorem step_idle_short (h : documentSize data < 5) :
    step .idle data = (.idle, [.echo (data.take (documentSize data))]) := by
  simp [step, h]

theorem step_idle_once (h₅ : 5 ≤ documentSize data)
    (h : documentSize data ≤ bufSize ∨ maxBytes ≤ documentSize data) :
    step .idle data = (.idle, [.verify (data.drop 4)]) := by
  have h₅' : ¬ documentSize data < 5 := Nat.not_lt.2 h₅
  rcases h with h | h
  · simp [step, h₅', h]
  · have hbuf : ¬ documentSize data ≤ bufSize := by unfold maxBytes at h; unfold bufSize; omega
    simp [step, h₅', hbuf, loop, Nat.not_lt.2 h]

theorem step_idle_long (hbuf : bufSize < documentSize data) (hmax : documentSize data < maxBytes)
    (hdata : data.length ≤ bufSize) :
    step .idle data = (.filling (documentSize data) data.length (data.drop 4), []) := by
  have h₅ : ¬ documentSize data < 5 := by unfold bufSize at hbuf; omega
  have hne : data.length ≠ documentSize data := by omega
  simp [step, h₅, Nat.not_le.2 hbuf, loop, hmax, hne]

/-- **The loop** ends with the read that ends with the request, or never. -/
theorem run_filling (rbuf : List UInt8) {docSize read : ℕ} (hmax : docSize < maxBytes)
    (hread : read ≠ docSize) (reads : List (List UInt8)) :
    (∃ fs rest, reads = fs ++ rest ∧ read + (fs.map List.length).sum = docSize ∧
      (run (.filling docSize read rbuf) reads).1 = (run .idle rest).1 ∧
      requests (.filling docSize read rbuf) reads = (rbuf ++ fs.flatten) :: requests .idle rest) ∨
    requests (.filling docSize read rbuf) reads = [] := by
  induction reads generalizing read rbuf with
  | nil => exact .inr rfl
  | cons data reads ih =>
    by_cases hend : read + data.length = docSize
    · have hstep : step (.filling docSize read rbuf) data = (.idle, [.verify (rbuf ++ data)]) := by
        simp [step, loop, hend]
      refine .inl ⟨[data], reads, rfl, by simpa using hend, ?_, ?_⟩
      · rw [run_cons_fst, hstep]
      · rw [requests_cons, hstep]
        simp [Served.request]
    · have hstep : step (.filling docSize read rbuf) data =
          (.filling docSize (read + data.length) (rbuf ++ data), []) := by
        simp [step, loop, hend, hmax]
      rcases ih (rbuf ++ data) hend with ⟨fs, rest, rfl, hsum, hrun, hreq⟩ | hreq
      · refine .inl ⟨data :: fs, rest, rfl, by simpa [Nat.add_assoc] using hsum, ?_, ?_⟩
        · rw [run_cons_fst, hstep, hrun]
        · rw [requests_cons, hstep, hreq]
          simp
      · exact .inr (by rw [requests_cons, hstep, hreq]; rfl)

theorem run_filling_ends (docSize read : ℕ) (rbuf : List UInt8) (hmax : docSize < maxBytes)
    {fs : List (List UInt8)} (hfs : fs ≠ []) (hne : ∀ f ∈ fs, 0 < f.length)
    (hsum : read + (fs.map List.length).sum = docSize) (rest : List (List UInt8)) :
    (run (.filling docSize read rbuf) (fs ++ rest)).1 = (run .idle rest).1 ∧
      requests (.filling docSize read rbuf) (fs ++ rest) =
        (rbuf ++ fs.flatten) :: requests .idle rest := by
  induction fs generalizing read rbuf with
  | nil => exact absurd rfl hfs
  | cons f fs ih =>
    rw [List.forall_mem_cons] at hne
    rw [List.map_cons, List.sum_cons, ← Nat.add_assoc] at hsum
    rw [List.cons_append, run_cons_fst, requests_cons]
    cases fs with
    | nil =>
      have hend : read + f.length = docSize := by simpa using hsum
      have hstep : step (.filling docSize read rbuf) f = (.idle, [.verify (rbuf ++ f)]) := by
        simp [step, loop, hend]
      simp [hstep, Served.request]
    | cons f' fs' =>
      -- another read is to come, and it is not empty
      have hpos : 0 < f'.length := hne.2 f' List.mem_cons_self
      have hend : read + f.length ≠ docSize := by
        simp only [List.map_cons, List.sum_cons] at hsum
        omega
      have hstep : step (.filling docSize read rbuf) f =
          (.filling docSize (read + f.length) (rbuf ++ f), []) := by
        simp [step, loop, hend, hmax]
      obtain ⟨hrun, hreq⟩ := ih (read + f.length) (rbuf ++ f) (by simp) hne.2 hsum
      rw [hstep, hrun, hreq]
      simp

/-- **A frame that arrives in reads of its own** is handed to verification, and the call ends with
it. -/
theorem run_framed {g : List (List UInt8)} (hg : FramedBy payload g) (hp : 0 < payload.length)
    (hmax : payload.length + 4 < maxBytes)
    (hreads : ∀ data ∈ g, 0 < data.length ∧ data.length ≤ bufSize) (rest : List (List UInt8)) :
    (run .idle (g ++ rest)).1 = (run .idle rest).1 ∧
      requests .idle (g ++ rest) = payload :: requests .idle rest := by
  cases g with
  | nil => simpa [frame, u32Bytes] using hg.bytes
  | cons data fs =>
    rw [List.forall_mem_cons] at hreads
    have h₅ : 5 ≤ data.length := hg.first data rfl
    have hbytes : data ++ fs.flatten = u32Bytes payload.length ++ payload := hg.bytes
    have hdoc := documentSize_notification h₅ (by omega) hbytes
    have hdrop : data.drop 4 ++ fs.flatten = payload := by
      have := congrArg (List.drop 4) hbytes
      rwa [List.drop_append_of_le_length (by omega), List.drop_left' (length_u32Bytes _)] at this
    rw [List.cons_append, run_cons_fst, requests_cons]
    by_cases hbuf : payload.length + 4 ≤ bufSize
    · obtain rfl : fs = [] := by simpa using hg.single hbuf
      rw [step_idle_once (by omega) (.inl (by omega))]
      simpa [Served.request] using hdrop
    · have hlen := congrArg List.length hbytes
      simp only [List.length_append, length_u32Bytes] at hlen
      have hfs : fs ≠ [] := by
        rintro rfl
        simp only [List.flatten_nil, List.length_nil] at hlen
        omega
      rw [step_idle_long (by omega) (by omega) hreads.1.2]
      obtain ⟨hrun, hreq⟩ := run_filling_ends (documentSize data) data.length (data.drop 4)
        (by omega) hfs (fun f hf => (hreads.2 f hf).1)
        (by rw [← List.length_flatten]; omega) rest
      rw [hrun, hreq, hdrop]
      simp

/-! ### What is handed to verification has been read -/

/-- The number of bytes read in the present call. -/
def pending : Connection → ℕ
  | .idle => 0
  | .filling _ read _ => read

/-- The buffer holds all bytes read in the present call, after the first four. -/
def Full : Connection → Prop
  | .idle => True
  | .filling _ read rbuf => rbuf.length + 4 = read

theorem loop_size (docSize : ℕ) {read : ℕ} {rbuf : List UInt8} (h : rbuf.length + 4 = read) :
    (loop docSize read rbuf).1.Full ∧
      (((loop docSize read rbuf).2.filterMap Served.request).map fun q => q.length + 4).sum +
        (loop docSize read rbuf).1.pending = read := by
  unfold loop
  split_ifs
  · exact ⟨h, by simp [pending]⟩
  · exact ⟨trivial, by simpa [pending, Served.request] using h⟩

/-- One read: what is handed to verification is what has been read, after the first four bytes. -/
theorem step_size {c : Connection} (hc : c.Full) (data : List UInt8) :
    (c.step data).1.Full ∧
      (((c.step data).2.filterMap Served.request).map fun q => q.length + 4).sum +
        (c.step data).1.pending ≤ c.pending + data.length := by
  cases c with
  | idle =>
    by_cases h₅ : documentSize data < 5
    · rw [step_idle_short h₅]
      exact ⟨trivial, Nat.zero_le _⟩
    · have hlen := le_length_of_documentSize h₅
      have hdrop : (data.drop 4).length + 4 = data.length := by
        rw [List.length_drop]
        omega
      simp only [step, h₅, if_false]
      split_ifs
      · exact ⟨trivial, by simp [Served.request, pending]; omega⟩
      · obtain ⟨hfull, hsum⟩ := loop_size (documentSize data) hdrop
        exact ⟨hfull, by simp only [pending, Nat.zero_add]; exact hsum.le⟩
  | filling docSize read rbuf =>
    have hbuf : (rbuf ++ data).length + 4 = read + data.length := by
      rw [List.length_append]
      have : rbuf.length + 4 = read := hc
      omega
    obtain ⟨hfull, hsum⟩ := loop_size docSize hbuf
    exact ⟨hfull, hsum.le⟩

/-- **A run** hands no more to verification than it has read, and four bytes less for every
request. -/
theorem requests_size {c : Connection} (hc : c.Full) (reads : List (List UInt8)) :
    ((c.requests reads).map fun q => q.length + 4).sum ≤ c.pending + reads.flatten.length := by
  induction reads generalizing c with
  | nil => simp [requests, run]
  | cons data reads ih =>
    obtain ⟨hfull, hsum⟩ := step_size hc data
    have := ih hfull
    rw [requests_cons, List.map_append, List.sum_append, List.flatten_cons, List.length_append]
    omega

/-! ### Frames from what is handed to verification -/

/-- A call that hands the first request to verification has read its frame, and nothing else. -/
theorem framed_of_requests {ps : List (List UInt8)} (hmax : payload.length + 4 < maxBytes)
    (hreads : ∀ data ∈ reads, 0 < data.length ∧ data.length ≤ bufSize)
    (hs : reads.flatten = (payload :: ps).flatMap frame)
    (h : requests .idle reads = payload :: ps) :
    ∃ g rest, reads = g ++ rest ∧ FramedBy payload g ∧ rest.flatten = ps.flatMap frame ∧
      requests .idle rest = ps := by
  -- a buffer of the length of the request, read from the beginning, is the request
  have hcut (g rest : List (List UInt8)) (hr : reads = g ++ rest)
      (hl : g.flatten.length = payload.length + 4) :
      g.flatten = frame payload ∧ rest.flatten = ps.flatMap frame := by
    rw [hr, List.flatten_append, List.flatMap_cons] at hs
    refine List.append_inj hs ?_
    rw [hl, frame, List.length_append, length_u32Bytes, Nat.add_comm]
  cases reads with
  | nil => exact absurd h (by simp [requests, run])
  | cons data reads =>
    rw [List.forall_mem_cons] at hreads
    by_cases h₅ : documentSize data < 5
    · -- the bytes of the echo are missing among the requests
      rw [requests_cons, step_idle_short h₅] at h
      have hsize := requests_size (c := .idle) trivial reads
      have hall : (((payload :: ps).map fun q => q.length + 4).sum : ℕ) =
          (data :: reads).flatten.length := by
        rw [hs, List.length_flatMap]
        refine congrArg List.sum (List.map_congr_left fun q _ => ?_)
        rw [frame, List.length_append, length_u32Bytes, Nat.add_comm]
      have h' : requests .idle reads = payload :: ps := h
      rw [h', hall, List.flatten_cons, List.length_append] at hsize
      have hpos := hreads.1.1
      simp only [pending] at hsize
      omega
    · have hlen := le_length_of_documentSize h₅
      by_cases honce : documentSize data ≤ bufSize ∨ maxBytes ≤ documentSize data
      · rw [requests_cons, step_idle_once (Nat.le_of_not_lt h₅) honce] at h
        obtain ⟨hp, hps⟩ := List.cons.inj h
        obtain ⟨hg, hrest⟩ := hcut [data] reads rfl (by
          rw [← hp, List.flatten_singleton, List.length_drop]
          omega)
        exact ⟨[data], reads, rfl, ⟨hg, fun _ => rfl, by simpa using hlen⟩, hrest, hps⟩
      · rw [not_or, not_le, not_le] at honce
        rw [requests_cons, step_idle_long honce.1 honce.2 hreads.1.2] at h
        have hne : data.length ≠ documentSize data := by omega
        rcases run_filling (data.drop 4) honce.2 hne reads with
          ⟨fs, rest, rfl, hsum, -, hreq⟩ | hreq
        · rw [hreq] at h
          obtain ⟨hp, hps⟩ := List.cons.inj h
          obtain ⟨hg, hrest⟩ := hcut (data :: fs) rest rfl (by
            rw [← hp, List.flatten_cons, List.length_append, List.length_append, List.length_drop]
            omega)
          refine ⟨data :: fs, rest, rfl, ⟨hg, fun hbuf => ?_, by simpa using hlen⟩, hrest, hps⟩
          have hdoc := documentSize_notification hlen (by omega) hg
          omega
        · rw [hreq] at h
          exact absurd h (by simp)

end Connection

/-- **The server decodes its request stream exactly if and only if every frame arrives in reads of
its own**: for every sequence of requests and every way of cutting their frames into reads, exactly
the requests are handed to verification, each once, complete and in order, and no loop is left
running, if and only if the reads fall into groups, one for each frame, such that a frame that fits
into the buffer is a single read and the first read of a longer one has at least five bytes. -/
theorem requests_decoded_iff (payloads : List (List UInt8))
    (hsize : ∀ p ∈ payloads, 1 ≤ p.length ∧ p.length + 4 < 8 * 1024 * 1024)
    (reads : List (List UInt8)) (hreads : ∀ data ∈ reads, 0 < data.length ∧ data.length ≤ bufSize)
    (hstream : reads.flatten = payloads.flatMap frame) :
    (Connection.requests .idle reads = payloads ∧ (Connection.run .idle reads).1 = .idle) ↔
      ∃ groups, reads = groups.flatten ∧ List.Forall₂ FramedBy payloads groups := by
  constructor
  · rintro ⟨h, -⟩
    induction payloads generalizing reads with
    | nil =>
      refine ⟨[], ?_, .nil⟩
      cases reads with
      | nil => rfl
      | cons data reads =>
        have hpos := (hreads data List.mem_cons_self).1
        have hl := congrArg List.length hstream
        simp only [List.flatten_cons, List.length_append, List.flatMap_nil, List.length_nil] at hl
        omega
    | cons p ps ih =>
      rw [List.forall_mem_cons] at hsize
      obtain ⟨g, rest, rfl, hg, hrest, hreq⟩ :=
        Connection.framed_of_requests hsize.1.2 hreads hstream h
      obtain ⟨groups, rfl, hall⟩ := ih hsize.2 rest
        (fun data hd => hreads data (List.mem_append_right _ hd)) hrest hreq
      exact ⟨g :: groups, rfl, .cons hg hall⟩
  · rintro ⟨groups, rfl, hall⟩
    clear hstream
    induction hall with
    | nil => exact ⟨rfl, rfl⟩
    | @cons p g ps groups hg _ ih =>
      rw [List.forall_mem_cons] at hsize
      rw [List.flatten_cons] at hreads ⊢
      obtain ⟨hrun, hreq⟩ := Connection.run_framed hg hsize.1.1 hsize.1.2
        (fun data hd => hreads data (List.mem_append_left _ hd)) groups.flatten
      obtain ⟨h₁, h₂⟩ := ih hsize.2 fun data hd => hreads data (List.mem_append_right _ hd)
      exact ⟨by rw [hreq, h₁], by rw [hrun, h₂]⟩

/-- A request in one read, and one of 130 bytes in two. -/
theorem requests_decoded_two :
    let long := List.replicate 130 (7 : UInt8)
    let reads := [frame [1, 2], u32Bytes 130 ++ long.take 100, long.drop 100]
    Connection.requests .idle reads = [[1, 2], long] ∧ (Connection.run .idle reads).1 = .idle := by
  intro long reads
  refine (requests_decoded_iff [[1, 2], long] (by simp [long]) reads (by decide) (by decide)).2
    ⟨[[frame [1, 2]], [u32Bytes 130 ++ long.take 100, long.drop 100]], rfl, ?_⟩
  refine .cons ⟨by decide, fun _ => rfl, by decide⟩ (.cons ⟨by decide, ?_, ?_⟩ .nil)
  · exact fun h => absurd h (by decide)
  · intro data hd
    obtain rfl : u32Bytes 130 ++ long.take 100 = data := by simpa using hd
    decide

/-- **Joined and split requests are not decoded.**  Of two requests in one read the second is taken
for a part of the first; a request in two reads is handed to verification without its last byte,
which is echoed; and a request of 130 bytes whose last read has the beginning of the next request as
well leaves the loop running. -/
theorem joined_requests_not_decoded :
    let long := List.replicate 130 (7 : UInt8)
    Connection.requests .idle [frame [1, 2] ++ frame [3]] = [[1, 2, 1, 0, 0, 0, 3]] ∧
      Connection.requests .idle [(frame [1, 2]).take 5, (frame [1, 2]).drop 5] = [[1]] ∧
      Connection.requests .idle [(frame long).take 128, (frame long).drop 128 ++ frame [1]] = [] ∧
      (Connection.run .idle [(frame long).take 128, (frame long).drop 128 ++ frame [1]]).1 ≠
        .idle := by
  decide +kernel

/-! ### Frames that are too long -/

/-- A chunking of some bytes into reads of the buffer of `respond`. -/
structure Chunks (bytes : List UInt8) (reads : List (List UInt8)) : Prop where
  bytes : reads.flatten = bytes
  sizes : ∀ data ∈ reads, 0 < data.length ∧ data.length ≤ bufSize

/-- A call of `respond` can read exactly these bytes, and hands them, after the first four, to
verification: a call that loops reads up to the length that they begin with, and one that does not
takes what the first read returns. -/
def Taken (bytes : List UInt8) : Prop :=
  5 ≤ bytes.length ∧
    if bufSize < u32OfBytes bytes + 4 ∧ u32OfBytes bytes + 4 < maxBytes then
      bytes.length = u32OfBytes bytes + 4
    else 0 < u32OfBytes bytes ∧ bytes.length ≤ bufSize

instance (bytes : List UInt8) : Decidable (Taken bytes) :=
  inferInstanceAs (Decidable (5 ≤ bytes.length ∧
    if bufSize < u32OfBytes bytes + 4 ∧ u32OfBytes bytes + 4 < maxBytes then
      bytes.length = u32OfBytes bytes + 4
    else 0 < u32OfBytes bytes ∧ bytes.length ≤ bufSize))

theorem flatten_bytes (bytes : List UInt8) : (bytes.map fun b => [b]).flatten = bytes := by
  induction bytes with
  | nil => rfl
  | cons b bytes ih => simp [ih]

theorem Chunks.append {b₁ b₂ : List UInt8} {r₁ r₂ : List (List UInt8)} (h₁ : Chunks b₁ r₁)
    (h₂ : Chunks b₂ r₂) : Chunks (b₁ ++ b₂) (r₁ ++ r₂) where
  bytes := by rw [List.flatten_append, h₁.bytes, h₂.bytes]
  sizes := by
    intro data hd
    rcases List.mem_append.1 hd with hd | hd
    · exact h₁.sizes data hd
    · exact h₂.sizes data hd

theorem chunks_bytes (bytes : List UInt8) : Chunks bytes (bytes.map fun b => [b]) where
  bytes := flatten_bytes bytes
  sizes := by
    intro data hd
    obtain ⟨b, -, rfl⟩ := List.mem_map.1 hd
    exact ⟨Nat.one_pos, by unfold bufSize; simp⟩

theorem chunks_single (bytes : List UInt8) (hpos : 0 < bytes.length)
    (hbuf : bytes.length ≤ bufSize) : Chunks bytes [bytes] :=
  ⟨by simp, by simpa using ⟨hpos, hbuf⟩⟩

namespace Connection

variable {bytes data : List UInt8} {reads : List (List UInt8)}

theorem run_append (c : Connection) (r₁ r₂ : List (List UInt8)) :
    c.run (r₁ ++ r₂) = (((c.run r₁).1.run r₂).1, (c.run r₁).2 ++ ((c.run r₁).1.run r₂).2) := by
  induction r₁ generalizing c with
  | nil => rfl
  | cons data r₁ ih => simp [run, ih]

theorem requests_append (c : Connection) (r₁ r₂ : List (List UInt8)) :
    c.requests (r₁ ++ r₂) = c.requests r₁ ++ (c.run r₁).1.requests r₂ := by
  simp [requests, run_append]

theorem run_bytes (bytes : List UInt8) :
    (run .idle (bytes.map fun b => [b])).1 = .idle := by
  induction bytes with
  | nil => rfl
  | cons b bytes ih =>
    have hshort : documentSize [b] < 5 := by simp [documentSize]
    rw [List.map_cons, run_cons_fst, step_idle_short hshort]
    exact ih

/-- **What is handed to verification** is a part of the stream that a call can take. -/
theorem taken_of_mem_requests (hreads : ∀ data ∈ reads, data.length ≤ bufSize) {q : List UInt8}
    (hq : q ∈ requests .idle reads) :
    ∃ before request after, reads.flatten = before ++ request ++ after ∧ Taken request ∧
      q = request.drop 4 := by
  induction hn : reads.length using Nat.strong_induction_on generalizing reads with
  | _ n ih =>
  cases reads with
  | nil => simp [requests, run] at hq
  | cons data reads =>
    rw [List.forall_mem_cons] at hreads
    rw [requests_cons] at hq
    -- the requests of the reads that follow some `pre` of this call
    have hlater (pre rest : List (List UInt8)) (hpre : data :: reads = pre ++ rest)
        (hne : pre ≠ []) (hmem : q ∈ requests .idle rest) :
        ∃ before request after, (data :: reads).flatten = before ++ request ++ after ∧
          Taken request ∧ q = request.drop 4 := by
      have hlen := congrArg List.length hpre
      rw [List.length_append] at hlen
      have hpos := List.length_pos_of_ne_nil hne
      obtain ⟨before, request, after, heq, ht, hdrop⟩ := ih rest.length (by omega)
        (fun d hd => (List.forall_mem_cons (p := fun d : List UInt8 => d.length ≤ bufSize)).2
          hreads d (hpre ▸ List.mem_append_right _ hd)) hmem rfl
      exact ⟨pre.flatten ++ before, request, after, by simp [hpre, heq], ht, hdrop⟩
    by_cases h₅ : documentSize data < 5
    · rw [step_idle_short h₅] at hq
      exact hlater [data] reads rfl (by simp) (by simpa [Served.request] using hq)
    · have hlen := le_length_of_documentSize h₅
      have hdoc := documentSize_of_le hlen
      by_cases honce : documentSize data ≤ bufSize ∨ maxBytes ≤ documentSize data
      · rw [step_idle_once (Nat.le_of_not_lt h₅) honce] at hq
        rcases List.mem_cons.1 (show q ∈ data.drop 4 :: requests .idle reads from hq) with rfl | hq
        · refine ⟨[], data, reads.flatten, by simp, ⟨hlen, ?_⟩, rfl⟩
          rw [if_neg (by omega)]
          exact ⟨by omega, hreads.1⟩
        · exact hlater [data] reads rfl (by simp) hq
      · rw [not_or, not_le, not_le] at honce
        rw [step_idle_long honce.1 honce.2 hreads.1] at hq
        have hne : data.length ≠ documentSize data := by have := hreads.1; omega
        rcases run_filling (data.drop 4) honce.2 hne reads with
          ⟨fs, rest, rfl, hsum, -, hreq⟩ | hreq
        · rw [hreq] at hq
          rcases List.mem_cons.1 (show q ∈ _ :: requests .idle rest from hq) with rfl | hq
          · have hdrop : data.drop 4 ++ fs.flatten = (data ++ fs.flatten).drop 4 := by
              rw [List.drop_append_of_le_length (by omega)]
            have hu : u32OfBytes (data ++ fs.flatten) = u32OfBytes data := by
              exact u32OfBytes_append (by omega) _
            refine ⟨[], data ++ fs.flatten, rest.flatten, by simp, ⟨?_, ?_⟩, hdrop⟩
            · rw [List.length_append]
              omega
            · rw [hu, if_pos (by omega), List.length_append, List.length_flatten]
              omega
          · exact hlater (data :: fs) rest rfl (by simp) hq
        · simp [hreq] at hq

/-- **What a call can take, it takes if the reads fall so.** -/
theorem exists_reads_of_taken {request : List UInt8} (h : Taken request) :
    ∃ reads, Chunks request reads ∧ request.drop 4 ∈ requests .idle reads := by
  obtain ⟨h₅, h⟩ := h
  split_ifs at h with hloop
  · -- the first read fills the buffer, and the others return one byte each
    have hfirst : (request.take bufSize).length = bufSize := by
      rw [List.length_take]
      omega
    have hdoc : documentSize (request.take bufSize) = u32OfBytes request + 4 := by
      rw [documentSize_of_le (by rw [hfirst]; decide), u32OfBytes_take (by decide)]
    have hchunks := (chunks_single (request.take bufSize) (by rw [hfirst]; decide)
      hfirst.le).append (chunks_bytes (request.drop bufSize))
    rw [List.take_append_drop] at hchunks
    refine ⟨_, hchunks, ?_⟩
    have hfs : (request.drop bufSize).map (fun b => [b]) ≠ [] := by
      rw [ne_eq, List.map_eq_nil_iff, List.drop_eq_nil_iff]
      omega
    have hpos : ∀ f ∈ (request.drop bufSize).map (fun b => [b]), 0 < f.length :=
      fun f hf => ((chunks_bytes (request.drop bufSize)).sizes f hf).1
    obtain ⟨-, hreq⟩ := run_filling_ends (documentSize (request.take bufSize))
      (request.take bufSize).length ((request.take bufSize).drop 4) (by omega) hfs hpos
      (by rw [← List.length_flatten, flatten_bytes, List.length_drop]; omega) []
    rw [List.append_nil, flatten_bytes] at hreq
    rw [List.singleton_append, requests_cons,
      step_idle_long (by omega) (by omega) hfirst.le, hreq]
    have hdrop : request.drop 4 = (request.take bufSize).drop 4 ++ request.drop bufSize := by
      rw [← List.drop_append_of_le_length (by rw [hfirst]; decide), List.take_append_drop]
    simp [hdrop]
  · have hdoc := documentSize_of_le h₅
    refine ⟨[request], chunks_single request (by omega) h.2, ?_⟩
    rw [requests_cons, step_idle_once (by omega) (by omega)]
    exact List.mem_cons_self

/-- **Which buffers the chunking can bring to verification**: those of the parts of the stream that
a call can take. -/
theorem exists_mem_requests_iff (bytes q : List UInt8) :
    (∃ reads, Chunks bytes reads ∧ q ∈ requests .idle reads) ↔
      ∃ before request after, bytes = before ++ request ++ after ∧ Taken request ∧
        q = request.drop 4 := by
  constructor
  · rintro ⟨reads, ⟨rfl, hsizes⟩, hq⟩
    exact taken_of_mem_requests (fun data hd => (hsizes data hd).2) hq
  · rintro ⟨before, request, after, rfl, ht, rfl⟩
    obtain ⟨reads, hchunks, hq⟩ := exists_reads_of_taken ht
    refine ⟨_, ((chunks_bytes before).append hchunks).append (chunks_bytes after), ?_⟩
    rw [List.append_assoc, requests_append, run_bytes, requests_append]
    exact List.mem_append_right _ (List.mem_append_left _ hq)

end Connection

/-- **When nothing inside a frame that is too long is executed**: however its bytes are cut into
reads, nothing that is handed to verification passes it, if and only if verification rejects the
first bytes of the payload, up to a full buffer, and everything that a call can take which begins
after the first byte of the frame. -/
theorem oversized_not_executed_iff (verify : List UInt8 → Bool) (payload : List UInt8)
    (hmax : 8 * 1024 * 1024 ≤ payload.length + 4) (hsize : payload.length < 2 ^ 32) :
    (∀ reads, Chunks (frame payload) reads →
        ∀ q ∈ Connection.requests .idle reads, verify q = false) ↔
      (∀ k, 0 < k → k + 4 ≤ bufSize → verify (payload.take k) = false) ∧
        ∀ before request after, frame payload = before ++ request ++ after → before ≠ [] →
          Taken request → verify (request.drop 4) = false := by
  have hu : u32OfBytes (frame payload) = payload.length := u32OfBytes_u32Bytes hsize payload
  have hlen : (frame payload).length = payload.length + 4 := by
    rw [frame, List.length_append, length_u32Bytes, Nat.add_comm]
  have hdrop : (frame payload).drop 4 = payload := List.drop_left' (length_u32Bytes _)
  constructor
  · intro h
    -- a part of the frame that a call can take is brought to verification by some chunking
    have hpart (before request after : List UInt8)
        (heq : frame payload = before ++ request ++ after) (ht : Taken request) :
        verify (request.drop 4) = false := by
      obtain ⟨reads, hchunks, hq⟩ := (Connection.exists_mem_requests_iff (frame payload)
        (request.drop 4)).2 ⟨before, request, after, heq, ht, rfl⟩
      exact h reads hchunks _ hq
    refine ⟨fun k hk hbuf => ?_, fun before request after heq _ ht => hpart _ _ _ heq ht⟩
    have ht : Taken ((frame payload).take (k + 4)) := by
      have hmin : ((frame payload).take (k + 4)).length = k + 4 := by
        rw [List.length_take, hlen]
        unfold bufSize at hbuf
        omega
      refine ⟨by omega, ?_⟩
      rw [u32OfBytes_take (by omega), hu, hmin, if_neg (by unfold maxBytes; omega)]
      omega
    have := hpart [] _ ((frame payload).drop (k + 4)) (by simp) ht
    rwa [List.drop_take, hdrop, Nat.add_sub_cancel] at this
  · rintro ⟨hfirst, hrest⟩ reads hchunks q hq
    obtain ⟨before, request, after, heq, ht, rfl⟩ :=
      (Connection.exists_mem_requests_iff (frame payload) q).1 ⟨reads, hchunks, hq⟩
    cases before with
    | cons b before => exact hrest _ _ _ heq (List.cons_ne_nil b before) ht
    | nil =>
      -- a call that begins with the frame takes no more than one read
      obtain ⟨h₅, hif⟩ := ht
      rw [List.nil_append] at heq
      have hur : u32OfBytes request = payload.length := by
        rw [← hu, heq, u32OfBytes_append (by omega)]
      rw [hur, if_neg (by unfold maxBytes; omega)] at hif
      have htake : request.drop 4 = payload.take (request.length - 4) := by
        rw [← hdrop, heq, List.drop_append_of_le_length (by omega), List.take_append_of_le_length
          (by simp), List.take_of_length_le (by simp)]
      rw [htake]
      exact hfirst _ (by omega) (by omega)

/-- The buffer of a request to delete the key `a`. -/
def deleteRequest : List UInt8 :=
  [12, 0, 0, 0, 8, 0, 12, 0, 8, 0, 4, 0, 8, 0, 0, 0, 8, 0, 0, 0, 2, 0, 0, 0, 1, 0, 0, 0,
    12, 0, 0, 0, 6, 0, 8, 0, 4, 0, 0, 0, 8, 0, 0, 0, 4, 0, 0, 0, 1, 0, 0, 0, 97, 0, 0, 0]

/-- The bytes of a part of the stream after its fourth are bytes of the stream after its fourth. -/
theorem mem_drop_of_part {before request after : List UInt8} {b : UInt8} (k : ℕ)
    (hb : b ∈ request.drop k) : b ∈ (before ++ request ++ after).drop k := by
  have hsuffix : request.drop k <:+ (before ++ request).drop k := by
    rw [List.drop_append]
    rcases Nat.le_total k before.length with h | h
    · rw [Nat.sub_eq_zero_of_le h, List.drop_zero]
      exact (List.drop_suffix _ _).trans (List.suffix_append _ _)
    · rw [List.drop_eq_nil_of_le h, List.nil_append]
      exact List.drop_suffix_drop_left request (Nat.sub_le _ _)
  rw [List.drop_append]
  exact List.mem_append_left _ (hsuffix.subset hb)

/-- A frame of zeros is not executed. -/
theorem zeros_not_executed :
    let payload := List.replicate (8 * 1024 * 1024) (0 : UInt8)
    8 * 1024 * 1024 ≤ payload.length + 4 ∧ payload.length < 2 ^ 32 ∧
      ∀ reads, Chunks (frame payload) reads →
        ∀ q ∈ Connection.requests .idle reads, (q == deleteRequest) = false := by
  intro payload
  have hzero (q : List UInt8) (hq : ∀ b ∈ q, b ∈ payload) : (q == deleteRequest) = false := by
    rw [beq_eq_false_iff_ne]
    rintro rfl
    exact absurd (List.eq_of_mem_replicate (hq 12 (by decide))) (by decide)
  have hlen : payload.length = 8 * 1024 * 1024 := List.length_replicate
  refine ⟨by omega, by omega, (oversized_not_executed_iff (· == deleteRequest) payload (by omega)
    (by omega)).2 ⟨?_, ?_⟩⟩
  · intro k _ _
    exact hzero _ fun b hb => List.mem_of_mem_take hb
  · intro before request after heq _ _
    refine hzero _ fun b hb => ?_
    have hmem : b ∈ (frame payload).drop 4 := heq ▸ mem_drop_of_part 4 hb
    rwa [frame, List.drop_left' (length_u32Bytes _)] at hmem

/-- After the first 124 bytes of the payload of a frame that is too long the server takes a frame
for one. -/
theorem mem_requests_hidden (rest : List UInt8) {n : ℕ} (hmax : 8 * 1024 * 1024 ≤ n + 4)
    (hn : n < 2 ^ 32) :
    deleteRequest ∈ Connection.requests .idle ((u32Bytes n ++ List.replicate 124 0) ::
      frame deleteRequest :: rest.map fun b => [b]) := by
  have hdoc : documentSize (u32Bytes n ++ List.replicate 124 0) = n + 4 := by
    rw [documentSize_of_le (by simp), u32OfBytes_u32Bytes hn]
  have hlong : maxBytes ≤ documentSize (u32Bytes n ++ List.replicate 124 0) := by
    unfold maxBytes
    omega
  rw [Connection.requests_cons, Connection.step_idle_once (by omega) (.inr hlong),
    Connection.requests_cons]
  refine List.mem_append_right _ (List.mem_append_left _ ?_)
  show deleteRequest ∈ (Connection.step .idle (frame deleteRequest)).2.filterMap Served.request
  decide

/-- **A request inside a frame that is too long is executed.**  The first read has the length and
124 zeros, the second one the frame of a request to delete a key. -/
theorem hidden_request_executed :
    let zeros := List.replicate (8 * 1024 * 1024) (0 : UInt8)
    let payload := List.replicate 124 0 ++ frame deleteRequest ++ zeros
    let reads := (u32Bytes payload.length ++ List.replicate 124 0) :: frame deleteRequest ::
      zeros.map fun b => [b]
    8 * 1024 * 1024 ≤ payload.length + 4 ∧ payload.length < 2 ^ 32 ∧
      Chunks (frame payload) reads ∧
      ¬ ∀ q ∈ Connection.requests .idle reads, (q == deleteRequest) = false := by
  intro zeros payload reads
  have hlen : payload.length = 184 + zeros.length := by
    simp only [payload, List.length_append, List.length_replicate]
    rfl
  have hzeros : zeros.length = 8 * 1024 * 1024 := List.length_replicate
  clear_value zeros
  refine ⟨by omega, by omega, ?_, fun h => ?_⟩
  · have hfirst := chunks_single (u32Bytes payload.length ++ List.replicate 124 0)
      (by simp) (by simp [bufSize])
    have hsecond : Chunks (frame deleteRequest) [frame deleteRequest] :=
      chunks_single _ (by decide) (by decide)
    have hall := (hfirst.append hsecond).append (chunks_bytes zeros)
    refine ⟨?_, hall.sizes⟩
    rw [show reads.flatten = _ from hall.bytes]
    simp only [frame, payload, List.append_assoc]
  · have hmem := mem_requests_hidden zeros (n := payload.length) (by omega) (by omega)
    exact absurd (h deleteRequest hmem) (by decide)

end ConfigDb
