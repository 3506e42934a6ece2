import Mathlib
import ConfigDb.Stream.Layout

/-!
# The notification stream

`pnotifier::respond` (`src/service/tcp/notifier.cpp`) writes notifications and pings to a
connection, and `plistener::Listener::read` (`src/service/tcp/listener.cpp`) reads them at the other
end.  A notification is preceded by its length, a ping is not.  TCP splits and joins the bytes at
will, and `read` carries nothing over from one call to the next.

The coroutine `read` waits at two places, so a listener is in one of two states: `idle` at the first
read of a call, `filling` at the read inside the loop.  What is handed to `process` is recorded with
its offset in the stream, so that a request taken from the wrong bytes is never mistaken for a right
one.

## Main definitions

* `respond` : the bytes written for a message.
* `Reader.step`, `Reader.run` : the listener, one read at a time.
* `sent` : what should be processed; `InStep` : the reads are in step with the messages.

## Main results

* `joined_messages_not_delivered` : two pings, or two notifications, that arrive in one read.
* `notifications_delivered_iff` : exactly the notifications are processed if and only if the reads
  are in step with the messages.
-/

namespace ConfigDb

/-! ### The sender -/

/-- What `respond` writes at one time. -/
inductive Message
  /-- A notification from the queue. -/
  | notification (bytes : List UInt8)
  /-- A ping, if the queue has been empty for long enough. -/
  | ping
  deriving DecidableEq

/-- The text `ping`. -/
def pingBytes : List UInt8 := [112, 105, 110, 103]

/-- `pnotifier::respond` : the bytes written for a message. -/
def respond : Message → List UInt8
  | .notification bytes =>
    let size := bytes.length % 2 ^ 32
    u32Bytes size ++ bytes.take size
  | .ping => pingBytes

/-- The number of bytes written for a message. -/
def Message.size (m : Message) : ℕ := (respond m).length

/-- The bytes written for a sequence of messages. -/
def stream (ms : List Message) : List UInt8 := ms.flatMap respond

/-! ### The listener -/

/-- The size of the buffer of a read. -/
def bufSize : ℕ := 128

/-- The size from which on a document is not read to its end. -/
def maxBytes : ℕ := 8 * 1024 * 1024

/-- The lambda `documentSize` of `read`, on the bytes that the first read has returned. -/
def documentSize (data : List UInt8) : ℕ :=
  if data.length < 5 then data.length else u32OfBytes data + 4

/-- A buffer handed to `process`.  If it has fewer bytes than the request is long, then the request
reaches beyond the bytes that have been read. -/
structure Processed where
  /-- The offset of the buffer in the stream. -/
  pos : ℕ
  /-- The length of the request. -/
  size : ℕ
  /-- The bytes of the request that have been read. -/
  bytes : List UInt8
  deriving DecidableEq

/-- Where the listener waits for bytes. -/
inductive Reader
  /-- At the first read of a call of `read`, after `off` bytes of the stream. -/
  | idle (off : ℕ)
  /-- At the read in the loop of a call that began at `start`. -/
  | filling (start docSize read : ℕ) (rbuf : List UInt8)
  deriving DecidableEq

/-- The condition of the loop of `read`, and what comes after the loop. -/
def Reader.loop (start docSize read : ℕ) (rbuf : List UInt8) : Reader × List Processed :=
  if docSize < maxBytes ∧ read ≠ docSize then (.filling start docSize read rbuf, [])
  else (.idle (start + read), [⟨start + 4, docSize - 4, rbuf.take (docSize - 4)⟩])

/-- `Listener::read`, from one read to the next. -/
def Reader.step : Reader → List UInt8 → Reader × List Processed
  | .idle off, data =>
    let docSize := documentSize data
    -- echo, noop, ping etc.
    if docSize < 5 then (.idle (off + data.length), [])
    else if docSize ≤ bufSize then
      (.idle (off + data.length), [⟨off + 4, docSize - 4, (data.drop 4).take (docSize - 4)⟩])
    else loop off docSize data.length (data.drop 4)
  | .filling start docSize read rbuf, data =>
    loop start docSize (read + data.length) (rbuf ++ data)

/-- What the listener processes, read after read. -/
def Reader.run : Reader → List (List UInt8) → List Processed
  | _, [] => []
  | r, data :: reads => (r.step data).2 ++ run (r.step data).1 reads

/-! ### Delivery -/

/-- The notifications among the messages, the first message at offset `off`. -/
def sentFrom (off : ℕ) (ms : List Message) : List Processed :=
  (placed Message.size off ms).filterMap fun p => match p.2 with
    | .notification bytes => some ⟨p.1 + 4, bytes.length, bytes⟩
    | .ping => none

/-- What should be processed: every notification, once and in order, and nothing else. -/
def sent (ms : List Message) : List Processed := sentFrom 0 ms

/-- What the reads, the first one at offset `off`, must be like for a message.  For a notification
there is a read that begins with it; if the notification fits into the buffer, then this read has
all of it, and otherwise this read has more than the length, and some read ends with the
notification.  A read that begins inside a ping has fewer than five bytes. -/
def InStepAt (off : ℕ) (reads : List (List UInt8)) : ℕ × Message → Prop
  | (o, .notification bytes) => 0 < bytes.length ∧ bytes.length + 4 < maxBytes ∧
    ∃ r ∈ placed List.length off reads, r.1 = o ∧
      if bytes.length + 4 ≤ bufSize then bytes.length + 4 ≤ r.2.length
      else 5 ≤ r.2.length ∧ o + (bytes.length + 4) ∈ cuts List.length off reads
  | (o, .ping) => ∀ r ∈ placed List.length off reads, o ≤ r.1 → r.1 < o + 4 → r.2.length < 5

/-- The reads are in step with the messages. -/
def InStep (ms : List Message) (reads : List (List UInt8)) : Prop :=
  ∀ p ∈ placed Message.size 0 ms, InStepAt 0 reads p

instance (off : ℕ) (reads : List (List UInt8)) : ∀ p, Decidable (InStepAt off reads p)
  | (o, .notification bytes) => inferInstanceAs (Decidable (0 < bytes.length ∧
      bytes.length + 4 < maxBytes ∧ ∃ r ∈ placed List.length off reads, r.1 = o ∧
        if bytes.length + 4 ≤ bufSize then bytes.length + 4 ≤ r.2.length
        else 5 ≤ r.2.length ∧ o + (bytes.length + 4) ∈ cuts List.length off reads))
  | (o, .ping) => inferInstanceAs (Decidable
      (∀ r ∈ placed List.length off reads, o ≤ r.1 → r.1 < o + 4 → r.2.length < 5))

instance (ms : List Message) (reads : List (List UInt8)) : Decidable (InStep ms reads) :=
  inferInstanceAs (Decidable (∀ p ∈ placed Message.size 0 ms, InStepAt 0 reads p))

/-! ### Messages and their bytes -/

section

variable {b off : ℕ} {ms : List Message} {bytes : List UInt8}

@[simp] theorem stream_cons (m : Message) (ms : List Message) :
    stream (m :: ms) = respond m ++ stream ms := rfl

theorem respond_notification (h : bytes.length < maxBytes) :
    respond (.notification bytes) = u32Bytes bytes.length ++ bytes := by
  have hm : bytes.length % 2 ^ 32 = bytes.length := by
    unfold maxBytes at h
    exact Nat.mod_eq_of_lt (by omega)
  rw [respond, hm, List.take_length]

theorem size_notification (h : bytes.length < maxBytes) :
    (Message.notification bytes).size = bytes.length + 4 := by
  rw [Message.size, respond_notification h, List.length_append, length_u32Bytes, Nat.add_comm]

@[simp] theorem size_ping : Message.ping.size = 4 := rfl

@[simp] theorem sentFrom_nil : sentFrom b [] = [] := rfl

theorem sentFrom_notification (h : bytes.length < maxBytes) :
    sentFrom b (.notification bytes :: ms) =
      ⟨b + 4, bytes.length, bytes⟩ :: sentFrom (b + (bytes.length + 4)) ms := by
  simp [sentFrom, size_notification h]

@[simp] theorem sentFrom_ping : sentFrom b (.ping :: ms) = sentFrom (b + 4) ms := rfl

theorem pos_of_mem_sentFrom {e : Processed} (h : e ∈ sentFrom b ms) : b + 4 ≤ e.pos := by
  obtain ⟨⟨o, m⟩, hm, he⟩ := List.mem_filterMap.1 h
  have ho := le_of_mem_placed hm
  cases m with
  | notification bytes =>
    obtain rfl := Option.some.inj he
    exact Nat.add_le_add_right ho 4
  | ping => simp at he

end

/-! ### Where requests are taken from -/

namespace Reader

/-- The offset at which the call of `read` began. -/
def start : Reader → ℕ
  | .idle off => off
  | .filling start _ _ _ => start

/-- The number of bytes of the stream that have been read. -/
def off : Reader → ℕ
  | .idle off => off
  | .filling start _ read _ => start + read

variable {r : Reader} {data : List UInt8} {reads : List (List UInt8)} {e : Processed}

theorem loop_cases (start docSize read : ℕ) (rbuf : List UInt8) :
    loop start docSize read rbuf = (.filling start docSize read rbuf, []) ∨
      loop start docSize read rbuf =
        (.idle (start + read), [⟨start + 4, docSize - 4, rbuf.take (docSize - 4)⟩]) := by
  unfold loop
  split_ifs
  · exact .inl rfl
  · exact .inr rfl

/-- A step takes the listener past the bytes read, and processes at most one request, which begins
four bytes after the beginning of the call. -/
theorem step_cases (r : Reader) (data : List UInt8) :
    ((r.step data).1.off = r.off + data.length) ∧
      ((r.step data).1.start = r.start ∨ (r.step data).1.start = (r.step data).1.off) ∧
      ∀ e ∈ (r.step data).2, e.pos = r.start + 4 := by
  cases r with
  | idle o =>
    simp only [step]
    split_ifs
    · exact ⟨rfl, .inr rfl, by simp⟩
    · exact ⟨rfl, .inr rfl, by simp [start]⟩
    · rcases loop_cases o (documentSize data) data.length (data.drop 4) with h | h <;> rw [h]
      · exact ⟨rfl, .inl rfl, by simp⟩
      · exact ⟨rfl, .inr rfl, by simp [start]⟩
  | filling st docSize read rbuf =>
    simp only [step]
    rcases loop_cases st docSize (read + data.length) (rbuf ++ data) with h | h <;> rw [h]
    · exact ⟨(Nat.add_assoc _ _ _).symm, .inl rfl, by simp⟩
    · exact ⟨(Nat.add_assoc _ _ _).symm, .inr rfl, by simp [start]⟩

theorem pos_of_mem_run_cons
    (ih : ∀ {r : Reader}, e ∈ r.run reads → e.pos = r.start + 4 ∨ r.off + 4 ≤ e.pos)
    (h : e ∈ r.run (data :: reads)) : e.pos = r.start + 4 ∨ r.off + data.length + 4 ≤ e.pos := by
  obtain ⟨hoff, hstart, hpos⟩ := r.step_cases data
  rcases List.mem_append.1 h with h | h
  · exact .inl (hpos e h)
  · rcases ih h with h | h
    · rcases hstart with hs | hs
      · exact .inl (hs ▸ h)
      · exact .inr (by omega)
    · exact .inr (by omega)

/-- Every request is that of the present call, or is taken from bytes not yet read. -/
theorem pos_of_mem_run (h : e ∈ r.run reads) : e.pos = r.start + 4 ∨ r.off + 4 ≤ e.pos := by
  induction reads generalizing r with
  | nil => simp [run] at h
  | cons data reads ih =>
    rcases pos_of_mem_run_cons ih h with h | h
    · exact .inl h
    · exact .inr (by omega)

theorem le_pos_of_mem_run {off : ℕ} (h : e ∈ run (.idle off) reads) : off + 4 ≤ e.pos := by
  rcases pos_of_mem_run h with h | h
  · exact h.ge
  · exact h

/-! ### The loop -/

/-- The loop ends if some read ends with the document; otherwise it never ends. -/
theorem run_filling (start : ℕ) (rbuf : List UInt8) {docSize read : ℕ} (hmax : docSize < maxBytes)
    (hread : read ≠ docSize) (reads : List (List UInt8)) :
    (∃ fs rest, reads = fs ++ rest ∧ read + (fs.map List.length).sum = docSize ∧
      run (.filling start docSize read rbuf) reads =
        ⟨start + 4, docSize - 4, (rbuf ++ fs.flatten).take (docSize - 4)⟩ ::
          run (.idle (start + docSize)) rest) ∨
    (docSize ∉ cuts List.length read reads ∧
      run (.filling start docSize read rbuf) reads = []) := by
  induction reads generalizing read rbuf with
  | nil => exact .inr ⟨by simpa [cuts] using hread.symm, rfl⟩
  | cons data reads ih =>
    by_cases hend : read + data.length = docSize
    · refine .inl ⟨[data], reads, rfl, by simpa using hend, ?_⟩
      simp [run, step, loop, hend]
    · have hstep : step (.filling start docSize read rbuf) data =
          (.filling start docSize (read + data.length) (rbuf ++ data), []) := by
        simp [step, loop, hend, hmax]
      rcases ih (rbuf ++ data) hend with ⟨fs, rest, rfl, hsum, hrun⟩ | ⟨hcut, hrun⟩
      · refine .inl ⟨data :: fs, rest, rfl, by simpa [Nat.add_assoc] using hsum, ?_⟩
        simp [run, hstep, hrun]
      · refine .inr ⟨?_, by simp [run, hstep, hrun]⟩
        simp [cuts, hcut, hread.symm]

end Reader

/-! ### Reads before a message -/

section

variable {b off : ℕ} {data : List UInt8} {reads : List (List UInt8)} {p : ℕ × Message}

/-- A read that begins before a message does not matter for it, unless it begins inside a ping. -/
theorem inStepAt_cons (hp : off < p.1) :
    InStepAt off (data :: reads) p ↔ InStepAt (off + data.length) reads p := by
  obtain ⟨o, m⟩ := p
  have ho : off ≠ o := hp.ne
  cases m with
  | notification bytes =>
    have hcut : o + (bytes.length + 4) ∈ cuts List.length off (data :: reads) ↔
        o + (bytes.length + 4) ∈ cuts List.length (off + data.length) reads :=
      mem_cuts_cons (Nat.lt_add_right _ hp)
    simp only [InStepAt, placed_cons, List.exists_mem_cons_iff, ho, false_and, false_or, hcut]
  | ping =>
    have ho' : ¬ o ≤ off := not_le.2 hp
    simp only [InStepAt, placed_cons, List.forall_mem_cons, ho', false_imp_iff, true_and]

theorem inStepAt_append {fs : List (List UInt8)} (hne : ∀ f ∈ fs, 0 < f.length)
    (hp : off + (fs.map List.length).sum ≤ p.1) :
    InStepAt off (fs ++ reads) p ↔ InStepAt (off + (fs.map List.length).sum) reads p := by
  induction fs generalizing off with
  | nil => rfl
  | cons f fs ih =>
    rw [List.forall_mem_cons] at hne
    rw [List.map_cons, List.sum_cons, ← Nat.add_assoc] at hp ⊢
    rw [List.cons_append, inStepAt_cons (by omega), ih hne.2 hp]

theorem inStepAt_ping_cons (hd : data.length < 5) :
    InStepAt off (data :: reads) (b, .ping) ↔ InStepAt (off + data.length) reads (b, .ping) := by
  simp [InStepAt, hd]

/-- If the notification begins at the first read, then that read has to have all of it, or more than
the length of it. -/
theorem inStepAt_notification (hne : 0 < data.length) {bytes : List UInt8} :
    InStepAt off (data :: reads) (off, .notification bytes) ↔
      0 < bytes.length ∧ bytes.length + 4 < maxBytes ∧
        if bytes.length + 4 ≤ bufSize then bytes.length + 4 ≤ data.length
        else 5 ≤ data.length ∧
          off + (bytes.length + 4) ∈ cuts List.length (off + data.length) reads := by
  have hlate : ∀ r ∈ placed List.length (off + data.length) reads, r.1 ≠ off := by
    intro r hr
    have := le_of_mem_placed hr
    omega
  have hcut : off + (bytes.length + 4) ∈ cuts List.length off (data :: reads) ↔
      off + (bytes.length + 4) ∈ cuts List.length (off + data.length) reads :=
    mem_cuts_cons (by omega)
  simp only [InStepAt, placed_cons, List.exists_mem_cons_iff, true_and, hcut]
  refine and_congr_right fun _ => and_congr_right fun _ => or_iff_left ?_
  rintro ⟨r, hr, ho, -⟩
  exact hlate r hr ho

end

/-! ### One call of the listener -/

section

variable {b off : ℕ} {data bytes : List UInt8} {reads : List (List UInt8)} {ms : List Message}

theorem documentSize_notification {rest tail : List UInt8} (h : 5 ≤ data.length)
    (hb : bytes.length < maxBytes) (hs : data ++ tail = u32Bytes bytes.length ++ rest) :
    documentSize data = bytes.length + 4 := by
  have hdata : data = (u32Bytes bytes.length ++ rest).take data.length := by
    rw [← hs, List.take_left]
  rw [documentSize, if_neg (by omega), hdata, u32OfBytes_take (by omega), u32OfBytes_u32Bytes]
  unfold maxBytes at hb
  omega

theorem documentSize_pings {k : ℕ} (hk : k < 4) {rest tail : List UInt8} (h : 5 ≤ data.length)
    (hs : data ++ tail = (pingBytes ++ (pingBytes ++ rest)).drop k) :
    maxBytes ≤ documentSize data := by
  have hdata : data = ((pingBytes ++ (pingBytes ++ rest)).drop k).take data.length := by
    rw [← hs, List.take_left]
  rw [documentSize, if_neg (by omega), hdata, u32OfBytes_take (by omega)]
  interval_cases k <;> simp [pingBytes, u32OfBytes, maxBytes]

theorem run_idle_short (h : documentSize data < 5) :
    Reader.run (.idle off) (data :: reads) = Reader.run (.idle (off + data.length)) reads := by
  simp [Reader.run, Reader.step, h]

/-- A request that fits the buffer, and one that is too large for it, are processed at once. -/
theorem run_idle_whole (h₅ : 5 ≤ documentSize data)
    (h : documentSize data ≤ bufSize ∨ maxBytes ≤ documentSize data) :
    Reader.run (.idle off) (data :: reads) =
      ⟨off + 4, documentSize data - 4, (data.drop 4).take (documentSize data - 4)⟩ ::
        Reader.run (.idle (off + data.length)) reads := by
  rcases h with hbuf | hmax
  · simp [Reader.run, Reader.step, hbuf, Nat.not_lt.2 h₅]
  · have hbuf : ¬ documentSize data ≤ bufSize := by unfold maxBytes at hmax; unfold bufSize; omega
    simp [Reader.run, Reader.step, Reader.loop, Nat.not_lt.2 h₅, hbuf, Nat.not_lt.2 hmax]

theorem run_idle_long (hbuf : bufSize < documentSize data) (hmax : documentSize data < maxBytes)
    (hdata : data.length ≤ bufSize) :
    Reader.run (.idle off) (data :: reads) =
      Reader.run (.filling off (documentSize data) data.length (data.drop 4)) reads := by
  have h₅ : ¬ documentSize data < 5 := by unfold bufSize at hbuf; omega
  have hne : data.length ≠ documentSize data := by omega
  simp [Reader.run, Reader.step, Reader.loop, h₅, Nat.not_le.2 hbuf, hmax, hne]

theorem take_drop_eq_iff {rest tail : List UInt8}
    (hs : data ++ tail = u32Bytes bytes.length ++ (bytes ++ rest)) (h₄ : 4 ≤ data.length) :
    (data.drop 4).take bytes.length = bytes ↔ bytes.length + 4 ≤ data.length := by
  constructor
  · intro h
    have hl := congrArg List.length h
    rw [List.length_take, List.length_drop] at hl
    omega
  · intro h
    have hd : data.drop 4 ++ tail = bytes ++ rest := by
      have := congrArg (List.drop 4) hs
      rwa [List.drop_append_of_le_length h₄, List.drop_left' (length_u32Bytes _)] at this
    have ht := congrArg (List.take bytes.length) hd
    rwa [List.take_append_of_le_length (by rw [List.length_drop]; omega), List.take_left] at ht

end

/-! ### Whole runs -/

/-- The listener, wherever it is in the stream of the messages, processes exactly the notifications
to come if and only if the reads to come are in step with them.  The first message is at offset `b`,
and the listener has read up to offset `off`. -/
def DeliveryIff (ms : List Message) : Prop :=
  ∀ b off reads, b ≤ off → (∀ data ∈ reads, 0 < data.length ∧ data.length ≤ bufSize) →
    reads.flatten = (stream ms).drop (off - b) →
    (Reader.run (.idle off) reads = sentFrom b ms ↔
      ∀ p ∈ placed Message.size b ms, InStepAt off reads p)

section

variable {b off : ℕ} {data bytes : List UInt8} {reads : List (List UInt8)} {ms : List Message}

theorem deliveryIff_nil : DeliveryIff [] := by
  intro b off reads _ hreads hs
  have hnil : reads = [] := by
    cases reads with
    | nil => rfl
    | cons data reads =>
      have hd := (hreads data List.mem_cons_self).1
      have hl := congrArg List.length hs
      simp [stream] at hl
      simp [hl.1] at hd
  subst hnil
  simp [Reader.run]

theorem delivery_fits (ih : DeliveryIff ms) (hn : 0 < bytes.length)
    (hbuf : bytes.length + 4 ≤ bufSize) (h₅ : 5 ≤ data.length)
    (hreads : ∀ data ∈ reads, 0 < data.length ∧ data.length ≤ bufSize)
    (hs : data ++ reads.flatten = u32Bytes bytes.length ++ (bytes ++ stream ms)) :
    Reader.run (.idle off) (data :: reads) =
        ⟨off + 4, bytes.length, bytes⟩ :: sentFrom (off + (bytes.length + 4)) ms ↔
      bytes.length + 4 ≤ data.length ∧
        ∀ p ∈ placed Message.size (off + (bytes.length + 4)) ms,
          InStepAt off (data :: reads) p := by
  have hmax : bytes.length < maxBytes := by unfold bufSize at hbuf; unfold maxBytes; omega
  have hdoc := documentSize_notification h₅ hmax hs
  rw [run_idle_whole (by omega) (.inl (by omega)), hdoc, Nat.add_sub_cancel]
  simp only [List.cons.injEq, Processed.mk.injEq, true_and, take_drop_eq_iff hs (by omega)]
  refine and_congr_right fun hall => ?_
  have hrest : reads.flatten =
      (stream ms).drop (off + data.length - (off + (bytes.length + 4))) := by
    have := congrArg (List.drop data.length) hs
    rw [List.drop_left, ← List.append_assoc, List.drop_append] at this
    simpa [List.drop_eq_nil_of_le, hall, Nat.add_comm, Nat.add_sub_add_left] using this
  rw [ih (off + (bytes.length + 4)) (off + data.length) reads (by omega) hreads hrest]
  refine forall₂_congr fun p hp => (inStepAt_cons ?_).symm
  have := le_of_mem_placed hp
  omega

theorem delivery_long (ih : DeliveryIff ms) (hbuf : bufSize < bytes.length + 4)
    (hmax : bytes.length + 4 < maxBytes) (h₅ : 5 ≤ data.length) (hdata : data.length ≤ bufSize)
    (hreads : ∀ data ∈ reads, 0 < data.length ∧ data.length ≤ bufSize)
    (hs : data ++ reads.flatten = u32Bytes bytes.length ++ (bytes ++ stream ms)) :
    Reader.run (.idle off) (data :: reads) =
        ⟨off + 4, bytes.length, bytes⟩ :: sentFrom (off + (bytes.length + 4)) ms ↔
      off + (bytes.length + 4) ∈ cuts List.length (off + data.length) reads ∧
        ∀ p ∈ placed Message.size (off + (bytes.length + 4)) ms,
          InStepAt off (data :: reads) p := by
  have hdoc := documentSize_notification h₅ (by omega) hs
  rw [run_idle_long (by omega) (by omega) hdata, hdoc]
  have hshift : off + (bytes.length + 4) ∈ cuts List.length (off + data.length) reads ↔
      bytes.length + 4 ∈ cuts List.length data.length reads := by
    simp only [mem_cuts_iff, Nat.add_assoc, Nat.add_left_cancel_iff]
  rw [hshift]
  have hne : data.length ≠ bytes.length + 4 := by omega
  rcases Reader.run_filling off (data.drop 4) hmax hne reads with
    ⟨fs, rest, rfl, hsum, hrun⟩ | ⟨hcut, hrun⟩
  · have hflat : (fs.map List.length).sum = fs.flatten.length := by rw [List.length_flatten]
    have hall : data ++ fs.flatten ++ rest.flatten =
        u32Bytes bytes.length ++ (bytes ++ stream ms) := by
      rw [← hs, List.flatten_append, List.append_assoc]
    have hlen : bytes.length + 4 = (data ++ fs.flatten).length := by
      rw [List.length_append, ← hflat, hsum]
    have hbytes : (data.drop 4 ++ fs.flatten).take bytes.length = bytes := by
      rw [← List.drop_append_of_le_length (by omega)]
      exact (take_drop_eq_iff hall (by omega)).2 hlen.le
    have hrest : rest.flatten = (stream ms).drop 0 := by
      have := congrArg (List.drop (bytes.length + 4)) hall
      rwa [List.drop_left' hlen.symm, ← List.append_assoc,
        List.drop_left' (by simp [Nat.add_comm])] at this
    have hcut : bytes.length + 4 ∈ cuts List.length data.length (fs ++ rest) :=
      mem_cuts_iff.2 ⟨fs, rest, rfl, hsum.symm⟩
    rw [hrun, Nat.add_sub_cancel, hbytes]
    simp only [List.cons.injEq, true_and, hcut]
    rw [ih (off + (bytes.length + 4)) (off + (bytes.length + 4)) rest le_rfl
      (fun d hd => hreads d (List.mem_append_right _ hd)) (by rwa [Nat.sub_self])]
    refine forall₂_congr fun p hp => ?_
    have hp' := le_of_mem_placed hp
    have hne' : ∀ f ∈ data :: fs, 0 < f.length := by
      rintro f (_ | ⟨_, hf⟩)
      · omega
      · exact (hreads f (List.mem_append_left _ hf)).1
    rw [← List.cons_append, inStepAt_append hne' (by simpa [hsum] using hp')]
    simp [hsum]
  · simp [hrun, hcut]

/-- **Delivery of a notification.** -/
theorem DeliveryIff.notification (ih : DeliveryIff ms) (hb : bytes.length < maxBytes) :
    DeliveryIff (.notification bytes :: ms) := by
  intro b off reads hle hreads hs
  rw [sentFrom_notification hb, placed_cons, List.forall_mem_cons, size_notification hb]
  rcases hle.eq_or_lt with rfl | hlt
  · rw [Nat.sub_self, List.drop_zero, stream_cons, respond_notification hb, List.append_assoc] at hs
    cases reads with
    | nil =>
      have hl := congrArg List.length hs
      simp only [List.flatten_nil, List.length_nil, List.length_append, length_u32Bytes] at hl
      omega
    | cons data reads =>
      rw [List.forall_mem_cons] at hreads
      rw [List.flatten_cons] at hs
      rw [inStepAt_notification hreads.1.1]
      -- a call that ends without a request leaves the notification behind
      have hmiss : documentSize data < 5 → Reader.run (.idle b) (data :: reads) ≠
          ⟨b + 4, bytes.length, bytes⟩ :: sentFrom (b + (bytes.length + 4)) ms := by
        intro hd h
        rw [run_idle_short hd] at h
        have := Reader.le_pos_of_mem_run (h ▸ List.mem_cons_self)
        have := hreads.1.1
        simp only at *
        omega
      by_cases h₅ : data.length < 5
      · refine iff_of_false (hmiss (by rwa [documentSize, if_pos h₅])) ?_
        rintro ⟨⟨hn, -, h⟩, -⟩
        split_ifs at h <;> omega
      · rw [not_lt] at h₅
        have hdoc := documentSize_notification h₅ hb hs
        by_cases hn : bytes.length = 0
        · exact iff_of_false (hmiss (by omega)) (by simp [hn])
        have hn' : 0 < bytes.length := Nat.pos_of_ne_zero hn
        by_cases hbuf : bytes.length + 4 ≤ bufSize
        · rw [delivery_fits ih hn' hbuf h₅ hreads.2 hs]
          have hmax : bytes.length + 4 < maxBytes := by
            unfold bufSize at hbuf
            unfold maxBytes
            omega
          simp [hn', hbuf, hmax]
        · by_cases hmax : bytes.length + 4 < maxBytes
          · rw [delivery_long ih (not_le.1 hbuf) hmax h₅ hreads.1.2 hreads.2 hs]
            simp [hn', hbuf, hmax, h₅]
          · -- the request is processed at once, with the bytes of the first read only
            refine iff_of_false ?_ fun h => hmax h.1.2.1
            rw [run_idle_whole (by omega) (.inr (by omega)), hdoc, Nat.add_sub_cancel]
            simp only [List.cons.injEq, Processed.mk.injEq, true_and,
              take_drop_eq_iff hs (by omega)]
            have := hreads.1.2
            omega
  · refine iff_of_false (fun h => ?_) fun h => ?_
    · have := Reader.le_pos_of_mem_run (h ▸ List.mem_cons_self)
      simp only at this
      omega
    · obtain ⟨-, -, r, hr, ho, -⟩ := h.1
      have := le_of_mem_placed hr
      omega

/-- A read of five bytes or more that begins inside a ping goes wrong: it takes a request from the
next ping, or misses the next notification. -/
theorem run_ne_of_long_ping (hle : b ≤ off) (hlt : off < b + 4) (h₅ : 5 ≤ data.length)
    (hsize : ∀ bytes, .notification bytes ∈ ms → bytes.length < maxBytes)
    (hs : data ++ reads.flatten = (pingBytes ++ stream ms).drop (off - b)) :
    Reader.run (.idle off) (data :: reads) ≠ sentFrom (b + 4) ms := by
  intro h
  cases ms with
  | nil =>
    have hl := congrArg List.length hs
    simp [stream, pingBytes] at hl
    omega
  | cons m ms =>
    cases m with
    | notification bytes =>
      rw [sentFrom_notification (hsize bytes List.mem_cons_self)] at h
      rcases Reader.pos_of_mem_run_cons Reader.pos_of_mem_run (h ▸ List.mem_cons_self) with
        hp | hp <;>
        simp only [Reader.start, Reader.off] at hp <;> omega
    | ping =>
      have hhuge := documentSize_pings (by omega) h₅ hs
      rw [run_idle_whole (by unfold maxBytes at hhuge; omega) (.inr hhuge), sentFrom_ping] at h
      have hp := pos_of_mem_sentFrom (h ▸ List.mem_cons_self)
      simp only at hp
      omega

/-- **Delivery around a ping.** -/
theorem DeliveryIff.ping (ih : DeliveryIff ms)
    (hsize : ∀ bytes, .notification bytes ∈ ms → bytes.length < maxBytes) :
    DeliveryIff (.ping :: ms) := by
  intro b off reads hle hreads hs
  rw [sentFrom_ping, placed_cons, List.forall_mem_cons, size_ping]
  -- the listener may read a ping in several pieces: induction on the reads
  induction reads generalizing off with
  | nil =>
    have hnil : (stream ms).drop (off - (b + 4)) = [] := by
      have := congrArg List.length hs
      simp [respond, pingBytes] at this
      simp
      omega
    by_cases hlt : off < b + 4
    · have hl := congrArg List.length hs
      simp [respond, pingBytes] at hl
      omega
    · rw [ih (b + 4) off [] (by omega) hreads hnil.symm]
      simp [InStepAt]
  | cons data reads ihr =>
    by_cases hlt : off < b + 4
    · rw [List.forall_mem_cons] at hreads
      rw [List.flatten_cons] at hs
      by_cases h₅ : data.length < 5
      · have hdoc : documentSize data < 5 := by rwa [documentSize, if_pos h₅]
        have hrest : reads.flatten = (stream (.ping :: ms)).drop (off + data.length - b) := by
          have := congrArg (List.drop data.length) hs
          rwa [List.drop_left, List.drop_drop, ← Nat.sub_add_comm hle] at this
        rw [run_idle_short hdoc, ihr (off + data.length) (by omega) hreads.2 hrest,
          inStepAt_ping_cons h₅]
        refine and_congr_right fun _ => forall₂_congr fun p hp => (inStepAt_cons ?_).symm
        have := le_of_mem_placed hp
        omega
      · refine iff_of_false (run_ne_of_long_ping hle hlt (not_lt.1 h₅) hsize hs) fun h => h₅ ?_
        exact h.1 (off, data) List.mem_cons_self hle hlt
    · -- the ping lies behind
      have hrest : (data :: reads).flatten = (stream ms).drop (off - (b + 4)) := by
        rw [hs, stream_cons, List.drop_append, List.drop_eq_nil_of_le, List.nil_append]
        · rw [Nat.sub_add_eq]
          rfl
        · change 4 ≤ off - b
          omega
      rw [ih (b + 4) off (data :: reads) (by omega) hreads hrest]
      refine (and_iff_right ?_).symm
      intro r hr _ hr'
      have := le_of_mem_placed hr
      omega

theorem deliveryIff (ms : List Message)
    (hsize : ∀ bytes, .notification bytes ∈ ms → bytes.length < maxBytes) : DeliveryIff ms := by
  induction ms with
  | nil => exact deliveryIff_nil
  | cons m ms ih =>
    have hms : ∀ bytes, .notification bytes ∈ ms → bytes.length < maxBytes :=
      fun bytes h => hsize bytes (List.mem_cons_of_mem _ h)
    cases m with
    | notification bytes => exact (ih hms).notification (hsize bytes List.mem_cons_self)
    | ping => exact (ih hms).ping hms

end

/-- **Exactly the notifications are processed if and only if the reads are in step with the
messages**, for every sequence of messages and every way of cutting their bytes into reads. -/
theorem notifications_delivered_iff (ms : List Message)
    (hsize : ∀ bytes, .notification bytes ∈ ms → bytes.length < 8 * 1024 * 1024)
    (reads : List (List UInt8)) (hreads : ∀ data ∈ reads, 0 < data.length ∧ data.length ≤ bufSize)
    (hstream : reads.flatten = stream ms) :
    Reader.run (.idle 0) reads = sent ms ↔ InStep ms reads :=
  deliveryIff ms hsize 0 0 reads le_rfl hreads (by simpa using hstream)

/-- A ping in two pieces, a notification with a ping behind it, and a notification of 130 bytes in
two reads are delivered. -/
theorem notifications_delivered_in_step :
    let long := List.replicate 130 (7 : UInt8)
    let ms : List Message := [.ping, .notification [1, 2, 3], .ping, .notification long]
    let reads := [[112, 105], [110, 103], respond (.notification [1, 2, 3]) ++ pingBytes,
      u32Bytes 130 ++ long.take 100, long.drop 100]
    InStep ms reads ∧ Reader.run (.idle 0) reads = sent ms := by
  intro long ms reads
  have h : InStep ms reads := by decide +kernel
  refine ⟨h, (notifications_delivered_iff ms ?_ reads (by decide) (by decide)).2 h⟩
  intro bytes hb
  have hb' : bytes = [1, 2, 3] ∨ bytes = long := by simpa [ms] using hb
  rcases hb' with rfl | rfl <;> simp [long]

/-- **Joined messages are not delivered.**  Of two pings in one read, the second is processed as a
request; of two notifications in one read, the second is not processed at all. -/
theorem joined_messages_not_delivered :
    let pings : List Message := [.ping, .ping]
    let notes : List Message := [.notification [1, 2], .notification [3, 4]]
    (sent pings = [] ∧ Reader.run (.idle 0) [stream pings] = [⟨4, 1735289200, pingBytes⟩]) ∧
      sent notes = [⟨4, 2, [1, 2]⟩, ⟨10, 2, [3, 4]⟩] ∧
      Reader.run (.idle 0) [stream notes] = [⟨4, 2, [1, 2]⟩] := by
  decide

end ConfigDb
