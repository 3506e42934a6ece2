import ConfigDb.Effect.Interleave
import ConfigDb.Storage.Expiry

/-!
# The expiry sweep beside a client

`clearExpired` runs on a thread of its own and does not take the mutex of the store: the line that
would is commented out in the source.  Its database calls interleave freely with those of a `set`,
`remove` or `move`, which holds the mutex.  Both read tree nodes, change them and write them back as
a whole, and a lookup takes no lock.

## Main results

* `sweep_drops_child` : the sweep reads the node of `/`; a `set` adds a child to it and commits; the
  sweep writes the node it has read, without that child.
* `sweep_serialisable` : if no commit writes a location that the other call has read before it, and
  no write gives up waiting for a lock, then the columns are those of the two calls one after the
  other.
-/

namespace ConfigDb

open Std Database

/-- The two threads at work: `true` is the client, `false` the sweep. -/
abbrev Threads := Machine Bytes Column.Value ProcOp.Res Local Answer

/-- The client is about to make the call `c`, and the sweep is about to begin. -/
def Threads.start (cfg : Config) (priv : Bool → Local) (c : Call) (cols : Columns) : Threads :=
  ⟨cols, fun i => .start (((if i then c else .clearExpired) : Call).prog cfg) (priv i)⟩

/-- The threads after the turns of a schedule, each in its own environment. -/
def Threads.after (env : Bool → Env) (ts : List Turn) (m : Threads) : Option Threads :=
  m.run (fun i => ProcOp.handle (env i)) ts

/-- No turn of the schedule gives up waiting for a lock, or commits a location that the other
thread, still before its own commit, has read. -/
def Threads.Undisturbed (env : Bool → Env) (ts : List Turn) (m : Threads) : Prop :=
  Machine.Undisturbed (fun i => ProcOp.handle (env i)) ts m

instance (env : Bool → Env) (ts : List Turn) (m : Threads) : Decidable (m.Undisturbed env ts) :=
  inferInstanceAs (Decidable (Machine.Undisturbed (fun i => ProcOp.handle (env i)) ts m))

/-- The columns after a call that runs alone from the columns `cols`. -/
def Call.alone (env : Env) (cfg : Config) (priv : Local) (c : Call) (cols : Columns) : Columns :=
  (execIdeal env (c.prog cfg) (⟨cols, cols⟩, priv)).2.1.committed

theorem Call.alone_eq_next {env : Env} (henv : env.Reliable) (cfg : Config) (c : Call) {s : Db}
    (hs : s.1.pending = []) :
    c.alone env cfg s.2 s.columns = (c.next env cfg s).columns := by
  have hi : s.ideal = (⟨s.columns, s.columns⟩, s.2) := by
    simp [Db.ideal, TxnDb.ideal, TxnDb.view, hs]
  have hn := (exec_ideal henv (c.prog cfg) s).2
  rw [hi] at hn
  rw [Call.alone, ← hn]
  rfl

/-! ### Every call commits at most once -/

theorem Op.Reads.noCommit : ∀ e : DbOp, e.Reads → e.NoCommit
  | .store o => by cases o <;> simp [Op.Reads, Op.NoCommit]
  | .own _ => fun _ => trivial

theorem Op.Inside.noCommit : ∀ e : DbOp, e.Inside → e.NoCommit
  | .store o => by cases o <;> simp [Op.Inside, Op.NoCommit]
  | .own _ => fun _ => trivial

section

variable {cfg : Config}

theorem commitIf_commitsOnce (saved : Bool) : CommitsOnce (commitIf saved) := by
  cases saved with
  | true => exact fun _ => trivial
  | false => exact trivial

theorem withTxn_commitsOnce {work : DbProg Bool} (hw : work.Only Op.Inside) :
    CommitsOnce (withTxn work) :=
  .bind (only_callStore trivial) fun _ => .bind (hw.mono Op.Inside.noCommit) fun _ =>
    .bind_only (commitIf_commitsOnce _) fun _ => .bind (only_callStore trivial) fun _ => trivial

theorem withMutex_commitsOnce {α : Type} {p : DbProg α} (hp : CommitsOnce p) :
    CommitsOnce (withMutex cfg true p) :=
  .bind (only_ite (only_callStore trivial) trivial) fun _ => .bind_only hp fun _ =>
    .bind (only_ite (only_callStore trivial) trivial) fun _ => trivial

theorem clearExpired_commitsOnce : CommitsOnce (clearExpired cfg) := by
  refine .bind (only_callOwn trivial) fun _ => .bind (only_callStore trivial) fun _ =>
    .bind (only_callOwn trivial) fun _ => .bind (only_callStore trivial) fun _ =>
    .bind ((collect_reads _).mono Op.Reads.noCommit) fun _ =>
    .bind (only_callOwn trivial) fun b => ?_
  cases b with
  | true => exact .of_only (only_callStore trivial)
  | false =>
    exact .bind ((sweep_inside cfg _).mono Op.Inside.noCommit) fun _ =>
      .bind_only (fun _ => trivial) fun _ => only_callStore trivial

theorem CommitsOnce.map {α β : Type} {p : DbProg α} (hp : CommitsOnce p) (f : α → β) :
    CommitsOnce (f <$> p) := by
  rw [← bind_pure_comp]
  exact .bind_only hp fun _ => trivial

theorem Call.commitsOnce (cfg : Config) (c : Call) : CommitsOnce (c.prog cfg) := by
  rcases c.prog_cases cfg with hr | ⟨-, work, hw, hp⟩ | rfl
  · exact .of_only (hr.mono Op.Reads.noCommit)
  · rw [hp]
    exact (withMutex_commitsOnce (withTxn_commitsOnce hw)).map _
  · exact clearExpired_commitsOnce.map _

end

/-! ### Serialisability -/

/-- **The expiry sweep is serialisable with a client call**, along every schedule without a
disturbed turn: when both have returned, the columns are those after the client call and then the
sweep, or after the sweep and then the client call. -/
theorem sweep_serialisable (env : Bool → Env) (cfg : Config) (priv : Bool → Local) (cols : Columns)
    (c : Call) (ts : List Turn) (m : Threads)
    (hu : Threads.Undisturbed env ts (.start cfg priv c cols))
    (hrun : Threads.after env ts (.start cfg priv c cols) = some m)
    (hret : ∀ i, (m.proc i).finished = true) :
    m.committed = Call.clearExpired.alone (env false) cfg (priv false)
        (c.alone (env true) cfg (priv true) cols) ∨
      m.committed = c.alone (env true) cfg (priv true)
        (Call.clearExpired.alone (env false) cfg (priv false) cols) := by
  obtain ⟨i, hc, -⟩ := Machine.run_serial priv cols (fun _ => Call.commitsOnce cfg _) hu hrun hret
  cases i with
  | true => exact .inl hc
  | false => exact .inr hc

/-- The sweep makes `n` calls, then the client makes `k` calls, then the sweep makes `n'` calls. -/
def sweepClientSweep (n k n' : ℕ) : List Turn :=
  .replicate n ⟨false, false⟩ ++ .replicate k ⟨true, false⟩ ++ .replicate n' ⟨false, false⟩

/-- What the two runs below are looked at for: which threads have returned, the value of `/b`, and
the node of `/`. -/
def Threads.observe (m : Threads) : Bool × Bool × Option Bytes × Option Node :=
  ((m.proc false).finished, (m.proc true).finished, m.committed.get .data [47, 98],
    m.committed.get .forrest [47])

/-- A store in which `/a` is due and `/c` is there to stay. -/
def dueAndLasting : Db :=
  runCalls (.reliable tickingClock) (.plain false) (Db.init 1)
    [.set ⟨[47, 97], [1], { expirationInSeconds := 1 }⟩, .set ⟨[47, 99], [2], {}⟩]

/-- The sweep has deleted the value of `/a`, but has not yet read a tree node, when the client sets
`/b`: the run is undisturbed, and `/` ends with the children `b` and `c`. -/
theorem sweep_serialisable_before_tree :
    let env := fun _ : Bool => Env.reliable tickingClock
    let s := dueAndLasting
    let c : Call := .set ⟨[47, 98], [3], {}⟩
    ∃ m, Threads.after env (sweepClientSweep 8 9 7)
        (.start (.plain false) (fun _ => s.2) c s.columns) = some m ∧
      (m.committed = Call.clearExpired.alone (env false) (.plain false) s.2
          (c.alone (env true) (.plain false) s.2 s.columns) ∨
        m.committed = c.alone (env true) (.plain false) s.2
          (Call.clearExpired.alone (env false) (.plain false) s.2 s.columns)) ∧
      m.committed.get .forrest [47] = some ⟨[[98], [99]]⟩ := by
  intro env s c
  have hobs : (Threads.after env (sweepClientSweep 8 9 7)
      (.start (.plain false) (fun _ => s.2) c s.columns)).map Threads.observe =
        some (true, true, some [3], some ⟨[[98], [99]]⟩) := by decide +kernel
  have hu : Threads.Undisturbed env (sweepClientSweep 8 9 7)
      (.start (.plain false) (fun _ => s.2) c s.columns) := by decide +kernel
  obtain ⟨m, hrun, hm⟩ := Option.map_eq_some_iff.1 hobs
  obtain ⟨hf, ht, -, hnode⟩ : _ ∧ _ ∧ _ ∧ _ := by simpa [Threads.observe] using hm
  exact ⟨m, hrun, sweep_serialisable env (.plain false) (fun _ => s.2) s.columns c
    (sweepClientSweep 8 9 7) m hu hrun (Bool.forall_bool.2 ⟨hf, ht⟩), hnode⟩

/-- **The sweep drops a child that a concurrent `set` has added.**  The sweep deletes `/a` and reads
the node of `/`; the client sets `/b`, and its commit adds `b` to that node; the sweep writes the
node back without `a` and without `b`.  Whichever of the two calls goes first, alone they would
leave `b` and `c` listed. -/
theorem sweep_drops_child :
    let env := fun _ : Bool => Env.reliable tickingClock
    let s := dueAndLasting
    let c : Call := .set ⟨[47, 98], [3], {}⟩
    ∃ m, Threads.after env (sweepClientSweep 10 9 5)
        (.start (.plain false) (fun _ => s.2) c s.columns) = some m ∧
      (∀ i, (m.proc i).finished = true) ∧
      m.committed.get .data [47, 98] = some [3] ∧
      m.committed.get .forrest [47] = some ⟨[[99]]⟩ ∧
      m.committed ≠ Call.clearExpired.alone (env false) (.plain false) s.2
        (c.alone (env true) (.plain false) s.2 s.columns) ∧
      m.committed ≠ c.alone (env true) (.plain false) s.2
        (Call.clearExpired.alone (env false) (.plain false) s.2 s.columns) := by
  intro env s c
  have hobs : (Threads.after env (sweepClientSweep 10 9 5)
      (.start (.plain false) (fun _ => s.2) c s.columns)).map Threads.observe =
        some (true, true, some [3], some ⟨[[99]]⟩) := by decide
  obtain ⟨m, hrun, hm⟩ := Option.map_eq_some_iff.1 hobs
  obtain ⟨hf, ht, hdata, hnode⟩ : _ ∧ _ ∧ _ ∧ _ := by simpa [Threads.observe] using hm
  refine ⟨m, hrun, Bool.forall_bool.2 ⟨hf, ht⟩, hdata, hnode, fun h => ?_, fun h => ?_⟩
  · rw [h] at hnode
    revert hnode
    decide
  · rw [h] at hnode
    revert hnode
    decide

end ConfigDb
