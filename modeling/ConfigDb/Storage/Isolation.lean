import ConfigDb.Storage.Concurrency

/-!
# Two calls without the mutex

With `storage.useMutex` switched off, the calls of two clients interleave database call by database
call, each on a transaction of its own.  A lookup takes no lock and sees the last committed value; a
write takes the lock of its key, which is held until the transaction ends.  The check for
`ifNotExists` and the update of a tree node are lookups followed by a write, so what was looked up
may have been overwritten by then.

The process has one value cache, and both calls put their values into it before they commit.  A call
that looks a value up may find there what is not committed yet; the calls that change the store
never look into it.

## Main results

* `lost_updates_without_mutex` : two calls with `ifNotExists` that both succeed, two keys of which
  one is no longer listed, and a call that gives up waiting for a lock.
* `calls_serialisable` : as long as no commit writes a location that the other call has read before
  it, and no write gives up waiting for a lock, the answers and the columns of two calls that change
  the store are those of the two calls one after the other.
-/

namespace ConfigDb

open Std Database

/-- The state of a process, with another value cache. -/
def Local.withCache (l : Local) (cache : ExtTreeMap Bytes Bytes) : Local :=
  { l with valueCache := cache }

/-- Two clients of a process are about to make their calls.  The value cache is that of the process;
each of them reads the clock and asks for encrypters on its own. -/
def Threads.pair (cfg : Config) (priv : Bool → Local) (cache : ExtTreeMap Bytes Bytes)
    (c : Bool → Call) (cols : Columns) : Threads :=
  ⟨cols, fun i => .start ((c i).prog cfg) ((priv i).withCache cache)⟩

/-- Both clients find the value cache as the client `i` has left it. -/
def Threads.share (i : Bool) (m : Threads) : Threads where
  committed := m.committed
  proc j := { m.proc j with priv := (m.proc j).priv.withCache (m.proc i).priv.valueCache }

/-- One call of one of two clients that share the value cache. -/
def Threads.pairStep (env : Bool → Env) (t : Turn) (m : Threads) : Option Threads :=
  (m.step (fun i => ProcOp.handle (env i)) t).map (Threads.share t.proc)

/-- Two clients that share the value cache, after the turns of a schedule. -/
def Threads.pairRun (env : Bool → Env) : List Turn → Threads → Option Threads
  | [], m => some m
  | t :: ts, m => (m.pairStep env t).bind (pairRun env ts)

/-- No turn of the schedule gives up waiting for a lock, or commits a location that the other
client, still before its own commit, has read. -/
def Threads.PairUndisturbed (env : Bool → Env) : List Turn → Threads → Prop
  | [], _ => True
  | t :: ts, m => m.Clear t ∧ ∀ m' ∈ m.pairStep env t, PairUndisturbed env ts m'

instance Threads.decidablePairUndisturbed (env : Bool → Env) :
    ∀ (ts : List Turn) (m : Threads), Decidable (PairUndisturbed env ts m)
  | [], _ => isTrue trivial
  | t :: ts, m =>
    haveI : DecidablePred (PairUndisturbed env ts) := decidablePairUndisturbed env ts
    inferInstanceAs (Decidable (m.Clear t ∧ ∀ m' ∈ m.pairStep env t, PairUndisturbed env ts m'))

/-- The answer of a call that runs alone from the columns `cols`. -/
def Call.aloneAnswer (env : Env) (cfg : Config) (l : Local) (c : Call) (cols : Columns) : Answer :=
  (execIdeal env (c.prog cfg) (⟨cols, cols⟩, l)).1

/-- The value cache that a call leaves that runs alone from the columns `cols`. -/
def Call.aloneCache (env : Env) (cfg : Config) (l : Local) (c : Call) (cols : Columns) :
    ExtTreeMap Bytes Bytes :=
  (execIdeal env (c.prog cfg) (⟨cols, cols⟩, l)).2.2.valueCache

/-! ### Calls that do not look into the value cache -/

/-- A call other than a lookup in the value cache. -/
def Op.Unseeing : DbOp → Prop
  | .own (.cacheFind _) => False
  | _ => True

theorem Op.Inside.unseeing : ∀ e : DbOp, e.Inside → e.Unseeing
  | .store _ => fun _ => trivial
  | .own x => by cases x <;> simp [Op.Inside, Op.Unseeing]

theorem Call.unseeing (cfg : Config) {c : Call} (hc : c.Mutates) :
    (c.prog cfg).Only Op.Unseeing := by
  rcases c.prog_of_mutates cfg hc with hp | ⟨work, hw, hp⟩
  · rw [hp]
    trivial
  · have hcommit (saved : Bool) : (commitIf saved).Only Op.Unseeing :=
      only_ite (only_callStore trivial) trivial
    have htxn : (Database.withTxn work).Only Op.Unseeing :=
      .bind (only_callStore trivial) fun _ => .bind (hw.mono Op.Inside.unseeing) fun _ =>
        .bind (hcommit _) fun _ => .bind (only_callStore trivial) fun _ => trivial
    rw [hp]
    exact Only.map _ <| .bind (only_ite (only_callStore trivial) trivial) fun _ =>
      .bind htxn fun _ => .bind (only_ite (only_callStore trivial) trivial) fun _ => trivial

/-- Answer the calls of the storage code to its own process, which keeps no value cache. -/
def ProcOp.handleUncached (env : Env) : (x : ProcOp) → Local → x.Res × Local
  | .cacheFind _, l => (none, l)
  | .cachePut _ _, l => ((), l)
  | .cacheErase _, l => ((), l)
  | .now, l => ProcOp.handle env .now l
  | .stop, l => ProcOp.handle env .stop l
  | .acquireEncrypter, l => ProcOp.handle env .acquireEncrypter l

theorem ProcOp.handle_uncached (env : Env) {x : ProcOp}
    (hx : Op.Unseeing (.own x : DbOp)) (l : Local) :
    (x.handle env l).1 = (x.handleUncached env (l.withCache ∅)).1 ∧
      (x.handle env l).2.withCache ∅ = (x.handleUncached env (l.withCache ∅)).2 := by
  cases x with
  | cacheFind k => exact hx.elim
  | _ => exact ⟨rfl, rfl⟩

/-- The states differ only in the value cache, which the second one does not have. -/
def SameUncached (s t : IdealDb) : Prop := s.1 = t.1 ∧ s.2.withCache ∅ = t.2

theorem execIdeal_uncached (env : Env) {p : DbProg Answer} (hp : p.Only Op.Unseeing)
    (d : TxnView Bytes Column.Value) (l : Local) :
    (execIdeal env p (d, l)).1 = (Prog.run (Op.handle TxnOp.ideal (ProcOp.handleUncached env)) p
        (d, l.withCache ∅)).1 ∧
      (execIdeal env p (d, l)).2.1 = (Prog.run (Op.handle TxnOp.ideal (ProcOp.handleUncached env)) p
        (d, l.withCache ∅)).2.1 := by
  have hstart : SameUncached (d, l) (d, l.withCache ∅) := ⟨rfl, rfl⟩
  have hstep (e : DbOp) (s t : IdealDb) (he : e.Unseeing) (hst : SameUncached s t) :
      (Op.handle TxnOp.ideal (ProcOp.handle env) e s).1 =
          (Op.handle TxnOp.ideal (ProcOp.handleUncached env) e t).1 ∧
        SameUncached (Op.handle TxnOp.ideal (ProcOp.handle env) e s).2
          (Op.handle TxnOp.ideal (ProcOp.handleUncached env) e t).2 := by
    obtain ⟨d, l⟩ := s
    obtain ⟨d', l'⟩ := t
    obtain ⟨rfl, rfl⟩ := hst
    cases e with
    | store o => exact ⟨rfl, rfl, rfl⟩
    | own x =>
      obtain ⟨h₁, h₂⟩ := ProcOp.handle_uncached env he l
      exact ⟨h₁, rfl, h₂⟩
  obtain ⟨ha, hd, -⟩ := hp.run_sim hstep hstart
  exact ⟨ha, hd⟩

/-! ### The clients without the value cache -/

namespace Threads

/-- A client, with nothing in the value cache. -/
def uncachedProc (P : Proc Bytes Column.Value ProcOp.Res Local Answer) :
    Proc Bytes Column.Value ProcOp.Res Local Answer :=
  { P with priv := P.priv.withCache ∅ }

/-- The clients, with nothing in the value cache. -/
def uncached (m : Threads) : Threads := ⟨m.committed, fun i => uncachedProc (m.proc i)⟩

/-- The clients never look into the value cache. -/
def Unseeing (m : Threads) : Prop := ∀ i, (m.proc i).prog.Only Op.Unseeing

variable {env : Bool → Env} {m m' : Threads}

theorem uncached_update (st : Columns) (m : Threads) (i : Bool)
    (P : Proc Bytes Column.Value ProcOp.Res Local Answer) :
    uncached ⟨st, Function.update m.proc i P⟩ =
      ⟨st, Function.update m.uncached.proc i (uncachedProc P)⟩ := by
  simp only [uncached, Machine.mk.injEq, true_and]
  funext j
  by_cases hj : j = i
  · subst hj
    simp
  · simp [hj]

/-- A turn of clients that do not look into the value cache is one of clients without. -/
theorem pairStep_uncached (hm : m.Unseeing) (t : Turn) :
    (m.pairStep env t).map uncached =
      m.uncached.step (fun i => ProcOp.handleUncached (env i)) t := by
  have hshare (m' : Threads) : uncached (share t.proc m') = uncached m' := rfl
  have hprog : (m.uncached.proc t.proc).prog = (m.proc t.proc).prog := rfl
  have hun := hm t.proc
  simp only [pairStep, Option.map_map, Function.comp_def, hshare, Machine.step]
  rw [hprog]
  cases hp : (m.proc t.proc).prog with
  | ret a => rfl
  | call e k =>
    cases e with
    | own x =>
      rw [hp] at hun
      obtain ⟨h₁, h₂⟩ := ProcOp.handle_uncached (env t.proc) hun.1 (m.proc t.proc).priv
      have hafter : uncachedProc ((m.proc t.proc).afterOwn (ProcOp.handle (env t.proc)) x k) =
          (m.uncached.proc t.proc).afterOwn (ProcOp.handleUncached (env t.proc)) x k := by
        simp only [uncachedProc, Proc.afterOwn, h₂, uncached]
        rw [h₁]
      simp only [Option.map_some, uncached_update, hafter]
      rfl
    | store o =>
      have hmay : (m.uncached.proc !t.proc).mayCall (.store o : DbOp) =
          (m.proc !t.proc).mayCall (.store o : DbOp) := rfl
      simp only [hmay]
      split_ifs
      · simp only [Option.map_some, uncached_update]
        rfl
      · simp only [Option.map_map, Function.comp_def, uncached_update]
        rfl
      · rfl

theorem Unseeing.pairStep (hm : m.Unseeing) {t : Turn} (h : m.pairStep env t = some m') :
    m'.Unseeing := by
  obtain ⟨m₁, h₁, rfl⟩ := Option.map_eq_some_iff.1 h
  intro j
  have hun := hm t.proc
  change (m₁.proc j).prog.Only Op.Unseeing
  -- only the program of the client whose turn it is has changed, to the rest of it
  have hupdate {st : Columns} {P : Proc Bytes Column.Value ProcOp.Res Local Answer}
      (hP : P.prog.Only Op.Unseeing) :
      ((⟨st, Function.update m.proc t.proc P⟩ : Threads).proc j).prog.Only Op.Unseeing := by
    by_cases hj : j = t.proc
    · subst hj
      simpa using hP
    · simpa [hj] using hm j
  unfold Machine.step at h₁
  cases hp : (m.proc t.proc).prog with
  | ret a => simp [hp] at h₁
  | call e k =>
    rw [hp] at hun
    cases e with
    | own x =>
      simp only [hp, Option.some.injEq] at h₁
      subst h₁
      exact hupdate (hun.2 _)
    | store o =>
      simp only [hp] at h₁
      split_ifs at h₁
      · obtain rfl := Option.some.inj h₁
        exact hupdate (hun.2 _)
      · obtain ⟨r, -, rfl⟩ := Option.map_eq_some_iff.1 h₁
        exact hupdate (hun.2 _)

theorem pairRun_uncached (hm : m.Unseeing) {ts : List Turn} (hu : m.PairUndisturbed env ts)
    (hr : m.pairRun env ts = some m') :
    Machine.Undisturbed (fun i => ProcOp.handleUncached (env i)) ts m.uncached ∧
      m.uncached.run (fun i => ProcOp.handleUncached (env i)) ts = some m'.uncached := by
  induction ts generalizing m with
  | nil =>
    obtain rfl := Option.some.inj hr
    exact ⟨trivial, rfl⟩
  | cons t ts ih =>
    obtain ⟨m₁, hs, hr⟩ := Option.bind_eq_some_iff.1 hr
    have hs' : (m.pairStep env t).map uncached = _ := pairStep_uncached hm t
    rw [hs, Option.map_some, eq_comm] at hs'
    obtain ⟨hu', hr'⟩ := ih (hm.pairStep hs) (hu.2 m₁ hs) hr
    refine ⟨⟨⟨hu.1.patient, hu.1.unread⟩, fun m₂ hm₂ => ?_⟩, ?_⟩
    · obtain rfl := Option.some.inj (hs'.symm.trans hm₂)
      exact hu'
    · rw [Machine.run, hs']
      exact hr'

end Threads

/-- **Two calls that change the store are serialisable along every undisturbed schedule**, with or
without the mutex: when both have returned, the columns and what the calls have returned are those
of call `i` and then the other one, for one of the two `i`; the other one then begins with the value
cache that call `i` has left. -/
theorem calls_serialisable (env : Bool → Env) (cfg : Config) (priv : Bool → Local)
    (cache : ExtTreeMap Bytes Bytes) (cols : Columns) (c : Bool → Call) (hc : ∀ i, (c i).Mutates)
    (ts : List Turn) (m : Threads)
    (hu : Threads.PairUndisturbed env ts (.pair cfg priv cache c cols))
    (hrun : Threads.pairRun env ts (.pair cfg priv cache c cols) = some m)
    (hret : ∀ i, (m.proc i).finished = true) :
    ∃ i,
      let l := (priv i).withCache cache
      let cols' := (c i).alone (env i) cfg l cols
      let l' := (priv !i).withCache ((c i).aloneCache (env i) cfg l cols)
      m.committed = (c !i).alone (env !i) cfg l' cols' ∧
        (m.proc i).returned = some ((c i).aloneAnswer (env i) cfg l cols) ∧
        (m.proc !i).returned = some ((c !i).aloneAnswer (env !i) cfg l' cols') := by
  have hun : (Threads.pair cfg priv cache c cols).Unseeing := fun i => Call.unseeing cfg (hc i)
  obtain ⟨hu', hrun'⟩ := Threads.pairRun_uncached hun hu hrun
  obtain ⟨i, hcols, ha⟩ := Machine.run_serial (fun i => (priv i).withCache ∅) cols
    (fun _ => Call.commitsOnce cfg _) hu' hrun' hret
  -- what the calls do alone does not depend on the value cache either
  have hone (j : Bool) (vc : ExtTreeMap Bytes Bytes) (cols : Columns) :=
    execIdeal_uncached (env j) (Call.unseeing cfg (hc j)) ⟨cols, cols⟩ ((priv j).withCache vc)
  have halone (j : Bool) (vc : ExtTreeMap Bytes Bytes) (cols : Columns) :
      (c j).alone (env j) cfg ((priv j).withCache vc) cols =
        (Proc.start ((c j).prog cfg) ((priv j).withCache ∅)).result
          (ProcOp.handleUncached (env j)) cols :=
    congrArg TxnView.committed (hone j vc cols).2
  have hanswer (j : Bool) (vc : ExtTreeMap Bytes Bytes) (cols : Columns) :
      (c j).aloneAnswer (env j) cfg ((priv j).withCache vc) cols =
        ((Proc.start ((c j).prog cfg) ((priv j).withCache ∅)).outcome
          (ProcOp.handleUncached (env j)) cols).1 := by
    rw [Call.aloneAnswer, (hone j vc cols).1]
    rfl
  have hi := ha i
  have hother := ha !i
  rw [Machine.serialReturn, if_pos rfl] at hi
  rw [Machine.serialReturn, if_neg (by simp)] at hother
  refine ⟨i, ?_, ?_, ?_⟩
  · rw [halone, halone]
    exact hcols
  · rw [hanswer]
    exact hi
  · rw [hanswer, halone]
    exact hother

/-! ### Runs along a few schedules -/

/-- The configuration without the mutex and, for a cipher, the identity. -/
def Config.noMutex : Config := { Config.plain false with useMutex := false }

/-- The clients take turns: `n` calls of the client `i`, and so on. -/
def takeTurns (ts : List (Bool × ℕ)) : List Turn :=
  ts.flatMap fun t => .replicate t.2 ⟨t.1, false⟩

/-- What the runs below are looked at for: what the clients have returned, and the node of `/`. -/
def Threads.answers (m : Threads) : Option Answer × Option Answer × Option Node :=
  ((m.proc false).returned, (m.proc true).returned, m.committed.get .forrest [47])

/-- The client `true` has put the value of `/b`, but has not yet read a tree node, when the client
`false` sets `/a`: the run is undisturbed, both clients succeed, and `/` lists both keys. -/
theorem calls_serialisable_before_tree :
    let env := fun _ : Bool => Env.reliable tickingClock
    let c : Bool → Call := fun i => .set ⟨[47, if i then 98 else 97], [1], {}⟩
    let start := Threads.pair .noMutex (fun _ => (Db.init 1).2) ∅ c Store.empty
    ∃ m, Threads.pairRun env (takeTurns [(true, 3), (false, 7), (true, 4)]) start = some m ∧
      m.answers = (some (.bool true), some (.bool true), some ⟨[[97], [98]]⟩) ∧
      ∃ i, m.committed = (c !i).alone (env !i) .noMutex ((Db.init 1).2.withCache ((c i).aloneCache
          (env i) .noMutex (Db.init 1).2 Store.empty))
        ((c i).alone (env i) .noMutex (Db.init 1).2 Store.empty) := by
  intro env c start
  have hobs : (Threads.pairRun env (takeTurns [(true, 3), (false, 7), (true, 4)]) start).map
      (fun m => (m.answers, (m.proc false).finished, (m.proc true).finished)) =
        some ((some (.bool true), some (.bool true), some ⟨[[97], [98]]⟩), true, true) := by
    decide +kernel
  have hu : Threads.PairUndisturbed env (takeTurns [(true, 3), (false, 7), (true, 4)]) start := by
    decide +kernel
  obtain ⟨m, hrun, hm⟩ := Option.map_eq_some_iff.1 hobs
  obtain ⟨hans, hf, ht⟩ : _ ∧ _ ∧ _ := by simpa using hm
  obtain ⟨i, hc, -⟩ := calls_serialisable env .noMutex (fun _ => (Db.init 1).2) ∅ Store.empty c
    (fun _ => trivial) _ m hu hrun (Bool.forall_bool.2 ⟨hf, ht⟩)
  exact ⟨m, hrun, hans, i, hc⟩

/-- **Without the mutex calls are not serialisable.**  Two calls set `/a` if it does not exist, both
look it up before either writes, and both succeed; one after the other, the second would fail.  Two
calls set `/a` and `/b`, and both read the node of `/` before either writes it; both succeed, but
`/` lists only one of them.  Two calls set `/a`, and the second gives up waiting for the lock. -/
theorem lost_updates_without_mutex :
    let env := Env.reliable tickingClock
    let start := fun c => Threads.pair .noMutex (fun _ => (Db.init 1).2) ∅ c Store.empty
    let alone := fun c : Call => c.alone env .noMutex (Db.init 1).2
    let answer := fun c : Call => c.aloneAnswer env .noMutex (Db.init 1).2
    let fresh : Call := .set ⟨[47, 97], [1], { ifNotExists := true }⟩
    let sibling : Bool → Call := fun i => .set ⟨[47, if i then 98 else 97], [1], {}⟩
    let plain : Call := .set ⟨[47, 97], [1], {}⟩
    ((Threads.pairRun (fun _ => env) (takeTurns [(false, 3), (true, 3), (false, 5), (true, 4)])
        (start fun _ => fresh)).map Threads.answers =
          some (some (.bool true), some (.bool true), some ⟨[[97]]⟩) ∧
      answer fresh (alone fresh Store.empty) = .bool false) ∧
    ((Threads.pairRun (fun _ => env) (takeTurns [(false, 4), (true, 4), (false, 3), (true, 3)])
        (start sibling)).map Threads.answers =
          some (some (.bool true), some (.bool true), some ⟨[[98]]⟩) ∧
      ∀ i, (alone (sibling !i) (alone (sibling i) Store.empty)).get .forrest [47] =
        some ⟨[[97], [98]]⟩) ∧
    ((Threads.pairRun (fun _ => env) (takeTurns [(false, 3), (true, 2)] ++ [⟨true, true⟩] ++
        takeTurns [(true, 2), (false, 4)]) (start fun _ => plain)).map Threads.answers =
          some (some (.bool true), some (.bool false), some ⟨[[97]]⟩) ∧
      answer plain (alone plain Store.empty) = .bool true) := by
  decide +kernel

end ConfigDb
