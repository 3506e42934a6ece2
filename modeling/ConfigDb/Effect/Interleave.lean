import ConfigDb.Effect.Txn

/-!
# Two programs on one database, interleaved call by call

Two processes run a program each, every one on a transaction of its own, and a schedule says whose
call comes next.  A lookup sees the committed store and the process's own pending writes and takes
no lock; a put or delete waits while the other transaction holds the lock on its key, or gives up if
the schedule says so; taking the mutex waits while the other process holds it.  No other call fails.

When a process commits, what the other one has read so far may no longer be true.  If it has read
nothing that the commit writes, then its run so far is also a run over the new committed store, and
the two processes are serialised in the order in which they commit.

## Main definitions

* `Machine`, `Machine.step`, `Machine.run` : the two processes and their runs along a schedule.
* `Machine.Undisturbed` : no commit of a run writes a location that the other process, still at
  work, has read.
* `Machine.serial i`, `Machine.serialReturn i` : the committed store after process `i` and then the
  other one, each on its own, and what they return.

## Main result

* `Machine.run_serial` : an undisturbed run of two programs that commit at most once ends with the
  committed store and the answers of one of the two serial runs.
-/

namespace ConfigDb

open Std

variable {C K : Type} {V : C → Type} {X : Type} {RX : X → Type} {τ α : Type}

/-! ### Footprints -/

/-- What a call reads of the store. -/
inductive Footprint (C K : Type)
  /-- One location. -/
  | loc (l : C × K)
  /-- The locations of a column below a key. -/
  | below (c : C) (hi : K)
  deriving DecidableEq

/-- The location belongs to the footprint. -/
def Footprint.Covers [Ord K] : Footprint C K → C × K → Prop
  | .loc l', l => l = l'
  | .below c hi, l => l.1 = c ∧ compare l.2 hi = .lt

instance [Ord K] [DecidableEq C] [DecidableEq K] :
    ∀ (f : Footprint C K) (l : C × K), Decidable (f.Covers l)
  | .loc l', l => inferInstanceAs (Decidable (l = l'))
  | .below c hi, l => inferInstanceAs (Decidable (l.1 = c ∧ compare l.2 hi = .lt))

/-- What a database call reads of the store. -/
def TxnOp.footprint : TxnOp K V → List (Footprint C K)
  | .get c k => [.loc (c, k)]
  | .read c k => [.loc (c, k)]
  | .scan c hi => [.below c hi]
  | _ => []

/-- A call other than a commit. -/
def Op.NoCommit : Op K V X → Prop
  | .store .commit => False
  | _ => True

/-- A call that neither commits nor reads the store. -/
def Op.Blind : Op K V X → Prop
  | .store .commit => False
  | .store (.get _ _) => False
  | .store (.read _ _) => False
  | .store (.scan _ _) => False
  | _ => True

theorem Op.Blind.noCommit : ∀ e : Op K V X, e.Blind → e.NoCommit
  | .store o => by cases o <;> simp [Op.Blind, Op.NoCommit]
  | .own _ => fun _ => trivial

/-- The program commits at most once, and neither reads nor commits after that. -/
def CommitsOnce : Prog (Op.Res (K := K) (V := V) RX) α → Prop
  | .ret _ => True
  | .call (.store .commit) k => ∀ r, (k r).Only Op.Blind
  | .call _ k => ∀ r, CommitsOnce (k r)

theorem CommitsOnce.of_only {p : Prog (Op.Res (K := K) (V := V) RX) α} (h : p.Only Op.NoCommit) :
    CommitsOnce p := by
  induction p with
  | ret a => trivial
  | call e k ih =>
    cases e with
    | own x => exact fun r => ih r (h.2 r)
    | store o => cases o <;> first | exact h.1.elim | exact fun r => ih r (h.2 r)

theorem CommitsOnce.bind {β : Type} {p : Prog (Op.Res (K := K) (V := V) RX) α}
    {f : α → Prog (Op.Res (K := K) (V := V) RX) β} (hp : p.Only Op.NoCommit)
    (hf : ∀ a, CommitsOnce (f a)) : CommitsOnce (p >>= f) := by
  change CommitsOnce (p.bind f)
  induction p with
  | ret a => exact hf a
  | call e k ih =>
    cases e with
    | own x => exact fun r => ih r (hp.2 r)
    | store o => cases o <;> first | exact hp.1.elim | exact fun r => ih r (hp.2 r)

theorem CommitsOnce.bind_only {β : Type} {p : Prog (Op.Res (K := K) (V := V) RX) α}
    {f : α → Prog (Op.Res (K := K) (V := V) RX) β} (hp : CommitsOnce p)
    (hf : ∀ a, (f a).Only Op.Blind) : CommitsOnce (p >>= f) := by
  change CommitsOnce (p.bind f)
  induction p with
  | ret a => exact .of_only ((hf a).mono Op.Blind.noCommit)
  | call e k ih =>
    cases e with
    | own x => exact fun r => ih r (hp r)
    | store o =>
      cases o <;> first
        | exact fun r => ih r (hp r)
        | exact fun r => Prog.Only.bind (hp r) hf

/-! ### The machine -/

/-- A process at work. -/
structure Proc (K : Type) (V : C → Type) {X : Type} (RX : X → Type) (τ α : Type) where
  /-- The rest of its program. -/
  prog : Prog (Op.Res (K := K) (V := V) RX) α
  /-- The pending writes of its transaction, which are also the locks it holds. -/
  pending : List (Write K V)
  /-- Its own state. -/
  priv : τ
  /-- Whether it holds the mutex: shared (`false`) or exclusively (`true`). -/
  holds : Option Bool
  /-- What it has read of the store so far. -/
  reads : List (Footprint C K)
  /-- Whether it has committed. -/
  done : Bool

/-- A process at the beginning of its program. -/
def Proc.start (prog : Prog (Op.Res (K := K) (V := V) RX) α) (priv : τ) : Proc K V RX τ α :=
  ⟨prog, [], priv, none, [], false⟩

/-- What the process has returned, if it has. -/
def Proc.returned (P : Proc K V RX τ α) : Option α :=
  match P.prog with
  | .ret a => some a
  | .call _ _ => none

/-- The process has returned. -/
def Proc.finished (P : Proc K V RX τ α) : Bool :=
  match P.prog with
  | .ret _ => true
  | .call _ _ => false

variable [Ord K] [TransOrd K]

/-- Two processes, told apart by a `Bool`, and the store they share. -/
structure Machine (K : Type) [Ord K] (V : C → Type) {X : Type} (RX : X → Type) (τ α : Type) where
  /-- The committed store. -/
  committed : Store K V
  /-- The processes. -/
  proc : Bool → Proc K V RX τ α

variable [DecidableEq C] [DecidableEq K]

/-- The database as the transaction of a process sees it, over the committed store `st`. -/
def Proc.db (P : Proc K V RX τ α) (st : Store K V) : TxnDb K V := ⟨st, P.pending, [], 0⟩

/-- The call can be made now: it does not have to wait for the other process. -/
def Proc.mayCall (other : Proc K V RX τ α) : Op K V X → Bool
  | .store (.put c k _) => other.pending.all fun w => w.loc ≠ (c, k)
  | .store (.delete c k) => other.pending.all fun w => w.loc ≠ (c, k)
  | .store (.lock exclusive) => match other.holds with
    | none => true
    | some e => !(exclusive || e)
  | _ => true

/-- The mutex after a call. -/
def TxnOp.holds (o : TxnOp K V) (h : Option Bool) : Option Bool :=
  match o with
  | .lock exclusive => some exclusive
  | .unlock => none
  | _ => h

/-- The process after a database call over the committed store `st`. -/
def Proc.afterStore (P : Proc K V RX τ α) (st : Store K V) (o : TxnOp K V)
    (k : o.Res → Prog (Op.Res (K := K) (V := V) RX) α) : Proc K V RX τ α :=
  let r := o.handle (fun _ _ => false) (P.db st)
  ⟨k r.1, r.2.pending, P.priv, o.holds P.holds, P.reads ++ o.footprint,
    P.done || match o with | .commit => true | _ => false⟩

/-- The process after a call to itself. -/
def Proc.afterOwn (hx : (x : X) → τ → RX x × τ) (P : Proc K V RX τ α) (x : X)
    (k : RX x → Prog (Op.Res (K := K) (V := V) RX) α) : Proc K V RX τ α :=
  { P with prog := k (hx x P.priv).1, priv := (hx x P.priv).2 }

/-- The answer to a write that stops waiting for its lock. -/
def TxnOp.timedOut : (o : TxnOp K V) → Option o.Res
  | .put _ _ _ => some false
  | .delete _ _ => some false
  | _ => none

/-- One turn of a schedule. -/
structure Turn where
  /-- The process that makes its next call. -/
  proc : Bool
  /-- Whether a write that has to wait for its lock gives up. -/
  timeout : Bool
  deriving DecidableEq

namespace Machine

/-- One call of a process; `none` if it has returned or has to wait. -/
def step (hx : Bool → (x : X) → τ → RX x × τ) (t : Turn) (m : Machine K V RX τ α) :
    Option (Machine K V RX τ α) :=
  let P := m.proc t.proc
  match P.prog with
  | .ret _ => none
  | .call (.own x) k =>
    some { m with proc := Function.update m.proc t.proc (P.afterOwn (hx t.proc) x k) }
  | .call (.store o) k =>
    if (m.proc !t.proc).mayCall (.store o) then
      some ⟨(o.handle (fun _ _ => false) (P.db m.committed)).2.committed,
        Function.update m.proc t.proc (P.afterStore m.committed o k)⟩
    else if t.timeout then
      o.timedOut.map fun r =>
        { m with proc := Function.update m.proc t.proc { P with prog := k r } }
    else none

/-- Run along a schedule. -/
def run (hx : Bool → (x : X) → τ → RX x × τ) :
    List Turn → Machine K V RX τ α → Option (Machine K V RX τ α)
  | [], m => some m
  | t :: ts, m => (m.step hx t).bind (run hx ts)

/-- Process `i` is about to commit. -/
def commits (m : Machine K V RX τ α) (i : Bool) : Bool :=
  match (m.proc i).prog with
  | .call (.store .commit) _ => true
  | _ => false

/-- The next call of process `i` has to wait for the other process. -/
def waits (m : Machine K V RX τ α) (i : Bool) : Bool :=
  match (m.proc i).prog with
  | .ret _ => false
  | .call e _ => !(m.proc !i).mayCall e

/-- What a turn must not do: give up waiting for a lock, or commit a location that the other
process, not yet returned and not yet committed, has read. -/
structure Clear (m : Machine K V RX τ α) (t : Turn) : Prop where
  patient : m.waits t.proc = true → t.timeout = false
  unread : m.commits t.proc = true →
    (m.proc !t.proc).finished = true ∨ (m.proc !t.proc).done = true ∨
      ∀ w ∈ (m.proc t.proc).pending, ∀ f ∈ (m.proc !t.proc).reads, ¬ f.Covers w.loc

/-- Every turn of the run along the schedule is clear. -/
def Undisturbed (hx : Bool → (x : X) → τ → RX x × τ) : List Turn → Machine K V RX τ α → Prop
  | [], _ => True
  | t :: ts, m => m.Clear t ∧ ∀ m' ∈ m.step hx t, Undisturbed hx ts m'

instance (m : Machine K V RX τ α) (t : Turn) : Decidable (m.Clear t) :=
  decidable_of_iff ((m.waits t.proc = true → t.timeout = false) ∧ (m.commits t.proc = true →
    (m.proc !t.proc).finished = true ∨ (m.proc !t.proc).done = true ∨
      ∀ w ∈ (m.proc t.proc).pending, ∀ f ∈ (m.proc !t.proc).reads, ¬ f.Covers w.loc))
    ⟨fun h => ⟨h.1, h.2⟩, fun h => ⟨h.patient, h.unread⟩⟩

instance decidableUndisturbed (hx : Bool → (x : X) → τ → RX x × τ) :
    ∀ (ts : List Turn) (m : Machine K V RX τ α), Decidable (Undisturbed hx ts m)
  | [], _ => isTrue trivial
  | t :: ts, m =>
    haveI : DecidablePred (Undisturbed hx ts) := decidableUndisturbed hx ts
    inferInstanceAs (Decidable (m.Clear t ∧ ∀ m' ∈ m.step hx t, Undisturbed hx ts m'))

end Machine

/-- What the rest of a process does on its own, over the committed store `st`. -/
def Proc.outcome (hx : (x : X) → τ → RX x × τ) (st : Store K V) (P : Proc K V RX τ α) :
    α × (TxnView K V × τ) :=
  Prog.run (Op.handle TxnOp.ideal hx) P.prog ((P.db st).ideal, P.priv)

/-- The committed store after a process on its own. -/
def Proc.result (hx : (x : X) → τ → RX x × τ) (st : Store K V) (P : Proc K V RX τ α) : Store K V :=
  (P.outcome hx st).2.1.committed

/-- The committed store after process `i` and then the other one, each on its own. -/
def Machine.serial (hx : Bool → (x : X) → τ → RX x × τ) (i : Bool) (m : Machine K V RX τ α) :
    Store K V :=
  (m.proc !i).result (hx !i) ((m.proc i).result (hx i) m.committed)

/-- What process `j` returns if process `i` goes first, each on its own. -/
def Machine.serialReturn (hx : Bool → (x : X) → τ → RX x × τ) (i : Bool) (m : Machine K V RX τ α)
    (j : Bool) : α :=
  ((m.proc j).outcome (hx j)
    (if j = i then m.committed else (m.proc i).result (hx i) m.committed)).1

/-! ### One call -/

section

variable [LawfulEqOrd K] {hx : (x : X) → τ → RX x × τ} {P : Proc K V RX τ α} {st st' : Store K V}

/-- The locations that a process has read. -/
def Proc.HasRead (P : Proc K V RX τ α) (l : C × K) : Prop := ∃ f ∈ P.reads, f.Covers l

/-- Databases with the same pending writes, which agree on what a call reads, answer it alike. -/
theorem TxnOp.handle_agree {o : TxnOp K V} (ho : o ≠ .commit)
    (P : Proc K V RX τ α)
    (h : Store.AgreeOn (fun l => ∃ f ∈ o.footprint, f.Covers l) st st') :
    (o.handle (fun _ _ => false) (P.db st)).1 = (o.handle (fun _ _ => false) (P.db st')).1 ∧
      (o.handle (fun _ _ => false) (P.db st)).2.pending =
        (o.handle (fun _ _ => false) (P.db st')).2.pending ∧
      (o.handle (fun _ _ => false) (P.db st')).2.committed = st' := by
  cases o with
  | get c k =>
    refine ⟨?_, rfl, rfl⟩
    have hv := h.applyAll P.pending c k ⟨.loc (c, k), by simp [TxnOp.footprint], rfl⟩
    simp only [TxnOp.handle, TxnDb.view, Proc.db, Bool.false_eq_true, if_false, hv]
  | read c k =>
    refine ⟨?_, rfl, rfl⟩
    have hv := h c k ⟨.loc (c, k), by simp [TxnOp.footprint], rfl⟩
    simp only [TxnOp.handle, Proc.db, Bool.false_eq_true, if_false, hv]
  | scan c hi =>
    refine ⟨?_, rfl, rfl⟩
    have hb : st.below c hi = st'.below c hi := Store.below_congr fun k hk =>
      h c k ⟨.below c hi, by simp [TxnOp.footprint], rfl, hk⟩
    simp only [TxnOp.handle, Proc.db, Bool.false_eq_true, if_false, hb]
  | commit => exact absurd rfl ho
  | _ => exact ⟨rfl, rfl, rfl⟩

/-- A database call other than a commit moves a process on in its run, over every store that agrees
with the present one on what the call reads. -/
theorem Proc.outcome_afterStore {o : TxnOp K V} (ho : o ≠ .commit)
    {k : o.Res → Prog (Op.Res (K := K) (V := V) RX) α} (hP : P.prog = .call (.store o) k)
    (h : Store.AgreeOn (fun l => ∃ f ∈ o.footprint, f.Covers l) st st') :
    (P.afterStore st o k).outcome hx st' = P.outcome hx st' := by
  obtain ⟨h₁, h₂, h₃⟩ := TxnOp.handle_agree ho P h
  have hno : ∀ (n : ℕ) (e : Fallible), (fun _ _ => false : ℕ → Fallible → Bool) n e = false :=
    fun _ _ => rfl
  obtain ⟨hi₁, hi₂⟩ := TxnOp.handle_ideal hno o (P.db st')
  have hdb : ((P.afterStore st o k).db st').ideal = (o.ideal (P.db st').ideal).2 := by
    rw [← hi₂]
    change (⟨st', st'.applyAll (o.handle (fun _ _ => false) (P.db st)).2.pending⟩ : TxnView K V) =
      ⟨(o.handle (fun _ _ => false) (P.db st')).2.committed,
        (o.handle (fun _ _ => false) (P.db st')).2.committed.applyAll
          (o.handle (fun _ _ => false) (P.db st')).2.pending⟩
    rw [h₂, h₃]
  rw [Proc.outcome, Proc.outcome, hP, hdb]
  change Prog.run _ (k _) _ = Prog.run _ (k (o.ideal (P.db st').ideal).1) _
  rw [← hi₁, h₁]
  rfl

omit [LawfulEqOrd K] [DecidableEq K] in
theorem Proc.outcome_afterOwn {x : X} {k : RX x → Prog (Op.Res (K := K) (V := V) RX) α}
    (hP : P.prog = .call (.own x) k) : (P.afterOwn hx x k).outcome hx st = P.outcome hx st := by
  rw [Proc.outcome, Proc.outcome, hP]
  rfl

omit [LawfulEqOrd K] [DecidableEq K] in
theorem committed_of_noCommit {p : Prog (Op.Res (K := K) (V := V) RX) α}
    (hp : p.Only Op.NoCommit) (s : TxnView K V × τ) :
    (Prog.run (Op.handle TxnOp.ideal hx) p s).2.1.committed = s.1.committed := by
  refine hp.run_invariant (I := fun t : TxnView K V × τ => t.1.committed = s.1.committed)
    (fun e t he ht => ?_) rfl
  cases e with
  | own x => exact ht
  | store o => cases o <;> first | exact he.elim | exact ht

omit [LawfulEqOrd K] [DecidableEq K] in
theorem Proc.result_of_noCommit (hP : P.prog.Only Op.NoCommit) : P.result hx st = st :=
  committed_of_noCommit hP _

omit [LawfulEqOrd K] [DecidableEq K] in
/-- A process that is about to commit, for the last time, ends with its pending writes applied. -/
theorem Proc.result_commit {k : Bool → Prog (Op.Res (K := K) (V := V) RX) α}
    (hP : P.prog = .call (.store .commit) k) (hk : (k true).Only Op.NoCommit) :
    P.result hx st = st.applyAll P.pending := by
  rw [Proc.result, Proc.outcome, hP]
  exact committed_of_noCommit hk _

/-- The process returns `a`, whatever the committed store. -/
def Proc.Returns (hx : (x : X) → τ → RX x × τ) (P : Proc K V RX τ α) (a : α) : Prop :=
  ∀ st, (P.outcome hx st).1 = a

omit [LawfulEqOrd K] [DecidableEq K] in
/-- A process that reads no more returns the same, whatever the committed store. -/
theorem Proc.returns_of_blind (hP : P.prog.Only Op.Blind) (st : Store K V) :
    P.Returns hx (P.outcome hx st).1 := by
  intro st'
  have hstep (e : Op K V X) (s t : TxnView K V × τ) (he : e.Blind) (hst : s.2 = t.2) :
      (Op.handle TxnOp.ideal hx e s).1 = (Op.handle TxnOp.ideal hx e t).1 ∧
        (Op.handle TxnOp.ideal hx e s).2.2 = (Op.handle TxnOp.ideal hx e t).2.2 := by
    cases e with
    | own x => exact ⟨by rw [Op.handle, Op.handle, hst], by simp [Op.handle, hst]⟩
    | store o => cases o <;> first | exact he.elim | exact ⟨rfl, hst⟩
  have hst : (((P.db st').ideal, P.priv) : TxnView K V × τ).2 =
      (((P.db st).ideal, P.priv) : TxnView K V × τ).2 := rfl
  exact (hP.run_sim (S := fun s t => s.2 = t.2) hstep hst).1

omit [LawfulEqOrd K] [DecidableEq K] in
theorem Proc.returns_of_finished (h : P.finished = true) (st : Store K V) :
    P.Returns hx (P.outcome hx st).1 := by
  refine Proc.returns_of_blind ?_ st
  unfold Proc.finished at h
  cases hp : P.prog with
  | ret a => trivial
  | call e k => simp [hp] at h

omit [LawfulEqOrd K] in
/-- After its commit a process returns what it returns in its run on its own. -/
theorem Proc.returns_commit {k : Bool → Prog (Op.Res (K := K) (V := V) RX) α}
    (hP : P.prog = .call (.store .commit) k) (hk : (k true).Only Op.Blind) :
    (P.afterStore st .commit k).Returns hx (P.outcome hx st).1 := by
  have h : (P.afterStore st .commit k).outcome hx (st.applyAll P.pending) = P.outcome hx st := by
    rw [Proc.outcome, Proc.outcome, hP]
    rfl
  rw [← h]
  exact Proc.returns_of_blind hk _

omit [LawfulEqOrd K] [DecidableEq K] in
theorem Proc.returned_of_returns {a : α} (h : P.Returns hx a) (hfin : P.finished = true)
    (st : Store K V) : P.returned = some a := by
  have ha := h st
  unfold Proc.finished at hfin
  unfold Proc.returned
  unfold Proc.outcome at ha
  cases hp : P.prog with
  | ret b =>
    rw [hp] at ha
    exact congrArg some ha
  | call e k => simp [hp] at hfin

omit [Ord K] [TransOrd K] [LawfulEqOrd K] [DecidableEq C] [DecidableEq K] in
theorem Proc.only_of_finished (h : P.finished = true) : P.prog.Only Op.NoCommit := by
  unfold Proc.finished at h
  cases hp : P.prog with
  | ret a => trivial
  | call e k => simp [hp] at h

/-- `P'` comes after `P` by a call other than a commit, made over the committed store `st`. -/
structure Proc.Moves (hx : (x : X) → τ → RX x × τ) (st : Store K V) (P P' : Proc K V RX τ α) :
    Prop where
  atWork : P.finished = false
  once : CommitsOnce P.prog → CommitsOnce P'.prog
  noCommit : P.prog.Only Op.NoCommit → P'.prog.Only Op.NoCommit
  blind : P.prog.Only Op.Blind →
    P'.prog.Only Op.Blind ∧ ∀ st', P'.outcome hx st' = P.outcome hx st'
  done : P'.done = P.done
  reads : ∀ l, P.HasRead l → P'.HasRead l
  outcome : ∀ st', Store.AgreeOn P'.HasRead st st' → P'.outcome hx st' = P.outcome hx st'

/-- What `P` still does, it does in any run of `P₀` on its own over a committed store that agrees
with `st` on what has been read. -/
def Proc.Follows (hx : (x : X) → τ → RX x × τ) (st : Store K V) (P P₀ : Proc K V RX τ α) : Prop :=
  ∀ st', Store.AgreeOn P.HasRead st st' → P.outcome hx st' = P₀.outcome hx st'

omit [LawfulEqOrd K] [DecidableEq K] in
theorem Proc.Follows.moves {P₀ P P' : Proc K V RX τ α} (h : P.Follows hx st P₀)
    (hm : P.Moves hx st P') : P'.Follows hx st P₀ := by
  intro st' hst
  rw [hm.outcome st' hst]
  exact h st' (hst.mono hm.reads)

omit [LawfulEqOrd K] [DecidableEq K] in
theorem Proc.Follows.result {P₀ : Proc K V RX τ α} (h : P.Follows hx st P₀) :
    P₀.result hx st = P.result hx st := by
  rw [Proc.result, Proc.result, h st fun _ _ _ => rfl]

omit [LawfulEqOrd K] [DecidableEq K] in
theorem Proc.Returns.moves {P' : Proc K V RX τ α} {a : α} (h : P.Returns hx a)
    (hb : P.prog.Only Op.Blind) (hm : P.Moves hx st P') : P'.Returns hx a := by
  intro st'
  rw [(hm.blind hb).2 st']
  exact h st'

/-- A commit that writes nothing that has been read leaves a process on its way. -/
theorem Proc.Follows.applyAll {P₀ : Proc K V RX τ α} (h : P.Follows hx st P₀)
    {ws : List (Write K V)}
    (hws : ∀ w ∈ ws, ∀ f ∈ P.reads, ¬ f.Covers w.loc) : P.Follows hx (st.applyAll ws) P₀ := by
  intro st' hst
  refine h st' fun c k hl => ?_
  rw [← hst c k hl, Store.get_applyAll_of_notMem]
  intro hmem
  obtain ⟨w, hw, hloc⟩ := List.mem_map.1 hmem
  obtain ⟨f, hf, hc⟩ := hl
  exact hws w hw f hf (hloc ▸ hc)

theorem Proc.moves_afterStore {o : TxnOp K V} (ho : o ≠ .commit)
    {k : o.Res → Prog (Op.Res (K := K) (V := V) RX) α} (hP : P.prog = .call (.store o) k) :
    P.Moves hx st (P.afterStore st o k) where
  atWork := by rw [Proc.finished, hP]
  once h := by
    rw [hP] at h
    cases o <;> first | exact absurd rfl ho | exact h _
  noCommit h := by
    rw [hP] at h
    exact h.2 _
  blind h := by
    rw [hP] at h
    refine ⟨h.2 _, fun st' => Proc.outcome_afterStore ho hP ?_⟩
    rintro c k ⟨f, hf, -⟩
    have hfoot : o.footprint = [] := by
      cases o <;> first | exact h.1.elim | rfl
    simp [hfoot] at hf
  done := by
    cases o <;> first | exact absurd rfl ho | exact Bool.or_false _
  reads l h := by
    obtain ⟨f, hf, hl⟩ := h
    exact ⟨f, List.mem_append_left _ hf, hl⟩
  outcome st' h := Proc.outcome_afterStore ho hP (h.mono fun l ⟨f, hf, hl⟩ =>
    ⟨f, List.mem_append_right _ hf, hl⟩)

omit [LawfulEqOrd K] [DecidableEq K] in
theorem Proc.moves_afterOwn {x : X} {k : RX x → Prog (Op.Res (K := K) (V := V) RX) α}
    (hP : P.prog = .call (.own x) k) : P.Moves hx st (P.afterOwn hx x k) where
  atWork := by rw [Proc.finished, hP]
  once h := by
    rw [hP] at h
    exact h _
  noCommit h := by
    rw [hP] at h
    exact h.2 _
  blind h := by
    rw [hP] at h
    exact ⟨h.2 _, fun _ => Proc.outcome_afterOwn hP⟩
  done := rfl
  reads _ h := h
  outcome _ _ := Proc.outcome_afterOwn hP

end

/-! ### Serialisability -/

namespace Machine

variable [LawfulEqOrd K] {hx : Bool → (x : X) → τ → RX x × τ} {m m' m₀ : Machine K V RX τ α}

/-- A clear turn is a commit, or moves one process on and leaves the committed store alone. -/
theorem step_cases {t : Turn} (ht : m.Clear t) (h : m.step hx t = some m') :
    (∃ k, (m.proc t.proc).prog = .call (.store .commit) k ∧
      m' = ⟨m.committed.applyAll (m.proc t.proc).pending, Function.update m.proc t.proc
        ((m.proc t.proc).afterStore m.committed .commit k)⟩) ∨
    (∃ P', (m.proc t.proc).Moves (hx t.proc) m.committed P' ∧
      m' = ⟨m.committed, Function.update m.proc t.proc P'⟩) := by
  unfold step at h
  cases hP : (m.proc t.proc).prog with
  | ret a => simp [hP] at h
  | call e k =>
    cases e with
    | own x =>
      simp only [hP, Option.some.injEq] at h
      exact .inr ⟨_, Proc.moves_afterOwn hP, h.symm⟩
    | store o =>
      simp only [hP] at h
      by_cases hw : (m.proc !t.proc).mayCall (.store o : Op K V X) = true
      · rw [if_pos hw, Option.some.injEq] at h
        by_cases ho : o = .commit
        · subst ho
          exact .inl ⟨k, rfl, h.symm⟩
        · have hc : (o.handle (fun _ _ => false) ((m.proc t.proc).db m.committed)).2.committed =
              m.committed :=
            (TxnOp.handle_agree ho (m.proc t.proc) fun _ _ _ => rfl).2.2
          rw [hc] at h
          exact .inr ⟨_, Proc.moves_afterStore ho hP, h.symm⟩
      · -- a turn that would have to wait, and is clear, is not taken
        have hp := ht.patient (by simp [waits, hP, hw])
        simp [hw, hp] at h

/-- How far a run from `m₀` has come: which of the processes have committed, and in which order. -/
inductive Phase (hx : Bool → (x : X) → τ → RX x × τ) (m₀ m : Machine K V RX τ α) : Prop
  /-- Neither process has committed. -/
  | none (hc : m.committed = m₀.committed) (hd : ∀ i, (m.proc i).done = false)
      (ho : ∀ i, CommitsOnce (m.proc i).prog)
      (hf : ∀ i, (m.proc i).Follows (hx i) m.committed (m₀.proc i))
  /-- Process `i` has committed.  The other one is on its way over the new committed store, or has
  returned without a commit. -/
  | one (i : Bool) (hc : m.committed = (m₀.proc i).result (hx i) m₀.committed)
      (hd : (m.proc !i).done = false) (hi : (m.proc i).prog.Only Op.Blind)
      (ha : (m.proc i).Returns (hx i) ((m₀.proc i).outcome (hx i) m₀.committed).1)
      (ho : CommitsOnce (m.proc !i).prog)
      (hf : (m.proc !i).Follows (hx !i) m.committed (m₀.proc !i) ∨
        (m.proc !i).finished = true ∧ (m₀.proc !i).result (hx !i) m₀.committed = m₀.committed ∧
          (m.proc !i).Returns (hx !i) ((m₀.proc !i).outcome (hx !i) m₀.committed).1)
  /-- Process `i` has committed, and then the other one. -/
  | both (i : Bool) (hc : m.committed = m₀.serial hx i)
      (hn : ∀ j, (m.proc j).prog.Only Op.Blind)
      (ha : ∀ j, (m.proc j).Returns (hx j) (m₀.serialReturn hx i j))

omit [LawfulEqOrd K] [DecidableEq K] in
theorem Phase.start (p : Bool → Prog (Op.Res (K := K) (V := V) RX) α) (priv : Bool → τ)
    (st : Store K V) (hp : ∀ i, CommitsOnce (p i)) :
    Phase hx ⟨st, fun i => .start (p i) (priv i)⟩ ⟨st, fun i => .start (p i) (priv i)⟩ :=
  .none rfl (fun _ => rfl) hp fun _ _ _ => rfl

omit [LawfulEqOrd K] [DecidableEq K] in
theorem Phase.move (h : Phase hx m₀ m) {j : Bool} {P' : Proc K V RX τ α}
    (hm : (m.proc j).Moves (hx j) m.committed P') :
    Phase hx m₀ ⟨m.committed, Function.update m.proc j P'⟩ := by
  cases h with
  | none hc hd ho hf =>
    refine .none hc (fun i => ?_) (fun i => ?_) fun i => ?_
    all_goals by_cases hij : i = j
    · subst hij
      simpa [hm.done] using hd i
    · simpa [hij] using hd i
    · subst hij
      simpa using hm.once (ho i)
    · simpa [hij] using ho i
    · subst hij
      simpa using (hf i).moves hm
    · simpa [hij] using hf i
  | one i hc hd hi ha ho hf =>
    rcases Bool.eq_or_eq_not j i with rfl | rfl
    · exact .one j hc (by simpa using hd) (by simpa using (hm.blind hi).1)
        (by simpa using ha.moves hi hm) (by simpa using ho) (by simpa using hf)
    · refine .one i hc (by simpa [hm.done] using hd) (by simpa using hi) (by simpa using ha)
        (by simpa using hm.once ho) ?_
      rcases hf with hf | ⟨hfin, -⟩
      · exact .inl (by simpa using hf.moves hm)
      · exact absurd hfin (by simp [hm.atWork])
  | both i hc hn ha =>
    refine .both i hc (fun l => ?_) fun l => ?_
    all_goals by_cases hlj : l = j
    · subst hlj
      simpa using (hm.blind (hn l)).1
    · simpa [hlj] using hn l
    · subst hlj
      simpa using (ha l).moves (hn l) hm
    · simpa [hlj] using ha l

theorem Phase.commit (h : Phase hx m₀ m) {t : Turn} (ht : m.Clear t)
    {k : Bool → Prog (Op.Res (K := K) (V := V) RX) α}
    (hP : (m.proc t.proc).prog = .call (.store .commit) k) :
    Phase hx m₀ ⟨m.committed.applyAll (m.proc t.proc).pending, Function.update m.proc t.proc
      ((m.proc t.proc).afterStore m.committed .commit k)⟩ := by
  have hcom : m.commits t.proc = true := by simp [commits, hP]
  have hat : (m.proc t.proc).finished = false := by rw [Proc.finished, hP]
  -- after its one commit the process reads and commits no more, its result is what it commits now,
  -- and it returns what it returns on its own
  have hlast (ho : CommitsOnce (m.proc t.proc).prog) : (k true).Only Op.Blind := by
    rw [hP] at ho
    exact ho true
  have hblind (ho : CommitsOnce (m.proc t.proc).prog) :
      ((m.proc t.proc).afterStore m.committed .commit k).prog.Only Op.Blind := hlast ho
  have hres {st : Store K V} (ho : CommitsOnce (m.proc t.proc).prog)
      (hf : (m.proc t.proc).Follows (hx t.proc) st (m₀.proc t.proc)) :
      st.applyAll (m.proc t.proc).pending = (m₀.proc t.proc).result (hx t.proc) st := by
    rw [hf.result, Proc.result_commit hP ((hlast ho).mono Op.Blind.noCommit)]
  have hret (ho : CommitsOnce (m.proc t.proc).prog)
      (hf : (m.proc t.proc).Follows (hx t.proc) m.committed (m₀.proc t.proc)) :
      ((m.proc t.proc).afterStore m.committed .commit k).Returns (hx t.proc)
        ((m₀.proc t.proc).outcome (hx t.proc) m.committed).1 := by
    rw [← hf m.committed fun _ _ _ => rfl]
    exact Proc.returns_commit hP (hlast ho)
  have hother : Function.update m.proc t.proc ((m.proc t.proc).afterStore m.committed .commit k)
      (!t.proc) = m.proc !t.proc := by simp
  cases h with
  | none hc hd ho hf =>
    refine .one t.proc ?_ ?_ ?_ ?_ ?_ ?_
    · rw [← hc]
      exact hres (ho _) (hf _)
    · simpa using hd !t.proc
    · simpa using hblind (ho _)
    · rw [← hc]
      simpa using hret (ho _) (hf _)
    · simpa using ho !t.proc
    · dsimp only
      rw [hother]
      rcases ht.unread hcom with hfin | hdone | hread
      · refine .inr ⟨hfin, ?_, ?_⟩
        · rw [← hc, (hf _).result, Proc.result_of_noCommit (Proc.only_of_finished hfin)]
        · rw [← hc, ← hf _ m.committed fun _ _ _ => rfl]
          exact Proc.returns_of_finished hfin _
      · simp [hd] at hdone
      · exact .inl ((hf _).applyAll hread)
  | one i hc hd hi ha ho hf =>
    rcases Bool.eq_or_eq_not t.proc i with rfl | hti
    · rw [hP] at hi
      exact hi.1.elim
    · rw [← hti] at ho hf
      rcases hf with hf | ⟨hfin, -⟩
      · have hji {j : Bool} (hj : j ≠ t.proc) : j = i := by
          rw [hti] at hj
          simpa using hj
        refine .both i ?_ (fun j => ?_) fun j => ?_
        · dsimp only
          rw [hres ho hf, Machine.serial, ← hti, ← hc]
        · by_cases hj : j = t.proc
          · subst hj
            simpa using hblind ho
          · obtain rfl := hji hj
            simpa [hj] using hi
        · by_cases hj : j = t.proc
          · subst hj
            have hne : t.proc ≠ i := by simp [hti]
            rw [Machine.serialReturn, if_neg hne, ← hc]
            simpa using hret ho hf
          · obtain rfl := hji hj
            rw [Machine.serialReturn, if_pos rfl]
            simpa [hj] using ha
      · simp [hat] at hfin
  | both i hc hn ha =>
    have := hn t.proc
    rw [hP] at this
    exact this.1.elim

theorem Phase.step (h : Phase hx m₀ m) {t : Turn} (ht : m.Clear t) (hs : m.step hx t = some m') :
    Phase hx m₀ m' := by
  rcases step_cases ht hs with ⟨k, hP, rfl⟩ | ⟨P', hm, rfl⟩
  · exact h.commit ht hP
  · exact h.move hm

theorem Phase.run (h : Phase hx m₀ m) {ts : List Turn} (hu : m.Undisturbed hx ts)
    (hr : m.run hx ts = some m') : Phase hx m₀ m' := by
  induction ts generalizing m with
  | nil =>
    cases hr
    exact h
  | cons t ts ih =>
    obtain ⟨m₁, hs, hr⟩ := Option.bind_eq_some_iff.1 hr
    exact ih (h.step hu.1 hs) (hu.2 m₁ hs) hr

omit [LawfulEqOrd K] [DecidableEq K] in
/-- In every phase, when both processes have returned, the committed store and what they have
returned are those of a serial run. -/
theorem Phase.serial (h : Phase hx m₀ m) (hfin : ∀ i, (m.proc i).finished = true) :
    ∃ i, m.committed = m₀.serial hx i ∧
      ∀ j, (m.proc j).returned = some (m₀.serialReturn hx i j) := by
  have hn (i : Bool) : (m.proc i).prog.Only Op.NoCommit := Proc.only_of_finished (hfin i)
  have hret (i : Bool) {a : α} (h : (m.proc i).Returns (hx i) a) : (m.proc i).returned = some a :=
    Proc.returned_of_returns h (hfin i) m.committed
  -- a process on its way that has returned
  have hon (i : Bool) (hf : (m.proc i).Follows (hx i) m.committed (m₀.proc i)) :
      (m.proc i).returned = some ((m₀.proc i).outcome (hx i) m.committed).1 := by
    rw [← hf m.committed fun _ _ _ => rfl]
    exact hret i (Proc.returns_of_finished (hfin i) _)
  cases h with
  | none hc hd ho hf =>
    have hr (i : Bool) : (m₀.proc i).result (hx i) m₀.committed = m₀.committed := by
      rw [← hc, (hf i).result, Proc.result_of_noCommit (hn i)]
    refine ⟨true, by rw [Machine.serial, hr, hr, hc], fun j => ?_⟩
    rw [Machine.serialReturn, hr, ite_self, ← hc]
    exact hon j (hf j)
  | one i hc hd hi ha ho hf =>
    rcases hf with hf | ⟨-, hr, hb⟩
    · refine ⟨i, ?_, fun j => ?_⟩
      · rw [Machine.serial, ← hc, hf.result, Proc.result_of_noCommit (hn _)]
      rcases Bool.eq_or_eq_not j i with rfl | rfl
      · rw [Machine.serialReturn, if_pos rfl]
        exact hret j ha
      · rw [Machine.serialReturn, if_neg (by simp), ← hc]
        exact hon _ hf
    · refine ⟨!i, by rw [Machine.serial, hr, Bool.not_not, hc], fun j => ?_⟩
      rw [Machine.serialReturn, hr, ite_self]
      rcases Bool.eq_or_eq_not j i with rfl | rfl
      · exact hret j ha
      · exact hret _ hb
  | both i hc _ ha => exact ⟨i, hc, fun j => hret j (ha j)⟩

/-- **An undisturbed run is serialisable.**  Two programs that commit at most once, run undisturbed
until both have returned, leave the committed store of one of the two serial runs, and return what
they return there. -/
theorem run_serial {p : Bool → Prog (Op.Res (K := K) (V := V) RX) α} (priv : Bool → τ)
    (st : Store K V) (hp : ∀ i, CommitsOnce (p i)) {ts : List Turn}
    (hu : Undisturbed hx ts ⟨st, fun i => .start (p i) (priv i)⟩)
    (hr : run hx ts ⟨st, fun i => .start (p i) (priv i)⟩ = some m)
    (hfin : ∀ i, (m.proc i).finished = true) :
    ∃ i, m.committed = serial hx i ⟨st, fun i => .start (p i) (priv i)⟩ ∧
      ∀ j, (m.proc j).returned = some (serialReturn hx i ⟨st, fun i => .start (p i) (priv i)⟩ j) :=
  ((Phase.start p priv st hp).run hu hr).serial hfin

end Machine

end ConfigDb
