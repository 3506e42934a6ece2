import ConfigDb.Effect.Interleave

/-!
# Any number of threads under a readers-writer mutex

Every worker has a list of jobs and works them off one after the other; the program of a job is run
call by call, and a schedule says whose turn it is.  The committed store, the mutex, the pool of
transaction objects and the state of the process are shared.

A write waits while another transaction object holds the lock on its key: that of a worker at work,
or an idle one in the pool, which has been given back with what it still held.

A program may take the mutex once, shared to read or exclusively to write; outside of it, it makes
only calls to the process that tell it nothing and leave nothing but bookkeeping.

## Main definitions

* `Bookkeeping` : which part of the state of the process does not matter.
* `Prog.Outside`, `Prog.Reading`, `Prog.Writing`, `Prog.Leaving` : what a program may do without the
  mutex, under the shared one, and under the exclusive one before and after its commit.
* `Prog.alone` : the run of a program on its own.
* `Worker`, `Workers` : a worker, and all of them with what they share.
* `Workers.step`, `Workers.run` : one turn, and runs along a schedule.
* `Prog.Tidy` : the program gives no transaction object back with pending writes.

## Main result

* `Workers.Tidy.run` : in a run of tidy programs, no idle transaction object ever holds a lock.
-/

namespace ConfigDb

open Std

variable {C K : Type} {V : C → Type} {X : Type} {RX : X → Type} {ι τ β α : Type}

/-! ### Programs that take the mutex once -/

/-- What of the state of a process is kept for the record only: no answer depends on it.  Some calls
change nothing else, and are always answered alike. -/
structure Bookkeeping (hx : (x : X) → τ → RX x × τ) where
  /-- The states differ only in what is kept for the record. -/
  Same : τ → τ → Prop
  /-- To differ only in that is an equivalence. -/
  equivalence : Equivalence Same
  /-- The answers do not depend on it. -/
  congr : ∀ x {t t'}, Same t t' → (hx x t).1 = (hx x t').1 ∧ Same (hx x t).2 (hx x t').2
  /-- The call is always answered alike, and is only taken down. -/
  Neutral : X → Prop
  /-- A neutral call is always answered alike. -/
  answer : ∀ x, Neutral x → ∀ t t', (hx x t).1 = (hx x t').1
  /-- A neutral call is only taken down. -/
  same : ∀ x, Neutral x → ∀ t, Same t (hx x t).2

/-- A neutral call to the process. -/
def Op.NeutralOwn (N : X → Prop) : Op K V X → Prop
  | .own x => N x
  | .store _ => False

/-- A neutral call, or one that looks into the committed store. -/
def Op.Looks (N : X → Prop) : Op K V X → Prop
  | .own x => N x
  | .store (.read _ _) => True
  | .store (.scan _ _) => True
  | .store _ => False

/-- A call inside a transaction. -/
def Op.Works : Op K V X → Prop
  | .store (.lock _) => False
  | .store .unlock => False
  | .store .begin => False
  | .store .commit => False
  | .store .release => False
  | _ => True

namespace Prog

/-- Under the shared mutex: the program looks into the committed store, and gives the mutex back. -/
def Reading (N : X → Prop) : Prog (Op.Res (K := K) (V := V) RX) α → Prop
  | .ret _ => False
  | .call (.own x) k => N x ∧ ∀ r, (k r).Reading N
  | .call (.store .unlock) k => ∀ r, (k r).Only (Op.NeutralOwn N)
  | .call (.store (.read _ _)) k => ∀ r, (k r).Reading N
  | .call (.store (.scan _ _)) k => ∀ r, (k r).Reading N
  | .call (.store _) _ => False

/-- Under the exclusive mutex, after the commit: the program gives the mutex back. -/
def Leaving (N : X → Prop) : Prog (Op.Res (K := K) (V := V) RX) α → Prop
  | .ret _ => False
  | .call (.own _) k => ∀ r, (k r).Leaving N
  | .call (.store .release) k => ∀ r, (k r).Leaving N
  | .call (.store .unlock) k => ∀ r, (k r).Only (Op.NeutralOwn N)
  | .call (.store _) _ => False

/-- Under the exclusive mutex: the program commits at most once, and gives the mutex back when its
transaction has ended.  The flag says whether there may be pending writes. -/
def Writing (N : X → Prop) : Bool → Prog (Op.Res (K := K) (V := V) RX) α → Prop
  | _, .ret _ => False
  | pending, .call (.store .unlock) k => pending = false ∧ ∀ r, (k r).Only (Op.NeutralOwn N)
  | _, .call (.store .commit) k => ∀ r, (k r).Leaving N
  | _, .call (.store (.lock _)) _ => False
  | _, .call (.store .begin) k => ∀ r, (k r).Writing N false
  | _, .call (.store .release) k => ∀ r, (k r).Writing N false
  | _, .call (.store (.put _ _ _)) k => ∀ r, (k r).Writing N true
  | _, .call (.store (.delete _ _)) k => ∀ r, (k r).Writing N true
  | pending, .call _ k => ∀ r, (k r).Writing N pending

/-- Without the mutex: the program makes neutral calls, and takes the mutex at most once. -/
def Outside (N : X → Prop) : Prog (Op.Res (K := K) (V := V) RX) α → Prop
  | .ret _ => True
  | .call (.own x) k => N x ∧ ∀ r, (k r).Outside N
  | .call (.store (.lock false)) k => ∀ r, (k r).Reading N
  | .call (.store (.lock true)) k => ∀ r, (k r).Writing N false
  | .call (.store _) _ => False

section

variable {γ : Type} {N : X → Prop} {p : Prog (Op.Res (K := K) (V := V) RX) α}
  {f : α → Prog (Op.Res (K := K) (V := V) RX) γ}

theorem Reading.bind (hp : p.Only (Op.Looks N)) (hf : ∀ a, (f a).Reading N) :
    (p >>= f).Reading N := by
  change (p.bind f).Reading N
  induction p with
  | ret a => exact hf a
  | call e k ih =>
    cases e with
    | own x => exact ⟨hp.1, fun r => ih r (hp.2 r)⟩
    | store o => cases o <;> first | exact hp.1.elim | exact fun r => ih r (hp.2 r)

theorem Reading.bind_only (hp : p.Reading N) (hf : ∀ a, (f a).Only (Op.NeutralOwn N)) :
    (p >>= f).Reading N := by
  change (p.bind f).Reading N
  induction p with
  | ret a => exact hp.elim
  | call e k ih =>
    cases e with
    | own x => exact ⟨hp.1, fun r => ih r (hp.2 r)⟩
    | store o =>
      cases o <;> first
        | exact hp.elim
        | exact fun r => ih r (hp r)
        | exact fun r => Prog.Only.bind (hp r) hf

theorem Leaving.bind_only (hp : p.Leaving N) (hf : ∀ a, (f a).Only (Op.NeutralOwn N)) :
    (p >>= f).Leaving N := by
  change (p.bind f).Leaving N
  induction p with
  | ret a => exact hp.elim
  | call e k ih =>
    cases e with
    | own x => exact fun r => ih r (hp r)
    | store o =>
      cases o <;> first
        | exact hp.elim
        | exact fun r => ih r (hp r)
        | exact fun r => Prog.Only.bind (hp r) hf

theorem Writing.bind {b : Bool} (hp : p.Only Op.Works) (hf : ∀ a b, (f a).Writing N b) :
    (p >>= f).Writing N b := by
  change (p.bind f).Writing N b
  induction p generalizing b with
  | ret a => exact hf a b
  | call e k ih =>
    cases e with
    | own x => exact fun r => ih r (hp.2 r)
    | store o => cases o <;> first | exact hp.1.elim | exact fun r => ih r (hp.2 r)

theorem Writing.bind_only {b : Bool} (hp : p.Writing N b)
    (hf : ∀ a, (f a).Only (Op.NeutralOwn N)) : (p >>= f).Writing N b := by
  change (p.bind f).Writing N b
  induction p generalizing b with
  | ret a => exact hp.elim
  | call e k ih =>
    cases e with
    | own x => exact fun r => ih r (hp r)
    | store o =>
      cases o <;> first
        | exact hp.elim
        | exact fun r => ih r (hp r)
        | exact fun r => Leaving.bind_only (hp r) hf
        | exact ⟨hp.1, fun r => Prog.Only.bind (hp.2 r) hf⟩

theorem Outside.bind (hp : p.Only (Op.NeutralOwn N)) (hf : ∀ a, (f a).Outside N) :
    (p >>= f).Outside N := by
  change (p.bind f).Outside N
  induction p with
  | ret a => exact hf a
  | call e k ih =>
    cases e with
    | own x => exact ⟨hp.1, fun r => ih r (hp.2 r)⟩
    | store o => exact hp.1.elim

theorem Outside.of_only (hp : p.Only (Op.NeutralOwn N)) : p.Outside N := by
  have h := Outside.bind (f := pure) hp fun _ => trivial
  rwa [bind_pure] at h

theorem Outside.bind_only (hp : p.Outside N) (hf : ∀ a, (f a).Only (Op.NeutralOwn N)) :
    (p >>= f).Outside N := by
  change (p.bind f).Outside N
  induction p with
  | ret a => exact .of_only (hf a)
  | call e k ih =>
    cases e with
    | own x => exact ⟨hp.1, fun r => ih r (hp.2 r)⟩
    | store o =>
      cases o with
      | lock b =>
        cases b with
        | false => exact fun r => Reading.bind_only (hp r) hf
        | true => exact fun r => Writing.bind_only (hp r) hf
      | _ => exact hp.elim

end

end Prog

/-! ### Programs on their own -/

variable [Ord K] [TransOrd K] [DecidableEq C]

/-- The run of a program on its own, if no database call fails. -/
abbrev Prog.alone (hx : (x : X) → τ → RX x × τ) (p : Prog (Op.Res (K := K) (V := V) RX) α)
    (s : TxnView K V × τ) : α × (TxnView K V × τ) :=
  run (Op.handle TxnOp.ideal hx) p s

/-- Two runs differ only in what is kept for the record. -/
structure Bookkeeping.Alike {hx : (x : X) → τ → RX x × τ} (B : Bookkeeping hx)
    (r r' : α × (TxnView K V × τ)) : Prop where
  answer : r.1 = r'.1
  committed : r.2.1.committed = r'.2.1.committed
  same : B.Same r.2.2 r'.2.2

omit [TransOrd K] [DecidableEq C] in
theorem Bookkeeping.Alike.trans {hx : (x : X) → τ → RX x × τ} {B : Bookkeeping hx}
    {r r' r'' : α × (TxnView K V × τ)} (h : B.Alike r r') (h' : B.Alike r' r'') : B.Alike r r'' :=
  ⟨h.answer.trans h'.answer, h.committed.trans h'.committed, B.equivalence.trans h.same h'.same⟩

namespace Prog

section

variable {hx : (x : X) → τ → RX x × τ} (B : Bookkeeping hx)
  {p : Prog (Op.Res (K := K) (V := V) RX) α}

theorem alone_same {c c' : τ} (d : TxnView K V) (h : B.Same c c') :
    (alone hx p (d, c)).1 = (alone hx p (d, c')).1 ∧
      (alone hx p (d, c)).2.1 = (alone hx p (d, c')).2.1 ∧
      B.Same (alone hx p (d, c)).2.2 (alone hx p (d, c')).2.2 := by
  refine run_sim (S := fun s t : TxnView K V × τ => s.1 = t.1 ∧ B.Same s.2 t.2)
    (fun e s t hst => ?_) p ⟨rfl, h⟩
  obtain ⟨d, c⟩ := s
  obtain ⟨d', c'⟩ := t
  obtain ⟨rfl, hc⟩ := hst
  cases e with
  | own x => exact ⟨(B.congr x hc).1, rfl, (B.congr x hc).2⟩
  | store o => exact ⟨rfl, rfl, hc⟩

theorem alone_alike {c c' : τ} (d : TxnView K V) (h : B.Same c c') :
    B.Alike (alone hx p (d, c)) (alone hx p (d, c')) := by
  obtain ⟨h₁, h₂, h₃⟩ := alone_same (p := p) B d h
  exact ⟨h₁, congrArg TxnView.committed h₂, h₃⟩

theorem neutral_state (hp : p.Only (Op.NeutralOwn B.Neutral)) (s : TxnView K V × τ) :
    (alone hx p s).2.1 = s.1 ∧ B.Same s.2 (alone hx p s).2.2 := by
  refine hp.run_invariant (I := fun t : TxnView K V × τ => t.1 = s.1 ∧ B.Same s.2 t.2)
    (fun e t he ht => ?_) ⟨rfl, B.equivalence.refl _⟩
  cases e with
  | own x => exact ⟨ht.1, B.equivalence.trans ht.2 (B.same x he _)⟩
  | store o => exact he.elim

theorem neutral_answer (hp : p.Only (Op.NeutralOwn B.Neutral)) (s t : TxnView K V × τ) :
    (alone hx p s).1 = (alone hx p t).1 := by
  refine (hp.run_sim (S := fun _ _ => True) (fun e s t he _ => ?_) trivial).1
  cases e with
  | own x => exact ⟨B.answer x he _ _, trivial⟩
  | store o => exact he.elim

theorem Leaving.state (hp : p.Leaving B.Neutral) (s : TxnView K V × τ) :
    (alone hx p s).2.1.committed = s.1.committed := by
  induction p generalizing s with
  | ret a => exact hp.elim
  | call e k ih =>
    cases e with
    | own x => exact ih _ (hp _) (s.1, (hx x s.2).2)
    | store o =>
      cases o with
      | release => exact ih () (hp ()) (⟨s.1.committed, s.1.committed⟩, s.2)
      | unlock => exact congrArg TxnView.committed (neutral_state B (hp ()) s).1
      | _ => exact hp.elim

theorem Reading.state (hp : p.Reading B.Neutral) (s : TxnView K V × τ) :
    (alone hx p s).2.1.committed = s.1.committed ∧ B.Same s.2 (alone hx p s).2.2 := by
  induction p generalizing s with
  | ret a => exact hp.elim
  | call e k ih =>
    cases e with
    | own x =>
      obtain ⟨h₁, h₂⟩ := ih (hx x s.2).1 (hp.2 _) (s.1, (hx x s.2).2)
      exact ⟨h₁, B.equivalence.trans (B.same x hp.1 _) h₂⟩
    | store o =>
      cases o with
      | unlock =>
        obtain ⟨h₁, h₂⟩ := neutral_state B (hp ()) s
        exact ⟨congrArg TxnView.committed h₁, h₂⟩
      | read c q => exact ih _ (hp _) s
      | scan c hi => exact ih _ (hp _) s
      | _ => exact hp.elim

theorem Reading.answer (hp : p.Reading B.Neutral) {s t : TxnView K V × τ}
    (hst : s.1.committed = t.1.committed) : (alone hx p s).1 = (alone hx p t).1 := by
  induction p generalizing s t with
  | ret a => exact hp.elim
  | call e k ih =>
    cases e with
    | own x =>
      have ha : (hx x s.2).1 = (hx x t.2).1 := B.answer x hp.1 _ _
      change (alone hx (k (hx x s.2).1) (s.1, (hx x s.2).2)).1 =
        (alone hx (k (hx x t.2).1) (t.1, (hx x t.2).2)).1
      rw [ha]
      exact ih _ (hp.2 _) hst
    | store o =>
      cases o with
      -- what comes after the mutex has been given back does not look at the store
      | unlock => exact neutral_answer B (hp ()) s t
      | read c q =>
        change (alone hx (k (.ofOption (s.1.committed.get c q))) s).1 =
          (alone hx (k (.ofOption (t.1.committed.get c q))) t).1
        rw [hst]
        exact ih _ (hp _) hst
      | scan c hi =>
        change (alone hx (k (s.1.committed.below c hi)) s).1 =
          (alone hx (k (t.1.committed.below c hi)) t).1
        rw [hst]
        exact ih _ (hp _) hst
      | _ => exact hp.elim

end

end Prog

/-! ### Workers -/

/-- A worker. -/
structure Worker (K : Type) (V : C → Type) {X : Type} (RX : X → Type) (β α : Type) where
  /-- The rest of the program that it is at, if it is at one. -/
  current : Option (Prog (Op.Res (K := K) (V := V) RX) α)
  /-- The jobs that it has begun, in order. -/
  begun : List β
  /-- The jobs that are left. -/
  todo : List β
  /-- What its jobs have returned, in order. -/
  answers : List α
  /-- The pending writes of its transaction, which are also the locks it holds. -/
  pending : List (Write K V)
  /-- Whether it holds the mutex: shared (`false`) or exclusively (`true`). -/
  holds : Option Bool

/-- A worker that has not begun. -/
def Worker.start (todo : List β) : Worker K V RX β α := ⟨none, [], todo, [], [], none⟩

/-- The worker has done its jobs. -/
def Worker.finished (W : Worker K V RX β α) : Bool := W.current.isNone && W.todo.isEmpty

/-- The workers, and what they share. -/
structure Workers (ι K : Type) [Ord K] (V : C → Type) {X : Type} (RX : X → Type) (τ β α : Type)
    where
  /-- The committed store. -/
  committed : Store K V
  /-- The number of fallible database calls made so far. -/
  calls : ℕ
  /-- The idle transaction objects, next to be used first, with what each of them still holds. -/
  pool : List (Option (List (Write K V)))
  /-- The state of the process. -/
  common : τ
  /-- The workers. -/
  worker : ι → Worker K V RX β α

variable [DecidableEq K]

/-- The worker does not keep another one from making the database call. -/
def Worker.admits (W : Worker K V RX β α) : TxnOp K V → Bool
  | .put c k _ => W.pending.all fun w => w.loc ≠ (c, k)
  | .delete c k => W.pending.all fun w => w.loc ≠ (c, k)
  | .lock exclusive => match W.holds with
    | none => true
    | some e => !(exclusive || e)
  | _ => true

namespace Workers

variable [DecidableEq ι]

/-- The workers have not begun. -/
def start (st : Store K V) (calls : ℕ) (pool : List (Option (List (Write K V)))) (common : τ)
    (todo : ι → List β) : Workers ι K V RX τ β α :=
  ⟨st, calls, pool, common, fun i => .start (todo i)⟩

/-- The database as the transaction of the worker `i` sees it. -/
def db (i : ι) (m : Workers ι K V RX τ β α) : TxnDb K V :=
  ⟨m.committed, (m.worker i).pending, m.pool, m.calls⟩

/-- No idle transaction object keeps the worker `i` from making the database call. -/
def idleAdmits (i : ι) (m : Workers ι K V RX τ β α) : TxnOp K V → Bool
  | .put c k _ => !(m.db i).locked (c, k)
  | .delete c k => !(m.db i).locked (c, k)
  | _ => true

/-- The state after the worker `i` has called the process. -/
def afterOwn (hx : (x : X) → τ → RX x × τ) (i : ι) (m : Workers ι K V RX τ β α) (x : X)
    (k : RX x → Prog (Op.Res (K := K) (V := V) RX) α) : Workers ι K V RX τ β α :=
  { m with
    common := (hx x m.common).2
    worker := Function.update m.worker i
      { m.worker i with current := some (k (hx x m.common).1) } }

/-- The state after the worker `i` has called the database. -/
def afterStore (fails : ℕ → Fallible → Bool) (i : ι) (m : Workers ι K V RX τ β α) (o : TxnOp K V)
    (k : o.Res → Prog (Op.Res (K := K) (V := V) RX) α) : Workers ι K V RX τ β α :=
  let r := o.handle fails (m.db i)
  { committed := r.2.committed
    calls := r.2.calls
    pool := r.2.pool
    common := m.common
    worker := Function.update m.worker i { m.worker i with
      current := some (k r.1)
      pending := r.2.pending
      holds := o.holds (m.worker i).holds } }

/-- One turn of the worker `i`: it begins its next job, makes a call, or returns the answer of its
job; `none` if it has done its jobs or has to wait. -/
def step [Fintype ι] (fails : ℕ → Fallible → Bool) (hx : (x : X) → τ → RX x × τ)
    (prog : β → Prog (Op.Res (K := K) (V := V) RX) α) (i : ι) (m : Workers ι K V RX τ β α) :
    Option (Workers ι K V RX τ β α) :=
  match (m.worker i).current with
  | none => match (m.worker i).todo with
    | [] => none
    | b :: bs => some { m with worker := Function.update m.worker i { m.worker i with
        current := some (prog b)
        begun := (m.worker i).begun ++ [b]
        todo := bs } }
  | some (.ret a) => some { m with worker := Function.update m.worker i { m.worker i with
      current := none
      answers := (m.worker i).answers ++ [a] } }
  | some (.call (.own x) k) => some (m.afterOwn hx i x k)
  | some (.call (.store o) k) =>
    if (∀ j, j ≠ i → (m.worker j).admits o = true) ∧ m.idleAdmits i o = true then
      some (m.afterStore fails i o k)
    else none

/-- Run along a schedule. -/
def run [Fintype ι] (fails : ℕ → Fallible → Bool) (hx : (x : X) → τ → RX x × τ)
    (prog : β → Prog (Op.Res (K := K) (V := V) RX) α) :
    List ι → Workers ι K V RX τ β α → Option (Workers ι K V RX τ β α)
  | [], m => some m
  | i :: ts, m => (m.step fails hx prog i).bind (run fails hx prog ts)

end Workers

/-! ### Programs that leave nothing in the pool -/

section

omit [Ord K] [TransOrd K] [DecidableEq C] [DecidableEq K]

/-- Whether something may be pending after a call, if the flag says whether before it. -/
def Op.mayPend : (e : Op K V X) → Op.Res RX e → Bool → Bool
  | .store (.put _ _ _), _, _ => true
  | .store (.delete _ _), _, _ => true
  | .store .begin, _, _ => false
  | .store .commit, _, _ => false
  | .store .rollback, _, _ => false
  | .store .release, _, _ => false
  | _, _, pending => pending

namespace Prog

/-- Nothing is pending when the program gives its transaction object back, nor when it returns.  The
flag says whether something may be pending now. -/
def Tidy : Bool → Prog (Op.Res (K := K) (V := V) RX) α → Prop
  | pending, .ret _ => pending = false
  | pending, .call (.store .release) k => pending = false ∧ (k ()).Tidy false
  | pending, .call e k => ∀ r, (k r).Tidy (e.mayPend r pending)

variable {γ : Type} {b : Bool} {p : Prog (Op.Res (K := K) (V := V) RX) α}
  {f : α → Prog (Op.Res (K := K) (V := V) RX) γ}

theorem Tidy.of_only {P : Op K V X → Prop} (hP : ∀ e, P e → ∀ r : Op.Res RX e,
    e.mayPend r false = false) (hp : p.Only P) : p.Tidy false := by
  induction p with
  | ret a => rfl
  | call e k ih =>
    have hk (r : Op.Res RX e) : (k r).Tidy (e.mayPend r false) := by
      rw [hP e hp.1 r]
      exact ih r (hp.2 r)
    cases e with
    | own x => exact hk
    | store o => cases o <;> first | exact hk | exact ⟨rfl, hk ()⟩

theorem Tidy.bind (hp : p.Tidy b) (hf : ∀ a, (f a).Tidy false) : (p >>= f).Tidy b := by
  change (p.bind f).Tidy b
  induction p generalizing b with
  | ret a =>
    obtain rfl : b = false := hp
    exact hf a
  | call e k ih =>
    cases e with
    | own x => exact fun r => ih r (hp r)
    | store o => cases o <;> first | exact fun r => ih r (hp r) | exact ⟨hp.1, ih () hp.2⟩

theorem Tracks.of_forall {P : Op K V X → Prop} {δ : Type}
    {g : (e : Op K V X) → Op.Res RX e → δ → δ} {Q : α → δ → Prop} (hp : p.Only P)
    (hQ : ∀ a s, Q a s) (s : δ) : p.Tracks P g Q s := by
  induction p generalizing s with
  | ret a => exact hQ a s
  | call e k ih => exact ⟨hp.1, fun r => ih r (hp.2 r) _⟩

theorem Tidy.of_tracks (hp : p.Tracks Op.Works Op.mayPend (fun a b => (f a).Tidy b) b) :
    (p >>= f).Tidy b := by
  change (p.bind f).Tidy b
  induction p generalizing b with
  | ret a => exact hp
  | call e k ih =>
    cases e with
    | own x => exact fun r => ih r (hp.2 r)
    | store o => cases o <;> first | exact hp.1.elim | exact fun r => ih r (hp.2 r)

end Prog

end

namespace Workers

/-- No idle transaction object holds a lock. -/
def PoolFree (m : Workers ι K V RX τ β α) : Prop := ∀ ws, some ws ∈ m.pool → ws = []

/-- The programs of the workers are tidy, and so is the pool. -/
structure Tidy (prog : β → Prog (Op.Res (K := K) (V := V) RX) α) (m : Workers ι K V RX τ β α) :
    Prop where
  free : m.PoolFree
  todo : ∀ i, ∀ b ∈ (m.worker i).todo, (prog b).Tidy false
  idle : ∀ i, (m.worker i).current = none → (m.worker i).pending = []
  atWork : ∀ i p, (m.worker i).current = some p →
    ∃ b, p.Tidy b ∧ (b = false → (m.worker i).pending = [])

variable [DecidableEq ι] {fails : ℕ → Fallible → Bool} {hx : (x : X) → τ → RX x × τ}
  {prog : β → Prog (Op.Res (K := K) (V := V) RX) α} {m m' : Workers ι K V RX τ β α} {i : ι}

omit [TransOrd K] [DecidableEq ι] in
theorem PoolFree.idleAdmits (h : m.PoolFree) (i : ι) (o : TxnOp K V) :
    m.idleAdmits i o = true := by
  have hlocked (l : C × K) : (m.db i).locked l = false := by
    rw [TxnDb.locked, List.any_eq_false]
    intro t ht
    cases t with
    | none => simp
    | some ws => simp [h ws ht]
  cases o <;> simp [Workers.idleAdmits, hlocked]

omit [TransOrd K] [DecidableEq C] [DecidableEq K] in
theorem Tidy.update (hT : m.Tidy prog) {W : Worker K V RX β α} {st : Store K V} {n : ℕ}
    {q : List (Option (List (Write K V)))} {c : τ} (hq : ∀ ws, some ws ∈ q → ws = [])
    (htodo : ∀ b ∈ W.todo, (prog b).Tidy false) (hidle : W.current = none → W.pending = [])
    (hwork : ∀ p, W.current = some p → ∃ b, p.Tidy b ∧ (b = false → W.pending = [])) :
    Tidy prog ⟨st, n, q, c, Function.update m.worker i W⟩ where
  free := hq
  todo := (Function.forall_update_iff m.worker fun _ W => ∀ b ∈ W.todo, (prog b).Tidy false).2
    ⟨htodo, fun j _ => hT.todo j⟩
  idle := (Function.forall_update_iff m.worker fun _ W => W.current = none → W.pending = []).2
    ⟨hidle, fun j _ => hT.idle j⟩
  atWork := (Function.forall_update_iff m.worker fun _ W => ∀ p, W.current = some p →
    ∃ b, p.Tidy b ∧ (b = false → W.pending = [])).2 ⟨hwork, fun j _ => hT.atWork j⟩

variable (RX) in
theorem pending_of_mayPend (hf : ∀ n e, fails n e = false) (o : TxnOp K V) (d : TxnDb K V)
    {b : Bool} (hb : b = false → d.pending = []) :
    @Op.mayPend C K V X RX (.store o) (o.handle fails d).1 b = false →
      (o.handle fails d).2.pending = [] := by
  cases o <;> simp [Op.mayPend, TxnOp.handle, TxnDb.tick, hf] <;> exact hb

theorem pool_handle (o : TxnOp K V) {d : TxnDb K V} (ho : o = .release → d.pending = [])
    (hd : ∀ ws, some ws ∈ d.pool → ws = []) :
    ∀ ws, some ws ∈ (o.handle fails d).2.pool → ws = [] := by
  intro ws hws
  cases o with
  | «begin» => exact hd ws (List.mem_of_mem_tail hws)
  | release =>
    rcases List.mem_append.1 hws with hws | hws
    · exact hd ws hws
    · rw [ho rfl] at hws
      simpa using hws
  | put | delete | commit | rollback =>
    -- whether the call fails or not, the pool stays as it is
    simp only [TxnOp.handle] at hws
    split at hws <;> exact hd ws hws
  | _ => exact hd ws hws

theorem Tidy.store (hf : ∀ n e, fails n e = false) (hT : m.Tidy prog) {o : TxnOp K V}
    {k : o.Res → Prog (Op.Res (K := K) (V := V) RX) α}
    (hcur : (m.worker i).current = some (.call (.store o) k)) :
    (m.afterStore fails i o k).Tidy prog := by
  obtain ⟨b, hb, hpend⟩ := hT.atWork i _ hcur
  have hrel (ho : o = .release) : (m.db i).pending = [] := by
    subst ho
    exact hpend hb.1
  refine hT.update (pool_handle o hrel hT.free) (hT.todo i) (fun h => by simp at h) fun p hp => ?_
  obtain rfl := Option.some.inj hp
  by_cases ho : o = .release
  · subst ho
    exact ⟨false, hb.2, fun _ => rfl⟩
  · refine ⟨_, ?_, pending_of_mayPend RX hf o (m.db i) hpend⟩
    cases o <;> first | exact absurd rfl ho | exact hb _

variable [Fintype ι]

theorem Tidy.step (hf : ∀ n e, fails n e = false) (hT : m.Tidy prog)
    (hs : m.step fails hx prog i = some m') : m'.Tidy prog := by
  unfold Workers.step at hs
  split at hs
  case h_1 hcur =>
    split at hs
    case h_1 => simp at hs
    case h_2 b bs htodo =>
      obtain rfl := Option.some.inj hs
      have hall := hT.todo i
      rw [htodo] at hall
      refine hT.update hT.free (fun b' hb' => hall b' (List.mem_cons_of_mem _ hb'))
        (fun h => by simp at h) fun p hp => ?_
      obtain rfl := Option.some.inj hp
      exact ⟨false, hall b List.mem_cons_self, fun _ => hT.idle i hcur⟩
  case h_2 a hcur =>
    obtain rfl := Option.some.inj hs
    obtain ⟨b, hb, hpend⟩ := hT.atWork i _ hcur
    exact hT.update hT.free (hT.todo i) (fun _ => hpend hb) fun p hp => by simp at hp
  case h_3 x k hcur =>
    obtain rfl := Option.some.inj hs
    obtain ⟨b, hb, hpend⟩ := hT.atWork i _ hcur
    refine hT.update hT.free (hT.todo i) (fun h => by simp at h) fun p hp => ?_
    obtain rfl := Option.some.inj hp
    exact ⟨b, hb _, hpend⟩
  case h_4 o k hcur =>
    split_ifs at hs with hadm
    obtain rfl := Option.some.inj hs
    exact hT.store hf hcur

/-- **In a run of tidy programs no idle transaction object ever holds a lock.** -/
theorem Tidy.run (hf : ∀ n e, fails n e = false) (hT : m.Tidy prog) {ts : List ι}
    (hr : m.run fails hx prog ts = some m') : m'.Tidy prog := by
  induction ts generalizing m with
  | nil =>
    obtain rfl := Option.some.inj hr
    exact hT
  | cons i ts ih =>
    obtain ⟨m₁, hs, hr⟩ := Option.bind_eq_some_iff.1 hr
    exact ih (hT.step hf hs) hr

end Workers

end ConfigDb
