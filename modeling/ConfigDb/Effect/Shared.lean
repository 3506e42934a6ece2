import ConfigDb.Effect.Interleave

/-!
# Two threads of one process

Two threads of a process run a program each.  Every thread has a transaction of its own; the
committed store, the mutex and the state of the process are shared, and a schedule says whose call
comes next.  Database calls may fail: the environment decides, by the number of calls made so far.

A thread waits while the other one holds the mutex, or the lock of the key it writes.  The pool of
transaction objects is not modelled here: a lock left behind in the pool makes a write fail, and any
write may fail.

## Main definitions

* `Thread`, `Shared` : a thread, and two of them with what they share.
* `Shared.step`, `Shared.run` : one call of a thread, and the run along a schedule.
* `Shared.trace` : the calls made so far, and by whom.

## Main result

* `Shared.run_invariant` : what every call preserves, a run preserves.
-/

namespace ConfigDb

open Std

variable {C K : Type} {V : C → Type} {X : Type} {RX : X → Type} {τ α : Type}

/-- A thread at work. -/
structure Thread (K : Type) (V : C → Type) {X : Type} (RX : X → Type) (α : Type) where
  /-- The rest of its program. -/
  prog : Prog (Op.Res (K := K) (V := V) RX) α
  /-- The pending writes of its transaction, which are also the locks it holds. -/
  pending : List (Write K V)
  /-- Whether it holds the mutex: shared (`false`) or exclusively (`true`). -/
  holds : Option Bool

/-- A thread at the beginning of its program. -/
def Thread.start (prog : Prog (Op.Res (K := K) (V := V) RX) α) : Thread K V RX α :=
  ⟨prog, [], none⟩

/-- What the thread has returned, if it has. -/
def Thread.returned (T : Thread K V RX α) : Option α :=
  match T.prog with
  | .ret a => some a
  | .call _ _ => none

theorem Thread.returned_eq_some {T : Thread K V RX α} {a : α} :
    T.returned = some a ↔ T.prog = .ret a := by
  unfold Thread.returned
  cases T.prog <;> simp

variable [Ord K] [TransOrd K]

/-- Two threads, told apart by a `Bool`, and what they share. -/
structure Shared (K : Type) [Ord K] (V : C → Type) {X : Type} (RX : X → Type) (τ α : Type) where
  /-- The committed store. -/
  committed : Store K V
  /-- The number of fallible database calls made so far. -/
  calls : ℕ
  /-- The state of the process. -/
  common : τ
  /-- The threads. -/
  thread : Bool → Thread K V RX α
  /-- The calls made so far, oldest first, and the threads that made them. -/
  trace : List (Bool × Op K V X)

variable [DecidableEq C] [DecidableEq K]

/-- The database as the transaction of a thread sees it. -/
def Thread.db (T : Thread K V RX α) (st : Store K V) (calls : ℕ) : TxnDb K V :=
  ⟨st, T.pending, [], calls⟩

/-- The thread does not keep the other one from making the database call. -/
def Thread.admits (T : Thread K V RX α) : TxnOp K V → Bool
  | .put c k _ => T.pending.all fun w => w.loc ≠ (c, k)
  | .delete c k => T.pending.all fun w => w.loc ≠ (c, k)
  | .lock exclusive => match T.holds with
    | none => true
    | some e => !(exclusive || e)
  | _ => true

namespace Shared

/-- The threads at the beginning of their programs. -/
def start (prog : Bool → Prog (Op.Res (K := K) (V := V) RX) α) (st : Store K V) (calls : ℕ)
    (common : τ) : Shared K V RX τ α :=
  ⟨st, calls, common, fun i => .start (prog i), []⟩

/-- The state after the thread `i` has called the process. -/
def afterOwn (hx : (x : X) → τ → RX x × τ) (i : Bool) (m : Shared K V RX τ α) (x : X)
    (k : RX x → Prog (Op.Res (K := K) (V := V) RX) α) : Shared K V RX τ α where
  committed := m.committed
  calls := m.calls
  common := (hx x m.common).2
  thread := Function.update m.thread i { m.thread i with prog := k (hx x m.common).1 }
  trace := m.trace ++ [(i, .own x)]

/-- The state after the thread `i` has called the database. -/
def afterStore (fails : ℕ → Fallible → Bool) (i : Bool) (m : Shared K V RX τ α) (o : TxnOp K V)
    (k : o.Res → Prog (Op.Res (K := K) (V := V) RX) α) : Shared K V RX τ α :=
  let r := o.handle fails ((m.thread i).db m.committed m.calls)
  { committed := r.2.committed
    calls := r.2.calls
    common := m.common
    thread := Function.update m.thread i ⟨k r.1, r.2.pending, o.holds (m.thread i).holds⟩
    trace := m.trace ++ [(i, .store o)] }

/-- One call of the thread `i`; `none` if it has returned or has to wait. -/
def step (fails : ℕ → Fallible → Bool) (hx : (x : X) → τ → RX x × τ) (i : Bool)
    (m : Shared K V RX τ α) : Option (Shared K V RX τ α) :=
  match (m.thread i).prog with
  | .ret _ => none
  | .call (.own x) k => some (m.afterOwn hx i x k)
  | .call (.store o) k => if (m.thread !i).admits o then some (m.afterStore fails i o k) else none

/-- Run along a schedule. -/
def run (fails : ℕ → Fallible → Bool) (hx : (x : X) → τ → RX x × τ) :
    List Bool → Shared K V RX τ α → Option (Shared K V RX τ α)
  | [], m => some m
  | i :: ts, m => (m.step fails hx i).bind (run fails hx ts)

variable {fails : ℕ → Fallible → Bool} {hx : (x : X) → τ → RX x × τ} {m m' : Shared K V RX τ α}

omit [TransOrd K] [DecidableEq C] [DecidableEq K] in
@[simp] theorem afterOwn_self (i : Bool) (x : X)
    (k : RX x → Prog (Op.Res (K := K) (V := V) RX) α) :
    (m.afterOwn hx i x k).thread i = { m.thread i with prog := k (hx x m.common).1 } := by
  simp [afterOwn]

omit [TransOrd K] [DecidableEq C] [DecidableEq K] in
@[simp] theorem afterOwn_other (i : Bool) (x : X)
    (k : RX x → Prog (Op.Res (K := K) (V := V) RX) α) :
    (m.afterOwn hx i x k).thread (!i) = m.thread !i := by
  simp [afterOwn]

@[simp] theorem afterStore_self (i : Bool) (o : TxnOp K V)
    (k : o.Res → Prog (Op.Res (K := K) (V := V) RX) α) :
    (m.afterStore fails i o k).thread i =
      ⟨k (o.handle fails ((m.thread i).db m.committed m.calls)).1,
        (o.handle fails ((m.thread i).db m.committed m.calls)).2.pending,
        o.holds (m.thread i).holds⟩ := by
  simp [afterStore]

@[simp] theorem afterStore_other (i : Bool) (o : TxnOp K V)
    (k : o.Res → Prog (Op.Res (K := K) (V := V) RX) α) :
    (m.afterStore fails i o k).thread (!i) = m.thread !i := by
  simp [afterStore]

theorem step_of_ret {i : Bool} {a : α} (h : (m.thread i).prog = .ret a) :
    m.step fails hx i = none := by
  simp [step, h]

theorem step_own {i : Bool} {x : X} {k : RX x → Prog (Op.Res (K := K) (V := V) RX) α}
    (hp : (m.thread i).prog = .call (.own x) k) (h : m.step fails hx i = some m') :
    m' = m.afterOwn hx i x k := by
  simp only [step, hp, Option.some.injEq] at h
  exact h.symm

theorem step_store {i : Bool} {o : TxnOp K V} {k : o.Res → Prog (Op.Res (K := K) (V := V) RX) α}
    (hp : (m.thread i).prog = .call (.store o) k) (h : m.step fails hx i = some m') :
    (m.thread !i).admits o = true ∧ m' = m.afterStore fails i o k := by
  simp only [step, hp, Option.ite_none_right_eq_some, Option.some.injEq] at h
  exact ⟨h.1, h.2.symm⟩

theorem step_other {i : Bool} (h : m.step fails hx i = some m') :
    m'.thread (!i) = m.thread !i := by
  cases hp : (m.thread i).prog with
  | ret a => simp [step_of_ret hp] at h
  | call e k =>
    cases e with
    | own x => rw [step_own hp h, afterOwn_other]
    | store o => rw [(step_store hp h).2, afterStore_other]

/-- **What every call preserves, a run preserves.** -/
theorem run_invariant {I : Shared K V RX τ α → Prop}
    (hI : ∀ i m m', I m → m.step fails hx i = some m' → I m') {ts : List Bool} (hm : I m)
    (hr : m.run fails hx ts = some m') : I m' := by
  induction ts generalizing m with
  | nil =>
    cases hr
    exact hm
  | cons i ts ih =>
    obtain ⟨m₁, hs, hr⟩ := Option.bind_eq_some_iff.1 hr
    exact ih (hI i m m₁ hm hs) hr

end Shared

end ConfigDb
