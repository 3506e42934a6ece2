import ConfigDb.Effect.Interleave

/-!
# Processes that are killed

A process works off a list of jobs, and may be killed between any two calls of their programs.
What is lost with it is its own state and the transaction it was at; what has been committed stays.

## Main definitions

* `Prog.cut` : the run of a program, cut off after a number of calls.
* `Prog.cutAll` : the run of the programs of a list of jobs, cut off after a number of calls.

## Main result

* `cutAll_atomic` : if every program commits at most once, then the committed store is that after
  some of the jobs, done in full: those that have been answered, and at most one more.
-/

namespace ConfigDb

open Std

namespace Prog

variable {E : Type} {R : E → Type} {σ α β : Type}

/-- The run of a program, cut off after `n` calls: what it has returned, if it has, and how many
calls are left then; and the state. -/
def cut (h : (e : E) → σ → R e × σ) : Prog R α → ℕ → σ → Option (α × ℕ) × σ
  | .ret a, n, s => (some (a, n), s)
  | .call _ _, 0, s => (none, s)
  | .call e k, n + 1, s => cut h (k (h e s).1) n (h e s).2

/-- The runs of the programs of some jobs, one after the other, cut off after `n` calls: the answers
of those that have returned, and the state. -/
def cutAll (h : (e : E) → σ → R e × σ) (prog : β → Prog R α) : List β → ℕ → σ → List α × σ
  | [], _, s => ([], s)
  | b :: bs, n, s => match (prog b).cut h n s with
    | (none, s') => ([], s')
    | (some (a, n'), s') => (a :: (cutAll h prog bs n' s').1, (cutAll h prog bs n' s').2)

variable {h : (e : E) → σ → R e × σ}

section

variable {prog : β → Prog R α} {b : β} {bs : List β} {n n' : ℕ} {s s' : σ} {a : α}

theorem cutAll_of_none (hb : (prog b).cut h n s = (none, s')) :
    cutAll h prog (b :: bs) n s = ([], s') := by
  simp [cutAll, hb]

theorem cutAll_of_some (hb : (prog b).cut h n s = (some (a, n'), s')) :
    cutAll h prog (b :: bs) n s =
      (a :: (cutAll h prog bs n' s').1, (cutAll h prog bs n' s').2) := by
  simp [cutAll, hb]

end

theorem run_of_cut {p : Prog R α} {n n' : ℕ} {s s' : σ} {a : α}
    (hp : p.cut h n s = (some (a, n'), s')) : p.run h s = (a, s') := by
  induction p generalizing n s with
  | ret a =>
    simp only [cut, Prod.mk.injEq, Option.some.injEq] at hp
    obtain ⟨⟨rfl, -⟩, rfl⟩ := hp
    rfl
  | call e k ih =>
    cases n with
    | zero => simp [cut] at hp
    | succ n => exact ih _ hp

theorem Only.cut_invariant {P : E → Prop} {I : σ → Prop} (hI : ∀ e s, P e → I s → I (h e s).2)
    {p : Prog R α} (hp : p.Only P) (n : ℕ) {s : σ} (hs : I s) : I (p.cut h n s).2 := by
  induction p generalizing n s with
  | ret a => exact hs
  | call e k ih =>
    cases n with
    | zero => exact hs
    | succ n => exact ih _ (hp.2 _) n (hI e s hp.1 hs)

end Prog

variable {C K : Type} {V : C → Type} {X : Type} {RX : X → Type} {τ α β : Type}

variable [Ord K] [TransOrd K] [DecidableEq C] [DecidableEq K]

variable {fails : ℕ → Fallible → Bool} {hx : (x : X) → τ → RX x × τ}

theorem TxnOp.handle_committed {o : TxnOp K V} (ho : o ≠ .commit) (d : TxnDb K V) :
    (o.handle fails d).2.committed = d.committed := by
  cases o with
  | commit => exact absurd rfl ho
  | put c k v =>
    simp only [TxnOp.handle]
    split <;> rfl
  | delete c k =>
    simp only [TxnOp.handle]
    split <;> rfl
  | rollback =>
    simp only [TxnOp.handle]
    split <;> rfl
  | _ => rfl

theorem Op.NoCommit.handle {e : Op K V X} (he : e.NoCommit) (s : TxnDb K V × τ) :
    (Op.handle (TxnOp.handle fails) hx e s).2.1.committed = s.1.committed := by
  cases e with
  | own x => rfl
  | store o =>
    refine TxnOp.handle_committed ?_ s.1
    rintro rfl
    exact he

theorem Prog.Only.cut_committed {p : Prog (Op.Res (K := K) (V := V) RX) α}
    (hp : p.Only Op.NoCommit) (n : ℕ) (s : TxnDb K V × τ) :
    (p.cut (Op.handle (TxnOp.handle fails) hx) n s).2.1.committed = s.1.committed :=
  hp.cut_invariant (I := fun t : TxnDb K V × τ => t.1.committed = s.1.committed)
    (fun _ t he ht => (Op.NoCommit.handle he t).trans ht) n rfl

theorem Prog.Only.run_committed {p : Prog (Op.Res (K := K) (V := V) RX) α}
    (hp : p.Only Op.NoCommit) (s : TxnDb K V × τ) :
    (p.run (Op.handle (TxnOp.handle fails) hx) s).2.1.committed = s.1.committed :=
  hp.run_invariant (I := fun t : TxnDb K V × τ => t.1.committed = s.1.committed)
    (fun _ t he ht => (Op.NoCommit.handle he t).trans ht) rfl

/-- **A program that commits at most once is atomic**: wherever it is cut off, the committed store
is the one before it or the one after it. -/
theorem CommitsOnce.cut {p : Prog (Op.Res (K := K) (V := V) RX) α} (hp : CommitsOnce p) (n : ℕ)
    (s : TxnDb K V × τ) :
    (p.cut (Op.handle (TxnOp.handle fails) hx) n s).2.1.committed = s.1.committed ∨
      (p.cut (Op.handle (TxnOp.handle fails) hx) n s).2.1.committed =
        (p.run (Op.handle (TxnOp.handle fails) hx) s).2.1.committed := by
  induction p generalizing n s with
  | ret a => exact .inl rfl
  | call e k ih =>
    cases n with
    | zero => exact .inl rfl
    | succ n =>
      have hgo (he : e.NoCommit) (hk : ∀ r, CommitsOnce (k r)) :=
        ih (Op.handle (TxnOp.handle fails) hx e s).1 (hk _) n
          (Op.handle (TxnOp.handle fails) hx e s).2
      cases e with
      | own x => exact hgo trivial hp
      | store o =>
        by_cases ho : o = .commit
        · -- after the commit nothing more is committed
          subst ho
          have hk := (hp (Op.handle (TxnOp.handle fails) hx (.store .commit) s).1).mono
            Op.Blind.noCommit
          refine .inr (((hk.cut_committed n _).trans ?_))
          exact (hk.run_committed _).symm
        · -- before the commit the store is the old one
          have he : (Op.store (X := X) o).NoCommit := by
            cases o with
            | commit => exact absurd rfl ho
            | _ => trivial
          have hk : ∀ r, CommitsOnce (k r) := by
            cases o with
            | commit => exact absurd rfl ho
            | _ => exact hp
          have hkeep : (Op.handle (TxnOp.handle fails) hx (Op.store o) s).2.1.committed =
              s.1.committed := he.handle s
          rw [← hkeep]
          exact hgo he hk

/-- **Jobs that commit at most once are atomic and durable**: wherever their process is killed, the
committed store is that after some of the jobs, done in full.  They are the ones that have been
answered, in order, and at most one more. -/
theorem cutAll_atomic {prog : β → Prog (Op.Res (K := K) (V := V) RX) α} {bs : List β}
    (hbs : ∀ b ∈ bs, CommitsOnce (prog b)) (n : ℕ) (s : TxnDb K V × τ) :
    let h := Op.handle (TxnOp.handle fails) hx
    let next := fun s b => ((prog b).run h s).2
    let r := Prog.cutAll h prog bs n s
    r.1.length ≤ bs.length ∧ ∃ k, r.1.length ≤ k ∧ k ≤ r.1.length + 1 ∧
      r.2.1.committed = ((bs.take k).foldl next s).1.committed := by
  intro h next r
  induction bs generalizing n s with
  | nil => exact ⟨Nat.le_refl _, 0, Nat.le_refl _, Nat.zero_le _, rfl⟩
  | cons b bs ih =>
    have hcut : ((prog b).cut h n s).2.1.committed = s.1.committed ∨
        ((prog b).cut h n s).2.1.committed = (next s b).1.committed :=
      (hbs b (by simp)).cut n s
    cases hb : (prog b).cut h n s with
    | mk o s' =>
      rw [hb] at hcut
      cases o with
      | none =>
        -- the process is killed in this job
        have hr : r = ([], s') := Prog.cutAll_of_none hb
        rw [hr]
        refine ⟨Nat.zero_le _, ?_⟩
        rcases hcut with hcut | hcut
        · exact ⟨0, Nat.le_refl _, Nat.zero_le _, hcut⟩
        · exact ⟨1, Nat.zero_le _, Nat.le_refl _, hcut⟩
      | some an =>
        obtain ⟨a, n'⟩ := an
        -- the job is answered, and the process goes on
        obtain ⟨hlen, k, hk, hk', hcom⟩ := ih (fun b' hb' => hbs b' (by simp [hb'])) n' s'
        have hr : r = (a :: (Prog.cutAll h prog bs n' s').1, (Prog.cutAll h prog bs n' s').2) :=
          Prog.cutAll_of_some hb
        have hnext : next s b = s' := congrArg Prod.snd (Prog.run_of_cut hb)
        rw [hr]
        refine ⟨Nat.succ_le_succ hlen, k + 1, Nat.succ_le_succ hk, Nat.succ_le_succ hk', ?_⟩
        rw [List.take_succ_cons, List.foldl_cons, hnext]
        exact hcom

end ConfigDb
