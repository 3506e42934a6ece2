import ConfigDb.Effect.Crash
import ConfigDb.Storage.Concurrency
import ConfigDb.Storage.Insertion
import ConfigDb.Storage.Refinement

/-!
# Kills and restarts

The process may be killed between any two calls that it makes to the database or to itself; a
database call itself happens or does not happen.  It is started again with the columns that are on
disk, with an empty value cache, and with new transaction objects.

Nothing is assumed of the environment: in every life any database call may fail, the stop flag may
be set and the encrypter pool may be exhausted at any time.

## Main results

* `lives_whole` : over any number of lives, the columns and the answers are those of whole calls,
  all calls that were answered among them.
* `lives_invariant` : what whole calls keep, lives keep; `lives_wellFormed` is one case of it.
-/

namespace ConfigDb

open Std

/-- One life of the process. -/
structure Life where
  /-- The environment it lives in. -/
  env : Env
  /-- The calls that it is asked to make. -/
  calls : List Call
  /-- The number of calls to the database and to itself after which it is killed. -/
  length : ℕ

/-- The answers that the process gives in one life, begun with the columns `cols` on disk, and the
columns that it leaves. -/
def Life.run (cfg : Config) (n : ℕ) (L : Life) (cols : Columns) : List Answer × Columns :=
  let r := Prog.cutAll (Op.handle (TxnOp.handle L.env.fails) (ProcOp.handle L.env)) (Call.prog cfg)
    L.calls L.length (Db.idle cols n)
  (r.1, r.2.1.committed)

/-- One life after the other: the answers given in each, and the columns left by the last. -/
def lives (cfg : Config) (n : ℕ) : List Life → Columns → List (List Answer) × Columns
  | [], cols => ([], cols)
  | L :: Ls, cols =>
    ((L.run cfg n cols).1 :: (lives cfg n Ls (L.run cfg n cols).2).1,
      (lives cfg n Ls (L.run cfg n cols).2).2)

/-- **Lives without torn calls**: in every life some of the calls are made, each of them in full.
These are the calls that have been answered, and at most one more. -/
inductive Whole (cfg : Config) (n : ℕ) :
    Columns → List Life → List (List Answer) → Columns → Prop
  | nil (cols : Columns) : Whole cfg n cols [] [] cols
  | cons {cols cols' : Columns} {L : Life} {Ls : List Life} {as : List Answer}
      {ass : List (List Answer)} (k : ℕ) (hk : as.length ≤ k) (hk' : k ≤ as.length + 1)
      (has : as = answers L.env cfg (Db.idle cols n) (L.calls.take as.length))
      (rest : Whole cfg n (runCalls L.env cfg (Db.idle cols n) (L.calls.take k)).columns Ls ass
        cols') : Whole cfg n cols (L :: Ls) (as :: ass) cols'

variable {cfg : Config} {n : ℕ}

@[simp] theorem length_answers (env : Env) (cfg : Config) (s : Db) (cs : List Call) :
    (answers env cfg s cs).length = cs.length := by
  induction cs generalizing s with
  | nil => rfl
  | cons c cs ih => simp [answers, ih]

theorem cutAll_answers (env : Env) (cs : List Call) (l : ℕ) (s : Db) :
    let as := (Prog.cutAll (Op.handle (TxnOp.handle env.fails) (ProcOp.handle env)) (Call.prog cfg)
      cs l s).1
    as = answers env cfg s (cs.take as.length) := by
  induction cs generalizing l s with
  | nil => rfl
  | cons c cs ih =>
    cases hc : (c.prog cfg).cut (Op.handle (TxnOp.handle env.fails) (ProcOp.handle env)) l s with
    | mk o s' =>
      cases o with
      | none =>
        -- killed in this call, which is not answered
        rw [Prog.cutAll_of_none hc]
        rfl
      | some an =>
        obtain ⟨a, l'⟩ := an
        have hrun : exec env (c.prog cfg) s = (a, s') := Prog.run_of_cut hc
        have ha : c.answer env cfg s = a := congrArg Prod.fst hrun
        have hs : c.next env cfg s = s' := congrArg Prod.snd hrun
        rw [Prog.cutAll_of_some hc]
        simp only [List.length_cons, List.take_succ_cons, answers, ha, hs]
        exact congrArg (a :: ·) (ih l' s')

/-- A life leaves the columns as whole calls do: those it answered, and at most one more. -/
theorem Life.run_whole (cfg : Config) (n : ℕ) (cols : Columns) (L : Life) :
    ∃ k, (L.run cfg n cols).1.length ≤ k ∧ k ≤ (L.run cfg n cols).1.length + 1 ∧
      (L.run cfg n cols).2 = (runCalls L.env cfg (Db.idle cols n) (L.calls.take k)).columns :=
  (cutAll_atomic (fun c _ => Call.commitsOnce cfg c) L.length (Db.idle cols n)).2

/-- **Kills tear no call and lose no answered call.**  Over any number of lives of the process, each
in an environment of its own and killed at any time, the answers and the columns are those of whole
calls: in every life those of the calls that were answered, in order, and at most of one more. -/
theorem lives_whole (cfg : Config) (n : ℕ) (Ls : List Life) (cols : Columns) :
    Whole cfg n cols Ls (lives cfg n Ls cols).1 (lives cfg n Ls cols).2 := by
  induction Ls generalizing cols with
  | nil => exact .nil cols
  | cons L Ls ih =>
    obtain ⟨k, hk, hk', hcols⟩ := L.run_whole cfg n cols
    refine .cons k hk hk' (cutAll_answers L.env L.calls L.length (Db.idle cols n)) ?_
    rw [← hcols]
    exact ih (L.run cfg n cols).2

/-- What calls keep, made in full by a process that has just been started, lives keep. -/
theorem lives_invariant {I : Columns → Prop}
    (hI : ∀ env cols cs, I cols → I (runCalls env cfg (Db.idle cols n) cs).columns)
    (Ls : List Life) {cols : Columns} (hcols : I cols) : I (lives cfg n Ls cols).2 := by
  induction Ls generalizing cols with
  | nil => exact hcols
  | cons L Ls ih =>
    -- the last call may not have been answered, but it has been made in full
    obtain ⟨k, -, -, hleft⟩ := L.run_whole cfg n cols
    refine ih ?_
    rw [hleft]
    exact hI L.env cols (L.calls.take k) hcols

/-- The columns are well formed after any number of kills. -/
theorem lives_wellFormed (Ls : List Life) {cols : Columns} (hcols : cols.WellFormed) :
    (lives cfg n Ls cols).2.WellFormed := by
  refine lives_invariant (fun env cols cs h => ?_) Ls hcols
  have hidle : (Db.idle cols n).WellFormed := ⟨h, fun _ _ _ hmem => by simp [Db.idle] at hmem⟩
  exact (runCalls_wellFormed cs hidle).committed

end ConfigDb
