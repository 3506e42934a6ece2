import ConfigDb.Effect.Prog
import ConfigDb.Effect.Store

/-!
# A transactional database with a pool of transaction objects

The calls that a program makes to a transactional key-value database, and two ways of answering
them one at a time.

* `TxnOp.handle` is the faithful one.  Any call may fail; a write asks for a lock on its key,
  which the transaction keeps until it commits, rolls back or is begun anew; and transaction
  objects come from a first-in first-out pool of objects that are used again, with whatever they
  still hold.
* `TxnOp.ideal` is the database in which no call ever fails: nothing is left of the pool, the
  locks and the pending writes but the *view* of the current transaction, that is the committed
  store with the pending writes laid over it.

`TxnOp.handle_ideal` connects the two: as long as no call fails, the faithful database answers
like the ideal one.

`run_writes` says what reaches the committed store: only what the run itself has written.

`Op` adds to the database calls the calls a program makes to its own process (a clock, a cache).
-/

namespace ConfigDb

open Std

variable {C K : Type} {V : C → Type}

/-- The answer to a lookup. -/
inductive Reply (α : Type)
  /-- The key is present. -/
  | ok (a : α)
  /-- The key is absent. -/
  | notFound
  /-- The lookup failed. -/
  | error
  deriving DecidableEq

/-- The answer to a lookup that does not fail. -/
def Reply.ofOption {α : Type} : Option α → Reply α
  | some a => .ok a
  | none => .notFound

@[simp] theorem Reply.ofOption_some {α : Type} (a : α) : Reply.ofOption (some a) = .ok a := rfl

@[simp] theorem Reply.ofOption_none {α : Type} : Reply.ofOption (none : Option α) = .notFound := rfl

/-- Calls to the database, and to the readers-writer mutex that guards it. -/
inductive TxnOp (K : Type) (V : C → Type)
  /-- Take the mutex, exclusively or shared. -/
  | lock (exclusive : Bool)
  /-- Give the mutex back. -/
  | unlock
  /-- Take a transaction object from the pool and begin a transaction with it. -/
  | begin
  /-- Look a key up inside the transaction. -/
  | get (c : C) (k : K)
  /-- Write a key inside the transaction. -/
  | put (c : C) (k : K) (v : V c)
  /-- Delete a key inside the transaction. -/
  | delete (c : C) (k : K)
  /-- Commit the transaction. -/
  | commit
  /-- Roll the transaction back. -/
  | rollback
  /-- Put the transaction object back into the pool. -/
  | release
  /-- Look a key up in the committed store, outside the transaction. -/
  | read (c : C) (k : K)
  /-- Iterate, in key order, over the committed entries of a column below a bound. -/
  | scan (c : C) (hi : K)

/-- The answers to the database calls; a `Bool` says whether the call was accepted. -/
abbrev TxnOp.Res : TxnOp K V → Type
  | .lock _ => Unit
  | .unlock => Unit
  | .begin => Unit
  | .get c _ => Reply (V c)
  | .put _ _ _ => Bool
  | .delete _ _ => Bool
  | .commit => Bool
  | .rollback => Bool
  | .release => Unit
  | .read c _ => Reply (V c)
  | .scan c _ => List (K × V c)

/-- The calls of a program: to the database, or to its own process. -/
inductive Op (K : Type) (V : C → Type) (X : Type)
  /-- A call to the database. -/
  | store (o : TxnOp K V)
  /-- A call to the process itself. -/
  | own (x : X)

/-- The answers to the calls of a program. -/
abbrev Op.Res {X : Type} (RX : X → Type) : Op K V X → Type
  | .store o => o.Res
  | .own x => RX x

/-- Answer database calls by `hs` and the process's own calls by `hx`, each on its own half of
the state. -/
def Op.handle {X σ τ : Type} {RX : X → Type} (hs : (o : TxnOp K V) → σ → o.Res × σ)
    (hx : (x : X) → τ → RX x × τ) : (e : Op K V X) → σ × τ → Op.Res RX e × (σ × τ)
  | .store o, s => ((hs o s.1).1, ((hs o s.1).2, s.2))
  | .own x, s => ((hx x s.2).1, (s.1, (hx x s.2).2))

variable [Ord K] [TransOrd K]

/-- The entries of a column below a bound, in key order. -/
def Store.below (s : Store K V) (c : C) (hi : K) : List (K × V c) :=
  (s c).toList.takeWhile fun e => compare e.1 hi == .lt

theorem takeWhile_eq_filter {α : Type} {r : α → α → Prop} {p : α → Bool}
    (hp : ∀ a b, r a b → p b = true → p a = true) {l : List α} (h : l.Pairwise r) :
    l.takeWhile p = l.filter p := by
  induction l with
  | nil => rfl
  | cons a l ih =>
    rw [List.pairwise_cons] at h
    cases ha : p a with
    | true => rw [List.takeWhile_cons_of_pos ha, List.filter_cons_of_pos ha, ih h.2]
    | false =>
      rw [List.takeWhile_cons_of_neg (by simp [ha]), List.filter_cons_of_neg (by simp [ha]),
        eq_comm, List.filter_eq_nil_iff]
      intro b hb hpb
      simp [hp a b (h.1 b hb) hpb] at ha

theorem Store.below_eq_filter (s : Store K V) (c : C) (hi : K) :
    s.below c hi = (s c).toList.filter fun e => compare e.1 hi == .lt := by
  refine takeWhile_eq_filter (r := fun a b => compare a.1 b.1 = .lt) (fun a b hab hb => ?_)
    (s c).ordered_keys_toList
  rw [beq_iff_eq] at hb ⊢
  exact TransCmp.lt_trans hab hb

/-- **The entries below a bound** are exactly those whose keys are less. -/
theorem Store.mem_below [LawfulEqOrd K] {s : Store K V} {c : C} {hi k : K} {v : V c} :
    (k, v) ∈ s.below c hi ↔ s.get c k = some v ∧ compare k hi = .lt := by
  rw [Store.below_eq_filter, List.mem_filter, ExtTreeMap.mem_toList_iff_getElem?_eq_some,
    beq_iff_eq]
  rfl

theorem Store.below_congr [LawfulEqOrd K] {s t : Store K V} {c : C} {hi : K}
    (h : ∀ k, compare k hi = .lt → s.get c k = t.get c k) : s.below c hi = t.below c hi := by
  -- two strictly ordered lists with the same entries are equal
  have : Std.Irrefl fun a b : K × V c => compare a.1 b.1 = .lt := ⟨fun a => by simp⟩
  have : Std.Asymm fun a b : K × V c => compare a.1 b.1 = .lt := ⟨fun a b h h' => by
    rw [OrientedCmp.gt_of_lt h'] at h
    cases h⟩
  have hord (u : Store K V) : (u.below c hi).Pairwise fun a b => compare a.1 b.1 = .lt := by
    rw [Store.below_eq_filter]
    exact (u c).ordered_keys_toList.filter _
  refine List.Pairwise.eq_of_mem_iff (hord s) (hord t) fun e => ?_
  obtain ⟨k, v⟩ := e
  rw [Store.mem_below, Store.mem_below]
  exact and_congr_left fun hlt => by rw [h k hlt]

/-! ### The faithful database -/

/-- The kinds of calls that may fail. -/
inductive Fallible
  /-- A lookup, inside or outside a transaction. -/
  | lookup
  /-- A put or delete; it is contended if another transaction object holds the lock it needs. -/
  | write (contended : Bool)
  /-- A commit. -/
  | commit
  /-- A rollback. -/
  | rollback
  /-- An iteration. -/
  | scan
  deriving DecidableEq

/-- The state of the database and of the pool of transaction objects. -/
structure TxnDb (K : Type) [Ord K] (V : C → Type) where
  /-- The committed store. -/
  committed : Store K V
  /-- The pending writes of the transaction in use, oldest first.  They are also the locks it
  holds: one on the location of each pending write. -/
  pending : List (Write K V)
  /-- The idle transaction objects, next to be used first; `none` is a slot whose object has not
  been created yet, `some ws` an object that still holds the pending writes `ws`. -/
  pool : List (Option (List (Write K V)))
  /-- The number of fallible calls made so far. -/
  calls : ℕ

namespace TxnDb

variable [DecidableEq C] [DecidableEq K]

/-- Some idle transaction object holds the lock on a location. -/
def locked (d : TxnDb K V) (l : C × K) : Bool :=
  d.pool.any fun t => match t with
    | none => false
    | some ws => ws.any fun w => decide (w.loc = l)

/-- What the current transaction sees. -/
def view (d : TxnDb K V) : Store K V := d.committed.applyAll d.pending

/-- One more fallible call has been made. -/
def tick (d : TxnDb K V) : TxnDb K V := { d with calls := d.calls + 1 }

end TxnDb

variable [DecidableEq C] [DecidableEq K]

/-- The faithful database.  `fails n e` says whether the `n`-th fallible call, which is of kind `e`,
fails. -/
def TxnOp.handle (fails : ℕ → Fallible → Bool) : (o : TxnOp K V) → TxnDb K V → o.Res × TxnDb K V
  | .lock _, d => ((), d)
  | .unlock, d => ((), d)
  | .begin, d => ((), { d with pending := [], pool := d.pool.tail })
  | .get c k, d =>
    (if fails d.calls .lookup then .error else .ofOption (d.view.get c k), d.tick)
  | .put c k v, d =>
    if fails d.calls (.write (d.locked (c, k))) then (false, d.tick)
    else (true, { d.tick with pending := d.pending ++ [.put c k v] })
  | .delete c k, d =>
    if fails d.calls (.write (d.locked (c, k))) then (false, d.tick)
    else (true, { d.tick with pending := d.pending ++ [.delete c k] })
  | .commit, d =>
    if fails d.calls .commit then (false, d.tick)
    else (true, { d.tick with committed := d.view, pending := [] })
  | .rollback, d =>
    if fails d.calls .rollback then (false, d.tick)
    else (true, { d.tick with pending := [] })
  | .release, d => ((), { d with pending := [], pool := d.pool ++ [some d.pending] })
  | .read c k, d =>
    (if fails d.calls .lookup then .error else .ofOption (d.committed.get c k), d.tick)
  | .scan c hi, d => (if fails d.calls .scan then [] else d.committed.below c hi, d.tick)

/-! ### The ideal database -/

/-- The state of the ideal database: the committed store and what the transaction sees. -/
structure TxnView (K : Type) [Ord K] (V : C → Type) where
  /-- The committed store. -/
  committed : Store K V
  /-- The view of the current transaction. -/
  view : Store K V

/-- The ideal database: no call fails. -/
def TxnOp.ideal : (o : TxnOp K V) → TxnView K V → o.Res × TxnView K V
  | .lock _, d => ((), d)
  | .unlock, d => ((), d)
  | .begin, d => ((), { d with view := d.committed })
  | .get c k, d => (.ofOption (d.view.get c k), d)
  | .put c k v, d => (true, { d with view := d.view.put c k v })
  | .delete c k, d => (true, { d with view := d.view.delete c k })
  | .commit, d => (true, { d with committed := d.view })
  | .rollback, d => (true, { d with view := d.committed })
  | .release, d => ((), { d with view := d.committed })
  | .read c k, d => (.ofOption (d.committed.get c k), d)
  | .scan c hi, d => (d.committed.below c hi, d)

/-- What the ideal database keeps of the faithful one. -/
def TxnDb.ideal (d : TxnDb K V) : TxnView K V := ⟨d.committed, d.view⟩

/-- **As long as no call fails, the faithful database answers like the ideal one.** -/
theorem TxnOp.handle_ideal {fails : ℕ → Fallible → Bool} (hf : ∀ n b, fails n b = false)
    (o : TxnOp K V) (d : TxnDb K V) :
    (o.handle fails d).1 = (o.ideal d.ideal).1 ∧
      (o.handle fails d).2.ideal = (o.ideal d.ideal).2 := by
  cases o <;>
    simp [TxnOp.handle, TxnOp.ideal, TxnDb.ideal, TxnDb.view, TxnDb.tick, hf, Store.apply]

/-! ### The writes a run commits -/

/-- The write that a call makes, if it is one and is accepted. -/
def TxnOp.accepted : (o : TxnOp K V) → o.Res → List (Write K V)
  | .put c k v, true => [.put c k v]
  | .delete c k, true => [.delete c k]
  | _, _ => []

/-- The write that a call of a program makes, if it is one and is accepted. -/
def Op.accepted {X : Type} {RX : X → Type} : (e : Op K V X) → Op.Res RX e → List (Write K V)
  | .store o, r => o.accepted r
  | .own _, _ => []

/-- One call commits some of the writes pending so far and leaves some of them pending. -/
theorem TxnOp.handle_writes (fails : ℕ → Fallible → Bool) (o : TxnOp K V) (d : TxnDb K V) :
    ∃ ws, (ws ++ (o.handle fails d).2.pending).Sublist
        (d.pending ++ o.accepted (o.handle fails d).1) ∧
      (o.handle fails d).2.committed = d.committed.applyAll ws := by
  cases o with
  | commit =>
    cases hf : fails d.calls .commit with
    | true =>
      exact ⟨[], by simp [TxnOp.handle, hf, TxnDb.tick], by simp [TxnOp.handle, hf, TxnDb.tick]⟩
    | false => exact ⟨d.pending, by simp [TxnOp.handle, hf], by simp [TxnOp.handle, hf, TxnDb.view]⟩
  | put c k v =>
    cases hf : fails d.calls (.write (d.locked (c, k))) <;>
      exact ⟨[], by simp [TxnOp.handle, hf, TxnDb.tick, TxnOp.accepted],
        by simp [TxnOp.handle, hf, TxnDb.tick]⟩
  | delete c k =>
    cases hf : fails d.calls (.write (d.locked (c, k))) <;>
      exact ⟨[], by simp [TxnOp.handle, hf, TxnDb.tick, TxnOp.accepted],
        by simp [TxnOp.handle, hf, TxnDb.tick]⟩
  | rollback =>
    cases hf : fails d.calls .rollback <;>
      exact ⟨[], by simp [TxnOp.handle, hf, TxnDb.tick], by simp [TxnOp.handle, hf, TxnDb.tick]⟩
  | _ => exact ⟨[], by simp [TxnOp.handle, TxnDb.tick], by simp [TxnOp.handle, TxnDb.tick]⟩

/-- **A run commits nothing but its own writes** and those that were pending when it began. -/
theorem run_writes {X τ α : Type} {RX : X → Type} (fails : ℕ → Fallible → Bool)
    (hx : (x : X) → τ → RX x × τ) (p : Prog (Op.Res (K := K) (V := V) RX) α)
    (s : TxnDb K V × τ) :
    ∃ ws, (ws ++ (Prog.run (Op.handle (TxnOp.handle fails) hx) p s).2.1.pending).Sublist
        (s.1.pending ++ Prog.log Op.accepted (Op.handle (TxnOp.handle fails) hx) p s) ∧
      (Prog.run (Op.handle (TxnOp.handle fails) hx) p s).2.1.committed =
        s.1.committed.applyAll ws := by
  induction p generalizing s with
  | ret a => exact ⟨[], by simp [Prog.run, Prog.log], rfl⟩
  | call e k ih =>
    cases e with
    | own x => exact ih _ (s.1, (hx x s.2).2)
    | store o =>
      obtain ⟨ws₁, hs₁, hc₁⟩ := o.handle_writes fails s.1
      obtain ⟨ws₂, hs₂, hc₂⟩ := ih (o.handle fails s.1).1 ((o.handle fails s.1).2, s.2)
      refine ⟨ws₁ ++ ws₂, ?_, ?_⟩
      · -- what the rest of the run commits or leaves pending was pending after the first call, or
        -- is written later
        have h₁ := (List.Sublist.refl ws₁).append hs₂
        have h₂ := hs₁.append_right (Prog.log Op.accepted (Op.handle (TxnOp.handle fails) hx)
          (k (o.handle fails s.1).1) ((o.handle fails s.1).2, s.2))
        rw [List.append_assoc, List.append_assoc] at h₂
        rw [← List.append_assoc] at h₁
        exact h₁.trans h₂
      · rw [Store.applyAll_append, ← hc₁]
        exact hc₂

end ConfigDb
