import ConfigDb.Storage.Commit
import ConfigDb.Storage.View

/-!
# Calls as sequences of actions on the columns

In a reliable environment a writing call works through a list of *items* inside one transaction,
up to the first item that is refused.  An accepted item amounts to one or two *actions* on the view
of the transaction: putting a key in, dropping a key, or forgetting an entry of the `expiring`
column.  The call commits if no item is refused, and leaves the columns alone otherwise.

## Main definitions

* `Item`, `Call.items` : the items of a call.
* `Action`, `Store.act` : the actions, and what they do to the columns.
* `Call.actions` : the actions a call commits, if it commits.

## Main results

* `Call.next_columns` : the columns after a call are those its actions lead to.
* `Reach.invariant` : what guarded actions preserve holds in every state a guarded run reaches.
-/

namespace ConfigDb

open Std Database

/-! ### Items and actions -/

/-- A piece of work inside a transaction: an item of a batch, or a key of the expiry sweep. -/
inductive Item
  /-- Set a key. -/
  | set (d : RequestData)
  /-- Remove a key. -/
  | remove (key : Bytes)
  /-- Move a key. -/
  | move (d : RequestData)
  /-- Remove the key of an entry of the `expiring` column, and the entry. -/
  | expire (entry : Bytes × Bytes)
  deriving DecidableEq

/-- The program of an item. -/
def Item.prog (cfg : Config) : Item → DbProg Bool
  | .set d => setTxn cfg d.key d.value d.options
  | .remove key => removeTxn cfg key true
  | .move d => moveTxn cfg d.key d.value d.options
  | .expire entry => do
    expireKey cfg entry
    let _ ← stopped
    return true

/-- An action on the columns. -/
inductive Action
  /-- Put the key `ks` in, with the clock at `t` and then at `t1`. -/
  | put (ks value : Bytes) (opts : Options) (t t1 : ℕ)
  /-- Drop the key `ks`. -/
  | drop (ks : Bytes)
  /-- Forget the entry `x` of the `expiring` column. -/
  | forget (x : Bytes)
  deriving DecidableEq

/-- What an action does to the view `v` of a transaction over the committed columns `cm`. -/
def Store.act (cfg : Config) (cm v : Columns) : Action → Columns
  | .put ks value opts t t1 => v.setEntry cfg ks value opts t t1
  | .drop ks => v.removeEntry ks (cm.get .cache ks).isSome
  | .forget x => v.delete .expiring x

/-- What a list of actions does to the view. -/
def Store.actAll (cfg : Config) (cm v : Columns) (as : List Action) : Columns :=
  as.foldl (Store.act cfg cm) v

/-- What an action does to the value cache. -/
def Action.onCache (cfg : Config) (m : ExtTreeMap Bytes Bytes) : Action → ExtTreeMap Bytes Bytes
  | .put ks value _ _ _ => if cfg.enableCache then m.insert ks value else m
  | .drop ks => if cfg.enableCache then m.erase ks else m
  | .forget _ => m

/-- The action that puts a key in at the next clock readings of a process. -/
def putAction (env : Env) (l : Local) (ks value : Bytes) (opts : Options) : Action :=
  .put ks value opts (env.clock l.nows) (env.clock (l.nows + 1))

/-- The actions of an item; `none` if it is refused. -/
def Item.actions (env : Env) (cfg : Config) (s : IdealDb) : Item → Option (List Action)
  | .set d =>
    if d.options.ifNotExists && (s.1.view.get .data (getKey d.key)).isSome then none
    else some [putAction env s.2 (getKey d.key) d.value d.options]
  | .remove key => some [.drop (getKey key)]
  | .move d =>
    if d.options.ifNotExists && (s.1.view.get .data (getKey d.value)).isSome then none
    else match s.1.view.get .data (getKey d.key) with
      | none => none
      | some v => some [.drop (getKey d.key),
          putAction env (s.moveLocal env cfg d.options (getKey d.key)) (getKey d.value)
            (cfg.cipher.decrypt v) (s.moveOpts env d.options (getKey d.key))]
  | .expire entry => some [.drop (getKey entry.2), .forget entry.1]

/-- The result of an item, and the state it leaves. -/
def Item.step (env : Env) (cfg : Config) (s : IdealDb) (i : Item) : Bool × IdealDb :=
  execIdeal env (i.prog cfg) s

section

variable {env : Env} {cfg : Config}

theorem Local.valueCache_cached (l : Local) (ks value : Bytes) :
    (l.cached cfg ks value).valueCache =
      if cfg.enableCache then l.valueCache.insert ks value else l.valueCache := by
  unfold Local.cached; split <;> rfl

theorem Local.valueCache_uncached (l : Local) (ks : Bytes) :
    (l.uncached cfg ks).valueCache =
      if cfg.enableCache then l.valueCache.erase ks else l.valueCache := by
  unfold Local.uncached; split <;> rfl

/-! What the calls to the process do in any environment. -/

@[simp] theorem exec_now (s : Db) :
    exec env now s = (env.clock s.2.nows, (s.1, s.2.readClock 1)) := rfl

theorem exec_acquireEncrypter (s : Db) : exec env acquireEncrypter s =
    (!env.starved s.2.acquires, (s.1, s.2.acquired)) := rfl

theorem exec_findValue (ks : Bytes) (s : Db) :
    exec env (findValue cfg ks) s = (s.ideal.cacheLookup cfg ks, s) := by
  rw [findValue, exec_ite, IdealDb.cacheLookup]
  split <;> rfl

theorem exec_putValue (ks value : Bytes) (s : Db) :
    exec env (putValue cfg ks value) s = ((), (s.1, s.2.cached cfg ks value)) := by
  rw [putValue, exec_ite, Local.cached]
  split <;> rfl

theorem Item.step_refused (henv : env.Reliable) {i : Item} {s : IdealDb}
    (h : i.actions env cfg s = none) : i.step env cfg s = (false, s.withLocal s.2.acquired) := by
  cases i with
  | set d =>
    simp only [Item.actions] at h
    split_ifs at h with hr
    exact (setTxn_ideal henv _ _ _ s).trans (if_pos hr)
  | remove key => simp [Item.actions] at h
  | move d =>
    have hm : execIdeal env (moveTxn cfg d.key d.value d.options) s = _ :=
      moveTxn_ideal henv d.key d.value d.options s
    simp only [Item.actions] at h
    split_ifs at h with hr
    · exact hm.trans (if_pos hr)
    · rw [if_neg hr] at hm
      cases hv : s.1.view.get .data (getKey d.key) with
      | none => rwa [hv] at hm
      | some v => simp [hv] at h
  | expire entry => simp [Item.actions] at h

theorem Item.step_accepted (henv : env.Reliable) {i : Item} {s : IdealDb} {as : List Action}
    (h : i.actions env cfg s = some as) : ∃ l, i.step env cfg s =
        (true, (s.withView (Store.actAll cfg s.1.committed s.1.view as)).withLocal l) ∧
      l.valueCache = as.foldl (Action.onCache cfg) s.2.valueCache := by
  cases i with
  | set d =>
    simp only [Item.actions] at h
    split_ifs at h with hr
    obtain rfl := Option.some.inj h
    exact ⟨_, (setTxn_ideal henv _ _ _ s).trans (if_neg hr), Local.valueCache_cached _ _ _⟩
  | remove key =>
    obtain rfl := Option.some.inj h
    exact ⟨_, removeTxn_ideal key true s, Local.valueCache_uncached _ _⟩
  | move d =>
    have hm : execIdeal env (moveTxn cfg d.key d.value d.options) s = _ :=
      moveTxn_ideal henv d.key d.value d.options s
    simp only [Item.actions] at h
    split_ifs at h with hr
    rw [if_neg hr] at hm
    cases hv : s.1.view.get .data (getKey d.key) with
    | none => simp [hv] at h
    | some v =>
      rw [hv] at h hm
      obtain rfl := Option.some.inj h
      refine ⟨_, hm, ?_⟩
      simp only [Local.afterSet, Local.valueCache_cached, Local.readClock, Local.acquired,
        IdealDb.moveLocal, Local.valueCache_uncached]
      rfl
  | expire entry =>
    obtain rfl := Option.some.inj h
    refine ⟨{ s.2.uncached cfg (getKey entry.2) with
      loads := (s.2.uncached cfg (getKey entry.2)).loads + 1 }, ?_, Local.valueCache_uncached _ _⟩
    simp only [Item.step, Item.prog, expireKey, execIdeal_bind, removeTxn_ideal, if_true,
      execIdeal_txnDelete, execIdeal_stopped _ henv, execIdeal_pure]
    rfl

end

/-! ### Lists of items -/

/-- Work through a list of items, up to the first that is refused. -/
def runItems (env : Env) (cfg : Config) : List Item → IdealDb → Bool × IdealDb
  | [], s => (true, s)
  | i :: is, s =>
    if (i.step env cfg s).1 then runItems env cfg is (i.step env cfg s).2
    else (false, (i.step env cfg s).2)

/-- The actions of a list of items; `none` if one of them is refused. -/
def itemActions (env : Env) (cfg : Config) : List Item → IdealDb → Option (List Action)
  | [], _ => some []
  | i :: is, s => do
    let as ← i.actions env cfg s
    let bs ← itemActions env cfg is (i.step env cfg s).2
    return as ++ bs

section

variable {env : Env} {cfg : Config}

theorem Store.actAll_append (cm v : Columns) (as bs : List Action) :
    Store.actAll cfg cm v (as ++ bs) = Store.actAll cfg cm (Store.actAll cfg cm v as) bs :=
  List.foldl_append

theorem Item.step_committed (henv : env.Reliable) (i : Item) (s : IdealDb) :
    (i.step env cfg s).2.1.committed = s.1.committed := by
  cases h : i.actions env cfg s with
  | none => rw [Item.step_refused henv h]; rfl
  | some as =>
    obtain ⟨l, hl, -⟩ := Item.step_accepted henv h
    rw [hl]; rfl

theorem runItems_committed (henv : env.Reliable) (is : List Item) (s : IdealDb) :
    (runItems env cfg is s).2.1.committed = s.1.committed := by
  induction is generalizing s with
  | nil => rfl
  | cons i is ih =>
    unfold runItems
    split
    · rw [ih, Item.step_committed henv]
    · exact Item.step_committed henv i s

theorem itemActions_singleton (i : Item) (s : IdealDb) :
    itemActions env cfg [i] s = i.actions env cfg s := by
  cases h : i.actions env cfg s <;> simp [itemActions, h]

theorem runItems_refused (henv : env.Reliable) {is : List Item} {s : IdealDb}
    (h : itemActions env cfg is s = none) : (runItems env cfg is s).1 = false := by
  induction is generalizing s with
  | nil => simp [itemActions] at h
  | cons i is ih =>
    cases ha : i.actions env cfg s with
    | none => simp [runItems, Item.step_refused henv ha]
    | some as =>
      obtain ⟨l, hl, -⟩ := Item.step_accepted henv ha
      have hb : itemActions env cfg is (i.step env cfg s).2 = none := by
        cases hb : itemActions env cfg is (i.step env cfg s).2 with
        | none => rfl
        | some bs => simp [itemActions, ha, hb] at h
      simp only [runItems, hl, if_true]
      rw [hl] at hb
      exact ih hb

theorem runItems_accepted (henv : env.Reliable) {is : List Item} {s : IdealDb} {as : List Action}
    (h : itemActions env cfg is s = some as) : ∃ l, runItems env cfg is s =
        (true, (s.withView (Store.actAll cfg s.1.committed s.1.view as)).withLocal l) ∧
      l.valueCache = as.foldl (Action.onCache cfg) s.2.valueCache := by
  induction is generalizing s as with
  | nil =>
    obtain rfl := Option.some.inj h
    exact ⟨s.2, rfl, rfl⟩
  | cons i is ih =>
    cases ha : i.actions env cfg s with
    | none => simp [itemActions, ha] at h
    | some as₁ =>
      obtain ⟨l, hl, hc⟩ := Item.step_accepted henv ha
      cases hb : itemActions env cfg is (i.step env cfg s).2 with
      | none => simp [itemActions, ha, hb] at h
      | some as₂ =>
        obtain rfl : as₁ ++ as₂ = as := by simpa [itemActions, ha, hb] using h
        obtain ⟨l', hl', hc'⟩ := ih hb
        refine ⟨l', ?_, ?_⟩
        · simp only [runItems, hl, if_true]
          rw [hl] at hl'
          rw [hl', Store.actAll_append]
          rfl
        · rw [hc', hl, List.foldl_append, ← hc]
          rfl

end

/-! ### Calls -/

/-- The call passes the checks that it makes before its transaction; the reading calls make no
transaction. -/
def Call.enters : Call → Bool
  | .set d => !d.key.isEmpty && !(d.options.cache && d.options.expirationInSeconds == 0)
  | .remove key => !key.isEmpty
  | .move d => !d.key.isEmpty && !d.value.isEmpty
  | .setBatch _ => true
  | .removeBatch _ => true
  | .moveBatch _ => true
  | .clearExpired => true
  | _ => false

/-- The items of a call that enters its transaction. -/
def Call.work (env : Env) (s : Db) : Call → List Item
  | .set d => [.set d]
  | .remove key => [.remove key]
  | .move d => [.move d]
  | .setBatch kvs => kvs.map .set
  | .removeBatch keys => keys.map .remove
  | .moveBatch kvs => kvs.map .move
  | .clearExpired =>
    (s.columns.below .expiring (toString (env.clock (s.2.nows + 1)))).map .expire
  | _ => []

/-- The items of a call. -/
def Call.items (env : Env) (s : Db) (c : Call) : List Item :=
  if c.enters then c.work env s else []

/-- The state of the process when the items of a call begin. -/
def Call.local (env : Env) (s : Db) : Call → Local
  | .clearExpired => { s.2 with
      nows := s.2.nows + 2,
      loads := s.2.loads +
        (s.columns.below .expiring (toString (env.clock (s.2.nows + 1)))).length + 1 }
  | _ => s.2

/-- The state in which the items of a call begin: a transaction that has written nothing yet. -/
def Call.start (env : Env) (s : Db) (c : Call) : IdealDb :=
  (⟨s.columns, s.columns⟩, c.local env s)

/-- The actions that a call commits; `none` if one of its items is refused. -/
def Call.actions (env : Env) (cfg : Config) (s : Db) (c : Call) : Option (List Action) :=
  itemActions env cfg (c.items env s) (c.start env s)

/-- The end of a transaction: commit if the work is done. -/
def settle (r : Bool × IdealDb) : IdealDb :=
  if r.1 then (⟨r.2.1.view, r.2.1.view⟩, r.2.2) else r.2.withView r.2.1.committed

section

variable {env : Env} {cfg : Config}

theorem withTxn_ideal (work : DbProg Bool) (s : IdealDb) :
    execIdeal env (withTxn work) s =
      ((execIdeal env work (s.withView s.1.committed)).1,
        settle (execIdeal env work (s.withView s.1.committed))) := by
  simp only [withTxn, execIdeal_bind, execIdeal_beginTransaction, execIdeal_pure]
  generalize execIdeal env work (s.withView s.1.committed) = r
  obtain ⟨saved, t⟩ := r
  cases saved <;> rfl

theorem runItems_singleton (i : Item) (s : IdealDb) :
    runItems env cfg [i] s = execIdeal env (i.prog cfg) s := by
  by_cases hb : (i.step env cfg s).1 = true
  · rw [runItems, if_pos hb]
    exact Prod.ext hb.symm rfl
  · rw [runItems, if_neg hb]
    exact Prod.ext (Bool.eq_false_iff.2 hb).symm rfl

theorem forAll_ideal {α : Type} {f : α → DbProg Bool} {g : α → Item}
    (hfg : ∀ a, f a = (g a).prog cfg) (as : List α) (s : IdealDb) :
    execIdeal env (forAll f as) s = runItems env cfg (as.map g) s := by
  induction as generalizing s with
  | nil => rfl
  | cons a as ih =>
    simp only [forAll, execIdeal_bind, List.map_cons, runItems, Item.step, hfg]
    by_cases hb : (execIdeal env ((g a).prog cfg) s).1 = true
    · simp only [hb, Bool.not_true, Bool.false_eq_true, if_false, if_true, ih]
    · simp [hb]

theorem collect_ideal (henv : env.Reliable) (es : List (Bytes × Bytes)) (s : IdealDb) :
    execIdeal env (collect es) s =
      (es, s.withLocal { s.2 with loads := s.2.loads + es.length }) := by
  induction es generalizing s with
  | nil => rfl
  | cons e es ih =>
    simp only [collect, execIdeal_bind, execIdeal_stopped _ henv, Bool.false_eq_true, if_false, ih,
      execIdeal_pure, List.length_cons]
    simp only [IdealDb.withLocal, Nat.add_assoc, Nat.add_comm 1]

theorem sweep_ideal (henv : env.Reliable) (es : List (Bytes × Bytes)) (s : IdealDb) :
    runItems env cfg (es.map .expire) s = (true, (execIdeal env (sweep cfg es) s).2) := by
  induction es generalizing s with
  | nil => rfl
  | cons e es ih =>
    have ha : (Item.expire e).actions env cfg s = some [.drop (getKey e.2), .forget e.1] := rfl
    obtain ⟨l, hl, -⟩ := Item.step_accepted henv ha
    have hst : (Item.step env cfg s (.expire e)).1 = true := by rw [hl]
    have hs : (Item.step env cfg s (.expire e)).2 =
        (execIdeal env stopped (execIdeal env (expireKey cfg e) s).2).2 := by
      simp only [Item.step, Item.prog, execIdeal_bind, execIdeal_pure]
    simp only [List.map_cons, runItems, hst, if_true, ih, hs, sweep, execIdeal_bind,
      execIdeal_stopped _ henv, Bool.false_eq_true, if_false]

/-- **A writing call** works through its items inside a transaction and settles it. -/
theorem Call.exec_work {c : Call} (hc : c.enters = true)
    (hn : c ≠ .clearExpired) (s : Db) :
    execIdeal env (c.prog cfg) s.ideal =
      (.bool (runItems env cfg (c.items env s) (c.start env s)).1,
        settle (runItems env cfg (c.items env s) (c.start env s))) := by
  have hi : c.items env s = c.work env s := if_pos hc
  rw [hi]
  cases c with
  | set d =>
    simp only [Call.enters, Bool.and_eq_true, Bool.not_eq_true'] at hc
    simp only [Call.prog, Database.set, hc.1, hc.2, Bool.false_eq_true, if_false, execIdeal_map,
      withMutex_ideal, withTxn_ideal, Call.work, runItems_singleton]
    rfl
  | remove key =>
    simp only [Call.enters, Bool.not_eq_true'] at hc
    simp only [Call.prog, Database.remove, hc, Bool.false_eq_true, if_false, execIdeal_map,
      withMutex_ideal, withTxn_ideal, Call.work, runItems_singleton]
    rfl
  | move d =>
    simp only [Call.enters, Bool.and_eq_true, Bool.not_eq_true'] at hc
    simp only [Call.prog, Database.move, hc.1, hc.2, Bool.false_eq_true, if_false, execIdeal_map,
      withMutex_ideal, withTxn_ideal, Call.work, runItems_singleton]
    rfl
  | setBatch kvs =>
    simp only [Call.prog, Database.setBatch, execIdeal_map, withMutex_ideal, withTxn_ideal]
    rw [forAll_ideal (f := fun d => setTxn cfg d.key d.value d.options)
      (g := Item.set) fun _ => rfl]
    rfl
  | removeBatch keys =>
    simp only [Call.prog, Database.removeBatch, execIdeal_map, withMutex_ideal, withTxn_ideal]
    rw [forAll_ideal (f := fun key => removeTxn cfg key true)
      (g := Item.remove) fun _ => rfl]
    rfl
  | moveBatch kvs =>
    simp only [Call.prog, Database.moveBatch, execIdeal_map, withMutex_ideal, withTxn_ideal]
    rw [forAll_ideal (f := fun d => moveTxn cfg d.key d.value d.options)
      (g := Item.move) fun _ => rfl]
    rfl
  | clearExpired => exact absurd rfl hn
  | _ => simp [Call.enters] at hc

theorem clearExpired_exec (henv : env.Reliable) (s : Db) :
    execIdeal env (Call.clearExpired.prog cfg) s.ideal =
      (.unit, settle (runItems env cfg (Call.clearExpired.items env s)
        (Call.clearExpired.start env s))) := by
  have hi : Call.clearExpired.items env s = Call.clearExpired.work env s := rfl
  rw [hi, Call.work, sweep_ideal henv]
  simp only [Call.prog, Database.clearExpired, execIdeal_map, execIdeal_bind, execIdeal_now,
    execIdeal_beginTransaction, execIdeal_dbScan, collect_ideal henv, execIdeal_stopped _ henv,
    Bool.false_eq_true, if_false, execIdeal_txnCommit, execIdeal_releaseTransaction]
  rfl

theorem Call.next_ideal (henv : env.Reliable) (c : Call) (s : Db) :
    (c.next env cfg s).ideal = (execIdeal env (c.prog cfg) s.ideal).2 :=
  (exec_ideal henv (c.prog cfg) s).2

theorem Call.answer_ideal (henv : env.Reliable) (c : Call) (s : Db) :
    c.answer env cfg s = (execIdeal env (c.prog cfg) s.ideal).1 :=
  (exec_ideal henv (c.prog cfg) s).1

/-- A mutating call that does not enter its transaction returns `false` at once. -/
theorem Call.prog_of_not_enters {c : Call} (hm : c.Mutates) (hc : c.enters = false) :
    c.prog cfg = pure (.bool false) := by
  cases c with
  | set d =>
    simp only [Call.prog, Database.set]
    split_ifs with h₁ h₂
    · rfl
    · rfl
    · simp [Call.enters, h₁, h₂] at hc
  | remove key =>
    simp only [Call.prog, Database.remove]
    split_ifs with h₁
    · rfl
    · simp [Call.enters, h₁] at hc
  | move d =>
    simp only [Call.prog, Database.move]
    split_ifs with h₁ h₂
    · rfl
    · rfl
    · simp [Call.enters, h₁, h₂] at hc
  | setBatch kvs => simp [Call.enters] at hc
  | removeBatch keys => simp [Call.enters] at hc
  | moveBatch kvs => simp [Call.enters] at hc
  | _ => exact hm.elim

/-- A mutating call that answers `true` has entered its transaction and had every item accepted. -/
theorem Call.accepted_of_answer (henv : env.Reliable) {c : Call} (hm : c.Mutates) {s : Db}
    (h : c.answer env cfg s = .bool true) :
    c.enters = true ∧ ∃ as, c.actions env cfg s = some as := by
  rw [c.answer_ideal henv] at h
  cases hc : c.enters with
  | false =>
    rw [Call.prog_of_not_enters hm hc] at h
    simp at h
  | true =>
    have hn : c ≠ .clearExpired := fun he => by simp [he, Call.Mutates] at hm
    rw [c.exec_work hc hn, Answer.bool.injEq] at h
    refine ⟨rfl, ?_⟩
    cases ha : c.actions env cfg s with
    | none => simp [runItems_refused henv ha] at h
    | some as => exact ⟨as, rfl⟩

theorem Call.answer_of_actions (henv : env.Reliable) {c : Call} (hc : c.enters = true)
    (hn : c ≠ .clearExpired) {s : Db} {as : List Action} (h : c.actions env cfg s = some as) :
    c.answer env cfg s = .bool true := by
  obtain ⟨l, hl, -⟩ := runItems_accepted henv h
  rw [c.answer_ideal henv, c.exec_work hc hn]
  exact congrArg (fun r : Bool × IdealDb => Answer.bool r.1) hl

theorem Call.reads_of_not_enters {c : Call} (hc : c.enters = false) :
    (c.prog cfg).Only Op.Reads := by
  obtain hr | ⟨hm, -⟩ | rfl := c.prog_cases cfg
  · exact hr
  · rw [Call.prog_of_not_enters hm hc]
    trivial
  · simp [Call.enters] at hc

/-- A call that enters its transaction ends by settling the work on its items. -/
theorem Call.next_of_enters (henv : env.Reliable) {c : Call} (hc : c.enters = true) (s : Db) :
    (c.next env cfg s).ideal = settle (runItems env cfg (c.items env s) (c.start env s)) := by
  rw [c.next_ideal henv]
  by_cases hn : c = .clearExpired
  · rw [hn, clearExpired_exec henv]
  · rw [c.exec_work hc hn]

/-- **The columns after a call** are those its actions lead to. -/
theorem Call.next_columns (henv : env.Reliable) (c : Call) (s : Db) :
    (c.next env cfg s).columns = match c.actions env cfg s with
      | none => s.columns
      | some as => Store.actAll cfg s.columns s.columns as := by
  cases hc : c.enters with
  | false =>
    have hi : c.items env s = [] := by simp [Call.items, hc]
    have ha : c.actions env cfg s = some [] := by simp [Call.actions, hi, itemActions]
    rw [ha]
    exact (exec_reads (Call.reads_of_not_enters hc)).1
  | true =>
    have h : (c.next env cfg s).columns = _ :=
      congrArg (fun t : IdealDb => t.1.committed) (c.next_of_enters henv hc s)
    rw [h]
    cases ha : c.actions env cfg s with
    | none =>
      have hr := runItems_refused henv ha
      simp only [settle, hr, Bool.false_eq_true, if_false, IdealDb.withView_committed,
        runItems_committed henv]
      rfl
    | some as =>
      obtain ⟨l, hl, -⟩ := runItems_accepted henv ha
      rw [hl]
      rfl

end

/-! ### Keys -/

/-- The key of the action satisfies `P`. -/
def Action.On (P : Bytes → Prop) : Action → Prop
  | .put ks _ _ _ _ => P ks
  | .drop ks => P ks
  | .forget _ => True

/-- The keys of the item, normalised, satisfy `P`. -/
def Item.On (P : Bytes → Prop) : Item → Prop
  | .set d => P (getKey d.key)
  | .remove key => P (getKey key)
  | .move d => P (getKey d.key) ∧ P (getKey d.value)
  | .expire entry => P (getKey entry.2)

/-- The keys that a mutating call names, normalised, satisfy `P`. -/
def Call.On (P : Bytes → Prop) : Call → Prop
  | .set d => P (getKey d.key)
  | .remove key => P (getKey key)
  | .move d => P (getKey d.key) ∧ P (getKey d.value)
  | .setBatch kvs => ∀ d ∈ kvs, P (getKey d.key)
  | .removeBatch keys => ∀ key ∈ keys, P (getKey key)
  | .moveBatch kvs => ∀ d ∈ kvs, P (getKey d.key) ∧ P (getKey d.value)
  | _ => True

section

variable {env : Env} {cfg : Config} {P : Bytes → Prop}

theorem Item.actions_on {i : Item} (hi : i.On P) {s : IdealDb} {as : List Action}
    (h : i.actions env cfg s = some as) : ∀ a ∈ as, a.On P := by
  cases i with
  | set d =>
    simp only [Item.actions] at h
    split_ifs at h
    obtain rfl := Option.some.inj h
    exact List.forall_mem_singleton.2 hi
  | remove key =>
    obtain rfl := Option.some.inj h
    exact List.forall_mem_singleton.2 hi
  | move d =>
    simp only [Item.actions] at h
    split_ifs at h
    cases hv : s.1.view.get .data (getKey d.key) with
    | none => simp [hv] at h
    | some v =>
      rw [hv] at h
      obtain rfl := Option.some.inj h
      exact List.forall_mem_cons.2 ⟨hi.1, List.forall_mem_singleton.2 hi.2⟩
  | expire entry =>
    obtain rfl := Option.some.inj h
    exact List.forall_mem_cons.2 ⟨hi, List.forall_mem_singleton.2 trivial⟩

/-- What holds of the actions of every item holds of the actions of a list of items. -/
theorem itemActions_forall {R : Action → Prop} {is : List Item}
    (hi : ∀ i ∈ is, ∀ s as, i.actions env cfg s = some as → ∀ a ∈ as, R a) {s : IdealDb}
    {as : List Action} (h : itemActions env cfg is s = some as) : ∀ a ∈ as, R a := by
  induction is generalizing s as with
  | nil =>
    obtain rfl := Option.some.inj h
    simp
  | cons i is ih =>
    rw [List.forall_mem_cons] at hi
    cases ha : i.actions env cfg s with
    | none => simp [itemActions, ha] at h
    | some as₁ =>
      cases hb : itemActions env cfg is (i.step env cfg s).2 with
      | none => simp [itemActions, ha, hb] at h
      | some as₂ =>
        obtain rfl : as₁ ++ as₂ = as := by simpa [itemActions, ha, hb] using h
        intro a hm
        obtain hm | hm := List.mem_append.1 hm
        · exact hi.1 s as₁ ha a hm
        · exact ih hi.2 hb a hm

theorem Call.on_getKey (c : Call) : c.On fun k => getKey k = k := by
  cases c <;> simp [Call.On]

/-- The actions of a call are on the keys it names or, for the sweep, on expiring keys. -/
theorem Call.actions_on {c : Call} (hc : c.On P) {s : Db}
    (hx : ∀ x k, s.columns.get .expiring x = some k → P (getKey k)) {as : List Action}
    (h : c.actions env cfg s = some as) : ∀ a ∈ as, a.On P := by
  refine itemActions_forall (fun i hi s as ha => Item.actions_on ?_ ha) h
  unfold Call.items at hi
  split_ifs at hi
  · cases c <;> simp only [Call.work, List.mem_map, List.mem_singleton, List.not_mem_nil] at hi
    case set d => exact hi ▸ hc
    case remove key => exact hi ▸ hc
    case move d => exact hi ▸ hc
    case setBatch kvs =>
      obtain ⟨d, hd, rfl⟩ := hi
      exact hc d hd
    case removeBatch keys =>
      obtain ⟨key, hk, rfl⟩ := hi
      exact hc key hk
    case moveBatch kvs =>
      obtain ⟨d, hd, rfl⟩ := hi
      exact hc d hd
    case clearExpired =>
      obtain ⟨e, he, rfl⟩ := hi
      exact hx e.1 e.2 (Store.mem_below.1 he).1
  · simp at hi

end

/-! ### Guarded runs -/

/-- Every action of the list meets the guard `G` in the view in which its turn comes. -/
def Guarded (cfg : Config) (G : Columns → Columns → Action → Prop) (cm : Columns) :
    Columns → List Action → Prop
  | _, [] => True
  | v, a :: as => G cm v a ∧ Guarded cfg G cm (Store.act cfg cm v a) as

/-- The call meets the guard `G`: it is refused, or each of its actions does. -/
def Call.Guarded (env : Env) (cfg : Config) (G : Columns → Columns → Action → Prop) (s : Db)
    (c : Call) : Prop :=
  ∀ as, c.actions env cfg s = some as → ConfigDb.Guarded cfg G s.columns s.columns as

theorem Call.guarded_of_actions {env : Env} {cfg : Config} {G : Columns → Columns → Action → Prop}
    {s : Db} {c : Call} {as : List Action} (h : c.actions env cfg s = some as)
    (hg : ConfigDb.Guarded cfg G s.columns s.columns as) : c.Guarded env cfg G s :=
  fun _ hb => Option.some.inj (h.symm.trans hb) ▸ hg

/-- The states that runs from `s₀` reach, each call `c` of which satisfies `Q s c` in the state `s`
in which it is made. -/
inductive Reach (env : Env) (cfg : Config) (Q : Db → Call → Prop) (s₀ : Db) : Db → Prop
  /-- Nothing has been called. -/
  | start : Reach env cfg Q s₀ s₀
  /-- One more call. -/
  | call {s : Db} (c : Call) : Reach env cfg Q s₀ s → Q s c → Reach env cfg Q s₀ (c.next env cfg s)

section

variable {env : Env} {cfg : Config} {G : Columns → Columns → Action → Prop} {P : Bytes → Prop}
  {I : Columns → Prop}

theorem Guarded.invariant {cm : Columns}
    (hI : ∀ v a, a.On P → G cm v a → I v → I (Store.act cfg cm v a)) {v : Columns}
    {as : List Action} (ha : ∀ a ∈ as, a.On P) (hg : Guarded cfg G cm v as) (hv : I v) :
    I (Store.actAll cfg cm v as) := by
  induction as generalizing v with
  | nil => exact hv
  | cons a as ih =>
    rw [List.forall_mem_cons] at ha
    exact ih ha.2 hg.2 (hI v a ha.1 hg.1 hv)

/-- **What guarded actions keep holds in every state that a guarded run reaches.**  The keys of the
calls satisfy `P`, and the invariant says so of the expiring keys. -/
theorem Reach.invariant (henv : env.Reliable) {s₀ s : Db}
    (hI : ∀ cm v a, I cm → a.On P → G cm v a → I v → I (Store.act cfg cm v a))
    (hx : ∀ v, I v → ∀ x k, v.get .expiring x = some k → P (getKey k)) (h₀ : I s₀.columns)
    (h : Reach env cfg (fun s c => c.On P ∧ c.Guarded env cfg G s) s₀ s) : I s.columns := by
  induction h with
  | start => exact h₀
  | @call s c _ hq ih =>
    rw [c.next_columns henv]
    cases ha : c.actions env cfg s with
    | none => exact ih
    | some as =>
      exact Guarded.invariant (fun v a => hI s.columns v a ih)
        (Call.actions_on hq.1 (hx _ ih) ha) (hq.2 as ha) ih

theorem Reach.mono {Q Q' : Db → Call → Prop} (hQ : ∀ s c, Q s c → Q' s c) {s₀ s : Db}
    (h : Reach env cfg Q s₀ s) : Reach env cfg Q' s₀ s := by
  induction h with
  | start => exact .start
  | call c _ hq ih => exact .call c ih (hQ _ c hq)

end

end ConfigDb
