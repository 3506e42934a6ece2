import ConfigDb.Storage.Items

/-!
# Locks that calls leave behind

A transaction keeps the locks of its pending writes until it commits, rolls back or is begun anew,
and a call gives its transaction object back to the pool as it is.  So an exit that neither commits
nor rolls back leaves locks behind.  There is one such exit: an item that is *turned away* (before
it has written anything) ends its batch without a rollback, although earlier items of the batch hold
locks.

* `stale_lock_after_refused_batch` shows a later call that fails because of it.
* `no_lock_left_behind` : as long as no item after the first of a batch is turned away, and commits
  and rollbacks do not fail, no idle transaction object ever holds a lock.  Any other database call
  may fail at any time.
-/

namespace ConfigDb

open Database

/-! ### Items that are turned away -/

/-- The `ifNotExists` check turns the key away: it is present, or cannot be looked up. -/
def Env.turnsAway (env : Env) (d : TxnDb Bytes Column.Value) (opts : Options) (ks : Bytes) : Bool :=
  opts.ifNotExists && (env.fails d.calls .lookup || (d.view.get .data ks).isSome)

/-- The lookup of the source of a move fails or finds nothing. -/
def Env.missing (env : Env) (d : TxnDb Bytes Column.Value) (ks : Bytes) : Bool :=
  env.fails d.calls .lookup || (d.view.get .data ks).isNone

/-- The item ends before it writes anything: no encrypter is free, the `ifNotExists` check turns the
key away, or the source of a move is missing. -/
def Item.turnedAway (env : Env) (s : Db) : Item → Bool
  | .set d => env.starved s.2.acquires || env.turnsAway s.1 d.options (getKey d.key)
  | .move d => env.starved s.2.acquires || env.turnsAway s.1 d.options (getKey d.value) ||
      env.missing (if d.options.ifNotExists then s.1.tick else s.1) (getKey d.key)
  | _ => false

/-- No item of the list is turned away when its turn comes. -/
def NoneTurnedAway (env : Env) (cfg : Config) : List Item → Db → Prop
  | [], _ => True
  | i :: is, s => i.turnedAway env s = false ∧
      ((exec env (i.prog cfg) s).1 = true → NoneTurnedAway env cfg is (exec env (i.prog cfg) s).2)

/-- No item of the list after its first is turned away when its turn comes. -/
def NoneTurnedAwayLater (env : Env) (cfg : Config) : List Item → Db → Prop
  | [], _ => True
  | i :: is, s =>
      (exec env (i.prog cfg) s).1 = true → NoneTurnedAway env cfg is (exec env (i.prog cfg) s).2

/-- The state in which the work of a transaction begins. -/
def Db.begun (s : Db) : Db := ({ s.1 with pending := [], pool := s.1.pool.tail }, s.2)

/-- No item of the call after its first is turned away when its turn comes. -/
def Call.Orderly (env : Env) (cfg : Config) (s : Db) (c : Call) : Prop :=
  NoneTurnedAwayLater env cfg (c.work env s) s.begun

/-- Commits and rollbacks do not fail. -/
structure Env.Ends (env : Env) : Prop where
  commit : ∀ n, env.fails n .commit = false
  rollback : ∀ n, env.fails n .rollback = false

/-! ### Programs that fail only with nothing pending -/

/-- If the program returns `false`, it has left nothing pending. -/
def Clean (env : Env) (p : DbProg Bool) : Prop :=
  ∀ s : Db, (exec env p s).1 = false → (exec env p s).2.1.pending = []

section

variable {env : Env} {cfg : Config}

theorem Clean.ret_true : Clean env (pure true) := fun _ h => by simp at h

theorem Clean.rollback (henv : env.Ends) : Clean env rollback := by
  intro s _
  simp [Database.rollback, exec, txnRollback, callStore, Op.handle, TxnOp.handle, henv.rollback]

theorem Clean.bind {α : Type} (p : DbProg α) {q : α → DbProg Bool} (hq : ∀ a, Clean env (q a)) :
    Clean env (p >>= q) := by
  intro s h
  rw [exec_bind] at h ⊢
  exact hq _ _ h

theorem Clean.check (henv : env.Ends) (p : DbProg Bool) {q : DbProg Bool} (hq : Clean env q) :
    Clean env (p >>= fun b => if !b then Database.rollback else q) := by
  refine .bind p fun b => ?_
  cases b
  · exact .rollback henv
  · exact hq

theorem removeTxn_clean (henv : env.Ends) (key : Bytes) : Clean env (removeTxn cfg key true) := by
  simp only [removeTxn, if_true]
  exact .check henv _ <| .check henv _ <| .check henv _ <| .bind _ fun _ => .ret_true

theorem exec_refused (opts : Options) (ks : Bytes) (s : Db) : exec env (refused opts ks) s =
    (env.turnsAway s.1 opts ks, (if opts.ifNotExists then s.1.tick else s.1, s.2)) := by
  unfold Env.turnsAway
  cases hi : opts.ifNotExists
  · simp [refused, hi]
  · simp only [refused, hi, Bool.not_true, Bool.false_eq_true, if_false, exec_bind, exec_txnGet,
      Bool.true_and, if_true]
    cases env.fails s.1.calls .lookup
    · cases hg : s.1.view.get .data ks <;> simp
    · simp

/-- `setTxn` returns `false` because its item is turned away, or with nothing pending. -/
theorem setTxn_clean (henv : env.Ends) (d : RequestData) (s : Db)
    (h : (exec env (setTxn cfg d.key d.value d.options) s).1 = false) :
    (Item.set d).turnedAway env s = true ∧
        (exec env (setTxn cfg d.key d.value d.options) s).2.1.pending = s.1.pending ∨
      (exec env (setTxn cfg d.key d.value d.options) s).2.1.pending = [] := by
  simp only [setTxn, exec_bind, exec_acquireEncrypter, Item.turnedAway] at h ⊢
  obtain hs | hs := Bool.eq_false_or_eq_true (env.starved s.2.acquires)
  · simp [hs]
  simp only [hs, Bool.not_false, Bool.not_true, Bool.false_eq_true, if_false, exec_bind,
    exec_refused, Bool.false_or] at h ⊢
  obtain ht | ht := Bool.eq_false_or_eq_true (env.turnsAway s.1 d.options (getKey d.key))
  · refine .inl ⟨ht, ?_⟩
    simp only [ht, if_true, exec_pure]
    split <;> rfl
  · simp only [ht, Bool.false_eq_true, if_false] at h ⊢
    right
    have hc : Clean env _ :=
      .check henv (txnPut .data (getKey d.key) (cfg.cipher.encrypt d.value)) <|
      .check henv (enterKey (getKey d.key) d.options.cache) <|
      .check henv (setExpiration (getKey d.key) d.options.expirationInSeconds) <|
      .bind (putValue cfg (getKey d.key) d.value) fun _ => .ret_true
    exact hc _ h

/-- `moveTxn` returns `false` because its item is turned away, or with nothing pending. -/
theorem moveTxn_clean (henv : env.Ends) (d : RequestData) (s : Db)
    (h : (exec env (moveTxn cfg d.key d.value d.options) s).1 = false) :
    (Item.move d).turnedAway env s = true ∧
        (exec env (moveTxn cfg d.key d.value d.options) s).2.1.pending = s.1.pending ∨
      (exec env (moveTxn cfg d.key d.value d.options) s).2.1.pending = [] := by
  simp only [moveTxn, exec_bind, exec_acquireEncrypter, Item.turnedAway] at h ⊢
  obtain hs | hs := Bool.eq_false_or_eq_true (env.starved s.2.acquires)
  · simp [hs]
  simp only [hs, Bool.not_false, Bool.not_true, Bool.false_eq_true, if_false, exec_bind,
    exec_refused, Bool.false_or] at h ⊢
  obtain ht | ht := Bool.eq_false_or_eq_true (env.turnsAway s.1 d.options (getKey d.value))
  · refine .inl ⟨by simp [ht], ?_⟩
    simp only [ht, if_true, exec_pure]
    split <;> rfl
  simp only [ht, Bool.false_eq_true, if_false, exec_bind, Bool.false_or, exec_txnGet,
    Env.missing] at h ⊢
  generalize hd : (if d.options.ifNotExists then s.1.tick else s.1) = t at h ⊢
  have hp : t.pending = s.1.pending := by
    subst hd
    split <;> rfl
  obtain hf | hf := Bool.eq_false_or_eq_true (env.fails t.calls .lookup)
  · simp only [hf, if_true, exec_pure, Bool.true_or, true_and]
    exact .inl hp
  simp only [hf, Bool.false_eq_true, if_false, Bool.false_or] at h ⊢
  cases hv : t.view.get .data (getKey d.key) with
  | none => exact .inl ⟨rfl, hp⟩
  | some v =>
    rw [hv] at h
    right
    have hc : Clean env _ := .bind (txnGet .cache (getKey d.key)) fun cvalue =>
      .bind (moveExpiration d.options (getKey d.key)) fun exp =>
      .check henv (removeTxn cfg (getKey d.key) true) <|
      .check henv (setTxn cfg (getKey d.value) (cfg.cipher.decrypt v)
        (moveOptions d.options cvalue exp)) .ret_true
    exact hc _ h

/-- **An item** fails because it is turned away, or leaves nothing pending when it fails. -/
theorem Item.clean (henv : env.Ends) (i : Item) (s : Db)
    (h : (exec env (i.prog cfg) s).1 = false) :
    i.turnedAway env s = true ∧ (exec env (i.prog cfg) s).2.1.pending = s.1.pending ∨
      (exec env (i.prog cfg) s).2.1.pending = [] := by
  cases i with
  | set d => exact setTxn_clean henv d s h
  | remove key => exact .inr (removeTxn_clean henv key s h)
  | move d => exact moveTxn_clean henv d s h
  | expire entry => simp [Item.prog] at h

/-! ### Batches and calls -/

/-- A batch none of whose items is turned away leaves nothing pending when it fails. -/
theorem forAll_clean (henv : env.Ends) {α : Type} {f : α → DbProg Bool} {g : α → Item}
    (hfg : ∀ a, f a = (g a).prog cfg) (as : List α) (s : Db)
    (hn : NoneTurnedAway env cfg (as.map g) s) (h : (exec env (forAll f as) s).1 = false) :
    (exec env (forAll f as) s).2.1.pending = [] := by
  induction as generalizing s with
  | nil => simp [forAll] at h
  | cons a as ih =>
    simp only [forAll, exec_bind, hfg] at h ⊢
    obtain hb | hb := Bool.eq_false_or_eq_true (exec env ((g a).prog cfg) s).1
    · simp only [hb, Bool.not_true, Bool.false_eq_true, if_false] at h ⊢
      exact ih _ (hn.2 hb) h
    · simp only [hb, Bool.not_false, if_true, exec_pure]
      obtain ⟨ht, -⟩ | hp := Item.clean henv (g a) s hb
      · simp [hn.1] at ht
      · exact hp

/-- A batch that begins with nothing pending, and none of whose items after the first is turned
away, leaves nothing pending when it fails. -/
theorem forAll_clean_later (henv : env.Ends) {α : Type} {f : α → DbProg Bool} {g : α → Item}
    (hfg : ∀ a, f a = (g a).prog cfg) (as : List α) (s : Db) (hs : s.1.pending = [])
    (hn : NoneTurnedAwayLater env cfg (as.map g) s) (h : (exec env (forAll f as) s).1 = false) :
    (exec env (forAll f as) s).2.1.pending = [] := by
  cases as with
  | nil => simp [forAll] at h
  | cons a as =>
    simp only [forAll, exec_bind, hfg] at h ⊢
    obtain hb | hb := Bool.eq_false_or_eq_true (exec env ((g a).prog cfg) s).1
    · simp only [hb, Bool.not_true, Bool.false_eq_true, if_false] at h ⊢
      exact forAll_clean henv hfg as _ (hn hb) h
    · simp only [hb, Bool.not_false, if_true, exec_pure]
      obtain ⟨-, hp⟩ | hp := Item.clean henv (g a) s hb
      · rw [hp, hs]
      · exact hp

/-- A transaction whose work leaves nothing pending when it fails gives back an object that holds no
lock. -/
theorem withTxn_pool (henv : env.Ends) {work : DbProg Bool} (hw : work.Only Op.Inside) (s : Db)
    (hc : (exec env work s.begun).1 = false → (exec env work s.begun).2.1.pending = []) :
    (exec env (withMutex cfg true (withTxn work)) s).2.1.pool = s.1.pool.tail ++ [some []] := by
  have hm : ∀ t : Db, (exec env (ifMutex cfg (lock true)) t).2 = t := fun t => by
    unfold ifMutex; split <;> rfl
  have hu : ∀ t : Db, (exec env (ifMutex cfg unlock) t).2 = t := fun t => by
    unfold ifMutex; split <;> rfl
  have hb : (exec env beginTransaction s).2 = s.begun := rfl
  have hq : (exec env work s.begun).2.1.pool = s.1.pool.tail := (exec_inside hw).2
  simp only [withMutex, withTxn, exec_bind, exec_pure, hm, hu, hb]
  generalize exec env work s.begun = r at hc hq ⊢
  obtain ⟨saved, t⟩ := r
  cases saved with
  | false =>
    change t.1.pool ++ [some t.1.pending] = _
    rw [hq, hc rfl]
  | true =>
    have ht : exec env txnCommit t =
        (true, ({ t.1.tick with committed := t.1.view, pending := [] }, t.2)) := by
      simp [exec, txnCommit, callStore, Op.handle, TxnOp.handle, henv.commit]
    change (exec env txnCommit t).2.1.pool ++ [some (exec env txnCommit t).2.1.pending] = _
    rw [ht]
    exact congrArg (· ++ [some []]) hq

/-- **What a call does to the pool**: nothing, or it takes the first object out and puts one in that
holds no lock. -/
theorem Call.next_pool (henv : env.Ends) {c : Call} (hc : c.Mutates) {s : Db}
    (ho : c.Orderly env cfg s) : (c.next env cfg s).1.pool = s.1.pool ∨
      (c.next env cfg s).1.pool = s.1.pool.tail ++ [some []] := by
  cases he : c.enters with
  | false => exact .inl (exec_reads (Call.reads_of_not_enters he)).2.2
  | true =>
    right
    cases c with
    | set d =>
      simp only [Call.enters, Bool.and_eq_true, Bool.not_eq_true'] at he
      simp only [Call.next, Call.prog, Database.set, he.1, he.2, Bool.false_eq_true, if_false,
        exec_map]
      refine withTxn_pool henv (setTxn_inside cfg _ _ _) s fun h => ?_
      obtain ⟨-, hp⟩ | hp := setTxn_clean henv d s.begun h
      · exact hp
      · exact hp
    | remove key =>
      simp only [Call.enters, Bool.not_eq_true'] at he
      simp only [Call.next, Call.prog, Database.remove, he, Bool.false_eq_true, if_false, exec_map]
      exact withTxn_pool henv (removeTxn_inside cfg _ _) s (removeTxn_clean henv key s.begun)
    | move d =>
      simp only [Call.enters, Bool.and_eq_true, Bool.not_eq_true'] at he
      simp only [Call.next, Call.prog, Database.move, he.1, he.2, Bool.false_eq_true, if_false,
        exec_map]
      refine withTxn_pool henv (moveTxn_inside cfg _ _ _) s fun h => ?_
      obtain ⟨-, hp⟩ | hp := moveTxn_clean henv d s.begun h
      · exact hp
      · exact hp
    | setBatch kvs =>
      simp only [Call.next, Call.prog, Database.setBatch, exec_map]
      exact withTxn_pool henv (forAll_inside (fun _ => setTxn_inside cfg _ _ _) kvs) s
        (forAll_clean_later henv (g := Item.set) (fun _ => rfl) kvs s.begun rfl ho)
    | removeBatch keys =>
      simp only [Call.next, Call.prog, Database.removeBatch, exec_map]
      exact withTxn_pool henv (forAll_inside (fun _ => removeTxn_inside cfg _ _) keys) s
        (forAll_clean_later henv (g := Item.remove) (fun _ => rfl) keys s.begun rfl ho)
    | moveBatch kvs =>
      simp only [Call.next, Call.prog, Database.moveBatch, exec_map]
      exact withTxn_pool henv (forAll_inside (fun _ => moveTxn_inside cfg _ _ _) kvs) s
        (forAll_clean_later henv (g := Item.move) (fun _ => rfl) kvs s.begun rfl ho)
    | _ => exact hc.elim

/-- No idle transaction object holds a pending write. -/
def PoolClean (s : Db) : Prop := ∀ ws, some ws ∈ s.1.pool → ws = []

theorem PoolClean.not_locked {s : Db} (h : PoolClean s) (l : Column × Bytes) :
    s.1.locked l = false := by
  rw [TxnDb.locked, List.any_eq_false]
  intro t ht
  cases t with
  | none => simp
  | some ws => simp [h ws ht]

theorem PoolClean.next (henv : env.Ends) {s : Db} (h : PoolClean s) {c : Call} (hc : c.Mutates)
    (ho : c.Orderly env cfg s) : PoolClean (c.next env cfg s) := by
  intro ws hws
  obtain hp | hp := c.next_pool henv hc ho
  · exact h ws (hp ▸ hws)
  · rw [hp, List.mem_append] at hws
    obtain hws | hws := hws
    · exact h ws (List.mem_of_mem_tail hws)
    · simpa using hws

end

/-- **No call leaves locks behind**, in runs in which commits and rollbacks do not fail and no item
after the first of a batch is turned away: in every state between calls, no idle transaction object
holds the lock of any location. -/
theorem no_lock_left_behind (env : Env) (henv : env.Ends) (cfg : Config) (n : ℕ) (s : Db)
    (h : Reach env cfg (fun s c => c.Mutates ∧ c.Orderly env cfg s) (Db.init n) s)
    (l : Column × Bytes) : s.1.locked l = false := by
  refine PoolClean.not_locked ?_ l
  induction h with
  | start => exact fun ws hws => by simp [Db.init, Db.idle] at hws
  | call c _ hq ih => exact ih.next henv hq.1 hq.2

/-- A batch of two sets against a pool of one object. -/
theorem no_lock_left_behind_batch :
    let c : Call := .setBatch [⟨[97], [1], {}⟩, ⟨[98], [2], {}⟩]
    (c.next (.reliable fun _ => 0) (.plain false) (Db.init 1)).1.locked (.data, [47, 97]) =
      false := by
  intro c
  refine no_lock_left_behind _ ⟨fun _ => rfl, fun _ => rfl⟩ _ 1 _ (.call c .start ⟨trivial, ?_⟩) _
  simp [c, Call.Orderly, Call.work, NoneTurnedAwayLater, NoneTurnedAway, Item.turnedAway,
    Env.reliable, Env.turnsAway]

/-- **A refused batch leaves a lock behind.**  `/b` is there; a batch that sets `/a`, and then `/b`
only if it does not exist, is refused; the transaction object goes back to the pool with the lock on
`/a`.  The next call gets the other object of the pool and waits for that lock until it times out.
-/
theorem stale_lock_after_refused_batch :
    let env : Env := { Env.reliable (fun _ => 0) with fails := fun _ e => e = .write true }
    let s := runCalls env (.plain false) (Db.init 2)
      [.set ⟨[98], [1], {}⟩, .setBatch [⟨[97], [2], {}⟩, ⟨[98], [3], { ifNotExists := true }⟩]]
    s.1.locked (.data, [47, 97]) = true ∧
      (Call.set ⟨[97], [4], {}⟩).answer env (.plain false) s = .bool false := by
  decide

end ConfigDb
