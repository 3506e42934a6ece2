import ConfigDb.Storage.Machine

/-!
# What the storage operations do to the columns

On the ideal database every operation of `ConfigDb.Storage.Database` that works inside a
transaction has a simple meaning: it is refused, or it updates the view of the transaction by a
function of the view alone.  This file defines these functions on `Columns` and proves, one lemma
per operation, that the programs compute them.

* `Store.link` adds the path of a key to the tree, `Store.unlink` takes it out;
* `Store.setEntry` and `Store.removeEntry` are `set` and `remove` inside a transaction;
* `setTxn_ideal`, `removeTxn_ideal`, `moveTxn_ideal` are the lemmas about the programs.
-/

namespace ConfigDb

open Std Database

/-! ### The tree -/

namespace Store

/-- Put one child into the tree. -/
def addLink (v : Columns) (t : Tuple) : Columns :=
  match v.get .forrest t.1 with
  | some node =>
    if (ExtTreeSet.ofList node.children : ExtTreeSet Bytes).contains t.2 then v
    else v.put .forrest t.1
      ⟨((ExtTreeSet.ofList node.children : ExtTreeSet Bytes).insert t.2).toList⟩
  | none => v.put .forrest t.1 ⟨[t.2]⟩

/-- Put the components of a path into the tree. -/
def link (v : Columns) (ts : List Tuple) : Columns := ts.foldl addLink v

/-- Take the components of a path, listed from the last to the first, out of the tree: up to the
first node that keeps another child or is itself a key. -/
def unlink (v : Columns) : List Tuple → Columns
  | [] => v
  | (path, child) :: ts =>
    match v.get .forrest path with
    | none => v
    | some node =>
      if (node.children.filter fun item => child != item).isEmpty then
        match v.get .data path with
        | some _ => v.delete .forrest path
        | none => (v.delete .forrest path).unlink ts
      else v.put .forrest path ⟨node.children.filter fun item => child != item⟩

/-- Set the expiration of a key to `ns`, at time `ns1`. -/
def expire (v : Columns) (ks : Bytes) (ns ns1 : ℕ) : Columns :=
  (v.put .expiration ks (toString ns)).put .expiring (toString ns ++ toString ns1) ks

/-- The entry of a key in the tree or, for a cache entry, in the `cache` column. -/
def enter (v : Columns) (ks : Bytes) (cache : Bool) : Columns :=
  if cache then v.put .cache ks [49] else v.link (treeComponents ks)

/-- What `set` does to the columns, with the clock at `t` and then `t1`. -/
def setEntry (cfg : Config) (v : Columns) (ks value : Bytes) (opts : Options) (t t1 : ℕ) :
    Columns :=
  let v := (v.put .data ks (cfg.cipher.encrypt value)).enter ks opts.cache
  if opts.expirationInSeconds = 0 then v
  else v.expire ks (t + opts.expirationInSeconds.toNat * 10 ^ 9) t1

/-- What `remove` does to the columns; `marked` tells whether the committed `cache` column has the
key. -/
def removeEntry (v : Columns) (ks : Bytes) (marked : Bool) : Columns :=
  let v := (v.delete .data ks).delete .expiration ks
  if marked then v.delete .cache ks else v.unlink (treeComponents ks).reverse

/-! The tree operations change the `forrest` column only. -/

theorem addLink_of_ne {c : Column} (hc : c ≠ .forrest) (v : Columns) (t : Tuple) :
    v.addLink t c = v c := by
  cases h : v.get .forrest t.1 with
  | none => simp [addLink, h, hc]
  | some node =>
    simp only [addLink, h]
    split_ifs
    · rfl
    · exact put_of_ne v hc _ _

theorem link_of_ne {c : Column} (hc : c ≠ .forrest) (v : Columns) (ts : List Tuple) :
    v.link ts c = v c := by
  induction ts generalizing v with
  | nil => rfl
  | cons t ts ih => exact (ih _).trans (addLink_of_ne hc v t)

theorem unlink_of_ne {c : Column} (hc : c ≠ .forrest) (v : Columns) (ts : List Tuple) :
    v.unlink ts c = v c := by
  induction ts generalizing v with
  | nil => rfl
  | cons t ts ih =>
    obtain ⟨path, child⟩ := t
    cases h : v.get .forrest path with
    | none => simp [unlink, h]
    | some node =>
      simp only [unlink, h]
      split_ifs
      · cases hd : v.get .data path with
        | none => simp [ih, hc]
        | some _ => simp [hc]
      · exact put_of_ne v hc _ _

@[simp] theorem get_link_of_ne {c : Column} (hc : c ≠ .forrest) (v : Columns) (ts : List Tuple)
    (k : Bytes) : (v.link ts).get c k = v.get c k := by
  rw [get, get, link_of_ne hc]

@[simp] theorem get_unlink_of_ne {c : Column} (hc : c ≠ .forrest) (v : Columns) (ts : List Tuple)
    (k : Bytes) : (v.unlink ts).get c k = v.get c k := by
  rw [get, get, unlink_of_ne hc]

/-! The columns after `set` and `remove`, one by one. -/

@[simp] theorem setEntry_data (cfg : Config) (v : Columns) (ks value : Bytes) (opts : Options)
    (t t1 : ℕ) (k : Bytes) : (v.setEntry cfg ks value opts t t1).get .data k =
      if ks = k then some (cfg.cipher.encrypt value) else v.get .data k := by
  unfold setEntry enter
  split <;> split <;> simp [expire]

@[simp] theorem setEntry_cache (cfg : Config) (v : Columns) (ks value : Bytes) (opts : Options)
    (t t1 : ℕ) (k : Bytes) : (v.setEntry cfg ks value opts t t1).get .cache k =
      if opts.cache = true ∧ ks = k then some [49] else v.get .cache k := by
  unfold setEntry enter
  split <;> split <;> simp_all [expire]

@[simp] theorem setEntry_expiration (cfg : Config) (v : Columns) (ks value : Bytes)
    (opts : Options) (t t1 : ℕ) (k : Bytes) :
    (v.setEntry cfg ks value opts t t1).get .expiration k =
      if opts.expirationInSeconds ≠ 0 ∧ ks = k then
        some (toString (t + opts.expirationInSeconds.toNat * 10 ^ 9))
      else v.get .expiration k := by
  unfold setEntry enter
  split <;> split <;> simp_all [expire]

@[simp] theorem setEntry_expiring (cfg : Config) (v : Columns) (ks value : Bytes)
    (opts : Options) (t t1 : ℕ) (k : Bytes) :
    (v.setEntry cfg ks value opts t t1).get .expiring k =
      if opts.expirationInSeconds ≠ 0 ∧
          toString (t + opts.expirationInSeconds.toNat * 10 ^ 9) ++ toString t1 = k then some ks
      else v.get .expiring k := by
  unfold setEntry enter
  split <;> split <;> simp_all [expire]

@[simp] theorem setEntry_forrest (cfg : Config) (v : Columns) (ks value : Bytes)
    (opts : Options) (t t1 : ℕ) : v.setEntry cfg ks value opts t t1 .forrest =
      if opts.cache then v .forrest
      else (v.put .data ks (cfg.cipher.encrypt value)).link (treeComponents ks) .forrest := by
  unfold setEntry enter
  split <;> split <;> simp_all [expire]

@[simp] theorem removeEntry_data (v : Columns) (ks : Bytes) (marked : Bool) (k : Bytes) :
    (v.removeEntry ks marked).get .data k = if ks = k then none else v.get .data k := by
  unfold removeEntry
  split <;> simp

@[simp] theorem removeEntry_expiration (v : Columns) (ks : Bytes) (marked : Bool) (k : Bytes) :
    (v.removeEntry ks marked).get .expiration k =
      if ks = k then none else v.get .expiration k := by
  unfold removeEntry
  split <;> simp

@[simp] theorem removeEntry_expiring (v : Columns) (ks : Bytes) (marked : Bool) (k : Bytes) :
    (v.removeEntry ks marked).get .expiring k = v.get .expiring k := by
  unfold removeEntry
  split <;> simp

@[simp] theorem removeEntry_cache (v : Columns) (ks : Bytes) (marked : Bool) (k : Bytes) :
    (v.removeEntry ks marked).get .cache k =
      if marked = true ∧ ks = k then none else v.get .cache k := by
  unfold removeEntry
  split <;> simp_all

@[simp] theorem removeEntry_forrest (v : Columns) (ks : Bytes) (marked : Bool) :
    v.removeEntry ks marked .forrest =
      if marked then v .forrest
      else ((v.delete .data ks).delete .expiration ks).unlink (treeComponents ks).reverse
        .forrest := by
  unfold removeEntry
  split <;> simp

end Store

/-! ### States of the ideal database -/

namespace IdealDb

/-- Replace the view. -/
def withView (s : IdealDb) (v : Columns) : IdealDb := ({ s.1 with view := v }, s.2)

@[simp] theorem withView_committed (s : IdealDb) (v : Columns) :
    (s.withView v).1.committed = s.1.committed := rfl

@[simp] theorem withView_view (s : IdealDb) (v : Columns) : (s.withView v).1.view = v := rfl

@[simp] theorem withView_snd (s : IdealDb) (v : Columns) : (s.withView v).2 = s.2 := rfl

@[simp] theorem withView_withView (s : IdealDb) (v w : Columns) :
    (s.withView v).withView w = s.withView w := rfl

@[simp] theorem withView_self (s : IdealDb) : s.withView s.1.view = s := rfl

/-- Replace the state of the process. -/
def withLocal (s : IdealDb) (l : Local) : IdealDb := (s.1, l)

@[simp] theorem withLocal_fst (s : IdealDb) (l : Local) : (s.withLocal l).1 = s.1 := rfl

@[simp] theorem withLocal_snd (s : IdealDb) (l : Local) : (s.withLocal l).2 = l := rfl

/-- The committed `cache` column has the key. -/
def marked (s : IdealDb) (ks : Bytes) : Bool := (s.1.committed.get .cache ks).isSome

end IdealDb

namespace Local

/-- One encrypter has been asked for. -/
def acquired (l : Local) : Local := { l with acquires := l.acquires + 1 }

/-- The clock has been read `n` times. -/
def readClock (l : Local) (n : ℕ) : Local := { l with nows := l.nows + n }

/-- An entry has been put into the value cache, if it is enabled. -/
def cached (cfg : Config) (l : Local) (ks value : Bytes) : Local :=
  if cfg.enableCache then { l with valueCache := l.valueCache.insert ks value } else l

/-- A key has been erased from the value cache, if it is enabled. -/
def uncached (cfg : Config) (l : Local) (ks : Bytes) : Local :=
  if cfg.enableCache then { l with valueCache := l.valueCache.erase ks } else l

@[simp] theorem nows_uncached (cfg : Config) (l : Local) (ks : Bytes) :
    (l.uncached cfg ks).nows = l.nows := by
  unfold uncached; split <;> rfl

theorem acquires_uncached (cfg : Config) (l : Local) (ks : Bytes) :
    (l.uncached cfg ks).acquires = l.acquires := by
  unfold uncached; split <;> rfl

@[simp] theorem nows_acquired (l : Local) : l.acquired.nows = l.nows := rfl

@[simp] theorem nows_readClock (l : Local) (n : ℕ) : (l.readClock n).nows = l.nows + n := rfl

/-- What a `set` leaves of the state of the process. -/
def afterSet (cfg : Config) (l : Local) (ks value : Bytes) (opts : Options) : Local :=
  ((l.acquired).readClock (if opts.expirationInSeconds = 0 then 0 else 2)).cached cfg ks value

end Local

/-! ### Single calls on the ideal database -/

section

variable (env : Env) (s : IdealDb)

@[simp] theorem execIdeal_pure {α : Type} (a : α) : execIdeal env (pure a) s = (a, s) := rfl

@[simp] theorem execIdeal_bind {α β : Type} (p : DbProg α) (f : α → DbProg β) :
    execIdeal env (p >>= f) s = execIdeal env (f (execIdeal env p s).1) (execIdeal env p s).2 :=
  Prog.run_bind _ p f s

@[simp] theorem execIdeal_map {α β : Type} (p : DbProg α) (f : α → β) :
    execIdeal env (f <$> p) s = (f (execIdeal env p s).1, (execIdeal env p s).2) :=
  Prog.run_map _ p f s

theorem execIdeal_ite {α : Type} (c : Prop) [Decidable c] (p q : DbProg α) :
    execIdeal env (if c then p else q) s = if c then execIdeal env p s else execIdeal env q s :=
  Prog.run_ite _ c p q s

@[simp] theorem execIdeal_lock (b : Bool) : execIdeal env (lock b) s = ((), s) := rfl

@[simp] theorem execIdeal_unlock : execIdeal env unlock s = ((), s) := rfl

@[simp] theorem execIdeal_beginTransaction :
    execIdeal env beginTransaction s = ((), s.withView s.1.committed) := rfl

@[simp] theorem execIdeal_releaseTransaction :
    execIdeal env releaseTransaction s = ((), s.withView s.1.committed) := rfl

@[simp] theorem execIdeal_txnGet (c : Column) (k : Bytes) :
    execIdeal (α := no_index (Reply c.Value)) env (txnGet c k) s =
      (.ofOption (s.1.view.get c k), s) := rfl

@[simp] theorem execIdeal_txnPut (c : Column) (k : Bytes) (v : c.Value) :
    execIdeal env (txnPut c k v) s = (true, s.withView (s.1.view.put c k v)) := rfl

@[simp] theorem execIdeal_txnDelete (c : Column) (k : Bytes) :
    execIdeal env (txnDelete c k) s = (true, s.withView (s.1.view.delete c k)) := rfl

@[simp] theorem execIdeal_txnCommit :
    execIdeal env txnCommit s = (true, (⟨s.1.view, s.1.view⟩, s.2)) := rfl

@[simp] theorem execIdeal_txnRollback :
    execIdeal env txnRollback s = (true, s.withView s.1.committed) := rfl

@[simp] theorem execIdeal_dbGet (c : Column) (k : Bytes) :
    execIdeal (α := no_index (Reply c.Value)) env (dbGet c k) s =
      (.ofOption (s.1.committed.get c k), s) := rfl

@[simp] theorem execIdeal_dbScan (c : Column) (k : Bytes) :
    execIdeal (α := no_index (List (Bytes × c.Value))) env (dbScan c k) s =
      (s.1.committed.below c k, s) := rfl

@[simp] theorem execIdeal_now :
    execIdeal env now s = (env.clock s.2.nows, s.withLocal (s.2.readClock 1)) := rfl

theorem execIdeal_acquireEncrypter_eq : execIdeal env acquireEncrypter s =
    (!env.starved s.2.acquires, s.withLocal s.2.acquired) := rfl

@[simp] theorem execIdeal_cacheFind (k : Bytes) :
    execIdeal env (cacheFind k) s = (s.2.valueCache[k]?, s) := rfl

variable {env}

@[simp] theorem execIdeal_stopped (henv : env.Reliable) :
    execIdeal env stopped s = (false, s.withLocal { s.2 with loads := s.2.loads + 1 }) := by
  have : execIdeal env stopped s =
      (env.stop s.2.loads, s.withLocal { s.2 with loads := s.2.loads + 1 }) := rfl
  rw [this, henv.stop]

@[simp] theorem execIdeal_acquireEncrypter (henv : env.Reliable) :
    execIdeal env acquireEncrypter s = (true, s.withLocal s.2.acquired) := by
  rw [execIdeal_acquireEncrypter_eq, henv.starved]
  rfl

end

/-! ### The operations on the ideal database -/

variable {env : Env} {cfg : Config}

theorem manageTreeLoop_ideal (ts : List Tuple) (s : IdealDb) :
    execIdeal env (manageTreeLoop ts) s = (true, s.withView (s.1.view.link ts)) := by
  induction ts generalizing s with
  | nil => rfl
  | cons t ts ih =>
    obtain ⟨path, child⟩ := t
    have hl : s.1.view.link ((path, child) :: ts) =
        (s.1.view.addLink (path, child)).link ts := rfl
    rw [manageTreeLoop, execIdeal_bind, execIdeal_txnGet, hl, Store.addLink]
    cases s.1.view.get .forrest path with
    | none => simp [createChild, ih]
    | some node =>
      simp only [Reply.ofOption_some, execIdeal_bind, addChild]
      split <;> simp [ih]

theorem manageTree_ideal (ks : Bytes) (s : IdealDb) :
    execIdeal env (manageTree ks) s = (true, s.withView (s.1.view.link (treeComponents ks))) :=
  manageTreeLoop_ideal _ s

theorem removeChildLoop_ideal (ts : List Tuple) (s : IdealDb) :
    execIdeal env (removeChildLoop ts) s = (true, s.withView (s.1.view.unlink ts)) := by
  induction ts generalizing s with
  | nil => rfl
  | cons t ts ih =>
    obtain ⟨path, child⟩ := t
    rw [removeChildLoop, execIdeal_bind, execIdeal_txnGet, Store.unlink]
    cases s.1.view.get .forrest path with
    | none => rfl
    | some node =>
      simp only [Reply.ofOption_some, removeChildNode]
      split
      · -- no child is left: whether the walk goes on depends on the value of the path itself
        simp only [execIdeal_bind, execIdeal_txnDelete, if_true, execIdeal_pure, Bool.not_true,
          Bool.false_eq_true, if_false, execIdeal_txnGet, IdealDb.withView_view,
          Store.get_delete_of_ne _ (show Column.data ≠ Column.forrest by decide)]
        cases s.1.view.get .data path with
        | none => simp [ih]
        | some _ => rfl
      · simp

theorem removeChild_ideal (ks : Bytes) (s : IdealDb) :
    execIdeal env (removeChild ks) s =
      (true, s.withView (s.1.view.unlink (treeComponents ks).reverse)) :=
  removeChildLoop_ideal _ s

theorem refused_ideal (opts : Options) (ks : Bytes) (s : IdealDb) :
    execIdeal env (refused opts ks) s =
      (opts.ifNotExists && (s.1.view.get .data ks).isSome, s) := by
  cases hi : opts.ifNotExists
  · simp [refused, hi]
  · cases hg : s.1.view.get .data ks <;> simp [refused, hi, hg]

theorem setExpiration_ideal (ks : Bytes) (n : UInt32) (s : IdealDb) :
    execIdeal env (setExpiration ks n) s =
      (true, if n = 0 then s else
        (s.withView (s.1.view.expire ks (env.clock s.2.nows + n.toNat * 10 ^ 9)
          (env.clock (s.2.nows + 1)))).withLocal (s.2.readClock 2)) := by
  by_cases hn : n = 0
  · simp [setExpiration, hn]
  · simp [setExpiration, hn]
    rfl

theorem enterKey_ideal (ks : Bytes) (cache : Bool) (s : IdealDb) :
    execIdeal env (enterKey ks cache) s = (true, s.withView (s.1.view.enter ks cache)) := by
  cases cache
  · exact manageTree_ideal ks s
  · rfl

theorem putValue_ideal (ks value : Bytes) (s : IdealDb) :
    execIdeal env (putValue cfg ks value) s = ((), s.withLocal (s.2.cached cfg ks value)) := by
  rw [putValue, execIdeal_ite, Local.cached]
  split <;> rfl

theorem eraseValue_ideal (ks : Bytes) (s : IdealDb) :
    execIdeal env (eraseValue cfg ks) s = ((), s.withLocal (s.2.uncached cfg ks)) := by
  rw [eraseValue, execIdeal_ite, Local.uncached]
  split <;> rfl

/-- **`set` inside a transaction** that gets its encrypter is refused by `ifNotExists`, or updates
the columns. -/
theorem setTxn_of_supplied {s : IdealDb} (hs : env.starved s.2.acquires = false)
    (key value : Bytes) (opts : Options) :
    execIdeal env (setTxn cfg key value opts) s =
      if opts.ifNotExists && (s.1.view.get .data (getKey key)).isSome then
        (false, s.withLocal s.2.acquired)
      else (true, (s.withView (s.1.view.setEntry cfg (getKey key) value opts
        (env.clock s.2.nows) (env.clock (s.2.nows + 1)))).withLocal
          (s.2.afterSet cfg (getKey key) value opts)) := by
  unfold setTxn
  simp only [execIdeal_bind, execIdeal_acquireEncrypter_eq, hs, Bool.not_false, Bool.not_true,
    Bool.false_eq_true, if_false, refused_ideal, IdealDb.withLocal_fst]
  cases opts.ifNotExists && (s.1.view.get .data (getKey key)).isSome with
  | true => rfl
  | false =>
    simp only [Bool.false_eq_true, if_false, execIdeal_bind, execIdeal_txnPut, Bool.not_true,
      enterKey_ideal, setExpiration_ideal, putValue_ideal, execIdeal_pure]
    by_cases hn : opts.expirationInSeconds = 0
    · simp only [hn, if_true, Store.setEntry, Local.afterSet]
      rfl
    · simp only [hn, if_false, Store.setEntry, Local.afterSet]
      rfl

/-- **`set` inside a transaction** is refused by `ifNotExists`, or updates the columns. -/
theorem setTxn_ideal (henv : env.Reliable) (key value : Bytes) (opts : Options) (s : IdealDb) :
    execIdeal env (setTxn cfg key value opts) s =
      if opts.ifNotExists && (s.1.view.get .data (getKey key)).isSome then
        (false, s.withLocal s.2.acquired)
      else (true, (s.withView (s.1.view.setEntry cfg (getKey key) value opts
        (env.clock s.2.nows) (env.clock (s.2.nows + 1)))).withLocal
          (s.2.afterSet cfg (getKey key) value opts)) :=
  setTxn_of_supplied (henv.starved _) key value opts

theorem removeEntry_ideal (ks : Bytes) (s : IdealDb) :
    execIdeal env (Database.removeEntry ks) s = (true, s.withView
      (if s.marked ks then s.1.view.delete .cache ks
        else s.1.view.unlink (treeComponents ks).reverse)) := by
  rw [Database.removeEntry, execIdeal_bind, execIdeal_dbGet, IdealDb.marked]
  cases s.1.committed.get .cache ks with
  | none => simp [removeChild_ideal]
  | some v => rfl

/-- **`remove` inside a transaction** updates the columns. -/
theorem removeTxn_ideal (key : Bytes) (b : Bool) (s : IdealDb) :
    execIdeal env (removeTxn cfg key b) s =
      (true, (s.withView (s.1.view.removeEntry (getKey key) (s.marked (getKey key)))).withLocal
        (s.2.uncached cfg (getKey key))) := by
  unfold removeTxn
  simp only [execIdeal_bind, execIdeal_txnDelete, Bool.not_true, Bool.false_eq_true, if_false,
    removeEntry_ideal, eraseValue_ideal, execIdeal_pure]
  rfl

theorem parseTTL_ideal (value : Bytes) (s : IdealDb) :
    execIdeal env (parseTTL value) s =
      match fromChars 64 value with
      | none => (0, s)
      | some v => (ttlAt (env.clock s.2.nows) v, s.withLocal (s.2.readClock 1)) := by
  unfold parseTTL
  cases fromChars 64 value <;> rfl

/-- The expiration that a move gives its destination, and how often it reads the clock for it. -/
def moveExp (env : Env) (s : IdealDb) (opts : Options) (ks : Bytes) : ℕ × ℕ :=
  if opts.expirationInSeconds ≠ 0 then (opts.expirationInSeconds.toNat, 0)
  else match (s.1.view.get .expiration ks).bind (fromChars 64) with
    | none => (0, 0)
    | some v => (ttlAt (env.clock s.2.nows) v, 1)

theorem moveExpiration_ideal (opts : Options) (ks : Bytes) (s : IdealDb) :
    execIdeal env (moveExpiration opts ks) s =
      ((moveExp env s opts ks).1, s.withLocal (s.2.readClock (moveExp env s opts ks).2)) := by
  unfold moveExpiration moveExp
  by_cases hn : opts.expirationInSeconds = 0
  · simp only [hn, ne_eq, not_true, if_false, execIdeal_bind, execIdeal_txnGet]
    cases s.1.view.get .expiration ks with
    | none => rfl
    | some nsv =>
      simp only [Reply.ofOption_some, parseTTL_ideal, Option.bind_some]
      cases fromChars 64 nsv with
      | none => rfl
      | some v => simp only
  · simp only [hn, ne_eq, not_false_eq_true, if_true]
    rfl

@[simp] theorem getKey_getKey (key : Bytes) : getKey (getKey key) = getKey key := by
  cases key with
  | nil => rfl
  | cons b key =>
    by_cases hb : b = slash
    · simp [getKey, hb]
    · simp [getKey, hb]

/-- The options under which a move sets its destination. -/
def IdealDb.moveOpts (env : Env) (s : IdealDb) (opts : Options) (ks : Bytes) : Options :=
  moveOptions opts (.ofOption (s.1.view.get .cache ks)) (moveExp env s opts ks).1

/-- The state of the process when a move has taken its source out. -/
def IdealDb.moveLocal (env : Env) (cfg : Config) (s : IdealDb) (opts : Options) (ks : Bytes) :
    Local :=
  (s.2.acquired.readClock (moveExp env s opts ks).2).uncached cfg ks

/-- The state after a move of the value `v`. -/
def IdealDb.moved (env : Env) (cfg : Config) (s : IdealDb) (opts : Options) (ks ds v : Bytes) :
    IdealDb :=
  let l := s.moveLocal env cfg opts ks
  let nopts := s.moveOpts env opts ks
  (s.withView ((s.1.view.removeEntry ks (s.marked ks)).setEntry cfg ds (cfg.cipher.decrypt v) nopts
    (env.clock l.nows) (env.clock (l.nows + 1)))).withLocal
      (l.afterSet cfg ds (cfg.cipher.decrypt v) nopts)

/-- **`move` inside a transaction** that gets its two encrypters is refused if `ifNotExists` forbids
it or the source is absent; otherwise it removes the source and sets the destination. -/
theorem moveTxn_of_supplied {s : IdealDb} (hs : env.starved s.2.acquires = false)
    (hs' : env.starved (s.2.acquires + 1) = false) (key dest : Bytes) (opts : Options) :
    execIdeal env (moveTxn cfg key dest opts) s =
      if opts.ifNotExists && (s.1.view.get .data (getKey dest)).isSome then
        (false, s.withLocal s.2.acquired)
      else match s.1.view.get .data (getKey key) with
        | none => (false, s.withLocal s.2.acquired)
        | some v => (true, s.moved env cfg opts (getKey key) (getKey dest) v) := by
  unfold moveTxn
  simp only [execIdeal_bind, execIdeal_acquireEncrypter_eq, hs, Bool.not_false, Bool.not_true,
    Bool.false_eq_true, if_false, refused_ideal, IdealDb.withLocal_fst]
  cases hr : opts.ifNotExists && (s.1.view.get .data (getKey dest)).isSome with
  | true => rfl
  | false =>
    simp only [Bool.false_eq_true, if_false, execIdeal_bind, execIdeal_txnGet,
      IdealDb.withLocal_fst]
    cases hv : s.1.view.get .data (getKey key) with
    | none => rfl
    | some v =>
      have hn : ¬ (opts.ifNotExists && ((s.1.view.removeEntry (getKey key)
          (s.marked (getKey key))).get .data (getKey dest)).isSome) = true := by
        rw [Store.removeEntry_data]
        split_ifs
        · simp
        · simp [hr]
      -- the state between the removal of the source and the set of the destination
      let s₁ : IdealDb := (s.withView (s.1.view.removeEntry (getKey key)
        (s.marked (getKey key)))).withLocal (s.moveLocal env cfg opts (getKey key))
      have hrem : execIdeal env (removeTxn cfg (getKey key) true) ((s.withLocal
          s.2.acquired).withLocal (s.2.acquired.readClock
            (moveExp env (s.withLocal s.2.acquired) opts (getKey key)).2)) = (true, s₁) := by
        rw [removeTxn_ideal, getKey_getKey]; rfl
      have hset : execIdeal env (setTxn cfg (getKey dest) (cfg.cipher.decrypt v)
          (s.moveOpts env opts (getKey key))) s₁ =
            (true, s.moved env cfg opts (getKey key) (getKey dest) v) := by
        have hl : s₁.2.acquires = s.2.acquires + 1 := Local.acquires_uncached _ _ _
        rw [setTxn_of_supplied (hl.symm ▸ hs'), getKey_getKey]
        exact if_neg hn
      simp only [Reply.ofOption_some, execIdeal_bind, execIdeal_txnGet, moveExpiration_ideal,
        IdealDb.withLocal_snd, IdealDb.withLocal_fst, hrem, Bool.not_true, Bool.false_eq_true,
        if_false]
      change execIdeal env (if (!(execIdeal env (setTxn cfg (getKey dest) (cfg.cipher.decrypt v)
        (s.moveOpts env opts (getKey key))) s₁).1) = true then _ else _) (execIdeal env (setTxn cfg
          (getKey dest) (cfg.cipher.decrypt v) (s.moveOpts env opts (getKey key))) s₁).2 = _
      rw [hset]
      rfl

/-- **`move` inside a transaction** is refused if `ifNotExists` forbids it or the source is absent;
otherwise it removes the source and sets the destination. -/
theorem moveTxn_ideal (henv : env.Reliable) (key dest : Bytes) (opts : Options) (s : IdealDb) :
    execIdeal env (moveTxn cfg key dest opts) s =
      if opts.ifNotExists && (s.1.view.get .data (getKey dest)).isSome then
        (false, s.withLocal s.2.acquired)
      else match s.1.view.get .data (getKey key) with
        | none => (false, s.withLocal s.2.acquired)
        | some v => (true, s.moved env cfg opts (getKey key) (getKey dest) v) :=
  moveTxn_of_supplied (henv.starved _) (henv.starved _) key dest opts

/-! ### Reading -/

/-- What the value cache answers for a key, if it is enabled. -/
def IdealDb.cacheLookup (cfg : Config) (s : IdealDb) (ks : Bytes) : Option Bytes :=
  if cfg.enableCache then s.2.valueCache[ks]? else none

/-- A lookup in a value cache that holds the value of the key, if caching is on. -/
theorem IdealDb.cacheLookup_eq {cfg : Config} {s : IdealDb} {ks v : Bytes}
    (hm : cfg.enableCache = true → s.2.valueCache[ks]? = some v) :
    s.cacheLookup cfg ks = if cfg.enableCache then some v else none := by
  rw [IdealDb.cacheLookup]
  split_ifs with hen
  · exact hm hen
  · rfl

/-- The decrypted committed value of a key. -/
def Store.value (cfg : Config) (v : Columns) (ks : Bytes) : Option Bytes :=
  (v.get .data ks).map cfg.cipher.decrypt

/-- The state of the process after the committed value of a key has been loaded. -/
def Local.loaded (cfg : Config) (cm : Columns) (l : Local) (ks : Bytes) : Local :=
  match cm.value cfg ks with
  | some value => l.cached cfg ks value
  | none => l

theorem findValue_ideal (ks : Bytes) (s : IdealDb) :
    execIdeal env (findValue cfg ks) s = (s.cacheLookup cfg ks, s) := by
  rw [findValue, execIdeal_ite, IdealDb.cacheLookup]
  split <;> rfl

theorem withMutex_ideal {α : Type} (b : Bool) (p : DbProg α) (s : IdealDb) :
    execIdeal env (withMutex cfg b p) s = execIdeal env p s := by
  unfold withMutex ifMutex
  split <;> simp

/-- **`get`** answers from the value cache, or else from the columns; only in the second case does
it change the state of the process. -/
theorem get_ideal (henv : env.Reliable) {key : Bytes} (hk : key ≠ []) (s : IdealDb) :
    execIdeal env (get cfg key) s = match s.cacheLookup cfg (getKey key) with
      | some v => (some v, s)
      | none => match s.1.committed.value cfg (getKey key) with
        | some v => (some v, s.withLocal (s.2.acquired.cached cfg (getKey key) v))
        | none => (none, s) := by
  have he : key.isEmpty = false := by simpa using hk
  simp only [Database.get, he, Bool.false_eq_true, if_false, execIdeal_bind, findValue_ideal]
  cases s.cacheLookup cfg (getKey key) with
  | some v => rfl
  | none =>
    simp only [execIdeal_bind, withMutex_ideal, execIdeal_dbGet, Store.value]
    cases s.1.committed.get .data (getKey key) with
    | none => rfl
    | some v =>
      simp only [Reply.ofOption_some, execIdeal_bind, execIdeal_acquireEncrypter s henv,
        Bool.not_true, Bool.false_eq_true, if_false, putValue_ideal, execIdeal_pure]
      rfl

theorem multiGet_ideal (c : Column) (keys : List Bytes) (s : IdealDb) :
    execIdeal (α := no_index (List (Reply c.Value))) env (multiGet c keys) s =
      (keys.map fun k => .ofOption (s.1.committed.get c k), s) := by
  induction keys with
  | nil => rfl
  | cons k keys ih => simp [multiGet, ih]

theorem findCached_ideal (keys : List Bytes) (s : IdealDb) :
    execIdeal env (findCached cfg keys) s =
      ((keys.filterMap fun k => (s.cacheLookup cfg k).map fun v => (k, some v),
        keys.filter fun k => (s.cacheLookup cfg k).isNone), s) := by
  induction keys with
  | nil => rfl
  | cons k keys ih =>
    simp only [findCached, execIdeal_bind, findValue_ideal]
    cases h : s.cacheLookup cfg k with
    | some v => simp [ih, h]
    | none => simp [ih, h]

theorem decryptAll_ideal (cm : Columns) (keys : List Bytes) (s : IdealDb) :
    execIdeal env (decryptAll cfg (keys.zip (keys.map fun k => .ofOption (cm.get .data k)))) s =
      (keys.map fun k => (k, cm.value cfg k),
        s.withLocal (keys.foldl (Local.loaded cfg cm) s.2)) := by
  induction keys generalizing s with
  | nil => rfl
  | cons k keys ih =>
    simp only [List.map_cons, List.zip_cons_cons, List.foldl_cons]
    cases h : cm.get .data k with
    | none =>
      simp only [Reply.ofOption_none, decryptAll, execIdeal_bind, ih, execIdeal_pure, Store.value,
        Local.loaded, h, Option.map_none]
    | some v =>
      simp only [Reply.ofOption_some, decryptAll, execIdeal_bind, putValue_ideal, ih,
        execIdeal_pure, Store.value, Local.loaded, h, Option.map_some]
      rfl

/-- **`get` of several keys** answers for those in the value cache first, and then for the others
from the columns. -/
theorem getBatch_ideal (henv : env.Reliable) (vec : List Bytes) (s : IdealDb) :
    execIdeal env (getBatch cfg vec) s =
      (((vec.map getKey).filterMap fun k => (s.cacheLookup cfg k).map fun v => (k, some v)) ++
        ((vec.map getKey).filter fun k => (s.cacheLookup cfg k).isNone).map
          fun k => (k, s.1.committed.value cfg k),
        s.withLocal (((vec.map getKey).filter fun k => (s.cacheLookup cfg k).isNone).foldl
          (Local.loaded cfg s.1.committed) s.2.acquired)) := by
  have hc : ∀ k, (s.withLocal s.2.acquired).cacheLookup cfg k = s.cacheLookup cfg k := fun _ => rfl
  simp only [Database.getBatch, execIdeal_bind, execIdeal_acquireEncrypter s henv, Bool.not_true,
    Bool.false_eq_true, if_false, findCached_ideal, hc]
  by_cases he : ((vec.map getKey).filter fun k => (s.cacheLookup cfg k).isNone).isEmpty = true
  · rw [if_pos he]
    rw [List.isEmpty_iff] at he
    simp [he]
  · rw [if_neg he]
    simp only [execIdeal_bind, withMutex_ideal, multiGet_ideal, IdealDb.withLocal_fst,
      decryptAll_ideal, execIdeal_pure]
    rfl

end ConfigDb
