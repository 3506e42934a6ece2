import ConfigDb.Effect.Shared
import ConfigDb.Storage.Items

/-!
# A read that fills the cache beside a write

`get` looks a key up in the value cache, then in the database under the shared lock, and puts what
it has found into the cache after the lock is released.  A writing call changes the cache while it
holds the exclusive lock.  Between the lookup in the database and the fill of the cache, a writing
call may begin and end, or begin and change the cache; the fill then puts a value back that the call
has replaced.

The two calls are run call by call, in any environment: database calls may fail, clocks may jump.

## Main definitions

* `KeyView` : what a writing call has done to a key so far: its committed value, its value as the
  transaction sees it, and the last change to its entry in the cache.
* `Clients` : the thread `false` runs a `get` and the thread `true` a writing call.
* `Watch`, `Clients.watch` : how far a run has come on its way to a stale entry.

## Main results

* `fill_beside_write` : when both calls have returned and the writing call has succeeded, the entry
  is the committed value if the run is not stale, and the value before the writing call if it is.
* `stale_fill` : a `get` that has read a key before a writing call fills the cache after it.
-/

namespace ConfigDb

open Std Database

/-! ### What a writing call does to a key -/

/-- What a program has done to a key so far. -/
structure KeyView where
  /-- The committed value, encrypted. -/
  committed : Option Bytes
  /-- The value that the transaction sees, encrypted. -/
  view : Option Bytes
  /-- The entry of the key in the value cache, as the program has left it, if it has changed it. -/
  entry : Option (Option Bytes)

namespace KeyView

/-- What a call and its answer do to the key `k`. -/
def next (k : Bytes) : (e : DbOp) → Op.Res ProcOp.Res e → KeyView → KeyView
  | .store .begin, _, s => { s with view := s.committed }
  | .store (.put .data k' v), true, s => if k' = k then { s with view := some v } else s
  | .store (.delete .data k'), true, s => if k' = k then { s with view := none } else s
  | .store .commit, true, s => { s with committed := s.view }
  | .store .rollback, true, s => { s with view := s.committed }
  | .store .release, _, s => { s with view := s.committed }
  | .own (.cachePut k' v), _, s => if k' = k then { s with entry := some (some v) } else s
  | .own (.cacheErase k'), _, s => if k' = k then { s with entry := some none } else s
  | _, _, s => s

/-- The key `k` in a database, with the entry that the program has left. -/
def ofDb (k : Bytes) (d : TxnDb Bytes Column.Value) (entry : Option (Option Bytes)) : KeyView :=
  ⟨d.committed.get .data k, d.view.get .data k, entry⟩

theorem ofDb_handle (fails : ℕ → Fallible → Bool) (k : Bytes) (o : TxnOp Bytes Column.Value)
    (d : TxnDb Bytes Column.Value) (entry : Option (Option Bytes)) :
    ofDb k (o.handle fails d).2 entry =
      next k (.store o) (o.handle fails d).1 (ofDb k d entry) := by
  cases o with
  | put c k' v =>
    cases hf : fails d.calls (.write (d.locked (c, k'))) with
    | true => cases c <;> simp [TxnOp.handle, hf, ofDb, next, TxnDb.view, TxnDb.tick]
    | false =>
      cases c <;> simp [TxnOp.handle, hf, ofDb, next, TxnDb.view, TxnDb.tick, Store.apply]
      split <;> rfl
  | delete c k' =>
    cases hf : fails d.calls (.write (d.locked (c, k'))) with
    | true => cases c <;> simp [TxnOp.handle, hf, ofDb, next, TxnDb.view, TxnDb.tick]
    | false =>
      cases c <;> simp [TxnOp.handle, hf, ofDb, next, TxnDb.view, TxnDb.tick, Store.apply]
      split <;> rfl
  | commit =>
    cases hf : fails d.calls .commit <;>
      simp [TxnOp.handle, hf, ofDb, next, TxnDb.view, TxnDb.tick]
  | rollback =>
    cases hf : fails d.calls .rollback <;>
      simp [TxnOp.handle, hf, ofDb, next, TxnDb.view, TxnDb.tick]
  | _ => rfl

theorem ofDb_own (k : Bytes) (x : ProcOp) (r : x.Res) (d : TxnDb Bytes Column.Value)
    (entry : Option (Option Bytes)) :
    ofDb k d (next k (.own x) r (ofDb k d entry)).entry =
      next k (.own x) r (ofDb k d entry) := by
  cases x with
  | cachePut k' v =>
    simp only [next]
    split <;> rfl
  | cacheErase k' =>
    simp only [next]
    split <;> rfl
  | _ => rfl

/-- The program has changed the entry of the key, and the entry is the value that the transaction
sees. -/
def Settled (cfg : Config) (s : KeyView) : Prop := s.entry = some (s.view.map cfg.cipher.decrypt)

end KeyView

/-- A call other than for the mutex. -/
def Op.Inner : DbOp → Prop
  | .store (.lock _) => False
  | .store .unlock => False
  | _ => True

/-- Whatever the answers are, the program leaves the mutex alone, and what it returns and has done
to the key `k` satisfy `Q`. -/
abbrev Ends {α : Type} (k : Bytes) (Q : α → KeyView → Prop) (p : DbProg α) (s : KeyView) : Prop :=
  p.Tracks Op.Inner (KeyView.next k) Q s

/-- If the program returns `true`, then the key `k` is settled, provided that it was so before or
the program names it. -/
def Settles (cfg : Config) (k : Bytes) (names : Prop) (p : DbProg Bool) : Prop :=
  ∀ s, Ends k (fun b s' => b = true → s.Settled cfg ∨ names → s'.Settled cfg) p s

theorem Op.Aside.keyView (k : Bytes) :
    ∀ e : DbOp, e.Aside → e.Inner ∧ ∀ r s, KeyView.next k e r s = s
  | .store o, he => by
    cases o with
    | put c k' v => cases c <;> first | exact he.elim | exact ⟨trivial, fun _ _ => rfl⟩
    | delete c k' => cases c <;> first | exact he.elim | exact ⟨trivial, fun _ _ => rfl⟩
    | _ => first | exact he.elim | exact ⟨trivial, fun _ _ => rfl⟩
  | .own x, he => by cases x <;> first | exact he.elim | exact ⟨trivial, fun _ _ => rfl⟩

section

variable {cfg : Config} {k : Bytes}

theorem ends_aside {α : Type} {Q : α → KeyView → Prop} {p : DbProg α} (hp : p.Only Op.Aside)
    {s : KeyView} (hQ : ∀ a, Q a s) : Ends k Q p s :=
  .of_only (Op.Aside.keyView k) hp hQ

theorem ends_rollback {Q : Bool → KeyView → Prop} (hQ : ∀ s, Q false s) (s : KeyView) :
    Ends k Q rollback s :=
  ⟨trivial, fun _ => hQ _⟩

theorem ends_setExpiration {Q : Bool → KeyView → Prop} (ks : Bytes) (seconds : UInt32)
    {s : KeyView} (hQ : ∀ b, Q b s) : Ends k Q (setExpiration ks seconds) s := by
  have hnow : Op.Inner (.own .now) ∧ ∀ r s, KeyView.next k (.own .now) r s = s :=
    ⟨trivial, fun _ _ => rfl⟩
  have hp : (setExpiration ks seconds).Only fun e => e.Inner ∧ ∀ r s, KeyView.next k e r s = s :=
    only_ite trivial <| .bind (only_callOwn hnow) fun _ =>
    .bind (only_callStore ⟨trivial, fun _ _ => rfl⟩) fun _ => only_ite trivial <|
    .bind (only_callOwn hnow) fun _ => only_callStore ⟨trivial, fun _ _ => rfl⟩
  exact .of_only (fun _ he => he) hp hQ

theorem setTxn_settles (hen : cfg.enableCache = true) (hlaw : cfg.cipher.Lawful)
    (key value : Bytes) (opts : Options) :
    Settles cfg k (getKey key = k) (setTxn cfg key value opts) := by
  intro s
  have hundo (s' : KeyView) : Ends k (fun b s'' => b = true → s.Settled cfg ∨ getKey key = k →
      s''.Settled cfg) rollback s' :=
    ends_rollback (fun _ h => absurd h Bool.false_ne_true) s'
  refine .andThen (fun _ h => absurd h Bool.false_ne_true) ⟨trivial, fun _ _ => ?_⟩
  refine .bind (ends_aside (refused_aside _ _) fun b => ?_)
  cases b with
  | true => exact fun h => absurd h Bool.false_ne_true
  | false =>
    refine .andThen hundo ⟨trivial, ?_⟩
    rintro r rfl
    refine .andThen hundo (ends_aside (enterKey_aside _ _) fun _ _ => ?_)
    refine .andThen hundo (ends_setExpiration _ _ fun _ _ => ?_)
    rw [putValue, if_pos hen]
    refine ⟨trivial, fun _ _ hs => ?_⟩
    simp only [KeyView.Settled, KeyView.next] at hs ⊢
    by_cases hk : getKey key = k
    · simp [hk, hlaw value]
    · simpa [hk] using hs

theorem removeTxn_settles (hen : cfg.enableCache = true) (key : Bytes) :
    Settles cfg k (getKey key = k) (removeTxn cfg key true) := by
  intro s
  have hundo (s' : KeyView) : Ends k (fun b s'' => b = true → s.Settled cfg ∨ getKey key = k →
      s''.Settled cfg) rollback s' :=
    ends_rollback (fun _ h => absurd h Bool.false_ne_true) s'
  refine .andThen hundo ⟨trivial, ?_⟩
  rintro r rfl
  refine .andThen hundo ⟨trivial, fun _ _ => ?_⟩
  refine .andThen hundo (ends_aside (removeEntry_aside _) fun _ _ => ?_)
  rw [eraseValue, if_pos hen]
  refine ⟨trivial, fun _ _ hs => ?_⟩
  simp only [KeyView.Settled, KeyView.next] at hs ⊢
  by_cases hk : getKey key = k
  · simp [hk]
  · simpa [hk] using hs

theorem moveTxn_settles (hen : cfg.enableCache = true) (hlaw : cfg.cipher.Lawful)
    (key dest : Bytes) (opts : Options) :
    Settles cfg k (getKey key = k ∨ getKey dest = k) (moveTxn cfg key dest opts) := by
  intro s
  have hundo (s' : KeyView) : Ends k (fun b s'' => b = true → s.Settled cfg ∨ (getKey key = k ∨
      getKey dest = k) → s''.Settled cfg) rollback s' :=
    ends_rollback (fun _ h => absurd h Bool.false_ne_true) s'
  refine .andThen (fun _ h => absurd h Bool.false_ne_true) ⟨trivial, fun _ _ => ?_⟩
  refine .bind (ends_aside (refused_aside _ _) fun b => ?_)
  cases b with
  | true => exact fun h => absurd h Bool.false_ne_true
  | false =>
    refine .bind ⟨trivial, fun r => ?_⟩
    cases r with
    | ok v =>
      refine .bind ⟨trivial, fun _ => .bind (ends_aside (moveExpiration_aside _ _) fun _ => ?_)⟩
      refine .andThen hundo ((removeTxn_settles hen _ _).mono fun b s₁ h₁ hb => ?_)
      refine .andThen hundo ((setTxn_settles hen hlaw _ _ _ _).mono fun b s₂ h₂ hb' => ?_)
      rw [getKey_getKey] at h₁ h₂
      rintro - (hs | hs | hs)
      · exact h₂ hb' (.inl (h₁ hb (.inl hs)))
      · exact h₂ hb' (.inl (h₁ hb (.inr hs)))
      · exact h₂ hb' (.inr hs)
    | notFound => exact fun h => absurd h Bool.false_ne_true
    | error => exact fun h => absurd h Bool.false_ne_true

theorem forAll_settles {β : Type} {f : β → DbProg Bool} {names : β → Prop}
    (hf : ∀ b, Settles cfg k (names b) (f b)) (bs : List β) :
    Settles cfg k (∃ b ∈ bs, names b) (forAll f bs) := by
  induction bs with
  | nil =>
    rintro s - (hs | ⟨b, hb, -⟩)
    · exact hs
    · simp at hb
  | cons b bs ih =>
    intro s
    refine .andThen (fun _ h => absurd h Bool.false_ne_true) ((hf b s).mono fun c s₁ h₁ hc => ?_)
    refine (ih s₁).mono fun c' s₂ h₂ hc' hs => h₂ hc' ?_
    rcases hs with hs | ⟨b', hb', hn⟩
    · exact .inl (h₁ hc (.inl hs))
    · rcases List.mem_cons.1 hb' with rfl | hb'
      · exact .inl (h₁ hc (.inr hn))
      · exact .inr ⟨b', hb', hn⟩

/-- The program has changed the entry of the key, and the entry is the committed value. -/
def KeyView.Agrees (cfg : Config) (s : KeyView) : Prop :=
  s.entry = some (s.committed.map cfg.cipher.decrypt)

/-- A transaction that names the key and succeeds leaves the committed value in the cache. -/
theorem withTxn_agrees {names : Prop} (hn : names) {work : DbProg Bool}
    (hw : Settles cfg k names work) (s : KeyView) :
    Ends k (fun b s' => b = true → s'.Agrees cfg) (withTxn work) s := by
  refine .bind ⟨trivial, fun _ => .bind ((hw _).mono fun saved s₁ h₁ => ?_)⟩
  cases saved with
  | false => exact ⟨trivial, fun _ h => absurd h Bool.false_ne_true⟩
  | true =>
    refine .bind ⟨trivial, fun ok => .bind ⟨trivial, ?_⟩⟩
    rintro - rfl
    exact h₁ rfl (.inr hn)

/-- One of the keys that a mutating call names is `k`. -/
def Call.Names (k : Bytes) (c : Call) : Prop := ¬ c.On (· ≠ k)

/-- A call that names a key returns `false` at once, or is a section under the exclusive lock in
which a transaction settles the key. -/
theorem Call.prog_of_names (hen : cfg.enableCache = true) (hlaw : cfg.cipher.Lawful) {c : Call}
    (hc : c.Names k) : c.prog cfg = pure (.bool false) ∨
    ∃ body, c.prog cfg = .bool <$> withMutex cfg true body ∧
      ∀ s, Ends k (fun b s' => b = true → s'.Agrees cfg) body s := by
  cases c with
  | set d =>
    simp only [Call.prog, Database.set]
    split_ifs
    · exact .inl rfl
    · exact .inl rfl
    · exact .inr ⟨_, rfl, withTxn_agrees (not_not.1 hc) (setTxn_settles hen hlaw _ _ _)⟩
  | remove key =>
    simp only [Call.prog, Database.remove]
    split_ifs
    · exact .inl rfl
    · exact .inr ⟨_, rfl, withTxn_agrees (not_not.1 hc) (removeTxn_settles hen _)⟩
  | move d =>
    simp only [Call.prog, Database.move]
    split_ifs
    · exact .inl rfl
    · exact .inl rfl
    · refine .inr ⟨_, rfl, withTxn_agrees ?_ (moveTxn_settles hen hlaw _ _ _)⟩
      simpa [Call.Names, Call.On, or_iff_not_imp_left] using hc
  | setBatch kvs =>
    refine .inr ⟨_, rfl, withTxn_agrees ?_
      (forAll_settles (fun _ => setTxn_settles hen hlaw _ _ _) _)⟩
    simpa [Call.Names, Call.On] using hc
  | removeBatch keys =>
    refine .inr ⟨_, rfl, withTxn_agrees ?_ (forAll_settles (fun _ => removeTxn_settles hen _) _)⟩
    simpa [Call.Names, Call.On] using hc
  | moveBatch kvs =>
    refine .inr ⟨_, rfl, withTxn_agrees ?_
      (forAll_settles (fun _ => moveTxn_settles hen hlaw _ _ _) _)⟩
    simpa [Call.Names, Call.On, or_iff_not_imp_left] using hc
  | _ => exact absurd trivial hc

end

/-! ### The two calls -/

/-- The two calls at work: `false` is the `get`, `true` the writing call. -/
abbrev Clients := Shared Bytes Column.Value ProcOp.Res Local Answer

/-- The `get` of `key` and the call `c` are about to begin. -/
def Clients.start (cfg : Config) (key : Bytes) (c : Call) (cols : Columns) (calls : ℕ)
    (l : Local) : Clients :=
  Shared.start (fun i => ((if i then c else .get key) : Call).prog cfg) cols calls l

/-- The two calls after the turns of a schedule. -/
def Clients.after (env : Env) (ts : List Bool) (m : Clients) : Option Clients :=
  m.run env.fails (ProcOp.handle env) ts

/-- How far a run has come on its way to a stale entry. -/
inductive Watch
  /-- The `get` has nothing in hand, and what it may have put into the cache is not stale. -/
  | clean
  /-- The `get` has read the key, and the entry has not been changed since. -/
  | loaded
  /-- The `get` has read the key, and the writing call has changed the entry since. -/
  | passed
  /-- The `get` has then filled the cache, and the writing call has not changed the entry since. -/
  | stale
  deriving DecidableEq

/-- The writing call changes the entry. -/
def Watch.updated : Watch → Watch
  | .loaded => .passed
  | .stale => .clean
  | w => w

/-- The `get` fills the cache. -/
def Watch.filled : Watch → Watch
  | .loaded => .clean
  | .passed => .stale
  | w => w

/-- What a call of one of the threads means for the key `k`. -/
def Watch.next (k : Bytes) (w : Watch) : Bool × DbOp → Watch
  | (false, .store (.read .data k')) => if k' = k then .loaded else w
  | (false, .own (.cachePut k' _)) => if k' = k then w.filled else w
  | (true, .own (.cachePut k' _)) => if k' = k then w.updated else w
  | (true, .own (.cacheErase k')) => if k' = k then w.updated else w
  | _ => w

/-- How far the run has come for the key `k`. -/
def Clients.watch (k : Bytes) (m : Clients) : Watch := m.trace.foldl (Watch.next k) .clean

namespace Clients

/-! ### The `get`, step by step -/

section

variable (cfg : Config) (ks : Bytes)

/-- Fill the cache and return. -/
def filling (value : Bytes) : DbProg Answer := do
  cachePut ks value
  return .value (some value)

/-- Decrypt what the database has answered. -/
def decrypting : Reply Bytes → DbProg Answer
  | .ok value => do
    if !(← acquireEncrypter) then return .value none
    filling ks (cfg.cipher.decrypt value)
  | .notFound => return .value none
  | .error => return .value none

/-- Give the lock back. -/
def unlocking (r : Reply Bytes) : DbProg Answer := do
  unlock
  decrypting cfg ks r

/-- Look the key up in the database. -/
def reading : DbProg Answer := do
  let r ← dbGet .data ks
  unlocking cfg ks r

/-- Take the shared lock. -/
def locking : DbProg Answer := do
  lock false
  reading cfg ks

/-- Look the key up in the cache. -/
def finding : DbProg Answer := do
  match ← cacheFind ks with
  | some v => return .value (some v)
  | none => locking cfg ks

end

section

variable {cfg : Config} {k : Bytes}

theorem get_prog (hen : cfg.enableCache = true) (hmx : cfg.useMutex = true) {key : Bytes}
    (hk : key ≠ []) : (Call.get key).prog cfg = finding cfg (getKey key) := by
  have hk' : key.isEmpty = false := by simpa using hk
  simp only [Call.prog, Database.get, hk', findValue, hen, withMutex, ifMutex, hmx, putValue,
    Bool.false_eq_true, if_false, if_true, map_bind, finding]
  refine bind_congr fun r => ?_
  cases r with
  | some v => rfl
  | none =>
    simp only [map_bind, bind_assoc, pure_bind]
    refine bind_congr fun _ => bind_congr fun r => bind_congr fun _ => ?_
    cases r with
    | ok value =>
      simp only [map_bind]
      refine bind_congr fun b => ?_
      cases b <;> rfl
    | notFound => rfl
    | error => rfl

/-- The rest of a section under the exclusive lock. -/
def closing (body : DbProg Bool) : DbProg Answer := do
  let b ← body
  unlock
  return .bool b

/-- Where the writing call is; `entry` is the entry of the key as it has left it, if it has changed
it. -/
inductive Writer (cfg : Config) (k : Bytes) (cols : Columns) (m : Clients)
    (entry : Option (Option Bytes)) : Prop
  /-- Before its section. -/
  | before (body : DbProg Bool) (hprog : (m.thread true).prog = lock true >>= fun _ => closing body)
      (hbody : ∀ s, Ends k (fun b s' => b = true → s'.Agrees cfg) body s)
      (hholds : (m.thread true).holds = none) (hc : m.committed.get .data k = cols.get .data k)
      (he : entry = none)
  /-- Inside its section. -/
  | inside (body : DbProg Bool) (hprog : (m.thread true).prog = closing body)
      (hbody : Ends k (fun b s' => b = true → s'.Agrees cfg) body
        (.ofDb k ((m.thread true).db m.committed m.calls) entry))
      (hholds : (m.thread true).holds = some true)
  /-- It has succeeded, and has left the committed value in the cache. -/
  | after (hprog : (m.thread true).prog = .ret (.bool true))
      (he : entry = some (m.committed.value cfg k))

/-- What the `get` has read: the value before the writing call, which has or has not changed the
entry since, or the value after it. -/
inductive Loaded (cfg : Config) (k : Bytes) (cols : Columns) (m : Clients)
    (entry : Option (Option Bytes)) (r : Reply Bytes) : Prop
  /-- The value before the writing call, which has not changed the entry yet. -/
  | old (hw : m.watch k = .loaded) (he : entry = none)
      (hr : ∀ value, r = .ok value → cols.get .data k = some value)
  /-- The value before the writing call, which has changed the entry since. -/
  | overtaken (hw : m.watch k = .passed)
      (hr : ∀ value, r = .ok value → cols.get .data k = some value)
  /-- The value after the writing call. -/
  | new (hw : m.watch k = .loaded) (hret : (m.thread true).prog = .ret (.bool true))
      (he : entry = some (m.committed.value cfg k))
      (hr : ∀ value, r = .ok value → m.committed.get .data k = some value)

/-- Where the `get` is. -/
inductive Reader (cfg : Config) (k : Bytes) (cols : Columns) (m : Clients)
    (entry : Option (Option Bytes)) : Prop
  /-- Before its section. -/
  | before (hprog : (m.thread false).prog = finding cfg k ∨ (m.thread false).prog = locking cfg k)
      (hw : m.watch k = .clean)
  /-- Under the shared lock, before the lookup. -/
  | inside (hprog : (m.thread false).prog = reading cfg k) (hholds : (m.thread false).holds ≠ none)
      (hw : m.watch k = .clean)
  /-- It has read the key. -/
  | loaded (r : Reply Bytes)
      (hprog : (m.thread false).prog = unlocking cfg k r ∨
        (m.thread false).prog = decrypting cfg k r ∨
        ∃ value, r = .ok value ∧ (m.thread false).prog = filling k (cfg.cipher.decrypt value))
      (hr : Loaded cfg k cols m entry r)
  /-- It has returned. -/
  | returned (a : Answer) (hprog : (m.thread false).prog = .ret a)

/-- The invariant of a run from the columns `cols`. -/
structure Going (cfg : Config) (k : Bytes) (cols : Columns) (m : Clients)
    (entry : Option (Option Bytes)) : Prop where
  writer : Writer cfg k cols m entry
  reader : Reader cfg k cols m entry
  excl : (m.thread false).holds ≠ none → (m.thread true).holds ≠ some true
  fresh : m.watch k ≠ .stale → entry = none ∨ entry = some m.common.valueCache[k]?
  stale : m.watch k = .stale → ∃ v, m.common.valueCache[k]? = some v ∧ cols.value cfg k = some v

variable {cols : Columns} {env : Env} {m m' : Clients} {entry entry' : Option (Option Bytes)}

theorem watch_afterOwn (i : Bool) (x : ProcOp) (cont : x.Res → DbProg Answer) :
    Clients.watch k (m.afterOwn (ProcOp.handle env) i x cont) =
      Watch.next k (m.watch k) (i, .own x) := by
  simp [Clients.watch, Shared.afterOwn]

theorem watch_afterStore (i : Bool) (o : TxnOp Bytes Column.Value)
    (cont : o.Res → DbProg Answer) :
    Clients.watch k (m.afterStore env.fails i o cont) =
      Watch.next k (m.watch k) (i, .store o) := by
  simp [Clients.watch, Shared.afterStore]

/-! ### A step of the writing call -/

/-- A step of the writing call changes the entry, or means nothing for the key. -/
def Writes (k : Bytes) (m m' : Clients) (entry entry' : Option (Option Bytes)) : Prop :=
  (m'.watch k = m.watch k ∧ entry' = entry ∧
      m'.common.valueCache[k]? = m.common.valueCache[k]?) ∨
    (m'.watch k = (m.watch k).updated ∧ entry' = some m'.common.valueCache[k]?)

theorem Reader.writes (h : Reader cfg k cols m entry) (hw : Writes k m m' entry entry')
    (hthread : m'.thread false = m.thread false)
    (hbusy : (m.thread true).prog ≠ .ret (.bool true)) : Reader cfg k cols m' entry' := by
  have hclean (hc : m.watch k = .clean) : m'.watch k = .clean := by
    rcases hw with ⟨hw, -⟩ | ⟨hw, -⟩
    · rw [hw, hc]
    · rw [hw, hc]
      rfl
  cases h with
  | before hprog hc => exact .before (by rwa [hthread]) (hclean hc)
  | inside hprog hh hc => exact .inside (by rwa [hthread]) (by rwa [hthread]) (hclean hc)
  | returned a hprog => exact .returned a (by rwa [hthread])
  | loaded r hprog hr =>
    refine .loaded r (by rwa [hthread]) ?_
    cases hr with
    | old hl he hr =>
      rcases hw with ⟨hw, he', -⟩ | ⟨hw, -⟩
      · exact .old (hw.trans hl) (he'.trans he) hr
      · exact .overtaken (by rw [hw, hl]; rfl) hr
    | overtaken hp hr =>
      refine .overtaken ?_ hr
      rcases hw with ⟨hw, -⟩ | ⟨hw, -⟩
      · rw [hw, hp]
      · rw [hw, hp]
        rfl
    | new hl hret he hr => exact absurd hret hbusy

theorem Going.writes (h : Going cfg k cols m entry) (hw : Writes k m m' entry entry')
    (hwriter : Writer cfg k cols m' entry') (hthread : m'.thread false = m.thread false)
    (hbusy : (m.thread true).prog ≠ .ret (.bool true))
    (hexcl : (m.thread false).holds ≠ none → (m'.thread true).holds ≠ some true) :
    Going cfg k cols m' entry' where
  writer := hwriter
  reader := h.reader.writes hw hthread hbusy
  excl := by rwa [hthread]
  fresh hs := by
    rcases hw with ⟨hw, he, hc⟩ | ⟨-, he⟩
    · rw [he, hc]
      exact h.fresh (hw ▸ hs)
    · exact .inr he
  stale hs := by
    rcases hw with ⟨hw, -, hc⟩ | ⟨hw, -⟩
    · rw [hc]
      exact h.stale (hw ▸ hs)
    · rw [hw] at hs
      cases hm : m.watch k <;> simp [hm, Watch.updated] at hs

theorem writes_own (x : ProcOp) (r : x.Res) (cont : x.Res → DbProg Answer) (s : KeyView) :
    Writes k m (m.afterOwn (ProcOp.handle env) true x cont) s.entry
      (KeyView.next k (.own x) r s).entry := by
  have hw : watch k (m.afterOwn (ProcOp.handle env) true x cont) =
      Watch.next k (m.watch k) (true, .own x) := watch_afterOwn _ _ _
  cases x with
  | cachePut k' v =>
    by_cases hk : k' = k
    · exact .inr ⟨by simpa [Watch.next, hk] using hw,
        by simp [KeyView.next, hk, Shared.afterOwn, ProcOp.handle]⟩
    · exact .inl ⟨by simpa [Watch.next, hk] using hw, by simp [KeyView.next, hk],
        by simp [Shared.afterOwn, ProcOp.handle, ExtTreeMap.getElem?_insert, hk]⟩
  | cacheErase k' =>
    by_cases hk : k' = k
    · exact .inr ⟨by simpa [Watch.next, hk] using hw,
        by simp [KeyView.next, hk, Shared.afterOwn, ProcOp.handle]⟩
    · exact .inl ⟨by simpa [Watch.next, hk] using hw, by simp [KeyView.next, hk],
        by simp [Shared.afterOwn, ProcOp.handle, ExtTreeMap.getElem?_erase, hk]⟩
  | _ => exact .inl ⟨hw, rfl, rfl⟩

theorem writes_store (o : TxnOp Bytes Column.Value) (cont : o.Res → DbProg Answer) :
    Writes k m (m.afterStore env.fails true o cont) entry entry :=
  .inl ⟨watch_afterStore true o cont, rfl, rfl⟩

/-- The writing call has returned without success. -/
def Failed (m : Clients) : Prop := ∃ a, (m.thread true).prog = .ret a ∧ a ≠ .bool true

theorem Going.step_true (h : Going cfg k cols m entry)
    (hs : m.step env.fails (ProcOp.handle env) true = some m') :
    Failed m' ∨ ∃ entry', Going cfg k cols m' entry' := by
  have hbusy (a : Answer) : (m.thread true).prog ≠ .ret a := fun hr => by
    simp [Shared.step_of_ret hr] at hs
  cases h.writer with
  | before body hprog hbody hholds hc he =>
    obtain ⟨hadm, rfl⟩ := Shared.step_store hprog hs
    have hfree : (m.thread false).holds = none := by
      cases hh : (m.thread false).holds with
      | none => rfl
      | some e => simp [Thread.admits, hh] at hadm
    exact .inr ⟨entry, h.writes (writes_store _ _) (.inside body rfl (hbody _) rfl) rfl (hbusy _)
      (absurd hfree)⟩
  | inside body hprog hbody hholds =>
    cases body with
    | ret b =>
      obtain ⟨-, rfl⟩ := Shared.step_store hprog hs
      cases b with
      | false => exact .inl ⟨_, rfl, by simp⟩
      | true =>
        exact .inr ⟨entry, h.writes (writes_store _ _) (.after rfl (hbody rfl)) rfl (hbusy _)
          fun _ => Option.some_ne_none _ ∘ Eq.symm⟩
    | call e cont =>
      obtain ⟨hin, hbody⟩ := hbody
      cases e with
      | own x =>
        obtain rfl := Shared.step_own hprog hs
        have hb := hbody (ProcOp.handle env x m.common).1
        rw [← KeyView.ofDb_own] at hb
        exact .inr ⟨_, h.writes (writes_own x _ _ _) (.inside _ rfl hb hholds) rfl (hbusy _) h.excl⟩
      | store o =>
        obtain ⟨-, rfl⟩ := Shared.step_store hprog hs
        have hb := hbody (o.handle env.fails ((m.thread true).db m.committed m.calls)).1
        rw [← KeyView.ofDb_handle] at hb
        have hh : o.holds (m.thread true).holds = some true := by
          rw [hholds]
          cases o <;> first | exact hin.elim | rfl
        exact .inr ⟨entry, h.writes (writes_store _ _) (.inside _ rfl hb hh) rfl (hbusy _)
          fun hf => absurd hholds (h.excl hf)⟩
  | after hprog he => exact absurd hprog (hbusy _)

/-! ### A step of the `get` -/

theorem Writer.reads (h : Writer cfg k cols m entry) (hthread : m'.thread true = m.thread true)
    (hc : m'.committed = m.committed) : Writer cfg k cols m' entry := by
  cases h with
  | before body hprog hbody hholds hc' he =>
    exact .before body (by rwa [hthread]) hbody (by rwa [hthread]) (by rwa [hc]) he
  | inside body hprog hbody hholds =>
    refine .inside body (by rwa [hthread]) ?_ (by rwa [hthread])
    rw [hthread, hc]
    exact hbody
  | after hprog he => exact .after (by rwa [hthread]) (by rwa [hc])

theorem Going.reads (h : Going cfg k cols m entry) (hthread : m'.thread true = m.thread true)
    (hc : m'.committed = m.committed) (hcache : m'.common.valueCache = m.common.valueCache)
    (hw : m'.watch k = .stale ↔ m.watch k = .stale) (hreader : Reader cfg k cols m' entry)
    (hexcl : (m'.thread false).holds ≠ none → (m.thread true).holds ≠ some true) :
    Going cfg k cols m' entry where
  writer := h.writer.reads hthread hc
  reader := hreader
  excl := by rwa [hthread]
  fresh hs := by
    rw [hcache]
    exact h.fresh (mt hw.2 hs)
  stale hs := by
    rw [hcache]
    exact h.stale (hw.1 hs)

theorem Loaded.reads {r : Reply Bytes} (h : Loaded cfg k cols m entry r)
    (hthread : m'.thread true = m.thread true) (hc : m'.committed = m.committed)
    (hw : m'.watch k = m.watch k) : Loaded cfg k cols m' entry r := by
  cases h with
  | old hl he hr => exact .old (hw.trans hl) he hr
  | overtaken hp hr => exact .overtaken (hw.trans hp) hr
  | new hl hret he hr => exact .new (hw.trans hl) (by rwa [hthread]) (by rwa [hc]) (by rwa [hc])

/-- What the `get` reads under the shared lock: the writing call is not inside its section. -/
theorem Going.read (h : Going cfg k cols m entry) (hholds : (m.thread false).holds ≠ none)
    (cont : Reply Bytes → DbProg Answer) :
    Loaded cfg k cols (m.afterStore env.fails false (.read .data k) cont) entry
      (TxnOp.handle env.fails (.read Column.data k)
        ((m.thread false).db m.committed m.calls)).1 := by
  have hw : Clients.watch k (m.afterStore env.fails false (.read .data k) cont) = .loaded := by
    simp [watch_afterStore, Watch.next]
  have hr (value : Bytes) (hv : (TxnOp.handle env.fails (.read Column.data k)
      ((m.thread false).db m.committed m.calls)).1 = .ok value) :
      m.committed.get .data k = some value := by
    cases hf : env.fails m.calls .lookup with
    | true => simp [TxnOp.handle, Thread.db, hf] at hv
    | false =>
      cases hg : m.committed.get .data k with
      | none => simp [TxnOp.handle, Thread.db, hf, hg] at hv
      | some v => simpa [TxnOp.handle, Thread.db, hf, hg] using hv
  cases h.writer with
  | before body hprog hbody hh hc he => exact .old hw he fun v hv => hc ▸ hr v hv
  | inside body hprog hbody hh => exact absurd hh (h.excl hholds)
  | after hprog he => exact .new hw hprog he hr

theorem Going.fill (h : Going cfg k cols m entry) {value : Bytes}
    (hr : Loaded cfg k cols m entry (.ok value))
    (cont : Unit → DbProg Answer) (a : Answer) (hcont : cont () = .ret a) :
    Going cfg k cols (m.afterOwn (ProcOp.handle env) false
      (.cachePut k (cfg.cipher.decrypt value)) cont) entry := by
  have hw : Clients.watch k (m.afterOwn (ProcOp.handle env) false
      (.cachePut k (cfg.cipher.decrypt value)) cont) = (m.watch k).filled := by
    simp [watch_afterOwn, Watch.next]
  have hcache : (m.afterOwn (ProcOp.handle env) false (.cachePut k (cfg.cipher.decrypt value))
      cont).common.valueCache[k]? = some (cfg.cipher.decrypt value) := by
    simp [Shared.afterOwn, ProcOp.handle]
  have hval {st : Columns} (hst : st.get .data k = some value) :
      st.value cfg k = some (cfg.cipher.decrypt value) := by
    simp [Store.value, hst]
  refine ⟨h.writer.reads rfl rfl, .returned a hcont, h.excl, fun hs => ?_, fun hs => ?_⟩
  · cases hr with
    | old hl he hr => exact .inl he
    | overtaken hp hr =>
      rw [hw, hp] at hs
      exact absurd rfl hs
    | new hl hret he hr => exact .inr (by rw [hcache, he, hval (hr _ rfl)])
  · cases hr with
    | old hl he hr =>
      rw [hw, hl] at hs
      cases hs
    | overtaken hp hr => exact ⟨_, hcache, hval (hr _ rfl)⟩
    | new hl hret he hr =>
      rw [hw, hl] at hs
      cases hs

theorem Going.step_false (h : Going cfg k cols m entry)
    (hs : m.step env.fails (ProcOp.handle env) false = some m') : Going cfg k cols m' entry := by
  cases h.reader with
  | before hprog hclean =>
    rcases hprog with hprog | hprog
    · obtain rfl := Shared.step_own hprog hs
      refine h.reads rfl rfl rfl (by rw [watch_afterOwn]; rfl) ?_ h.excl
      cases hf : m.common.valueCache[k]? with
      | some v => exact .returned (.value (some v)) (by simp [ProcOp.handle, hf]; rfl)
      | none =>
        exact .before (.inr (by simp [ProcOp.handle, hf]; rfl))
          (by rw [watch_afterOwn, hclean]; rfl)
    · obtain ⟨hadm, rfl⟩ := Shared.step_store hprog hs
      refine h.reads rfl rfl rfl (by rw [watch_afterStore]; rfl)
        (.inside rfl (Option.some_ne_none _) (by rw [watch_afterStore, hclean]; rfl)) fun _ hh => ?_
      simp [Thread.admits, hh] at hadm
  | inside hprog hholds hclean =>
    obtain ⟨-, rfl⟩ := Shared.step_store hprog hs
    have hr : Loaded cfg k cols (m.afterStore env.fails false (.read .data k)
        fun r => unlocking cfg k r) entry _ := h.read hholds _
    refine h.reads rfl rfl rfl ?_ (.loaded _ (.inl rfl) hr) h.excl
    rw [watch_afterStore, hclean]
    simp [Watch.next]
  | loaded r hprog hr =>
    rcases hprog with hprog | hprog | ⟨value, rfl, hprog⟩
    · obtain ⟨-, rfl⟩ := Shared.step_store hprog hs
      exact h.reads rfl rfl rfl (by rw [watch_afterStore]; rfl)
        (.loaded r (.inr (.inl rfl)) (hr.reads rfl rfl (watch_afterStore _ _ _))) (absurd rfl)
    · cases r with
      | ok value =>
        obtain rfl := Shared.step_own hprog hs
        refine h.reads rfl rfl rfl (by rw [watch_afterOwn]; rfl) ?_ h.excl
        cases hb : env.starved m.common.acquires with
        | true => exact .returned (.value none) (by simp [ProcOp.handle, hb]; rfl)
        | false =>
          exact .loaded _ (.inr (.inr ⟨value, rfl, by simp [ProcOp.handle, hb]; rfl⟩))
            (hr.reads rfl rfl (watch_afterOwn _ _ _))
      | notFound => simp [Shared.step_of_ret hprog] at hs
      | error => simp [Shared.step_of_ret hprog] at hs
    · obtain rfl := Shared.step_own hprog hs
      exact h.fill hr _ _ rfl
  | returned a hprog => simp [Shared.step_of_ret hprog] at hs

/-! ### Whole runs -/

theorem Going.start (hen : cfg.enableCache = true) (hmx : cfg.useMutex = true)
    (hlaw : cfg.cipher.Lawful) {key : Bytes} {c : Call} (hc : c.Names (getKey key)) (cols : Columns)
    (calls : ℕ) (l : Local) :
    Failed (.start cfg key c cols calls l) ∨
      ∃ entry, Going cfg (getKey key) cols (.start cfg key c cols calls l) entry := by
  rcases Call.prog_of_names hen hlaw hc with hp | ⟨body, hp, hbody⟩
  · exact .inl ⟨_, hp, by simp⟩
  · have hprog : c.prog cfg = lock true >>= fun _ => closing body := by
      simp only [hp, withMutex, ifMutex, hmx, if_true, map_bind]
      rfl
    have hreader : Reader cfg (getKey key) cols (.start cfg key c cols calls l) none := by
      by_cases hk : key = []
      · subst hk
        exact .returned (.value none) rfl
      · exact .before (.inl (get_prog hen hmx hk)) rfl
    exact .inr ⟨none, .before body hprog hbody rfl rfl rfl, hreader, absurd rfl,
      fun _ => .inl rfl, fun hs => by cases hs⟩

theorem going_step {i : Bool} (h : Failed m ∨ ∃ entry, Going cfg k cols m entry)
    (hs : m.step env.fails (ProcOp.handle env) i = some m') :
    Failed m' ∨ ∃ entry, Going cfg k cols m' entry := by
  rcases h with ⟨a, ha, hne⟩ | ⟨entry, h⟩
  · cases i with
    | true => simp [Shared.step_of_ret ha] at hs
    | false => exact .inl ⟨a, Shared.step_other hs ▸ ha, hne⟩
  · cases i with
    | true => exact h.step_true hs
    | false => exact .inr ⟨entry, h.step_false hs⟩

end

end Clients

/-- **A `get` beside a writing call of its key.**  In every environment and along every schedule,
once the writing call has succeeded: if the run is not stale, then the value cache has no entry for
the key or its committed value; if it is stale, then the entry is the value that the key had before
the writing call. -/
theorem fill_beside_write (env : Env) (cfg : Config) (hen : cfg.enableCache = true)
    (hmx : cfg.useMutex = true) (hlaw : cfg.cipher.Lawful) (key : Bytes) (c : Call)
    (hc : c.Names (getKey key)) (cols : Columns) (calls : ℕ) (l : Local) (ts : List Bool)
    (m : Clients) (hrun : Clients.after env ts (.start cfg key c cols calls l) = some m)
    (hok : (m.thread true).returned = some (.bool true)) :
    (m.watch (getKey key) ≠ .stale → ∀ v, m.common.valueCache[getKey key]? = some v →
      m.committed.value cfg (getKey key) = some v) ∧
    (m.watch (getKey key) = .stale → ∃ v, m.common.valueCache[getKey key]? = some v ∧
      cols.value cfg (getKey key) = some v) := by
  have hret := Thread.returned_eq_some.1 hok
  have h : Clients.Failed m ∨ ∃ entry, Clients.Going cfg (getKey key) cols m entry :=
    Shared.run_invariant (fun i m m' => Clients.going_step)
      (Clients.Going.start hen hmx hlaw hc cols calls l) hrun
  rcases h with ⟨a, ha, hne⟩ | ⟨entry, h⟩
  · rw [hret] at ha
    cases ha
    exact absurd rfl hne
  · have he : entry = some (m.committed.value cfg (getKey key)) := by
      cases h.writer with
      | before body hprog => rw [hret] at hprog; cases hprog
      | inside body hprog hbody =>
        rw [hret] at hprog
        cases body <;> cases hprog
      | after hprog he => exact he
    refine ⟨fun hs v hv => ?_, h.stale⟩
    rcases h.fresh hs with hn | hn
    · simp [he] at hn
    · rw [he, hv, Option.some.injEq] at hn
      exact hn

/-! ### Runs along a few schedules -/

/-- Columns in which `/a` has the value `[1]`. -/
def oneKey : Columns :=
  (runCalls (.reliable fun _ => 0) (.plain true) (Db.init 1) [.set ⟨[97], [1], {}⟩]).columns

/-- The `get` makes `a` calls, then the writing call makes `n`, then the `get` makes `b`. -/
def getWriteGet (a n b : ℕ) : List Bool :=
  .replicate a false ++ .replicate n true ++ .replicate b false

/-- What the runs below are looked at for: what the two calls have returned, the entry of `/a` in
the value cache, and its committed value. -/
def Clients.observe (m : Clients) : Option Answer × Option Answer × Option Bytes × Option Bytes :=
  ((m.thread false).returned, (m.thread true).returned, m.common.valueCache[([47, 97] : Bytes)]?,
    m.committed.value (.plain true) [47, 97])

/-- The `get` fills the cache before the `set` begins: the entry ends as the value that is set. -/
theorem fill_before_set :
    let c : Call := .set ⟨[97], [2], {}⟩
    ∃ m, Clients.after (.reliable fun _ => 0) (getWriteGet 6 9 0)
        (.start (.plain true) [97] c oneKey 0 (Db.init 1).2) = some m ∧
      m.observe = (some (.value (some [1])), some (.bool true), some [2], some [2]) ∧
      ∀ v, m.common.valueCache[getKey [97]]? = some v →
        m.committed.value (.plain true) (getKey [97]) = some v := by
  intro c
  have hobs : (Clients.after (.reliable fun _ => 0) (getWriteGet 6 9 0)
      (.start (.plain true) [97] c oneKey 0 (Db.init 1).2)).map Clients.observe =
        some (some (.value (some [1])), some (.bool true), some [2], some [2]) := by
    decide +kernel
  have hw : (Clients.after (.reliable fun _ => 0) (getWriteGet 6 9 0)
      (.start (.plain true) [97] c oneKey 0 (Db.init 1).2)).map (Clients.watch (getKey [97])) =
        some .clean := by
    decide +kernel
  obtain ⟨m, hrun, hm⟩ := Option.map_eq_some_iff.1 hobs
  have hok : (m.thread true).returned = some (.bool true) := congrArg (fun o => o.2.1) hm
  have hn : c.Names (getKey [97]) := fun h => h rfl
  refine ⟨m, hrun, hm, (fill_beside_write _ _ rfl rfl (Config.plain_lawful _) _ c hn _ _ _ _ m hrun
    hok).1 ?_⟩
  rw [hrun, Option.map_some, Option.some.injEq] at hw
  simp [hw]

/-- The `get` of `/a` reads `[1]` and gives the lock back; then the call `c` is made, in `n` steps;
then the `get` fills the cache. -/
def lateFill (c : Call) (n : ℕ) : Option Clients :=
  Clients.after (.reliable fun _ => 0) (getWriteGet 4 n 2)
    (.start (.plain true) [97] c oneKey 0 (Db.init 1).2)

/-- **A late fill leaves a stale entry.**  The `get` of `/a` reads `[1]`; then `/a` is set to `[2]`,
removed, or moved to `/b`; then the `get` fills the cache with `[1]`.  Both calls have returned, and
the cache answers `[1]` for a key that has another value or none. -/
theorem stale_fill :
    (lateFill (.set ⟨[97], [2], {}⟩) 9).map Clients.observe =
        some (some (.value (some [1])), some (.bool true), some [1], some [2]) ∧
      (lateFill (.remove [97]) 12).map Clients.observe =
        some (some (.value (some [1])), some (.bool true), some [1], none) ∧
      (lateFill (.move ⟨[97], [98], {}⟩) 21).map Clients.observe =
        some (some (.value (some [1])), some (.bool true), some [1], none) := by
  refine ⟨?_, ?_, ?_⟩ <;> decide +kernel

end ConfigDb
