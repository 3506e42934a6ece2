import ConfigDb.Storage.Machine

/-!
# What reaches the disk

Results that hold in *every* environment: any database call may fail at any time, locks may time
out and the encrypter pool may be exhausted.

* A writing call commits at most once, as its last step, and only if its work succeeded; so a call
  that returns `false` leaves the columns alone (`Call.next_columns_of_false`).
* Whatever a call commits it has itself written (`Call.commits_own_writes`), whatever the pooled
  transaction objects still hold from earlier calls.
-/

namespace ConfigDb

open Database

/-! ### Programs that do not commit -/

/-- A call that the work inside a transaction makes: it neither begins nor ends the transaction, and
does not look into the value cache. -/
def Op.Inside : DbOp → Prop
  | .store (.lock _) => False
  | .store .unlock => False
  | .store .begin => False
  | .store .commit => False
  | .store .release => False
  | .own (.cacheFind _) => False
  | _ => True

/-- A call that only reads: it is not one of those that begin, write or end a transaction. -/
def Op.Reads : DbOp → Prop
  | .store (.put _ _ _) => False
  | .store (.delete _ _) => False
  | .store .begin => False
  | .store .commit => False
  | .store .rollback => False
  | .store .release => False
  | _ => True

/-- A call inside a transaction that neither begins nor ends it, nor sets a time in the expiry
columns, nor takes an entry of the `expiring` column out. -/
def Op.Untimed : DbOp → Prop
  | .store (.put .expiration _ _) => False
  | .store (.put .expiring _ _) => False
  | .store (.delete .expiring _) => False
  | .store .begin => False
  | .store .commit => False
  | .store .rollback => False
  | .store .release => False
  | _ => True

theorem Op.Reads.untimed : ∀ e : DbOp, e.Reads → e.Untimed
  | .store o => by cases o <;> simp [Op.Reads, Op.Untimed]
  | .own _ => fun _ => trivial

/-- A call inside a transaction that looks something up, or writes a tree node or the marker of a
cache entry. -/
def Op.Aside : DbOp → Prop
  | .store (.get _ _) => True
  | .store (.read _ _) => True
  | .store (.put .forrest _ _) => True
  | .store (.put .cache _ _) => True
  | .store (.delete .forrest _) => True
  | .store (.delete .cache _) => True
  | .own .now => True
  | _ => False

theorem Op.Aside.untimed : ∀ e : DbOp, e.Aside → e.Untimed
  | .store o => by
    cases o with
    | put c k v => cases c <;> simp [Op.Aside, Op.Untimed]
    | delete c k => cases c <;> simp [Op.Aside, Op.Untimed]
    | _ => simp [Op.Aside, Op.Untimed]
  | .own _ => fun _ => trivial

theorem Op.Aside.inside : ∀ e : DbOp, e.Aside → e.Inside
  | .store o => by cases o <;> simp [Op.Aside, Op.Inside]
  | .own x => by cases x <;> simp [Op.Aside, Op.Inside]

section

variable {P : DbOp → Prop} {α : Type}

theorem only_ite {c : Prop} [Decidable c] {p q : DbProg α} (hp : p.Only P) (hq : q.Only P) :
    (if c then p else q).Only P := by
  split
  · exact hp
  · exact hq

theorem only_callStore {o : TxnOp Bytes Column.Value} (h : P (.store o)) :
    (callStore o).Only P := ⟨h, fun _ => trivial⟩

theorem only_callOwn {x : ProcOp} (h : P (.own x)) : (callOwn x).Only P := ⟨h, fun _ => trivial⟩

variable {A : (e : DbOp) → Op.Res ProcOp.Res e → Prop}

theorem within_ite {c : Prop} [Decidable c] {p q : DbProg α} (hp : p.Within A P)
    (hq : q.Within A P) : (if c then p else q).Within A P := by
  split
  · exact hp
  · exact hq

theorem within_callStore {o : TxnOp Bytes Column.Value} (h : P (.store o)) :
    (callStore o).Within A P := ⟨h, fun _ _ => trivial⟩

theorem within_callOwn {x : ProcOp} (h : P (.own x)) : (callOwn x).Within A P :=
  ⟨h, fun _ _ => trivial⟩

theorem within_map {β : Type} (f : α → β) {p : DbProg α} (hp : p.Within A P) :
    (f <$> p).Within A P := by
  rw [← bind_pure_comp]
  exact .bind hp fun _ => trivial

end

variable (cfg : Config)

/-! The work inside a transaction never commits, and most of it has nothing to do with expiry. -/

theorem addChild_aside (path child : Bytes) (node : Node) :
    (addChild path child node).Only Op.Aside :=
  only_ite trivial (only_callStore trivial)

theorem manageTreeLoop_aside (ts : List Tuple) : (manageTreeLoop ts).Only Op.Aside := by
  induction ts with
  | nil => trivial
  | cons t ts ih =>
    refine .bind (only_callStore trivial) fun r => ?_
    cases r with
    | ok node => exact .bind (addChild_aside _ _ _) fun _ => only_ite trivial ih
    | notFound => exact .bind (only_callStore trivial) fun _ => only_ite trivial ih
    | error => trivial

theorem removeChildNode_aside (path child : Bytes) (node : Node) :
    (removeChildNode path child node).Only Op.Aside :=
  only_ite (.bind (only_callStore trivial) fun _ => only_ite trivial trivial)
    (.bind (only_callStore trivial) fun _ => only_ite trivial trivial)

theorem removeChildLoop_aside (ts : List Tuple) : (removeChildLoop ts).Only Op.Aside := by
  induction ts with
  | nil => trivial
  | cons t ts ih =>
    refine .bind (only_callStore trivial) fun r => ?_
    cases r with
    | ok node =>
      refine .bind (removeChildNode_aside _ _ _) fun se => only_ite trivial (only_ite trivial ?_)
      refine .bind (only_callStore trivial) fun r => ?_
      cases r with
      | ok _ => trivial
      | notFound => exact ih
      | error => exact ih
    | notFound => trivial
    | error => trivial

theorem rollback_inside : rollback.Only Op.Inside := .bind (only_callStore trivial) fun _ => trivial

theorem refused_aside (opts : Options) (ks : Bytes) : (refused opts ks).Only Op.Aside := by
  refine only_ite trivial (.bind (only_callStore trivial) fun r => ?_)
  cases r <;> trivial

theorem enterKey_aside (ks : Bytes) (cache : Bool) : (enterKey ks cache).Only Op.Aside :=
  only_ite (only_callStore trivial) (manageTreeLoop_aside _)

theorem setExpiration_inside (ks : Bytes) (n : UInt32) :
    (setExpiration ks n).Only Op.Inside :=
  only_ite trivial (.bind (only_callOwn trivial) fun _ => .bind (only_callStore trivial) fun _ =>
    only_ite trivial (.bind (only_callOwn trivial) fun _ => only_callStore trivial))

theorem putValue_reads (ks value : Bytes) : (putValue cfg ks value).Only Op.Reads :=
  only_ite (only_callOwn trivial) trivial

theorem eraseValue_reads (ks : Bytes) : (eraseValue cfg ks).Only Op.Reads :=
  only_ite (only_callOwn trivial) trivial

theorem putValue_inside (ks value : Bytes) : (putValue cfg ks value).Only Op.Inside :=
  only_ite (only_callOwn trivial) trivial

theorem eraseValue_inside (ks : Bytes) : (eraseValue cfg ks).Only Op.Inside :=
  only_ite (only_callOwn trivial) trivial

theorem setTxn_inside (key value : Bytes) (opts : Options) :
    (setTxn cfg key value opts).Only Op.Inside :=
  .bind (only_callOwn trivial) fun _ => only_ite trivial <|
    .bind ((refused_aside _ _).mono Op.Aside.inside) fun _ => only_ite trivial <|
    .bind (only_callStore trivial) fun _ => only_ite (.bind rollback_inside fun _ => trivial) <|
    .bind ((enterKey_aside _ _).mono Op.Aside.inside) fun _ =>
    only_ite (.bind rollback_inside fun _ => trivial) <|
    .bind (setExpiration_inside _ _) fun _ => only_ite (.bind rollback_inside fun _ => trivial) <|
    .bind (putValue_inside _ _ _) fun _ => trivial

theorem removeEntry_aside (ks : Bytes) : (removeEntry ks).Only Op.Aside := by
  refine .bind (only_callStore trivial) fun r => ?_
  cases r with
  | ok _ => exact .bind (only_callStore trivial) fun _ => trivial
  | notFound => exact removeChildLoop_aside _
  | error => exact removeChildLoop_aside _

theorem removeTxn_inside (key : Bytes) (b : Bool) : (removeTxn cfg key b).Only Op.Inside := by
  have undo : (if b then rollback else return false : DbProg Bool).Only Op.Inside :=
    only_ite rollback_inside trivial
  simp only [removeTxn]
  exact .bind (only_callStore trivial) fun _ => only_ite undo <|
    .bind (only_callStore trivial) fun _ => only_ite undo <|
    .bind ((removeEntry_aside _).mono Op.Aside.inside) fun _ => only_ite undo <|
    .bind (eraseValue_inside _ _) fun _ => trivial

theorem parseTTL_only {P : DbOp → Prop} (h : P (.own .now)) (value : Bytes) :
    (parseTTL value).Only P := by
  unfold parseTTL
  split
  · trivial
  · exact .bind (only_callOwn h) fun _ => trivial

theorem moveExpiration_aside (opts : Options) (ks : Bytes) :
    (moveExpiration opts ks).Only Op.Aside := by
  refine only_ite trivial (.bind (only_callStore trivial) fun r => ?_)
  cases r with
  | ok nsv => exact parseTTL_only trivial nsv
  | notFound => trivial
  | error => trivial

theorem moveTxn_inside (key dest : Bytes) (opts : Options) :
    (moveTxn cfg key dest opts).Only Op.Inside := by
  refine .bind (only_callOwn trivial) fun _ => only_ite trivial <|
    .bind ((refused_aside _ _).mono Op.Aside.inside) fun _ => only_ite trivial <|
    .bind (only_callStore trivial) fun r => ?_
  cases r with
  | ok v =>
    exact .bind (only_callStore trivial) fun _ =>
      .bind ((moveExpiration_aside _ _).mono Op.Aside.inside) fun _ =>
      .bind (removeTxn_inside cfg _ _) fun _ => only_ite (.bind rollback_inside fun _ => trivial) <|
      .bind (setTxn_inside cfg _ _ _) fun _ =>
        only_ite (.bind rollback_inside fun _ => trivial) trivial
  | notFound => trivial
  | error => trivial

theorem forAll_inside {β : Type} {f : β → DbProg Bool} (hf : ∀ b, (f b).Only Op.Inside)
    (bs : List β) : (forAll f bs).Only Op.Inside := by
  induction bs with
  | nil => trivial
  | cons b bs ih => exact .bind (hf b) fun _ => only_ite trivial ih

theorem collect_reads (es : List (Bytes × Bytes)) : (collect es).Only Op.Reads := by
  induction es with
  | nil => trivial
  | cons e es ih =>
    refine .bind (only_callOwn trivial) fun b => ?_
    cases b with
    | true => trivial
    | false => exact .bind ih fun _ => trivial

theorem expireKey_inside (e : Bytes × Bytes) : (expireKey cfg e).Only Op.Inside := by
  refine .bind (removeTxn_inside cfg _ _) fun b => ?_
  cases b with
  | true => exact .bind (only_callStore trivial) fun _ => trivial
  | false => trivial

theorem sweep_inside (es : List (Bytes × Bytes)) : (sweep cfg es).Only Op.Inside := by
  induction es with
  | nil => trivial
  | cons e es ih =>
    refine .bind (expireKey_inside cfg e) fun _ => .bind (only_callOwn trivial) fun b => ?_
    cases b with
    | true => trivial
    | false => exact ih

/-! The reading calls never write. -/

theorem withMutex_reads {α : Type} {p : DbProg α} (b : Bool) (hp : p.Only Op.Reads) :
    (withMutex cfg b p).Only Op.Reads :=
  .bind (only_ite (only_callStore trivial) trivial) fun _ => .bind hp fun _ =>
    .bind (only_ite (only_callStore trivial) trivial) fun _ => trivial

theorem findValue_reads (ks : Bytes) : (findValue cfg ks).Only Op.Reads :=
  only_ite (only_callOwn trivial) trivial

theorem get_reads (key : Bytes) : (get cfg key).Only Op.Reads := by
  refine only_ite trivial (.bind (findValue_reads cfg _) fun r => ?_)
  cases r with
  | some v => trivial
  | none =>
    refine .bind (withMutex_reads cfg _ (only_callStore trivial)) fun r => ?_
    cases r with
    | ok v =>
      exact .bind (only_callOwn trivial) fun _ =>
        only_ite trivial (.bind (putValue_reads _ _ _) fun _ => trivial)
    | notFound => trivial
    | error => trivial

theorem ttl_reads (key : Bytes) : (ttl cfg key).Only Op.Reads := by
  refine withMutex_reads cfg _ (.bind (only_callStore trivial) fun r => ?_)
  cases r with
  | ok value => exact parseTTL_only trivial value
  | notFound => trivial
  | error => trivial

theorem list_reads (key : Bytes) : (list cfg key).Only Op.Reads := by
  refine only_ite trivial (withMutex_reads cfg _ (.bind (only_callStore trivial) fun r => ?_))
  cases r <;> trivial

theorem multiGet_reads (c : Column) (keys : List Bytes) : (multiGet c keys).Only Op.Reads := by
  induction keys with
  | nil => trivial
  | cons k keys ih => exact .bind (only_callStore trivial) fun _ => .bind ih fun _ => trivial

theorem findCached_reads (keys : List Bytes) : (findCached cfg keys).Only Op.Reads := by
  induction keys with
  | nil => trivial
  | cons k keys ih =>
    refine .bind (findValue_reads cfg k) fun r => ?_
    cases r <;> exact .bind ih fun _ => trivial

theorem decryptAll_reads (es : List (Bytes × Reply Bytes)) :
    (decryptAll cfg es).Only Op.Reads := by
  induction es with
  | nil => trivial
  | cons e es ih =>
    obtain ⟨k, r⟩ := e
    cases r with
    | ok v => exact .bind (putValue_reads cfg _ _) fun _ => .bind ih fun _ => trivial
    | notFound => exact .bind ih fun _ => trivial
    | error => exact .bind ih fun _ => trivial

theorem getBatch_reads (keys : List Bytes) : (getBatch cfg keys).Only Op.Reads :=
  .bind (only_callOwn trivial) fun _ => only_ite trivial <|
    .bind (findCached_reads cfg _) fun _ => only_ite trivial <|
    .bind (withMutex_reads cfg _ (multiGet_reads _ _)) fun _ =>
    .bind (decryptAll_reads cfg _) fun _ => trivial

theorem parseAll_reads (es : List (Bytes × Reply Bytes)) : (parseAll es).Only Op.Reads := by
  induction es with
  | nil => trivial
  | cons e es ih =>
    obtain ⟨k, r⟩ := e
    cases r with
    | ok v => exact .bind (parseTTL_only trivial v) fun _ => .bind ih fun _ => trivial
    | notFound => exact .bind ih fun _ => trivial
    | error => exact .bind ih fun _ => trivial

theorem ttlBatch_reads (keys : List Bytes) : (ttlBatch cfg keys).Only Op.Reads :=
  .bind (withMutex_reads cfg _ (multiGet_reads _ _)) fun _ => parseAll_reads _

theorem listBatch_reads (keys : List Bytes) : (listBatch cfg keys).Only Op.Reads :=
  .bind (withMutex_reads cfg _ (multiGet_reads _ _)) fun _ => trivial

theorem Only.map {P : DbOp → Prop} {α β : Type} {p : DbProg α} (f : α → β) (hp : p.Only P) :
    (f <$> p).Only P := by
  rw [← bind_pure_comp]
  exact .bind hp fun _ => trivial

/-- A call of a client that changes the store is refused, or is one transaction. -/
theorem Call.prog_of_mutates {c : Call} (hm : c.Mutates) : c.prog cfg = pure (.bool false) ∨
    ∃ work : DbProg Bool, work.Only Op.Inside ∧
      c.prog cfg = .bool <$> withMutex cfg true (withTxn work) := by
  cases c with
  | set d =>
    simp only [Call.prog, Database.set]
    split_ifs
    · exact .inl rfl
    · exact .inl rfl
    · exact .inr ⟨_, setTxn_inside cfg _ _ _, rfl⟩
  | remove key =>
    simp only [Call.prog, Database.remove]
    split_ifs
    · exact .inl rfl
    · exact .inr ⟨_, removeTxn_inside cfg _ _, rfl⟩
  | move d =>
    simp only [Call.prog, Database.move]
    split_ifs
    · exact .inl rfl
    · exact .inl rfl
    · exact .inr ⟨_, moveTxn_inside cfg _ _ _, rfl⟩
  | setBatch kvs => exact .inr ⟨_, forAll_inside (fun d => setTxn_inside cfg _ _ _) kvs, rfl⟩
  | removeBatch keys =>
    exact .inr ⟨_, forAll_inside (fun key => removeTxn_inside cfg _ _) keys, rfl⟩
  | moveBatch kvs => exact .inr ⟨_, forAll_inside (fun d => moveTxn_inside cfg _ _ _) kvs, rfl⟩
  | _ => exact hm.elim

/-- The shape of the calls: a call only reads, or is one transaction whose work never commits, or
is the expiry sweep. -/
theorem Call.prog_cases (c : Call) : (c.prog cfg).Only Op.Reads ∨
    (c.Mutates ∧ ∃ work : DbProg Bool, work.Only Op.Inside ∧
      c.prog cfg = .bool <$> withMutex cfg true (withTxn work)) ∨ c = .clearExpired := by
  have hmut (hm : c.Mutates) : (c.prog cfg).Only Op.Reads ∨ (c.Mutates ∧ ∃ work : DbProg Bool,
      work.Only Op.Inside ∧ c.prog cfg = .bool <$> withMutex cfg true (withTxn work)) ∨
      c = .clearExpired := by
    rcases c.prog_of_mutates cfg hm with hp | hw
    · rw [hp]
      exact .inl trivial
    · exact .inr (.inl ⟨hm, hw⟩)
  cases c with
  | get key => exact .inl (Only.map _ (get_reads cfg key))
  | ttl key => exact .inl (Only.map _ (ttl_reads cfg key))
  | list key => exact .inl (Only.map _ (list_reads cfg key))
  | getBatch keys => exact .inl (Only.map _ (getBatch_reads cfg keys))
  | ttlBatch keys => exact .inl (Only.map _ (ttlBatch_reads cfg keys))
  | listBatch keys => exact .inl (Only.map _ (listBatch_reads cfg keys))
  | clearExpired => exact .inr (.inr rfl)
  | _ => exact hmut trivial

/-! ### Runs in any environment -/

section

variable (env : Env) (s : Db) {α β : Type}

@[simp] theorem exec_pure (a : α) : exec env (pure a) s = (a, s) := rfl

@[simp] theorem exec_bind (p : DbProg α) (f : α → DbProg β) :
    exec env (p >>= f) s = exec env (f (exec env p s).1) (exec env p s).2 :=
  Prog.run_bind _ p f s

@[simp] theorem exec_map (p : DbProg α) (f : α → β) :
    exec env (f <$> p) s = (f (exec env p s).1, (exec env p s).2) :=
  Prog.run_map _ p f s

theorem exec_ite (c : Prop) [Decidable c] (p q : DbProg α) :
    exec env (if c then p else q) s = if c then exec env p s else exec env q s :=
  Prog.run_ite _ c p q s

@[simp] theorem exec_withMutex (b : Bool) (p : DbProg α) :
    exec env (withMutex cfg b p) s = exec env p s := by
  have hl : ∀ t : Db, exec env (ifMutex cfg (lock b)) t = ((), t) := fun t => by
    rw [ifMutex, exec_ite]
    split <;> rfl
  have hu : ∀ t : Db, exec env (ifMutex cfg unlock) t = ((), t) := fun t => by
    rw [ifMutex, exec_ite]
    split <;> rfl
  simp only [withMutex, exec_bind, hl, hu, exec_pure]

@[simp] theorem exec_dbGet (c : Column) (k : Bytes) :
    exec (α := no_index (Reply c.Value)) env (dbGet c k) s =
      (if env.fails s.1.calls .lookup then .error else .ofOption (s.columns.get c k),
        (s.1.tick, s.2)) := rfl

@[simp] theorem exec_txnGet (c : Column) (k : Bytes) :
    exec (α := no_index (Reply c.Value)) env (txnGet c k) s =
      (if env.fails s.1.calls .lookup then .error else .ofOption (s.1.view.get c k),
        (s.1.tick, s.2)) := rfl

/-- Answer a call in the environment `env`. -/
abbrev Env.handle (env : Env) : (e : DbOp) → Db → Op.Res ProcOp.Res e × Db :=
  Op.handle (TxnOp.handle env.fails) (ProcOp.handle env)

/-- What the accepted puts and deletes of a run have written, in order. -/
def writesOf (p : DbProg α) : List (Write Bytes Column.Value) :=
  Prog.log Op.accepted (Op.handle (TxnOp.handle env.fails) (ProcOp.handle env)) p s

variable {env s}

theorem txnPut_accepted {c : Column} {k : Bytes} {x : c.Value}
    (h : (exec env (txnPut c k x) s).1 = true) :
    (exec env (txnPut c k x) s).2.1.view = s.1.view.put c k x ∧
      (exec env (txnPut c k x) s).2.columns = s.columns ∧
      (exec env (txnPut c k x) s).2.2 = s.2 := by
  simp only [exec, txnPut, callStore, Prog.run_perform, Op.handle, TxnOp.handle] at h ⊢
  split_ifs at h ⊢
  exact ⟨by simp [TxnDb.view, TxnDb.tick, Store.apply], rfl, trivial⟩

theorem txnDelete_cases (env : Env) (c : Column) (k : Bytes) (s : Db) :
    (exec env (txnDelete c k) s).2.columns = s.columns ∧ (exec env (txnDelete c k) s).2.2 = s.2 ∧
      (((exec env (txnDelete c k) s).1 = true ∧
          (exec env (txnDelete c k) s).2.1.view = s.1.view.delete c k) ∨
        ((exec env (txnDelete c k) s).1 = false ∧
          (exec env (txnDelete c k) s).2.1.view = s.1.view)) := by
  simp only [exec, txnDelete, callStore, Prog.run_perform, Op.handle, TxnOp.handle]
  split
  · exact ⟨rfl, trivial, .inr ⟨rfl, rfl⟩⟩
  · exact ⟨rfl, trivial, .inl ⟨rfl, by simp [TxnDb.view, TxnDb.tick, Store.apply]⟩⟩

theorem exec_inside {p : DbProg α} (hp : p.Only Op.Inside) :
    (exec env p s).2.columns = s.columns ∧ (exec env p s).2.1.pool = s.1.pool := by
  refine hp.run_invariant (I := fun (t : Db) => t.columns = s.columns ∧ t.1.pool = s.1.pool)
    (fun e t he ht => ?_) ⟨rfl, rfl⟩
  cases e with
  | own x => exact ht
  | store o =>
    cases o with
    | put c k v =>
      simp only [Op.handle, TxnOp.handle]
      split <;> exact ht
    | delete c k =>
      simp only [Op.handle, TxnOp.handle]
      split <;> exact ht
    | rollback =>
      simp only [Op.handle, TxnOp.handle]
      split <;> exact ht
    | _ => first | exact he.elim | exact ht

/-- A run that only reads leaves the columns, the transaction in use and the pool alone. -/
theorem exec_reads {p : DbProg α} (hp : p.Only Op.Reads) :
    (exec env p s).2.columns = s.columns ∧ (exec env p s).2.1.pending = s.1.pending ∧
      (exec env p s).2.1.pool = s.1.pool := by
  refine hp.run_invariant (I := fun (t : Db) => t.columns = s.columns ∧
    t.1.pending = s.1.pending ∧ t.1.pool = s.1.pool) (fun e t he ht => ?_) ⟨rfl, rfl, rfl⟩
  cases e with
  | own x => exact ht
  | store o => cases o <;> first | exact he.elim | exact ht

theorem ifMutex_reads {p : DbProg Unit} (hp : p.Only Op.Reads) : (ifMutex cfg p).Only Op.Reads :=
  only_ite hp trivial

/-- **A transaction that does not succeed leaves the columns alone.** -/
theorem withTxn_columns_of_false {work : DbProg Bool} (hw : work.Only Op.Inside)
    (h : (exec env (withTxn work) s).1 = false) :
    (exec env (withTxn work) s).2.columns = s.columns := by
  have hb : (exec env beginTransaction s).2.columns = s.columns := rfl
  have hq : (exec env work (exec env beginTransaction s).2).2.columns = s.columns :=
    (exec_inside hw).1.trans hb
  simp only [withTxn, exec_bind, exec_pure] at h ⊢
  rw [← hq]
  generalize exec env work (exec env beginTransaction s).2 = r at h ⊢
  obtain ⟨saved, t⟩ := r
  cases saved with
  | false => rfl
  | true =>
    change (exec env txnCommit t).1 = false at h
    change (exec env txnCommit t).2.columns = t.columns
    simp only [exec, txnCommit, callStore, Prog.run_perform, Op.handle, TxnOp.handle] at h ⊢
    split_ifs at h ⊢
    rfl

theorem withMutex_withTxn_columns_of_false {work : DbProg Bool} (hw : work.Only Op.Inside)
    (b : Bool) (h : (exec env (withMutex cfg b (withTxn work)) s).1 = false) :
    (exec env (withMutex cfg b (withTxn work)) s).2.columns = s.columns := by
  rw [exec_withMutex] at h ⊢
  exact withTxn_columns_of_false hw h

theorem begin_commits_own_writes {γ : Type} {q : DbProg β} (hq : q.Only Op.Reads)
    (r : β → Unit → DbProg γ) : ∃ ws,
      ws.Sublist (writesOf env s (q >>= fun b => beginTransaction >>= r b)) ∧
      (exec env (q >>= fun b => beginTransaction >>= r b) s).2.columns =
        s.columns.applyAll ws := by
  simp only [exec_bind, writesOf, Prog.log_bind]
  have hc : (exec env q s).2.columns = s.columns := (exec_reads hq).1
  obtain ⟨ws, hs, hw⟩ := run_writes env.fails (ProcOp.handle env)
    (r (exec env q s).1 (exec env beginTransaction (exec env q s).2).1)
    (exec env beginTransaction (exec env q s).2).2
  refine ⟨ws, ?_, ?_⟩
  · exact ((List.sublist_append_left ws _).trans hs).trans
      ((List.sublist_append_right _ _).trans (List.sublist_append_right _ _))
  · rw [← hc]
    exact hw

end

/-- The accepted puts and deletes of a call. -/
def Call.writes (env : Env) (s : Db) (c : Call) : List (Write Bytes Column.Value) :=
  writesOf env s (c.prog cfg)

variable {cfg} {env : Env}

/-- **Every call commits nothing but what it has itself written**, whatever the pooled transaction
objects still hold. -/
theorem Call.commits_own_writes (s : Db) (c : Call) : ∃ ws,
    ws.Sublist (c.writes cfg env s) ∧ (c.next env cfg s).columns = s.columns.applyAll ws := by
  obtain hr | ⟨-, work, -, hp⟩ | rfl := c.prog_cases cfg
  · exact ⟨[], List.nil_sublist _, (exec_reads hr).1⟩
  · unfold Call.writes Call.next
    simp only [hp, map_eq_pure_bind, withMutex, withTxn, bind_assoc]
    exact begin_commits_own_writes (ifMutex_reads cfg (only_callStore trivial)) _
  · unfold Call.writes Call.next
    simp only [Call.prog, Database.clearExpired, map_eq_pure_bind, bind_assoc]
    exact begin_commits_own_writes (only_callOwn trivial) _

/-- **A call that returns `false` leaves the columns alone.** -/
theorem Call.next_columns_of_false {s : Db} {c : Call} (h : c.answer env cfg s = .bool false) :
    (c.next env cfg s).columns = s.columns := by
  obtain hr | ⟨-, work, hw, hp⟩ | rfl := c.prog_cases cfg
  · exact (exec_reads hr).1
  · simp only [Call.answer, Call.next, hp, exec_map, Answer.bool.injEq] at h ⊢
    exact withMutex_withTxn_columns_of_false cfg hw true h
  · simp [Call.answer, Call.prog] at h

/-- **Failed calls never reach the disk.**  In every environment, a call that returns `false` leaves
all columns as they were; and whatever calls follow, each of them commits nothing but writes that it
has made itself, so nothing that the failed call left in a pooled transaction object. -/
theorem failed_call_never_reaches_disk (env : Env) (cfg : Config) (s : Db) (c : Call)
    (h : c.answer env cfg s = .bool false) :
    (c.next env cfg s).columns = s.columns ∧
      ∀ (cs : List Call) (c' : Call),
        let s' := runCalls env cfg (c.next env cfg s) cs
        ∃ ws, ws.Sublist (c'.writes cfg env s') ∧
          (c'.next env cfg s').columns = s'.columns.applyAll ws :=
  ⟨Call.next_columns_of_false h, fun _ c' => Call.commits_own_writes _ c'⟩

/-- The lookup of the root of the tree fails while `/a` is set. -/
theorem failed_set_never_reaches_disk :
    let env : Env := { Env.reliable (fun _ => 0) with fails := fun n _ => n == 1 }
    let c : Call := .set ⟨[47, 97], [1], {}⟩
    c.answer env (.plain false) (Db.init 2) = .bool false ∧
      (c.next env (.plain false) (Db.init 2)).columns = (Db.init 2).columns :=
  ⟨by decide, (failed_call_never_reaches_disk _ _ _ _ (by decide)).1⟩

end ConfigDb
