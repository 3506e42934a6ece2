import ConfigDb.Storage.Nodes

/-!
# What a mutation leaves alone

A call that changes the store names some keys, and the expiry sweep finds those that are due.  The
entries of all other keys stay as they are.  In the tree, nothing changes but the nodes of the paths
of these keys, and in such a node nothing but the children that `treeComponents` pairs with it.

This holds in every state and in every environment: a node that is written back has the children of
the node that was read, with one child added or taken out.

## Main definitions

* `Linked` : the pairs that belong to a set of keys.
* `Store.ChangesOnly` : nothing has changed but what belongs to a set of keys.
* `Call.touches` : the keys of a call.

## Main results

* `mutations_stay_on_path` : a call changes nothing but what belongs to its keys.
-/

namespace ConfigDb

open Std Database

/-- The child `c` of `path` belongs to a key of `K`. -/
def Linked (K : Set Bytes) (path c : Bytes) : Prop := ∃ ks ∈ K, (path, c) ∈ treeComponents ks

/-- From the columns `v` to the columns `w` nothing has changed but what belongs to the keys of
`K`. -/
structure Store.ChangesOnly (K : Set Bytes) (v w : Columns) : Prop where
  /-- The other keys have the same values. -/
  data : ∀ k ∉ K, w.get .data k = v.get .data k
  /-- The other keys have the same time stamps. -/
  expiration : ∀ k ∉ K, w.get .expiration k = v.get .expiration k
  /-- The other keys have the same markers. -/
  cache : ∀ k ∉ K, w.get .cache k = v.get .cache k
  /-- The nodes of the other paths are the same. -/
  nodes : ∀ path, (∀ c, ¬ Linked K path c) → w.get .forrest path = v.get .forrest path
  /-- The other children of a node are the same. -/
  children : ∀ path c, ¬ Linked K path c → (c ∈ w.children path ↔ c ∈ v.children path)

/-- The call writes nothing to the columns that does not belong to the keys of `K`, where `v` are
the columns to begin with. -/
def Op.Confined (K : Set Bytes) (v : Columns) : DbOp → Prop
  | .store (.put .forrest path node) => (∃ c, Linked K path c) ∧
      ∀ c, ¬ Linked K path c → (c ∈ node.children ↔ c ∈ v.children path)
  | .store (.delete .forrest path) => (∃ c, Linked K path c) ∧
      ∀ c, ¬ Linked K path c → c ∉ v.children path
  | .store (.put .expiring _ _) => True
  | .store (.delete .expiring _) => True
  | .store (.put _ k _) => k ∈ K
  | .store (.delete _ k) => k ∈ K
  | _ => True

/-- The answer is about a node that differs from that of `v` only in what belongs to the keys of
`K`. -/
def Op.Shows (K : Set Bytes) (v : Columns) : (e : DbOp) → Op.Res ProcOp.Res e → Prop
  | .store (.get .forrest path), r => (∀ node, r = .ok node →
      ∀ c, ¬ Linked K path c → (c ∈ node.children ↔ c ∈ v.children path)) ∧
      (r = .notFound → ∀ c, ¬ Linked K path c → c ∉ v.children path)
  | _, _ => True

/-- What is committed, and what the transaction sees, differs from `v` only in what belongs to the
keys of `K`. -/
def Db.Confined (K : Set Bytes) (v : Columns) (s : Db) : Prop :=
  v.ChangesOnly K s.columns ∧ v.ChangesOnly K s.1.view

/-- The program writes nothing that does not belong to the keys of `K`. -/
abbrev Prog.Confined {α : Type} (K : Set Bytes) (v : Columns) (p : DbProg α) : Prop :=
  p.Within (Op.Shows K v) (Op.Confined K v)

/-! ### Single writes -/

section

variable {K : Set Bytes} {v w : Columns}

namespace Store

theorem ChangesOnly.refl (K : Set Bytes) (v : Columns) : v.ChangesOnly K v :=
  ⟨fun _ _ => rfl, fun _ _ => rfl, fun _ _ => rfl, fun _ _ => rfl, fun _ _ _ => Iff.rfl⟩

theorem ChangesOnly.of_get {w' : Columns} (h : v.ChangesOnly K w)
    (hd : ∀ k ∉ K, w'.get .data k = w.get .data k)
    (he : ∀ k ∉ K, w'.get .expiration k = w.get .expiration k)
    (hc : ∀ k ∉ K, w'.get .cache k = w.get .cache k) (hf : w' .forrest = w .forrest) :
    v.ChangesOnly K w' where
  data k hk := (hd k hk).trans (h.data k hk)
  expiration k hk := (he k hk).trans (h.expiration k hk)
  cache k hk := (hc k hk).trans (h.cache k hk)
  nodes path hp := by
    rw [get, hf]
    exact h.nodes path hp
  children path c hp := by
    rw [children_congr hf]
    exact h.children path c hp

theorem ChangesOnly.of_node {w' : Columns} (h : v.ChangesOnly K w) {path : Bytes}
    (ho : ∀ c, c ≠ .forrest → w' c = w c)
    (hne : ∀ path', path ≠ path' → w'.get .forrest path' = w.get .forrest path')
    (hpath : ∃ c, Linked K path c)
    (hsame : ∀ c, ¬ Linked K path c → (c ∈ w'.children path ↔ c ∈ v.children path)) :
    v.ChangesOnly K w' where
  data k hk := by
    rw [get, ho .data (by decide)]
    exact h.data k hk
  expiration k hk := by
    rw [get, ho .expiration (by decide)]
    exact h.expiration k hk
  cache k hk := by
    rw [get, ho .cache (by decide)]
    exact h.cache k hk
  nodes path' hp := by
    have hpp : path ≠ path' := by
      rintro rfl
      obtain ⟨c, hc⟩ := hpath
      exact hp c hc
    rw [hne path' hpp]
    exact h.nodes path' hp
  children path' c hc := by
    by_cases hpp : path = path'
    · exact hpp ▸ hsame c (hpp ▸ hc)
    · rw [Store.children, hne path' hpp]
      exact h.children path' c hc

theorem ChangesOnly.put (h : v.ChangesOnly K w) {c : Column} {k : Bytes} {x : c.Value}
    (he : Op.Confined K v (.store (.put c k x))) : v.ChangesOnly K (w.put c k x) := by
  have hne (k' : Bytes) (hk : k ∈ K) (hk' : k' ∉ K) : k ≠ k' := fun h => hk' (h ▸ hk)
  cases c with
  | forrest =>
    refine h.of_node (fun c hc => put_of_ne w hc k x) (fun path' hp => by simp [hp]) he.1
      fun c hc => ?_
    rw [← he.2 c hc]
    simp [Store.children]
  | expiring =>
    exact h.of_get (fun k' _ => by simp) (fun k' _ => by simp) (fun k' _ => by simp)
      (put_of_ne w (by decide) _ _)
  | data =>
    exact h.of_get (fun k' hk' => by simp [hne k' he hk']) (fun k' _ => by simp)
      (fun k' _ => by simp) (put_of_ne w (by decide) _ _)
  | expiration =>
    exact h.of_get (fun k' _ => by simp) (fun k' hk' => by simp [hne k' he hk'])
      (fun k' _ => by simp) (put_of_ne w (by decide) _ _)
  | cache =>
    exact h.of_get (fun k' _ => by simp) (fun k' _ => by simp)
      (fun k' hk' => by simp [hne k' he hk']) (put_of_ne w (by decide) _ _)

theorem ChangesOnly.delete (h : v.ChangesOnly K w) {c : Column} {k : Bytes}
    (he : Op.Confined K v (.store (.delete c k))) : v.ChangesOnly K (w.delete c k) := by
  have hne (k' : Bytes) (hk : k ∈ K) (hk' : k' ∉ K) : k ≠ k' := fun h => hk' (h ▸ hk)
  cases c with
  | forrest =>
    refine h.of_node (fun c hc => delete_of_ne w hc k) (fun path' hp => by simp [hp]) he.1
      fun c hc => ?_
    refine iff_of_false ?_ (he.2 c hc)
    simp [Store.children]
  | expiring =>
    exact h.of_get (fun k' _ => by simp) (fun k' _ => by simp) (fun k' _ => by simp)
      (delete_of_ne w (by decide) _)
  | data =>
    exact h.of_get (fun k' hk' => by simp [hne k' he hk']) (fun k' _ => by simp)
      (fun k' _ => by simp) (delete_of_ne w (by decide) _)
  | expiration =>
    exact h.of_get (fun k' _ => by simp) (fun k' hk' => by simp [hne k' he hk'])
      (fun k' _ => by simp) (delete_of_ne w (by decide) _)
  | cache =>
    exact h.of_get (fun k' _ => by simp) (fun k' _ => by simp)
      (fun k' hk' => by simp [hne k' he hk']) (delete_of_ne w (by decide) _)

theorem ChangesOnly.shows (h : v.ChangesOnly K w) (failed : Bool) (path : Bytes) :
    Op.Shows K v (.store (.get .forrest path))
      (if failed then .error else .ofOption (w.get .forrest path)) := by
  have hsame := h.children path
  cases failed with
  | true => exact ⟨fun node hr => by simp at hr, fun hr => by simp at hr⟩
  | false =>
    cases hn : w.get .forrest path with
    | none =>
      refine ⟨fun node hr => by simp at hr, fun _ c hc hmem => ?_⟩
      have := (hsame c hc).2 hmem
      simp [Store.children, hn] at this
    | some node =>
      refine ⟨fun node' hr c hc => ?_, fun hr => by simp at hr⟩
      obtain rfl : node = node' := by simpa using hr
      rw [← hsame c hc, Store.children, hn]

end Store

/-- **One call** that writes nothing but what belongs to the keys of `K`. -/
theorem Db.Confined.handle {env : Env} {s : Db} (h : s.Confined K v) (e : DbOp)
    (he : e.Confined K v) : e.Shows K v (env.handle e s).1 ∧ (env.handle e s).2.Confined K v := by
  cases e with
  | own x => exact ⟨trivial, h⟩
  | store o =>
    cases o with
    | get c k =>
      cases c with
      | forrest => exact ⟨h.2.shows _ k, h⟩
      | _ => exact ⟨trivial, h⟩
    | put c k x =>
      refine ⟨trivial, ?_⟩
      simp only [Env.handle, Op.handle, TxnOp.handle]
      split
      · exact h
      · refine ⟨h.1, ?_⟩
        have := h.2.put he
        simpa [TxnDb.view, TxnDb.tick, Store.apply] using this
    | delete c k =>
      refine ⟨trivial, ?_⟩
      simp only [Env.handle, Op.handle, TxnOp.handle]
      split
      · exact h
      · refine ⟨h.1, ?_⟩
        have := h.2.delete he
        simpa [TxnDb.view, TxnDb.tick, Store.apply] using this
    | commit =>
      refine ⟨trivial, ?_⟩
      simp only [Env.handle, Op.handle, TxnOp.handle]
      split
      · exact h
      · exact ⟨h.2, h.2⟩
    | rollback =>
      refine ⟨trivial, ?_⟩
      simp only [Env.handle, Op.handle, TxnOp.handle]
      split
      · exact h
      · exact ⟨h.1, h.1⟩
    | begin => exact ⟨trivial, h.1, h.1⟩
    | release => exact ⟨trivial, h.1, h.1⟩
    | _ => exact ⟨trivial, h⟩

end

/-! ### Programs -/

section

variable (cfg : Config) {K : Set Bytes} {v : Columns} {ks : Bytes}

theorem Op.Reads.confined : ∀ e : DbOp, e.Reads → e.Confined K v
  | .store o => by cases o <;> simp [Op.Reads, Op.Confined]
  | .own _ => fun _ => trivial

theorem confined_of_reads {α : Type} {p : DbProg α} (hp : p.Only Op.Reads) : p.Confined K v :=
  (hp.mono Op.Reads.confined).within

/-- A node that is written back has the children of the node that was read, and one more. -/
theorem addChild_confined {path child : Bytes} (ht : Linked K path child) {node : Node}
    (hnode : ∀ c, ¬ Linked K path c → (c ∈ node.children ↔ c ∈ v.children path)) :
    (addChild path child node).Confined K v := by
  refine within_ite trivial (within_callStore ⟨⟨child, ht⟩, fun c hc => ?_⟩)
  have hne : c ≠ child := fun h => hc (h ▸ ht)
  rw [← hnode c hc]
  simp [hne.symm]

theorem manageTreeLoop_confined {ts : List Tuple} (hts : ∀ t ∈ ts, Linked K t.1 t.2) :
    (manageTreeLoop ts).Confined K v := by
  induction ts with
  | nil => trivial
  | cons t ts ih =>
    obtain ⟨path, child⟩ := t
    rw [List.forall_mem_cons] at hts
    refine .call trivial fun r hr => ?_
    cases r with
    | ok node =>
      exact .bind (addChild_confined hts.1 (hr.1 node rfl)) fun _ => within_ite trivial (ih hts.2)
    | notFound =>
      refine .bind (within_callStore ⟨⟨child, hts.1⟩, fun c hc => ?_⟩) fun _ =>
        within_ite trivial (ih hts.2)
      have hne : c ≠ child := fun h => hc (h ▸ hts.1)
      exact iff_of_false (by simp [hne]) (hr.2 rfl c hc)
    | error => trivial

/-- A node that is written back has the children of the node that was read, but for one. -/
theorem removeChildNode_confined {path child : Bytes} (ht : Linked K path child) {node : Node}
    (hnode : ∀ c, ¬ Linked K path c → (c ∈ node.children ↔ c ∈ v.children path)) :
    (removeChildNode path child node).Confined K v := by
  have hmem (c : Bytes) (hc : ¬ Linked K path c) :
      (c ∈ node.children.filter fun item => child != item) ↔ c ∈ v.children path := by
    have hne : child ≠ c := fun h => hc (h ▸ ht)
    rw [← hnode c hc]
    simp [hne]
  simp only [removeChildNode]
  cases hvec : (node.children.filter fun item => child != item).isEmpty with
  | true =>
    refine .bind (within_callStore ⟨⟨child, ht⟩, fun c hc hcv => ?_⟩) fun _ =>
      within_ite trivial trivial
    have := (hmem c hc).2 hcv
    rw [List.isEmpty_iff.1 hvec] at this
    simp at this
  | false =>
    exact .bind (within_callStore ⟨⟨child, ht⟩, hmem⟩) fun _ => within_ite trivial trivial

theorem removeChildLoop_confined {ts : List Tuple} (hts : ∀ t ∈ ts, Linked K t.1 t.2) :
    (removeChildLoop ts).Confined K v := by
  induction ts with
  | nil => trivial
  | cons t ts ih =>
    obtain ⟨path, child⟩ := t
    rw [List.forall_mem_cons] at hts
    refine .call trivial fun r hr => ?_
    cases r with
    | ok node =>
      refine .bind (removeChildNode_confined hts.1 (hr.1 node rfl)) fun _ =>
        within_ite trivial (within_ite trivial (.call trivial fun r _ => ?_))
      cases r with
      | ok _ => trivial
      | notFound => exact ih hts.2
      | error => exact ih hts.2
    | notFound => trivial
    | error => trivial

theorem rollback_confined : rollback.Confined K v :=
  .bind (within_callStore trivial) fun _ => trivial

theorem refused_confined (opts : Options) (ks : Bytes) : (refused opts ks).Confined K v := by
  refine within_ite trivial (.bind (within_callStore trivial) fun r => ?_)
  cases r <;> trivial

theorem setTxn_confined {key : Bytes} (hk : getKey key ∈ K) (value : Bytes) (opts : Options) :
    (setTxn cfg key value opts).Confined K v := by
  have hexit : (do return ← rollback : DbProg Bool).Confined K v :=
    .bind rollback_confined fun _ => trivial
  have henter : (enterKey (getKey key) opts.cache).Confined K v :=
    within_ite (within_callStore hk) (manageTreeLoop_confined fun t ht => ⟨_, hk, ht⟩)
  have hexpire : (setExpiration (getKey key) opts.expirationInSeconds).Confined K v :=
    within_ite trivial <| .bind (within_callOwn trivial) fun _ =>
      .bind (within_callStore hk) fun _ => within_ite trivial <|
      .bind (within_callOwn trivial) fun _ => within_callStore trivial
  exact .bind (within_callOwn trivial) fun _ => within_ite trivial <|
    .bind (refused_confined _ _) fun _ => within_ite trivial <|
    .bind (within_callStore hk) fun _ => within_ite hexit <|
    .bind henter fun _ => within_ite hexit <|
    .bind hexpire fun _ => within_ite hexit <|
    .bind (confined_of_reads (putValue_reads _ _ _)) fun _ => trivial

theorem removeTxn_confined {key : Bytes} (hk : getKey key ∈ K) (b : Bool) :
    (removeTxn cfg key b).Confined K v := by
  have hundo : (if b then rollback else return false : DbProg Bool).Confined K v :=
    within_ite rollback_confined trivial
  have hchild : (removeChild (getKey key)).Confined K v :=
    removeChildLoop_confined fun t ht => ⟨_, hk, List.mem_reverse.1 ht⟩
  have hentry : (Database.removeEntry (getKey key)).Confined K v := by
    refine .bind (within_callStore trivial) fun r => ?_
    cases r with
    | ok _ => exact .bind (within_callStore hk) fun _ => trivial
    | notFound => exact hchild
    | error => exact hchild
  simp only [removeTxn]
  exact .bind (within_callStore hk) fun _ => within_ite hundo <|
    .bind (within_callStore hk) fun _ => within_ite hundo <|
    .bind hentry fun _ => within_ite hundo <|
    .bind (confined_of_reads (eraseValue_reads _ _)) fun _ => trivial

theorem moveTxn_confined {key dest : Bytes} (hk : getKey key ∈ K) (hd : getKey dest ∈ K)
    (opts : Options) : (moveTxn cfg key dest opts).Confined K v := by
  have hexit : (do return ← rollback : DbProg Bool).Confined K v :=
    .bind rollback_confined fun _ => trivial
  have hexp (ks : Bytes) : (moveExpiration opts ks).Confined K v := by
    refine within_ite trivial (.bind (within_callStore trivial) fun r => ?_)
    cases r with
    | ok nsv => exact confined_of_reads (parseTTL_only trivial nsv)
    | notFound => trivial
    | error => trivial
  refine .bind (within_callOwn trivial) fun _ => within_ite trivial <|
    .bind (refused_confined _ _) fun _ => within_ite trivial <|
    .bind (within_callStore trivial) fun r => ?_
  cases r with
  | ok value =>
    exact .bind (within_callStore trivial) fun _ => .bind (hexp _) fun _ =>
      .bind (removeTxn_confined cfg (by rwa [getKey_getKey]) _) fun _ => within_ite hexit <|
      .bind (setTxn_confined cfg (by rwa [getKey_getKey]) _ _) fun _ => within_ite hexit trivial
  | notFound => trivial
  | error => trivial

theorem forAll_confined {α : Type} {f : α → DbProg Bool} {as : List α}
    (hf : ∀ a ∈ as, (f a).Confined K v) : (forAll f as).Confined K v := by
  induction as with
  | nil => trivial
  | cons a as ih =>
    rw [List.forall_mem_cons] at hf
    exact .bind hf.1 fun _ => within_ite trivial (ih hf.2)

theorem sweep_confined {es : List (Bytes × Bytes)} (hes : ∀ e ∈ es, getKey e.2 ∈ K) :
    (sweep cfg es).Confined K v := by
  induction es with
  | nil => trivial
  | cons e es ih =>
    rw [List.forall_mem_cons] at hes
    have hexpire : (expireKey cfg e).Confined K v :=
      .bind (removeTxn_confined cfg hes.1 _) fun _ =>
        within_ite (.bind (within_callStore trivial) fun _ => trivial) trivial
    exact .bind hexpire fun _ => .bind (within_callOwn trivial) fun _ =>
      within_ite trivial (ih hes.2)

variable {env : Env}

theorem exec_collect_sublist (es : List (Bytes × Bytes)) (s : Db) :
    (exec env (collect es) s).1.Sublist es := by
  induction es generalizing s with
  | nil => exact List.Sublist.slnil
  | cons e es ih =>
    simp only [collect, exec_bind]
    rw [exec_ite]
    split_ifs
    · exact List.singleton_sublist.2 List.mem_cons_self
    · simp only [exec_bind, exec_pure]
      exact (ih _).cons_cons e

theorem Prog.Confined.run {α : Type} {p : DbProg α} (hp : p.Confined K v) {s : Db}
    (hs : s.Confined K v) : (exec env p s).2.Confined K v :=
  Prog.Within.run_invariant (I := Db.Confined K v) (fun e _ he ht => ht.handle e he) hp hs

theorem withTxn_changesOnly {work : DbProg Bool} {s : Db} (hw : work.Confined K s.columns) :
    s.columns.ChangesOnly K (exec env (withMutex cfg true (withTxn work)) s).2.columns := by
  have hbegin : (exec env beginTransaction s).2.Confined K s.columns :=
    ⟨.refl K _, .refl K _⟩
  have hrest : (do
      let saved ← work
      let ok ← commitIf saved
      releaseTransaction
      return ok : DbProg Bool).Confined K s.columns :=
    .bind hw fun _ => .bind (within_ite (within_callStore trivial) trivial) fun _ =>
      .bind (within_callStore trivial) fun _ => trivial
  rw [exec_withMutex, withTxn, exec_bind]
  exact (hrest.run hbegin).1

end

/-! ### Calls -/

/-- The keys that a call changes.  Those of the expiry sweep are the keys of the entries of the
`expiring` column below the clock reading of the sweep. -/
def Call.touches (env : Env) (s : Db) : Call → Set Bytes
  | .set d => {getKey d.key}
  | .remove key => {getKey key}
  | .move d => {getKey d.key, getKey d.value}
  | .setBatch kvs => {k | ∃ d ∈ kvs, getKey d.key = k}
  | .removeBatch keys => {k | ∃ key ∈ keys, getKey key = k}
  | .moveBatch kvs => {k | ∃ d ∈ kvs, getKey d.key = k ∨ getKey d.value = k}
  | .clearExpired => {k | ∃ e ∈ s.columns.below .expiring (toString (env.clock (s.2.nows + 1))),
      getKey e.2 = k}
  | _ => ∅

theorem Db.Confined.swept {env : Env} {cfg : Config} {K : Set Bytes} {v : Columns} {t : Db}
    (ht : t.Confined K v) {es : List (Bytes × Bytes)} (hes : ∀ e ∈ es, getKey e.2 ∈ K) :
    (exec env (do
      let keys ← collect es
      if ← stopped then releaseTransaction
      else do
        sweep cfg keys
        let _ ← txnCommit
        releaseTransaction) t).2.Confined K v := by
  have hcollect : (exec env (collect es) t).2.Confined K v :=
    (confined_of_reads (collect_reads es)).run ht
  have hkeys : ∀ e ∈ (exec env (collect es) t).1, getKey e.2 ∈ K :=
    fun e he => hes e ((exec_collect_sublist es t).subset he)
  have hrest : (do
      if ← stopped then releaseTransaction
      else do
        sweep cfg (exec env (collect es) t).1
        let _ ← txnCommit
        releaseTransaction : DbProg Unit).Confined K v :=
    .bind (within_callOwn trivial) fun _ => within_ite (within_callStore trivial) <|
      .bind (sweep_confined cfg hkeys) fun _ => .bind (within_callStore trivial) fun _ =>
        within_callStore trivial
  rw [exec_bind]
  exact hrest.run hcollect

/-- The expiry sweep changes nothing but what belongs to the keys that are due. -/
theorem clearExpired_changesOnly (env : Env) (cfg : Config) (s : Db) :
    s.columns.ChangesOnly (Call.clearExpired.touches env s)
      (Call.clearExpired.next env cfg s).columns := by
  have hbegin : (exec env beginTransaction (s.1, s.2.readClock 1)).2.Confined
      (Call.clearExpired.touches env s) s.columns := ⟨.refl _ _, .refl _ _⟩
  simp only [Call.next, Call.prog, Database.clearExpired, exec_map]
  rw [exec_bind, exec_now, exec_bind]
  -- the transaction has begun, and the clock is read again
  generalize ht : exec env beginTransaction (s.1, s.2.readClock 1) = t at hbegin ⊢
  have hnows : t.2.2.nows = s.2.nows + 1 := by rw [← ht]; rfl
  have hcols : t.2.columns = s.columns := by rw [← ht]; rfl
  rw [exec_bind, exec_now, exec_bind]
  refine (Db.Confined.swept ?_ fun e he => ?_).1
  · exact hbegin
  · have he' : e ∈ if env.fails t.2.1.calls .scan then []
        else t.2.columns.below .expiring (toString (env.clock t.2.2.nows)) := he
    rw [hnows, hcols] at he'
    split_ifs at he'
    · simp at he'
    · exact ⟨e, he', rfl⟩

/-- **A call changes nothing but what belongs to its keys**, in every environment. -/
theorem Call.next_changesOnly (env : Env) (cfg : Config) (s : Db) (c : Call) :
    s.columns.ChangesOnly (c.touches env s) (c.next env cfg s).columns := by
  have hreads (h : (c.prog cfg).Only Op.Reads) :
      s.columns.ChangesOnly (c.touches env s) (c.next env cfg s).columns := by
    rw [show (c.next env cfg s).columns = s.columns from (exec_reads h).1]
    exact .refl _ _
  have hwork {work : DbProg Bool} (hc : c.prog cfg = .bool <$> withMutex cfg true (withTxn work))
      (hw : work.Confined (c.touches env s) s.columns) :
      s.columns.ChangesOnly (c.touches env s) (c.next env cfg s).columns := by
    rw [Call.next, hc, exec_map]
    exact withTxn_changesOnly cfg hw
  cases c with
  | set d =>
    by_cases hen : (Call.set d).enters = true
    · simp only [Call.enters, Bool.and_eq_true, Bool.not_eq_true'] at hen
      have hk : getKey d.key ∈ (Call.set d).touches env s := rfl
      have hw : (setTxn cfg d.key d.value d.options).Confined _ s.columns :=
        setTxn_confined cfg hk _ _
      exact hwork (by simp [Call.prog, Database.set, hen]) hw
    · exact hreads (Call.reads_of_not_enters (Bool.eq_false_iff.2 hen))
  | remove key =>
    by_cases hen : (Call.remove key).enters = true
    · simp only [Call.enters, Bool.not_eq_true'] at hen
      have hk : getKey key ∈ (Call.remove key).touches env s := rfl
      have hw : (removeTxn cfg key true).Confined _ s.columns := removeTxn_confined cfg hk _
      exact hwork (by simp [Call.prog, Database.remove, hen]) hw
    · exact hreads (Call.reads_of_not_enters (Bool.eq_false_iff.2 hen))
  | move d =>
    by_cases hen : (Call.move d).enters = true
    · simp only [Call.enters, Bool.and_eq_true, Bool.not_eq_true'] at hen
      have hk : getKey d.key ∈ (Call.move d).touches env s := .inl rfl
      have hd : getKey d.value ∈ (Call.move d).touches env s := .inr rfl
      have hw : (moveTxn cfg d.key d.value d.options).Confined _ s.columns :=
        moveTxn_confined cfg hk hd _
      exact hwork (by simp [Call.prog, Database.move, hen]) hw
    · exact hreads (Call.reads_of_not_enters (Bool.eq_false_iff.2 hen))
  | setBatch kvs =>
    have hk (d) (hd : d ∈ kvs) : getKey d.key ∈ (Call.setBatch kvs).touches env s := ⟨d, hd, rfl⟩
    exact hwork rfl (forAll_confined fun d hd => setTxn_confined cfg (hk d hd) _ _)
  | removeBatch keys =>
    have hk (key) (hkey : key ∈ keys) : getKey key ∈ (Call.removeBatch keys).touches env s :=
      ⟨key, hkey, rfl⟩
    exact hwork rfl (forAll_confined fun key hkey => removeTxn_confined cfg (hk key hkey) _)
  | moveBatch kvs =>
    have hk (d) (hd : d ∈ kvs) : getKey d.key ∈ (Call.moveBatch kvs).touches env s :=
      ⟨d, hd, .inl rfl⟩
    have hv (d) (hd : d ∈ kvs) : getKey d.value ∈ (Call.moveBatch kvs).touches env s :=
      ⟨d, hd, .inr rfl⟩
    exact hwork rfl (forAll_confined fun d hd => moveTxn_confined cfg (hk d hd) (hv d hd) _)
  | clearExpired => exact clearExpired_changesOnly env cfg s
  | _ => exact hreads (Call.reads_of_not_enters rfl)

/-- **Mutations stay on their own path.**  In every state and every environment a call changes
nothing but what belongs to its keys: the values, time stamps and markers of all other keys are as
before; so is every node of the tree at a path that `treeComponents` finds in none of the keys; and
in the other nodes no child has been added or taken out but those that `treeComponents` pairs with
the path.  The keys of a move are those of a `remove` of the source and a `set` of the
destination. -/
theorem mutations_stay_on_path (env : Env) (cfg : Config) (s : Db) (c : Call) :
    s.columns.ChangesOnly (c.touches env s) (c.next env cfg s).columns :=
  c.next_changesOnly env cfg s

end ConfigDb
