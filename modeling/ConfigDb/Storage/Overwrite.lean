import ConfigDb.Storage.Errors

/-!
# Setting a key that is there

A `set` writes the value of its key.  It writes a time stamp if an expiration is asked for, and a
marker if the key is to be a cache entry; otherwise it writes the path of the key to the tree.  What
an earlier call has left in the other columns stays: a time stamp, if no expiration is asked for,
and a marker, if the key is not to be a cache entry any more.  The marker decides whether the next
`remove` of the key goes to the tree.

The results hold in every environment, since a `set` overlooks no failure.

## Main results

* `Call.next_of_sets` : what a `set` that answers `true` leaves.
* `Call.visitsTree_remove_iff` : when a `remove` goes to the tree.
* `overwrite_iff` : when the outcome of a `set` does not depend on what the key was before.
-/

namespace ConfigDb

open Database

/-- The call sets one key: it is the single call, or the batch of one. -/
def Call.Sets (d : RequestData) (c : Call) : Prop := c = .set d ∨ c = .setBatch [d]

/-- A call whose failure is noticed, or that is none to RocksDB.  (A lookup in the `data` column is
one if no node has been deleted before.) -/
def Op.Tested : DbOp → Prop
  | .store (.read _ _) => False
  | .store (.delete _ _) => False
  | .store (.get .cache _) => False
  | .store (.get .expiration _) => False
  | _ => True

section

variable {env : Env} {cfg : Config} {d : RequestData} {c : Call}

/-! ### A `set` overlooks no failure -/

theorem manageTreeLoop_tested (ts : List Tuple) : (manageTreeLoop ts).Only Op.Tested := by
  induction ts with
  | nil => trivial
  | cons t ts ih =>
    refine .bind (only_callStore trivial) fun r => ?_
    cases r with
    | ok node =>
      exact .bind (only_ite trivial (only_callStore trivial)) fun _ => only_ite trivial ih
    | notFound => exact .bind (only_callStore trivial) fun _ => only_ite trivial ih
    | error => trivial

theorem rollback_tested : rollback.Only Op.Tested := .bind (only_callStore trivial) fun _ => trivial

theorem refused_tested (opts : Options) (ks : Bytes) : (refused opts ks).Only Op.Tested := by
  refine only_ite trivial (.bind (only_callStore trivial) fun r => ?_)
  cases r <;> trivial

theorem setExpiration_tested (ks : Bytes) (n : UInt32) : (setExpiration ks n).Only Op.Tested :=
  only_ite trivial (.bind (only_callOwn trivial) fun _ => .bind (only_callStore trivial) fun _ =>
    only_ite trivial (.bind (only_callOwn trivial) fun _ => only_callStore trivial))

theorem setTxn_tested (key value : Bytes) (opts : Options) :
    (setTxn cfg key value opts).Only Op.Tested :=
  .bind (only_callOwn trivial) fun _ => only_ite trivial <|
    .bind (refused_tested _ _) fun _ => only_ite trivial <|
    .bind (only_callStore trivial) fun _ => only_ite (.bind rollback_tested fun _ => trivial) <|
    .bind (only_ite (only_callStore trivial) (manageTreeLoop_tested _)) fun _ =>
    only_ite (.bind rollback_tested fun _ => trivial) <|
    .bind (setExpiration_tested _ _) fun _ => only_ite (.bind rollback_tested fun _ => trivial) <|
    .bind (only_ite (only_callOwn trivial) trivial) fun _ => trivial

theorem withTxn_tested {work : DbProg Bool} (hw : work.Only Op.Tested) :
    ((Answer.bool <$> withMutex cfg true (withTxn work) : DbProg Answer)).Only Op.Tested :=
  Only.map _ <| .bind (only_ite (only_callStore trivial) trivial) fun _ =>
    .bind (.bind (only_callStore trivial) fun _ => .bind hw fun _ =>
      .bind (only_ite (only_callStore trivial) trivial) fun _ =>
      .bind (only_callStore trivial) fun _ => trivial) fun _ =>
    .bind (only_ite (only_callStore trivial) trivial) fun _ => trivial

theorem Call.Sets.tested (hc : c.Sets d) : (c.prog cfg).Only Op.Tested := by
  rcases hc with rfl | rfl
  · simp only [Call.prog, Database.set]
    split_ifs
    · exact Only.map _ trivial
    · exact Only.map _ trivial
    · exact withTxn_tested (setTxn_tested _ _ _)
  · exact withTxn_tested (.bind (setTxn_tested _ _ _) fun _ => only_ite trivial trivial)

theorem Call.Sets.not_overlooked (hc : c.Sets d) (s : Db) :
    ¬ StoreCall.Overlooked (c.storeCalls env cfg s) := by
  have htested : ∀ x ∈ c.storeCalls env cfg s, Op.Tested (.store x.op) := by
    refine Prog.Only.forall_mem_log (fun e r he x hx => ?_) hc.tested env.handle s
    cases e with
    | own x => simp [Op.storeCall] at hx
    | store o =>
      cases o <;> simp only [Op.storeCall, List.mem_singleton, List.not_mem_nil] at hx <;>
        exact hx ▸ he
  rintro ⟨⟨b, x⟩, hmem, -, hu⟩
  obtain ⟨hb, hx⟩ := List.of_mem_zip hmem
  have hxt := htested x hx
  obtain ⟨op, failed⟩ := x
  cases op with
  | get col k =>
    cases col with
    | data =>
      -- nothing has been deleted before
      simp only [List.mem_cons, List.mem_map] at hb
      obtain rfl | ⟨y, hy, rfl⟩ := hb
      · simp [StoreCall.unchecked] at hu
      · have hyt := htested y hy
        obtain ⟨op', failed'⟩ := y
        cases op' with
        | delete col' k' => exact hyt
        | _ => simp [StoreCall.unchecked, StoreCall.dropsNode] at hu
    | forrest => simp [StoreCall.unchecked] at hu
    | expiring => simp [StoreCall.unchecked] at hu
    | expiration => exact hxt
    | cache => exact hxt
  | read col k => exact hxt
  | delete col k => exact hxt
  | _ => simp [StoreCall.unchecked] at hu

/-! ### What a `set` leaves -/

theorem Call.Sets.mutates (hc : c.Sets d) : c.Mutates := by
  rcases hc with rfl | rfl <;> trivial

/-- **What a `set` leaves** that answers `true`, in every environment: its one action is to put the
key in. -/
theorem Call.next_of_sets (hc : c.Sets d) {s : Db} (h : c.answer env cfg s = .bool true) :
    (c.next env cfg s).columns = s.columns.setEntry cfg (getKey d.key) d.value d.options
        (env.clock s.2.nows) (env.clock (s.2.nows + 1)) ∧
      (c.next env cfg s).2.valueCache = if cfg.enableCache then
        s.2.valueCache.insert (getKey d.key) d.value else s.2.valueCache := by
  obtain ⟨as, ha, hcols, hcache⟩ := c.committed_of_true hc.mutates h (hc.not_overlooked s)
  have hen : c.enters = true := by
    cases hen : c.enters with
    | true => rfl
    | false => simp [Call.answer, Call.prog_of_not_enters hc.mutates hen] at h
  have hitem : (Item.set d).actions (Env.reliable env.clock) cfg
      (⟨s.columns, s.columns⟩, s.2) = some as := by
    rw [← itemActions_singleton, ← ha]
    rcases hc with rfl | rfl
    · simp only [Call.actions, Call.items, hen, if_true]
      rfl
    · rfl
  simp only [Item.actions] at hitem
  split_ifs at hitem
  obtain rfl := Option.some.inj hitem
  exact ⟨hcols, hcache⟩

/-- A key whose committed value is `v` is looked up as `v`, if the value cache has nothing else. -/
theorem get_answer_of_value (henv : env.Reliable) {key v : Bytes} (hk : key ≠ []) {s : Db}
    (hv : s.columns.value cfg (getKey key) = some v)
    (hm : cfg.enableCache = true → s.2.valueCache[getKey key]? = some v) :
    (Call.get key).answer env cfg s = .value (some v) := by
  have hl := IdealDb.cacheLookup_eq (s := s.ideal) hm
  have hval : s.ideal.1.committed.value cfg (getKey key) = some v := hv
  rw [Call.answer_ideal henv, Call.prog, execIdeal_map, get_ideal henv hk, hl, hval]
  split_ifs <;> rfl

/-! ### Whether the next `remove` goes to the tree -/

/-- The call looks up or writes a node of the tree. -/
def StoreCall.onTree (x : StoreCall) : Bool :=
  match x.op with
  | .get .forrest _ => true
  | .read .forrest _ => true
  | .put .forrest _ _ => true
  | .delete .forrest _ => true
  | _ => false

/-- The run of the call goes to the tree. -/
def Call.VisitsTree (env : Env) (cfg : Config) (s : Db) (c : Call) : Prop :=
  ∃ x ∈ c.storeCalls env cfg s, x.onTree = true

/-- The program goes to the tree when it is run from `s`. -/
def visitsTree {α : Type} (env : Env) (p : DbProg α) (s : Db) : Bool :=
  (Prog.log Op.storeCall env.handle p s).any StoreCall.onTree

/-- A call that is none to the tree. -/
def Op.OffTree : DbOp → Prop
  | .store (.get .forrest _) => False
  | .store (.read .forrest _) => False
  | .store (.put .forrest _ _) => False
  | .store (.delete .forrest _) => False
  | _ => True

theorem visitsTree_bind {α β : Type} (p : DbProg α) (f : α → DbProg β) (s : Db) :
    visitsTree env (p >>= f) s =
      (visitsTree env p s || visitsTree env (f (exec env p s).1) (exec env p s).2) := by
  unfold visitsTree
  rw [Prog.log_bind, List.any_append]
  rfl

theorem visitsTree_of_offTree {α : Type} {p : DbProg α} (hp : p.Only Op.OffTree) (s : Db) :
    visitsTree env p s = false := by
  refine List.any_eq_false.2 (hp.forall_mem_log (fun e r he x hx => ?_) env.handle s)
  cases e with
  | own x => simp [Op.storeCall] at hx
  | store o =>
    cases o with
    | get col k =>
      obtain rfl := List.mem_singleton.1 hx
      cases col <;> simp_all [StoreCall.onTree, Op.OffTree]
    | read col k =>
      obtain rfl := List.mem_singleton.1 hx
      cases col <;> simp_all [StoreCall.onTree, Op.OffTree]
    | put col k v =>
      obtain rfl := List.mem_singleton.1 hx
      cases col <;> simp_all [StoreCall.onTree, Op.OffTree]
    | delete col k =>
      obtain rfl := List.mem_singleton.1 hx
      cases col <;> simp_all [StoreCall.onTree, Op.OffTree]
    | commit =>
      obtain rfl := List.mem_singleton.1 hx
      simp [StoreCall.onTree]
    | _ => simp [Op.storeCall] at hx

theorem txnDelete_reliable (henv : env.Reliable) (col : Column) (k : Bytes) (s : Db) :
    (exec env (txnDelete col k) s).1 = true := by
  simp [exec, txnDelete, callStore, Op.handle, TxnOp.handle, henv.fails]

/-- The entry of a key is taken out of the tree exactly if the key has no marker. -/
theorem visitsTree_removeEntry (henv : env.Reliable) (ks : Bytes) (s : Db) :
    visitsTree env (Database.removeEntry ks) s = (s.columns.get .cache ks).isNone := by
  have hread : (dbGet .cache ks).Only Op.OffTree := only_callStore trivial
  have hdelete : (do let _ ← txnDelete .cache ks; return true : DbProg Bool).Only Op.OffTree :=
    .bind (only_callStore trivial) fun _ => trivial
  rw [Database.removeEntry, visitsTree_bind, visitsTree_of_offTree hread, Bool.false_or,
    exec_dbGet, henv.fails, if_neg Bool.false_ne_true]
  cases s.columns.get .cache ks with
  | some v => exact visitsTree_of_offTree hdelete _
  | none =>
    -- the walk begins with a lookup of a node
    have hne : (treeComponents ks).reverse ≠ [] := by simp [treeComponents]
    obtain ⟨t, ts, hts⟩ := List.exists_cons_of_ne_nil hne
    change visitsTree env (removeChildLoop (treeComponents ks).reverse) _ = true
    rw [hts, removeChildLoop, visitsTree_bind]
    rfl

theorem visitsTree_removeTxn (henv : env.Reliable) (key : Bytes) (s : Db) :
    visitsTree env (removeTxn cfg key true) s = (s.columns.get .cache (getKey key)).isNone := by
  have hdelete {col : Column} (hc : col ≠ .forrest) (s : Db) :
      visitsTree env (txnDelete col (getKey key)) s = false := by
    have ho : (txnDelete col (getKey key)).Only Op.OffTree := by
      cases col <;> first | exact only_callStore trivial | exact absurd rfl hc
    exact visitsTree_of_offTree ho s
  have hcols (col : Column) (s : Db) : (exec env (txnDelete col (getKey key)) s).2.columns =
      s.columns := (txnDelete_cases env col _ s).1
  have hundo : (do return ← rollback : DbProg Bool).Only Op.OffTree :=
    .bind (.bind (only_callStore trivial) fun _ => trivial) fun _ => trivial
  have herase : (do eraseValue cfg (getKey key); return true : DbProg Bool).Only Op.OffTree :=
    .bind (only_ite (only_callOwn trivial) trivial) fun _ => trivial
  unfold removeTxn
  simp only [if_true]
  rw [visitsTree_bind, hdelete (by decide), Bool.false_or, txnDelete_reliable henv, Bool.not_true,
    if_neg Bool.false_ne_true, visitsTree_bind, hdelete (by decide), Bool.false_or,
    txnDelete_reliable henv, Bool.not_true, if_neg Bool.false_ne_true, visitsTree_bind,
    visitsTree_removeEntry henv, hcols, hcols, visitsTree_of_offTree (only_ite hundo herase),
    Bool.or_false]

/-- **When a `remove` goes to the tree**: exactly if its key has no marker. -/
theorem Call.visitsTree_remove_iff (henv : env.Reliable) {key : Bytes} (hk : key ≠ []) (s : Db) :
    (Call.remove key).VisitsTree env cfg s ↔ s.columns.get .cache (getKey key) = none := by
  have he : key.isEmpty = false := by simpa using hk
  have hmutex (q : DbProg Unit) (hq : q = lock true ∨ q = unlock) :
      (ifMutex cfg q).Only Op.OffTree ∧ ∀ t : Db, exec env (ifMutex cfg q) t = ((), t) := by
    rcases hq with rfl | rfl
    · exact ⟨only_ite (only_callStore trivial) trivial, fun t => by unfold ifMutex; split <;> rfl⟩
    · exact ⟨only_ite (only_callStore trivial) trivial, fun t => by unfold ifMutex; split <;> rfl⟩
  have hbegin : beginTransaction.Only Op.OffTree := only_callStore trivial
  have hrelease : releaseTransaction.Only Op.OffTree := only_callStore trivial
  have hcommit (b : Bool) : (commitIf b).Only Op.OffTree :=
    only_ite (only_callStore trivial) trivial
  have hpure {α : Type} (a : α) (t : Db) : visitsTree env (pure a) t = false := rfl
  have hwork : visitsTree env ((Call.remove key).prog cfg) s =
      visitsTree env (removeTxn cfg key true) (exec env beginTransaction s).2 := by
    simp only [Call.prog, Database.remove, he, Bool.false_eq_true, if_false, withMutex, withTxn,
      map_eq_pure_bind, visitsTree_bind, visitsTree_of_offTree (hmutex _ (.inl rfl)).1,
      visitsTree_of_offTree (hmutex _ (.inr rfl)).1, visitsTree_of_offTree hbegin,
      visitsTree_of_offTree hrelease, visitsTree_of_offTree (hcommit _), hpure,
      (hmutex _ (.inl rfl)).2, Bool.false_or, Bool.or_false]
  rw [Call.VisitsTree, ← List.any_eq_true]
  change visitsTree env ((Call.remove key).prog cfg) s = true ↔ _
  rw [hwork, visitsTree_removeTxn henv, Option.isNone_iff_eq_none]
  rfl

end

/-! ### Two runs -/

/-- Two stores in which the key `key` has been set under the options `o` agree on everything that is
stored about it. -/
structure Replaced (cfg : Config) (o : Options) (key : Bytes) (s t : Db) : Prop where
  /-- The entry of the `data` column. -/
  data : s.columns.get .data (getKey key) = t.columns.get .data (getKey key)
  /-- The time stamp. -/
  expiration : s.columns.get .expiration (getKey key) = t.columns.get .expiration (getKey key)
  /-- There is no time stamp if no expiration is asked for. -/
  unexpired : o.expirationInSeconds = 0 → s.columns.get .expiration (getKey key) = none
  /-- The marker. -/
  cache : s.columns.get .cache (getKey key) = t.columns.get .cache (getKey key)
  /-- There is a marker exactly if the key is to be a cache entry. -/
  marked : (s.columns.get .cache (getKey key)).isSome = o.cache
  /-- Whether the next `remove` goes to the tree. -/
  tree : ∀ env : Env, env.Reliable → ((Call.remove key).VisitsTree env cfg s ↔
    (Call.remove key).VisitsTree env cfg t)

/-- The options leave nothing of what the columns `v` have of a key: its time stamp is replaced, or
it has none; and its marker is, or it has none. -/
def Options.Covers (o : Options) (v : Columns) (ks : Bytes) : Prop :=
  (o.expirationInSeconds = 0 → v.get .expiration ks = none) ∧
    (o.cache = false → v.get .cache ks = none)

/-- **When a write replaces the key.**  After a `set` that answers `true`, at the same clock
readings in two states, the states agree on everything that is stored about the key exactly if the
options leave nothing of what either had of it: an expiration is asked for, or the key had no time
stamp in either; and the key is to be a cache entry, or it had no marker in either. -/
theorem overwrite_iff (env₁ env₂ : Env) (cfg : Config) (s₁ s₂ : Db) (d : RequestData) (c : Call)
    (hc : c.Sets d) (hk : d.key ≠ []) (h₁ : c.answer env₁ cfg s₁ = .bool true)
    (h₂ : c.answer env₂ cfg s₂ = .bool true)
    (ht : env₁.clock s₁.2.nows = env₂.clock s₂.2.nows) :
    Replaced cfg d.options d.key (c.next env₁ cfg s₁) (c.next env₂ cfg s₂) ↔
      d.options.Covers s₁.columns (getKey d.key) ∧ d.options.Covers s₂.columns (getKey d.key) := by
  have hc₁ := (Call.next_of_sets hc h₁).1
  have hc₂ := (Call.next_of_sets hc h₂).1
  -- the columns of the key afterwards
  have hexp {v : Columns} {t t₁ : ℕ} (h : d.options.expirationInSeconds = 0) :
      (v.setEntry cfg (getKey d.key) d.value d.options t t₁).get .expiration (getKey d.key) =
        v.get .expiration (getKey d.key) := by
    simp [h]
  have hcache {v : Columns} {t t₁ : ℕ} (h : d.options.cache = false) :
      (v.setEntry cfg (getKey d.key) d.value d.options t t₁).get .cache (getKey d.key) =
        v.get .cache (getKey d.key) := by
    simp [h]
  constructor
  · intro h
    have hun := h.unexpired
    have hexps := h.expiration
    have hmarks := h.cache
    have hmarked := h.marked
    rw [hc₁] at hun hexps hmarks hmarked
    rw [hc₂] at hexps hmarks
    have hnone : d.options.cache = false → s₁.columns.get .cache (getKey d.key) = none := by
      intro hf
      rw [hcache hf, hf] at hmarked
      simpa using hmarked
    refine ⟨⟨fun h0 => ?_, hnone⟩, fun h0 => ?_, fun hf => ?_⟩
    · rw [← hexp h0]
      exact hun h0
    · rw [hexp h0] at hun
      rw [hexp h0, hexp h0] at hexps
      exact hexps.symm.trans (hun h0)
    · rw [hcache hf, hcache hf] at hmarks
      exact hmarks.symm.trans (hnone hf)
  · rintro ⟨⟨he₁, hm₁⟩, he₂, hm₂⟩
    have hmark : (c.next env₁ cfg s₁).columns.get .cache (getKey d.key) =
        (c.next env₂ cfg s₂).columns.get .cache (getKey d.key) := by
      rw [hc₁, hc₂]
      cases hf : d.options.cache with
      | true => simp [hf]
      | false => rw [hcache hf, hcache hf, hm₁ hf, hm₂ hf]
    refine ⟨?_, ?_, fun h0 => ?_, hmark, ?_, fun env henv => ?_⟩
    · rw [hc₁, hc₂]
      simp
    · rw [hc₁, hc₂]
      by_cases h0 : d.options.expirationInSeconds = 0
      · rw [hexp h0, hexp h0, he₁ h0, he₂ h0]
      · simp [h0, ht]
    · rw [hc₁, hexp h0]
      exact he₁ h0
    · rw [hc₁]
      cases hf : d.options.cache with
      | true => simp [hf]
      | false => rw [hcache hf, hm₁ hf]; rfl
    · rw [Call.visitsTree_remove_iff henv hk, Call.visitsTree_remove_iff henv hk, hmark]

/-- `/a` is set with an expiration in the empty store, and in one in which it had another. -/
theorem overwrite_expiration :
    let env := Env.reliable fun _ => 7
    let c : Call := .set ⟨[47, 97], [1], { expirationInSeconds := 100 }⟩
    let s₁ := Db.init 1
    let s₂ := c.next env (.plain false) s₁
    (s₂.columns.get .expiration [47, 97]).isSome ∧
      Replaced (.plain false) { expirationInSeconds := 100 } [47, 97] (c.next env (.plain false) s₁)
        (c.next env (.plain false) s₂) := by
  intro env c s₁ s₂
  refine ⟨by decide, (overwrite_iff env env (.plain false) s₁ s₂
    ⟨[47, 97], [1], { expirationInSeconds := 100 }⟩ c (.inl rfl) (by decide) (by decide) (by decide)
    rfl).2 ⟨⟨?_, ?_⟩, ?_, ?_⟩⟩
  all_goals decide

/-- **A write that does not replace the key.**  `/a` is set without an expiration, in the empty
store and in one in which it is a cache entry that expires: there it keeps its time stamp and its
marker, and the next `remove` does not go to the tree. -/
theorem overwrite_keeps :
    let env := Env.reliable fun _ => 7
    let s₁ := Db.init 1
    let s₂ := (Call.set ⟨[47, 97], [1], { expirationInSeconds := 100, cache := true }⟩).next env
      (.plain false) s₁
    let c : Call := .set ⟨[47, 97], [2], {}⟩
    c.answer env (.plain false) s₁ = .bool true ∧ c.answer env (.plain false) s₂ = .bool true ∧
      (c.next env (.plain false) s₁).columns.get .expiration [47, 97] = none ∧
      ((c.next env (.plain false) s₂).columns.get .expiration [47, 97]).isSome ∧
      ((c.next env (.plain false) s₂).columns.get .cache [47, 97]).isSome ∧
      ∀ x ∈ (Call.remove [47, 97]).storeCalls env (.plain false) (c.next env (.plain false) s₂),
        x.onTree = false := by
  decide

end ConfigDb
