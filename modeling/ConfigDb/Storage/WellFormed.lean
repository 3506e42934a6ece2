import ConfigDb.Storage.Items

/-!
# What the columns are made of

Invariants that hold in *every* environment, because every single write respects them: whatever
calls fail and wherever a call gives up, nothing else can be pending or committed.

* Keys start with a slash (`Rooted`): those of the columns `data`, `expiration` and `cache`, those
  that the entries of the `expiring` column name, and the paths of the `forrest` column, unless they
  are empty.
* The nodes of the `forrest` column are canonical: a node has children, and their names are strictly
  increasing in byte order (`Node.Canonical`).

A node is rewritten from what was read of it, so that a write is canonical only if the lookup before
it was; the programs are shown to rely on this (`Prog.Within`), and the store to provide it.

## Main results

* `Reach.wellFormed` : the columns are well formed in every state that calls reach.
* `tree_nodes_canonical` : so `list` answers with increasing names, and never with an empty vector.
-/

namespace ConfigDb

open Std Database

/-- The key starts with a slash. -/
def Rooted (k : Bytes) : Prop := ∃ r, k = slash :: r

/-- The node has children, and their names are strictly increasing in byte order. -/
structure Node.Canonical (node : Node) : Prop where
  nonempty : node.children ≠ []
  increasing : node.children.Pairwise fun a b => compare a b = .lt

/-- What a column may store under a key. -/
def Column.Fits : (c : Column) → Bytes → c.Value → Prop
  | .data, k, _ => Rooted k
  | .forrest, k, node => (k = [] ∨ Rooted k) ∧ node.Canonical
  | .expiration, k, _ => Rooted k
  | .expiring, _, k => Rooted k
  | .cache, k, _ => Rooted k

/-- Every entry of the columns fits its column. -/
def Store.WellFormed (v : Columns) : Prop := ∀ c k x, v.get c k = some x → c.Fits k x

/-- The call puts nothing into a column that does not fit. -/
def Op.PutsFit : DbOp → Prop
  | .store (.put c k x) => c.Fits k x
  | _ => True

/-- The answer is not an entry that does not fit its column. -/
def Op.AnswerFits : (e : DbOp) → Op.Res ProcOp.Res e → Prop
  | .store (.get c k), r => ∀ x, r = .ok x → c.Fits k x
  | .store (.read c k), r => ∀ x, r = .ok x → c.Fits k x
  | _, _ => True

/-- The committed columns are well formed, and nothing is pending that does not fit. -/
structure Db.WellFormed (s : Db) : Prop where
  committed : s.columns.WellFormed
  pending : ∀ c k x, .put c k x ∈ s.1.pending → c.Fits k x

/-! ### Writes -/

theorem Store.WellFormed.put {v : Columns} (h : v.WellFormed) {c : Column} {k : Bytes} {x : c.Value}
    (hx : c.Fits k x) : (v.put c k x).WellFormed := by
  intro c' k' x' hget
  by_cases hc : c' = c
  · subst hc
    rw [Store.get_put_same] at hget
    split_ifs at hget with hk
    · obtain rfl := Option.some.inj hget
      exact hk ▸ hx
    · exact h c' k' x' hget
  · rw [Store.get_put_of_ne _ hc] at hget
    exact h c' k' x' hget

theorem Store.WellFormed.delete {v : Columns} (h : v.WellFormed) (c : Column) (k : Bytes) :
    (v.delete c k).WellFormed := by
  intro c' k' x' hget
  by_cases hc : c' = c
  · subst hc
    rw [Store.get_delete_same] at hget
    split_ifs at hget
    exact h c' k' x' hget
  · rw [Store.get_delete_of_ne _ hc] at hget
    exact h c' k' x' hget

theorem Store.WellFormed.applyAll {v : Columns} (h : v.WellFormed)
    {ws : List (Write Bytes Column.Value)} (hws : ∀ c k x, .put c k x ∈ ws → c.Fits k x) :
    (v.applyAll ws).WellFormed := by
  induction ws generalizing v with
  | nil => exact h
  | cons w ws ih =>
    refine ih ?_ fun c k x hmem => hws c k x (List.mem_cons_of_mem _ hmem)
    cases w with
    | put c k x => exact h.put (hws c k x List.mem_cons_self)
    | delete c k => exact h.delete c k

theorem Db.WellFormed.view {s : Db} (h : s.WellFormed) : s.1.view.WellFormed :=
  h.committed.applyAll h.pending

theorem Store.wellFormed_empty : (Store.empty : Columns).WellFormed := by
  intro c k x h
  simp at h

theorem Store.WellFormed.answer {v : Columns} (h : v.WellFormed) {c : Column} {k : Bytes}
    {x : c.Value} {failed : Bool}
    (hx : (if failed then Reply.error else Reply.ofOption (v.get c k)) = .ok x) : c.Fits k x := by
  cases hg : v.get c k with
  | none => cases failed <;> simp [hg] at hx
  | some y =>
    cases failed with
    | true => simp at hx
    | false =>
      obtain rfl : y = x := by simpa [hg] using hx
      exact h c k y hg

/-- **One call** that puts nothing unfit keeps a store well formed, and is answered accordingly. -/
theorem Db.WellFormed.handle {env : Env} {s : Db} (h : s.WellFormed) (e : DbOp) (he : e.PutsFit) :
    e.AnswerFits (Op.handle (TxnOp.handle env.fails) (ProcOp.handle env) e s).1 ∧
      Db.WellFormed (Op.handle (TxnOp.handle env.fails) (ProcOp.handle env) e s).2 := by
  cases e with
  | own x => exact ⟨trivial, h.committed, h.pending⟩
  | store o =>
    cases o with
    | get c k => exact ⟨fun x hx => h.view.answer hx, h.committed, h.pending⟩
    | read c k => exact ⟨fun x hx => h.committed.answer hx, h.committed, h.pending⟩
    | put c k x =>
      refine ⟨trivial, ?_⟩
      simp only [Op.handle, TxnOp.handle]
      split
      · exact ⟨h.committed, h.pending⟩
      · refine ⟨h.committed, fun c' k' x' hmem => ?_⟩
        rcases List.mem_append.1 hmem with hmem | hmem
        · exact h.pending c' k' x' hmem
        · obtain ⟨rfl, rfl, hx⟩ := Write.put.inj (List.mem_singleton.1 hmem)
          exact eq_of_heq hx ▸ he
    | delete c k =>
      refine ⟨trivial, ?_⟩
      simp only [Op.handle, TxnOp.handle]
      split
      · exact ⟨h.committed, h.pending⟩
      · refine ⟨h.committed, fun c' k' x' hmem => ?_⟩
        rcases List.mem_append.1 hmem with hmem | hmem
        · exact h.pending c' k' x' hmem
        · simp at hmem
    | commit =>
      refine ⟨trivial, ?_⟩
      simp only [Op.handle, TxnOp.handle]
      split
      · exact ⟨h.committed, h.pending⟩
      · exact ⟨h.view, by simp⟩
    | rollback =>
      refine ⟨trivial, ?_⟩
      simp only [Op.handle, TxnOp.handle]
      split
      · exact ⟨h.committed, h.pending⟩
      · exact ⟨h.committed, by simp⟩
    | begin =>
      refine ⟨trivial, h.committed, fun _ _ _ hmem => ?_⟩
      simp [Op.handle, TxnOp.handle] at hmem
    | release =>
      refine ⟨trivial, h.committed, fun _ _ _ hmem => ?_⟩
      simp [Op.handle, TxnOp.handle] at hmem
    | _ => exact ⟨trivial, h.committed, h.pending⟩

/-! ### Keys and paths -/

theorem rooted_getKey (key : Bytes) : Rooted (getKey key) := by
  cases key with
  | nil => exact ⟨[], rfl⟩
  | cons b key =>
    by_cases hb : b = slash
    · exact ⟨key, by simp [getKey, hb]⟩
    · exact ⟨b :: key, by simp [getKey, hb]⟩

theorem Rooted.getKey {k : Bytes} (h : Rooted k) : getKey k = k := by
  obtain ⟨r, rfl⟩ := h
  simp [ConfigDb.getKey]

theorem Rooted.substr {k : Bytes} (h : Rooted k) (n : ℕ) :
    substr k 0 n = [] ∨ Rooted (substr k 0 n) := by
  obtain ⟨r, rfl⟩ := h
  unfold ConfigDb.substr
  cases min n ((slash :: r).length - 0) with
  | zero => exact .inl rfl
  | succ m => exact .inr ⟨r.take m, rfl⟩

theorem path_of_mem_treeComponents {k : Bytes} {t : Tuple} (ht : t ∈ treeComponents k) :
    ∃ n, t.1 = substr k 0 n := by
  have hone (i : ℕ) (ht : t ∈ treeComponent k i) : ∃ n, t.1 = substr k 0 n := by
    simp only [treeComponent] at ht
    split_ifs at ht <;> simp only [List.mem_singleton, List.not_mem_nil] at ht
    all_goals exact ⟨i, congrArg Prod.fst ht⟩
  have hloop (fuel i : ℕ) (ht : t ∈ treeComponentsLoop k fuel i) : ∃ n, t.1 = substr k 0 n := by
    induction fuel generalizing i with
    | zero => simp [treeComponentsLoop] at ht
    | succ fuel ih =>
      simp only [treeComponentsLoop] at ht
      split_ifs at ht
      · simp at ht
      · rcases List.mem_append.1 ht with ht | ht
        · exact hone _ ht
        · exact ih _ ht
  rcases List.mem_cons.1 ht with rfl | ht
  · exact ⟨1, rfl⟩
  · exact hloop _ _ ht

/-! ### Nodes -/

theorem Node.canonical_singleton (child : Bytes) : (⟨[child]⟩ : Node).Canonical :=
  ⟨by simp, by simp⟩

theorem Node.canonical_toList (set : ExtTreeSet Bytes) (child : Bytes) :
    (⟨(set.insert child).toList⟩ : Node).Canonical := by
  refine ⟨fun h => ?_, ExtTreeSet.ordered_toList⟩
  have hmem : child ∈ (set.insert child).toList := by simp
  simp [show (set.insert child).toList = [] from h] at hmem

theorem Node.Canonical.filter {node : Node} (h : node.Canonical) (p : Bytes → Bool)
    (hne : (node.children.filter p).isEmpty = false) :
    (⟨node.children.filter p⟩ : Node).Canonical :=
  ⟨by simpa using hne, h.increasing.filter p⟩

/-! ### Programs -/

/-- The program puts nothing unfit into the store, as long as the store answers with what fits. -/
abbrev Prog.KeepsForm {α : Type} (p : DbProg α) : Prop := p.Within Op.AnswerFits Op.PutsFit

section

variable (cfg : Config) {ks : Bytes}

theorem Op.Reads.putsFit : ∀ e : DbOp, e.Reads → e.PutsFit
  | .store o => by cases o <;> simp [Op.Reads, Op.PutsFit]
  | .own _ => fun _ => trivial

theorem keepsForm_of_reads {α : Type} {p : DbProg α} (hp : p.Only Op.Reads) : p.KeepsForm :=
  (hp.mono Op.Reads.putsFit).within

theorem addChild_keepsForm {path : Bytes} (hpath : path = [] ∨ Rooted path) (child : Bytes)
    (node : Node) : (addChild path child node).KeepsForm :=
  within_ite trivial (within_callStore ⟨hpath, Node.canonical_toList _ _⟩)

/-- Every node that is written has the children of the node that was read, and one more. -/
theorem manageTreeLoop_keepsForm {ts : List Tuple} (hts : ∀ t ∈ ts, t.1 = [] ∨ Rooted t.1) :
    (manageTreeLoop ts).KeepsForm := by
  induction ts with
  | nil => trivial
  | cons t ts ih =>
    rw [List.forall_mem_cons] at hts
    refine .call trivial fun r _ => ?_
    cases r with
    | ok node =>
      exact .bind (addChild_keepsForm hts.1 _ _) fun _ => within_ite trivial (ih hts.2)
    | notFound =>
      exact .bind (within_callStore ⟨hts.1, Node.canonical_singleton _⟩) fun _ =>
        within_ite trivial (ih hts.2)
    | error => trivial

theorem removeChildNode_keepsForm {path : Bytes} (hpath : path = [] ∨ Rooted path) (child : Bytes)
    {node : Node} (hnode : node.Canonical) : (removeChildNode path child node).KeepsForm := by
  simp only [removeChildNode]
  cases hvec : (node.children.filter fun item => child != item).isEmpty with
  | true =>
    exact .bind (within_callStore trivial) fun _ => within_ite trivial trivial
  | false =>
    exact .bind (within_callStore ⟨hpath, hnode.filter _ hvec⟩) fun _ =>
      within_ite trivial trivial

/-- A node that is written back without a child is canonical because the node that was read is. -/
theorem removeChildLoop_keepsForm {ts : List Tuple} (hts : ∀ t ∈ ts, t.1 = [] ∨ Rooted t.1) :
    (removeChildLoop ts).KeepsForm := by
  induction ts with
  | nil => trivial
  | cons t ts ih =>
    rw [List.forall_mem_cons] at hts
    refine .call trivial fun r hr => ?_
    cases r with
    | ok node =>
      have hnode : node.Canonical := (hr node rfl).2
      refine .bind (removeChildNode_keepsForm hts.1 _ hnode) fun _ =>
        within_ite trivial (within_ite trivial (.call trivial fun r _ => ?_))
      cases r with
      | ok _ => trivial
      | notFound => exact ih hts.2
      | error => exact ih hts.2
    | notFound => trivial
    | error => trivial

theorem Rooted.paths (hks : Rooted ks) : ∀ t ∈ treeComponents ks, t.1 = [] ∨ Rooted t.1 := by
  intro t ht
  obtain ⟨n, hn⟩ := path_of_mem_treeComponents ht
  rw [hn]
  exact hks.substr n

theorem rollback_keepsForm : rollback.KeepsForm :=
  .bind (within_callStore trivial) fun _ => trivial

theorem refused_keepsForm (opts : Options) (ks : Bytes) : (refused opts ks).KeepsForm := by
  refine within_ite trivial (.bind (within_callStore trivial) fun r => ?_)
  cases r <;> trivial

theorem setTxn_keepsForm (key value : Bytes) (opts : Options) :
    (setTxn cfg key value opts).KeepsForm := by
  have hks := rooted_getKey key
  have hexit : (do return ← rollback : DbProg Bool).KeepsForm :=
    .bind rollback_keepsForm fun _ => trivial
  have henter : (enterKey (getKey key) opts.cache).KeepsForm :=
    within_ite (within_callStore hks) (manageTreeLoop_keepsForm hks.paths)
  have hexpire : (setExpiration (getKey key) opts.expirationInSeconds).KeepsForm :=
    within_ite trivial <| .bind (within_callOwn trivial) fun _ =>
      .bind (within_callStore hks) fun _ => within_ite trivial <|
      .bind (within_callOwn trivial) fun _ => within_callStore hks
  exact .bind (within_callOwn trivial) fun _ => within_ite trivial <|
    .bind (refused_keepsForm _ _) fun _ => within_ite trivial <|
    .bind (within_callStore hks) fun _ => within_ite hexit <|
    .bind henter fun _ => within_ite hexit <|
    .bind hexpire fun _ => within_ite hexit <|
    .bind (keepsForm_of_reads (putValue_reads _ _ _)) fun _ => trivial

theorem removeTxn_keepsForm (key : Bytes) (b : Bool) : (removeTxn cfg key b).KeepsForm := by
  have hundo : (if b then rollback else return false : DbProg Bool).KeepsForm :=
    within_ite rollback_keepsForm trivial
  have hchild : (removeChild (getKey key)).KeepsForm :=
    removeChildLoop_keepsForm fun t ht => (rooted_getKey key).paths t (List.mem_reverse.1 ht)
  have hentry : (Database.removeEntry (getKey key)).KeepsForm := by
    refine .bind (within_callStore trivial) fun r => ?_
    cases r with
    | ok _ => exact .bind (within_callStore trivial) fun _ => trivial
    | notFound => exact hchild
    | error => exact hchild
  simp only [removeTxn]
  exact .bind (within_callStore trivial) fun _ => within_ite hundo <|
    .bind (within_callStore trivial) fun _ => within_ite hundo <|
    .bind hentry fun _ => within_ite hundo <|
    .bind (keepsForm_of_reads (eraseValue_reads _ _)) fun _ => trivial

theorem moveTxn_keepsForm (key dest : Bytes) (opts : Options) :
    (moveTxn cfg key dest opts).KeepsForm := by
  have hexit : (do return ← rollback : DbProg Bool).KeepsForm :=
    .bind rollback_keepsForm fun _ => trivial
  have hexp (ks : Bytes) : (moveExpiration opts ks).KeepsForm := by
    refine within_ite trivial (.bind (within_callStore trivial) fun r => ?_)
    cases r with
    | ok nsv => exact keepsForm_of_reads (parseTTL_only trivial nsv)
    | notFound => trivial
    | error => trivial
  refine .bind (within_callOwn trivial) fun _ => within_ite trivial <|
    .bind (refused_keepsForm _ _) fun _ => within_ite trivial <|
    .bind (within_callStore trivial) fun r => ?_
  cases r with
  | ok v =>
    exact .bind (within_callStore trivial) fun _ => .bind (hexp _) fun _ =>
      .bind (removeTxn_keepsForm cfg _ _) fun _ => within_ite hexit <|
      .bind (setTxn_keepsForm cfg _ _ _) fun _ => within_ite hexit trivial
  | notFound => trivial
  | error => trivial

theorem withTxn_keepsForm {work : DbProg Bool} (hw : work.KeepsForm) :
    (withMutex cfg true (withTxn work)).KeepsForm := by
  have hmutex (p : DbProg Unit) (hp : p.KeepsForm) : (ifMutex cfg p).KeepsForm :=
    within_ite hp trivial
  refine .bind (hmutex _ (within_callStore trivial)) fun _ => .bind ?_ fun _ =>
    .bind (hmutex _ (within_callStore trivial)) fun _ => trivial
  exact .bind (within_callStore trivial) fun _ => .bind hw fun _ =>
    .bind (within_ite (within_callStore trivial) trivial) fun _ =>
    .bind (within_callStore trivial) fun _ => trivial

theorem forAll_keepsForm {α : Type} {f : α → DbProg Bool} (hf : ∀ a, (f a).KeepsForm)
    (as : List α) : (forAll f as).KeepsForm := by
  induction as with
  | nil => trivial
  | cons a as ih => exact .bind (hf a) fun _ => within_ite trivial ih

theorem sweep_keepsForm (es : List (Bytes × Bytes)) : (sweep cfg es).KeepsForm := by
  induction es with
  | nil => trivial
  | cons e es ih =>
    have hexpire : (expireKey cfg e).KeepsForm :=
      .bind (removeTxn_keepsForm cfg _ _) fun _ =>
        within_ite (.bind (within_callStore trivial) fun _ => trivial) trivial
    exact .bind hexpire fun _ => .bind (within_callOwn trivial) fun _ => within_ite trivial ih

theorem collect_keepsForm (es : List (Bytes × Bytes)) : (collect es).KeepsForm := by
  induction es with
  | nil => trivial
  | cons e es ih =>
    exact .bind (within_callOwn trivial) fun _ => within_ite trivial (.bind ih fun _ => trivial)

theorem clearExpired_keepsForm : (clearExpired cfg).KeepsForm :=
  .bind (within_callOwn trivial) fun _ => .bind (within_callStore trivial) fun _ =>
    .bind (within_callOwn trivial) fun _ => .bind (within_callStore trivial) fun _ =>
    .bind (collect_keepsForm _) fun _ => .bind (within_callOwn trivial) fun _ =>
    within_ite (within_callStore trivial) <| .bind (sweep_keepsForm cfg _) fun _ =>
    .bind (within_callStore trivial) fun _ => within_callStore trivial

/-- **Every call** keeps the store well formed. -/
theorem Call.keepsForm (c : Call) : (c.prog cfg).KeepsForm := by
  cases c with
  | set d =>
    exact within_map _ <| within_ite trivial <| within_ite trivial <|
      withTxn_keepsForm cfg (setTxn_keepsForm cfg _ _ _)
  | remove key =>
    exact within_map _ <| within_ite trivial <| withTxn_keepsForm cfg (removeTxn_keepsForm cfg _ _)
  | move d =>
    exact within_map _ <| within_ite trivial <| within_ite trivial <|
      withTxn_keepsForm cfg (moveTxn_keepsForm cfg _ _ _)
  | setBatch kvs =>
    exact within_map _ <| withTxn_keepsForm cfg <|
      forAll_keepsForm (fun _ => setTxn_keepsForm cfg _ _ _) _
  | removeBatch keys =>
    exact within_map _ <| withTxn_keepsForm cfg <|
      forAll_keepsForm (fun _ => removeTxn_keepsForm cfg _ _) _
  | moveBatch kvs =>
    exact within_map _ <| withTxn_keepsForm cfg <|
      forAll_keepsForm (fun _ => moveTxn_keepsForm cfg _ _ _) _
  | clearExpired => exact within_map _ (clearExpired_keepsForm cfg)
  | get key => exact within_map _ (keepsForm_of_reads (get_reads cfg key))
  | ttl key => exact within_map _ (keepsForm_of_reads (ttl_reads cfg key))
  | list key => exact within_map _ (keepsForm_of_reads (list_reads cfg key))
  | getBatch keys => exact within_map _ (keepsForm_of_reads (getBatch_reads cfg keys))
  | ttlBatch keys => exact within_map _ (keepsForm_of_reads (ttlBatch_reads cfg keys))
  | listBatch keys => exact within_map _ (keepsForm_of_reads (listBatch_reads cfg keys))

end

/-! ### Whole runs -/

section

variable {env : Env} {cfg : Config} {s : Db}

theorem Call.next_wellFormed (h : s.WellFormed) (c : Call) : (c.next env cfg s).WellFormed :=
  (c.keepsForm cfg).run_invariant (I := Db.WellFormed) (fun e _ he ht => ht.handle e he) h

/-- **The columns are well formed in every state that calls reach**, whatever fails. -/
theorem Reach.wellFormed {Q : Db → Call → Prop} {n : ℕ} (h : Reach env cfg Q (Db.init n) s) :
    s.WellFormed := by
  induction h with
  | start => exact ⟨Store.wellFormed_empty, fun _ _ _ hmem => by simp [Db.init, Db.idle] at hmem⟩
  | call c _ _ ih => exact Call.next_wellFormed ih c

theorem Call.list_answer {key : Bytes} {l : List Bytes}
    (h : (Call.list key).answer env cfg s = .nodes (some l)) :
    ∃ path, s.columns.get .forrest path = some ⟨l⟩ := by
  simp only [Call.answer, Call.prog, exec_map, Answer.nodes.injEq, Database.list, exec_ite,
    exec_withMutex, exec_bind, exec_dbGet] at h
  split_ifs at h
  · simp at h
  · simp at h
  · refine ⟨getKey key, ?_⟩
    cases hg : s.columns.get .forrest (getKey key) with
    | none => simp [hg] at h
    | some node =>
      obtain rfl : node.children = l := by simpa [hg] using h
      rfl

theorem exec_multiGet_answer {c : Column} {keys : List Bytes} {r : Reply c.Value}
    (h : r ∈ (exec env (multiGet c keys) s).1) {x : c.Value} (hr : r = .ok x) :
    ∃ k, s.columns.get c k = some x := by
  induction keys generalizing s with
  | nil => simp [multiGet] at h
  | cons k keys ih =>
    simp only [multiGet, exec_bind, exec_dbGet, exec_pure, List.mem_cons] at h
    rcases h with h | h
    · refine ⟨k, ?_⟩
      rw [hr] at h
      split_ifs at h
      cases hg : s.columns.get c k with
      | none => simp [hg] at h
      | some y => simpa [hg, eq_comm] using h
    · exact ih (s := (s.1.tick, s.2)) h

theorem Call.listBatch_answer {keys : List Bytes} {ls : List (Bytes × Option (List Bytes))}
    (h : (Call.listBatch keys).answer env cfg s = .lists ls) {e : Bytes × Option (List Bytes)}
    (he : e ∈ ls) {l : List Bytes} (hl : e.2 = some l) :
    ∃ path, s.columns.get .forrest path = some ⟨l⟩ := by
  simp only [Call.answer, Call.prog, exec_map, Answer.lists.injEq, Database.listBatch,
    exec_withMutex, exec_bind, exec_pure] at h
  subst h
  obtain ⟨i, hi⟩ := List.mem_iff_getElem?.1 he
  rw [List.getElem?_zipWith_eq_some] at hi
  obtain ⟨k, r, -, hr, rfl⟩ := hi
  cases r with
  | ok node =>
    obtain rfl : node.children = l := by simpa using hl
    exact exec_multiGet_answer (List.mem_of_getElem? hr) rfl
  | notFound => simp at hl
  | error => simp at hl

end

/-- **Tree nodes are canonical.**  In every state that calls reach from the empty store, whatever
database calls fail, every node of the `forrest` column has children, with names strictly increasing
in byte order; so whatever `list` answers with is not empty and strictly increasing. -/
theorem tree_nodes_canonical (env : Env) (cfg : Config) (n : ℕ) (s : Db)
    (h : Reach env cfg (fun _ _ => True) (Db.init n) s) :
    (∀ path node, s.columns.get .forrest path = some node →
      node.children ≠ [] ∧ node.children.Pairwise fun a b => compare a b = .lt) ∧
    (∀ key l, (Call.list key).answer env cfg s = .nodes (some l) →
      l ≠ [] ∧ l.Pairwise fun a b => compare a b = .lt) ∧
    ∀ keys ls, (Call.listBatch keys).answer env cfg s = .lists ls → ∀ e ∈ ls, ∀ l, e.2 = some l →
      l ≠ [] ∧ l.Pairwise fun a b => compare a b = .lt := by
  have hnode (path : Bytes) (node : Node) (hg : s.columns.get .forrest path = some node) :
      node.children ≠ [] ∧ node.children.Pairwise fun a b => compare a b = .lt := by
    obtain ⟨-, hne, hinc⟩ := h.wellFormed.committed .forrest path node hg
    exact ⟨hne, hinc⟩
  refine ⟨hnode, fun key l hl => ?_, fun keys ls hls e he l hl => ?_⟩
  · obtain ⟨path, hpath⟩ := Call.list_answer hl
    exact hnode path ⟨l⟩ hpath
  · obtain ⟨path, hpath⟩ := Call.listBatch_answer hls he hl
    exact hnode path ⟨l⟩ hpath

/-- The children of `/`, set in the wrong order and one of them twice, are listed in order. -/
theorem tree_nodes_canonical_three :
    let env := Env.reliable fun _ => 0
    let s := runCalls env (.plain false) (Db.init 1)
      [.setBatch [⟨[98], [1], {}⟩, ⟨[97], [1], {}⟩], .set ⟨[47, 98], [2], {}⟩]
    s.columns.get .forrest [47] = some ⟨[[97], [98]]⟩ ∧
      ([[97], [98]] : List Bytes).Pairwise fun a b => compare a b = .lt := by
  intro env s
  have hs : s.columns.get .forrest [47] = some ⟨[[97], [98]]⟩ := by decide
  exact ⟨hs, ((tree_nodes_canonical env (.plain false) 1 s
    (.call _ (.call _ .start trivial) trivial)).1 _ _ hs).2⟩

end ConfigDb
