import ConfigDb.Storage.Nodes
import ConfigDb.Storage.WellFormed

/-!
# The tree and the order of insertion

Setting a key as a plain entry puts the pairs of `treeComponents` into the tree.  The nodes are kept
sorted and without repetition, so the `forrest` column is determined by the set of these pairs, and
neither the order of the keys nor the way they are split into batches matters.

## Main definitions

* `Store.TreeOf` : the tree has the pairs of some keys, and no others.
* `Call.SetsPlain`, `Call.setKeys` : calls that set plain entries, and their keys.

## Main results

* `Store.forrest_ext` : the column is determined by the pairs.
* `tree_order_independent` : the column after a run that sets plain entries.
-/

namespace ConfigDb

open Std

/-- The tree has the pairs of the keys, and no others; its nodes are sorted and not empty. -/
structure Store.TreeOf (v : Columns) (keys : List Bytes) : Prop where
  /-- A child is stored exactly if it belongs to a key. -/
  stored : ∀ path c, c ∈ v.children path ↔ ∃ key ∈ keys, (path, c) ∈ treeComponents (getKey key)
  /-- The children of a node are strictly increasing, and there is one. -/
  nodes : ∀ path node, v.get .forrest path = some node → node.Canonical

/-- The entry is to be stored whether the key is there or not, and in the tree. -/
def RequestData.Plain (d : RequestData) : Prop :=
  d.key ≠ [] ∧ d.options.cache = false ∧ d.options.ifNotExists = false

/-- The call sets plain entries. -/
def Call.SetsPlain : Call → Prop
  | .set d => d.Plain
  | .setBatch kvs => ∀ d ∈ kvs, d.Plain
  | _ => False

/-- The keys that the call sets. -/
def Call.setKeys : Call → List Bytes
  | .set d => [d.key]
  | .setBatch kvs => kvs.map RequestData.key
  | _ => []

/-! ### The column is determined by its pairs -/

theorem Node.Canonical.ext {a b : Node} (ha : a.Canonical) (hb : b.Canonical)
    (h : ∀ c, c ∈ a.children ↔ c ∈ b.children) : a = b := by
  have hnodup {n : Node} (hn : n.Canonical) : n.children.Nodup := by
    refine hn.increasing.imp fun {x y} hxy => ?_
    rintro rfl
    simp [ReflCmp.compare_self] at hxy
  have hperm : a.children.Perm b.children :=
    (List.perm_ext_iff_of_nodup (hnodup ha) (hnodup hb)).2 h
  have hlist : a.children = b.children := by
    refine hperm.eq_of_pairwise (fun x y _ _ hxy hyx => ?_) ha.increasing hb.increasing
    have hlt : compare x y = (compare y x).swap := OrientedCmp.eq_swap
    rw [hlt, hyx] at hxy
    simp at hxy
  cases a
  cases b
  exact congrArg Node.mk hlist

/-- **The `forrest` column is determined by the pairs** that it stores. -/
theorem Store.forrest_ext {v w : Columns}
    (hv : ∀ path node, v.get .forrest path = some node → node.Canonical)
    (hw : ∀ path node, w.get .forrest path = some node → node.Canonical)
    (h : ∀ path c, c ∈ v.children path ↔ c ∈ w.children path) : v .forrest = w .forrest := by
  refine Store.ext_col fun path => ?_
  have hpath := h path
  unfold Store.children at hpath
  cases hn : v.get .forrest path with
  | none =>
    cases hm : w.get .forrest path with
    | none => rfl
    | some node =>
      obtain ⟨c, hc⟩ := List.exists_mem_of_ne_nil _ (hw path node hm).nonempty
      simp only [hn, hm] at hpath
      exact absurd ((hpath c).2 hc) (by simp)
  | some node =>
    cases hm : w.get .forrest path with
    | none =>
      obtain ⟨c, hc⟩ := List.exists_mem_of_ne_nil _ (hv path node hn).nonempty
      simp only [hn, hm] at hpath
      exact absurd ((hpath c).1 hc) (by simp)
    | some node' =>
      simp only [hn, hm] at hpath
      rw [(hv path node hn).ext (hw path node' hm) hpath]

theorem Store.TreeOf.forrest_eq {v w : Columns} {keys keys' : List Bytes} (hv : v.TreeOf keys)
    (hw : w.TreeOf keys') (h : ∀ path c, (∃ key ∈ keys, (path, c) ∈ treeComponents (getKey key)) ↔
      ∃ key ∈ keys', (path, c) ∈ treeComponents (getKey key)) : v .forrest = w .forrest :=
  forrest_ext hv.nodes hw.nodes fun path c => by rw [hv.stored, hw.stored, h]

theorem Store.TreeOf.congr {v : Columns} {keys keys' : List Bytes} (h : v.TreeOf keys)
    (hk : ∀ key, key ∈ keys ↔ key ∈ keys') : v.TreeOf keys' where
  stored path c := by simp only [h.stored, hk]
  nodes := h.nodes

/-! ### What a call adds -/

/-- The action puts the key `ks` in as a plain entry. -/
def Action.Puts (ks : Bytes) (a : Action) : Prop :=
  ∃ value opts t t1, a = .put ks value opts t t1 ∧ opts.cache = false

section

variable {env : Env} {cfg : Config} {cm v : Columns}

theorem Store.mem_children_act {ks : Bytes} {a : Action} (ha : a.Puts ks) (path c : Bytes) :
    c ∈ (Store.act cfg cm v a).children path ↔
      c ∈ v.children path ∨ (path, c) ∈ treeComponents ks := by
  obtain ⟨value, opts, t, t1, rfl, hc⟩ := ha
  rw [Store.act, children_congr (setEntry_forrest_of_plain hc t t1), mem_children_link,
    children_congr (put_of_ne v (by decide) _ _)]

theorem Store.mem_children_actAll {kvs : List RequestData} {as : List Action}
    (h : List.Forall₂ (fun d a => Action.Puts (getKey d.key) a) kvs as) (path c : Bytes) :
    c ∈ (Store.actAll cfg cm v as).children path ↔
      c ∈ v.children path ∨ ∃ d ∈ kvs, (path, c) ∈ treeComponents (getKey d.key) := by
  induction h generalizing v with
  | nil => simp [Store.actAll]
  | @cons d a kvs as ha _ ih =>
    change c ∈ (Store.actAll cfg cm (Store.act cfg cm v a) as).children path ↔ _
    rw [ih, Store.mem_children_act ha, List.exists_mem_cons_iff, or_assoc]

theorem itemActions_plain (env : Env) (cfg : Config) {kvs : List RequestData}
    (h : ∀ d ∈ kvs, d.Plain) (s : IdealDb) : ∃ as, itemActions env cfg (kvs.map .set) s = some as ∧
      List.Forall₂ (fun d a => Action.Puts (getKey d.key) a) kvs as := by
  induction kvs generalizing s with
  | nil => exact ⟨[], rfl, .nil⟩
  | cons d kvs ih =>
    rw [List.forall_mem_cons] at h
    obtain ⟨bs, hbs, hputs⟩ := ih h.2 (Item.step env cfg s (.set d)).2
    have ha : (Item.set d).actions env cfg s =
        some [putAction env s.2 (getKey d.key) d.value d.options] := by
      simp [Item.actions, h.1.2.2]
    refine ⟨putAction env s.2 (getKey d.key) d.value d.options :: bs, ?_, .cons ?_ hputs⟩
    · simp [itemActions, ha, hbs]
    · exact ⟨d.value, d.options, _, _, rfl, h.1.2.1⟩

/-- **A call that sets plain entries** adds the pairs of its keys to the tree.  (A single `set` of a
plain entry enters its transaction.) -/
theorem Call.mem_children_next (henv : env.Reliable) {c : Call} (hc : c.SetsPlain) (s : Db)
    (path b : Bytes) : b ∈ (c.next env cfg s).columns.children path ↔
      b ∈ s.columns.children path ∨ ∃ key ∈ c.setKeys, (path, b) ∈ treeComponents (getKey key) := by
  have hnext (kvs : List RequestData) (hk : ∀ d ∈ kvs, d.Plain)
      (hi : c.items env s = kvs.map .set) :
      b ∈ (c.next env cfg s).columns.children path ↔ b ∈ s.columns.children path ∨
        ∃ d ∈ kvs, (path, b) ∈ treeComponents (getKey d.key) := by
    obtain ⟨as, has, hputs⟩ := itemActions_plain env cfg hk (c.start env s)
    rw [Call.next_columns henv, Call.actions, hi, has]
    exact Store.mem_children_actAll hputs path b
  cases c with
  | set d =>
    have hd : d.Plain := hc
    have hen : (Call.set d).enters = true := by simp [Call.enters, hd.1, hd.2.1]
    rw [hnext [d] (by simpa using hd) (by rw [Call.items, if_pos hen]; rfl)]
    simp [Call.setKeys]
  | setBatch kvs =>
    rw [hnext kvs hc (by rw [Call.items]; rfl)]
    simp [Call.setKeys]
  | _ => exact hc.elim

variable (cfg) in
/-- **After a run that sets plain entries** the tree has the pairs of the keys that have been set,
in addition to those that it had. -/
theorem mem_children_runCalls (henv : env.Reliable) {cs : List Call} (hcs : ∀ c ∈ cs, c.SetsPlain)
    (s : Db) (path b : Bytes) : b ∈ (runCalls env cfg s cs).columns.children path ↔
      b ∈ s.columns.children path ∨
        ∃ key ∈ cs.flatMap Call.setKeys, (path, b) ∈ treeComponents (getKey key) := by
  induction cs generalizing s with
  | nil => simp [runCalls]
  | cons c cs ih =>
    rw [List.forall_mem_cons] at hcs
    change b ∈ (runCalls env cfg (c.next env cfg s) cs).columns.children path ↔ _
    rw [ih hcs.2, Call.mem_children_next henv hcs.1, List.flatMap_cons, or_assoc]
    simp only [List.mem_append, or_and_right, exists_or]

theorem runCalls_wellFormed (cs : List Call) {s : Db} (h : s.WellFormed) :
    (runCalls env cfg s cs).WellFormed := by
  induction cs generalizing s with
  | nil => exact h
  | cons c cs ih => exact ih (Call.next_wellFormed h c)

theorem treeOf_runCalls (henv : env.Reliable) (n : ℕ) {cs : List Call}
    (hcs : ∀ c ∈ cs, c.SetsPlain) :
    (runCalls env cfg (Db.init n) cs).columns.TreeOf (cs.flatMap Call.setKeys) where
  stored path c := by
    rw [mem_children_runCalls cfg henv hcs]
    simp [Store.children]
  nodes path node hn :=
    ((runCalls_wellFormed cs (Reach.wellFormed (.start : Reach env cfg (fun _ _ => True)
      (Db.init n) (Db.init n)))).committed .forrest path node hn).2

end

/-- **The tree does not depend on the order of insertion.**  After any run of calls that set plain
entries, from the empty store, the tree has the pairs of the keys that have been set.  Hence any
other run that sets the same keys leaves the same column, however it is ordered, repeats them or
splits them into batches; setting a key again changes nothing, and sets of two keys commute. -/
theorem tree_order_independent (env : Env) (henv : env.Reliable) (cfg : Config) (n : ℕ)
    (cs : List Call) (hcs : ∀ c ∈ cs, c.SetsPlain) :
    (runCalls env cfg (Db.init n) cs).columns.TreeOf (cs.flatMap Call.setKeys) ∧
      (∀ cs' : List Call, (∀ c ∈ cs', c.SetsPlain) →
        (∀ key, key ∈ cs'.flatMap Call.setKeys ↔ key ∈ cs.flatMap Call.setKeys) →
        (runCalls env cfg (Db.init n) cs').columns .forrest =
          (runCalls env cfg (Db.init n) cs).columns .forrest) ∧
      (∀ d : RequestData, d.Plain → d.key ∈ cs.flatMap Call.setKeys →
        (runCalls env cfg (Db.init n) (cs ++ [.set d])).columns .forrest =
          (runCalls env cfg (Db.init n) cs).columns .forrest) ∧
      ∀ d d' : RequestData, d.Plain → d'.Plain →
        (runCalls env cfg (Db.init n) (cs ++ [.set d, .set d'])).columns .forrest =
          (runCalls env cfg (Db.init n) (cs ++ [.set d', .set d])).columns .forrest := by
  have hsame {as bs : List Call} (has : ∀ c ∈ as, c.SetsPlain) (hbs : ∀ c ∈ bs, c.SetsPlain)
      (h : ∀ key, key ∈ as.flatMap Call.setKeys ↔ key ∈ bs.flatMap Call.setKeys) :
      (runCalls env cfg (Db.init n) as).columns .forrest =
        (runCalls env cfg (Db.init n) bs).columns .forrest :=
    (treeOf_runCalls henv n has).forrest_eq (treeOf_runCalls henv n hbs)
      fun path c => by simp only [h]
  have happend {ds : List Call} (hds : ∀ c ∈ ds, c.SetsPlain) : ∀ c ∈ cs ++ ds, c.SetsPlain :=
    fun c hc => (List.mem_append.1 hc).elim (hcs c) (hds c)
  refine ⟨treeOf_runCalls henv n hcs, fun cs' hcs' h => hsame hcs' hcs h, fun d hd hkey => ?_,
    fun d d' hd hd' => ?_⟩
  · refine hsame (happend (List.forall_mem_singleton.2 hd)) hcs fun key => ?_
    rw [List.flatMap_append, List.mem_append, or_iff_left_iff_imp]
    intro hk
    obtain rfl : key = d.key := by simpa [Call.setKeys] using hk
    exact hkey
  · refine hsame (happend ?_) (happend ?_) fun key => ?_
    · exact List.forall_mem_cons.2 ⟨hd, List.forall_mem_singleton.2 hd'⟩
    · exact List.forall_mem_cons.2 ⟨hd', List.forall_mem_singleton.2 hd⟩
    · simp [Call.setKeys, or_comm]

/-- `/a/b` and `//` are set in one batch, and in two calls in the other order. -/
theorem tree_order_independent_split :
    let env := Env.reliable fun _ => 0
    let d : RequestData := ⟨[47, 97, 47, 98], [1], {}⟩
    let d' : RequestData := ⟨[47, 47], [2], {}⟩
    (runCalls env (.plain false) (Db.init 1) [.set d', .set d]).columns .forrest =
        (runCalls env (.plain false) (Db.init 1) [.setBatch [d, d']]).columns .forrest ∧
      (runCalls env (.plain false) (Db.init 1) [.setBatch [d, d']]).columns.children [47] =
        [[], [97]] := by
  intro env d d'
  have hd : d.Plain := by simp [RequestData.Plain, d]
  have hd' : d'.Plain := by simp [RequestData.Plain, d']
  have hbatch : ∀ c ∈ [Call.setBatch [d, d']], c.SetsPlain :=
    List.forall_mem_singleton.2 (List.forall_mem_cons.2 ⟨hd, List.forall_mem_singleton.2 hd'⟩)
  have htwo : ∀ c ∈ [Call.set d', Call.set d], c.SetsPlain :=
    List.forall_mem_cons.2 ⟨hd', List.forall_mem_singleton.2 hd⟩
  refine ⟨(tree_order_independent env (Env.reliable_reliable _) (.plain false) 1 _ hbatch).2.1
    [.set d', .set d] htwo fun key => ?_, by decide⟩
  simp [Call.setKeys, or_comm]

end ConfigDb
