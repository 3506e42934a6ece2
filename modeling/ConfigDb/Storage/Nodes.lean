import ConfigDb.Tree.Forest
import ConfigDb.Storage.Components
import ConfigDb.Storage.Items

/-!
# The tree as a forest

The `forrest` column, read as a `Forest` over the names of components, and what the actions of
`ConfigDb.Storage.Items` do to it: on canonical keys, `Store.link` is `Forest.link` and
`Store.unlink` is `Forest.prune`.
-/

namespace ConfigDb

open Std

namespace Store

/-- The children stored for a path. -/
def children (v : Columns) (path : Bytes) : List Bytes :=
  match v.get .forrest path with
  | some node => node.children
  | none => []

/-- The `forrest` column as a forest. -/
def forest (v : Columns) : Forest Name := fun p => {c | c.1 ∈ v.children (nodeKey p)}

/-- The paths of the live keys. -/
def live (v : Columns) : Set (List Name) := {p | (v.get .data (pathKey p)).isSome}

/-- The nodes of the tree are those of canonical paths, and not empty. -/
structure Tidy (v : Columns) : Prop where
  nonempty : ∀ path node, v.get .forrest path = some node → node.children ≠ []
  path : ∀ path node, v.get .forrest path = some node → ∃ p, path = nodeKey p
  name : ∀ path c, c ∈ v.children path → ∃ n : Name, n.1 = c

section

variable {v w : Columns}

theorem mem_forest {c : Name} {p : List Name} : c ∈ v.forest p ↔ c.1 ∈ v.children (nodeKey p) :=
  Iff.rfl

theorem children_congr (h : v .forrest = w .forrest) : v.children = w.children := by
  funext path
  have hg : v.get .forrest path = w.get .forrest path := by rw [get, get, h]
  rw [children, children, hg]

theorem forest_congr (h : v .forrest = w .forrest) : v.forest = w.forest := by
  unfold forest
  rw [children_congr h]

theorem Tidy.congr (hv : v.Tidy) (h : v .forrest = w .forrest) : w.Tidy where
  nonempty path node hn := hv.nonempty path node (by rw [get, h]; exact hn)
  path path node hn := hv.path path node (by rw [get, h]; exact hn)
  name path c hc := hv.name path c (by rw [children_congr h]; exact hc)

theorem tidy_empty : Tidy (Store.empty : Columns) where
  nonempty path node h := by simp at h
  path path node h := by simp at h
  name path c h := by simp [children] at h

theorem Tidy.forest_nonempty (hv : v.Tidy) {p : List Name} {node : Node}
    (h : v.get .forrest (nodeKey p) = some node) : (v.forest p).Nonempty := by
  obtain ⟨c, hc⟩ := List.exists_mem_of_ne_nil _ (hv.nonempty _ _ h)
  have hm : c ∈ v.children (nodeKey p) := by simpa [children, h] using hc
  obtain ⟨n, rfl⟩ := hv.name _ _ hm
  exact ⟨n, hm⟩

/-! ### Adding children -/

theorem get_addLink_of_ne (t : Tuple) {path : Bytes} (h : t.1 ≠ path) :
    (v.addLink t).get .forrest path = v.get .forrest path := by
  unfold addLink
  split
  · split
    · rfl
    · simp [h]
  · simp [h]

theorem mem_children_addLink (t : Tuple) (path c : Bytes) :
    c ∈ (v.addLink t).children path ↔ c ∈ v.children path ∨ (path, c) = t := by
  obtain ⟨p, d⟩ := t
  by_cases hp : p = path
  · subst hp
    simp only [children, addLink, Prod.mk.injEq, true_and]
    cases hn : v.get .forrest p with
    | none => simp
    | some node =>
      simp only
      split_ifs with hc
      · rw [hn]
        simp only [ExtTreeSet.contains_ofList, List.contains_eq_mem, decide_eq_true_eq] at hc
        exact ⟨.inl, fun h => h.elim id fun h => h ▸ hc⟩
      · simp [or_comm, @eq_comm _ d c]
  · have hne : (path, c) ≠ (p, d) := fun h => hp (congrArg Prod.fst h).symm
    simp only [children, get_addLink_of_ne (p, d) hp, hne, or_false]

theorem mem_children_link (ts : List Tuple) (path c : Bytes) :
    c ∈ (v.link ts).children path ↔ c ∈ v.children path ∨ (path, c) ∈ ts := by
  induction ts generalizing v with
  | nil => simp [link]
  | cons t ts ih =>
    change c ∈ ((v.addLink t).link ts).children path ↔ _
    rw [ih, mem_children_addLink, List.mem_cons, or_assoc]

theorem mem_upLinks {c : Name} {p k : List Name} : (nodeKey p, c.1) ∈ upLinks k ↔ c :: p <:+ k := by
  induction k with
  | nil => simp [upLinks]
  | cons d q ih =>
    rw [upLinks, List.mem_cons, ih, List.suffix_cons_iff, Prod.mk.injEq, List.cons.injEq]
    have h₁ : nodeKey p = nodeKey q ↔ p = q := nodeKey_injective.eq_iff
    have h₂ : c.1 = d.1 ↔ c = d := Subtype.ext_iff.symm
    rw [h₁, h₂, and_comm]

/-- **Linking a canonical key** links its path in the forest. -/
theorem forest_link {c : Name} {p : List Name} (hl : (pathKey (c :: p)).length < npos) :
    (v.link (treeComponents (pathKey (c :: p)))).forest = v.forest.link (c :: p) := by
  funext q
  ext d
  rw [mem_forest, mem_children_link, treeComponents_pathKey hl, List.mem_reverse, mem_upLinks]
  rfl

theorem addLink_ne_nil (t : Tuple) (hv : ∀ path node, v.get .forrest path = some node →
    node.children ≠ []) : ∀ path node, (v.addLink t).get .forrest path = some node →
      node.children ≠ [] := by
  intro path node hn hc
  by_cases ht : t.1 = path
  · -- the node of the pair itself has at least its child
    have hm : t.2 ∈ (v.addLink t).children path :=
      (mem_children_addLink _ _ _).2 (.inr (by simp [← ht]))
    simp [children, hn, hc] at hm
  · rw [get_addLink_of_ne t ht] at hn
    exact hv path node hn hc

/-- Linking a canonical key keeps the tree tidy. -/
theorem Tidy.link (hv : v.Tidy) {c : Name} {p : List Name}
    (hl : (pathKey (c :: p)).length < npos) :
    (v.link (treeComponents (pathKey (c :: p)))).Tidy := by
  rw [treeComponents_pathKey hl]
  have hu : ∀ t ∈ (upLinks (c :: p)).reverse, (∃ q, t.1 = nodeKey q) ∧ ∃ n : Name, n.1 = t.2 := by
    intro t ht
    rw [List.mem_reverse] at ht
    generalize c :: p = k at ht
    induction k with
    | nil => simp [upLinks] at ht
    | cons d q ih =>
      rw [upLinks, List.mem_cons] at ht
      obtain rfl | ht := ht
      · exact ⟨⟨q, rfl⟩, ⟨d, rfl⟩⟩
      · exact ih ht
  generalize (upLinks (c :: p)).reverse = ts at hu
  induction ts generalizing v with
  | nil => exact hv
  | cons t ts ih =>
    rw [List.forall_mem_cons] at hu
    refine ih ⟨addLink_ne_nil t hv.nonempty, ?_, ?_⟩ hu.2
    · intro path node hn
      by_cases ht : t.1 = path
      · exact ht ▸ hu.1.1
      · exact hv.path path node (by rwa [get_addLink_of_ne t ht] at hn)
    · intro path d hd
      obtain hd | hd := (mem_children_addLink _ _ _).1 hd
      · exact hv.name path d hd
      · obtain ⟨n, hn⟩ := hu.1.2
        exact ⟨n, by rw [hn, ← hd]⟩

/-! ### Taking children out -/

/-- Take one child out of a node, and the node too if no other child is left. -/
def dropChild (v : Columns) (path child : Bytes) (node : Node) : Columns :=
  if (node.children.filter fun item => child != item).isEmpty then v.delete .forrest path
  else v.put .forrest path ⟨node.children.filter fun item => child != item⟩

variable {path child : Bytes} {node : Node}

theorem get_dropChild_of_ne {path' : Bytes} (h : path ≠ path') :
    (v.dropChild path child node).get .forrest path' = v.get .forrest path' := by
  unfold dropChild
  split <;> simp [h]

theorem get_dropChild_same : (v.dropChild path child node).get .forrest path =
    if (node.children.filter fun item => child != item).isEmpty then none
    else some ⟨node.children.filter fun item => child != item⟩ := by
  unfold dropChild
  split <;> simp

theorem get_dropChild_data (k : Bytes) :
    (v.dropChild path child node).get .data k = v.get .data k := by
  unfold dropChild
  split <;> simp

theorem mem_children_dropChild (hn : v.get .forrest path = some node) (path' d : Bytes) :
    d ∈ (v.dropChild path child node).children path' ↔
      d ∈ v.children path' ∧ (d = child → path' ≠ path) := by
  by_cases hp : path = path'
  · subst hp
    have hm : d ∈ (v.dropChild path child node).children path ↔
        d ∈ node.children.filter fun item => child != item := by
      rw [children, get_dropChild_same]
      split_ifs with he
      · rw [List.isEmpty_iff] at he
        simp [he]
      · rfl
    rw [hm]
    simp [children, hn, @eq_comm _ child d]
  · rw [children, get_dropChild_of_ne hp]
    simp [children, Ne.symm hp]

theorem forest_dropChild {c : Name} {p : List Name} (hn : v.get .forrest (nodeKey p) = some node) :
    (v.dropChild (nodeKey p) c.1 node).forest = v.forest.cut c p := by
  funext q
  ext d
  rw [mem_forest, mem_children_dropChild hn, Forest.mem_cut, mem_forest, nodeKey_injective.ne_iff,
    ← Subtype.ext_iff]

theorem Tidy.dropChild (hv : v.Tidy) (hn : v.get .forrest path = some node) :
    (v.dropChild path child node).Tidy where
  nonempty path' node' h := by
    by_cases hp : path = path'
    · subst hp
      rw [get_dropChild_same] at h
      split_ifs at h with he
      obtain rfl := Option.some.inj h
      simpa using he
    · exact hv.nonempty path' node' (by rwa [get_dropChild_of_ne hp] at h)
  path path' node' h := by
    by_cases hp : path = path'
    · exact hp ▸ hv.path path node hn
    · exact hv.path path' node' (by rwa [get_dropChild_of_ne hp] at h)
  name path' c h := hv.name path' c ((mem_children_dropChild hn _ _).1 h).1

theorem live_dropChild : (v.dropChild path child node).live = v.live := by
  simp only [live, get_dropChild_data]

theorem unlink_cons (ts : List Tuple) : v.unlink ((path, child) :: ts) =
    match v.get .forrest path with
    | none => v
    | some node =>
      if (node.children.filter fun item => child != item).isEmpty ∧ v.get .data path = none then
        (v.dropChild path child node).unlink ts
      else v.dropChild path child node := by
  rw [unlink]
  cases v.get .forrest path with
  | none => rfl
  | some node =>
    simp only [dropChild]
    by_cases he : (node.children.filter fun item => child != item).isEmpty = true
    · cases hd : v.get .data path <;> simp [he]
    · simp [he]

/-- **Taking a canonical path out** prunes it in the forest, and keeps the tree tidy. -/
theorem unlink_upLinks (hv : v.Tidy) (k : List Name) :
    (v.unlink (upLinks k)).forest = Forest.prune v.live k v.forest ∧
      (v.unlink (upLinks k)).Tidy := by
  induction k generalizing v with
  | nil => exact ⟨rfl, hv⟩
  | cons c p ih =>
    rw [upLinks, unlink_cons, Forest.prune]
    cases hn : v.get .forrest (nodeKey p) with
    | none =>
      have he : ¬ (v.forest p).Nonempty := by
        rintro ⟨d, hd⟩
        simp [mem_forest, children, hn] at hd
      exact ⟨(if_neg he).symm, hv⟩
    | some node =>
      have hcut := forest_dropChild (c := c) hn
      have htidy : (v.dropChild (nodeKey p) c.1 node).Tidy := hv.dropChild hn
      have hempty : (v.forest.cut c p p).Nonempty ↔
          ¬ (node.children.filter fun item => c.1 != item).isEmpty = true := by
        rw [← hcut]
        constructor
        · rintro ⟨d, hd⟩ he
          simp [mem_forest, children, get_dropChild_same, he] at hd
        · intro he
          exact htidy.forest_nonempty (by rw [get_dropChild_same, if_neg he])
      rw [if_pos (hv.forest_nonempty hn)]
      simp only
      cases p with
      | nil =>
        -- above the root there is nothing left to prune
        have hu : ∀ w : Columns, w.unlink (upLinks []) = w := fun _ => rfl
        have hp : Forest.prune v.live [] (v.forest.cut c []) = v.forest.cut c [] := rfl
        simp only [hu, hp, ite_self]
        exact ⟨hcut, htidy⟩
      | cons d q =>
        have hd : d :: q ∈ v.live ↔ ¬ v.get .data (nodeKey (d :: q)) = none := by
          simp [live, nodeKey_cons, Option.isSome_iff_ne_none]
        split_ifs with h₁ h₂ h₃
        · exact absurd h₂ (by rw [hempty, hd]; tauto)
        · have := ih htidy
          rwa [live_dropChild, hcut] at this
        · exact ⟨hcut, htidy⟩
        · exact absurd h₃ (by rw [hempty, hd]; tauto)

/-! ### Actions -/

section

variable {cfg : Config} {k : List Name}

theorem mem_live : k ∈ v.live ↔ (v.get .data (pathKey k)).isSome := Iff.rfl

theorem live_setEntry (k : List Name) (value : Bytes) (opts : Options) (t t1 : ℕ) :
    (v.setEntry cfg (pathKey k) value opts t t1).live = insert k v.live := by
  ext q
  rw [mem_live, setEntry_data, Set.mem_insert_iff, mem_live]
  by_cases hq : pathKey k = pathKey q
  · simp [pathKey_injective hq]
  · have hne : q ≠ k := fun h => hq (by rw [h])
    simp [hq, hne]

theorem live_removeEntry (k : List Name) (b : Bool) :
    (v.removeEntry (pathKey k) b).live = v.live \ {k} := by
  ext q
  rw [mem_live, removeEntry_data, Set.mem_sdiff, Set.mem_singleton_iff, mem_live]
  by_cases hq : pathKey k = pathKey q
  · simp [pathKey_injective hq]
  · have hne : q ≠ k := fun h => hq (by rw [h])
    simp [hq, hne]

theorem setEntry_forrest_of_cache {ks value : Bytes} {opts : Options} (hc : opts.cache = true)
    (t t1 : ℕ) : v.setEntry cfg ks value opts t t1 .forrest = v .forrest := by
  simp [hc]

theorem setEntry_forrest_of_plain {ks value : Bytes} {opts : Options} (hc : opts.cache = false)
    (t t1 : ℕ) : v.setEntry cfg ks value opts t t1 .forrest =
      (v.put .data ks (cfg.cipher.encrypt value)).link (treeComponents ks) .forrest := by
  simp [hc]

theorem forest_setEntry {c : Name} {p : List Name} (hl : (pathKey (c :: p)).length < npos)
    (value : Bytes) (opts : Options) (t t1 : ℕ) :
    (v.setEntry cfg (pathKey (c :: p)) value opts t t1).forest =
      if opts.cache then v.forest else v.forest.link (c :: p) := by
  cases hc : opts.cache with
  | true => exact forest_congr (setEntry_forrest_of_cache hc t t1)
  | false =>
    rw [forest_congr (setEntry_forrest_of_plain hc t t1), forest_link hl,
      forest_congr (put_of_ne v (by decide) _ _)]
    rfl

/-- Dropping a canonical key prunes its path, unless it is a committed cache entry. -/
theorem forest_removeEntry (hv : v.Tidy) {c : Name} {p : List Name}
    (hl : (pathKey (c :: p)).length < npos) (b : Bool) :
    (v.removeEntry (pathKey (c :: p)) b).forest =
      if b then v.forest else Forest.prune (v.live \ {c :: p}) (c :: p) v.forest := by
  cases b with
  | true =>
    exact forest_congr (by rw [removeEntry_forrest, if_pos rfl])
  | false =>
    have hcol : ((v.delete .data (pathKey (c :: p))).delete .expiration (pathKey (c :: p)))
        .forrest = v .forrest := by
      rw [delete_of_ne _ (by decide), delete_of_ne _ (by decide)]
    have hlive : ((v.delete .data (pathKey (c :: p))).delete .expiration (pathKey (c :: p))).live =
        v.live \ {c :: p} := by
      rw [← live_removeEntry (c :: p) true]
      ext q
      simp [mem_live]
    have h := (unlink_upLinks (hv.congr hcol.symm) (c :: p)).1
    rw [forest_congr hcol, hlive] at h
    rw [← h, ← List.reverse_reverse (upLinks (c :: p)), ← treeComponents_pathKey hl]
    exact forest_congr (by rw [removeEntry_forrest, if_neg (by simp)])

theorem Tidy.setEntry (hv : v.Tidy) {c : Name} {p : List Name}
    (hl : (pathKey (c :: p)).length < npos) (value : Bytes) (opts : Options) (t t1 : ℕ) :
    (v.setEntry cfg (pathKey (c :: p)) value opts t t1).Tidy := by
  cases hc : opts.cache with
  | true => exact hv.congr (setEntry_forrest_of_cache hc t t1).symm
  | false =>
    refine Tidy.congr ?_ (setEntry_forrest_of_plain hc t t1).symm
    exact (hv.congr (put_of_ne v (by decide) _ _).symm).link hl

theorem Tidy.removeEntry (hv : v.Tidy) {c : Name} {p : List Name}
    (hl : (pathKey (c :: p)).length < npos) (b : Bool) :
    (v.removeEntry (pathKey (c :: p)) b).Tidy := by
  cases b with
  | true => exact hv.congr (by rw [removeEntry_forrest, if_pos rfl])
  | false =>
    have hcol : ((v.delete .data (pathKey (c :: p))).delete .expiration (pathKey (c :: p)))
        .forrest = v .forrest := by
      rw [delete_of_ne _ (by decide), delete_of_ne _ (by decide)]
    have h := (unlink_upLinks (hv.congr hcol.symm) (c :: p)).2
    rw [← List.reverse_reverse (upLinks (c :: p)), ← treeComponents_pathKey hl] at h
    exact h.congr (by rw [removeEntry_forrest, if_neg (by simp)])

end

/-- The depth of the forest is bounded: the column holds finitely many paths. -/
theorem exists_depth (v : Columns) : ∃ n, ∀ p, (v.forest p).Nonempty → p.length ≤ n := by
  refine ⟨((v .forrest).keys.map List.length).sum, fun p hp => ?_⟩
  obtain ⟨c, hc⟩ := hp
  cases hn : v.get .forrest (nodeKey p) with
  | none => simp [mem_forest, children, hn] at hc
  | some node =>
    have hk : nodeKey p ∈ (v .forrest).keys := by
      rw [ExtTreeMap.mem_keys, ExtTreeMap.mem_iff_isSome_getElem?]
      exact Option.isSome_iff_exists.2 ⟨node, hn⟩
    exact (length_le_nodeKey p).trans (List.le_sum_of_mem (List.mem_map_of_mem hk))

end

end Store

end ConfigDb
