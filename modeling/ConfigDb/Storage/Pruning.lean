import ConfigDb.Storage.Listing

/-!
# Removing a leaf

In an *exact* state the tree stores a child for a path if and only if a live key lies at or below
it.  Removing a key below which no key is live leads to an exact state again: its components are
taken out from the bottom up to the first ancestor that keeps another child or is live itself.

## Main definitions

* `Store.Exact` : the exact states.
* `Store.UnlinkedUpTo` : how far up a path has been taken out.

## Main results

* `remove_leaf_prunes` : removing a leaf of an exact state.
-/

namespace ConfigDb

open Std

namespace Store

/-- No key has a marker, the live keys are canonical, and the tree stores what is on the way to
them, and nothing else. -/
structure Exact (v : Columns) : Prop where
  /-- No key is a cache entry. -/
  unmarked : ∀ k, v.get .cache k = none
  /-- The live keys are canonical. -/
  canonical : ∀ k, (v.get .data k).isSome → Canonical k
  /-- A child is stored exactly if a live key lies at or below it. -/
  stored : ∀ path c, c ∈ v.children path ↔
    ∃ p n, path = nodeKey p ∧ c = n.1 ∧ ∃ m ∈ v.live, n :: p <:+ m
  /-- There is no entry without children. -/
  nonempty : ∀ path node, v.get .forrest path = some node → node.children ≠ []

/-- From the columns `v` to the columns `w` the path `k` has been taken out of the tree, from its
end up to the node `p` and no further. -/
structure UnlinkedUpTo (v w : Columns) (k p : List Name) : Prop where
  /-- The node is above the path. -/
  above : p <:+ k ∧ p ≠ k
  /-- The node is the root, is live, or keeps another child. -/
  stops : p = [] ∨ p ∈ w.live ∨ (w.forest p).Nonempty
  /-- Nothing of this holds for the nodes on the way. -/
  emptied : ∀ q, p <:+ q → q <:+ k → q ≠ p → q ∉ w.live ∧ w.forest q = ∅
  /-- The components on the way are what is taken out. -/
  forest : ∀ q c, c ∈ w.forest q ↔ c ∈ v.forest q ∧ ¬ (c :: q <:+ k ∧ p <:+ q)

variable {v w : Columns}

theorem Exact.forest_eq (h : v.Exact) : v.forest = Forest.span v.live := by
  funext p
  ext c
  rw [mem_forest, h.stored]
  constructor
  · rintro ⟨q, n, hq, hn, m, hm, hs⟩
    obtain rfl := nodeKey_injective hq
    obtain rfl := Subtype.ext hn
    exact ⟨m, hm, hs⟩
  · rintro ⟨m, hm, hs⟩
    exact ⟨p, c, rfl, rfl, m, hm, hs⟩

theorem Exact.tidy (h : v.Exact) : v.Tidy where
  nonempty := h.nonempty
  path path node hn := by
    obtain ⟨c, hc⟩ := List.exists_mem_of_ne_nil _ (h.nonempty _ _ hn)
    have hm : c ∈ v.children path := by simpa [children, hn] using hc
    obtain ⟨p, n, hp, -⟩ := (h.stored path c).1 hm
    exact ⟨p, hp⟩
  name path c hc := by
    obtain ⟨p, n, -, hn, -⟩ := (h.stored path c).1 hc
    exact ⟨n, hn.symm⟩

/-- A tidy tree that is the forest of its live keys stores what an exact state does. -/
theorem Tidy.stored (ht : v.Tidy) (h : v.forest = Forest.span v.live) (path c : Bytes) :
    c ∈ v.children path ↔ ∃ p n, path = nodeKey p ∧ c = n.1 ∧ ∃ m ∈ v.live, n :: p <:+ m := by
  constructor
  · intro hc
    obtain ⟨n, rfl⟩ := ht.name path c hc
    cases hn : v.get .forrest path with
    | none => simp [children, hn] at hc
    | some node =>
      obtain ⟨p, rfl⟩ := ht.path path node hn
      have hm : n ∈ Forest.span v.live p := h ▸ mem_forest.2 hc
      exact ⟨p, n, rfl, rfl, hm⟩
  · rintro ⟨p, n, rfl, rfl, hm⟩
    have hn : n ∈ v.forest p := by
      rw [h]
      exact hm
    exact hn

theorem not_suffix_of_leaf {k : List Name}
    (hleaf : ∀ k', (v.get .data k').isSome → ¬ pathKey k ++ [slash] <+: k') :
    ∀ m ∈ v.live \ {k}, ¬ k <:+ m := by
  rintro m ⟨hm, hne⟩ hkm
  exact hleaf _ hm (pathKey_prefix_of_suffix hkm hne)

theorem unlink_of_notMem (hv : v.Tidy) {path c : Bytes} (hc : c ∉ v.children path)
    (ts : List Tuple) : v.unlink ((path, c) :: ts) .forrest = v .forrest := by
  rw [unlink_cons]
  cases hn : v.get .forrest path with
  | none => rfl
  | some node =>
    have hfilter : (node.children.filter fun item => c != item) = node.children := by
      rw [List.filter_eq_self]
      intro d hd
      rw [bne_iff_ne]
      rintro rfl
      exact hc (by simpa [children, hn] using hd)
    have hne := hv.nonempty path node hn
    have he : node.children.isEmpty = false := by simpa using hne
    simp only [hfilter, he, Bool.false_eq_true, false_and, if_false, dropChild]
    refine ext_col fun k => ?_
    by_cases hk : path = k
    · subst hk
      simp [hn]
    · simp [hk]

theorem removeEntry_forrest_of_notMem (hv : v.Tidy) {c : Name} {p : List Name}
    (hl : (pathKey (c :: p)).length < npos) (hc : c ∉ v.forest p) :
    v.removeEntry (pathKey (c :: p)) false .forrest = v .forrest := by
  have hcol : ((v.delete .data (pathKey (c :: p))).delete .expiration (pathKey (c :: p)))
      .forrest = v .forrest := by
    rw [delete_of_ne _ (by decide), delete_of_ne _ (by decide)]
  rw [removeEntry_forrest, if_neg (by simp), treeComponents_pathKey hl, List.reverse_reverse,
    upLinks, unlink_of_notMem (hv.congr hcol.symm) (by rwa [children_congr hcol]), hcol]

/-! ### Exact states -/

theorem exact_empty : Exact (Store.empty : Columns) where
  unmarked k := by simp
  canonical k h := by simp at h
  stored path c := by simp [children, mem_live]
  nonempty path node h := by simp at h

theorem Exact.put (h : v.Exact) {cfg : Config} {key : Bytes} (hk : Canonical key) (value : Bytes)
    {opts : Options} (hc : opts.cache = false) (t t1 : ℕ) :
    (v.setEntry cfg key value opts t t1).Exact := by
  obtain ⟨hl, c, p, rfl⟩ := id hk
  have htidy : (v.setEntry cfg (pathKey (c :: p)) value opts t t1).Tidy :=
    h.tidy.setEntry hl value opts t t1
  refine ⟨fun k => ?_, fun k hsome => ?_, htidy.stored ?_, htidy.nonempty⟩
  · rw [setEntry_cache]
    simpa [hc] using h.unmarked k
  · rw [setEntry_data] at hsome
    split_ifs at hsome with hkey
    · exact hkey ▸ hk
    · exact h.canonical k hsome
  · rw [forest_setEntry hl, hc, if_neg Bool.false_ne_true, live_setEntry, h.forest_eq,
      Forest.link_span]

end Store

open Store

section

variable {env : Env} {cfg : Config}

variable (cfg) in
theorem Call.remove_ideal (henv : env.Reliable) {key : Bytes} (hk : key ≠ []) (s : Db) :
    (Call.remove key).answer env cfg s = .bool true ∧
      ((Call.remove key).next env cfg s).columns =
        s.columns.removeEntry (getKey key) (s.columns.get .cache (getKey key)).isSome := by
  have hen : (Call.remove key).enters = true := by simpa [Call.enters] using hk
  have hacts : (Call.remove key).actions env cfg s = some [.drop (getKey key)] := by
    rw [Call.actions, Call.items, if_pos hen]
    rfl
  refine ⟨Call.answer_of_actions henv hen (by simp) hacts, ?_⟩
  rw [Call.next_columns henv, hacts]
  rfl

theorem Call.exact_set (henv : env.Reliable) (s : Db) (h : s.columns.Exact) (d : RequestData)
    (hk : Canonical d.key) (hc : d.options.cache = false) :
    ((Call.set d).next env cfg s).columns.Exact := by
  rw [Call.next_columns henv]
  cases hacts : (Call.set d).actions env cfg s with
  | none => exact h
  | some as =>
    have hen : (Call.set d).items env s = [.set d] ∨ (Call.set d).items env s = [] := by
      rw [Call.items]
      split_ifs
      · exact .inl rfl
      · exact .inr rfl
    rw [Call.actions] at hacts
    rcases hen with hen | hen
    · rw [hen, itemActions_singleton, Item.actions] at hacts
      split_ifs at hacts
      obtain rfl := Option.some.inj hacts
      exact h.put (hk.getKey.symm ▸ hk) d.value hc _ _
    · rw [hen] at hacts
      obtain rfl := Option.some.inj hacts
      exact h

end

/-- **Removing a leaf prunes exactly.**  In an exact state let no live key lie strictly below the
canonical key `key`.  Then `remove` answers `true` and leads to an exact state of the other live
keys.  If the key was live, its path is taken out up to the first ancestor that is live or keeps
another child, and no further; otherwise the tree is unchanged. -/
theorem remove_leaf_prunes (env : Env) (henv : env.Reliable) (cfg : Config) (s : Db)
    (hs : s.columns.Exact) (key : Bytes) (hk : Canonical key)
    (hleaf : ∀ k, (s.columns.get .data k).isSome → ¬ key ++ [slash] <+: k) :
    let w := ((Call.remove key).next env cfg s).columns
    (Call.remove key).answer env cfg s = .bool true ∧ w.Exact ∧
      (∀ k, w.get .data k = if key = k then none else s.columns.get .data k) ∧
      ((s.columns.get .data key).isSome → ∃ k p, key = pathKey k ∧ UnlinkedUpTo s.columns w k p) ∧
      (s.columns.get .data key = none → w .forrest = s.columns .forrest) := by
  have hgk := hk.getKey
  obtain ⟨hl, c, p, rfl⟩ := hk
  have hne : pathKey (c :: p) ≠ [] := by simp [pathKey]
  obtain ⟨hanswer, hcols⟩ := Call.remove_ideal cfg henv hne s
  rw [hgk, hs.unmarked] at hcols
  intro w
  have hw : w = s.columns.removeEntry (pathKey (c :: p)) false := hcols
  clear_value w
  subst hw
  have hbelow := not_suffix_of_leaf hleaf
  have hlive := live_removeEntry (v := s.columns) (c :: p) false
  have htidy := hs.tidy.removeEntry hl false
  have hforest := forest_removeEntry hs.tidy hl false
  simp only [Bool.false_eq_true, if_false] at hforest
  -- what the walk leaves is the forest of the other live keys
  have hspan : (s.columns.removeEntry (pathKey (c :: p)) false).forest =
      Forest.span (s.columns.live \ {c :: p}) := by
    by_cases hm : c :: p ∈ s.columns.live
    · rw [hforest, hs.forest_eq, ← Forest.prune_span _ hbelow, Set.insert_sdiff_singleton,
        Set.insert_eq_of_mem hm]
    · have hc : c ∉ s.columns.forest p := by
        rw [hs.forest_eq]
        rintro ⟨m, hm', hcm⟩
        exact hbelow m ⟨hm', fun h => hm (h ▸ hm')⟩ hcm
      rw [forest_congr (removeEntry_forrest_of_notMem hs.tidy hl hc), hs.forest_eq,
        Set.sdiff_singleton_eq_self hm]
  refine ⟨hanswer, ⟨?_, ?_, ?_, htidy.nonempty⟩, removeEntry_data _ _ _, ?_, ?_⟩
  · intro k
    rw [removeEntry_cache]
    simpa using hs.unmarked k
  · intro k hsome
    rw [removeEntry_data] at hsome
    split_ifs at hsome
    · simp at hsome
    · exact hs.canonical k hsome
  · exact htidy.stored (by rw [hspan, hlive])
  · intro hm
    have hmem : c :: p ∈ s.columns.live := hm
    obtain ⟨q, habove, hstops, hemptied, hcut⟩ :=
      Forest.exists_unlinked (c :: p) hbelow (List.cons_ne_nil c p)
    rw [Set.insert_sdiff_singleton, Set.insert_eq_of_mem hmem, ← hs.forest_eq, ← hspan] at hcut
    rw [← hspan, ← hlive] at hstops hemptied
    exact ⟨c :: p, q, rfl, habove, hstops, hemptied, hcut⟩
  · intro hnone
    refine removeEntry_forrest_of_notMem hs.tidy hl ?_
    rw [hs.forest_eq]
    rintro ⟨m, hm, hcm⟩
    refine hbelow m ⟨hm, ?_⟩ hcm
    rintro rfl
    simp [mem_live, hnone] at hm

/-- `/a/b` and `/a/c` are set and `/a/b` is removed: its path is taken out up to `/a`, which keeps
the child `c`. -/
theorem remove_leaf_prunes_sibling :
    let env := Env.reliable fun _ => 0
    let s₁ := (Call.set ⟨[47, 97, 47, 98], [1], {}⟩).next env (.plain false) (Db.init 1)
    let s₂ := (Call.set ⟨[47, 97, 47, 99], [2], {}⟩).next env (.plain false) s₁
    let w := ((Call.remove [47, 97, 47, 98]).next env (.plain false) s₂).columns
    w.Exact ∧ w.children [47, 97] = [[99]] ∧ w.children [47] = [[97]] := by
  intro env s₁ s₂ w
  have henv : env.Reliable := Env.reliable_reliable _
  have hb : Canonical [47, 97, 47, 98] :=
    ⟨by decide, ⟨[98], by decide⟩, [⟨[97], by decide⟩], rfl⟩
  have hc : Canonical [47, 97, 47, 99] :=
    ⟨by decide, ⟨[99], by decide⟩, [⟨[97], by decide⟩], rfl⟩
  have h₁ : s₁.columns.Exact := by
    unfold s₁
    exact Call.exact_set henv (Db.init 1) exact_empty _ hb rfl
  have h₂ : s₂.columns.Exact := by
    unfold s₂
    exact Call.exact_set henv s₁ h₁ _ hc rfl
  have hleaf : ∀ k ∈ (s₂.columns .data).keys, ¬ [47, 97, 47, 98] ++ [slash] <+: k := by decide
  obtain ⟨-, hw, -⟩ := remove_leaf_prunes env henv (.plain false) s₂ h₂ [47, 97, 47, 98] hb
    fun k hk => hleaf k (mem_keys_data hk)
  exact ⟨hw, by decide, by decide⟩

end ConfigDb
