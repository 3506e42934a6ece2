import ConfigDb.Storage.Nodes

/-!
# Which keys the tree lists

Two properties of the tree in the states that runs on canonical keys reach, each with the guard on
the actions of the run under which it holds, and a run that breaks it without the guard.

* Every live key is listed, component by component, from `/` down (`live_key_listed`).  The guard
  `KeepsBelow` : nothing is stored as a cache entry, and a key is only dropped when no live key lies
  below it.  Dropping `/a` while `/a/b` is live takes `a` out of the children of `/`
  (`listing_lost_below_removed_key`).
* Every listed child leads to a live key (`listed_child_live`).  The guard `LeavesNoGhost` : a key
  with a committed cache marker is only dropped while it is not listed, or has children of its own.
  A key set first as a plain entry and then as a cache entry stays listed after it has been removed
  (`ghost_after_cache_entry`).
-/

namespace ConfigDb

open Std

/-! ### No live key is lost -/

/-- The guard against lost keys: every write is of a plain entry, and a key is only dropped when no
live key lies strictly below it. -/
def KeepsBelow (_ v : Columns) : Action → Prop
  | .put _ _ opts _ _ => opts.cache = false
  | .drop ks => ∀ k ∈ (v .data).keys, ¬ ks ++ [slash] <+: k
  | .forget _ => True

instance : ∀ cm v a, Decidable (KeepsBelow cm v a)
  | _, _, .put _ _ opts _ _ => inferInstanceAs (Decidable (opts.cache = false))
  | _, v, .drop ks => inferInstanceAs (Decidable (∀ k ∈ (v .data).keys, ¬ ks ++ [slash] <+: k))
  | _, _, .forget _ => inferInstanceAs (Decidable True)

/-- The invariant of runs that keep every live key listed. -/
structure Complete (v : Columns) : Prop where
  tidy : v.Tidy
  plain : ∀ k, v.get .cache k = none
  expiring : ∀ x k, v.get .expiring x = some k → Canonical k
  lists : ∀ m ∈ v.live, v.forest.Lists m

theorem Store.mem_keys_data {v : Columns} {k : Bytes} (h : (v.get .data k).isSome) :
    k ∈ (v .data).keys := by
  rw [ExtTreeMap.mem_keys, ExtTreeMap.mem_iff_isSome_getElem?]
  exact h

section

variable {cfg : Config} {cm v : Columns}

theorem expiring_act (cm : Columns) {a : Action} (ha : a.On Canonical)
    (hx : ∀ x k, v.get .expiring x = some k → Canonical k) :
    ∀ x k, (Store.act cfg cm v a).get .expiring x = some k → Canonical k := by
  intro x k hk
  cases a with
  | put ks value opts t t1 =>
    rw [Store.act, Store.setEntry_expiring] at hk
    split_ifs at hk
    · exact Option.some.inj hk ▸ ha
    · exact hx x k hk
  | drop ks =>
    rw [Store.act, Store.removeEntry_expiring] at hk
    exact hx x k hk
  | forget y =>
    rw [Store.act, Store.get_delete_same] at hk
    split_ifs at hk
    exact hx x k hk

theorem Complete.put (h : Complete v) {c : Name} {p : List Name}
    (hl : (pathKey (c :: p)).length < npos) (value : Bytes) {opts : Options}
    (hopts : opts.cache = false) (t t1 : ℕ) :
    Complete (v.setEntry cfg (pathKey (c :: p)) value opts t t1) where
  tidy := h.tidy.setEntry hl value opts t t1
  plain k := by simpa [hopts] using h.plain k
  expiring := expiring_act v (a := .put (pathKey (c :: p)) value opts t t1) ⟨hl, c, p, rfl⟩
    h.expiring
  lists m hm := by
    rw [Store.forest_setEntry hl, hopts]
    rw [Store.live_setEntry] at hm
    obtain rfl | hm := hm
    · exact Forest.lists_link _ _
    · exact (h.lists m hm).link _

theorem Complete.drop (h : Complete v) {c : Name} {p : List Name}
    (hl : (pathKey (c :: p)).length < npos)
    (hg : ∀ k ∈ (v .data).keys, ¬ pathKey (c :: p) ++ [slash] <+: k) :
    Complete (v.removeEntry (pathKey (c :: p)) false) where
  tidy := h.tidy.removeEntry hl false
  plain k := by simpa using h.plain k
  expiring x k hk := h.expiring x k (by simpa using hk)
  lists := by
    rw [Store.live_removeEntry, Store.forest_removeEntry h.tidy hl]
    refine Forest.lists_prune _ (fun m hm => h.lists m hm.1) fun m hm hs => ?_
    exact hg _ (Store.mem_keys_data hm.1) (pathKey_prefix_of_suffix hs hm.2)

theorem Complete.act {a : Action} (hcm : Complete cm) (ha : a.On Canonical)
    (hg : KeepsBelow cm v a) (h : Complete v) : Complete (Store.act cfg cm v a) := by
  cases a with
  | put ks value opts t t1 =>
    obtain ⟨hl, c, p, rfl⟩ := ha
    exact h.put hl value hg t t1
  | drop ks =>
    obtain ⟨hl, c, p, rfl⟩ := ha
    have hm : (cm.get .cache (pathKey (c :: p))).isSome = false := by simp [hcm.plain]
    rw [Store.act, hm]
    exact h.drop hl hg
  | forget x =>
    have hf : (v.delete .expiring x) .forrest = v .forrest := Store.delete_of_ne v (by decide) x
    exact ⟨h.tidy.congr hf.symm, fun k => by simpa [Store.act] using h.plain k,
      expiring_act _ trivial h.expiring, fun m hm => by
        rw [Store.act, Store.forest_congr hf]
        exact h.lists m (by simpa [Store.act, Store.mem_live] using hm)⟩

end

theorem complete_empty : Complete Store.empty where
  tidy := Store.tidy_empty
  plain k := by simp
  expiring x k h := by simp at h
  lists m hm := by simp [Store.mem_live] at hm

/-- **No live key is lost from the tree**, in runs on canonical keys that store plain entries only
and drop no key while a live key lies below it: for every live key `/c₁/…/cₙ` and every `i`, the
component `cᵢ` is among the children stored for the path of the components before it. -/
theorem live_key_listed (env : Env) (henv : env.Reliable) (cfg : Config) (n : ℕ) (s : Db)
    (h : Reach env cfg (fun s c => c.On Canonical ∧ c.Guarded env cfg KeepsBelow s) (Db.init n) s)
    (k : List Name) (hk : (s.columns.get .data (pathKey k)).isSome) (c : Name) (p : List Name)
    (hp : c :: p <:+ k) : c.1 ∈ s.columns.children (nodeKey p) := by
  have hI : Complete s.columns := h.invariant henv
    (fun _ _ _ hcm ha hg hv => Complete.act hcm ha hg hv)
    (fun v hv x k hx => (hv.expiring x k hx).getKey.symm ▸ hv.expiring x k hx) complete_empty
  exact hI.lists k hk c p hp

/-- The name `c` is listed under `/` after `/a` and `/c` have been set and `/a` has been removed. -/
theorem live_key_listed_after_remove :
    let env := Env.reliable fun _ => 0
    let s₁ := (Call.set ⟨[47, 97], [1], {}⟩).next env (.plain false) (Db.init 1)
    let s₂ := (Call.set ⟨[47, 99], [2], {}⟩).next env (.plain false) s₁
    let s₃ := (Call.remove [47, 97]).next env (.plain false) s₂
    (s₃.columns.get .data [47, 99]).isSome ∧ [99] ∈ s₃.columns.children [47] := by
  intro env s₁ s₂ s₃
  have a : Canonical [47, 97] := ⟨by decide, ⟨[97], by decide⟩, [], rfl⟩
  have c : Canonical [47, 99] := ⟨by decide, ⟨[99], by decide⟩, [], rfl⟩
  have hlive : (s₃.columns.get .data [47, 99]).isSome := by decide
  have hreach : Reach env (.plain false)
      (fun s c => c.On Canonical ∧ c.Guarded env (.plain false) KeepsBelow s) (Db.init 1) s₃ :=
    .call (.remove [47, 97]) (.call (.set ⟨[47, 99], [2], {}⟩) (.call (.set ⟨[47, 97], [1], {}⟩)
      .start ⟨a, Call.guarded_of_actions rfl ⟨rfl, trivial⟩⟩)
      ⟨c, Call.guarded_of_actions rfl ⟨rfl, trivial⟩⟩)
      ⟨a, Call.guarded_of_actions rfl ⟨by decide, trivial⟩⟩
  exact ⟨hlive, live_key_listed env (Env.reliable_reliable _) _ 1 s₃ hreach
    [⟨[99], by decide⟩] hlive ⟨[99], by decide⟩ [] (List.suffix_refl _)⟩

/-- **A live key below a removed one is lost.**  After `/a` and `/a/b` have been set and `/a` has
been removed, `/a/b` is live but `/` does not list `a`. -/
theorem listing_lost_below_removed_key :
    let s := runCalls (.reliable fun _ => 0) (.plain false) (Db.init 1)
      [.set ⟨[47, 97], [1], {}⟩, .set ⟨[47, 97, 47, 98], [2], {}⟩, .remove [47, 97]]
    (s.columns.get .data [47, 97, 47, 98]).isSome ∧ [97] ∉ s.columns.children [47] := by
  decide

/-! ### No ghost nodes -/

/-- The key is among the children of its parent. -/
def Store.listed (v : Columns) (ks : Bytes) : Bool :=
  match (treeComponents ks).getLast? with
  | some (path, child) => child ∈ v.children path
  | none => false

/-- The guard against ghosts: a key with a committed cache marker is only dropped when it is not
listed, or has children of its own. -/
def LeavesNoGhost (cm v : Columns) : Action → Prop
  | .drop ks => (cm.get .cache ks).isSome → v.listed ks = true → v.children ks ≠ []
  | _ => True

instance : ∀ cm v a, Decidable (LeavesNoGhost cm v a)
  | cm, v, .drop ks => inferInstanceAs (Decidable
      ((cm.get .cache ks).isSome → v.listed ks = true → v.children ks ≠ []))
  | _, _, .put _ _ _ _ _ => inferInstanceAs (Decidable True)
  | _, _, .forget _ => inferInstanceAs (Decidable True)

/-- The invariant of runs that leave no ghosts. -/
structure Sound (v : Columns) : Prop where
  tidy : v.Tidy
  expiring : ∀ x k, v.get .expiring x = some k → Canonical k
  grounded : v.forest.Grounded v.live

section

variable {cfg : Config} {cm v : Columns}

theorem Store.listed_pathKey {c : Name} {p : List Name} (hl : (pathKey (c :: p)).length < npos) :
    v.listed (pathKey (c :: p)) = true ↔ c ∈ v.forest p := by
  rw [Store.listed, treeComponents_pathKey hl, List.getLast?_reverse]
  simp [upLinks, Store.mem_forest]

theorem Sound.put (h : Sound v) {c : Name} {p : List Name}
    (hl : (pathKey (c :: p)).length < npos) (value : Bytes) (opts : Options) (t t1 : ℕ) :
    Sound (v.setEntry cfg (pathKey (c :: p)) value opts t t1) where
  tidy := h.tidy.setEntry hl value opts t t1
  expiring := expiring_act v (a := .put (pathKey (c :: p)) value opts t t1) ⟨hl, c, p, rfl⟩
    h.expiring
  grounded := by
    have hm := h.grounded.mono (Set.subset_insert (c :: p) v.live)
    rw [Store.forest_setEntry hl, Store.live_setEntry]
    split_ifs
    · exact hm
    · exact hm.link (Set.mem_insert _ _)

/-- What has just been dropped is the only thing that may have lost its ground. -/
theorem Sound.groundedBut (h : Sound v) (k : List Name) :
    v.forest.GroundedBut (v.live \ {k}) k := by
  intro c p hc hne
  exact (h.grounded c p hc).imp_left fun hl => ⟨hl, hne⟩

theorem Sound.drop (h : Sound v) {c : Name} {p : List Name}
    (hl : (pathKey (c :: p)).length < npos) (b : Bool)
    (hg : b = true → v.listed (pathKey (c :: p)) = true → v.children (pathKey (c :: p)) ≠ []) :
    Sound (v.removeEntry (pathKey (c :: p)) b) where
  tidy := h.tidy.removeEntry hl b
  expiring x k hk := h.expiring x k (by simpa using hk)
  grounded := by
    rw [Store.live_removeEntry, Store.forest_removeEntry h.tidy hl]
    cases b with
    | false => exact Forest.grounded_prune _ (h.groundedBut _)
    | true =>
      -- the tree stays: the key must have children of its own, if it is listed at all
      intro d q hd
      by_cases he : d :: q = c :: p
      · injection he with h₁ h₂
        subst h₁ h₂
        obtain ⟨x, hx⟩ := List.exists_mem_of_ne_nil _ (hg rfl ((Store.listed_pathKey hl).2 hd))
        obtain ⟨n, rfl⟩ := h.tidy.name _ _ hx
        exact .inr ⟨n, hx⟩
      · exact h.groundedBut _ d q hd he

theorem Sound.act {a : Action} (ha : a.On Canonical) (hg : LeavesNoGhost cm v a) (h : Sound v) :
    Sound (Store.act cfg cm v a) := by
  cases a with
  | put ks value opts t t1 =>
    obtain ⟨hl, c, p, rfl⟩ := ha
    exact h.put hl value opts t t1
  | drop ks =>
    obtain ⟨hl, c, p, rfl⟩ := ha
    exact h.drop hl _ hg
  | forget x =>
    have hf : (v.delete .expiring x) .forrest = v .forrest := Store.delete_of_ne v (by decide) x
    refine ⟨h.tidy.congr hf.symm, expiring_act _ trivial h.expiring, ?_⟩
    have hlive : (v.delete .expiring x).live = v.live := by
      ext q
      simp [Store.mem_live]
    rw [Store.act, Store.forest_congr hf, hlive]
    exact h.grounded

theorem sound_empty : Sound Store.empty where
  tidy := Store.tidy_empty
  expiring x k h := by simp at h
  grounded c p hc := by simp [Store.mem_forest, Store.children] at hc

theorem Sound.exists_live (h : Sound v) {path c : Bytes} (hc : c ∈ v.children path) :
    ∃ k, (v.get .data k).isSome ∧
      let child := (if path = [slash] then [] else path) ++ slash :: c
      k = child ∨ child ++ [slash] <+: k := by
  obtain ⟨n, rfl⟩ := h.tidy.name _ _ hc
  obtain ⟨p, rfl⟩ : ∃ p, path = nodeKey p := by
    cases hn : v.get .forrest path with
    | none => simp [Store.children, hn] at hc
    | some node => exact h.tidy.path path node hn
  obtain ⟨d, hd⟩ := v.exists_depth
  obtain ⟨k, hk, hs⟩ := h.grounded.exists_live hd (p := p) hc
  have hchild : (if nodeKey p = [slash] then [] else nodeKey p) ++ slash :: n.1 =
      pathKey (n :: p) := by
    cases p with
    | nil => rfl
    | cons e q => rw [nodeKey_cons, if_neg (pathKey_ne_root _), pathKey_cons n]
  refine ⟨pathKey k, hk, ?_⟩
  rw [hchild]
  by_cases he : k = n :: p
  · exact .inl (by rw [he])
  · exact .inr (pathKey_prefix_of_suffix hs he)

end

/-- **No ghost nodes**, in runs on canonical keys that never drop a key with a committed cache
marker while it is listed and has no children: whenever a child `c` is stored for a path `p`, there
is a live key that equals `p/c` or starts with `p/c/`. -/
theorem listed_child_live (env : Env) (henv : env.Reliable) (cfg : Config) (n : ℕ) (s : Db)
    (h : Reach env cfg (fun s c => c.On Canonical ∧ c.Guarded env cfg LeavesNoGhost s)
      (Db.init n) s) (path c : Bytes) (hc : c ∈ s.columns.children path) :
    ∃ k, (s.columns.get .data k).isSome ∧
      let child := (if path = [slash] then [] else path) ++ slash :: c
      k = child ∨ child ++ [slash] <+: k := by
  have hI : Sound s.columns := h.invariant henv
    (fun _ _ _ _ ha hg hv => Sound.act ha hg hv)
    (fun v hv x k hx => (hv.expiring x k hx).getKey.symm ▸ hv.expiring x k hx) sound_empty
  exact hI.exists_live hc

/-- After `/a` has been set as a cache entry and `/b/c` as a plain one, and `/a` has been removed,
the child `b` of `/` leads to a live key. -/
theorem listed_child_live_after_cache_entry :
    let env := Env.reliable fun _ => 0
    let s₁ := (Call.set ⟨[47, 97], [1], { cache := true, expirationInSeconds := 9 }⟩).next env
      (.plain false) (Db.init 1)
    let s₂ := (Call.set ⟨[47, 98, 47, 99], [2], {}⟩).next env (.plain false) s₁
    let s₃ := (Call.remove [47, 97]).next env (.plain false) s₂
    [98] ∈ s₃.columns.children [47] ∧ ∃ k, (s₃.columns.get .data k).isSome ∧
      (k = [47, 98] ∨ [47, 98, 47] <+: k) := by
  intro env s₁ s₂ s₃
  have a : Canonical [47, 97] := ⟨by decide, ⟨[97], by decide⟩, [], rfl⟩
  have b : Canonical [47, 98, 47, 99] :=
    ⟨by decide, ⟨[99], by decide⟩, [⟨[98], by decide⟩], rfl⟩
  have hchild : [98] ∈ s₃.columns.children [47] := by decide
  have hreach : Reach env (.plain false)
      (fun s c => c.On Canonical ∧ c.Guarded env (.plain false) LeavesNoGhost s) (Db.init 1) s₃ :=
    .call (.remove [47, 97]) (.call (.set ⟨[47, 98, 47, 99], [2], {}⟩)
      (.call (.set ⟨[47, 97], [1], { cache := true, expirationInSeconds := 9 }⟩)
      .start ⟨a, Call.guarded_of_actions rfl ⟨trivial, trivial⟩⟩)
      ⟨b, Call.guarded_of_actions rfl ⟨trivial, trivial⟩⟩)
      ⟨a, Call.guarded_of_actions rfl ⟨by decide, trivial⟩⟩
  exact ⟨hchild, listed_child_live env (Env.reliable_reliable _) _ 1 s₃ hreach _ _ hchild⟩

/-- **A key that has become a cache entry leaves a ghost.**  After `/a` has been set as a plain
entry, then as a cache entry, and has been removed, no key is live but `/` still lists `a`. -/
theorem ghost_after_cache_entry :
    let s := runCalls (.reliable fun _ => 0) (.plain false) (Db.init 1)
      [.set ⟨[47, 97], [1], {}⟩,
        .set ⟨[47, 97], [2], { cache := true, expirationInSeconds := 9 }⟩, .remove [47, 97]]
    [97] ∈ s.columns.children [47] ∧ (s.columns .data).keys = [] := by
  decide

end ConfigDb
