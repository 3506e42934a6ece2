import ConfigDb.Storage.Expiry

/-!
# Cache markers and time stamps

A key that is stored as a cache entry has a marker in the `cache` column, and a key that expires has
a time stamp in the `expiration` column.  Two things are expected of them.

* Cache entries expire: a marked key has a time stamp (`Store.CacheExpires`).  `set` checks this for
  a single key, but not for a batch; and `move` gives its destination the marker of its source and
  what is left of its time in whole seconds, which may be nothing.
* Markers and time stamps belong to live keys (`Store.SidesLive`).  `remove` takes the marker out if
  the *committed* columns have it, so it leaves a marker that an earlier item of the same batch has
  set.  Only a batch of moves can remove a key that it has itself marked.

## Main results

* `cache_entries_expire`, `side_columns_live` : the two invariants, for runs whose calls avoid these
  cases.
* `cache_entry_without_expiration`, `marker_left_by_batch` : runs that do not.
-/

namespace ConfigDb

open Std

/-- Every marked key has a time stamp. -/
def Store.CacheExpires (v : Columns) : Prop :=
  ∀ k, (v.get .cache k).isSome → (v.get .expiration k).isSome

/-- Every key with a time stamp or a marker is live. -/
def Store.SidesLive (v : Columns) : Prop :=
  ∀ k, (v.get .expiration k).isSome ∨ (v.get .cache k).isSome → (v.get .data k).isSome

/-- A key that is stored as a cache entry is given a time stamp, or has one. -/
def MarksExpiring (_ v : Columns) : Action → Prop
  | .put ks _ opts _ _ =>
    opts.cache = true → opts.expirationInSeconds ≠ 0 ∨ (v.get .expiration ks).isSome
  | _ => True

/-- A key that is removed has its marker in the committed columns, or has none. -/
def DropsMarker (cm v : Columns) : Action → Prop
  | .drop ks => (cm.get .cache ks).isSome ∨ v.get .cache ks = none
  | _ => True

instance : ∀ cm v a, Decidable (MarksExpiring cm v a)
  | _, v, .put ks _ opts _ _ => inferInstanceAs (Decidable
      (opts.cache = true → opts.expirationInSeconds ≠ 0 ∨ (v.get .expiration ks).isSome))
  | _, _, .drop _ => inferInstanceAs (Decidable True)
  | _, _, .forget _ => inferInstanceAs (Decidable True)

instance : ∀ cm v a, Decidable (DropsMarker cm v a)
  | cm, v, .drop ks => inferInstanceAs (Decidable
      ((cm.get .cache ks).isSome ∨ v.get .cache ks = none))
  | _, _, .put _ _ _ _ _ => inferInstanceAs (Decidable True)
  | _, _, .forget _ => inferInstanceAs (Decidable True)

section

variable {cfg : Config} {cm v : Columns} {a : Action}

/-! ### One action -/

theorem removeEntry_cache_of_drops {ks : Bytes} (h : DropsMarker cm v (.drop ks)) :
    (v.removeEntry ks (cm.get .cache ks).isSome).get .cache ks = none := by
  rw [Store.removeEntry_cache]
  rcases h with h | h
  · simp [h]
  · simp [h]

/-- **Cache entries expire** as long as every action gives them a time stamp. -/
theorem Store.CacheExpires.act (h : v.CacheExpires) (hm : MarksExpiring cm v a)
    (hd : DropsMarker cm v a) : (Store.act cfg cm v a).CacheExpires := by
  intro k hk
  cases a with
  | forget x => simpa [Store.act] using h k (by simpa [Store.act] using hk)
  | put ks value opts t t1 =>
    simp only [Store.act, Store.setEntry_cache, Store.setEntry_expiration] at hk ⊢
    split_ifs with hexp
    · rfl
    · split_ifs at hk with hnew
      · obtain ⟨hcache, rfl⟩ := hnew
        exact (hm hcache).resolve_left fun hne => hexp ⟨hne, rfl⟩
      · exact h k hk
  | drop ks =>
    by_cases hks : ks = k
    · subst hks
      rw [Store.act, removeEntry_cache_of_drops hd] at hk
      simp at hk
    · simpa [Store.act, hks] using h k (by simpa [Store.act, hks] using hk)

/-- **The side columns describe live keys** as long as every removal takes the marker out. -/
theorem Store.SidesLive.act (h : v.SidesLive) (hd : DropsMarker cm v a) :
    (Store.act cfg cm v a).SidesLive := by
  intro k hk
  cases a with
  | forget x => simpa [Store.act] using h k (by simpa [Store.act] using hk)
  | put ks value opts t t1 =>
    by_cases hks : ks = k
    · simp [Store.act, hks]
    · simpa [Store.act, hks] using h k (by simpa [Store.act, hks] using hk)
  | drop ks =>
    by_cases hks : ks = k
    · subst hks
      rw [Store.act, removeEntry_cache_of_drops hd, Store.removeEntry_expiration] at hk
      simp at hk
    · simpa [Store.act, hks] using h k (by simpa [Store.act, hks] using hk)

/-! ### Calls whose removals find the markers -/

theorem Guarded.of_forall {G : Columns → Columns → Action → Prop} {as : List Action}
    (h : ∀ a ∈ as, ∀ v, G cm v a) : Guarded cfg G cm v as := by
  induction as generalizing v with
  | nil => trivial
  | cons a as ih =>
    rw [List.forall_mem_cons] at h
    exact ⟨h.1 v, ih h.2⟩

theorem Guarded.and {G H : Columns → Columns → Action → Prop} {as : List Action}
    (hG : Guarded cfg G cm v as) (hH : Guarded cfg H cm v as) :
    Guarded cfg (fun cm v a => G cm v a ∧ H cm v a) cm v as := by
  induction as generalizing v with
  | nil => trivial
  | cons a as ih => exact ⟨⟨hG.1, hH.1⟩, ih hG.2 hH.2⟩

/-- The action puts nothing in. -/
def Action.Removes : Action → Prop
  | .put _ _ _ _ _ => False
  | _ => True

theorem guarded_of_removes {as : List Action} (h : ∀ a ∈ as, a.Removes)
    (hv : ∀ k, (v.get .cache k).isSome → (cm.get .cache k).isSome) :
    Guarded cfg DropsMarker cm v as := by
  induction as generalizing v with
  | nil => trivial
  | cons a as ih =>
    rw [List.forall_mem_cons] at h
    cases a with
    | put ks value opts t t1 => exact h.1.elim
    | forget x => exact ⟨trivial, ih h.2 fun k hk => hv k (by simpa [Store.act] using hk)⟩
    | drop ks =>
      refine ⟨?_, ih h.2 fun k hk => hv k ?_⟩
      · cases hg : v.get .cache ks with
        | none => exact .inr hg
        | some m => exact .inl (hv ks (by simp [hg]))
      · rw [Store.act, Store.removeEntry_cache] at hk
        split_ifs at hk
        · simp at hk
        · exact hk

variable {env : Env}

/-- **Only a batch of moves** can remove a key that it has itself marked. -/
theorem Call.guarded_dropsMarker {c : Call} (hc : ∀ kvs, c ≠ .moveBatch kvs) (s : Db) :
    c.Guarded env cfg DropsMarker s := by
  intro as ha
  have hsets (ds : List RequestData) (s₀ : IdealDb)
      (h : itemActions env cfg (ds.map .set) s₀ = some as) :
      ConfigDb.Guarded cfg DropsMarker s.columns s.columns as := by
    refine .of_forall (itemActions_forall (fun i hi t bs hbs a hm v => ?_) h)
    obtain ⟨d, -, rfl⟩ := List.mem_map.1 hi
    simp only [Item.actions] at hbs
    split_ifs at hbs
    obtain rfl := Option.some.inj hbs
    rw [List.mem_singleton.1 hm]
    trivial
  have hremoves {is : List Item} {s₀ : IdealDb} (h : itemActions env cfg is s₀ = some as)
      (hi : ∀ i ∈ is, (∃ key, i = .remove key) ∨ ∃ e, i = .expire e) :
      ConfigDb.Guarded cfg DropsMarker s.columns s.columns as := by
    refine guarded_of_removes (itemActions_forall (fun i hmem t bs hbs a hm => ?_) h) fun _ hk => hk
    obtain ⟨key, rfl⟩ | ⟨e, rfl⟩ := hi i hmem
    · obtain rfl := Option.some.inj hbs
      rw [List.mem_singleton.1 hm]
      trivial
    · obtain rfl := Option.some.inj hbs
      simp only [List.mem_cons, List.not_mem_nil, or_false] at hm
      rcases hm with rfl | rfl <;> trivial
  unfold Call.actions Call.items at ha
  split_ifs at ha with henters
  · cases c with
    | set d => exact hsets [d] _ ha
    | setBatch kvs => exact hsets kvs _ ha
    | remove key => exact hremoves ha (by simp [Call.work])
    | removeBatch keys => exact hremoves ha (by simp [Call.work])
    | clearExpired =>
      refine hremoves ha fun i hi => ?_
      obtain ⟨e, -, rfl⟩ := List.mem_map.1 hi
      exact .inr ⟨e, rfl⟩
    | moveBatch kvs => exact absurd rfl (hc kvs)
    | move d =>
      rw [Call.work, itemActions_singleton] at ha
      simp only [Item.actions] at ha
      split_ifs at ha
      cases hv : (Call.start env s (.move d)).1.view.get .data (getKey d.key) with
      | none => simp [hv] at ha
      | some v =>
        rw [hv] at ha
        obtain rfl := Option.some.inj ha
        refine ⟨?_, trivial, trivial⟩
        cases hg : s.columns.get .cache (getKey d.key) with
        | none => exact .inr hg
        | some m => exact .inl (by simp [hg])
    | _ => simp [Call.enters] at henters
  · obtain rfl := Option.some.inj ha
    trivial

theorem Call.guarded_dropsMarker_of {c : Call} {s : Db}
    (h : ∀ kvs, c = .moveBatch kvs → c.Guarded env cfg DropsMarker s) :
    c.Guarded env cfg DropsMarker s := by
  by_cases hc : ∃ kvs, c = .moveBatch kvs
  · obtain ⟨kvs, hk⟩ := hc
    exact h kvs hk
  · exact Call.guarded_dropsMarker (fun kvs hk => hc ⟨kvs, hk⟩) s

theorem Call.on_true (c : Call) : c.On fun _ => True := by
  cases c <;> simp [Call.On]

end

/-! ### Whole runs -/

/-- **Cache entries have a time to live**, in runs in which every key that is stored as a cache
entry is given a time stamp or has one, and no batch of moves removes a key that it has itself
marked: every marked key has a time stamp. -/
theorem cache_entries_expire (env : Env) (henv : env.Reliable) (cfg : Config) (n : ℕ) (s : Db)
    (h : Reach env cfg (fun s c => c.Guarded env cfg MarksExpiring s ∧
      ∀ kvs, c = .moveBatch kvs → c.Guarded env cfg DropsMarker s) (Db.init n) s) (k : Bytes)
    (hk : (s.columns.get .cache k).isSome) : (s.columns.get .expiration k).isSome := by
  have hI : s.columns.CacheExpires := Reach.invariant henv (P := fun _ => True)
    (G := fun cm v a => MarksExpiring cm v a ∧ DropsMarker cm v a)
    (fun _ _ _ _ _ hg hv => hv.act hg.1 hg.2) (fun _ _ _ _ _ => trivial)
    (fun k hk => by simp at hk)
    (h.mono fun s c hc => ⟨c.on_true, fun as ha =>
      (hc.1 as ha).and (Call.guarded_dropsMarker_of hc.2 as ha)⟩)
  exact hI k hk

/-- `/b`, which was moved from the cache entry `/a`, has a time stamp. -/
theorem cache_entries_expire_moved :
    let env := Env.reliable tickingClock
    let s := runCalls env (.plain false) (Db.init 1)
      [.set ⟨[47, 97], [1], { expirationInSeconds := 100, cache := true }⟩,
        .moveBatch [⟨[47, 97], [47, 98], {}⟩]]
    (s.columns.get .cache [47, 98]).isSome ∧ (s.columns.get .expiration [47, 98]).isSome := by
  intro env s
  have hmarked : (s.columns.get .cache [47, 98]).isSome := by decide
  refine ⟨hmarked, cache_entries_expire env (Env.reliable_reliable _) (.plain false) 1 s
    (.call _ (.call _ .start ⟨?_, fun _ h => by cases h⟩) ⟨?_, fun _ _ => ?_⟩) _ hmarked⟩
  · exact Call.guarded_of_actions rfl ⟨by decide, trivial⟩
  · exact Call.guarded_of_actions rfl ⟨by decide, by decide, trivial⟩
  · exact Call.guarded_of_actions rfl ⟨by decide, by decide, trivial⟩

/-- **A cache entry without expiration.**  A batch stores `/a` as a cache entry although no
expiration is asked for. -/
theorem cache_entry_without_expiration :
    let env := Env.reliable tickingClock
    let s := (Call.setBatch [⟨[47, 97], [1], { cache := true }⟩]).next env (.plain false)
      (Db.init 1)
    (s.columns.get .cache [47, 97]).isSome ∧ s.columns.get .expiration [47, 97] = none := by
  decide

/-- **The side columns describe live keys only**, in runs in which no batch of moves removes a key
that it has itself marked: every key with a time stamp or a marker is live. -/
theorem side_columns_live (env : Env) (henv : env.Reliable) (cfg : Config) (n : ℕ) (s : Db)
    (h : Reach env cfg (fun s c => ∀ kvs, c = .moveBatch kvs → c.Guarded env cfg DropsMarker s)
      (Db.init n) s) (k : Bytes)
    (hk : (s.columns.get .expiration k).isSome ∨ (s.columns.get .cache k).isSome) :
    (s.columns.get .data k).isSome := by
  have hI : s.columns.SidesLive := Reach.invariant henv (P := fun _ => True) (G := DropsMarker)
    (fun _ _ _ _ _ hg hv => hv.act hg) (fun _ _ _ _ _ => trivial)
    (fun k hk => by simp at hk)
    (h.mono fun s c hc => ⟨c.on_true, Call.guarded_dropsMarker_of hc⟩)
  exact hI k hk

/-- `/b`, which was moved from the cache entry `/a`, is live. -/
theorem side_columns_live_moved :
    let env := Env.reliable tickingClock
    let s := runCalls env (.plain false) (Db.init 1)
      [.set ⟨[47, 97], [1], { expirationInSeconds := 100, cache := true }⟩,
        .moveBatch [⟨[47, 97], [47, 98], {}⟩]]
    (s.columns.get .cache [47, 98]).isSome ∧ (s.columns.get .data [47, 98]).isSome := by
  intro env s
  have hmarked : (s.columns.get .cache [47, 98]).isSome := by decide
  refine ⟨hmarked, side_columns_live env (Env.reliable_reliable _) (.plain false) 1 s
    (.call _ (.call _ .start fun _ h => by cases h) fun _ _ => ?_) _ (.inr hmarked)⟩
  exact Call.guarded_of_actions rfl ⟨by decide, by decide, trivial⟩

/-- **A marker of a key that is gone.**  The cache entry `/a` is moved to `/b` and on to `/c` by one
batch, which leaves the marker of `/b`. -/
theorem marker_left_by_batch :
    let env := Env.reliable tickingClock
    let s := (Call.set ⟨[47, 97], [1], { expirationInSeconds := 100, cache := true }⟩).next env
      (.plain false) (Db.init 1)
    let c : Call := .moveBatch [⟨[47, 97], [47, 98], {}⟩, ⟨[47, 98], [47, 99], {}⟩]
    c.answer env (.plain false) s = .bool true ∧
      ((c.next env (.plain false) s).columns.get .cache [47, 98]).isSome ∧
      (c.next env (.plain false) s).columns.get .data [47, 98] = none := by
  decide

end ConfigDb
