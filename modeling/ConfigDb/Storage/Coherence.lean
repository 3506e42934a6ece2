import ConfigDb.Storage.Locks

/-!
# Coherence of the value cache

An entry of the value cache is *coherent* if its key is live and the entry is the decrypted
committed value of the key.  The cache is written while the transaction is still open, so coherence
depends on the transaction being committed afterwards.

* `stale_value_after_refused_batch` : a batch that is refused at a later item leaves values in the
  cache that were never committed.
* `value_cache_coherent` : as long as no database call fails and no item after the first of a batch
  is turned away, every entry is coherent after every call, and `get` answers as without the cache.
-/

namespace ConfigDb

open Std Database

/-- Every entry of the cache `m` is the decrypted value of its key in the columns `v`. -/
def Coherent (cfg : Config) (v : Columns) (m : ExtTreeMap Bytes Bytes) : Prop :=
  ∀ k x, m[k]? = some x → v.value cfg k = some x

/-- The calls that read or write values. -/
def Call.OnValues (c : Call) : Prop :=
  c.Mutates ∨ (∃ key, c = .get key) ∨ (∃ keys, c = .getBatch keys) ∨ c = .clearExpired

/-- The state after the cache has been emptied, as a thread of `ExpirationCache` does from time to
time. -/
def Db.clearAll (s : Db) : Db := (s.1, { s.2 with valueCache := ∅ })

/-- The states that runs from the empty store reach: calls on values, each `Orderly`, with the cache
emptied in between at any time. -/
inductive CacheReach (env : Env) (cfg : Config) : Db → Prop
  /-- The empty store. -/
  | start (n : ℕ) : CacheReach env cfg (Db.init n)
  /-- One more call. -/
  | call {s : Db} (c : Call) : CacheReach env cfg s → c.OnValues → c.Orderly env cfg s →
      CacheReach env cfg (c.next env cfg s)
  /-- The cache is emptied. -/
  | clearAll {s : Db} : CacheReach env cfg s → CacheReach env cfg s.clearAll

section

variable {env : Env} {cfg : Config}

/-! ### Items in a reliable environment -/

/-- In a reliable environment the items turned away are those without actions. -/
theorem Item.turnedAway_eq (henv : env.Reliable) (i : Item) (s : Db) :
    i.turnedAway env s = (i.actions env cfg s.ideal).isNone := by
  have hi : s.ideal.1.view = s.1.view := rfl
  cases i with
  | set d =>
    simp only [Item.turnedAway, Item.actions, Env.turnsAway, henv.starved, henv.fails,
      Bool.false_or, hi]
    split_ifs with h
    · exact h
    · simpa using h
  | remove key => rfl
  | move d =>
    have hv : (if d.options.ifNotExists then s.1.tick else s.1).view = s.1.view := by
      split <;> rfl
    simp only [Item.turnedAway, Item.actions, Env.turnsAway, Env.missing, henv.starved,
      henv.fails, Bool.false_or, hv, hi]
    split_ifs with h
    · simp only [Option.isNone_none, Bool.or_eq_true]
      exact .inl h
    · rw [Bool.eq_false_iff.2 h, Bool.false_or]
      cases s.1.view.get .data (getKey d.key) <;> rfl
  | expire entry => rfl

theorem NoneTurnedAway.accepted (henv : env.Reliable) {is : List Item} {s : Db}
    (h : NoneTurnedAway env cfg is s) : ∃ as, itemActions env cfg is s.ideal = some as := by
  induction is generalizing s with
  | nil => exact ⟨[], rfl⟩
  | cons i is ih =>
    have ha : i.turnedAway env s = (i.actions env cfg s.ideal).isNone := i.turnedAway_eq henv s
    rw [h.1] at ha
    obtain ⟨as, has⟩ := Option.ne_none_iff_exists'.1 (Option.isNone_eq_false_iff.1 ha.symm
      |> Option.isSome_iff_ne_none.1)
    obtain ⟨l, hl, -⟩ := Item.step_accepted henv has
    obtain ⟨h₁, h₂⟩ := exec_ideal henv (i.prog cfg) s
    obtain ⟨bs, hbs⟩ := ih (h.2 (h₁.trans (congrArg Prod.fst hl)))
    rw [h₂] at hbs
    exact ⟨as ++ bs, by simp [itemActions, has, Item.step, hbs]⟩

/-- The value cache after the items of an orderly call: the actions have been done to it if the call
commits, and it is as before if not. -/
theorem runItems_cache (henv : env.Reliable) {is : List Item} {s : Db}
    (ho : NoneTurnedAwayLater env cfg is s) :
    (runItems env cfg is s.ideal).2.2.valueCache = match itemActions env cfg is s.ideal with
      | none => s.2.valueCache
      | some as => as.foldl (Action.onCache cfg) s.2.valueCache := by
  cases hc : itemActions env cfg is s.ideal with
  | some as =>
    obtain ⟨l, hl, hv⟩ := runItems_accepted henv hc
    rw [hl]
    exact hv
  | none =>
    cases is with
    | nil => simp [itemActions] at hc
    | cons i is =>
      cases ha : i.actions env cfg s.ideal with
      | none =>
        rw [runItems, Item.step_refused henv ha]
        rfl
      | some as =>
        -- the first item is accepted, so the others are not turned away, and the call is accepted
        obtain ⟨l, hl, -⟩ := Item.step_accepted henv ha
        obtain ⟨h₁, h₂⟩ := exec_ideal henv (i.prog cfg) s
        obtain ⟨bs, hbs⟩ := (ho (h₁.trans (congrArg Prod.fst hl))).accepted henv
        rw [h₂] at hbs
        simp [itemActions, ha, Item.step, hbs] at hc

/-! ### Actions and calls -/

theorem Coherent.act (hen : cfg.enableCache = true) (hlaw : cfg.cipher.Lawful) {cm v : Columns}
    {m : ExtTreeMap Bytes Bytes} (h : Coherent cfg v m) (a : Action) :
    Coherent cfg (Store.act cfg cm v a) (a.onCache cfg m) := by
  intro k x hk
  cases a with
  | put ks value opts t t1 =>
    simp only [Action.onCache, hen, if_true, ExtTreeMap.getElem?_insert] at hk
    rw [Store.act, Store.value, Store.setEntry_data]
    by_cases hkk : ks = k
    · have hx : value = x := by simpa [hkk] using hk
      simp [hkk, hx, hlaw x]
    · simpa [hkk, Store.value] using h k x (by simpa [hkk] using hk)
  | drop ks =>
    simp only [Action.onCache, hen, if_true, ExtTreeMap.getElem?_erase] at hk
    rw [Store.act, Store.value, Store.removeEntry_data]
    by_cases hkk : ks = k
    · simp [hkk] at hk
    · simpa [hkk, Store.value] using h k x (by simpa [hkk] using hk)
  | forget y =>
    rw [Store.act, Store.value, Store.get_delete_of_ne _ (by decide)]
    exact h k x hk

theorem Coherent.actAll (hen : cfg.enableCache = true) (hlaw : cfg.cipher.Lawful) {cm v : Columns}
    {m : ExtTreeMap Bytes Bytes} (h : Coherent cfg v m) (as : List Action) :
    Coherent cfg (Store.actAll cfg cm v as) (as.foldl (Action.onCache cfg) m) := by
  induction as generalizing v m with
  | nil => exact h
  | cons a as ih => exact ih (h.act hen hlaw a)

theorem Coherent.loaded {v : Columns} {l : Local} (h : Coherent cfg v l.valueCache) (ks : Bytes) :
    Coherent cfg v (Local.loaded cfg v l ks).valueCache := by
  unfold Local.loaded
  cases hv : v.value cfg ks with
  | none => exact h
  | some value =>
    intro k x hk
    rw [Local.valueCache_cached] at hk
    split_ifs at hk
    · rw [ExtTreeMap.getElem?_insert] at hk
      by_cases hkk : ks = k
      · have hx : value = x := by simpa [hkk] using hk
        rw [← hkk, hv, hx]
      · exact h k x (by simpa [hkk] using hk)
    · exact h k x hk

/-- A store is coherent if its value cache is, over its columns. -/
abbrev Db.Coherent (cfg : Config) (s : Db) : Prop :=
  ConfigDb.Coherent cfg s.columns s.2.valueCache

theorem Db.Coherent.of_ideal {s : Db} {t : IdealDb} (h : s.ideal = t)
    (ht : ConfigDb.Coherent cfg t.1.committed t.2.valueCache) : s.Coherent cfg := by
  subst h
  exact ht

theorem Call.next_coherent_of_enters (henv : env.Reliable) (hen : cfg.enableCache = true)
    (hlaw : cfg.cipher.Lawful) {s : Db} {c : Call} (hc : c.enters = true)
    (ho : c.Orderly env cfg s) (h : s.Coherent cfg) : (c.next env cfg s).Coherent cfg := by
  refine .of_ideal (c.next_of_enters henv hc s) ?_
  have hi : c.items env s = c.work env s := if_pos hc
  have hcache : (runItems env cfg (c.work env s) (c.start env s)).2.2.valueCache =
      match itemActions env cfg (c.work env s) (c.start env s) with
      | none => s.2.valueCache
      | some as => as.foldl (Action.onCache cfg) s.2.valueCache := by
    by_cases hn : c = .clearExpired
    · subst hn
      obtain ⟨as, has⟩ : ∃ as, itemActions env cfg (Call.clearExpired.work env s)
          (Call.clearExpired.start env s) = some as := by
        by_contra hno
        have hr := runItems_refused henv (Option.eq_none_iff_forall_ne_some.2 (not_exists.1 hno))
        rw [Call.work, sweep_ideal henv] at hr
        simp at hr
      obtain ⟨l, hl, hv⟩ := runItems_accepted henv has
      rw [has, hl]
      exact hv
    · have hst : c.start env s = s.begun.ideal := by cases c <;> first | exact absurd rfl hn | rfl
      rw [hst]
      exact runItems_cache henv ho
  rw [hi]
  cases ha : itemActions env cfg (c.work env s) (c.start env s) with
  | none =>
    have hr := runItems_refused henv ha
    rw [ha] at hcache
    simp only [settle, hr, Bool.false_eq_true, if_false, IdealDb.withView_committed,
      IdealDb.withView_snd, runItems_committed henv, hcache]
    exact h
  | some as =>
    obtain ⟨l, hl, hv⟩ := runItems_accepted henv ha
    rw [ha] at hcache
    rw [hl] at hcache ⊢
    change ConfigDb.Coherent cfg (Store.actAll cfg s.columns s.columns as) l.valueCache
    rw [show l.valueCache = _ from hcache]
    exact Coherent.actAll hen hlaw h as

theorem get_coherent (henv : env.Reliable) {s : Db} (h : s.Coherent cfg) (key : Bytes) :
    Coherent cfg (execIdeal env (Database.get cfg key) s.ideal).2.1.committed
      (execIdeal env (Database.get cfg key) s.ideal).2.2.valueCache := by
  by_cases hk : key = []
  · subst hk
    exact h
  have hl := Coherent.loaded (l := s.2.acquired) h (getKey key)
  have hval : s.ideal.1.committed.value cfg (getKey key) = s.columns.value cfg (getKey key) := rfl
  rw [get_ideal henv hk, hval]
  cases s.ideal.cacheLookup cfg (getKey key) with
  | some v => exact h
  | none =>
    unfold Local.loaded at hl
    cases hg : s.columns.value cfg (getKey key) with
    | none => exact h
    | some v =>
      rw [hg] at hl
      exact hl

theorem getBatch_coherent (henv : env.Reliable) {s : Db} (h : s.Coherent cfg)
    (keys : List Bytes) :
    Coherent cfg (execIdeal env (Database.getBatch cfg keys) s.ideal).2.1.committed
      (execIdeal env (Database.getBatch cfg keys) s.ideal).2.2.valueCache := by
  have fold : ∀ (ks : List Bytes) (l : Local), Coherent cfg s.columns l.valueCache →
      Coherent cfg s.columns (ks.foldl (Local.loaded cfg s.columns) l).valueCache := by
    intro ks
    induction ks with
    | nil => exact fun l hl => hl
    | cons k ks ih => exact fun l hl => ih _ (hl.loaded k)
  rw [getBatch_ideal henv]
  exact fold _ _ h

theorem Call.next_coherent (henv : env.Reliable) (hen : cfg.enableCache = true)
    (hlaw : cfg.cipher.Lawful) {s : Db} {c : Call} (hv : c.OnValues) (ho : c.Orderly env cfg s)
    (h : s.Coherent cfg) : (c.next env cfg s).Coherent cfg := by
  cases hc : c.enters with
  | true => exact Call.next_coherent_of_enters henv hen hlaw hc ho h
  | false =>
    refine .of_ideal (Call.next_ideal henv _ s) ?_
    obtain hm | ⟨key, rfl⟩ | ⟨keys, rfl⟩ | rfl := hv
    · rw [Call.prog_of_not_enters hm hc]
      exact h
    · rw [Call.prog, execIdeal_map]
      exact get_coherent henv h key
    · rw [Call.prog, execIdeal_map]
      exact getBatch_coherent henv h keys
    · simp [Call.enters] at hc

theorem CacheReach.coherent (henv : env.Reliable) (hen : cfg.enableCache = true)
    (hlaw : cfg.cipher.Lawful) {s : Db} (h : CacheReach env cfg s) : s.Coherent cfg := by
  induction h with
  | start n => exact fun k x hk => by simp [Db.init, Db.idle] at hk
  | call c _ hv ho ih => exact Call.next_coherent henv hen hlaw hv ho ih
  | clearAll _ ih => exact fun k x hk => by simp [Db.clearAll] at hk

theorem Db.Coherent.get_answer (henv : env.Reliable) {s : Db} (h : s.Coherent cfg) (key : Bytes) :
    (Call.get key).answer env cfg s =
      (Call.get key).answer env { cfg with enableCache := false } s := by
  rw [Call.answer_ideal henv, Call.answer_ideal henv, Call.prog, Call.prog, execIdeal_map,
    execIdeal_map]
  by_cases hk : key = []
  · subst hk
    rfl
  rw [get_ideal henv hk, get_ideal henv hk]
  have hoff : s.ideal.cacheLookup { cfg with enableCache := false } (getKey key) = none := rfl
  have hval : s.ideal.1.committed.value { cfg with enableCache := false } (getKey key) =
      s.columns.value cfg (getKey key) := rfl
  have hval' : s.ideal.1.committed.value cfg (getKey key) = s.columns.value cfg (getKey key) := rfl
  rw [hoff, hval, hval']
  cases hl : s.ideal.cacheLookup cfg (getKey key) with
  | none => cases s.columns.value cfg (getKey key) <;> rfl
  | some v =>
    have hv : s.columns.value cfg (getKey key) = some v := by
      simp only [IdealDb.cacheLookup] at hl
      split_ifs at hl
      exact h _ _ hl
    rw [hv]

end

/-- **The value cache is coherent**, in runs in which no database call fails and no item after the
first of a batch is turned away: after every call each entry of the cache is the decrypted committed
value of its key, and `get` answers as it would without the cache. -/
theorem value_cache_coherent (env : Env) (henv : env.Reliable) (cfg : Config)
    (hen : cfg.enableCache = true) (hlaw : cfg.cipher.Lawful) (s : Db) (h : CacheReach env cfg s) :
    (∀ k v, s.2.valueCache[k]? = some v → s.columns.value cfg k = some v) ∧
      ∀ key, (Call.get key).answer env cfg s =
        (Call.get key).answer env { cfg with enableCache := false } s :=
  ⟨h.coherent henv hen hlaw, fun key => (h.coherent henv hen hlaw).get_answer henv key⟩

/-- After `/a` has been set, the cache answers for it. -/
theorem value_cache_coherent_set :
    let c : Call := .set ⟨[97], [1], {}⟩
    let s := c.next (.reliable fun _ => 0) (.plain true) (Db.init 1)
    s.2.valueCache[([47, 97] : Bytes)]? = some [1] ∧
      s.columns.value (.plain true) [47, 97] = some [1] := by
  intro c s
  have hc : s.2.valueCache[([47, 97] : Bytes)]? = some [1] := by decide
  exact ⟨hc, (value_cache_coherent _ (Env.reliable_reliable _) _ rfl (Config.plain_lawful _) s
    (.call c (.start 1) (.inl trivial) (fun _ => trivial))).1 _ _ hc⟩

/-- **A refused batch leaves an uncommitted value in the cache.**  `/b` is there; a batch that sets
`/a`, and then `/b` only if it does not exist, is refused.  The cache keeps the value of `/a`, and
`get` returns a value that was never stored. -/
theorem stale_value_after_refused_batch :
    let env := Env.reliable fun _ => 0
    let s := runCalls env (.plain true) (Db.init 2)
      [.set ⟨[98], [1], {}⟩, .setBatch [⟨[97], [2], {}⟩, ⟨[98], [3], { ifNotExists := true }⟩]]
    s.2.valueCache[([47, 97] : Bytes)]? = some [2] ∧ s.columns.get .data [47, 97] = none ∧
      (Call.get [97]).answer env (.plain true) s = .value (some [2]) ∧
      (Call.get [97]).answer env (.plain false) s = .value none := by
  decide

end ConfigDb
