import ConfigDb.Storage.Items

/-!
# Two nodes with the same contents

Two stores are *alike* if their `data`, `forrest` and `cache` columns are equal and their
`expiration` columns have the same keys; the time stamps there are those of each node's own clock.
This file says when the same item, at work on two stores that are alike, leaves them alike.

A move without an expiration of its own gives the destination what is left of the source's
expiration, in whole seconds by the clock of the node.  This is the one place where a time stamp
decides about the keys of the `expiration` column.

## Main results

* `Alike.setEntry_iff`, `Alike.removeEntry` : single writes.
* `replay_accepted` : items that one node accepts, and that agree about expirations, are accepted at
  the other node, and leave the two alike.
-/

namespace ConfigDb

open Std Database

/-- The two stores have the same contents, up to time stamps. -/
structure Alike (v w : Columns) : Prop where
  data : v .data = w .data
  forrest : v .forrest = w .forrest
  cache : v .cache = w .cache
  expiration : ∀ k, (v.get .expiration k).isSome = (w.get .expiration k).isSome

namespace Store

variable {v w : Columns}

theorem get_congr {c : Column} (h : v c = w c) (k : Bytes) : v.get c k = w.get c k := by
  rw [get, get, h]

theorem addLink_congr (h : v .forrest = w .forrest) (t : Tuple) :
    v.addLink t .forrest = w.addLink t .forrest := by
  have hg := get_congr h t.1
  unfold addLink
  rw [hg]
  cases w.get .forrest t.1 with
  | none => simp [h]
  | some node =>
    dsimp only
    split_ifs
    · exact h
    · simp [h]

theorem link_congr (h : v .forrest = w .forrest) (ts : List Tuple) :
    v.link ts .forrest = w.link ts .forrest := by
  induction ts generalizing v w with
  | nil => exact h
  | cons t ts ih => exact ih (addLink_congr h t)

theorem unlink_congr (h : v .forrest = w .forrest) (hd : v .data = w .data) (ts : List Tuple) :
    v.unlink ts .forrest = w.unlink ts .forrest := by
  induction ts generalizing v w with
  | nil => exact h
  | cons t ts ih =>
    obtain ⟨path, child⟩ := t
    have hg := get_congr h path
    have hgd := get_congr hd path
    simp only [unlink, hg, hgd]
    cases w.get .forrest path with
    | none => exact h
    | some node =>
      dsimp only
      split_ifs
      · cases w.get .data path with
        | none => exact ih (by simp [h]) (by simp [hd])
        | some _ => simp [h]
      · simp [h]

end Store

/-! ### Single writes -/

section

variable {cfg cfg' : Config} {v w : Columns} {opts opts' : Options} {ks value : Bytes}
  {t t1 t' t1' : ℕ}

theorem Alike.refl (v : Columns) : Alike v v := ⟨rfl, rfl, rfl, fun _ => rfl⟩

/-- The key has a time stamp after a write. -/
def Store.expires (v : Columns) (ks : Bytes) (opts : Options) : Bool :=
  opts.expirationInSeconds != 0 || (v.get .expiration ks).isSome

theorem Store.setEntry_isSome_expiration (k : Bytes) :
    ((v.setEntry cfg ks value opts t t1).get .expiration k).isSome =
      if ks = k then v.expires ks opts else (v.get .expiration k).isSome := by
  rw [Store.setEntry_expiration, Store.expires]
  by_cases hk : ks = k
  · subst hk
    by_cases hn : opts.expirationInSeconds = 0 <;> simp [hn]
  · simp [hk]

/-- **The same write** leaves the stores alike exactly if the key has a time stamp afterwards at
both or at neither. -/
theorem Alike.setEntry_iff (h : Alike v w) (hcipher : cfg.cipher = cfg'.cipher)
    (hcache : opts.cache = opts'.cache) :
    Alike (v.setEntry cfg ks value opts t t1) (w.setEntry cfg' ks value opts' t' t1') ↔
      v.expires ks opts = w.expires ks opts' := by
  constructor
  · intro ha
    have he := ha.expiration ks
    rwa [Store.setEntry_isSome_expiration, Store.setEntry_isSome_expiration, if_pos rfl,
      if_pos rfl] at he
  · intro he
    refine ⟨Store.ext_col fun k => ?_, ?_, Store.ext_col fun k => ?_, fun k => ?_⟩
    · rw [Store.setEntry_data, Store.setEntry_data, hcipher, Store.get_congr h.data]
    · rw [Store.setEntry_forrest, Store.setEntry_forrest, hcache, h.forrest]
      split
      · rfl
      · exact Store.link_congr (by simp [h.forrest]) _
    · rw [Store.setEntry_cache, Store.setEntry_cache, hcache, Store.get_congr h.cache]
    · rw [Store.setEntry_isSome_expiration, Store.setEntry_isSome_expiration, he, h.expiration k]

/-- A write that is a cache entry at one node and a plain one at the other leaves the stores alike
exactly if the key is marked and linked already. -/
theorem Alike.setEntry_cache_iff (h : Alike v w) (hcipher : cfg.cipher = cfg'.cipher)
    (hcache : opts.cache = true) (hcache' : opts'.cache = false)
    (hexp : opts.expirationInSeconds = opts'.expirationInSeconds) :
    Alike (v.setEntry cfg ks value opts t t1) (w.setEntry cfg' ks value opts' t' t1') ↔
      v.get .cache ks = some [49] ∧ v.link (treeComponents ks) .forrest = v .forrest := by
  have hlink : (w.put .data ks (cfg'.cipher.encrypt value)).link (treeComponents ks) .forrest =
      v.link (treeComponents ks) .forrest :=
    Store.link_congr (by simp [h.forrest]) _
  constructor
  · intro ha
    have hc := Store.get_congr ha.cache ks
    have hf := ha.forrest
    rw [Store.setEntry_cache, Store.setEntry_cache, hcache, hcache', if_pos ⟨rfl, rfl⟩,
      if_neg (by simp)] at hc
    rw [Store.setEntry_forrest, Store.setEntry_forrest, hcache, hcache', if_pos rfl,
      if_neg (by simp), hlink] at hf
    exact ⟨(Store.get_congr h.cache ks).trans hc.symm, hf.symm⟩
  · rintro ⟨hm, hl⟩
    refine ⟨Store.ext_col fun k => ?_, ?_, Store.ext_col fun k => ?_, fun k => ?_⟩
    · rw [Store.setEntry_data, Store.setEntry_data, hcipher, Store.get_congr h.data]
    · rw [Store.setEntry_forrest, Store.setEntry_forrest, hcache, hcache', if_pos rfl,
        if_neg (by simp), hlink, hl]
    · rw [Store.setEntry_cache, Store.setEntry_cache, ← Store.get_congr h.cache k]
      by_cases hk : ks = k
      · subst hk
        simp [hcache, hcache', hm]
      · simp [hk]
    · rw [Store.setEntry_isSome_expiration, Store.setEntry_isSome_expiration, Store.expires,
        Store.expires, hexp, h.expiration, h.expiration]

/-- **The same removal** leaves the stores alike. -/
theorem Alike.removeEntry (h : Alike v w) (ks : Bytes) (marked : Bool) :
    Alike (v.removeEntry ks marked) (w.removeEntry ks marked) := by
  refine ⟨Store.ext_col fun k => ?_, ?_, Store.ext_col fun k => ?_, fun k => ?_⟩
  · rw [Store.removeEntry_data, Store.removeEntry_data, Store.get_congr h.data]
  · rw [Store.removeEntry_forrest, Store.removeEntry_forrest, h.forrest]
    split
    · rfl
    · exact Store.unlink_congr (by simp [h.forrest]) (by simp [h.data]) _
  · rw [Store.removeEntry_cache, Store.removeEntry_cache, Store.get_congr h.cache]
  · rw [Store.removeEntry_expiration, Store.removeEntry_expiration]
    split
    · rfl
    · exact h.expiration k

end

/-! ### Items -/

/-- The request without its `ifNotExists`. -/
def RequestData.unconditional (d : RequestData) : RequestData :=
  { d with options := { d.options with ifNotExists := false } }

/-- An item as it is replayed at another node: `ifNotExists` has been decided already. -/
def Item.replay : Item → Item
  | .set d => .set d.unconditional
  | .remove key => .remove key
  | .move d => .move d.unconditional
  | .expire entry => .expire entry

/-- The whole seconds, as a 32-bit number, that are left until a key expires, at time `now`. -/
def Store.secondsLeft (v : Columns) (now : ℕ) (ks : Bytes) : UInt32 :=
  match (v.get .expiration ks).bind (fromChars 64) with
  | none => 0
  | some x => UInt32.ofNat (ttlAt now x)

/-- The two nodes agree on whether an item leaves its key with a time stamp.  This can fail for a
move only: it asks for an expiration, or the destination has one already, or what is left of the
source's is zero at both nodes or at neither. -/
def ExpiryAgrees (env env' : Env) (s s' : IdealDb) : Item → Prop
  | .move d => d.options.expirationInSeconds ≠ 0 ∨
      (getKey d.key ≠ getKey d.value ∧ (s.1.view.get .expiration (getKey d.value)).isSome) ∨
      (s.1.view.secondsLeft (env.clock s.2.nows) (getKey d.key) = 0 ↔
        s'.1.view.secondsLeft (env'.clock s'.2.nows) (getKey d.key) = 0)
  | _ => True

instance (env env' : Env) (s s' : IdealDb) : ∀ i, Decidable (ExpiryAgrees env env' s s' i)
  | .move d => inferInstanceAs (Decidable (d.options.expirationInSeconds ≠ 0 ∨
      (getKey d.key ≠ getKey d.value ∧ (s.1.view.get .expiration (getKey d.value)).isSome) ∨
      (s.1.view.secondsLeft (env.clock s.2.nows) (getKey d.key) = 0 ↔
        s'.1.view.secondsLeft (env'.clock s'.2.nows) (getKey d.key) = 0)))
  | .set _ => inferInstanceAs (Decidable True)
  | .remove _ => inferInstanceAs (Decidable True)
  | .expire _ => inferInstanceAs (Decidable True)

/-- Two transactions over stores that are alike. -/
structure Twin (s s' : IdealDb) : Prop where
  view : Alike s.1.view s'.1.view
  cache : s.1.committed .cache = s'.1.committed .cache

section

variable {env env' : Env} {cfg cfg' : Config} {s s' : IdealDb}

theorem IdealDb.moveOpts_expiration (opts : Options) (ks : Bytes) :
    (s.moveOpts env opts ks).expirationInSeconds =
      if opts.expirationInSeconds ≠ 0 then opts.expirationInSeconds
      else s.1.view.secondsLeft (env.clock s.2.nows) ks := by
  simp only [IdealDb.moveOpts, moveOptions, moveExp, Store.secondsLeft]
  split_ifs
  · exact UInt32.ofNat_toNat
  · cases (s.1.view.get .expiration ks).bind (fromChars 64) with
    | none => rfl
    | some x => dsimp only

theorem Twin.moveOpts_cache (h : Twin s s') (d : RequestData) (ks : Bytes) :
    (s.moveOpts env d.options ks).cache = (s'.moveOpts env' d.unconditional.options ks).cache := by
  simp only [IdealDb.moveOpts, moveOptions, RequestData.unconditional,
    Store.get_congr h.view.cache ks]

theorem expires_agree_iff (e a b : UInt32) (p : Bool) :
    ((if e ≠ 0 then e else a) != 0 || p) = ((if e ≠ 0 then e else b) != 0 || p) ↔
      e ≠ 0 ∨ p = true ∨ (a = 0 ↔ b = 0) := by
  cases p with
  | true => simp
  | false => by_cases he : e = 0 <;> by_cases ha : a = 0 <;> by_cases hb : b = 0 <;>
    simp [he, ha, hb, bne]

theorem Twin.move_iff (h : Twin s s') (hcipher : cfg.cipher = cfg'.cipher) (d : RequestData)
    (value : Bytes) (marked : Bool) (t t1 t' t1' : ℕ) :
    Alike ((s.1.view.removeEntry (getKey d.key) marked).setEntry cfg (getKey d.value) value
        (s.moveOpts env d.options (getKey d.key)) t t1)
      ((s'.1.view.removeEntry (getKey d.key) marked).setEntry cfg' (getKey d.value) value
        (s'.moveOpts env' d.unconditional.options (getKey d.key)) t' t1') ↔
      ExpiryAgrees env env' s s' (.move d) := by
  rw [(h.view.removeEntry _ marked).setEntry_iff hcipher (h.moveOpts_cache d _)]
  have he : d.unconditional.options.expirationInSeconds = d.options.expirationInSeconds := rfl
  simp only [Store.expires, IdealDb.moveOpts_expiration, he, Store.removeEntry_expiration,
    ExpiryAgrees]
  have hx : (if getKey d.key = getKey d.value then none
      else s'.1.view.get .expiration (getKey d.value)).isSome =
        decide (getKey d.key ≠ getKey d.value ∧
          (s.1.view.get .expiration (getKey d.value)).isSome) := by
    by_cases hk : getKey d.key = getKey d.value
    · simp [hk]
    · simp [hk, h.view.expiration]
  have hx' : (if getKey d.key = getKey d.value then none
      else s.1.view.get .expiration (getKey d.value)).isSome =
        decide (getKey d.key ≠ getKey d.value ∧
          (s.1.view.get .expiration (getKey d.value)).isSome) := by
    by_cases hk : getKey d.key = getKey d.value <;> simp [hk]
  rw [hx, hx', expires_agree_iff, decide_eq_true_iff]

/-- **An item that one node accepts** is accepted at the other, and leaves the two alike exactly if
they agree about its expiration. -/
theorem Item.replay_actions (i : Item) (env' : Env) (h : Twin s s')
    (hcipher : cfg.cipher = cfg'.cipher) {as : List Action} (ha : i.actions env cfg s = some as) :
    ∃ bs, i.replay.actions env' cfg' s' = some bs ∧
      (Alike (Store.actAll cfg s.1.committed s.1.view as)
          (Store.actAll cfg' s'.1.committed s'.1.view bs) ↔ ExpiryAgrees env env' s s' i) := by
  have hmark (ks : Bytes) : (s.1.committed.get .cache ks).isSome =
      (s'.1.committed.get .cache ks).isSome := by rw [Store.get_congr h.cache]
  cases i with
  | set d =>
    simp only [Item.actions] at ha
    split_ifs at ha
    obtain rfl := Option.some.inj ha
    refine ⟨[putAction env' s'.2 (getKey d.key) d.value d.unconditional.options],
      by simp [Item.replay, Item.actions, RequestData.unconditional], ?_⟩
    refine iff_of_true ((h.view.setEntry_iff hcipher rfl).2 ?_) trivial
    simp [Store.expires, h.view.expiration]
  | remove key =>
    obtain rfl := Option.some.inj ha
    refine ⟨_, rfl, iff_of_true ?_ trivial⟩
    have hr := h.view.removeEntry (getKey key) (s.1.committed.get .cache (getKey key)).isSome
    simpa [Store.actAll, Store.act, hmark] using hr
  | move d =>
    simp only [Item.actions] at ha
    split_ifs at ha
    have hd : s'.1.view.get .data (getKey d.key) = s.1.view.get .data (getKey d.key) :=
      (Store.get_congr h.view.data _).symm
    cases hv : s.1.view.get .data (getKey d.key) with
    | none => simp [hv] at ha
    | some v =>
      rw [hv] at ha hd
      obtain rfl := Option.some.inj ha
      refine ⟨[.drop (getKey d.key),
        putAction env' (s'.moveLocal env' cfg' d.unconditional.options (getKey d.key))
          (getKey d.value) (cfg'.cipher.decrypt v)
          (s'.moveOpts env' d.unconditional.options (getKey d.key))], ?_, ?_⟩
      · simp [Item.replay, Item.actions, RequestData.unconditional, hd]
      · simp only [Store.actAll, List.foldl_cons, List.foldl_nil, Store.act, putAction, hmark,
          hcipher]
        exact h.move_iff hcipher d _ _ _ _ _ _
  | expire entry =>
    obtain rfl := Option.some.inj ha
    refine ⟨_, rfl, iff_of_true ?_ trivial⟩
    have hr := h.view.removeEntry (getKey entry.2)
      (s.1.committed.get .cache (getKey entry.2)).isSome
    rw [hmark] at hr
    simp only [Store.actAll, List.foldl_cons, List.foldl_nil, Store.act, hmark]
    exact ⟨by simpa using hr.data, by simpa using hr.forrest, by simpa using hr.cache,
      by simpa using hr.expiration⟩

end

/-! ### Lists of items -/

/-- The nodes agree about the expiration of every item, each when its turn comes. -/
def ExpiriesAgree (env env' : Env) (cfg cfg' : Config) :
    List Item → IdealDb → IdealDb → Prop
  | [], _, _ => True
  | i :: is, s, s' => ExpiryAgrees env env' s s' i ∧
    ExpiriesAgree env env' cfg cfg' is (i.step env cfg s).2 (i.replay.step env' cfg' s').2

instance decidableExpiriesAgree (env env' : Env) (cfg cfg' : Config) :
    ∀ is s s', Decidable (ExpiriesAgree env env' cfg cfg' is s s')
  | [], _, _ => isTrue trivial
  | i :: is, s, s' =>
    haveI := decidableExpiriesAgree env env' cfg cfg' is (i.step env cfg s).2
      (i.replay.step env' cfg' s').2
    inferInstanceAs (Decidable (_ ∧ _))

section

variable {env env' : Env} {cfg cfg' : Config} {s s' : IdealDb}

/-- **Items that one node accepts** are accepted at the other, and leave the two alike if they agree
about the expirations. -/
theorem replay_accepted (henv : env.Reliable) (henv' : env'.Reliable) (h : Twin s s')
    (hcipher : cfg.cipher = cfg'.cipher) {is : List Item} {as : List Action}
    (ha : itemActions env cfg is s = some as) (hx : ExpiriesAgree env env' cfg cfg' is s s') :
    ∃ bs, itemActions env' cfg' (is.map Item.replay) s' = some bs ∧
      Alike (Store.actAll cfg s.1.committed s.1.view as)
        (Store.actAll cfg' s'.1.committed s'.1.view bs) := by
  induction is generalizing s s' as with
  | nil =>
    obtain rfl := Option.some.inj ha
    exact ⟨[], rfl, h.view⟩
  | cons i is ih =>
    cases ha₁ : i.actions env cfg s with
    | none => simp [itemActions, ha₁] at ha
    | some as₁ =>
      cases ha₂ : itemActions env cfg is (i.step env cfg s).2 with
      | none => simp [itemActions, ha₁, ha₂] at ha
      | some as₂ =>
        obtain rfl : as₁ ++ as₂ = as := by simpa [itemActions, ha₁, ha₂] using ha
        obtain ⟨bs₁, hb₁, halike⟩ := i.replay_actions env' h hcipher ha₁
        obtain ⟨l, hl, -⟩ := Item.step_accepted henv ha₁
        obtain ⟨l', hl', -⟩ := Item.step_accepted henv' hb₁
        -- the states after the first item
        have htwin : Twin (i.step env cfg s).2 (i.replay.step env' cfg' s').2 := by
          rw [hl, hl']
          exact ⟨halike.2 hx.1, h.cache⟩
        obtain ⟨bs₂, hb₂, halike₂⟩ := ih htwin ha₂ hx.2
        refine ⟨bs₁ ++ bs₂, by simp [itemActions, hb₁, hb₂], ?_⟩
        rw [Store.actAll_append, Store.actAll_append]
        rw [hl, hl'] at halike₂
        exact halike₂

end

end ConfigDb
