import ConfigDb.Storage.Overwrite

/-!
# Moving a key

`move` reads the value, the marker and the time stamp of its source, removes the source and sets the
destination.  The destination gets the marker of the source, and what is left of its time in whole
seconds, as an unsigned number of 32 bits.  If that number is zero, no time stamp is written; and a
time stamp or a marker that the destination has already is not deleted (see
`ConfigDb.Storage.Overwrite`).

## Main results

* `Call.next_of_moves` : what a `move` that answers `true` leaves.
* `rename_iff` : when a `move` renames its source.
-/

namespace ConfigDb

open Database

/-- The call moves one key: it is the single call, or the batch of one. -/
def Call.Moves (d : RequestData) (c : Call) : Prop := c = .move d ∨ c = .moveBatch [d]

/-- The key `src` of the state `s` is called `dest` in the state `t`. -/
structure Renamed (cfg : Config) (src dest : Bytes) (s t : Db) : Prop where
  /-- The source has no value. -/
  data : t.columns.get .data (getKey src) = none
  /-- The source has no time stamp. -/
  expiration : t.columns.get .expiration (getKey src) = none
  /-- The source has no marker. -/
  cache : t.columns.get .cache (getKey src) = none
  /-- The destination has the value of the source. -/
  value : ∀ env : Env, env.Reliable →
    (Call.get dest).answer env cfg t = .value (s.columns.value cfg (getKey src))
  /-- The destination has a time stamp if and only if the source had one. -/
  expires : (t.columns.get .expiration (getKey dest)).isSome =
    (s.columns.get .expiration (getKey src)).isSome
  /-- The destination has a marker if and only if the source had one. -/
  marked : (t.columns.get .cache (getKey dest)).isSome = (s.columns.get .cache (getKey src)).isSome

/-- A move at time `now` finds the side columns of the two keys in order. -/
structure Store.CarriesOver (v : Columns) (now : ℕ) (src dest : Bytes) : Prop where
  /-- If the source expires, a whole second is left, in 32 bits, or the destination has a time stamp
  anyway. -/
  left : (v.get .expiration src).isSome → v.secondsLeft now src ≠ 0 ∨
    (v.get .expiration dest).isSome
  /-- If the source does not expire, neither does the destination. -/
  unexpired : v.get .expiration src = none → v.get .expiration dest = none
  /-- If the source has a marker, it is not empty, or the destination has one anyway. -/
  marker : (v.get .cache src).isSome → v.get .cache src ≠ some [] ∨ (v.get .cache dest).isSome
  /-- If the source has no marker, neither has the destination. -/
  unmarked : v.get .cache src = none → v.get .cache dest = none

section

variable {env : Env} {cfg : Config} {d : RequestData} {c : Call}

theorem Call.Moves.mutates (hc : c.Moves d) : c.Mutates := by
  rcases hc with rfl | rfl <;> trivial

/-- **What a `move` leaves** that answers `true` and overlooks no failure: it drops the source and
puts the destination in. -/
theorem Call.next_of_moves (hc : c.Moves d) {s : Db} (h : c.answer env cfg s = .bool true)
    (hover : ¬ StoreCall.Overlooked (c.storeCalls env cfg s)) :
    ∃ v t t₁, s.columns.get .data (getKey d.key) = some v ∧
      (c.next env cfg s).columns = (s.columns.removeEntry (getKey d.key)
        (s.columns.get .cache (getKey d.key)).isSome).setEntry cfg (getKey d.value)
          (cfg.cipher.decrypt v) (IdealDb.moveOpts env (⟨s.columns, s.columns⟩, s.2) d.options
            (getKey d.key)) t t₁ ∧
      (cfg.enableCache = true →
        (c.next env cfg s).2.valueCache[getKey d.value]? = some (cfg.cipher.decrypt v)) := by
  obtain ⟨as, ha, hcols, hcache⟩ := c.committed_of_true hc.mutates h hover
  have hen : c.enters = true := by
    cases hen : c.enters with
    | true => rfl
    | false => simp [Call.answer, Call.prog_of_not_enters hc.mutates hen] at h
  have hitem : (Item.move d).actions (Env.reliable env.clock) cfg
      (⟨s.columns, s.columns⟩, s.2) = some as := by
    rw [← itemActions_singleton, ← ha]
    rcases hc with rfl | rfl
    · simp only [Call.actions, Call.items, hen, if_true]
      rfl
    · rfl
  simp only [Item.actions] at hitem
  split_ifs at hitem
  cases hv : s.columns.get .data (getKey d.key) with
  | none => simp [hv] at hitem
  | some v =>
    rw [hv] at hitem
    obtain rfl := Option.some.inj hitem
    refine ⟨v, _, _, rfl, hcols, fun hc => ?_⟩
    rw [hcache]
    simp [Action.onCache, putAction, hc]

theorem IdealDb.moveOpts_cache_iff {s : IdealDb} {opts : Options} (hf : opts.cache = false)
    (ks : Bytes) : (s.moveOpts env opts ks).cache = true ↔
      (s.1.view.get .cache ks).isSome ∧ s.1.view.get .cache ks ≠ some [] := by
  rw [IdealDb.moveOpts]
  cases s.1.view.get .cache ks with
  | none => simp [moveOptions, hf]
  | some m => cases m <;> simp [moveOptions, hf]

theorem Store.secondsLeft_of_none {v : Columns} {ks : Bytes} (hn : v.get .expiration ks = none)
    (now : ℕ) : v.secondsLeft now ks = 0 := by
  rw [Store.secondsLeft, hn]
  rfl

theorem Store.carriesOver_iff {v : Columns} {now : ℕ} {src dest : Bytes} {marks : Bool}
    (hmarks : marks = true ↔ (v.get .cache src).isSome ∧ v.get .cache src ≠ some []) :
    v.CarriesOver now src dest ↔
      (v.secondsLeft now src != 0 || (v.get .expiration dest).isSome) =
          (v.get .expiration src).isSome ∧
        (marks || (v.get .cache dest).isSome) = (v.get .cache src).isSome := by
  constructor
  · intro hk
    constructor
    · cases hg : v.get .expiration src with
      | none => simp [Store.secondsLeft_of_none hg, hk.unexpired hg]
      | some x => simpa using hk.left (by simp [hg])
    · cases hg : v.get .cache src with
      | none =>
        have hno : marks = false := by
          rw [← Bool.not_eq_true, hmarks, hg]
          simp
        simp [hno, hk.unmarked hg]
      | some x =>
        have hs := hk.marker (by simp [hg])
        have hor : marks = true ∨ (v.get .cache dest).isSome = true :=
          hs.imp_left fun hne' => hmarks.2 ⟨by simp [hg], hne'⟩
        simpa using hor
  · rintro ⟨hexp, hcache⟩
    refine ⟨fun hs => ?_, fun hn => ?_, fun hs => ?_, fun hn => ?_⟩
    · rw [hs] at hexp
      simpa using hexp
    · rw [hn, Store.secondsLeft_of_none hn] at hexp
      simpa using hexp
    · rw [hs, Bool.or_eq_true, hmarks] at hcache
      exact hcache.imp_left And.right
    · rw [hn] at hcache
      simpa using (Bool.or_eq_false_iff.1 hcache).2

end

/-- **When a move is a rename.**  A move that asks for neither an expiration nor a cache entry,
answers `true` and overlooks no failure renames its source exactly if the side columns of the two
keys are in order: if the source expires, at least one whole second is left, or the destination has
a time stamp already; if it does not, the destination has no time stamp; if the source has a marker,
that is not empty, or the destination has one already; and if it has none, neither has the
destination. -/
theorem rename_iff (env : Env) (cfg : Config) (hlaw : cfg.cipher.Lawful) (s : Db) (d : RequestData)
    (c : Call) (hc : c.Moves d) (hne : getKey d.key ≠ getKey d.value) (hd : d.value ≠ [])
    (he : d.options.expirationInSeconds = 0) (hf : d.options.cache = false)
    (h : c.answer env cfg s = .bool true)
    (hover : ¬ StoreCall.Overlooked (c.storeCalls env cfg s)) :
    Renamed cfg d.key d.value s (c.next env cfg s) ↔
      s.columns.CarriesOver (env.clock s.2.nows) (getKey d.key) (getKey d.value) := by
  obtain ⟨v, t, t₁, hv, hcols, hm⟩ := Call.next_of_moves hc h hover
  let s₀ : IdealDb := (⟨s.columns, s.columns⟩, s.2)
  let o : Options := s₀.moveOpts env d.options (getKey d.key)
  have hcols' : (c.next env cfg s).columns = (s.columns.removeEntry (getKey d.key)
      (s.columns.get .cache (getKey d.key)).isSome).setEntry cfg (getKey d.value)
        (cfg.cipher.decrypt v) o t t₁ := hcols
  have hoexp : o.expirationInSeconds =
      s.columns.secondsLeft (env.clock s.2.nows) (getKey d.key) :=
    (s₀.moveOpts_expiration d.options (getKey d.key)).trans (if_neg (by simp [he]))
  have hocache : o.cache = true ↔ (s.columns.get .cache (getKey d.key)).isSome ∧
      s.columns.get .cache (getKey d.key) ≠ some [] := s₀.moveOpts_cache_iff hf (getKey d.key)
  -- the two keys, column by column
  have hexp : ((c.next env cfg s).columns.get .expiration (getKey d.value)).isSome =
      (s.columns.secondsLeft (env.clock s.2.nows) (getKey d.key) != 0 ||
        (s.columns.get .expiration (getKey d.value)).isSome) := by
    rw [hcols', Store.setEntry_isSome_expiration, if_pos rfl, Store.expires,
      Store.removeEntry_expiration, if_neg hne, hoexp]
  have hcache : ((c.next env cfg s).columns.get .cache (getKey d.value)).isSome =
      (o.cache || (s.columns.get .cache (getKey d.value)).isSome) := by
    have hrem : (s.columns.removeEntry (getKey d.key)
        (s.columns.get .cache (getKey d.key)).isSome).get .cache (getKey d.value) =
          s.columns.get .cache (getKey d.value) := by
      rw [Store.removeEntry_cache, if_neg fun hx => hne hx.2]
    rw [hcols', Store.setEntry_cache, hrem]
    cases o.cache <;> simp
  have hdata : (c.next env cfg s).columns.get .data (getKey d.key) = none := by
    rw [hcols, Store.setEntry_data, if_neg (Ne.symm hne), Store.removeEntry_data, if_pos rfl]
  have hsrc : (c.next env cfg s).columns.get .expiration (getKey d.key) = none := by
    rw [hcols, Store.setEntry_expiration, if_neg (fun hx => hne hx.2.symm),
      Store.removeEntry_expiration, if_pos rfl]
  have hmark : (c.next env cfg s).columns.get .cache (getKey d.key) = none := by
    rw [hcols, Store.setEntry_cache, if_neg (fun hx => hne hx.2.symm), Store.removeEntry_cache]
    cases hg : s.columns.get .cache (getKey d.key) <;> simp
  have hvalue (env' : Env) (henv' : env'.Reliable) :
      (Call.get d.value).answer env' cfg (c.next env cfg s) =
        .value (s.columns.value cfg (getKey d.key)) := by
    have hsome : s.columns.value cfg (getKey d.key) = some (cfg.cipher.decrypt v) := by
      rw [Store.value, hv, Option.map_some]
    rw [hsome]
    refine get_answer_of_value henv' hd ?_ hm
    rw [Store.value, hcols, Store.setEntry_data, if_pos rfl, Option.map_some, hlaw]
  rw [Store.carriesOver_iff hocache, ← hexp, ← hcache]
  constructor
  · intro hr
    exact ⟨hr.expires, hr.marked⟩
  · rintro ⟨hexpires, hmarked⟩
    exact ⟨hdata, hsrc, hmark, hvalue, hexpires, hmarked⟩

/-- `/a`, which has 100 seconds left, is moved to `/b`. -/
theorem rename_expiring :
    let env := Env.reliable fun n => n
    let s := (Call.set ⟨[47, 97], [1], { expirationInSeconds := 100 }⟩).next env (.plain false)
      (Db.init 1)
    let c : Call := .move ⟨[47, 97], [47, 98], {}⟩
    c.answer env (.plain false) s = .bool true ∧
      Renamed (.plain false) [47, 97] [47, 98] s (c.next env (.plain false) s) := by
  intro env s c
  have h : c.answer env (.plain false) s = .bool true := by decide
  refine ⟨h, (rename_iff env (.plain false) (Config.plain_lawful false) s ⟨[47, 97], [47, 98], {}⟩ c
    (.inl rfl) (by decide) (by decide) rfl rfl h ?_).2 ⟨?_, ?_, ?_, ?_⟩⟩
  all_goals decide

/-- **A move that is no rename.**  Half a second before `/a` expires it is moved to `/b`, which has
no time stamp. -/
theorem rename_loses_expiration :
    let env := Env.reliable fun n => if n < 2 then 0 else 10 ^ 9 / 2
    let s := (Call.set ⟨[47, 97], [1], { expirationInSeconds := 1 }⟩).next env (.plain false)
      (Db.init 1)
    let c : Call := .move ⟨[47, 97], [47, 98], {}⟩
    c.answer env (.plain false) s = .bool true ∧
      (s.columns.get .expiration [47, 97]).isSome ∧
      (c.next env (.plain false) s).columns.get .expiration [47, 98] = none := by
  decide

end ConfigDb
