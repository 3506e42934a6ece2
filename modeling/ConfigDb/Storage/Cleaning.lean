import ConfigDb.Storage.Calls
import ConfigDb.Storage.Coherence

/-!
# The cleaning thread

`Synchrophasotron::RemoveExpiredElements` empties the caches from time to time: it counts its turns,
one a second, and empties a cache when the time to live of the cache divides the count.  Nothing is
known of the age of an entry.

So an entry that is not the value of its key, whatever has left it in the cache, is served as long
as the next time to live has not passed; and it is served until then.

## Main definitions

* `Cleaned.turn` : a turn of the thread.
* `Cleaned.step`, `Cleaned.run` : calls, and turns between them.

## Main results

* `stale_entries_cleared` : after as many turns as the time to live has seconds, the value cache is
  coherent, whatever it was before.
-/

namespace ConfigDb

open Std

/-- `ValueCache::getTTL`. -/
def ValueCache.getTTL : ℕ := 60

/-- A running store, and the thread that empties its value cache. -/
structure Cleaned where
  /-- The store. -/
  db : Db
  /-- The count of the thread, an `int`. -/
  count : ℕ := 1

/-- What happens next. -/
inductive CleanerStep
  /-- A call. -/
  | call (c : Call)
  /-- A turn of the thread. -/
  | turn

/-- The thread takes a turn. -/
def CleanerStep.isTurn : CleanerStep → Bool
  | .call _ => false
  | .turn => true

namespace Cleaned

/-- The loop of `RemoveExpiredElements`, once. -/
def turn (s : Cleaned) : Option Cleaned :=
  -- the overflow of an `int` is undefined
  if s.count + 1 < 2 ^ 31 then
    some ⟨if (s.count + 1) % ValueCache.getTTL = 0 then s.db.clearAll else s.db, s.count + 1⟩
  else none

/-- One step. -/
def step (env : Env) (cfg : Config) (s : Cleaned) : CleanerStep → Option Cleaned
  | .call c => some { s with db := c.next env cfg s.db }
  | .turn => s.turn

/-- A run, from a step to the next one. -/
def run (env : Env) (cfg : Config) : List CleanerStep → Cleaned → Option Cleaned
  | [], s => some s
  | e :: es, s => (s.step env cfg e).bind (run env cfg es)

end Cleaned

/-- A call is orderly. -/
def CleanerStep.Orderly (env : Env) (cfg : Config) (s : Cleaned) : CleanerStep → Prop
  | .call c => c.Orderly env cfg s.db
  | .turn => True

namespace Cleaned

/-- Every call of the run is orderly. -/
def Orderly (env : Env) (cfg : Config) : List CleanerStep → Cleaned → Prop
  | [], _ => True
  | e :: es, s => e.Orderly env cfg s ∧ ∀ s' ∈ s.step env cfg e, Orderly env cfg es s'

section

variable {env : Env} {cfg : Config} {s s' : Cleaned} {e : CleanerStep} {es : List CleanerStep}

theorem parseAll_local (es : List (Bytes × Reply Bytes)) (t : IdealDb) :
    ∃ m, (execIdeal env (Database.parseAll es) t).2 = t.withLocal (t.2.readClock m) := by
  induction es generalizing t with
  | nil => exact ⟨0, rfl⟩
  | cons e es ih =>
    obtain ⟨k, r⟩ := e
    cases r with
    | ok value =>
      simp only [Database.parseAll, execIdeal_bind, execIdeal_pure, parseTTL_ideal]
      cases fromChars 64 value with
      | none => exact ih t
      | some v =>
        obtain ⟨m, hm⟩ := ih (t.withLocal (t.2.readClock 1))
        refine ⟨1 + m, hm.trans ?_⟩
        simp only [IdealDb.withLocal, Local.readClock, Nat.add_assoc]
    | notFound =>
      simp only [Database.parseAll, execIdeal_bind, execIdeal_pure]
      exact ih t
    | error =>
      simp only [Database.parseAll, execIdeal_bind, execIdeal_pure]
      exact ih t

theorem ttlBatch_local (keys : List Bytes) (t : IdealDb) :
    ∃ m, (execIdeal env (Database.ttlBatch cfg keys) t).2 = t.withLocal (t.2.readClock m) := by
  rw [Database.ttlBatch, execIdeal_bind, withMutex_ideal, multiGet_ideal]
  exact parseAll_local _ t

/-- **An orderly call keeps the cache coherent.** -/
theorem next_coherent (henv : env.Reliable) (hen : cfg.enableCache = true)
    (hlaw : cfg.cipher.Lawful) {d : Db} {c : Call} (ho : c.Orderly env cfg d)
    (h : d.Coherent cfg) : (c.next env cfg d).Coherent cfg := by
  by_cases hv : c.OnValues
  · exact Call.next_coherent henv hen hlaw hv ho h
  · -- the other calls look neither at the cache nor at the values
    refine .of_ideal (Call.next_ideal henv _ d) ?_
    cases c with
    | list key =>
      rw [Call.prog, execIdeal_map]
      by_cases hk : key = []
      · subst hk
        exact h
      · rw [list_ideal hk]
        exact h
    | listBatch keys =>
      rw [Call.prog, execIdeal_map, listBatch_ideal]
      exact h
    | ttl key =>
      obtain ⟨m, hm⟩ := ttl_ideal env cfg key d.ideal
      rw [Call.prog, execIdeal_map, hm]
      exact h
    | ttlBatch keys =>
      obtain ⟨m, hm⟩ := @ttlBatch_local env cfg keys d.ideal
      rw [Call.prog, execIdeal_map]
      dsimp only
      rw [hm]
      exact h
    | get key => exact absurd (.inr (.inl ⟨key, rfl⟩)) hv
    | getBatch keys => exact absurd (.inr (.inr (.inl ⟨keys, rfl⟩))) hv
    | clearExpired => exact absurd (.inr (.inr (.inr rfl))) hv
    | _ => exact absurd (.inl trivial) hv

theorem turn_cases (h : s.turn = some s') : s'.count = s.count + 1 ∧
    ((s.count + 1) % ValueCache.getTTL = 0 ∧ s'.db = s.db.clearAll ∨
      (s.count + 1) % ValueCache.getTTL ≠ 0 ∧ s'.db = s.db) := by
  unfold turn at h
  split_ifs at h with hcount hdiv
  · obtain rfl := Option.some.inj h
    exact ⟨rfl, .inl ⟨hdiv, rfl⟩⟩
  · obtain rfl := Option.some.inj h
    exact ⟨rfl, .inr ⟨hdiv, rfl⟩⟩

theorem clearAll_coherent (s : Db) : s.clearAll.Coherent cfg := by
  intro k x hk
  simp [Db.clearAll] at hk

theorem step_coherent (henv : env.Reliable) (hen : cfg.enableCache = true)
    (hlaw : cfg.cipher.Lawful) (he : e.Orderly env cfg s) (hs : s.step env cfg e = some s')
    (h : s.db.Coherent cfg) : s'.db.Coherent cfg := by
  cases e with
  | call c =>
    obtain rfl := Option.some.inj hs
    exact next_coherent henv hen hlaw he h
  | turn =>
    obtain ⟨-, ⟨-, hdb⟩ | ⟨-, hdb⟩⟩ := turn_cases hs
    · rw [hdb]
      exact clearAll_coherent s.db
    · rwa [hdb]

/-- **Coherence is kept** by orderly calls, and by the thread. -/
theorem run_coherent (henv : env.Reliable) (hen : cfg.enableCache = true)
    (hlaw : cfg.cipher.Lawful) (hes : Orderly env cfg es s) (hrun : run env cfg es s = some s')
    (h : s.db.Coherent cfg) : s'.db.Coherent cfg := by
  induction es generalizing s with
  | nil =>
    obtain rfl := Option.some.inj hrun
    exact h
  | cons e es ih =>
    obtain ⟨s₁, hs, hrun⟩ := Option.bind_eq_some_iff.1 hrun
    exact ih (hes.2 s₁ hs) hrun (step_coherent henv hen hlaw hes.1 hs h)

theorem run_coherent_of_due (henv : env.Reliable) (hen : cfg.enableCache = true)
    (hlaw : cfg.cipher.Lawful) (hes : Orderly env cfg es s) (hrun : run env cfg es s = some s')
    {n : ℕ} (hdue : n % ValueCache.getTTL = 0) (hlt : s.count < n)
    (hle : n ≤ s.count + es.countP CleanerStep.isTurn) : s'.db.Coherent cfg := by
  induction es generalizing s with
  | nil =>
    rw [List.countP_nil] at hle
    omega
  | cons e es ih =>
    obtain ⟨s₁, hs, hrun₁⟩ := Option.bind_eq_some_iff.1 hrun
    have hrest := hes.2 s₁ hs
    cases e with
    | call c =>
      have hcount : s₁.count = s.count := by
        obtain rfl := Option.some.inj hs
        rfl
      rw [List.countP_cons_of_neg (by simp [CleanerStep.isTurn])] at hle
      exact ih hrest hrun₁ (by omega) (by omega)
    | turn =>
      obtain ⟨hcount, hdb⟩ := turn_cases hs
      rw [List.countP_cons_of_pos rfl] at hle
      by_cases hn : n = s.count + 1
      · -- the cache is emptied in this turn, and stays coherent
        rw [← hn] at hdb
        obtain ⟨-, hdb⟩ := hdb.resolve_right fun hno => hno.1 hdue
        refine run_coherent henv hen hlaw hrest hrun₁ ?_
        rw [hdb]
        exact clearAll_coherent s.db
      · exact ih hrest hrun₁ (by omega) (by omega)

theorem orderly_turns (n : ℕ) (s : Cleaned) : Orderly env cfg (List.replicate n .turn) s := by
  induction n generalizing s with
  | zero => trivial
  | succ n ih => exact ⟨trivial, fun s' _ => ih s'⟩

theorem run_turns {n : ℕ} (hn : s.count % ValueCache.getTTL + n < ValueCache.getTTL)
    (hrun : run env cfg (List.replicate n .turn) s = some s') : s'.db = s.db := by
  induction n generalizing s with
  | zero =>
    obtain rfl := Option.some.inj hrun
    rfl
  | succ n ih =>
    obtain ⟨s₁, hs, hrun⟩ := Option.bind_eq_some_iff.1 hrun
    obtain ⟨hcount, hdb⟩ := turn_cases hs
    unfold ValueCache.getTTL at hn hdb ih
    rw [ih (by omega) hrun]
    exact (hdb.resolve_left fun hdue => by omega).2

end

end Cleaned

open Cleaned

/-- **No entry of the value cache outlives the thread that empties it.**  Whatever is in the cache,
and however it has come there: once the thread has taken as many turns as the time to live has
seconds, among calls that are orderly and in which no database call fails, every entry of the cache
is the value of its key, and `get` answers as it would without the cache.  But right after the cache
has been emptied, it takes as many turns until it is emptied again. -/
theorem stale_entries_cleared (env : Env) (henv : env.Reliable) (cfg : Config)
    (hen : cfg.enableCache = true) (hlaw : cfg.cipher.Lawful) (s : Cleaned) :
    (∀ es s', Orderly env cfg es s → Cleaned.run env cfg es s = some s' →
      ValueCache.getTTL ≤ es.countP CleanerStep.isTurn →
        (∀ k v, s'.db.2.valueCache[k]? = some v → s'.db.columns.value cfg k = some v) ∧
          ∀ key, (Call.get key).answer env cfg s'.db =
            (Call.get key).answer env { cfg with enableCache := false } s'.db) ∧
      (s.count % ValueCache.getTTL = 0 → ∀ n < ValueCache.getTTL, ∀ s',
        Cleaned.run env cfg (List.replicate n .turn) s = some s' → s'.db = s.db) := by
  refine ⟨fun es s' hes hrun hturns => ?_, fun hdue n hn s' hrun => run_turns (by omega) hrun⟩
  have h : s'.db.Coherent cfg := by
    -- the next multiple of the time to live
    have hdue : ValueCache.getTTL * (s.count / ValueCache.getTTL + 1) % ValueCache.getTTL = 0 :=
      Nat.mul_mod_right _ _
    refine run_coherent_of_due henv hen hlaw hes hrun hdue ?_ ?_
    · exact Nat.lt_mul_div_succ s.count (by decide)
    · have hle : ValueCache.getTTL * (s.count / ValueCache.getTTL) ≤ s.count := Nat.mul_div_le _ _
      rw [Nat.mul_add, Nat.mul_one]
      omega
  exact ⟨h, fun key => h.get_answer henv key⟩

/-- A refused batch has left a value in the cache that was never stored.  It is served now, and no
longer served after `60` turns. -/
theorem stale_entries_cleared_sixty :
    let env := Env.reliable fun _ => 0
    let db := runCalls env (.plain true) (Db.init 2)
      [.set ⟨[98], [1], {}⟩, .setBatch [⟨[97], [2], {}⟩, ⟨[98], [3], { ifNotExists := true }⟩]]
    let s : Cleaned := { db := db }
    (Call.get [97]).answer env (.plain true) s.db = .value (some [2]) ∧
      ∃ s', Cleaned.run env (.plain true) (List.replicate 60 .turn) s = some s' ∧
        (Call.get [97]).answer env (.plain true) s'.db = .value none := by
  intro env db s
  have hobs : (Cleaned.run env (.plain true) (List.replicate 60 .turn) s).map (fun s' =>
      (Call.get [97]).answer env (.plain false) s'.db) = some (.value none) := by decide +kernel
  obtain ⟨s', hrun, hans⟩ := Option.map_eq_some_iff.1 hobs
  obtain ⟨-, hget⟩ := (stale_entries_cleared env (Env.reliable_reliable _) (.plain true) rfl
    (Config.plain_lawful _) s).1 _ s' (orderly_turns 60 s) hrun (by decide)
  exact ⟨by decide +kernel, s', hrun, (hget [97]).trans hans⟩

end ConfigDb
