import ConfigDb.Pool.Accounting

/-!
# The limit of a pool under concurrency

`Pool::acquire` compares the counter with `maxConnections` before it takes the lock, and increments
it under the lock.  The two are separate steps here: a thread that has found the counter below the
limit is between them, and other threads may take steps meanwhile.  Everything else that changes the
pool happens under the lock, in one step.

## Main definitions

* `Pool.Threads` : a pool and the threads that are between the comparison and the locked section.
* `Pool.Action`, `Pool.Threads.act` : the steps of the threads.
* `Pool.Threads.Reserved` : a comparison that counts the threads in between.

## Main results

* `limit_kept` : if no comparison ignores the threads in between, then the limit is kept.
* `limit_exceeded_by` : in any case the limit is exceeded by less than the number of threads.
* `limit_exceeded` : two threads and a limit of one.
-/

namespace ConfigDb

namespace Pool

variable {T : Type} [DecidableEq T]

/-- A pool that is used by several threads. -/
structure Threads (T : Type) where
  /-- The pool. -/
  pool : Pool
  /-- The threads that have passed the comparison and not yet taken the lock. -/
  passed : Finset T

/-- The steps of the threads. -/
inductive Action (T : Type)
  /-- A thread calls `acquire` and compares the counter with the limit. -/
  | compare (t : T)
  /-- A thread that has passed the comparison goes through the locked section of `acquire`; the
  creator does `o` if it is called. -/
  | enter (t : T) (now : ℤ) (o : Creation)
  /-- Somebody destroys the `i`-th proxy. -/
  | destroy (now : ℤ) (i : ℕ)
  /-- The connection of the `i`-th proxy turns invalid. -/
  | invalidate (i : ℕ)
  /-- The removal of idle connections. -/
  | removeExpired (now : ℤ)

namespace Threads

/-- One step.  A thread that is between the comparison and the lock does nothing else, and one that
does not pass the comparison gets no proxy. -/
def act (cfg : Configuration) (s : Threads T) : Action T → Threads T
  | .compare t =>
    if t ∈ s.passed then s
    else if cfg.maxConnections ≤ s.pool.total then s
    else { s with passed := insert t s.passed }
  | .enter t now o =>
    if t ∈ s.passed then ⟨s.pool.enter now o, s.passed.erase t⟩ else s
  | .destroy now i => { s with pool := s.pool.destroy cfg now i }
  | .invalidate i => { s with pool := s.pool.invalidate i }
  | .removeExpired now => { s with pool := s.pool.removeExpired cfg now }

/-- Whenever a thread passes the comparison, there is room for it beside the threads that have
passed it before and have not yet incremented the counter. -/
def Reserved (cfg : Configuration) (s : Threads T) : Action T → Prop
  | .compare t => t ∉ s.passed → s.pool.total < cfg.maxConnections →
    s.pool.total + s.passed.card < cfg.maxConnections
  | _ => True

end Threads

theorem Threads.act_compare_enter (cfg : Configuration) (s : Threads T) {t : T}
    (ht : t ∉ s.passed) (now : ℤ) (o : Creation) :
    (s.act cfg (.compare t)).act cfg (.enter t now o) = ⟨s.pool.acquire cfg now o, s.passed⟩ := by
  by_cases hmax : cfg.maxConnections ≤ s.pool.total
  · simp [Threads.act, Pool.acquire, ht, hmax]
  · simp [Threads.act, Pool.acquire, ht, hmax, Finset.erase_insert ht]

/-! ### The counter and the proxies -/

theorem enter_total (p : Pool) (now : ℤ) (o : Creation) :
    (p.enter now o).total = p.total + 1 ∧ (p.enter now o).held.length ≤ p.held.length + 1 := by
  cases ha : p.available with
  | nil => cases o <;> simp [Pool.enter, Pool.create, ha]
  | cons c cs => simp [enter_cons ha]

theorem destroy_total (cfg : Configuration) {p : Pool} (h : p.held.length ≤ p.total) (now : ℤ)
    (i : ℕ) :
    (p.destroy cfg now i).total ≤ p.total ∧
      (p.destroy cfg now i).held.length ≤ (p.destroy cfg now i).total := by
  cases hi : p.held[i]? with
  | none =>
    rw [destroy_none hi]
    exact ⟨le_rfl, h⟩
  | some c =>
    obtain ⟨hlt, -⟩ := List.getElem?_eq_some_iff.1 hi
    have hlen := List.length_eraseIdx_add_one hlt
    by_cases hc : c.con = none
    · rw [destroy_null hi hc]
      exact ⟨le_rfl, by simp only; omega⟩
    · rw [destroy_some hi hc]
      rcases release_cases cfg { p with held := p.held.eraseIdx i } now c with heq | heq <;>
        rw [heq] <;> constructor <;> simp only <;> omega

/-! ### The limit -/

section

variable {cfg : Configuration} {s : Threads T}

/-- The proxies, and the threads that are about to get one, stay within `n`. -/
structure Threads.Within (n : ℕ) (s : Threads T) : Prop where
  held : s.pool.held.length ≤ s.pool.total
  total : s.pool.total + s.passed.card ≤ n

/-- A step keeps the proxies within `n` if a comparison that is passed leaves room. -/
theorem Threads.Within.act {n : ℕ} (h : s.Within n) {a : Action T}
    (ha : ∀ t, a = .compare t → t ∉ s.passed → s.pool.total < cfg.maxConnections →
      s.pool.total + s.passed.card < n) : (s.act cfg a).Within n := by
  cases a with
  | compare t =>
    simp only [Threads.act]
    split_ifs with hmem hmax
    · exact h
    · exact h
    · refine ⟨h.held, ?_⟩
      have hroom := ha t rfl hmem (Nat.not_le.1 hmax)
      show s.pool.total + (insert t s.passed).card ≤ n
      rw [Finset.card_insert_of_notMem hmem]
      omega
  | enter t now o =>
    simp only [Threads.act]
    split_ifs with hmem
    · -- the thread leaves the set, and the counter goes up
      obtain ⟨htotal, hheld⟩ := enter_total s.pool now o
      have hcard := Finset.card_erase_add_one hmem
      have := h.held
      have := h.total
      refine ⟨?_, ?_⟩ <;> simp only <;> omega
    · exact h
  | destroy now i =>
    obtain ⟨htotal, hheld⟩ := destroy_total cfg h.held now i
    exact ⟨hheld, (Nat.add_le_add_right htotal _).trans h.total⟩
  | invalidate i =>
    refine ⟨?_, h.total⟩
    simpa [Threads.act, Pool.invalidate] using h.held
  | removeExpired now => exact ⟨h.held, h.total⟩

end

end Pool

open Pool

section

variable {T : Type} [DecidableEq T]

/-- **The limit is kept if comparisons reserve**: in every run of any number of threads in which a
thread passes the comparison only if there is room for it beside those that are between the
comparison and the lock, there are never more proxies than `maxConnections`. -/
theorem limit_kept (cfg : Pool.Configuration) (now : ℤ) (os : ℕ → Creation) (p : Pool)
    (hp : Pool.initial cfg now os = some p) (actions : List (Pool.Action T))
    (h : Along (Pool.Threads.act cfg) (Pool.Threads.Reserved cfg) ⟨p, ∅⟩ actions) :
    ∀ s ∈ actions.scanl (Pool.Threads.act cfg) ⟨p, ∅⟩, s.pool.held.length ≤ cfg.maxConnections := by
  obtain ⟨-, htotal, hheld⟩ := tidy_initial hp
  have hstart : Pool.Threads.Within cfg.maxConnections (⟨p, ∅⟩ : Pool.Threads T) :=
    ⟨by simp [hheld], by simp [htotal]⟩
  intro s hs
  have hwithin := h.invariant hstart (fun s a hs ha => hs.act fun t hcompare => by
    subst hcompare
    exact ha) s hs
  exact hwithin.held.trans (Nat.le_of_add_right_le hwithin.total)

/-- **The limit is exceeded by less than the number of threads**, whatever the order of their
steps. -/
theorem limit_exceeded_by [Fintype T] [Nonempty T] (cfg : Pool.Configuration) (now : ℤ)
    (os : ℕ → Creation) (p : Pool) (hp : Pool.initial cfg now os = some p)
    (actions : List (Pool.Action T)) :
    ∀ s ∈ actions.scanl (Pool.Threads.act cfg) ⟨p, ∅⟩,
      s.pool.held.length < cfg.maxConnections + Fintype.card T := by
  obtain ⟨-, htotal, hheld⟩ := tidy_initial hp
  have hpos : 0 < Fintype.card T := Fintype.card_pos
  have hstart : Pool.Threads.Within (cfg.maxConnections + Fintype.card T - 1)
      (⟨p, ∅⟩ : Pool.Threads T) :=
    ⟨by simp [hheld], by simp [htotal]⟩
  intro s hs
  have hwithin := (along_true (Pool.Threads.act cfg) _ actions).invariant hstart
    (fun s a hs _ => hs.act fun t _ hmem hlt => by
      -- the thread itself is not among those that have passed
      have hcard := Finset.card_lt_univ_of_notMem hmem
      omega) s hs
  have := hwithin.held.trans (Nat.le_of_add_right_le hwithin.total)
  omega

end

/-- Two threads one after the other, with a limit of one. -/
theorem limit_kept_in_turn :
    let cfg : Pool.Configuration := { initialSize := 0, maxConnections := 1 }
    let actions : List (Pool.Action Bool) := [.compare false, .enter false 0 (.made true),
      .compare true, .destroy 1 0, .compare true, .enter true 2 .null]
    Pool.initial cfg 0 (fun _ => .null) = some {} ∧
      ∀ s ∈ actions.scanl (Pool.Threads.act cfg) ⟨{}, ∅⟩, s.pool.held.length ≤ 1 := by
  intro cfg actions
  refine ⟨rfl, limit_kept cfg 0 (fun _ => .null) {} rfl actions ?_⟩
  refine ⟨?_, trivial, ?_, trivial, ?_, trivial, trivial⟩ <;> intro _ <;> decide

/-- **The limit is exceeded.**  Two threads pass the comparison before either of them increments the
counter. -/
theorem limit_exceeded :
    let cfg : Pool.Configuration := { initialSize := 0, maxConnections := 1 }
    let actions : List (Pool.Action Bool) := [.compare false, .compare true,
      .enter false 0 (.made true), .enter true 0 (.made true)]
    Pool.initial cfg 0 (fun _ => .null) = some {} ∧
      cfg.maxConnections < (actions.foldl (Pool.Threads.act cfg) ⟨{}, ∅⟩).pool.held.length := by
  decide

end ConfigDb
