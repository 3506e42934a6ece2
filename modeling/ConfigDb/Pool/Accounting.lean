import Mathlib
import ConfigDb.Effect.Runs

/-!
# The pool of connections

`Pool` (`src/common/pool/pool.hpp`) hands out connections in proxies and takes them back when the
proxies are destroyed.  It counts the proxies in `total`; a connection belongs to the queue
`available`, to a proxy, or to nobody, and then it is destroyed.

Connections are numbered in the order in which they were asked for, and `live` has the numbers of
those that have not been destroyed.  The proxies are listed in `held`, in the order in which they
were handed out.  Moving a proxy leaves one behind without a connection, whose destruction does
nothing: a move changes nothing here.

## Main definitions

* `Pool.acquire`, `Pool.destroy`, `Pool.removeExpired` : the operations; `Pool.destroy` is the
  destructor of a proxy.
* `Pool.Exact` : the counter is the number of proxies, and every live connection is in the queue or
  in one proxy.
* `Pool.NoLeak` : the operations that keep it so.

## Main results

* `pool_accounting_iff` : the accounting is exact at every point of a run if and only if no creator
  call throws and no proxy without a connection is destroyed.
* `pool_leaks` : what happens otherwise.
-/

namespace ConfigDb

namespace Pool

/-- `pool::Configuration`. -/
structure Configuration where
  /-- The number of connections that the constructor creates. -/
  initialSize : ℕ := 1
  /-- The size from which on `available` takes no connections back. -/
  maxPoolSize : ℕ := 25
  /-- The number of proxies from which on no other is handed out. -/
  maxConnections : ℕ := 100
  /-- The number of seconds after which a connection in `available` is destroyed. -/
  maxIdleTime : ℤ := 300

/-- A connection. -/
structure Resource where
  /-- Its number. -/
  id : ℕ
  /-- What `valid` returns. -/
  valid : Bool
  deriving DecidableEq

/-- `ConnectionWrapper`, in the queue or in a proxy. -/
structure Wrapper where
  /-- The connection, if the pointer is not null. -/
  con : Option Resource
  /-- When it was created or taken back, in nanoseconds. -/
  time : ℤ
  /-- How often it has been used again. -/
  count : ℕ := 0
  deriving DecidableEq

/-- What a call of the creator does. -/
inductive Creation
  /-- It returns a connection, which may not be valid. -/
  | made (valid : Bool)
  /-- It returns a null pointer. -/
  | null
  /-- It throws. -/
  | thrown
  deriving DecidableEq

end Pool

/-- The state of a pool, of the proxies and of the connections. -/
structure Pool where
  /-- The counter of the proxies. -/
  total : ℕ := 0
  /-- The number of creator calls. -/
  created : ℕ := 0
  /-- The queue. -/
  available : List Pool.Wrapper := []
  /-- What the proxies hold that have been handed out and not been destroyed. -/
  held : List Pool.Wrapper := []
  /-- The connections that have not been destroyed. -/
  live : List ℕ := []
  deriving DecidableEq

namespace Pool

/-! ### The operations -/

/-- A creator call: the pointer that it returns, unless it throws, and the pool with the connection
in it. -/
def create (p : Pool) (o : Creation) : Pool × Option (Option Resource) :=
  let p' := { p with created := p.created + 1 }
  match o with
  | .made valid => ({ p' with live := p.live ++ [p.created] }, some (some ⟨p.created, valid⟩))
  | .null => (p', some none)
  | .thrown => (p', none)

/-- The loop of the constructor. -/
def construct (now : ℤ) : List Creation → Pool → Option Pool
  | [], p => some p
  | o :: os, p => do
    let con ← (p.create o).2
    construct now os { (p.create o).1 with available := p.available ++ [⟨con, now, 0⟩] }

/-- The constructor; the `i`-th creator call does `os i`. -/
def initial (cfg : Configuration) (now : ℤ) (os : ℕ → Creation) : Option Pool :=
  construct now ((List.range cfg.initialSize).map os) {}

/-- The locked section of `Pool::acquire`. -/
def enter (p : Pool) (now : ℤ) (o : Creation) : Pool :=
  let p := { p with total := p.total + 1 }
  match p.available with
  | [] => match (p.create o).2 with
    | some con => { (p.create o).1 with held := p.held ++ [⟨con, now, 0⟩] }
    | none => (p.create o).1
  | c :: available =>
    { p with available := available, held := p.held ++ [{ c with count := c.count + 1 }] }

/-- `Pool::acquire`. -/
def acquire (cfg : Configuration) (p : Pool) (now : ℤ) (o : Creation) : Pool :=
  if cfg.maxConnections ≤ p.total then p else p.enter now o

/-- `Pool::release`. -/
def release (cfg : Configuration) (p : Pool) (now : ℤ) (c : Wrapper) : Pool :=
  let p := { p with total := p.total - 1 }
  match c.con with
  | none => p
  | some con =>
    if !con.valid then { p with live := p.live.erase con.id }
    else if p.available.length < cfg.maxPoolSize then
      { p with available := p.available ++ [{ c with time := now }] }
    else { p with live := p.live.erase con.id }

/-- The destructor of the `i`-th proxy. -/
def destroy (cfg : Configuration) (p : Pool) (now : ℤ) (i : ℕ) : Pool :=
  match p.held[i]? with
  | none => p
  | some c =>
    let p := { p with held := p.held.eraseIdx i }
    if c.con.isSome then p.release cfg now c else p

/-- The connection of the `i`-th proxy turns invalid. -/
def invalidate (p : Pool) (i : ℕ) : Pool :=
  { p with held := p.held.modify i fun c =>
      { c with con := c.con.map fun r => { r with valid := false } } }

/-- A connection in the queue has been idle for too long. -/
def idle (cfg : Configuration) (now : ℤ) (c : Wrapper) : Bool :=
  cfg.maxIdleTime ≤ (now - c.time).tdiv (10 ^ 9)

/-- The number of the connection in a wrapper, if there is one. -/
def Wrapper.ids (c : Wrapper) : List ℕ := (c.con.map Resource.id).toList

/-- The numbers of the connections in some wrappers. -/
def ids (cs : List Wrapper) : List ℕ := cs.flatMap Wrapper.ids

/-- `Pool::removeExpired`. -/
def removeExpired (cfg : Configuration) (p : Pool) (now : ℤ) : Pool :=
  { p with
    available := p.available.dropWhile (idle cfg now)
    live := p.live.diff (ids (p.available.takeWhile (idle cfg now))) }

/-- What can happen to a pool. -/
inductive Step
  /-- A call of `acquire`; the creator does `o` if it is called. -/
  | acquire (now : ℤ) (o : Creation)
  /-- The destruction of the `i`-th proxy. -/
  | destroy (now : ℤ) (i : ℕ)
  /-- The connection of the `i`-th proxy turns invalid. -/
  | invalidate (i : ℕ)
  /-- The removal of idle connections. -/
  | removeExpired (now : ℤ)

/-- One step. -/
def step (cfg : Configuration) (p : Pool) : Step → Pool
  | .acquire now o => p.acquire cfg now o
  | .destroy now i => p.destroy cfg now i
  | .invalidate i => p.invalidate i
  | .removeExpired now => p.removeExpired cfg now

/-! ### Exact accounting -/

/-- The connections in the queue and in the proxies. -/
def owned (p : Pool) : List ℕ := ids p.available ++ ids p.held

/-- The counter is the number of proxies, and every connection that has not been destroyed is in the
queue or in one proxy, and at one place only. -/
structure Exact (p : Pool) : Prop where
  total : p.total = p.held.length
  nodup : p.live.Nodup
  owned : p.live.Perm p.owned

/-- A step that leaks nothing: a creator call does not throw, and a proxy that is destroyed has a
connection. -/
def NoLeak (cfg : Configuration) (p : Pool) : Step → Prop
  | .acquire _ o => p.total < cfg.maxConnections → p.available = [] → o ≠ .thrown
  | .destroy _ i => ∀ c ∈ p.held[i]?, c.con ≠ none
  | _ => True

/-! ### Who owns a connection -/

section

variable {cfg : Configuration} {p : Pool} {now : ℤ} {c : Wrapper} {cs cs' : List Wrapper}

@[simp] theorem ids_nil : ids [] = [] := rfl

@[simp] theorem ids_cons (c : Wrapper) (cs : List Wrapper) : ids (c :: cs) = c.ids ++ ids cs :=
  List.flatMap_cons

@[simp] theorem ids_append (cs cs' : List Wrapper) : ids (cs ++ cs') = ids cs ++ ids cs' :=
  List.flatMap_append

theorem ids_eraseIdx {i : ℕ} (h : cs[i]? = some c) :
    (ids cs).Perm (c.ids ++ ids (cs.eraseIdx i)) := by
  obtain ⟨hi, rfl⟩ := List.getElem?_eq_some_iff.1 h
  rw [← ids_cons]
  exact ((List.getElem_cons_eraseIdx_perm hi).symm).flatMap_right _

/-- Every connection that has not been destroyed is in the queue or in one proxy, and its number has
been given out. -/
structure Tidy (p : Pool) : Prop where
  nodup : p.live.Nodup
  owned : p.live.Perm p.owned
  fresh : ∀ x ∈ p.live, x < p.created

theorem perm_diff {live a b : List ℕ} (h : live.Perm (a ++ b)) : (live.diff a).Perm b := by
  induction a generalizing live with
  | nil => simpa using h
  | cons x a ih =>
    rw [List.diff_cons]
    refine ih ?_
    have := h.erase x
    rwa [List.cons_append, List.erase_cons_head] at this

/-- A pool whose connections are moved around, and some of them destroyed, stays tidy. -/
theorem Tidy.of_perm (h : Tidy p) {q : Pool} (freed : List ℕ) (hlive : q.live = p.live.diff freed)
    (howned : p.owned.Perm (freed ++ q.owned)) (hcreated : p.created ≤ q.created) : Tidy q where
  nodup := hlive ▸ h.nodup.diff
  owned := hlive ▸ perm_diff (h.owned.trans howned)
  fresh := by
    intro x hx
    exact (h.fresh x (List.diff_subset _ _ (hlive ▸ hx))).trans_le hcreated

theorem Tidy.create (h : Tidy p) {o : Creation} {con : Option Resource}
    (hcon : (p.create o).2 = some con) {q : Pool} (hlive : q.live = (p.create o).1.live)
    (hcreated : q.created = p.created + 1)
    (howned : q.owned.Perm (p.owned ++ (con.map Resource.id).toList)) : Tidy q := by
  cases o with
  | made valid =>
    obtain rfl : some ⟨p.created, valid⟩ = con := Option.some.inj hcon
    have hlive' : q.live = p.live ++ [p.created] := hlive
    have hnew : p.created ∉ p.live := fun hmem => (h.fresh _ hmem).false
    refine ⟨?_, ?_, ?_⟩
    · rw [hlive', List.nodup_append_comm]
      exact List.nodup_cons.2 ⟨hnew, h.nodup⟩
    · rw [hlive']
      exact (h.owned.append_right _).trans howned.symm
    · intro x hx
      rw [hlive', List.mem_append, List.mem_singleton] at hx
      rw [hcreated]
      rcases hx with hx | rfl
      · exact Nat.lt_succ_of_lt (h.fresh x hx)
      · exact Nat.lt_succ_self _
  | null =>
    obtain rfl : none = con := Option.some.inj hcon
    refine h.of_perm [] hlive ?_ (by omega)
    simpa using howned.symm
  | thrown => cases hcon

theorem Tidy.construct (h : Tidy p) {os : List Creation} {q : Pool}
    (hq : construct now os p = some q) : Tidy q := by
  induction os generalizing p with
  | nil =>
    obtain rfl := Option.some.inj hq
    exact h
  | cons o os ih =>
    obtain ⟨con, hcon, hq⟩ := Option.bind_eq_some_iff.1 hq
    refine ih ?_ hq
    refine h.create hcon rfl (by cases o <;> rfl) ?_
    have hheld : (p.create o).1.held = p.held := by cases o <;> rfl
    simp only [Pool.owned, hheld, ids_append, ids_cons, ids_nil, List.append_nil,
      List.append_assoc]
    exact List.perm_append_comm.append_left _

/-! ### What an operation does -/

theorem enter_thrown (ha : p.available = []) :
    p.enter now .thrown = { p with total := p.total + 1, created := p.created + 1 } := by
  simp [Pool.enter, Pool.create, ha]

theorem enter_created (ha : p.available = []) {o : Creation} {con : Option Resource}
    (hcon : (p.create o).2 = some con) :
    p.enter now o = { p with
      total := p.total + 1
      created := p.created + 1
      held := p.held ++ [⟨con, now, 0⟩]
      live := (p.create o).1.live } := by
  cases o with
  | made valid =>
    obtain rfl : some ⟨p.created, valid⟩ = con := Option.some.inj hcon
    simp [Pool.enter, Pool.create, ha]
  | null =>
    obtain rfl : none = con := Option.some.inj hcon
    simp [Pool.enter, Pool.create, ha]
  | thrown => cases hcon

theorem enter_cons (ha : p.available = c :: cs) (o : Creation) :
    p.enter now o = { p with
      total := p.total + 1
      available := cs
      held := p.held ++ [{ c with count := c.count + 1 }] } := by
  simp [Pool.enter, ha]

theorem release_cases (cfg : Configuration) (p : Pool) (now : ℤ) (c : Wrapper) :
    p.release cfg now c = { p with total := p.total - 1, live := p.live.diff c.ids } ∨
      p.release cfg now c = { p with
        total := p.total - 1
        available := p.available ++ [{ c with time := now }] } := by
  unfold Pool.release Wrapper.ids
  cases c.con with
  | none => exact .inl (by simp)
  | some con =>
    simp only [Option.map_some, Option.toList_some, List.diff_cons, List.diff_nil]
    split_ifs
    · exact .inl rfl
    · exact .inr rfl
    · exact .inl rfl

theorem destroy_none {i : ℕ} (h : p.held[i]? = none) : p.destroy cfg now i = p := by
  simp [Pool.destroy, h]

theorem destroy_null {i : ℕ} (h : p.held[i]? = some c) (hc : c.con = none) :
    p.destroy cfg now i = { p with held := p.held.eraseIdx i } := by
  simp [Pool.destroy, h, hc]

theorem destroy_some {i : ℕ} (h : p.held[i]? = some c) (hc : c.con ≠ none) :
    p.destroy cfg now i = { p with held := p.held.eraseIdx i }.release cfg now c := by
  have hsome : c.con.isSome := Option.isSome_iff_ne_none.2 hc
  simp [Pool.destroy, h, hsome]

/-! ### Every operation keeps the pool tidy -/

theorem Tidy.enter (h : Tidy p) (o : Creation) : Tidy (p.enter now o) := by
  cases ha : p.available with
  | nil =>
    cases hcon : (p.create o).2 with
    | none =>
      obtain rfl : o = .thrown := by cases o <;> simp [Pool.create] at hcon ⊢
      rw [enter_thrown ha]
      exact ⟨h.nodup, h.owned, fun x hx => Nat.lt_succ_of_lt (h.fresh x hx)⟩
    | some con =>
      rw [enter_created ha hcon]
      refine h.create hcon rfl rfl ?_
      simp [Pool.owned, ha, Wrapper.ids]
  | cons c cs =>
    rw [enter_cons ha]
    refine h.of_perm [] rfl ?_ le_rfl
    simp only [Pool.owned, ha, ids_append, ids_cons, ids_nil, List.append_nil, List.nil_append,
      List.append_assoc]
    exact List.perm_append_comm.trans (by simp [Wrapper.ids])

theorem Tidy.destroy (h : Tidy p) (i : ℕ) : Tidy (p.destroy cfg now i) := by
  cases hi : p.held[i]? with
  | none =>
    rw [destroy_none hi]
    exact h
  | some c =>
    have hperm := ids_eraseIdx hi
    -- the connection of the proxy comes first among those that are owned
    have hfirst : p.owned.Perm (c.ids ++ (ids p.available ++ ids (p.held.eraseIdx i))) := by
      refine (hperm.append_left _).trans ?_
      rw [← List.append_assoc, ← List.append_assoc]
      exact List.perm_append_comm.append_right _
    by_cases hc : c.con = none
    · rw [destroy_null hi hc]
      refine h.of_perm [] rfl ?_ le_rfl
      simpa [Wrapper.ids, hc, Pool.owned] using hfirst
    · rw [destroy_some hi hc]
      rcases release_cases cfg { p with held := p.held.eraseIdx i } now c with heq | heq
      · rw [heq]
        exact h.of_perm c.ids rfl hfirst le_rfl
      · rw [heq]
        refine h.of_perm [] rfl (hfirst.trans ?_) le_rfl
        simp only [Pool.owned, ids_append, ids_cons, ids_nil, List.append_nil, List.nil_append,
          List.append_assoc]
        exact List.perm_append_comm_assoc _ _ _

theorem ids_modify (cs : List Wrapper) (i : ℕ) :
    ids (cs.modify i fun c => { c with con := c.con.map fun r => { r with valid := false } }) =
      ids cs := by
  induction cs generalizing i with
  | nil => cases i <;> rfl
  | cons c cs ih =>
    cases i with
    | zero =>
      obtain ⟨con, time, count⟩ := c
      cases con <;> simp [Wrapper.ids]
    | succ i => simp [ih]

theorem Tidy.step (h : Tidy p) (a : Step) : Tidy (p.step cfg a) := by
  cases a with
  | acquire now o =>
    show Tidy (p.acquire cfg now o)
    unfold Pool.acquire
    split_ifs
    · exact h
    · exact h.enter o
  | destroy now i => exact h.destroy i
  | invalidate i =>
    refine h.of_perm [] rfl ?_ le_rfl
    show (ids p.available ++ ids p.held).Perm _
    rw [← ids_modify p.held i]
    exact List.Perm.refl _
  | removeExpired now =>
    refine h.of_perm _ rfl ?_ le_rfl
    have hsplit : ids p.available = ids (p.available.takeWhile (idle cfg now)) ++
        ids (p.available.dropWhile (idle cfg now)) := by
      rw [← ids_append, List.takeWhile_append_dropWhile]
    rw [Pool.owned, hsplit, List.append_assoc]
    exact List.Perm.refl _

/-! ### The counter -/

/-- **Exactly the steps that leak nothing keep the counter right.** -/
theorem step_total_iff (h : p.total = p.held.length) (a : Step) :
    (p.step cfg a).total = (p.step cfg a).held.length ↔ p.NoLeak cfg a := by
  cases a with
  | acquire now o =>
    show (p.acquire cfg now o).total = (p.acquire cfg now o).held.length ↔ _
    unfold Pool.acquire
    split_ifs with hmax
    · exact iff_of_true h fun hlt => absurd hmax (Nat.not_le.2 hlt)
    · cases ha : p.available with
      | nil =>
        cases hcon : (p.create o).2 with
        | none =>
          obtain rfl : o = .thrown := by cases o <;> simp [Pool.create] at hcon ⊢
          rw [enter_thrown ha]
          refine iff_of_false (by simp; omega) fun hleak => ?_
          exact hleak (Nat.not_le.1 hmax) ha rfl
        | some con =>
          rw [enter_created ha hcon]
          refine iff_of_true (by simp [h]) fun _ _ => ?_
          rintro rfl
          cases hcon
      | cons c cs =>
        rw [enter_cons ha]
        refine iff_of_true (by simp [h]) fun _ hempty => ?_
        rw [ha] at hempty
        cases hempty
  | destroy now i =>
    show (p.destroy cfg now i).total = (p.destroy cfg now i).held.length ↔ _
    cases hi : p.held[i]? with
    | none =>
      rw [destroy_none hi]
      exact iff_of_true h (by simp [Pool.NoLeak, hi])
    | some c =>
      obtain ⟨hlt, -⟩ := List.getElem?_eq_some_iff.1 hi
      have hlen := List.length_eraseIdx_add_one hlt
      by_cases hc : c.con = none
      · rw [destroy_null hi hc]
        refine iff_of_false (by simp only; omega) ?_
        simp [Pool.NoLeak, hi, hc]
      · rw [destroy_some hi hc]
        refine iff_of_true ?_ (by simp [Pool.NoLeak, hi, hc])
        rcases release_cases cfg { p with held := p.held.eraseIdx i } now c with heq | heq <;>
          rw [heq] <;> simp only <;> omega
  | invalidate i => exact iff_of_true (by simp [Pool.step, Pool.invalidate, h]) trivial
  | removeExpired now => exact iff_of_true h trivial

theorem Tidy.exact_iff (h : Tidy p) : p.Exact ↔ p.total = p.held.length :=
  ⟨fun he => he.total, fun ht => ⟨ht, h.nodup, h.owned⟩⟩

theorem construct_total {os : List Creation} {q : Pool} (h : Pool.construct now os p = some q) :
    q.total = p.total ∧ q.held = p.held := by
  induction os generalizing p with
  | nil =>
    obtain rfl := Option.some.inj h
    exact ⟨rfl, rfl⟩
  | cons o os ih =>
    obtain ⟨con, -, hq⟩ := Option.bind_eq_some_iff.1 h
    obtain ⟨htotal, hheld⟩ := ih hq
    rw [htotal, hheld]
    cases o <;> exact ⟨rfl, rfl⟩

theorem tidy_initial {os : ℕ → Creation} (h : Pool.initial cfg now os = some p) :
    Tidy p ∧ p.total = 0 ∧ p.held = [] := by
  have hempty : Tidy {} := ⟨List.nodup_nil, List.Perm.refl _, by simp⟩
  obtain ⟨htotal, hheld⟩ := construct_total h
  exact ⟨hempty.construct h, htotal, hheld⟩

/-- Some calls of `acquire`, one after the other. -/
def acquires (cfg : Configuration) (p : Pool) (as : List (ℤ × Creation)) : Pool :=
  as.foldl (fun p a => p.acquire cfg a.1 a.2) p

/-- As long as the limit is not reached and no creator call throws, every call of `acquire` hands
out a proxy. -/
theorem length_held_acquires (h : p.total = p.held.length) {as : List (ℤ × Creation)}
    (hmax : p.held.length + as.length ≤ cfg.maxConnections) (has : ∀ a ∈ as, a.2 ≠ .thrown) :
    (p.acquires cfg as).held.length = p.held.length + as.length := by
  induction as generalizing p with
  | nil => rfl
  | cons a as ih =>
    rw [List.forall_mem_cons] at has
    rw [List.length_cons] at hmax
    have hlt : ¬ cfg.maxConnections ≤ p.total := by omega
    have htotal : (p.acquire cfg a.1 a.2).total = (p.acquire cfg a.1 a.2).held.length :=
      (step_total_iff h (.acquire a.1 a.2)).2 fun _ _ => has.1
    have hcount : (p.acquire cfg a.1 a.2).total = p.total + 1 := by
      unfold Pool.acquire
      rw [if_neg hlt]
      cases ha : p.available with
      | nil => cases a.2 <;> simp [Pool.enter, Pool.create, ha]
      | cons c cs => rw [enter_cons ha]
    have hheld : (p.acquire cfg a.1 a.2).held.length = p.held.length + 1 := by omega
    have := ih htotal (by omega) has.2
    rw [List.length_cons]
    show ((p.acquire cfg a.1 a.2).acquires cfg as).held.length = _
    omega

end

end Pool

open Pool

/-- **When the accounting of a pool is exact.**  In a run from the construction on, the counter is
the number of proxies at every point, and every live connection is in the queue or in one proxy, if
and only if no creator call throws and no proxy without a connection is destroyed.  In such a run,
when all proxies have been destroyed, the pool serves as many calls of `acquire` as it has
connections, if their creator calls do not throw. -/
theorem pool_accounting_iff (cfg : Pool.Configuration) (now : ℤ) (os : ℕ → Creation) (p : Pool)
    (hp : Pool.initial cfg now os = some p) (steps : List Pool.Step) :
    ((∀ q ∈ steps.scanl (Pool.step cfg) p, q.Exact) ↔
      Along (Pool.step cfg) (Pool.NoLeak cfg) p steps) ∧
    (Along (Pool.step cfg) (Pool.NoLeak cfg) p steps →
      (steps.foldl (Pool.step cfg) p).held = [] →
      ∀ as : List (ℤ × Creation), as.length ≤ cfg.maxConnections → (∀ a ∈ as, a.2 ≠ .thrown) →
        ((steps.foldl (Pool.step cfg) p).acquires cfg as).held.length = as.length) := by
  obtain ⟨htidy, htotal, hheld⟩ := tidy_initial hp
  -- a pool is tidy at every point of every run
  have hall : ∀ q ∈ steps.scanl (Pool.step cfg) p, Tidy q :=
    (along_true (Pool.step cfg) p steps).invariant htidy fun q a hq _ => hq.step a
  have hexact : (∀ q ∈ steps.scanl (Pool.step cfg) p, q.Exact) ↔
      Along (Pool.step cfg) (Pool.NoLeak cfg) p steps := by
    rw [← invariant_iff_along (I := fun q : Pool => q.total = q.held.length) (s := p)
      (by rw [htotal, hheld, List.length_nil]) fun q a hq => step_total_iff hq a]
    exact forall₂_congr fun q hq => (hall q hq).exact_iff
  refine ⟨hexact, fun halong hnone as hmax has => ?_⟩
  have hlast := (hexact.2 halong _ (foldl_mem_scanl (Pool.step cfg) p steps)).total
  have := length_held_acquires hlast (by rw [hnone]; simpa using hmax) has
  rwa [hnone, List.length_nil, Nat.zero_add] at this

/-- A connection is used, turns invalid and is replaced. -/
theorem pool_accounting_replaced :
    let p : Pool := { created := 1, available := [⟨some ⟨0, true⟩, 0, 0⟩], live := [0] }
    let steps := [.acquire 1 .null, .invalidate 0, .destroy 2 0, .acquire 3 (.made true)]
    Pool.initial {} 0 (fun _ => .made true) = some p ∧
      (∀ q ∈ steps.scanl (Pool.step {}) p, q.Exact) ∧
      (steps.foldl (Pool.step {}) p).live = [1] := by
  intro p steps
  have hp : Pool.initial {} 0 (fun _ => .made true) = some p := by decide
  refine ⟨hp, (pool_accounting_iff {} 0 _ p hp steps).1.2 ⟨?_, trivial, ?_, ?_, trivial⟩, by decide⟩
  · rintro - hempty
    exact absurd hempty (by decide)
  · intro c hc
    have hc' : some (⟨some ⟨0, false⟩, 0, 1⟩ : Wrapper) = some c := hc
    rw [← Option.some.inj hc']
    decide
  · intro _ _
    decide

/-- **A pool that leaks.**  After a creator call that throws, and after a proxy without a connection
is destroyed, the counter is one although there is no proxy, and a pool for one connection serves
nobody any more. -/
theorem pool_leaks :
    let cfg : Pool.Configuration := { initialSize := 0, maxConnections := 1 }
    let thrown := [Pool.Step.acquire 0 .thrown].foldl (Pool.step cfg) {}
    let null := [Pool.Step.acquire 0 .null, .destroy 1 0].foldl (Pool.step cfg) {}
    Pool.initial cfg 0 (fun _ => .null) = some {} ∧
      thrown.total = 1 ∧ thrown.held = [] ∧ thrown.acquire cfg 2 (.made true) = thrown ∧
      null.total = 1 ∧ null.held = [] ∧ null.acquire cfg 2 (.made true) = null := by
  decide

end ConfigDb
