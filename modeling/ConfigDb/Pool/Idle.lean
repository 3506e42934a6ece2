import ConfigDb.Pool.Accounting

/-!
# The removal of idle connections

The monitor thread of a pool calls `Pool::removeExpired` again and again.  A call reads the clock
once, and then takes the lock for every turn of its loop, so other threads take connections out of
the queue and put some back between two turns.  A turn looks at the first connection of the queue
only, and ends the loop when that one has not been idle for long enough, or is not there.

This misses nothing because the queue is ordered by its time stamps: every time stamp is a reading
of the clock that was made just before its connection went to the back of the queue.  That takes a
clock that never goes backwards, and no more.

## Main definitions

* `Pool.turn` : one turn of the loop of `removeExpired`.
* `Pool.Monitored` : a pool, the clock and the removal in progress; `Pool.Monitored.step` is what
  one locked section does to it.
* `Pool.Monitored.Forward` : the clock does not go backwards.
* `Pool.Monitored.Ordered` : the invariant.

## Main results

* `Pool.Monitored.turns_eq` : enough turns without anything in between are `removeExpired`.
* `idle_removal_exact` : in every run the queue is ordered, and a removal takes away the idle
  connections, and nothing else.
-/

namespace ConfigDb

namespace Pool

/-! ### The pool and its monitor -/

/-- The loop of the constructor; every creator call comes with the reading of the clock after it. -/
def constructAt : List (ℤ × Creation) → Pool → Option Pool
  | [], p => some p
  | (now, o) :: os, p => do
    let con ← (p.create o).2
    constructAt os { (p.create o).1 with available := p.available ++ [⟨con, now, 0⟩] }

/-- One turn of the loop of `Pool::removeExpired` : the pool, and whether the loop is over. -/
def turn (cfg : Configuration) (p : Pool) (now : ℤ) : Pool × Bool :=
  match p.available with
  | [] => (p, true)
  | c :: available =>
    if idle cfg now c then ({ p with available := available, live := p.live.diff c.ids }, false)
    else (p, true)

/-- A pool and what its monitor thread does. -/
structure Monitored where
  /-- The pool. -/
  pool : Pool
  /-- The last reading of the clock. -/
  clock : ℤ
  /-- The reading at which the call of `removeExpired` began, if one is in progress. -/
  removing : Option ℤ := none

/-- What can happen to a pool between two states in which nobody has the lock. -/
inductive Event
  /-- The locked section of `acquire`; the creator does `o` if it is called. -/
  | enter (now : ℤ) (o : Creation)
  /-- The destruction of the `i`-th proxy, which releases its connection. -/
  | destroy (now : ℤ) (i : ℕ)
  /-- The connection of the `i`-th proxy turns invalid. -/
  | invalidate (i : ℕ)
  /-- A call of `removeExpired` reads the clock. -/
  | start (now : ℤ)
  /-- The call of `removeExpired` in progress makes a turn of its loop. -/
  | turn

/-- The event is a turn. -/
def Event.isTurn : Event → Bool
  | .turn => true
  | _ => false

/-- The event may put a connection into the queue that counts as idle at once.  No release does as
long as some idle time is allowed. -/
def Event.refills (cfg : Configuration) : Event → Bool
  | .destroy _ _ => cfg.maxIdleTime ≤ 0
  | _ => false

namespace Monitored

/-- One event. -/
def step (cfg : Configuration) (s : Monitored) : Event → Monitored
  | .enter now o => { s with pool := s.pool.enter now o, clock := now }
  | .destroy now i => { s with pool := s.pool.destroy cfg now i, clock := now }
  | .invalidate i => { s with pool := s.pool.invalidate i }
  | .start now => { s with clock := now, removing := some now }
  | .turn =>
    match s.removing with
    | none => s
    | some now =>
      { s with
        pool := (s.pool.turn cfg now).1
        removing := if (s.pool.turn cfg now).2 then none else some now }

/-- The clock does not go backwards, and the monitor thread makes one call after the other. -/
def Forward (s : Monitored) : Event → Prop
  | .enter now _ => s.clock ≤ now
  | .destroy now _ => s.clock ≤ now
  | .start now => s.clock ≤ now ∧ s.removing = none
  | _ => True

/-- The queue is ordered by its time stamps, and nothing is from the future. -/
structure Ordered (s : Monitored) : Prop where
  queue : s.pool.available.Pairwise fun c d => c.time ≤ d.time
  past : ∀ c ∈ s.pool.available, c.time ≤ s.clock
  started : ∀ now ∈ s.removing, now ≤ s.clock

end Monitored

/-! ### What an operation does to the queue -/

section

variable {cfg : Configuration} {p q : Pool} {now : ℤ} {c d : Wrapper}

theorem enter_available (p : Pool) (now : ℤ) (o : Creation) :
    (p.enter now o).available = p.available.tail := by
  cases ha : p.available with
  | nil => cases o <;> simp [Pool.enter, Pool.create, ha]
  | cons c cs => rw [enter_cons ha, List.tail_cons]

theorem destroy_available (cfg : Configuration) (p : Pool) (now : ℤ) (i : ℕ) :
    (p.destroy cfg now i).available = p.available ∨
      ∃ c, c.time = now ∧ (p.destroy cfg now i).available = p.available ++ [c] := by
  cases hi : p.held[i]? with
  | none =>
    rw [destroy_none hi]
    exact .inl rfl
  | some c =>
    by_cases hc : c.con = none
    · rw [destroy_null hi hc]
      exact .inl rfl
    · rw [destroy_some hi hc]
      rcases release_cases cfg { p with held := p.held.eraseIdx i } now c with heq | heq
      · rw [heq]
        exact .inl rfl
      · rw [heq]
        exact .inr ⟨{ c with time := now }, rfl, rfl⟩

theorem turn_nil (ha : p.available = []) : p.turn cfg now = (p, true) := by
  rw [turn, ha]

theorem turn_idle {cs : List Wrapper} (ha : p.available = c :: cs) (hc : idle cfg now c = true) :
    p.turn cfg now = ({ p with available := cs, live := p.live.diff c.ids }, false) := by
  rw [turn, ha]
  exact if_pos hc

theorem turn_busy {cs : List Wrapper} (ha : p.available = c :: cs) (hc : idle cfg now c = false) :
    p.turn cfg now = (p, true) := by
  rw [turn, ha]
  exact if_neg (by simp [hc])

/-! ### Idle connections -/

theorem idle_mono (h : c.time ≤ d.time) (hd : idle cfg now d = true) : idle cfg now c = true := by
  unfold idle at hd ⊢
  rw [decide_eq_true_eq] at hd ⊢
  exact hd.trans (Int.tdiv_le_tdiv (by decide) (by omega))

theorem not_idle_of_le (h : now ≤ c.time) (hcfg : 0 < cfg.maxIdleTime) :
    idle cfg now c = false := by
  have hle : (now - c.time).tdiv (10 ^ 9) ≤ Int.tdiv 0 (10 ^ 9) :=
    Int.tdiv_le_tdiv (by decide) (by omega)
  rw [Int.zero_tdiv] at hle
  unfold idle
  rw [decide_eq_false_iff_not]
  omega

theorem not_idle_of_first {cs : List Wrapper}
    (h : (c :: cs).Pairwise fun c d => c.time ≤ d.time) (hc : idle cfg now c = false) :
    ∀ d ∈ c :: cs, idle cfg now d = false := by
  rw [List.pairwise_cons] at h
  intro d hd
  rcases List.mem_cons.1 hd with rfl | hd
  · exact hc
  · refine Bool.eq_false_iff.2 fun hidle => ?_
    rw [idle_mono (h.1 d hd) hidle] at hc
    cases hc

theorem dropWhile_idle {cs : List Wrapper} (h : cs.Pairwise fun c d => c.time ≤ d.time) :
    cs.dropWhile (idle cfg now) = cs.filter fun c => !idle cfg now c := by
  induction cs with
  | nil => rfl
  | cons c cs ih =>
    cases hc : idle cfg now c with
    | true =>
      rw [List.dropWhile_cons_of_pos hc, ih (List.pairwise_cons.1 h).2]
      exact (List.filter_cons_of_neg (by simp [hc])).symm
    | false =>
      rw [List.dropWhile_cons_of_neg (by simp [hc]), eq_comm, List.filter_eq_self]
      intro d hd
      rw [not_idle_of_first h hc d hd]
      rfl

end

/-! ### The invariant -/

namespace Monitored

variable {cfg : Configuration} {s t : Monitored} {now : ℤ} {e : Event}

theorem Ordered.of_sublist (h : s.Ordered)
    (hq : t.pool.available.Sublist s.pool.available) (hclock : s.clock ≤ t.clock)
    (hstart : ∀ now ∈ t.removing, now ≤ t.clock) : t.Ordered where
  queue := h.queue.sublist hq
  past c hc := (h.past c (hq.subset hc)).trans hclock
  started := hstart

theorem Ordered.of_append (h : s.Ordered) {c : Wrapper} (hc : c.time = t.clock)
    (hq : t.pool.available = s.pool.available ++ [c]) (hclock : s.clock ≤ t.clock)
    (hstart : t.removing = s.removing) : t.Ordered where
  queue := by
    rw [hq, List.pairwise_append]
    refine ⟨h.queue, List.pairwise_singleton _ _, fun d hd d' hd' => ?_⟩
    rw [List.mem_singleton.1 hd', hc]
    exact (h.past d hd).trans hclock
  past d hd := by
    rw [hq, List.mem_append, List.mem_singleton] at hd
    rcases hd with hd | rfl
    · exact (h.past d hd).trans hclock
    · exact hc.le
  started now hnow := (h.started now (hstart ▸ hnow)).trans hclock

theorem Ordered.turn_cases (h : s.Ordered) (cfg : Configuration) (hr : s.removing = some now) :
    (s.step cfg .turn = { s with removing := none } ∧
        ∀ c ∈ s.pool.available, idle cfg now c = false) ∨
      ∃ c cs, s.pool.available = c :: cs ∧ idle cfg now c = true ∧ s.step cfg .turn =
        { s with pool := { s.pool with available := cs, live := s.pool.live.diff c.ids } } := by
  have hstep : s.step cfg .turn = { s with
      pool := (s.pool.turn cfg now).1
      removing := if (s.pool.turn cfg now).2 then none else some now } := by
    simp only [step, hr]
  rw [hstep]
  cases ha : s.pool.available with
  | nil =>
    rw [turn_nil ha]
    exact .inl ⟨rfl, by simp⟩
  | cons c cs =>
    cases hc : idle cfg now c with
    | true =>
      rw [turn_idle ha hc]
      exact .inr ⟨c, cs, rfl, hc, by simp [hr]⟩
    | false =>
      rw [turn_busy ha hc]
      exact .inl ⟨rfl, not_idle_of_first (ha ▸ h.queue) hc⟩

theorem step_turn_of_none (hr : s.removing = none) : s.step cfg .turn = s := by
  simp only [step, hr]

/-- **Every event keeps the queue ordered**, as long as the clock does not go backwards. -/
theorem Ordered.step (h : s.Ordered) (he : s.Forward e) : (s.step cfg e).Ordered := by
  cases e with
  | enter now o =>
    have hclock : s.clock ≤ now := he
    refine h.of_sublist ?_ hclock fun n hn => (h.started n hn).trans hclock
    change (s.pool.enter now o).available.Sublist _
    rw [enter_available]
    exact List.tail_sublist _
  | destroy now i =>
    have hclock : s.clock ≤ now := he
    rcases destroy_available cfg s.pool now i with hq | ⟨c, hc, hq⟩
    · refine h.of_sublist ?_ hclock fun n hn => (h.started n hn).trans hclock
      change (s.pool.destroy cfg now i).available.Sublist _
      rw [hq]
    · exact h.of_append hc hq hclock rfl
  | invalidate i => exact h.of_sublist (List.Sublist.refl _) le_rfl h.started
  | start now =>
    refine h.of_sublist (List.Sublist.refl _) he.1 fun n hn => ?_
    exact (Option.some.inj hn).ge
  | turn =>
    cases hr : s.removing with
    | none =>
      rw [step_turn_of_none hr]
      exact h
    | some now =>
      rcases h.turn_cases cfg hr with ⟨heq, -⟩ | ⟨c, cs, ha, -, heq⟩
      · rw [heq]
        exact h.of_sublist (List.Sublist.refl _) le_rfl (by simp)
      · rw [heq]
        refine h.of_sublist ?_ le_rfl h.started
        rw [ha]
        exact List.sublist_cons_self c cs

/-! ### Turns -/

theorem run_turns_of_none (hr : s.removing = none) (m : ℕ) :
    (List.replicate m Event.turn).foldl (Monitored.step cfg) s = s := by
  induction m with
  | zero => rfl
  | succ m ih => rw [List.replicate_succ, List.foldl_cons, step_turn_of_none hr, ih]

/-- **Enough turns without anything in between are a call of `removeExpired`.** -/
theorem Ordered.turns_eq (h : s.Ordered) (hr : s.removing = some now) {m : ℕ}
    (hm : s.pool.available.countP (idle cfg now) < m) :
    (List.replicate m Event.turn).foldl (Monitored.step cfg) s =
      { s with pool := s.pool.removeExpired cfg now, removing := none } := by
  induction m generalizing s with
  | zero => omega
  | succ m ih =>
    rw [List.replicate_succ, List.foldl_cons]
    have hord : (s.step cfg .turn).Ordered := h.step trivial
    rcases h.turn_cases cfg hr with ⟨heq, hbusy⟩ | ⟨c, cs, ha, hc, heq⟩
    · -- the loop is over, and the remaining turns are none
      rw [heq, run_turns_of_none rfl]
      have hdrop : s.pool.available.dropWhile (idle cfg now) = s.pool.available := by
        rw [dropWhile_idle h.queue, List.filter_eq_self]
        intro c hc
        rw [hbusy c hc]
        rfl
      have htake : s.pool.available.takeWhile (idle cfg now) = [] := by
        have := List.takeWhile_append_dropWhile (p := idle cfg now) (l := s.pool.available)
        rw [hdrop] at this
        exact List.append_left_eq_self.1 this
      simp [Pool.removeExpired, hdrop, htake]
    · rw [heq] at hord ⊢
      have hcount : cs.countP (idle cfg now) < m := by
        rw [ha, List.countP_cons_of_pos hc] at hm
        omega
      rw [ih hord hr hcount]
      simp [Pool.removeExpired, ha, hc, List.diff_append]

theorem Ordered.count_step (h : s.Ordered) (hr : s.removing = some now) (he : s.Forward e)
    (hr' : (s.step cfg e).removing ≠ none) :
    (s.step cfg e).pool.available.countP (idle cfg now) + (if e.isTurn then 1 else 0) ≤
      s.pool.available.countP (idle cfg now) + (if e.refills cfg then 1 else 0) := by
  cases e with
  | enter t o =>
    have hsub : (s.pool.enter t o).available.Sublist s.pool.available := by
      rw [enter_available]
      exact List.tail_sublist _
    exact hsub.countP_le
  | destroy t i =>
    have hclock : s.clock ≤ t := he
    have hnow : now ≤ t := (h.started now hr).trans hclock
    change (s.pool.destroy cfg t i).available.countP (idle cfg now) + 0 ≤ _
    rcases destroy_available cfg s.pool t i with hq | ⟨c, hc, hq⟩
    · rw [hq]
      omega
    · rw [hq, List.countP_append, List.countP_singleton]
      by_cases hcfg : cfg.maxIdleTime ≤ 0
      · have href : (Event.destroy t i).refills cfg = true := decide_eq_true hcfg
        rw [if_pos href]
        split_ifs <;> omega
      · rw [not_idle_of_le (hnow.trans hc.ge) (not_le.1 hcfg)]
        simp
  | invalidate i => exact Nat.le_refl _
  | start t => exact Nat.le_refl _
  | turn =>
    rcases h.turn_cases cfg hr with ⟨heq, -⟩ | ⟨c, cs, ha, hc, heq⟩
    · rw [heq] at hr'
      exact absurd rfl hr'
    · rw [heq, ha, List.countP_cons_of_pos hc]
      exact Nat.le_refl _

theorem removing_step (hr : s.removing = some now) (he : s.Forward e)
    (hr' : (s.step cfg e).removing ≠ none) : (s.step cfg e).removing = some now := by
  cases e with
  | enter t o => exact hr
  | destroy t i => exact hr
  | invalidate i => exact hr
  | start t =>
    rw [he.2] at hr
    cases hr
  | turn =>
    simp only [step, hr] at hr' ⊢
    split_ifs at hr' ⊢ with hover
    · exact absurd rfl hr'
    · rfl

/-- **The turns of a removal in progress**: there are no more of them than idle connections in the
queue at the beginning, and releases that can add one. -/
theorem Ordered.count_turns (h : s.Ordered) (hr : s.removing = some now) {es : List Event}
    (hes : Along (Monitored.step cfg) Forward s es)
    (hall : ∀ q ∈ es.scanl (Monitored.step cfg) s, q.removing ≠ none) :
    es.countP Event.isTurn ≤
      s.pool.available.countP (idle cfg now) + es.countP (Event.refills cfg) := by
  induction es generalizing s with
  | nil => exact Nat.zero_le _
  | cons e es ih =>
    obtain ⟨he, hes⟩ := hes
    rw [List.scanl_cons, List.forall_mem_cons] at hall
    have hnext : (s.step cfg e).removing ≠ none := hall.2 _ (by cases es <;> simp)
    have hone := h.count_step hr he hnext
    have hrest := ih (h.step he) (removing_step hr he hnext) hes hall.2
    rw [List.countP_cons, List.countP_cons]
    omega

end Monitored

/-! ### From the constructor on -/

section

variable {p q : Pool} {now : ℤ}

theorem constructAt_const (os : List Creation) :
    constructAt (os.map fun o => (now, o)) p = construct now os p := by
  induction os generalizing p with
  | nil => rfl
  | cons o os ih =>
    simp only [List.map_cons, constructAt, construct, ih]

theorem times_constructAt {os : List (ℤ × Creation)} (h : constructAt os p = some q) :
    q.available.map Wrapper.time = p.available.map Wrapper.time ++ os.map Prod.fst := by
  induction os generalizing p with
  | nil =>
    obtain rfl := Option.some.inj h
    simp
  | cons a os ih =>
    obtain ⟨t, o⟩ := a
    obtain ⟨con, -, hq⟩ := Option.bind_eq_some_iff.1 h
    rw [ih hq]
    simp

theorem ordered_constructAt {os : List (ℤ × Creation)} (h : constructAt os {} = some p)
    (hos : (os.map Prod.fst).Pairwise (· ≤ ·)) {t : ℤ} (ht : ∀ a ∈ os, a.1 ≤ t) :
    Monitored.Ordered ⟨p, t, none⟩ where
  queue := by
    rw [← List.pairwise_map, times_constructAt h]
    exact hos
  past c hc := by
    have hmem : c.time ∈ p.available.map Wrapper.time := List.mem_map_of_mem hc
    rw [times_constructAt h] at hmem
    obtain ⟨a, ha, heq⟩ := List.mem_map.1 (hmem : c.time ∈ os.map Prod.fst)
    exact heq ▸ ht a ha
  started now hnow := by cases hnow

end

end Pool

open Pool

/-- **Idle removal is exact.**  In every run of a pool from its construction on, with a clock that
never goes backwards, the queue is ordered by its time stamps.

A call of `removeExpired` at `now` that nothing interrupts is over after one turn more than there
are idle connections in the queue, at the latest; it takes these away and keeps the others in their
order.  When other threads do something between the turns, then every turn takes an idle connection
away, or it ends the call and there is no idle connection left; and the call is over after one turn
more than there are idle connections in the queue, and releases from then on that may add one. -/
theorem idle_removal_exact (cfg : Pool.Configuration) {os : List (ℤ × Creation)} {p : Pool}
    (hp : constructAt os {} = some p) (hos : (os.map Prod.fst).Pairwise (· ≤ ·)) {t : ℤ}
    (ht : ∀ a ∈ os, a.1 ≤ t) {es : List Event}
    (hes : Along (Monitored.step cfg) Monitored.Forward ⟨p, t, none⟩ es) :
    let s := es.foldl (Monitored.step cfg) ⟨p, t, none⟩
    s.pool.available.Pairwise (fun c d => c.time ≤ d.time) ∧
      (∀ now m, s.Forward (.start now) → s.pool.available.countP (idle cfg now) < m →
        ∃ q, (Event.start now :: List.replicate m .turn).foldl (Monitored.step cfg) s =
            ⟨q, now, none⟩ ∧
          q.available = s.pool.available.filter fun c => !idle cfg now c) ∧
      ∀ now, s.removing = some now →
        (((s.step cfg .turn).removing = none ∧ (s.step cfg .turn).pool = s.pool ∧
            ∀ c ∈ s.pool.available, idle cfg now c = false) ∨
          ∃ c, idle cfg now c = true ∧ (s.step cfg .turn).removing = some now ∧
            s.pool.available = c :: (s.step cfg .turn).pool.available) ∧
        ∀ fs, Along (Monitored.step cfg) Monitored.Forward s fs →
          s.pool.available.countP (idle cfg now) + fs.countP (Event.refills cfg) <
            fs.countP Event.isTurn →
          ∃ q ∈ fs.scanl (Monitored.step cfg) s, q.removing = none := by
  intro s
  have hs : s.Ordered :=
    hes.invariant (ordered_constructAt hp hos ht) (fun _ _ h he => h.step he) _
      (foldl_mem_scanl _ _ es)
  refine ⟨hs.queue, ?_, ?_⟩
  · intro now m hnow hm
    have hstart : (s.step cfg (.start now)).Ordered := hs.step hnow
    refine ⟨s.pool.removeExpired cfg now, ?_, dropWhile_idle hs.queue⟩
    rw [List.foldl_cons, hstart.turns_eq rfl hm]
    rfl
  · intro now hr
    refine ⟨?_, ?_⟩
    · rcases hs.turn_cases cfg hr with ⟨heq, hbusy⟩ | ⟨c, cs, ha, hc, heq⟩
      · rw [heq]
        exact .inl ⟨rfl, rfl, hbusy⟩
      · rw [heq]
        exact .inr ⟨c, hc, hr, ha⟩
    · intro fs hfs hlt
      by_contra hno
      refine absurd (hs.count_turns hr hfs fun q hq hnone => hno ⟨q, hq, hnone⟩) (by omega)

/-- Of two connections that have been idle for 400 and for 200 seconds, a call of `removeExpired`
takes the first one away.  A third one is given back before its next turn, which is the last. -/
theorem idle_removal_exact_three :
    let cfg : Pool.Configuration := { initialSize := 3 }
    let os := [(0, .made true), (0, .made true), (200 * 10 ^ 9, .made true)]
    let p : Pool := {
      created := 3
      available :=
        [⟨some ⟨0, true⟩, 0, 0⟩, ⟨some ⟨1, true⟩, 0, 0⟩, ⟨some ⟨2, true⟩, 200 * 10 ^ 9, 0⟩]
      live := [0, 1, 2] }
    let es := [.enter (300 * 10 ^ 9) .null, .start (400 * 10 ^ 9), .turn,
      .destroy (500 * 10 ^ 9) 0]
    let s := es.foldl (Monitored.step cfg) ⟨p, 200 * 10 ^ 9, none⟩
    constructAt os {} = some p ∧ s.pool.live = [0, 2] ∧
      (s.step cfg .turn).removing = none ∧ (s.step cfg .turn).pool = s.pool ∧
        ∀ c ∈ s.pool.available, idle cfg (400 * 10 ^ 9) c = false := by
  intro cfg os p es s
  have hp : constructAt os {} = some p := by decide
  have hes : Along (Monitored.step cfg) Monitored.Forward ⟨p, 200 * 10 ^ 9, none⟩ es := by
    refine ⟨?_, ⟨?_, rfl⟩, trivial, ?_, trivial⟩
    · exact (by decide : (200 * 10 ^ 9 : ℤ) ≤ 300 * 10 ^ 9)
    · exact (by decide : (300 * 10 ^ 9 : ℤ) ≤ 400 * 10 ^ 9)
    · exact (by decide : (400 * 10 ^ 9 : ℤ) ≤ 500 * 10 ^ 9)
  have hrun := idle_removal_exact cfg hp (by decide) (by decide) hes
  refine ⟨hp, by decide, ?_⟩
  rcases (hrun.2.2 (400 * 10 ^ 9) (by decide)).1 with hover | ⟨c, -, hgo, -⟩
  · exact hover
  · exact absurd hgo (by decide)

end ConfigDb
