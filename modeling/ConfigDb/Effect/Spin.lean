import Mathlib.Logic.Function.Basic
import Mathlib.Data.List.Basic

/-!
# A value under a spin lock

Threads do jobs on a common value, each under a spin lock.  A thread loads the flag of the lock
until it is free, and then exchanges it; if another thread was faster, it begins again.  With the
lock it reads the value, works on what it has read, and writes; then it stores the flag.

Every load, exchange, read, write and store is a step of its own, and any thread may take the next
step.

## Main definitions

* `Spin`, `Spin.call`, `Spin.step` : the lock, the value and the threads.
* `Spin.Inv` : at most one thread has the lock, and what it has read is still the value.

## Main results

* `Spin.Inv.step` : a step keeps the invariant.
* `Spin.step_cases` : what a step can do.
-/

namespace ConfigDb

/-- Where a thread is. -/
inductive Phase (J σ R : Type)
  /-- It has no job. -/
  | out
  /-- It is about to load the flag. -/
  | spinning (j : J)
  /-- It has seen the lock free, and is about to exchange the flag. -/
  | taking (j : J)
  /-- It has the lock, and is about to read the value. -/
  | entered (j : J)
  /-- It has read the value, and is about to write. -/
  | working (j : J) (v : σ)
  /-- It has its result, and is about to store the flag. -/
  | leaving (r : R)

/-- A value, the lock that guards it, and the threads. -/
structure Spin (ι J σ R : Type) where
  /-- The flag of the lock. -/
  locked : Bool := false
  /-- The value. -/
  value : σ
  /-- Where the threads are. -/
  phase : ι → Phase J σ R := fun _ => .out
  /-- The jobs that have been done, in the order of their writes. -/
  done : List (ι × J) := []

variable {ι J σ R : Type}

/-- The thread has the lock. -/
def Phase.Holds : Phase J σ R → Prop
  | .entered _ | .working _ _ | .leaving _ => True
  | _ => False

/-- The result that a thread has. -/
def Phase.result : Phase J σ R → Option R
  | .leaving r => some r
  | _ => none

theorem Phase.Holds.of_working {p : Phase J σ R} {j : J} {v : σ} (hp : p = .working j v) :
    p.Holds := by
  rw [hp]
  trivial

theorem Phase.Holds.of_leaving {p : Phase J σ R} {r : R} (hp : p = .leaving r) : p.Holds := by
  rw [hp]
  trivial

namespace Spin

/-- The value after some jobs. -/
def replay (work : J → σ → σ × R) (v₀ : σ) (es : List (ι × J)) : σ :=
  es.foldl (fun v e => (work e.2 v).1) v₀

/-- What holds in any run from the value `v₀`. -/
structure Inv (work : J → σ → σ × R) (v₀ : σ) (m : Spin ι J σ R) : Prop where
  /-- A thread with the lock has set the flag. -/
  locked : ∀ t, (m.phase t).Holds → m.locked = true
  /-- At most one thread has the lock. -/
  alone : ∀ t t', (m.phase t).Holds → (m.phase t').Holds → t = t'
  /-- What a thread works on is the value. -/
  current : ∀ t j v, m.phase t = .working j v → v = m.value
  /-- The value is the one after the jobs that have been done. -/
  value : m.value = replay work v₀ m.done

theorem inv_init (work : J → σ → σ × R) (v₀ : σ) :
    Inv work v₀ ({ value := v₀ } : Spin ι J σ R) :=
  ⟨fun _ h => h.elim, fun _ _ h => h.elim, fun _ _ _ h => (nomatch h), rfl⟩

section

variable [DecidableEq ι] {work : J → σ → σ × R} {m : Spin ι J σ R} {v₀ : σ}

/-- A thread moves on. -/
def move (m : Spin ι J σ R) (t : ι) (p : Phase J σ R) : Spin ι J σ R :=
  { m with phase := Function.update m.phase t p }

/-- A thread that has no job gets one. -/
def call (t : ι) (j : J) (m : Spin ι J σ R) : Spin ι J σ R :=
  match m.phase t with
  | .out => m.move t (.spinning j)
  | _ => m

/-- The next step of a thread, with the result that it comes out with. -/
def step (work : J → σ → σ × R) (t : ι) (m : Spin ι J σ R) : Spin ι J σ R × Option R :=
  match m.phase t with
  | .out => (m, none)
  -- the lock is loaded first, and exchanged only when it has been seen free
  | .spinning j => (m.move t (if m.locked then .spinning j else .taking j), none)
  | .taking j =>
    -- the flag is set in any case; whoever finds it set before has not got the lock
    ({ m.move t (if m.locked then .spinning j else .entered j) with locked := true }, none)
  | .entered j => (m.move t (.working j m.value), none)
  | .working j v =>
    ({ m.move t (.leaving (work j v).2) with
        value := (work j v).1
        done := m.done ++ [(t, j)] }, none)
  | .leaving r => ({ m.move t .out with locked := false }, some r)

@[simp] theorem move_phase_self (t : ι) (p : Phase J σ R) : (m.move t p).phase t = p := by
  simp [move]

theorem move_phase_of_ne {t t' : ι} (h : t' ≠ t) (p : Phase J σ R) :
    (m.move t p).phase t' = m.phase t' := by
  simp [move, h]

@[simp] theorem move_value (t : ι) (p : Phase J σ R) : (m.move t p).value = m.value := rfl

@[simp] theorem move_done (t : ι) (p : Phase J σ R) : (m.move t p).done = m.done := rfl

@[simp] theorem move_locked (t : ι) (p : Phase J σ R) : (m.move t p).locked = m.locked := rfl

theorem call_phase_of_ne {t t' : ι} (h : t' ≠ t) (j : J) :
    (m.call t j).phase t' = m.phase t' := by
  unfold call
  split
  case h_1 => exact move_phase_of_ne h _
  case h_2 => rfl

@[simp] theorem call_done (t : ι) (j : J) : (m.call t j).done = m.done := by
  unfold call
  split <;> rfl

@[simp] theorem call_value (t : ι) (j : J) : (m.call t j).value = m.value := by
  unfold call
  split <;> rfl

theorem Inv.move (h : Inv work v₀ m) {t : ι} {p : Phase J σ R}
    (hp : p.Holds → (m.phase t).Holds) (hcur : ∀ j v, p = .working j v → v = m.value) :
    Inv work v₀ (m.move t p) := by
  have hholds : ∀ t', ((m.move t p).phase t').Holds → (m.phase t').Holds := by
    intro t' ht'
    by_cases heq : t' = t
    · subst heq
      rw [move_phase_self] at ht'
      exact hp ht'
    · rwa [move_phase_of_ne heq] at ht'
  refine ⟨fun t' ht' => h.locked t' (hholds t' ht'), ?_, ?_, h.value⟩
  · intro t₁ t₂ h₁ h₂
    exact h.alone t₁ t₂ (hholds t₁ h₁) (hholds t₂ h₂)
  · intro t' j v ht'
    by_cases heq : t' = t
    · subst heq
      rw [move_phase_self] at ht'
      exact hcur j v ht'
    · rw [move_phase_of_ne heq] at ht'
      exact h.current t' j v ht'

theorem Inv.call (h : Inv work v₀ m) (t : ι) (j : J) : Inv work v₀ (m.call t j) := by
  unfold Spin.call
  split
  case h_1 => exact h.move (fun hp => hp.elim) (fun _ _ hp => nomatch hp)
  case h_2 => exact h

/-- **A step keeps the invariant.** -/
theorem Inv.step (h : Inv work v₀ m) (t : ι) : Inv work v₀ (m.step work t).1 := by
  unfold Spin.step
  cases hphase : m.phase t with
  | out => exact h
  | spinning j =>
    refine h.move (fun hp => ?_) (fun _ _ hp => ?_)
    · split_ifs at hp <;> exact hp.elim
    · split_ifs at hp
  | taking j =>
    by_cases hlocked : m.locked = true
    · have hmove : Inv work v₀ (m.move t (.spinning j)) :=
        h.move (fun hp => hp.elim) (fun _ _ hp => nomatch hp)
      simp only [hlocked, if_true]
      exact ⟨fun _ _ => rfl, hmove.alone, hmove.current, hmove.value⟩
    · have hfree : ∀ t', ¬ (m.phase t').Holds := fun t' ht' => hlocked (h.locked t' ht')
      have hholds : ∀ t', ((m.move t (.entered j)).phase t').Holds → t' = t := by
        intro t' ht'
        by_contra hne
        rw [move_phase_of_ne hne] at ht'
        exact hfree t' ht'
      simp only [if_neg hlocked]
      refine ⟨fun _ _ => rfl, fun t₁ t₂ h₁ h₂ => (hholds t₁ h₁).trans (hholds t₂ h₂).symm, ?_,
        h.value⟩
      intro t' j' v ht'
      have hheld : ((m.move t (.entered j)).phase t').Holds := .of_working ht'
      obtain rfl := hholds t' hheld
      exact nomatch (move_phase_self (m := m) t' (.entered j)).symm.trans ht'
  | entered j =>
    refine h.move (fun _ => by rw [hphase]; trivial) (fun j' v hp => ?_)
    exact (Phase.working.inj hp).2.symm
  | working j v =>
    have hheld : (m.phase t).Holds := .of_working hphase
    have hmove : Inv work v₀ (m.move t (.leaving (work j v).2)) :=
      h.move (fun _ => hheld) (fun _ _ hp => nomatch hp)
    refine ⟨hmove.locked, hmove.alone, ?_, ?_⟩
    · intro t' j' v' ht'
      have hheld' : ((m.move t (.leaving (work j v).2)).phase t').Holds := .of_working ht'
      obtain rfl := hmove.alone t' t hheld' (by rw [move_phase_self]; trivial)
      exact nomatch (move_phase_self (m := m) t' (.leaving (work j v).2)).symm.trans ht'
    · -- the value has not changed since the thread read it
      have hv : v = m.value := h.current t j v hphase
      change (work j v).1 = replay work v₀ (m.done ++ [(t, j)])
      rw [replay, List.foldl_append, List.foldl_cons, List.foldl_nil, hv, h.value]
      rfl
  | leaving r =>
    -- the thread was the only one that had the lock
    have hheld : (m.phase t).Holds := .of_leaving hphase
    have hout : ∀ t', ¬ ((m.move t .out).phase t').Holds := by
      intro t' ht'
      by_cases heq : t' = t
      · subst heq
        rw [move_phase_self] at ht'
        exact ht'
      · rw [move_phase_of_ne heq] at ht'
        exact heq (h.alone t' t ht' hheld)
    refine ⟨fun t' ht' => (hout t' ht').elim, fun t' _ ht' => (hout t' ht').elim, ?_, h.value⟩
    intro t' j v ht'
    exact (hout t' (.of_working ht')).elim

/-- **What a step can do**: it finishes a job on the present value, or comes out with a result, or
neither. -/
theorem step_cases (h : Inv work v₀ m) (t : ι) :
    (∃ j, m.phase t = .working j m.value ∧ m.step work t =
        ({ m.move t (.leaving (work j m.value).2) with
            value := (work j m.value).1
            done := m.done ++ [(t, j)] }, none)) ∨
      (∃ r, m.phase t = .leaving r ∧ m.step work t = ({ m.move t .out with locked := false },
        some r)) ∨
      ∃ b p, (m.phase t).result = none ∧ p.result = none ∧ (m.phase t = .out → p = .out) ∧
        m.step work t = ({ m.move t p with locked := b }, none) := by
  cases hphase : m.phase t with
  | out =>
    refine .inr (.inr ⟨m.locked, .out, rfl, rfl, fun _ => rfl, ?_⟩)
    have hself : m.move t .out = m := by
      rw [move, ← hphase, Function.update_eq_self]
    rw [step, hphase, hself]
  | spinning j =>
    refine .inr (.inr ⟨m.locked, if m.locked then .spinning j else .taking j, rfl, ?_,
      fun hp => (nomatch hp), ?_⟩)
    · split_ifs <;> rfl
    · rw [step, hphase]
      rfl
  | taking j =>
    refine .inr (.inr ⟨true, if m.locked then .spinning j else .entered j, rfl, ?_,
      fun hp => (nomatch hp), ?_⟩)
    · split_ifs <;> rfl
    · rw [step, hphase]
  | entered j =>
    refine .inr (.inr ⟨m.locked, .working j m.value, rfl, rfl, fun hp => (nomatch hp), ?_⟩)
    rw [step, hphase]
    rfl
  | working j v =>
    obtain rfl := h.current t j v hphase
    refine .inl ⟨j, rfl, ?_⟩
    rw [step, hphase]
  | leaving r =>
    refine .inr (.inl ⟨r, rfl, ?_⟩)
    rw [step, hphase]

end

end Spin

end ConfigDb
