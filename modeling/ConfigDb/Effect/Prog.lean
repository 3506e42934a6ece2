import Mathlib.Logic.Function.Basic
import Mathlib.Tactic.Common

/-!
# Programs that call an environment

A piece of code that talks to a database, a clock or a socket is modelled as a *program*: a
finite tree whose inner nodes are calls to the environment and whose branches are indexed by
the possible answers.  The code is written once, as a `Prog`, and can then be run in several
ways: against a faithful model of the environment with failures, against an idealised one, or
one call at a time and interleaved with another program.

## Main definitions

* `Prog R α` : programs over calls `e : E` answered by `R e`, returning an `α`.
* `Prog.run h` : running a program against a handler `h`, which answers one call at a time and
  threads a state.
* `Prog.log f` : what `f` takes down of the calls of a run.
* `Prog.record g` : a record that `g` brings up to date at every call of a run.
* `Prog.Only P p` : every call that `p` can make satisfies `P`.
* `Prog.Within A P p` : every call that `p` can make satisfies `P`, as long as the answers it gets
  satisfy `A`.
* `Prog.Tracks P g Q p` : every call that `p` can make satisfies `P` and, whatever the answers are,
  what `g` has taken down of them in the end satisfies `Q`.
* `Prog.Succeeds h P p Q` : if `p` starts in a state that satisfies `P` and answers `true`, then it
  ends in a state that satisfies `Q`.

## Main results

* `Prog.run_invariant` : what every call preserves, a whole run preserves.
* `Prog.run_sim` : two handlers that answer alike and keep two states related do so over a
  whole run.
* `Prog.Within.run_invariant` : an environment whose answers satisfy `A` while the calls satisfy `P`
  keeps its invariant over a whole run.
* `Prog.Succeeds.andThen` : how the steps of a program that gives up at the first failure compose.
* `Prog.Tracks.record` : what holds of the record whatever the answers are holds of a run.
* `Prog.run_congr_of_record` : two handlers that differ only where the record shows it agree on
  every run whose record does not show it.
-/

namespace ConfigDb

/-- Programs that make calls `e : E`, answered by `R e`, and return an `α`. -/
inductive Prog {E : Type} (R : E → Type) (α : Type) : Type
  /-- The program has returned. -/
  | ret (a : α)
  /-- The program makes the call `e` and goes on with the answer. -/
  | call (e : E) (k : R e → Prog R α)

namespace Prog

variable {E : Type} {R : E → Type} {α β γ : Type}

/-- Sequencing. -/
def bind : Prog R α → (α → Prog R β) → Prog R β
  | .ret a, f => f a
  | .call e k, f => .call e fun r => (k r).bind f

instance : Monad (Prog R) where
  pure := Prog.ret
  bind := Prog.bind

/-- The program that makes one call and returns its answer. -/
def perform (e : E) : Prog R (R e) := .call e .ret

theorem bind_ret (p : Prog R α) : p.bind .ret = p := by
  induction p with
  | ret a => rfl
  | call e k ih => simp [bind, ih]

theorem bind_assoc (p : Prog R α) (f : α → Prog R β) (g : β → Prog R γ) :
    (p.bind f).bind g = p.bind fun a => (f a).bind g := by
  induction p with
  | ret a => rfl
  | call e k ih => simp [bind, ih]

instance : LawfulMonad (Prog R) := LawfulMonad.mk' (Prog R)
  (fun p => bind_ret p) (fun _ _ => rfl) (fun p f g => bind_assoc p f g)

/-! ### Running a program -/

section Run

variable {σ : Type}

/-- Run a program: the handler `h` answers each call and updates the state. -/
def run (h : (e : E) → σ → R e × σ) : Prog R α → σ → α × σ
  | .ret a, s => (a, s)
  | .call e k, s => run h (k (h e s).1) (h e s).2

/-- What `f` takes down of the calls of a run and their answers, in order. -/
def log {β : Type} (f : (e : E) → R e → List β) (h : (e : E) → σ → R e × σ) :
    Prog R α → σ → List β
  | .ret _, _ => []
  | .call e k, s => f e (h e s).1 ++ log f h (k (h e s).1) (h e s).2

/-- The record that a run leaves: `g` brings it up to date at every call. -/
def record {γ : Type} (g : (e : E) → R e → γ → γ) (h : (e : E) → σ → R e × σ) :
    Prog R α → σ → γ → γ
  | .ret _, _, m => m
  | .call e k, s, m => record g h (k (h e s).1) (h e s).2 (g e (h e s).1 m)

variable (h : (e : E) → σ → R e × σ)

@[simp] theorem run_pure (a : α) (s : σ) : run h (pure a : Prog R α) s = (a, s) := rfl

@[simp] theorem run_perform (e : E) (s : σ) : run h (perform e) s = h e s := rfl

@[simp] theorem run_bind (p : Prog R α) (f : α → Prog R β) (s : σ) :
    run h (p >>= f) s = run h (f (run h p s).1) (run h p s).2 := by
  change run h (p.bind f) s = _
  induction p generalizing s with
  | ret a => rfl
  | call e k ih => exact ih _ _

@[simp] theorem run_map (p : Prog R α) (f : α → β) (s : σ) :
    run h (f <$> p) s = (f (run h p s).1, (run h p s).2) := by
  rw [← bind_pure_comp, run_bind, run_pure]

theorem run_ite (c : Prop) [Decidable c] (p q : Prog R α) (s : σ) :
    run h (if c then p else q) s = if c then run h p s else run h q s := by
  split <;> rfl

theorem log_bind {δ : Type} (f : (e : E) → R e → List δ) (p : Prog R α) (g : α → Prog R β)
    (s : σ) : log f h (p >>= g) s = log f h p s ++ log f h (g (run h p s).1) (run h p s).2 := by
  change log f h (p.bind g) s = _
  induction p generalizing s with
  | ret a => rfl
  | call e k ih =>
    change f e _ ++ log f h ((k _).bind g) _ = _
    rw [ih, ← List.append_assoc]
    rfl

@[simp] theorem record_pure (g : (e : E) → R e → γ → γ) (a : α) (s : σ) (m : γ) :
    record g h (pure a : Prog R α) s m = m := rfl

theorem record_bind (g : (e : E) → R e → γ → γ) (p : Prog R α) (f : α → Prog R β) (s : σ)
    (m : γ) : record g h (p >>= f) s m =
      record g h (f (run h p s).1) (run h p s).2 (record g h p s m) := by
  change record g h (p.bind f) s m = _
  induction p generalizing s m with
  | ret a => rfl
  | call e k ih => exact ih _ _ _

variable {h}

theorem of_record {g : (e : E) → R e → γ → γ} {I : γ → Prop} (hI : ∀ e r m, I (g e r m) → I m)
    {p : Prog R α} {s : σ} {m : γ} (hm : I (record g h p s m)) : I m := by
  induction p generalizing s m with
  | ret a => exact hm
  | call e k ih => exact hI e _ m (ih _ hm)

/-- **Two handlers that differ only where the record shows it** agree on every run whose record does
not show it. -/
theorem run_congr_of_record {h' : (e : E) → σ → R e × σ} {g : (e : E) → R e → γ → γ} {I : γ → Prop}
    (hI : ∀ e r m, I (g e r m) → I m) (hsame : ∀ e s m, I (g e (h e s).1 m) → h' e s = h e s)
    {p : Prog R α} {s : σ} {m : γ} (hm : I (record g h p s m)) : run h' p s = run h p s := by
  induction p generalizing s m with
  | ret a => rfl
  | call e k ih =>
    have he : h' e s = h e s := hsame e s m (of_record hI hm)
    change run h' (k (h' e s).1) (h' e s).2 = run h (k (h e s).1) (h e s).2
    rw [he]
    exact ih _ hm

/-- **What every call preserves, a run preserves.** -/
theorem run_invariant {I : σ → Prop} (hI : ∀ e s, I s → I (h e s).2) (p : Prog R α) {s : σ}
    (hs : I s) : I (run h p s).2 := by
  induction p generalizing s with
  | ret a => exact hs
  | call e k ih => exact ih _ (hI e s hs)

end Run

/-! ### The calls a program can make -/

/-- Every call that the program can make satisfies `P`. -/
def Only (P : E → Prop) : Prog R α → Prop
  | .ret _ => True
  | .call e k => P e ∧ ∀ r, (k r).Only P

@[simp] theorem only_pure (P : E → Prop) (a : α) : (pure a : Prog R α).Only P := trivial

@[simp] theorem only_perform (P : E → Prop) (e : E) :
    (perform e : Prog R (R e)).Only P ↔ P e :=
  ⟨fun h => h.1, fun h => ⟨h, fun _ => trivial⟩⟩

theorem Only.bind {P : E → Prop} {p : Prog R α} {f : α → Prog R β} (hp : p.Only P)
    (hf : ∀ a, (f a).Only P) : (p >>= f).Only P := by
  change (p.bind f).Only P
  induction p with
  | ret a => exact hf a
  | call e k ih => exact ⟨hp.1, fun r => ih r (hp.2 r)⟩

theorem Only.mono {P Q : E → Prop} (hPQ : ∀ e, P e → Q e) {p : Prog R α} (hp : p.Only P) :
    p.Only Q := by
  induction p with
  | ret a => trivial
  | call e k ih => exact ⟨hPQ e hp.1, fun r => ih r (hp.2 r)⟩

/-- Along the calls allowed by `P`, what each of them preserves a run preserves. -/
theorem Only.run_invariant {σ : Type} {h : (e : E) → σ → R e × σ} {P : E → Prop} {I : σ → Prop}
    (hI : ∀ e s, P e → I s → I (h e s).2) {p : Prog R α} (hp : p.Only P) {s : σ} (hs : I s) :
    I (run h p s).2 := by
  induction p generalizing s with
  | ret a => exact hs
  | call e k ih => exact ih _ (hp.2 _) (hI e s hp.1 hs)

/-- What holds of all that is taken down of the calls allowed by `P` holds of the log of a run. -/
theorem Only.forall_mem_log {σ δ : Type} {f : (e : E) → R e → List δ} {P : E → Prop} {Q : δ → Prop}
    (hQ : ∀ e r, P e → ∀ x ∈ f e r, Q x) {p : Prog R α} (hp : p.Only P)
    (h : (e : E) → σ → R e × σ) (s : σ) : ∀ x ∈ log f h p s, Q x := by
  induction p generalizing s with
  | ret a => exact List.forall_mem_nil _
  | call e k ih => exact List.forall_mem_append.2 ⟨hQ e _ hp.1, ih _ (hp.2 _) _⟩

theorem only_true (p : Prog R α) : p.Only fun _ => True := by
  induction p with
  | ret a => trivial
  | call e k ih => exact ⟨trivial, ih⟩

/-- Along the calls allowed by `P`, two handlers that give the same answers in related states and
keep the states related do so over a whole run. -/
theorem Only.run_sim {σ τ : Type} {h : (e : E) → σ → R e × σ} {h' : (e : E) → τ → R e × τ}
    {P : E → Prop} {S : σ → τ → Prop}
    (hS : ∀ e s t, P e → S s t → (h e s).1 = (h' e t).1 ∧ S (h e s).2 (h' e t).2)
    {p : Prog R α} (hp : p.Only P) {s : σ} {t : τ} (hst : S s t) :
    (run h p s).1 = (run h' p t).1 ∧ S (run h p s).2 (run h' p t).2 := by
  induction p generalizing s t with
  | ret a => exact ⟨rfl, hst⟩
  | call e k ih =>
    obtain ⟨ha, hr⟩ := hS e s t hp.1 hst
    simp only [run, ha]
    exact ih _ (hp.2 _) hr

/-- **Simulation.**  If two handlers give the same answers in related states and keep the states
related, then a program returns the same value under both and ends in related states. -/
theorem run_sim {σ τ : Type} {h : (e : E) → σ → R e × σ} {h' : (e : E) → τ → R e × τ}
    {S : σ → τ → Prop}
    (hS : ∀ e s t, S s t → (h e s).1 = (h' e t).1 ∧ S (h e s).2 (h' e t).2)
    (p : Prog R α) {s : σ} {t : τ} (hst : S s t) :
    (run h p s).1 = (run h' p t).1 ∧ S (run h p s).2 (run h' p t).2 :=
  (only_true p).run_sim (fun e s t _ => hS e s t) hst

/-! ### Calls that depend on the answers -/

/-- Every call that the program can make satisfies `P`, as long as the answers satisfy `A`. -/
def Within (A : (e : E) → R e → Prop) (P : E → Prop) : Prog R α → Prop
  | .ret _ => True
  | .call e k => P e ∧ ∀ r, A e r → (k r).Within A P

section Within

variable {A : (e : E) → R e → Prop} {P : E → Prop}

theorem Only.within {p : Prog R α} (hp : p.Only P) : p.Within A P := by
  induction p with
  | ret a => trivial
  | call e k ih => exact ⟨hp.1, fun r _ => ih r (hp.2 r)⟩

theorem Within.bind {p : Prog R α} {f : α → Prog R β} (hp : p.Within A P)
    (hf : ∀ a, (f a).Within A P) : (p >>= f).Within A P := by
  change (p.bind f).Within A P
  induction p with
  | ret a => exact hf a
  | call e k ih => exact ⟨hp.1, fun r hr => ih r (hp.2 r hr)⟩

theorem Within.call {e : E} {f : R e → Prog R β} (he : P e)
    (hf : ∀ r, A e r → (f r).Within A P) : (perform e >>= f).Within A P :=
  ⟨he, hf⟩

/-- **Assumption and guarantee.**  If the environment answers calls that satisfy `P` by answers that
satisfy `A`, and keeps `I`, then so does a run of a program that relies on it. -/
theorem Within.run_invariant {σ : Type} {h : (e : E) → σ → R e × σ} {I : σ → Prop}
    (hI : ∀ e s, P e → I s → A e (h e s).1 ∧ I (h e s).2) {p : Prog R α} (hp : p.Within A P)
    {s : σ} (hs : I s) : I (run h p s).2 := by
  induction p generalizing s with
  | ret a => exact hs
  | call e k ih =>
    obtain ⟨ha, hs'⟩ := hI e s hp.1 hs
    exact ih _ (hp.2 _ ha) hs'

end Within

/-! ### Whatever the environment answers -/

/-- Every call that the program can make satisfies `P` and, whatever the answers are, what it
returns and what `g` has taken down by then satisfy `Q`. -/
def Tracks (P : E → Prop) (g : (e : E) → R e → γ → γ) (Q : α → γ → Prop) : Prog R α → γ → Prop
  | .ret a, s => Q a s
  | .call e k, s => P e ∧ ∀ r, (k r).Tracks P g Q (g e r s)

section Tracks

variable {P : E → Prop} {g : (e : E) → R e → γ → γ}

theorem Tracks.mono {Q Q' : α → γ → Prop} (hQ : ∀ a s, Q a s → Q' a s) {p : Prog R α} {s : γ}
    (hp : p.Tracks P g Q s) : p.Tracks P g Q' s := by
  induction p generalizing s with
  | ret a => exact hQ a s hp
  | call e k ih => exact ⟨hp.1, fun r => ih r (hp.2 r)⟩

theorem Tracks.bind {Q : β → γ → Prop} {p : Prog R α} {f : α → Prog R β} {s : γ}
    (hp : p.Tracks P g (fun a s => (f a).Tracks P g Q s) s) : (p >>= f).Tracks P g Q s := by
  change (p.bind f).Tracks P g Q s
  induction p generalizing s with
  | ret a => exact hp
  | call e k ih => exact ⟨hp.1, fun r => ih r (hp.2 r)⟩

theorem Tracks.of_only {P' : E → Prop} (hP : ∀ e, P' e → P e ∧ ∀ r s, g e r s = s)
    {Q : α → γ → Prop} {p : Prog R α} (hp : p.Only P') {s : γ} (hQ : ∀ a, Q a s) :
    p.Tracks P g Q s := by
  induction p with
  | ret a => exact hQ a
  | call e k ih =>
    refine ⟨(hP e hp.1).1, fun r => ?_⟩
    rw [(hP e hp.1).2 r s]
    exact ih r (hp.2 r)

/-- Do `p`, leave if it fails, and go on otherwise. -/
theorem Tracks.andThen {Q : Bool → γ → Prop} {p exit q : Prog R Bool} {s : γ}
    (hexit : ∀ s, exit.Tracks P g Q s)
    (hp : p.Tracks P g (fun b s => b = true → q.Tracks P g Q s) s) :
    (p >>= fun b => if !b then exit else q).Tracks P g Q s := by
  refine .bind (hp.mono fun b s hb => ?_)
  cases b with
  | false => exact hexit s
  | true => exact hb rfl

/-- What holds of the record whatever the answers are holds of a run. -/
theorem Tracks.record {σ : Type} {Q : α → γ → Prop} {p : Prog R α} {m : γ}
    (hp : p.Tracks P g Q m) (h : (e : E) → σ → R e × σ) (s : σ) :
    Q (run h p s).1 (record g h p s m) := by
  induction p generalizing s m with
  | ret a => exact hp
  | call e k ih => exact ih _ (hp.2 _) _

end Tracks

/-! ### Programs that give up at the first failure -/

/-- From a state that satisfies `P`, the program ends in one that satisfies `Q` if it answers
`true`. -/
def Succeeds {σ : Type} (h : (e : E) → σ → R e × σ) (P : σ → Prop) (p : Prog R Bool)
    (Q : σ → Prop) : Prop :=
  ∀ s, P s → (run h p s).1 = true → Q (run h p s).2

section Succeeds

variable {σ : Type} {h : (e : E) → σ → R e × σ} {P M Q : σ → Prop}

theorem Succeeds.of_false {p : Prog R Bool} (hp : ∀ s, (run h p s).1 = false) :
    Succeeds h P p Q := by
  intro s _ hs
  rw [hp s] at hs
  exact absurd hs Bool.false_ne_true

theorem Succeeds.pure_true (hPQ : ∀ s, P s → Q s) : Succeeds h P (pure true) Q :=
  fun s hs _ => hPQ s hs

theorem Succeeds.pure_false : Succeeds h P (pure false) Q := .of_false fun _ => rfl

theorem Succeeds.bind {p : Prog R α} {f : α → Prog R Bool} {M : α → σ → Prop}
    (hp : ∀ s, P s → M (run h p s).1 (run h p s).2) (hf : ∀ a, Succeeds h (M a) (f a) Q) :
    Succeeds h P (p >>= f) Q := by
  intro s hs ht
  rw [run_bind] at ht ⊢
  exact hf _ _ (hp s hs) ht

/-- **Do `p`, leave if it fails, and go on otherwise.** -/
theorem Succeeds.andThen {p exit q : Prog R Bool} (hexit : ∀ s, (run h exit s).1 = false)
    (hp : Succeeds h P p M) (hq : Succeeds h M q Q) :
    Succeeds h P (p >>= fun b => if !b then exit else q) Q := by
  intro s hs ht
  rw [run_bind] at ht ⊢
  cases hb : (run h p s).1 with
  | false =>
    simp only [hb, Bool.not_false, if_true, hexit] at ht
    exact absurd ht Bool.false_ne_true
  | true =>
    simp only [hb, Bool.not_true, Bool.false_eq_true, if_false] at ht ⊢
    exact hq _ (hp s hs hb) ht

end Succeeds

end Prog

end ConfigDb
