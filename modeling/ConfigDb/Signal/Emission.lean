import ConfigDb.Effect.Runs
import ConfigDb.Effect.Spin
import ConfigDb.Signal.Observer

/-!
# Emissions

Listeners are connected and disconnected, and notifications are emitted, on any number of threads.
An emission copies the slots under the lock of the signal, and calls them one by one when it has let
go of the lock; what is connected or disconnected in the meantime changes nothing in the copy.

So every notification is delivered, once, to the listeners that were connected when it was copied,
and each listener gets the notifications of one thread in the order in which that thread emitted
them.  But a listener may be called after it has been disconnected: the destructor of
`pnotifier::Listener` disconnects it, and waits for no emission that is under way.

## Main definitions

* `Nano.Job.work` : what is done under the lock.
* `Nano.Signal.step`, `Nano.Signal.run` : threads that connect, disconnect and emit.
* `Nano.emitted` : what a listener should get.

## Main results

* `emissions_delivered` : every notification is delivered once and in order.
* `calls_connected` : when nobody is called that is not connected.
-/

namespace ConfigDb

namespace Nano

/-! ### What is done under the lock -/

/-- The calls of a signal; `P` is the type of the notifications. -/
inductive Job (P : Type)
  /-- `Observer::insert`. -/
  | insert (key : DelegateKey)
  /-- `Observer::remove`. -/
  | remove (key : DelegateKey)
  /-- `Observer::disconnect_all`. -/
  | disconnectAll
  /-- `Observer::for_each`. -/
  | forEach (bytes : P)

/-- A copy of the slots, with the notification that they are to be called with. -/
abbrev Copy (P : Type) := P × List DelegateKey

variable {ι P : Type}

/-- What a call does under the lock: the slots afterwards, and the copy of an emission. -/
def Job.work : Job P → List DelegateKey → List DelegateKey × Option (Copy P)
  | .insert key, connections => (Observer.insert key connections, none)
  | .remove key, connections => (Observer.remove key connections, none)
  -- no slot has an observer other than the signal
  | .disconnectAll, _ => ([], none)
  | .forEach bytes, connections => (connections, some (bytes, connections))

/-! ### The threads -/

/-- A signal and its threads. -/
structure Signal (ι P : Type) where
  /-- The slots, and the threads that are at the lock. -/
  spin : Spin ι (Job P) (List DelegateKey) (Option (Copy P))
  /-- What is left of the copies of the emissions. -/
  copies : ι → Option (Copy P) := fun _ => none
  /-- The calls of the slots: who called which slot with what. -/
  calls : List (ι × DelegateKey × P) := []

/-- A signal without slots. -/
def Signal.init : Signal ι P := { spin := { value := [] } }

/-- What a thread does next. -/
inductive Act (P : Type)
  /-- It calls the signal, if it has nothing else to do. -/
  | call (j : Job P)
  /-- It goes on at the lock. -/
  | go
  /-- It calls the next slot of its copy. -/
  | notify

variable [DecidableEq ι]

namespace Signal

/-- A thread that has nothing else to do calls the signal. -/
def call (s : Signal ι P) (t : ι) (j : Job P) : Signal ι P :=
  if (s.copies t).isNone then { s with spin := s.spin.call t j } else s

/-- A thread goes on at the lock, and may come out with a copy. -/
def go (s : Signal ι P) (t : ι) : Signal ι P :=
  let r := s.spin.step Job.work t
  match r.2 with
  -- the lock is let go of before the first slot is called
  | some (some copy) => { s with spin := r.1, copies := Function.update s.copies t (some copy) }
  | _ => { s with spin := r.1 }

/-- A thread calls the next slot of its copy. -/
def notify (s : Signal ι P) (t : ι) : Signal ι P :=
  match s.copies t with
  | none => s
  | some (_, []) => { s with copies := Function.update s.copies t none }
  | some (bytes, key :: slots) =>
    { s with
      copies := Function.update s.copies t (some (bytes, slots))
      calls := s.calls ++ [(t, key, bytes)] }

/-- One step of one thread. -/
def step (s : Signal ι P) : ι × Act P → Signal ι P
  | (t, .call j) => s.call t j
  | (t, .go) => s.go t
  | (t, .notify) => s.notify t

/-- The threads take steps in any order. -/
def run (s : Signal ι P) (as : List (ι × Act P)) : Signal ι P := as.foldl step s

/-- What a thread has called a slot with. -/
def received (s : Signal ι P) (t : ι) (key : DelegateKey) : List P :=
  s.calls.filterMap fun e => if e.1 = t ∧ e.2.1 = key then some e.2.2 else none

end Signal

/-- What a copy has for a slot. -/
def due (key : DelegateKey) : Option (Copy P) → List P
  | none => []
  | some (bytes, slots) => List.replicate (slots.count key) bytes

/-- What a thread has yet to call a slot with: what is left of its copy, or the copy that it has
made, before it lets go of the lock. -/
def Signal.pending (s : Signal ι P) (t : ι) (key : DelegateKey) : List P :=
  due key (s.copies t) ++ due key (s.spin.phase t).result.join

/-! ### What should be called -/

/-- How many times a listener is connected after a call, if it was `n` times before. -/
def Job.connected (key : DelegateKey) (n : ℕ) : Job P → ℕ
  | .insert k => if k = key then n + 1 else n
  | .remove k => if k = key then 0 else n
  | .disconnectAll => 0
  | .forEach _ => n

/-- How many times a listener is connected after some calls. -/
def connected (key : DelegateKey) (es : List (ι × Job P)) : ℕ :=
  es.foldl (fun n e => e.2.connected key n) 0

/-- What an emission calls a listener with that is connected `n` times. -/
def Job.emits (n : ℕ) : Job P → List P
  | .forEach bytes => List.replicate n bytes
  | _ => []

/-- What a thread should call a listener with that is connected `n` times: each of its
notifications, once for every time that the listener is connected then. -/
def emittedFrom (t : ι) (key : DelegateKey) : ℕ → List (ι × Job P) → List P
  | _, [] => []
  | n, e :: es =>
    (if e.1 = t then e.2.emits n else []) ++ emittedFrom t key (e.2.connected key n) es

/-- What a thread should call a listener with. -/
def emitted (t : ι) (key : DelegateKey) (es : List (ι × Job P)) : List P := emittedFrom t key 0 es

/-! ### The slots -/

section

variable {cs : List DelegateKey} {s : Signal ι P} {t : ι} {key : DelegateKey}

omit [DecidableEq ι] in
theorem work_spec (hcs : Sorted cs) (j : Job P) : Sorted (j.work cs).1 ∧
    ∀ key, (j.work cs).1.count key = j.connected key (cs.count key) := by
  cases j with
  | insert k => exact ⟨Observer.sorted_insert hcs k, fun key => Observer.count_insert k key cs⟩
  | remove k => exact ⟨Observer.sorted_remove hcs k, fun key => Observer.count_remove hcs k key⟩
  | disconnectAll => exact ⟨List.Pairwise.nil, fun _ => rfl⟩
  | forEach bytes => exact ⟨hcs, fun _ => rfl⟩

omit [DecidableEq ι] in
/-- **The slots after some calls** are sorted, and there are as many of a key as connections. -/
theorem replay_spec (es : List (ι × Job P)) : Sorted (Spin.replay Job.work [] es) ∧
    ∀ key, (Spin.replay Job.work [] es).count key = connected key es := by
  suffices h : ∀ cs : List DelegateKey, Sorted cs → Sorted (Spin.replay Job.work cs es) ∧
      ∀ key, (Spin.replay Job.work cs es).count key =
        es.foldl (fun n e => e.2.connected key n) (cs.count key) from h [] .nil
  induction es with
  | nil => exact fun cs hcs => ⟨hcs, fun _ => rfl⟩
  | cons e es ih =>
    intro cs hcs
    obtain ⟨hsorted, hcount⟩ := work_spec hcs e.2
    obtain ⟨hrest, hrest'⟩ := ih _ hsorted
    refine ⟨hrest, fun key => ?_⟩
    rw [List.foldl_cons, ← hcount key]
    exact hrest' key

theorem emittedFrom_concat (t : ι) (key : DelegateKey) (n : ℕ) (es : List (ι × Job P))
    (e : ι × Job P) : emittedFrom t key n (es ++ [e]) = emittedFrom t key n es ++
      if e.1 = t then e.2.emits (es.foldl (fun n e => e.2.connected key n) n) else [] := by
  induction es generalizing n with
  | nil => simp [emittedFrom]
  | cons e' es ih =>
    rw [List.cons_append, emittedFrom, emittedFrom, ih, List.append_assoc, List.foldl_cons]

/-! ### Delivery -/

/-- What holds in any run. -/
structure Signal.Inv (s : Signal ι P) : Prop where
  /-- The slots are guarded by the lock. -/
  spin : Spin.Inv Job.work [] s.spin
  /-- A thread that goes through a copy is not at the lock. -/
  outside : ∀ t, s.spin.phase t ≠ .out → s.copies t = none
  /-- What has been called, and what is still to be, is what should be. -/
  delivered : ∀ t key, s.received t key ++ s.pending t key = emitted t key s.spin.done

omit [DecidableEq ι] in
theorem due_work (key : DelegateKey) (j : Job P) (cs : List DelegateKey) :
    due key (j.work cs).2 = j.emits (cs.count key) := by
  cases j <;> rfl

theorem Signal.inv_init : (Signal.init : Signal ι P).Inv :=
  ⟨Spin.inv_init _ _, fun _ _ => rfl, fun _ _ => rfl⟩

theorem Signal.Inv.count_eq (h : s.Inv) (key : DelegateKey) :
    s.spin.value.count key = connected key s.spin.done := by
  rw [h.spin.value]
  exact (replay_spec s.spin.done).2 key

/-- A thread does not notice a step of another one. -/
structure Unnoticed (t : ι) (s s' : Signal ι P) : Prop where
  phase : s'.spin.phase t = s.spin.phase t
  copies : s'.copies t = s.copies t
  received : ∀ key, s'.received t key = s.received t key
  emitted : ∀ key, emitted t key s'.spin.done = emitted t key s.spin.done

theorem Signal.Inv.of_thread (h : s.Inv) (t : ι) {s' : Signal ι P}
    (hspin : Spin.Inv Job.work [] s'.spin) (hother : ∀ t', t' ≠ t → Unnoticed t' s s')
    (hout : s'.spin.phase t ≠ .out → s'.copies t = none)
    (hdelivered : ∀ key, s'.received t key ++ s'.pending t key = emitted t key s'.spin.done) :
    s'.Inv := by
  refine ⟨hspin, fun t' ht' => ?_, fun t' key => ?_⟩
  · by_cases ht : t' = t
    · subst ht
      exact hout ht'
    · rw [(hother t' ht).phase] at ht'
      rw [(hother t' ht).copies]
      exact h.outside t' ht'
  · by_cases ht : t' = t
    · rw [ht]
      exact hdelivered key
    · rw [(hother t' ht).received, (hother t' ht).emitted, Signal.pending, (hother t' ht).phase,
        (hother t' ht).copies]
      exact h.delivered t' key

theorem Signal.Inv.call (h : s.Inv) (t : ι) (j : Job P) : (s.call t j).Inv := by
  unfold Signal.call
  split_ifs with hnone
  · rw [Option.isNone_iff_eq_none] at hnone
    have hdone : (s.spin.call t j).done = s.spin.done := Spin.call_done t j
    refine h.of_thread t (h.spin.call t j) (fun t' ht => ?_) (fun _ => hnone) (fun key => ?_)
    · exact ⟨Spin.call_phase_of_ne ht j, rfl, fun _ => rfl, fun key => by rw [hdone]⟩
    · have hresult : ((s.spin.call t j).phase t).result = (s.spin.phase t).result := by
        cases hphase : s.spin.phase t <;> simp [Spin.call, hphase, Phase.result]
      rw [hdone, Signal.pending, hresult]
      exact h.delivered t key
  · exact h

theorem Signal.Inv.received_eq (h : s.Inv) (hresult : (s.spin.phase t).result = none)
    (hphase : s.spin.phase t ≠ .out) (key : DelegateKey) :
    s.received t key = emitted t key s.spin.done := by
  have hdelivered := h.delivered t key
  rwa [Signal.pending, h.outside t hphase, hresult, Option.join_none, due, List.append_nil,
    List.append_nil] at hdelivered

theorem Signal.Inv.go (h : s.Inv) (t : ι) : (s.go t).Inv := by
  have hspin := h.spin.step t
  unfold Signal.go
  rcases Spin.step_cases h.spin t with ⟨j, hphase, hstep⟩ | ⟨r, hphase, hstep⟩ |
    ⟨b, p, hold, hnew, hout, hstep⟩
  · have hne : s.spin.phase t ≠ .out := by
      rw [hphase]
      exact nofun
    simp only [hstep] at hspin ⊢
    refine h.of_thread t hspin (fun t' ht => ?_) (fun _ => h.outside t hne) (fun key => ?_)
    · refine ⟨Spin.move_phase_of_ne ht _, rfl, fun _ => rfl, fun key => ?_⟩
      have hother : ¬ t = t' := fun heq => ht heq.symm
      exact (emittedFrom_concat t' key 0 s.spin.done (t, j)).trans
        (by rw [if_neg hother, List.append_nil]; rfl)
    · have hreceived := h.received_eq (by rw [hphase]; rfl) hne key
      have hconcat : emitted t key (s.spin.done ++ [(t, j)]) = emitted t key s.spin.done ++
          j.emits (connected key s.spin.done) := by
        rw [emitted, emittedFrom_concat, if_pos rfl]
        rfl
      simp only [Signal.pending, Spin.move_phase_self, h.outside t hne]
      rw [hconcat, ← hreceived, ← h.count_eq, ← due_work]
      rfl
  · have hne : s.spin.phase t ≠ .out := by
      rw [hphase]
      exact nofun
    have hdelivered (key : DelegateKey) := h.delivered t key
    simp only [Signal.pending, h.outside t hne, hphase] at hdelivered
    simp only [hstep] at hspin ⊢
    cases r with
    | none =>
      refine h.of_thread t hspin (fun t' ht => ?_) (fun _ => h.outside t hne) (fun key => ?_)
      · exact ⟨Spin.move_phase_of_ne ht _, rfl, fun _ => rfl, fun _ => rfl⟩
      · simp only [Signal.pending, Spin.move_phase_self, h.outside t hne]
        exact hdelivered key
    | some copy =>
      refine h.of_thread t hspin (fun t' ht => ?_) (fun ht => ?_) (fun key => ?_)
      · exact ⟨Spin.move_phase_of_ne ht _, Function.update_of_ne ht _ _, fun _ => rfl,
          fun _ => rfl⟩
      · exact absurd (Spin.move_phase_self t .out) ht
      · have hswap : due key (some copy) ++ [] = [] ++ due key (some copy) := by simp
        simp only [Signal.pending, Spin.move_phase_self, Function.update_self]
        exact (congrArg (s.received t key ++ ·) hswap).trans (hdelivered key)
  · simp only [hstep] at hspin ⊢
    refine h.of_thread t hspin (fun t' ht => ?_) (fun ht => ?_) (fun key => ?_)
    · exact ⟨Spin.move_phase_of_ne ht _, rfl, fun _ => rfl, fun _ => rfl⟩
    · refine h.outside t fun hphase => ht ?_
      rw [hout hphase]
      exact Spin.move_phase_self t .out
    · have hdelivered := h.delivered t key
      rw [Signal.pending, hold] at hdelivered
      simp only [Signal.pending, Spin.move_phase_self, hnew]
      exact hdelivered

theorem Signal.Inv.notify (h : s.Inv) (t : ι) : (s.notify t).Inv := by
  unfold Signal.notify
  split
  case h_1 => exact h
  case h_2 bytes hcopies =>
    refine h.of_thread t h.spin (fun t' ht => ?_) (fun _ => Function.update_self t _ _)
      (fun key => ?_)
    · exact ⟨rfl, Function.update_of_ne ht _ _, fun _ => rfl, fun _ => rfl⟩
    · have hdelivered := h.delivered t key
      rw [Signal.pending, hcopies] at hdelivered
      simp only [Signal.pending, Function.update_self]
      exact hdelivered
  case h_3 bytes k slots hcopies =>
    have hphase : s.spin.phase t = .out := by
      by_contra hne
      rw [h.outside t hne] at hcopies
      cases hcopies
    refine h.of_thread t h.spin (fun t' ht => ?_) (fun hne => absurd hphase hne) (fun key => ?_)
    · refine ⟨rfl, Function.update_of_ne ht _ _, fun key => ?_, fun _ => rfl⟩
      have hother : ¬ (t = t' ∧ k = key) := fun heq => ht heq.1.symm
      simp [Signal.received, hother]
    · have hdelivered := h.delivered t key
      rw [Signal.pending, hcopies, hphase] at hdelivered
      simp only [Signal.pending, Function.update_self, hphase]
      rw [← hdelivered]
      by_cases hkey : k = key
      · subst hkey
        simp [Signal.received, due, Phase.result, List.replicate_succ]
      · simp [Signal.received, due, Phase.result, hkey]

/-- **A step of any thread keeps the invariant.** -/
theorem Signal.Inv.step (h : s.Inv) (a : ι × Act P) : (s.step a).Inv := by
  obtain ⟨t, a⟩ := a
  cases a with
  | call j => exact h.call t j
  | go => exact h.go t
  | notify => exact h.notify t

theorem Signal.Inv.run (h : s.Inv) (as : List (ι × Act P)) : (s.run as).Inv := by
  induction as generalizing s with
  | nil => exact h
  | cons a as ih => exact ih (h.step a)

/-! ### Calls of listeners that are not connected -/

theorem Signal.Inv.step_done (h : s.Inv) (a : ι × Act P) :
    ((s.step a).spin.done = s.spin.done ∧ (s.step a).spin.value = s.spin.value) ∨
      ∃ t j, a = (t, .go) ∧ s.spin.phase t = .working j s.spin.value ∧
        (s.step a).spin.done = s.spin.done ++ [(t, j)] ∧
        (s.step a).spin.value = (j.work s.spin.value).1 := by
  obtain ⟨t, a⟩ := a
  cases a with
  | call j =>
    left
    simp only [Signal.step, Signal.call]
    split_ifs
    · exact ⟨Spin.call_done t j, Spin.call_value t j⟩
    · exact ⟨rfl, rfl⟩
  | go =>
    simp only [Signal.step, Signal.go]
    rcases Spin.step_cases h.spin t with ⟨j, hphase, hstep⟩ | ⟨r, -, hstep⟩ | ⟨b, p, -, -, -, hstep⟩
    · right
      rw [hstep]
      exact ⟨t, j, rfl, hphase, rfl, rfl⟩
    · left
      rw [hstep]
      cases r <;> exact ⟨rfl, rfl⟩
    · left
      rw [hstep]
      exact ⟨rfl, rfl⟩
  | notify =>
    left
    simp only [Signal.step, Signal.notify]
    split <;> exact ⟨rfl, rfl⟩

theorem Signal.received_step (s : Signal ι P) (a : ι × Act P) (t : ι) (key : DelegateKey) :
    s.received t key <+: (s.step a).received t key := by
  have hcalls : s.calls <+: (s.step a).calls := by
    obtain ⟨t', a⟩ := a
    cases a with
    | call j =>
      simp only [Signal.step, Signal.call]
      split_ifs <;> exact List.prefix_rfl
    | go =>
      simp only [Signal.step, Signal.go]
      split <;> exact List.prefix_rfl
    | notify =>
      simp only [Signal.step, Signal.notify]
      split
      case h_3 => exact List.prefix_append _ _
      all_goals exact List.prefix_rfl
  exact hcalls.filterMap _

/-- A step takes no listener away from an emission that has yet to call it. -/
def Signal.Spares (s : Signal ι P) : ι × Act P → Prop
  | (t, .go) => ∀ j v, s.spin.phase t = .working j v → ∀ key ∈ v, key ∉ (j.work v).1 →
    ∀ t', s.pending t' key = []
  | _ => True

/-- Whoever has yet to be called is connected. -/
def Signal.Connected (s : Signal ι P) : Prop :=
  ∀ t key, s.pending t key ≠ [] → key ∈ s.spin.value

theorem Signal.Connected.step (hconn : s.Connected) (h : s.Inv) {a : ι × Act P} (ha : s.Spares a) :
    (s.step a).Connected := by
  intro t key hpending
  obtain ⟨x, hx⟩ := s.received_step a t key
  have hdelivered := h.delivered t key
  have hdelivered' := (h.step a).delivered t key
  rw [← hx, List.append_assoc] at hdelivered'
  rcases h.step_done a with ⟨hdone, hvalue⟩ | ⟨t', j, rfl, hphase, hdone, hvalue⟩
  · rw [hdone, ← hdelivered, List.append_cancel_left_eq] at hdelivered'
    rw [hvalue]
    refine hconn t key fun hnil => hpending ?_
    rw [hnil] at hdelivered'
    exact (List.append_eq_nil_iff.1 hdelivered').2
  · have hconcat := emittedFrom_concat t key 0 s.spin.done (t', j)
    rw [hdone, emitted, hconcat, ← emitted, ← hdelivered, List.append_assoc,
      List.append_cancel_left_eq] at hdelivered'
    rw [hvalue]
    by_cases hnil : s.pending t key = []
    · rw [hnil, List.nil_append] at hdelivered'
      split_ifs at hdelivered' with ht
      · change x ++ _ = j.emits (connected key s.spin.done) at hdelivered'
        have hemits : j.emits (connected key s.spin.done) ≠ [] := by
          rw [← hdelivered']
          exact fun hnil => hpending (List.append_eq_nil_iff.1 hnil).2
        cases j with
        | forEach bytes =>
          refine List.count_pos_iff.1 (Nat.pos_of_ne_zero fun hzero => hemits ?_)
          change List.count key s.spin.value = 0 at hzero
          rw [← h.count_eq, hzero]
          rfl
        | _ => exact absurd rfl hemits
      · exact absurd (List.append_eq_nil_iff.1 hdelivered').2 hpending
    · -- the copy is an older one, whose listeners the step spares
      by_contra hgone
      exact hnil (ha j s.spin.value hphase key (hconn t key hnil) hgone t)

theorem Signal.run_notify {bytes : P} (pre rest : List DelegateKey)
    (hcopies : s.copies t = some (bytes, pre ++ rest)) :
    (s.run (List.replicate pre.length (t, .notify))).copies t = some (bytes, rest) ∧
      (s.run (List.replicate pre.length (t, .notify))).spin = s.spin := by
  induction pre generalizing s with
  | nil => exact ⟨hcopies, rfl⟩
  | cons k pre ih =>
    have hstep : s.step (t, .notify) = { s with
        copies := Function.update s.copies t (some (bytes, pre ++ rest))
        calls := s.calls ++ [(t, k, bytes)] } := by
      rw [Signal.step, Signal.notify, hcopies]
      rfl
    have hnext : (s.step (t, .notify)).copies t = some (bytes, pre ++ rest) := by
      rw [hstep]
      exact Function.update_self t _ _
    obtain ⟨hrest, hspin⟩ := ih hnext
    refine ⟨hrest, hspin.trans ?_⟩
    rw [hstep]

/-- A step that does not spare everybody leaves a listener in a copy that is not connected. -/
theorem Signal.Inv.exists_taken (h : s.Inv) {a : ι × Act P} (ha : ¬ s.Spares a) :
    ∃ t bytes pre key rest, (s.step a).copies t = some (bytes, pre ++ key :: rest) ∧
      key ∉ (s.step a).spin.value := by
  obtain ⟨t, a⟩ := a
  cases a with
  | call j => exact absurd trivial ha
  | notify => exact absurd trivial ha
  | go =>
    simp only [Signal.Spares, not_forall] at ha
    obtain ⟨j, v, hphase, key, -, hgone, t', hpending⟩ := ha
    obtain rfl := h.spin.current t j v hphase
    have hne : t' ≠ t := by
      rintro rfl
      refine hpending ?_
      rw [Signal.pending, hphase, h.outside t' (by rw [hphase]; exact nofun)]
      rfl
    -- the other thread is not in the lock, so it is going through its copy
    have hresult : (s.spin.phase t').result = none := by
      cases hphase' : s.spin.phase t' with
      | leaving r =>
        exact absurd (h.spin.alone t' t (by rw [hphase']; trivial) (by rw [hphase]; trivial)) hne
      | _ => rfl
    rw [Signal.pending, hresult] at hpending
    have hgo : s.step (t, .go) = { s with
        spin := { s.spin.move t (.leaving (j.work s.spin.value).2) with
          value := (j.work s.spin.value).1
          done := s.spin.done ++ [(t, j)] } } := by
      rw [Signal.step, Signal.go, Spin.step, hphase]
    cases hcopies : s.copies t' with
    | none =>
      rw [hcopies] at hpending
      exact absurd rfl hpending
    | some copy =>
      obtain ⟨bytes, slots⟩ := copy
      have hmem : key ∈ slots := by
        by_contra hmem
        rw [hcopies] at hpending
        refine hpending ?_
        simp [due, List.count_eq_zero.2 hmem]
      obtain ⟨pre, rest, rfl⟩ := List.append_of_mem hmem
      rw [hgo]
      exact ⟨t', bytes, pre, key, rest, hcopies, hgone⟩

/-- **Exactly the steps that spare everybody** keep those connected that have yet to be called. -/
theorem Signal.Inv.connected_iff (h : s.Inv) (hconn : s.Connected) (a : ι × Act P) :
    (s.step a).Connected ↔ s.Spares a := by
  constructor
  · intro hnext
    by_contra ha
    obtain ⟨t, bytes, pre, key, rest, hcopies, hgone⟩ := h.exists_taken ha
    refine hgone (hnext t key ?_)
    simp [Signal.pending, hcopies, due]
  · exact fun ha => hconn.step h ha

end

end Nano

open Nano

section

variable {ι P : Type} [DecidableEq ι]

/-- **Every notification is delivered, once and in order.**  Listeners are connected and
disconnected and notifications emitted on any number of threads, step by step, in any order.  At
any moment at most one thread has the lock of the signal, and the slots are sorted by their Morton
codes, one for each time that a listener is connected.  And what a thread has called a listener
with, followed by what it has yet to call it with, are the notifications that it has copied the
slots for, each once for every time that the listener was connected then. -/
theorem emissions_delivered (as : List (ι × Act P)) :
    let s := (Signal.init : Signal ι P).run as
    (∀ t t', (s.spin.phase t).Holds → (s.spin.phase t').Holds → t = t') ∧
      (Sorted s.spin.value ∧ ∀ key, s.spin.value.count key = connected key s.spin.done) ∧
      ∀ t key, s.received t key ++ s.pending t key = emitted t key s.spin.done := by
  intro s
  have h : s.Inv := Signal.inv_init.run as
  refine ⟨h.spin.alone, ⟨?_, h.count_eq⟩, h.delivered⟩
  rw [h.spin.value]
  exact (replay_spec s.spin.done).1

/-- **When a listener is called that is not connected.**  Throughout a run, whoever has yet to be
called is connected, if and only if no step takes a listener away from an emission that has yet to
call it.  And nothing keeps the listener from being called after such a step: the thread that has it
in its copy goes on, and when it comes to the listener, this is not connected. -/
theorem calls_connected (as : List (ι × Act P)) :
    ((∀ s ∈ as.scanl Signal.step (Signal.init : Signal ι P), s.Connected) ↔
        Along Signal.step Signal.Spares Signal.init as) ∧
      ∀ a, ¬ ((Signal.init : Signal ι P).run as).Spares a →
        ∃ t n, let s := (Signal.init.run (as ++ [a])).run (List.replicate n (t, .notify))
          ∃ bytes key slots, s.copies t = some (bytes, key :: slots) ∧ key ∉ s.spin.value := by
  constructor
  · let I : Signal ι P → Prop := fun s => s.Inv ∧ s.Connected
    have hinit : I Signal.init := ⟨Signal.inv_init, fun t key hpending => absurd rfl hpending⟩
    have hstep (s : Signal ι P) (a : ι × Act P) (hs : I s) : I (s.step a) ↔ s.Spares a :=
      (and_iff_right (hs.1.step a)).trans (hs.1.connected_iff hs.2 a)
    have hinv : ∀ s ∈ as.scanl Signal.step (Signal.init : Signal ι P), s.Inv :=
      (along_true Signal.step Signal.init as).invariant Signal.inv_init fun s a hs _ => hs.step a
    rw [← invariant_iff_along hinit hstep]
    exact ⟨fun h s hs => ⟨hinv s hs, h s hs⟩, fun h s hs => (h s hs).2⟩
  · intro a ha
    obtain ⟨t, bytes, pre, key, rest, hcopies, hgone⟩ :=
      (Signal.inv_init.run as).exists_taken ha
    have hrun : (Signal.init : Signal ι P).run (as ++ [a]) = (Signal.init.run as).step a := by
      rw [Signal.run, List.foldl_append]
      rfl
    obtain ⟨hnext, hspin⟩ := Signal.run_notify pre (key :: rest) hcopies
    refine ⟨t, pre.length, bytes, key, rest, ?_, ?_⟩
    · rw [hrun]
      exact hnext
    · rw [hrun, hspin]
      exact hgone

end

end ConfigDb
