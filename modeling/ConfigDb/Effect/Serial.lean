import ConfigDb.Effect.Mutex

/-!
# The order in which jobs take effect

If the programs of all jobs take the mutex at most once, and commit at most once while they hold it,
then the workers might as well do their jobs one after the other: at any time, there is an order of
the jobs that have taken effect so far, all answers given so far are those of a serial run in that
order, and the committed store is the one after that run.  Later jobs are only appended to it.

A job that reads takes effect when it takes the mutex: nothing changes until it gives it back.  A
job that writes takes effect when it commits, or when it gives the mutex back if it does not commit:
nobody else looks in between.

## Main definitions

* `serial` : jobs done one after the other.
* `Worker.Phase` : how far a worker has come with its job.
* `Workers.Serial` : the order of the jobs that have taken effect explains the state.

## Main results

* `Workers.Serial.step`, `Workers.Serial.run` : a turn, and a run, extend the order.
* `Workers.Serial.progress` : as long as a job is left to do, some worker can take a turn, or the
  one that writes waits for a lock that an idle transaction object holds.
-/

namespace ConfigDb

open Std

variable {C K : Type} {V : C → Type} {X : Type} {RX : X → Type} {ι τ β α : Type}

variable [Ord K] [TransOrd K] [DecidableEq C]

/-! ### Jobs one after the other -/

/-- A job that has taken effect. -/
structure Entry (ι β α : Type) where
  /-- The worker that does it. -/
  worker : ι
  /-- The job. -/
  job : β
  /-- Its answer. -/
  answer : α

/-- The jobs of one worker. -/
def entriesOf [DecidableEq ι] (i : ι) (h : List (Entry ι β α)) : List (Entry ι β α) :=
  h.filter fun e => e.worker = i

/-- The answers to jobs that are done one after the other, and the committed store and the state of
the process afterwards. -/
def serial (hx : (x : X) → τ → RX x × τ) (prog : β → Prog (Op.Res (K := K) (V := V) RX) α) :
    List β → Store K V × τ → List α × (Store K V × τ)
  | [], s => ([], s)
  | b :: bs, s =>
    let r := (prog b).alone hx (⟨s.1, s.1⟩, s.2)
    let rest := serial hx prog bs (r.2.1.committed, r.2.2)
    (r.1 :: rest.1, rest.2)

section

variable {hx : (x : X) → τ → RX x × τ} {prog : β → Prog (Op.Res (K := K) (V := V) RX) α}

theorem serial_concat (bs : List β) (b : β) (s : Store K V × τ) :
    let t := (serial hx prog bs s).2
    let r := (prog b).alone hx (⟨t.1, t.1⟩, t.2)
    serial hx prog (bs ++ [b]) s =
      ((serial hx prog bs s).1 ++ [r.1], (r.2.1.committed, r.2.2)) := by
  induction bs generalizing s with
  | nil => rfl
  | cons b' bs ih =>
    simp only [List.cons_append, serial, ih]

theorem entriesOf_append [DecidableEq ι] (i : ι) (h h' : List (Entry ι β α)) :
    entriesOf i (h ++ h') = entriesOf i h ++ entriesOf i h' :=
  List.filter_append ..

theorem entriesOf_concat [DecidableEq ι] (i : ι) (h : List (Entry ι β α)) (b : β) (a : α) :
    entriesOf i (h ++ [⟨i, b, a⟩]) = entriesOf i h ++ [⟨i, b, a⟩] := by
  simp [entriesOf]

/-! ### The phases of a worker -/

/-- How far a worker has come with its job, where `done` are its jobs that have taken effect, `c` is
the state of the process, and `c₀` that after the jobs in the order. -/
inductive Worker.Phase (B : Bookkeeping hx) (prog : β → Prog (Op.Res (K := K) (V := V) RX) α)
    (st : Store K V) (c c₀ : τ) (W : Worker K V RX β α) (done : List (Entry ι β α)) : Prop
  /-- It is at no job. -/
  | idle (hcur : W.current = none) (hpend : W.pending = []) (hholds : W.holds = none)
      (hjobs : W.begun = done.map Entry.job) (hans : W.answers = done.map Entry.answer)
  /-- It has not yet taken the mutex. -/
  | outside (p : Prog (Op.Res (K := K) (V := V) RX) α) (b : β) (hcur : W.current = some p)
      (hpend : W.pending = []) (hholds : W.holds = none)
      (hjobs : W.begun = done.map Entry.job ++ [b]) (hans : W.answers = done.map Entry.answer)
      (hp : p.Outside B.Neutral)
      (hrun : ∀ d c, ∃ c', B.Same c c' ∧ (prog b).alone hx (d, c) = p.alone hx (d, c'))
  /-- It holds the shared mutex. -/
  | reading (p : Prog (Op.Res (K := K) (V := V) RX) α) (before : List (Entry ι β α))
      (e : Entry ι β α) (hcur : W.current = some p) (hpend : W.pending = [])
      (hholds : W.holds = some false) (hdone : done = before ++ [e])
      (hjobs : W.begun = done.map Entry.job) (hans : W.answers = before.map Entry.answer)
      (hp : p.Reading B.Neutral)
      (hret : ∀ s : TxnView K V × τ, s.1.committed = st → (p.alone hx s).1 = e.answer)
  /-- It holds the exclusive mutex, and has not committed. -/
  | writing (p : Prog (Op.Res (K := K) (V := V) RX) α) (b : β) (pending : Bool)
      (hcur : W.current = some p) (hpend : pending = false → W.pending = [])
      (hholds : W.holds = some true) (hjobs : W.begun = done.map Entry.job ++ [b])
      (hans : W.answers = done.map Entry.answer) (hp : p.Writing B.Neutral pending)
      (hrun : B.Alike ((prog b).alone hx (⟨st, st⟩, c₀))
        (p.alone hx (⟨st, st.applyAll W.pending⟩, c)))
  /-- It still holds the exclusive mutex, and has committed. -/
  | leaving (p : Prog (Op.Res (K := K) (V := V) RX) α) (before : List (Entry ι β α))
      (e : Entry ι β α) (hcur : W.current = some p) (hpend : W.pending = [])
      (hholds : W.holds = some true) (hdone : done = before ++ [e])
      (hjobs : W.begun = done.map Entry.job) (hans : W.answers = before.map Entry.answer)
      (hp : p.Leaving B.Neutral) (hret : (p.alone hx (⟨st, st⟩, c)).1 = e.answer)
      (hrest : B.Same (p.alone hx (⟨st, st⟩, c)).2.2 c₀)
  /-- It has given the mutex back. -/
  | after (p : Prog (Op.Res (K := K) (V := V) RX) α) (before : List (Entry ι β α))
      (e : Entry ι β α) (hcur : W.current = some p) (hpend : W.pending = [])
      (hholds : W.holds = none) (hdone : done = before ++ [e])
      (hjobs : W.begun = done.map Entry.job) (hans : W.answers = before.map Entry.answer)
      (hp : p.Only (Op.NeutralOwn B.Neutral)) (hret : ∀ s, (p.alone hx s).1 = e.answer)

namespace Worker.Phase

variable {B : Bookkeeping hx} {st st' : Store K V} {c c' c₀ c₀' : τ} {W : Worker K V RX β α}
  {done : List (Entry ι β α)}

theorem congr (h : W.Phase B prog st c c₀ done) (hc : B.Same c c') (hc₀ : B.Same c₀ c₀') :
    W.Phase B prog st c' c₀' done := by
  cases h with
  | idle hcur hpend hholds hjobs hans => exact .idle hcur hpend hholds hjobs hans
  | outside p b hcur hpend hholds hjobs hans hp hrun =>
    exact .outside p b hcur hpend hholds hjobs hans hp hrun
  | reading p before e hcur hpend hholds hdone hjobs hans hp hret =>
    exact .reading p before e hcur hpend hholds hdone hjobs hans hp hret
  | writing p b pending hcur hpend hholds hjobs hans hp hrun =>
    refine .writing p b pending hcur hpend hholds hjobs hans hp ?_
    have hbefore := Prog.alone_alike (p := prog b) B ⟨st, st⟩ (B.equivalence.symm hc₀)
    exact hbefore.trans (hrun.trans (Prog.alone_alike B _ hc))
  | leaving p before e hcur hpend hholds hdone hjobs hans hp hret hrest =>
    have hleft := Prog.alone_alike (p := p) B ⟨st, st⟩ (B.equivalence.symm hc)
    exact .leaving p before e hcur hpend hholds hdone hjobs hans hp (hleft.answer.trans hret)
      (B.equivalence.trans hleft.same (B.equivalence.trans hrest hc₀))
  | after p before e hcur hpend hholds hdone hjobs hans hp hret =>
    exact .after p before e hcur hpend hholds hdone hjobs hans hp hret

theorem change (h : W.Phase B prog st c c₀ done) (hholds : W.holds = none) :
    W.Phase B prog st' c' c₀' done := by
  cases h with
  | idle hcur hpend _ hjobs hans => exact .idle hcur hpend hholds hjobs hans
  | outside p b hcur hpend _ hjobs hans hp hrun =>
    exact .outside p b hcur hpend hholds hjobs hans hp hrun
  | reading p before e hcur hpend hh => simp [hholds] at hh
  | writing p b pending hcur hpend hh => simp [hholds] at hh
  | leaving p before e hcur hpend hh => simp [hholds] at hh
  | after p before e hcur hpend _ hdone hjobs hans hp hret =>
    exact .after p before e hcur hpend hholds hdone hjobs hans hp hret

end Worker.Phase

end

/-! ### The order of the jobs -/

namespace Workers

variable [DecidableEq K] [DecidableEq ι] {hx : (x : X) → τ → RX x × τ}
  {prog : β → Prog (Op.Res (K := K) (V := V) RX) α}

/-- **The order `h` of the jobs explains the state**: the answers are those of the jobs done one
after the other, and the store is as it is after them. -/
structure Serial (B : Bookkeeping hx) (prog : β → Prog (Op.Res (K := K) (V := V) RX) α)
    (s₀ : Store K V × τ) (jobs : ι → List β) (m : Workers ι K V RX τ β α)
    (h : List (Entry ι β α)) : Prop where
  plan : ∀ i, (m.worker i).begun ++ (m.worker i).todo = jobs i
  answers : h.map Entry.answer = (serial hx prog (h.map Entry.job) s₀).1
  store : m.committed = (serial hx prog (h.map Entry.job) s₀).2.1
  free : (∀ i, (m.worker i).holds ≠ some true) →
    B.Same m.common (serial hx prog (h.map Entry.job) s₀).2.2
  phase : ∀ i, (m.worker i).Phase B prog m.committed m.common
    (serial hx prog (h.map Entry.job) s₀).2.2 (entriesOf i h)
  only : ∀ i, (m.worker i).holds = some true → ∀ j ≠ i, (m.worker j).holds = none

variable {B : Bookkeeping hx} {s₀ : Store K V × τ} {jobs : ι → List β}
  {m : Workers ι K V RX τ β α}
  {h l : List (Entry ι β α)} {i : ι} {W : Worker K V RX β α} {n : ℕ} {c : τ}
  {q : List (Option (List (Write K V)))}

theorem entriesOf_append_other {j : ι} (hl : ∀ e ∈ l, e.worker = i) (hj : j ≠ i) :
    entriesOf j (h ++ l) = entriesOf j h := by
  have hnil : entriesOf j l = [] := by
    rw [entriesOf, List.filter_eq_nil_iff]
    intro e he
    simp [hl e he, hj.symm]
  rw [entriesOf_append, hnil, List.append_nil]

omit [DecidableEq K] in
theorem Serial.nobody_writes (hS : m.Serial B prog s₀ jobs h)
    (hi : (m.worker i).holds = some false) (j : ι) : (m.worker j).holds ≠ some true := by
  intro hj
  by_cases hij : i = j
  · subst hij
    simp [hi] at hj
  · simp [hS.only j hj i hij] at hi

omit [DecidableEq K] in
theorem Serial.plan_update (hS : m.Serial B prog s₀ jobs h)
    (hplan : W.begun ++ W.todo = (m.worker i).begun ++ (m.worker i).todo) (j : ι) :
    (Function.update m.worker i W j).begun ++ (Function.update m.worker i W j).todo = jobs j := by
  by_cases hji : j = i
  · subst hji
    simpa using hplan.trans (hS.plan j)
  · simpa [hji] using hS.plan j

omit [DecidableEq K] in
theorem Serial.aside (hS : m.Serial B prog s₀ jobs h) (hc : B.Same m.common c)
    (hi : (m.worker i).holds ≠ some true)
    (hW : W.holds = none ∨ W.holds = some false ∧ ∀ j, (m.worker j).holds ≠ some true)
    (hl : ∀ e ∈ l, e.worker = i)
    (hanswers : (h ++ l).map Entry.answer = (serial hx prog ((h ++ l).map Entry.job) s₀).1)
    (hstore : m.committed = (serial hx prog ((h ++ l).map Entry.job) s₀).2.1)
    (hsame : B.Same (serial hx prog (h.map Entry.job) s₀).2.2
      (serial hx prog ((h ++ l).map Entry.job) s₀).2.2)
    (hphase : W.Phase B prog m.committed c (serial hx prog ((h ++ l).map Entry.job) s₀).2.2
      (entriesOf i (h ++ l)))
    (hplan : W.begun ++ W.todo = (m.worker i).begun ++ (m.worker i).todo) :
    Serial B prog s₀ jobs ⟨m.committed, n, q, c, Function.update m.worker i W⟩ (h ++ l) := by
  have hWne : W.holds ≠ some true := by
    rcases hW with hW | ⟨hW, -⟩ <;> simp [hW]
  refine ⟨hS.plan_update hplan, hanswers, hstore, fun hfree => ?_, fun j => ?_,
    fun j hj k hk => ?_⟩
  · -- nobody writes now, and nobody did before the turn
    have hfree' (j : ι) : (m.worker j).holds ≠ some true := by
      by_cases hji : j = i
      · subst hji
        exact hi
      · simpa [hji] using hfree j
    exact B.equivalence.trans (B.equivalence.symm hc) (B.equivalence.trans (hS.free hfree') hsame)
  · by_cases hji : j = i
    · subst hji
      simpa using hphase
    · rw [entriesOf_append_other hl hji]
      simpa [hji] using (hS.phase j).congr hc hsame
  · -- who writes, wrote before
    have hji : j ≠ i := by
      rintro rfl
      exact hWne (by simpa using hj)
    simp only [Function.update_of_ne hji] at hj
    by_cases hki : k = i
    · subst hki
      simpa using hW.resolve_right fun hr => hr.2 j hj
    · simpa [hki] using hS.only j hj k hk

omit [DecidableEq K] in
theorem Serial.quiet (hS : m.Serial B prog s₀ jobs h) (hc : B.Same m.common c)
    (hi : (m.worker i).holds ≠ some true)
    (hW : W.holds = none ∨ W.holds = some false ∧ ∀ j, (m.worker j).holds ≠ some true)
    (hphase : W.Phase B prog m.committed c (serial hx prog (h.map Entry.job) s₀).2.2
      (entriesOf i h))
    (hplan : W.begun ++ W.todo = (m.worker i).begun ++ (m.worker i).todo) :
    Serial B prog s₀ jobs ⟨m.committed, n, q, c, Function.update m.worker i W⟩ h := by
  have hnil := hS.aside (l := []) (n := n) (q := q) hc hi hW (by simp) (by simpa using hS.answers)
    (by simpa using hS.store) (by simpa using B.equivalence.refl _) (by simpa using hphase) hplan
  rwa [List.append_nil] at hnil

omit [DecidableEq K] in
theorem Serial.write {st : Store K V} (hS : m.Serial B prog s₀ jobs h)
    (hothers : ∀ j ≠ i, (m.worker j).holds = none) (hl : ∀ e ∈ l, e.worker = i)
    (hanswers : (h ++ l).map Entry.answer = (serial hx prog ((h ++ l).map Entry.job) s₀).1)
    (hstore : st = (serial hx prog ((h ++ l).map Entry.job) s₀).2.1)
    (hfree : W.holds ≠ some true → B.Same c (serial hx prog ((h ++ l).map Entry.job) s₀).2.2)
    (hphase : W.Phase B prog st c (serial hx prog ((h ++ l).map Entry.job) s₀).2.2
      (entriesOf i (h ++ l)))
    (hplan : W.begun ++ W.todo = (m.worker i).begun ++ (m.worker i).todo) :
    Serial B prog s₀ jobs ⟨st, n, q, c, Function.update m.worker i W⟩ (h ++ l) := by
  refine ⟨hS.plan_update hplan, hanswers, hstore, fun hnone => hfree ?_, fun j => ?_,
    fun j hj k hk => ?_⟩
  · simpa using hnone i
  · by_cases hji : j = i
    · subst hji
      simpa using hphase
    · rw [entriesOf_append_other hl hji]
      simpa [hji] using (hS.phase j).change (hothers j hji)
  · -- nobody else can be the one that writes
    have hji : j = i := by
      by_contra hji
      simp [hji, hothers j hji] at hj
    subst hji
    simpa [hk] using hothers k hk

omit [DecidableEq K] in
theorem Serial.write_on (hS : m.Serial B prog s₀ jobs h)
    (hothers : ∀ j ≠ i, (m.worker j).holds = none) (hW : W.holds = some true)
    (hphase : W.Phase B prog m.committed c (serial hx prog (h.map Entry.job) s₀).2.2
      (entriesOf i h))
    (hplan : W.begun ++ W.todo = (m.worker i).begun ++ (m.worker i).todo) :
    Serial B prog s₀ jobs ⟨m.committed, n, q, c, Function.update m.worker i W⟩ h := by
  have hnil := hS.write (l := []) (n := n) (q := q) (c := c) hothers (by simp)
    (by simpa using hS.answers) (by simpa using hS.store) (fun hne => absurd hW hne)
    (by simpa using hphase) hplan
  rwa [List.append_nil] at hnil

omit [DecidableEq K] in
theorem Serial.next (hS : m.Serial B prog s₀ jobs h) (i : ι) {b : β}
    {r : α × (TxnView K V × τ)}
    (hr : B.Alike ((prog b).alone hx (⟨m.committed, m.committed⟩,
      (serial hx prog (h.map Entry.job) s₀).2.2)) r) :
    let order : List (Entry ι β α) := h ++ [⟨i, b, r.1⟩]
    order.map Entry.answer = (serial hx prog (order.map Entry.job) s₀).1 ∧
      r.2.1.committed = (serial hx prog (order.map Entry.job) s₀).2.1 ∧
      B.Same r.2.2 (serial hx prog (order.map Entry.job) s₀).2.2 := by
  intro order
  rw [hS.store] at hr
  simp only [order, List.map_append, List.map_singleton, serial_concat, hS.answers]
  exact ⟨by rw [hr.answer], hr.committed.symm, B.equivalence.symm hr.same⟩

omit [DecidableEq K] in
theorem Serial.alike (hS : m.Serial B prog s₀ jobs h) (hfree : ∀ j, (m.worker j).holds ≠ some true)
    {b : β} {p : Prog (Op.Res (K := K) (V := V) RX) α}
    (hrun : ∀ d c, ∃ c', B.Same c c' ∧ (prog b).alone hx (d, c) = p.alone hx (d, c'))
    (d : TxnView K V) :
    B.Alike ((prog b).alone hx (d, (serial hx prog (h.map Entry.job) s₀).2.2))
      (p.alone hx (d, m.common)) := by
  obtain ⟨c', hc', hr⟩ := hrun d (serial hx prog (h.map Entry.job) s₀).2.2
  rw [hr]
  have hc := B.equivalence.trans (hS.free hfree) hc'
  exact Prog.alone_alike B d (B.equivalence.symm hc)

omit [DecidableEq K] in
theorem Serial.begin (hout : ∀ i, ∀ b ∈ jobs i, (prog b).Outside B.Neutral)
    (hS : m.Serial B prog s₀ jobs h) (hcur : (m.worker i).current = none) {b : β} {bs : List β}
    (htodo : (m.worker i).todo = b :: bs) :
    Serial B prog s₀ jobs { m with worker := Function.update m.worker i { m.worker i with
      current := some (prog b)
      begun := (m.worker i).begun ++ [b]
      todo := bs } } h := by
  have hb : b ∈ jobs i := by
    rw [← hS.plan i, htodo]
    simp
  cases hS.phase i with
  | idle _ hpend hholds hjobs hans =>
    refine hS.quiet (B.equivalence.refl _) (by simp [hholds]) (.inl hholds) ?_ (by simp [htodo])
    exact .outside (prog b) b rfl hpend hholds (by rw [hjobs]) hans (hout i b hb)
      fun d c => ⟨c, B.equivalence.refl c, rfl⟩
  | outside p _ hp => simp [hcur] at hp
  | reading p _ _ hp => simp [hcur] at hp
  | writing p _ _ hp => simp [hcur] at hp
  | leaving p _ _ hp => simp [hcur] at hp
  | after p _ _ hp => simp [hcur] at hp

omit [DecidableEq K] in
theorem Serial.respond (hS : m.Serial B prog s₀ jobs h) {a : α}
    (hcur : (m.worker i).current = some (.ret a)) :
    ∃ l, Serial B prog s₀ jobs { m with worker := Function.update m.worker i { m.worker i with
      current := none
      answers := (m.worker i).answers ++ [a] } } (h ++ l) := by
  cases hS.phase i with
  | idle hp => simp [hcur] at hp
  | outside p b hp hpend hholds hjobs hans hout hrun =>
    obtain rfl : .ret a = p := Option.some.inj (hcur.symm.trans hp)
    -- whoever writes meanwhile does not matter to the job, and the job not to it
    obtain ⟨c', hc', hr⟩ := hrun ⟨m.committed, m.committed⟩
      (serial hx prog (h.map Entry.job) s₀).2.2
    obtain ⟨hans', hst, hc⟩ := hS.next (r := (a, (⟨m.committed, m.committed⟩, c'))) i (by
      rw [hr]
      exact ⟨rfl, rfl, B.equivalence.refl _⟩)
    refine ⟨[⟨i, b, a⟩], hS.aside (B.equivalence.refl _) (by simp [hholds]) (.inl hholds) (by simp)
      hans' hst (B.equivalence.trans hc' hc) ?_ rfl⟩
    rw [entriesOf_concat]
    exact .idle rfl hpend hholds (by simp [hjobs]) (by simp [hans])
  | reading p before e hp _ _ _ _ _ hread =>
    obtain rfl : .ret a = p := Option.some.inj (hcur.symm.trans hp)
    exact hread.elim
  | writing p b pending hp _ _ _ _ hwrite =>
    obtain rfl : .ret a = p := Option.some.inj (hcur.symm.trans hp)
    exact hwrite.elim
  | leaving p before e hp _ _ _ _ _ hleave =>
    obtain rfl : .ret a = p := Option.some.inj (hcur.symm.trans hp)
    exact hleave.elim
  | after p before e hp hpend hholds hdone hjobs hans _ hret =>
    obtain rfl : .ret a = p := Option.some.inj (hcur.symm.trans hp)
    have ha : a = e.answer := hret (⟨m.committed, m.committed⟩, m.common)
    refine ⟨[], ?_⟩
    rw [List.append_nil]
    refine hS.quiet (B.equivalence.refl _) (by simp [hholds]) (.inl hholds) ?_ rfl
    exact .idle rfl hpend hholds hjobs (by simp [hans, hdone, ha])

omit [DecidableEq K] in
theorem Serial.own (hS : m.Serial B prog s₀ jobs h) {x : X}
    {k : RX x → Prog (Op.Res (K := K) (V := V) RX) α}
    (hcur : (m.worker i).current = some (.call (.own x) k)) :
    Serial B prog s₀ jobs (m.afterOwn hx i x k) h := by
  cases hS.phase i with
  | idle hp => simp [hcur] at hp
  | outside p b hp hpend hholds hjobs hans hout hrun =>
    obtain rfl : .call (.own x) k = p := Option.some.inj (hcur.symm.trans hp)
    refine hS.quiet (B.same x hout.1 _) (by simp [hholds]) (.inl hholds) ?_ rfl
    refine .outside _ b rfl hpend hholds hjobs hans (hout.2 _) fun d c => ?_
    obtain ⟨c', hc', hr⟩ := hrun d c
    refine ⟨(hx x c').2, B.equivalence.trans hc' (B.same x hout.1 c'), ?_⟩
    rw [hr, B.answer x hout.1 m.common c']
    rfl
  | reading p before e hp hpend hholds hdone hjobs hans hread hret =>
    obtain rfl : .call (.own x) k = p := Option.some.inj (hcur.symm.trans hp)
    refine hS.quiet (B.same x hread.1 _) (by simp [hholds])
      (.inr ⟨hholds, hS.nobody_writes hholds⟩) ?_ rfl
    refine .reading _ before e rfl hpend hholds hdone hjobs hans (hread.2 _) fun s hs => ?_
    rw [← hret s hs, B.answer x hread.1 m.common s.2]
    exact (hread.2 _).answer B rfl
  | writing p b pending hp hpend hholds hjobs hans hwrite hrun =>
    obtain rfl : .call (.own x) k = p := Option.some.inj (hcur.symm.trans hp)
    refine hS.write_on (hS.only i hholds) hholds ?_ rfl
    exact .writing _ b pending rfl hpend hholds hjobs hans (hwrite _) hrun
  | leaving p before e hp hpend hholds hdone hjobs hans hleave hret hrest =>
    obtain rfl : .call (.own x) k = p := Option.some.inj (hcur.symm.trans hp)
    refine hS.write_on (hS.only i hholds) hholds ?_ rfl
    exact .leaving _ before e rfl hpend hholds hdone hjobs hans (hleave _) hret hrest
  | after p before e hp hpend hholds hdone hjobs hans hneutral hret =>
    obtain rfl : .call (.own x) k = p := Option.some.inj (hcur.symm.trans hp)
    refine hS.quiet (B.same x hneutral.1 _) (by simp [hholds]) (.inl hholds) ?_ rfl
    refine .after _ before e rfl hpend hholds hdone hjobs hans (hneutral.2 _) fun s => ?_
    rw [← hret s, B.answer x hneutral.1 m.common s.2]
    exact Prog.neutral_answer B (hneutral.2 _) _ _

variable {fails : ℕ → Fallible → Bool}

omit [DecidableEq ι] in
theorem alone_afterStore (hf : ∀ n e, fails n e = false) {o : TxnOp K V}
    {k : o.Res → Prog (Op.Res (K := K) (V := V) RX) α} (c : τ) :
    let r := o.handle fails (m.db i)
    (k r.1).alone hx (⟨r.2.committed, r.2.committed.applyAll r.2.pending⟩, c) =
      Prog.alone hx (.call (.store o) k)
        (⟨m.committed, m.committed.applyAll (m.worker i).pending⟩, c) := by
  intro r
  obtain ⟨h₁, h₂⟩ := o.handle_ideal hf (m.db i)
  change _ = (k (o.ideal (m.db i).ideal).1).alone hx
    ((o.ideal (m.db i).ideal).2, c)
  rw [← h₁, ← h₂]
  rfl

omit [Ord K] [TransOrd K] [DecidableEq ι] in
theorem holds_of_admits {W : Worker K V RX β α} (h : W.admits (.lock true) = true) :
    W.holds = none := by
  cases hh : W.holds with
  | none => rfl
  | some e => simp [Worker.admits, hh] at h

omit [Ord K] [TransOrd K] [DecidableEq ι] in
theorem holds_ne_of_admits {W : Worker K V RX β α} (h : W.admits (.lock false) = true) :
    W.holds ≠ some true := by
  intro hh
  simp [Worker.admits, hh] at h

theorem Serial.lock_shared (hS : m.Serial B prog s₀ jobs h)
    {k : Unit → Prog (Op.Res (K := K) (V := V) RX) α}
    (hcur : (m.worker i).current = some (.call (.store (.lock false)) k))
    (hadm : ∀ j, j ≠ i → (m.worker j).admits (.lock false) = true) :
    ∃ l, Serial B prog s₀ jobs (m.afterStore fails i (.lock false) k) (h ++ l) := by
  cases hS.phase i with
  | idle hp => simp [hcur] at hp
  | outside p job hp hpend hholds hjobs hans hout hrun =>
    obtain rfl : .call (.store (.lock false)) k = p := Option.some.inj (hcur.symm.trans hp)
    -- nobody writes, so the answer that the job is to give is fixed from here on
    have hread : (k ()).Reading B.Neutral := hout ()
    have hfree (j : ι) : (m.worker j).holds ≠ some true := by
      by_cases hji : j = i
      · subst hji
        simp [hholds]
      · exact holds_ne_of_admits (hadm j hji)
    obtain ⟨hans', hst, hc⟩ := hS.next i (hS.alike hfree hrun ⟨m.committed, m.committed⟩)
    obtain ⟨hcomm, hcsame⟩ := hread.state B (⟨m.committed, m.committed⟩, m.common)
    refine ⟨[⟨i, job, ((k ()).alone hx (⟨m.committed, m.committed⟩, m.common)).1⟩],
      hS.aside (B.equivalence.refl _) (by simp [hholds]) (.inr ⟨rfl, hfree⟩) (by simp) hans'
        (hcomm.symm.trans hst) ?_ ?_ rfl⟩
    · exact B.equivalence.trans (B.equivalence.symm (hS.free hfree)) (B.equivalence.trans hcsame hc)
    · rw [entriesOf_concat]
      refine .reading (k ()) (entriesOf i h) _ rfl hpend rfl rfl ?_ hans hread fun s hs => ?_
      · rw [List.map_append]
        exact hjobs
      · exact hread.answer B hs
  | reading p before e hp _ _ _ _ _ hread =>
    obtain rfl : .call (.store (.lock false)) k = p := Option.some.inj (hcur.symm.trans hp)
    exact hread.elim
  | writing p b pending hp _ _ _ _ hwrite =>
    obtain rfl : .call (.store (.lock false)) k = p := Option.some.inj (hcur.symm.trans hp)
    exact hwrite.elim
  | leaving p before e hp _ _ _ _ _ hleave =>
    obtain rfl : .call (.store (.lock false)) k = p := Option.some.inj (hcur.symm.trans hp)
    exact hleave.elim
  | after p before e hp _ _ _ _ _ hneutral =>
    obtain rfl : .call (.store (.lock false)) k = p := Option.some.inj (hcur.symm.trans hp)
    exact hneutral.1.elim

theorem Serial.lock_exclusive (hS : m.Serial B prog s₀ jobs h)
    {k : Unit → Prog (Op.Res (K := K) (V := V) RX) α}
    (hcur : (m.worker i).current = some (.call (.store (.lock true)) k))
    (hadm : ∀ j, j ≠ i → (m.worker j).admits (.lock true) = true) :
    Serial B prog s₀ jobs (m.afterStore fails i (.lock true) k) h := by
  cases hS.phase i with
  | idle hp => simp [hcur] at hp
  | outside p job hp hpend hholds hjobs hans hout hrun =>
    obtain rfl : .call (.store (.lock true)) k = p := Option.some.inj (hcur.symm.trans hp)
    -- its answer is not fixed before the commit
    have hothers (j : ι) (hj : j ≠ i) : (m.worker j).holds = none := holds_of_admits (hadm j hj)
    have hfree (j : ι) : (m.worker j).holds ≠ some true := by
      by_cases hji : j = i
      · subst hji
        simp [hholds]
      · simp [hothers j hji]
    have hpend' : ((TxnOp.lock (K := K) (V := V) true).handle fails
        (m.db i)).2.pending = [] := hpend
    refine hS.write_on hothers rfl ?_ rfl
    refine .writing (k ()) job false rfl (fun _ => hpend) rfl hjobs hans (hout ()) ?_
    rw [hpend']
    exact hS.alike hfree hrun ⟨m.committed, m.committed⟩
  | reading p before e hp _ _ _ _ _ hread =>
    obtain rfl : .call (.store (.lock true)) k = p := Option.some.inj (hcur.symm.trans hp)
    exact hread.elim
  | writing p b pending hp _ _ _ _ hwrite =>
    obtain rfl : .call (.store (.lock true)) k = p := Option.some.inj (hcur.symm.trans hp)
    exact hwrite.elim
  | leaving p before e hp _ _ _ _ _ hleave =>
    obtain rfl : .call (.store (.lock true)) k = p := Option.some.inj (hcur.symm.trans hp)
    exact hleave.elim
  | after p before e hp _ _ _ _ _ hneutral =>
    obtain rfl : .call (.store (.lock true)) k = p := Option.some.inj (hcur.symm.trans hp)
    exact hneutral.1.elim

theorem Serial.work (hf : ∀ n e, fails n e = false) (hS : m.Serial B prog s₀ jobs h)
    {o : TxnOp K V} {k : o.Res → Prog (Op.Res (K := K) (V := V) RX) α} {b : β}
    (hholds : (m.worker i).holds = some true)
    (hjobs : (m.worker i).begun = (entriesOf i h).map Entry.job ++ [b])
    (hans : (m.worker i).answers = (entriesOf i h).map Entry.answer)
    (hrun : B.Alike ((prog b).alone hx (⟨m.committed, m.committed⟩,
        (serial hx prog (h.map Entry.job) s₀).2.2))
      (Prog.alone hx (.call (.store o) k)
        (⟨m.committed, m.committed.applyAll (m.worker i).pending⟩, m.common)))
    (ho : ∀ b, o.holds b = b)
    (hcom : (o.handle fails (m.db i)).2.committed = m.committed)
    {pending : Bool} (hp : ∀ r, (k r).Writing B.Neutral pending)
    (hpend : pending = false →
      (o.handle fails (m.db i)).2.pending = []) :
    Serial B prog s₀ jobs (m.afterStore fails i o k) h := by
  have hholds' : o.holds (m.worker i).holds = some true := (ho _).trans hholds
  rw [← alone_afterStore hf m.common, hcom] at hrun
  unfold afterStore
  simp only [hcom]
  refine hS.write_on (hS.only i hholds) hholds' ?_ rfl
  exact .writing _ b pending rfl hpend hholds' hjobs hans (hp _) hrun

theorem Serial.commit (hf : ∀ n e, fails n e = false) (hS : m.Serial B prog s₀ jobs h)
    {k : Bool → Prog (Op.Res (K := K) (V := V) RX) α} {b : β}
    (hholds : (m.worker i).holds = some true)
    (hjobs : (m.worker i).begun = (entriesOf i h).map Entry.job ++ [b])
    (hans : (m.worker i).answers = (entriesOf i h).map Entry.answer)
    (hrun : B.Alike ((prog b).alone hx (⟨m.committed, m.committed⟩,
        (serial hx prog (h.map Entry.job) s₀).2.2))
      (Prog.alone hx (.call (.store .commit) k)
        (⟨m.committed, m.committed.applyAll (m.worker i).pending⟩, m.common)))
    (hp : ∀ r, (k r).Leaving B.Neutral) :
    ∃ l, Serial B prog s₀ jobs (m.afterStore fails i .commit k) (h ++ l) := by
  obtain ⟨hans', hst, hc⟩ := hS.next i hrun
  have hpend : ((TxnOp.commit (K := K) (V := V)).handle fails
      (m.db i)).2.pending = [] := by
    simp [TxnOp.handle, hf]
  rw [← alone_afterStore hf m.common, hpend] at hans' hst hc
  refine ⟨_, hS.write (hS.only i hholds) (by simp) hans' ?_ (fun hne => absurd hholds hne) ?_ rfl⟩
  · rw [← hst, (hp _).state B]
  · rw [entriesOf_concat]
    refine .leaving _ (entriesOf i h) _ rfl hpend hholds rfl ?_ hans (hp _) rfl hc
    rw [List.map_append]
    exact hjobs

theorem Serial.unlock_exclusive (hS : m.Serial B prog s₀ jobs h)
    {k : Unit → Prog (Op.Res (K := K) (V := V) RX) α} {b : β}
    (hpend : (m.worker i).pending = []) (hholds : (m.worker i).holds = some true)
    (hjobs : (m.worker i).begun = (entriesOf i h).map Entry.job ++ [b])
    (hans : (m.worker i).answers = (entriesOf i h).map Entry.answer)
    (hrun : B.Alike ((prog b).alone hx (⟨m.committed, m.committed⟩,
        (serial hx prog (h.map Entry.job) s₀).2.2))
      (Prog.alone hx (.call (.store .unlock) k)
        (⟨m.committed, m.committed.applyAll (m.worker i).pending⟩, m.common)))
    (hp : ∀ r, (k r).Only (Op.NeutralOwn B.Neutral)) :
    ∃ l, Serial B prog s₀ jobs (m.afterStore fails i .unlock k) (h ++ l) := by
  obtain ⟨hans', hst, hc⟩ := hS.next i hrun
  obtain ⟨h₁, h₂⟩ := Prog.neutral_state B (hp ())
    (⟨m.committed, m.committed.applyAll (m.worker i).pending⟩, m.common)
  refine ⟨_, hS.write (hS.only i hholds) (by simp) hans' ?_
    (fun _ => B.equivalence.trans h₂ hc) ?_ rfl⟩
  · rw [← hst]
    exact (congrArg TxnView.committed h₁).symm
  · rw [entriesOf_concat]
    refine .after (k ()) (entriesOf i h) _ rfl hpend rfl rfl ?_ hans (hp ()) fun s => ?_
    · rw [List.map_append]
      exact hjobs
    · exact Prog.neutral_answer B (hp ()) _ _

theorem Serial.call (hf : ∀ n e, fails n e = false) (hS : m.Serial B prog s₀ jobs h)
    {o : TxnOp K V} {k : o.Res → Prog (Op.Res (K := K) (V := V) RX) α}
    (hcur : (m.worker i).current = some (.call (.store o) k)) (ho : ∀ b, o ≠ .lock b) :
    ∃ l, Serial B prog s₀ jobs (m.afterStore fails i o k) (h ++ l) := by
  have hsame (hS' : Serial B prog s₀ jobs (m.afterStore fails i o k) h) :
      ∃ l, Serial B prog s₀ jobs (m.afterStore fails i o k) (h ++ l) :=
    ⟨[], by rwa [List.append_nil]⟩
  cases hS.phase i with
  | idle hp => simp [hcur] at hp
  | outside p job hp _ _ _ _ hout =>
    obtain rfl : .call (.store o) k = p := Option.some.inj (hcur.symm.trans hp)
    cases o with
    | lock b => exact absurd rfl (ho b)
    | _ => exact hout.elim
  | reading p before e hp hpend hholds hdone hjobs hans hread hret =>
    obtain rfl : .call (.store o) k = p := Option.some.inj (hcur.symm.trans hp)
    -- the store is as it was when the job took effect
    have hnone := hS.nobody_writes hholds
    refine hsame ?_
    cases o with
    | unlock =>
      refine hS.quiet (B.equivalence.refl _) (by simp [hholds]) (.inl rfl) ?_ rfl
      refine .after (k ()) before e rfl hpend rfl hdone hjobs hans (hread ()) fun s => ?_
      rw [← hret (⟨m.committed, m.committed⟩, m.common) rfl]
      exact Prog.neutral_answer B (hread ()) _ _
    | read c q =>
      have hr : ((TxnOp.read c q).handle fails (m.db i)).1 =
          .ofOption (m.committed.get c q) := by
        simp [TxnOp.handle, hf, Workers.db]
      refine hS.quiet (B.equivalence.refl _) (by simp [hholds]) (.inr ⟨hholds, hnone⟩) ?_
        rfl
      refine .reading _ before e rfl hpend hholds hdone hjobs hans (hread _) fun s hs => ?_
      rw [← hret s hs, hr, ← hs]
      rfl
    | scan c hi =>
      have hr : ((TxnOp.scan c hi).handle fails (m.db i)).1 =
          m.committed.below c hi := by
        simp [TxnOp.handle, hf, Workers.db]
      refine hS.quiet (B.equivalence.refl _) (by simp [hholds]) (.inr ⟨hholds, hnone⟩) ?_
        rfl
      refine .reading _ before e rfl hpend hholds hdone hjobs hans (hread _) fun s hs => ?_
      rw [← hret s hs, hr, ← hs]
      rfl
    | _ => exact hread.elim
  | writing p b pending hp hpend hholds hjobs hans hwrite hrun =>
    obtain rfl : .call (.store o) k = p := Option.some.inj (hcur.symm.trans hp)
    -- only the commit, or the end without one, lets the job take effect
    cases o with
    | lock b => exact absurd rfl (ho b)
    | unlock => exact hS.unlock_exclusive (hpend hwrite.1) hholds hjobs hans hrun hwrite.2
    | commit => exact hS.commit hf hholds hjobs hans hrun hwrite
    | «begin» =>
      exact hsame (hS.work hf hholds hjobs hans hrun (fun _ => rfl) rfl hwrite fun _ => rfl)
    | release =>
      exact hsame (hS.work hf hholds hjobs hans hrun (fun _ => rfl) rfl hwrite fun _ => rfl)
    | put c q v =>
      exact hsame (hS.work hf hholds hjobs hans hrun (fun _ => rfl)
        (by simp [TxnOp.handle, hf, TxnDb.tick, Workers.db]) hwrite (by simp))
    | delete c q =>
      exact hsame (hS.work hf hholds hjobs hans hrun (fun _ => rfl)
        (by simp [TxnOp.handle, hf, TxnDb.tick, Workers.db]) hwrite (by simp))
    | rollback =>
      exact hsame (hS.work hf hholds hjobs hans hrun (fun _ => rfl)
        (by simp [TxnOp.handle, hf, TxnDb.tick, Workers.db]) hwrite fun _ => by
          simp [TxnOp.handle, hf])
    | _ => exact hsame (hS.work hf hholds hjobs hans hrun (fun _ => rfl) rfl hwrite hpend)
  | leaving p before e hp hpend hholds hdone hjobs hans hleave hret hrest =>
    obtain rfl : .call (.store o) k = p := Option.some.inj (hcur.symm.trans hp)
    refine hsame ?_
    cases o with
    | release =>
      refine hS.write_on (hS.only i hholds) hholds ?_ rfl
      exact .leaving _ before e rfl rfl hholds hdone hjobs hans (hleave _) hret hrest
    | unlock =>
      -- the next one to take the mutex finds the bookkeeping of the jobs one after the other
      obtain ⟨-, hneutral⟩ := Prog.neutral_state B (hleave ())
        (⟨m.committed, m.committed⟩, m.common)
      have hwrite := hS.write (l := []) (W := { m.worker i with
        current := some (k ()), holds := none }) (n := m.calls) (q := m.pool) (c := m.common)
        (hS.only i hholds) (by simp) (by simpa using hS.answers) (by simpa using hS.store)
        (fun _ => by simpa using B.equivalence.trans hneutral hrest) ?_ rfl
      · rw [List.append_nil] at hwrite
        exact hwrite
      · rw [List.append_nil]
        refine .after (k ()) before e rfl hpend rfl hdone hjobs hans (hleave ()) fun s => ?_
        rw [← hret]
        exact Prog.neutral_answer B (hleave ()) _ _
    | _ => exact hleave.elim
  | after p before e hp _ _ _ _ _ hneutral =>
    obtain rfl : .call (.store o) k = p := Option.some.inj (hcur.symm.trans hp)
    exact hneutral.1.elim

variable [Fintype ι]

/-- **A turn extends the order of the jobs.** -/
theorem Serial.step {m' : Workers ι K V RX τ β α} (hf : ∀ n e, fails n e = false)
    (hout : ∀ i, ∀ b ∈ jobs i, (prog b).Outside B.Neutral) (hS : m.Serial B prog s₀ jobs h)
    (hs : m.step fails hx prog i = some m') :
    ∃ l, m'.Serial B prog s₀ jobs (h ++ l) := by
  have hsame (hS' : m'.Serial B prog s₀ jobs h) : ∃ l, m'.Serial B prog s₀ jobs (h ++ l) :=
    ⟨[], by rwa [List.append_nil]⟩
  unfold Workers.step at hs
  split at hs
  case h_1 hcur =>
    split at hs
    case h_1 => simp at hs
    case h_2 b bs htodo =>
      obtain rfl := Option.some.inj hs
      exact hsame (Serial.begin hout hS hcur htodo)
  case h_2 a hcur =>
    obtain rfl := Option.some.inj hs
    exact hS.respond hcur
  case h_3 x k hcur =>
    obtain rfl := Option.some.inj hs
    exact hsame (hS.own hcur)
  case h_4 o k hcur =>
    split_ifs at hs with hadm
    obtain rfl := Option.some.inj hs
    by_cases ho : ∀ b, o ≠ .lock b
    · exact hS.call hf hcur ho
    · push Not at ho
      obtain ⟨b, rfl⟩ := ho
      cases b with
      | false => exact hS.lock_shared hcur hadm.1
      | true => exact hsame (hS.lock_exclusive hcur hadm.1)

/-- **A run extends the order of the jobs.** -/
theorem Serial.run {m' : Workers ι K V RX τ β α} (hf : ∀ n e, fails n e = false)
    (hout : ∀ i, ∀ b ∈ jobs i, (prog b).Outside B.Neutral) (hS : m.Serial B prog s₀ jobs h)
    {ts : List ι} (hr : m.run fails hx prog ts = some m') :
    ∃ l, m'.Serial B prog s₀ jobs (h ++ l) := by
  induction ts generalizing m h with
  | nil =>
    obtain rfl := Option.some.inj hr
    exact ⟨[], by rwa [List.append_nil]⟩
  | cons i ts ih =>
    obtain ⟨m₁, hs, hr⟩ := Option.bind_eq_some_iff.1 hr
    obtain ⟨l₁, h₁⟩ := hS.step hf hout hs
    obtain ⟨l₂, h₂⟩ := ih h₁ hr
    exact ⟨l₁ ++ l₂, by rwa [← List.append_assoc]⟩

omit [Fintype ι] [DecidableEq K] in
theorem Serial.start :
    (start s₀.1 n q s₀.2 jobs : Workers ι K V RX τ β α).Serial B prog s₀ jobs [] where
  plan _ := rfl
  answers := rfl
  store := rfl
  free _ := B.equivalence.refl _
  phase i := .idle rfl rfl rfl rfl rfl
  only i hi := by simp [Workers.start, Worker.start] at hi

omit [Fintype ι] in
theorem Serial.idleAdmits (hS : m.Serial B prog s₀ jobs h)
    (hi : (m.worker i).holds ≠ some true) {o : TxnOp K V}
    {k : o.Res → Prog (Op.Res (K := K) (V := V) RX) α}
    (hcur : (m.worker i).current = some (.call (.store o) k)) : m.idleAdmits i o = true := by
  cases hS.phase i with
  | idle hp => simp [hcur] at hp
  | outside p b hp _ _ _ _ hout =>
    obtain rfl : .call (.store o) k = p := Option.some.inj (hcur.symm.trans hp)
    cases o <;> first | rfl | exact hout.elim
  | reading p before e hp _ _ _ _ _ hread =>
    obtain rfl : .call (.store o) k = p := Option.some.inj (hcur.symm.trans hp)
    cases o <;> first | rfl | exact hread.elim
  | writing p b pending hp _ hh => exact absurd hh hi
  | leaving p before e hp _ hh => exact absurd hh hi
  | after p before e hp _ _ _ _ _ hneutral =>
    obtain rfl : .call (.store o) k = p := Option.some.inj (hcur.symm.trans hp)
    exact hneutral.1.elim

end Workers

end ConfigDb
