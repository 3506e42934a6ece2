import ConfigDb.Storage.Expiry
import ConfigDb.Storage.WellFormed

/-!
# The sweep misses nothing

Every time stamp of the `expiration` column has an entry of the `expiring` column beside it: a key
that begins with the digits of the stamp, and names the key that expires.  The sweep finds the entry
when the time has come, because byte order is numeric order for numerals of nineteen digits.

The time stamp and its entry are written one after the other, and the second write may fail; then
`set` fails, and nothing of it is committed.  So the invariant is not one of single writes: it holds
of the view of a transaction when an item succeeds (`Prog.Succeeds`), and of the committed columns
always.  All of this holds in every environment.

Two entries never share a key: the key ends with the nineteen digits of a clock reading, and no
other reading has the same ones.

## Main results

* `Reach.scheduled` : every time stamp has its entry, in every state that calls reach.
* `sweep_misses_nothing` : after a sweep without errors, no key is overdue.
-/

namespace ConfigDb

open Std Database

/-- The first `n` readings of the clock strictly increase and have nineteen digits. -/
structure Env.Ticks (env : Env) (n : ℕ) : Prop where
  increasing : ∀ i j, i < j → j < n → env.clock i < env.clock j
  digits : ∀ i, i < n → 10 ^ 18 ≤ env.clock i ∧ env.clock i < 10 ^ 19

/-- The expiry columns after `n` readings of the clock. -/
structure Store.Scheduled (env : Env) (n : ℕ) (v : Columns) : Prop where
  /-- A time stamp is a number of at least nineteen digits. -/
  stamp : ∀ k ts, v.get .expiration k = some ts → ∃ e, ts = toString e ∧ 10 ^ 18 ≤ e
  /-- A time stamp has an entry that begins with its digits and names its key. -/
  entry : ∀ k ts, v.get .expiration k = some ts → ∃ x, ts <+: x ∧ v.get .expiring x = some k
  /-- The key of an entry ends with a reading of the clock. -/
  made : ∀ x k, v.get .expiring x = some k → ∃ a i, i < n ∧ x = a ++ toString (env.clock i)

/-- The committed columns and the view of the transaction are scheduled, as long as the clock has
not been read more than `N` times. -/
def Db.Scheduled (env : Env) (N : ℕ) (s : Db) : Prop :=
  s.2.nows ≤ N → s.columns.Scheduled env s.2.nows ∧ s.1.view.Scheduled env s.2.nows

namespace Store.Scheduled

variable {env : Env} {n m N : ℕ} {v w : Columns} {ks : Bytes}

theorem empty (env : Env) : (Store.empty : Columns).Scheduled env n :=
  ⟨fun _ _ h => by simp at h, fun _ _ h => by simp at h, fun _ _ h => by simp at h⟩

theorem mono (h : v.Scheduled env n) (hnm : n ≤ m) : v.Scheduled env m where
  stamp := h.stamp
  entry := h.entry
  made x k hx := by
    obtain ⟨a, i, hi, rfl⟩ := h.made x k hx
    exact ⟨a, i, hi.trans_le hnm, rfl⟩

theorem of_le (h : v.Scheduled env n) (hexp : ∀ k ts, w.get .expiration k = some ts →
      v.get .expiration k = some ts) (hent : ∀ x, w.get .expiring x = v.get .expiring x) :
    w.Scheduled env n where
  stamp k ts hts := h.stamp k ts (hexp k ts hts)
  entry k ts hts := by
    obtain ⟨x, hp, hx⟩ := h.entry k ts (hexp k ts hts)
    exact ⟨x, hp, (hent x).trans hx⟩
  made x k hx := h.made x k ((hent x).symm.trans hx)

theorem forget (h : v.Scheduled env n) {x k : Bytes}
    (hx : ∀ k', v.get .expiring x = some k' → k' = k) (hk : v.get .expiration k = none) :
    (v.delete .expiring x).Scheduled env n where
  stamp k' ts hts := h.stamp k' ts (by simpa using hts)
  entry k' ts hts := by
    rw [Store.get_delete_of_ne _ (by decide)] at hts
    obtain ⟨y, hp, hy⟩ := h.entry k' ts hts
    refine ⟨y, hp, ?_⟩
    have hne : x ≠ y := by
      rintro rfl
      rw [hx k' hy, hk] at hts
      cases hts
    simpa [hne] using hy
  made y k' hy := by
    rw [Store.get_delete_same] at hy
    split_ifs at hy
    exact h.made y k' hy

/-- **A new time stamp with its entry.**  The entry takes the place of no other: it ends with a
clock reading that was not there before. -/
theorem expire (h : v.Scheduled env n) (ht : env.Ticks N) (hn : n + 2 ≤ N) (ks : Bytes)
    (seconds : ℕ) :
    (v.expire ks (env.clock n + seconds * 10 ^ 9) (env.clock (n + 1))).Scheduled env (n + 2) where
  stamp k ts hts := by
    rw [Store.expire, Store.get_put_of_ne _ (by decide), Store.get_put_same] at hts
    split_ifs at hts
    · refine ⟨_, (Option.some.inj hts).symm, ?_⟩
      have := (ht.digits n (by omega)).1
      omega
    · exact h.stamp k ts hts
  entry k ts hts := by
    rw [Store.expire, Store.get_put_of_ne _ (by decide), Store.get_put_same] at hts
    split_ifs at hts with hk
    · obtain rfl := Option.some.inj hts
      refine ⟨_, List.prefix_append _ (toString (env.clock (n + 1))), ?_⟩
      rw [Store.expire, Store.get_put_same, if_pos rfl, hk]
    · obtain ⟨x, hp, hx⟩ := h.entry k ts hts
      refine ⟨x, hp, ?_⟩
      obtain ⟨a, i, hi, rfl⟩ := h.made x k hx
      have hlt := ht.increasing i (n + 1) (by omega) (by omega)
      have hlen (j : ℕ) (hj : j < N) : (toString (env.clock j)).length = 19 :=
        length_toString (ht.digits j hj).1 (ht.digits j hj).2
      have hne : toString (env.clock n + seconds * 10 ^ 9) ++ toString (env.clock (n + 1)) ≠
          a ++ toString (env.clock i) := by
        intro heq
        have := toString_injective (List.append_inj_right' heq
          ((hlen _ (by omega)).trans (hlen _ (by omega)).symm))
        omega
      rw [Store.expire, Store.get_put_same, if_neg hne, Store.get_put_of_ne _ (by decide)]
      exact hx
  made x k hx := by
    rw [Store.expire, Store.get_put_same] at hx
    split_ifs at hx with hk
    · exact ⟨_, n + 1, by omega, hk.symm⟩
    · rw [Store.get_put_of_ne _ (by decide)] at hx
      obtain ⟨a, i, hi, rfl⟩ := h.made x k hx
      exact ⟨a, i, by omega, rfl⟩

end Store.Scheduled

/-! ### Single calls -/

section

variable {env : Env} {cfg : Config} {N : ℕ} {s : Db}

theorem nows_le_handle (e : DbOp) (s : Db) : s.2.nows ≤ (env.handle e s).2.2.nows := by
  cases e with
  | store o => exact le_rfl
  | own x =>
    cases x with
    | now => exact Nat.le_succ _
    | _ => exact le_rfl

theorem nows_le_exec {α : Type} (p : DbProg α) (s : Db) : s.2.nows ≤ (exec env p s).2.2.nows :=
  Prog.run_invariant (I := fun t : Db => s.2.nows ≤ t.2.nows)
    (fun e t ht => ht.trans (nows_le_handle e t)) p le_rfl

/-- What work that sets no time leaves of a state `s`: its entries and some of its time stamps. -/
structure Db.Untimed (s t : Db) : Prop where
  columns : t.columns = s.columns
  nows : s.2.nows ≤ t.2.nows
  entries : ∀ x, t.1.view.get .expiring x = s.1.view.get .expiring x
  stamps : ∀ k ts, t.1.view.get .expiration k = some ts → s.1.view.get .expiration k = some ts

theorem Db.Untimed.of_view {t : Db} (hc : t.columns = s.columns) (hn : s.2.nows ≤ t.2.nows)
    (hv : t.1.view = s.1.view) : Db.Untimed s t :=
  ⟨hc, hn, fun x => by rw [hv], fun k ts hts => by rwa [hv] at hts⟩

theorem Db.Untimed.trans {t u : Db} (h₁ : Db.Untimed s t) (h₂ : Db.Untimed t u) :
    Db.Untimed s u where
  columns := h₂.columns.trans h₁.columns
  nows := h₁.nows.trans h₂.nows
  entries x := (h₂.entries x).trans (h₁.entries x)
  stamps k ts hts := h₁.stamps k ts (h₂.stamps k ts hts)

theorem handle_untimed (e : DbOp) (he : e.Untimed) (s : Db) : Db.Untimed s (env.handle e s).2 := by
  cases e with
  | own x => exact .of_view rfl (nows_le_handle _ s) rfl
  | store o =>
    cases o with
    | put c k x =>
      simp only [Op.handle, TxnOp.handle]
      split
      · exact .of_view rfl le_rfl rfl
      · have hview : TxnDb.view (K := Bytes) (V := Column.Value)
            { s.1.tick with pending := s.1.pending ++ [.put c k x] } = s.1.view.put c k x := by
          simp [TxnDb.view, TxnDb.tick, Store.apply]
        refine ⟨rfl, le_rfl, fun y => ?_, fun k' ts hts => ?_⟩
        · rw [hview]
          cases c <;> first | exact he.elim | simp
        · rw [hview] at hts
          cases c <;> first | exact he.elim | simpa using hts
    | delete c k =>
      obtain ⟨hc, hl, ⟨-, hv⟩ | ⟨-, hv⟩⟩ := txnDelete_cases env c k s
      · have hn : s.2.nows ≤ (env.handle (.store (.delete c k)) s).2.2.nows := nows_le_handle _ s
        refine ⟨hc, hn, fun x => ?_, fun k' ts hts => ?_⟩
        · have hcx : c ≠ .expiring := by
            rintro rfl
            exact he
          exact (congrArg (fun v : Columns => v.get .expiring x) hv).trans
            (Store.get_delete_of_ne _ hcx.symm _ _)
        · replace hts : (s.1.view.delete c k).get .expiration k' = some ts := by
            rw [← hv]
            exact hts
          by_cases hce : c = .expiration
          · subst hce
            rw [Store.get_delete_same] at hts
            split_ifs at hts
            exact hts
          · rwa [Store.get_delete_of_ne _ (Ne.symm hce)] at hts
      · exact .of_view hc (nows_le_handle _ s) hv
    | begin => exact he.elim
    | commit => exact he.elim
    | rollback => exact he.elim
    | release => exact he.elim
    | _ => exact .of_view rfl le_rfl rfl

theorem exec_untimed (env : Env) {α : Type} {p : DbProg α} (hp : p.Only Op.Untimed) (s : Db) :
    Db.Untimed s (exec env p s).2 :=
  hp.run_invariant (I := Db.Untimed s) (fun e t he ht => ht.trans (handle_untimed e he t))
    (.of_view rfl le_rfl rfl)

/-- **Work that sets no time** keeps every time stamp with its entry. -/
theorem Db.Scheduled.untimed {t : Db} (h : s.Scheduled env N) (hu : Db.Untimed s t) :
    t.Scheduled env N := by
  intro hN
  obtain ⟨h₁, h₂⟩ := h (hu.nows.trans hN)
  rw [hu.columns]
  exact ⟨h₁.mono hu.nows, (h₂.of_le hu.stamps hu.entries).mono hu.nows⟩

end

/-! ### Items -/

/-- If the program answers `true`, it has kept every time stamp with its entry. -/
abbrev Prog.Schedules (env : Env) (N : ℕ) (p : DbProg Bool) : Prop :=
  p.Succeeds env.handle (Db.Scheduled env N) (Db.Scheduled env N)

section

variable {env : Env} (cfg : Config) {N : ℕ}

theorem schedules_of_untimed {p : DbProg Bool} (hp : p.Only Op.Untimed) : p.Schedules env N :=
  fun s hs _ => hs.untimed (exec_untimed env hp s)

theorem schedules_bind {α : Type} {p : DbProg α} {f : α → DbProg Bool} (hp : p.Only Op.Untimed)
    (hf : ∀ a, (f a).Schedules env N) : (p >>= f).Schedules env N :=
  .bind (M := fun _ => Db.Scheduled env N) (fun s hs => hs.untimed (exec_untimed env hp s)) hf

theorem setExpiration_accepted {ks : Bytes} {n : UInt32} (hn : n ≠ 0) {s : Db}
    (hok : (exec env (setExpiration ks n) s).1 = true) :
    (exec env (setExpiration ks n) s).2.1.view = s.1.view.expire ks
        (env.clock s.2.nows + n.toNat * 10 ^ 9) (env.clock (s.2.nows + 1)) ∧
      (exec env (setExpiration ks n) s).2.columns = s.columns ∧
      (exec env (setExpiration ks n) s).2.2.nows = s.2.nows + 2 := by
  simp only [setExpiration, hn, if_false, exec_bind, exec_now] at hok ⊢
  generalize hp : txnPut .expiration ks (toString (env.clock s.2.nows + n.toNat * 10 ^ 9)) = p
    at hok ⊢
  cases h₁ : (exec env p (s.1, s.2.readClock 1)).1 with
  | false => simp [h₁] at hok
  | true =>
    simp only [h₁, Bool.not_true, Bool.false_eq_true, if_false, exec_bind, exec_now] at hok ⊢
    subst hp
    obtain ⟨hv₁, hc₁, hl₁⟩ := txnPut_accepted h₁
    generalize exec env (txnPut .expiration ks _) (s.1, s.2.readClock 1) = r at hv₁ hc₁ hl₁ hok ⊢
    obtain ⟨b, t⟩ := r
    obtain ⟨hv₂, hc₂, hl₂⟩ := txnPut_accepted hok
    refine ⟨hv₂.trans ?_, hc₂.trans hc₁, ?_⟩
    · have hnows : t.2.nows = s.2.nows + 1 := congrArg Local.nows hl₁
      rw [Store.expire, hnows]
      exact congrArg (fun v : Columns => v.put .expiring _ _) hv₁
    · have hnows : t.2.nows = s.2.nows + 1 := congrArg Local.nows hl₁
      rw [hl₂]
      exact congrArg (· + 1) hnows

theorem setExpiration_schedules (ht : env.Ticks N) (ks : Bytes) (n : UInt32) :
    (setExpiration ks n).Schedules env N := by
  intro s hs hok
  change Db.Scheduled env N (exec env (setExpiration ks n) s).2
  by_cases hn : n = 0
  · simpa [setExpiration, hn] using hs
  · obtain ⟨hv, hc, hnows⟩ := setExpiration_accepted hn hok
    intro hN
    rw [hnows] at hN ⊢
    obtain ⟨h₁, h₂⟩ := hs (by omega)
    rw [hv, hc]
    exact ⟨h₁.mono (by omega), h₂.expire ht hN ks n.toNat⟩

theorem setTxn_schedules (ht : env.Ticks N) (key value : Bytes) (opts : Options) :
    (setTxn cfg key value opts).Schedules env N := by
  refine .andThen (fun _ => rfl) (schedules_of_untimed (only_callOwn trivial)) ?_
  refine schedules_bind ((refused_aside _ _).mono Op.Aside.untimed) fun b => ?_
  cases b with
  | true => exact .pure_false
  | false =>
    refine .andThen (fun _ => rfl) (schedules_of_untimed (only_callStore trivial)) ?_
    refine .andThen (fun _ => rfl)
      (schedules_of_untimed ((enterKey_aside _ _).mono Op.Aside.untimed)) ?_
    refine .andThen (fun _ => rfl) (setExpiration_schedules ht _ _) ?_
    exact schedules_bind ((putValue_reads cfg _ _).mono Op.Reads.untimed) fun _ =>
      .pure_true fun _ => id

theorem removeTxn_schedules (key : Bytes) (b : Bool) : (removeTxn cfg key b).Schedules env N := by
  have hundo (s : Db) :
      (Prog.run env.handle (do return ← if b then rollback else return false) s).1 = false := by
    cases b <;> rfl
  simp only [removeTxn]
  refine .andThen hundo (schedules_of_untimed (only_callStore trivial)) ?_
  refine .andThen hundo (schedules_of_untimed (only_callStore trivial)) ?_
  refine .andThen hundo (schedules_of_untimed ((removeEntry_aside _).mono Op.Aside.untimed)) ?_
  exact schedules_bind ((eraseValue_reads cfg _).mono Op.Reads.untimed) fun _ =>
    .pure_true fun _ => id

theorem moveTxn_schedules (ht : env.Ticks N) (key dest : Bytes) (opts : Options) :
    (moveTxn cfg key dest opts).Schedules env N := by
  refine .andThen (fun _ => rfl) (schedules_of_untimed (only_callOwn trivial)) ?_
  refine schedules_bind ((refused_aside _ _).mono Op.Aside.untimed) fun b => ?_
  cases b with
  | true => exact .pure_false
  | false =>
    refine schedules_bind (only_callStore trivial) fun r => ?_
    cases r with
    | notFound => exact .pure_false
    | error => exact .pure_false
    | ok v =>
      refine schedules_bind (only_callStore trivial) fun _ => ?_
      refine schedules_bind ((moveExpiration_aside _ _).mono Op.Aside.untimed) fun _ => ?_
      refine .andThen (fun _ => rfl) (removeTxn_schedules cfg _ _) ?_
      exact .andThen (fun _ => rfl) (setTxn_schedules cfg ht _ _ _) (.pure_true fun _ => id)

theorem forAll_schedules {β : Type} {f : β → DbProg Bool} (hf : ∀ b, (f b).Schedules env N)
    (bs : List β) : (forAll f bs).Schedules env N := by
  induction bs with
  | nil => exact .pure_true fun _ => id
  | cons b bs ih => exact .andThen (fun _ => rfl) (hf b) ih

/-! ### The sweep -/

theorem removeTxn_unstamps (key : Bytes) (b : Bool) : (removeTxn cfg key b).Succeeds env.handle
    (fun _ => True) fun t => t.1.view.get .expiration (getKey key) = none := by
  have hundo (s : Db) :
      (Prog.run env.handle (do return ← if b then rollback else return false) s).1 = false := by
    cases b <;> rfl
  -- once the time stamp is gone, nothing that follows puts one in
  have hkeep {α : Type} {p : DbProg α} (hp : p.Only Op.Untimed) (s : Db)
      (hs : s.1.view.get .expiration (getKey key) = none) :
      (exec env p s).2.1.view.get .expiration (getKey key) = none := by
    cases hg : (exec env p s).2.1.view.get .expiration (getKey key) with
    | none => rfl
    | some ts => exact ((exec_untimed env hp s).stamps _ ts hg).symm.trans hs
  simp only [removeTxn]
  refine .andThen (M := fun _ => True) hundo (fun _ _ _ => trivial) ?_
  refine .andThen (M := fun t : Db => t.1.view.get .expiration (getKey key) = none) hundo
    (fun s _ hok => ?_) ?_
  · obtain ⟨-, -, ⟨-, hv⟩ | ⟨hf, -⟩⟩ := txnDelete_cases env .expiration (getKey key) s
    · have hv' : (Prog.run env.handle (txnDelete .expiration (getKey key)) s).2.1.view = _ := hv
      rw [hv']
      simp
    · exact absurd (hf.symm.trans hok) Bool.false_ne_true
  refine .andThen (M := fun t : Db => t.1.view.get .expiration (getKey key) = none) hundo
    (fun s hs _ => hkeep ((removeEntry_aside _).mono Op.Aside.untimed) s hs) ?_
  exact .bind (M := fun _ t => t.1.view.get .expiration (getKey key) = none)
    (hkeep ((eraseValue_reads cfg _).mono Op.Reads.untimed)) fun _ => .pure_true fun _ => id

theorem removeTxn_untimed (key : Bytes) : (removeTxn cfg key false).Only Op.Untimed := by
  simp only [removeTxn]
  exact .bind (only_callStore trivial) fun _ => only_ite trivial <|
    .bind (only_callStore trivial) fun _ => only_ite trivial <|
    .bind ((removeEntry_aside _).mono Op.Aside.untimed) fun _ => only_ite trivial <|
    .bind ((eraseValue_reads _ _).mono Op.Reads.untimed) fun _ => trivial

/-- The state while the sweep works: what it sees of the `expiring` column is committed. -/
structure Db.Sweeping (env : Env) (N : ℕ) (cm : Columns) (t : Db) : Prop where
  scheduled : t.Scheduled env N
  columns : t.columns = cm
  entries : ∀ x k, t.1.view.get .expiring x = some k → cm.get .expiring x = some k

variable {cm : Columns} {t : Db}

theorem Db.Sweeping.untimed {u : Db} (h : t.Sweeping env N cm) (hu : Db.Untimed t u) :
    u.Sweeping env N cm where
  scheduled := h.scheduled.untimed hu
  columns := hu.columns.trans h.columns
  entries x k hx := h.entries x k ((hu.entries x).symm.trans hx)

theorem Db.Sweeping.bind {α β : Type} {p : DbProg α} {f : α → DbProg β} (h : t.Sweeping env N cm)
    (hp : p.Only Op.Untimed) {Q : Db → Prop} {A : α → Prop} (hA : A (exec env p t).1)
    (hf : ∀ a u, A a → u.Sweeping env N cm → Q (exec env (f a) u).2) :
    Q (exec env (p >>= f) t).2 := by
  rw [exec_bind]
  exact hf _ _ hA (h.untimed (exec_untimed env hp t))

theorem Db.Sweeping.expireKey (h : t.Sweeping env N cm) {e : Bytes × Bytes}
    (he : cm.get .expiring e.1 = some e.2) (hk : getKey e.2 = e.2) :
    (exec env (expireKey cfg e) t).2.Sweeping env N cm := by
  have hu := exec_untimed env (removeTxn_untimed cfg e.2) t
  have hgone : (exec env (removeTxn cfg e.2 false) t).1 = true →
      (exec env (removeTxn cfg e.2 false) t).2.1.view.get .expiration (getKey e.2) = none :=
    removeTxn_unstamps cfg e.2 false t trivial
  simp only [Database.expireKey, exec_bind]
  generalize exec env (removeTxn cfg e.2 false) t = r at hu hgone ⊢
  obtain ⟨b, u⟩ := r
  have h' := h.untimed hu
  cases b with
  | false => exact h'
  | true =>
    have hnone : u.1.view.get .expiration (getKey e.2) = none := hgone rfl
    rw [hk] at hnone
    obtain ⟨hc, hl, ⟨-, hv⟩ | ⟨-, hv⟩⟩ := txnDelete_cases env .expiring e.1 u
    · change (exec env (txnDelete .expiring e.1) u).2.Sweeping env N cm
      refine ⟨fun hN => ?_, hc.trans h'.columns, fun x k hx => ?_⟩
      · rw [hl] at hN ⊢
        obtain ⟨h₁, h₂⟩ := h'.scheduled hN
        rw [hc, hv]
        refine ⟨h₁, h₂.forget (fun k' hx => ?_) hnone⟩
        exact Option.some.inj ((h'.entries _ _ hx).symm.trans he)
      · rw [hv, Store.get_delete_same] at hx
        split_ifs at hx
        exact h'.entries x k hx
    · exact h'.untimed (.of_view hc (congrArg Local.nows hl).ge hv)

theorem Db.Sweeping.sweep {es : List (Bytes × Bytes)} (h : t.Sweeping env N cm)
    (hes : ∀ e ∈ es, cm.get .expiring e.1 = some e.2 ∧ getKey e.2 = e.2) :
    (exec env (sweep cfg es) t).2.Sweeping env N cm := by
  induction es generalizing t with
  | nil => exact h
  | cons e es ih =>
    rw [List.forall_mem_cons] at hes
    have h₁ := h.expireKey cfg hes.1.1 hes.1.2
    have h₂ := h₁.untimed (exec_untimed env (p := stopped) (only_callOwn trivial) _)
    simp only [Database.sweep, exec_bind, exec_ite]
    split
    · exact h₂
    · exact ih h₂ hes.2

end

/-! ### Calls -/

/-- The committed columns are scheduled, as long as the clock has not been read more than `N`
times. -/
def Db.Settled (env : Env) (N : ℕ) (s : Db) : Prop :=
  s.2.nows ≤ N → s.columns.Scheduled env s.2.nows

section

variable {env : Env} {cfg : Config} {N : ℕ} {s : Db}

theorem Db.Settled.begin (h : s.Settled env N) :
    (exec env beginTransaction s).2.Scheduled env N :=
  fun hN => ⟨h hN, h hN⟩

theorem Db.Settled.of_columns {t : Db} (h : s.Settled env N) (hc : t.columns = s.columns)
    (hn : s.2.nows ≤ t.2.nows) : t.Settled env N := by
  intro hN
  rw [hc]
  exact (h (hn.trans hN)).mono hn

theorem Db.Scheduled.settled (h : s.Scheduled env N) : s.Settled env N := fun hN => (h hN).1

theorem Db.Scheduled.commit (h : s.Scheduled env N) : (exec env txnCommit s).2.Settled env N := by
  simp only [exec, txnCommit, callStore, Prog.run_perform, Op.handle, TxnOp.handle]
  split
  · exact fun hN => (h hN).1
  · exact fun hN => (h hN).2

/-- **A transaction** whose work keeps time stamps with their entries when it succeeds keeps the
committed columns so. -/
theorem Db.Settled.withTxn {work : DbProg Bool} (hq : work.Only Op.Inside)
    (hw : work.Schedules env N) (h : s.Settled env N) :
    (exec env (withTxn work) s).2.Settled env N := by
  have hb := h.begin
  have hcols : (exec env work (exec env beginTransaction s).2).2.columns = s.columns :=
    (exec_inside hq).1
  have hnows : s.2.nows ≤ (exec env work (exec env beginTransaction s).2).2.2.nows :=
    nows_le_exec work (exec env beginTransaction s).2
  have hok : (exec env work (exec env beginTransaction s).2).1 = true →
      (exec env work (exec env beginTransaction s).2).2.Scheduled env N := hw _ hb
  simp only [Database.withTxn, exec_bind, exec_pure]
  generalize exec env work (exec env beginTransaction s).2 = r at hcols hnows hok ⊢
  obtain ⟨saved, t⟩ := r
  cases saved with
  | false => exact h.of_columns hcols hnows
  | true => exact (hok rfl).commit

theorem collect_subset {es : List (Bytes × Bytes)} :
    ∀ e ∈ (exec env (collect es) s).1, e ∈ es := by
  induction es generalizing s with
  | nil => simp [collect]
  | cons e es ih =>
    intro e' he'
    simp only [collect, exec_bind, exec_ite] at he'
    split_ifs at he'
    · exact List.mem_cons.2 (.inl (List.mem_singleton.1 he'))
    · rcases List.mem_cons.1 he' with rfl | he'
      · exact List.mem_cons_self
      · exact List.mem_cons_of_mem _ (ih e' he')

theorem dbScan_subset {hi : Bytes} : ∀ e ∈ (exec env (dbScan .expiring hi) s).1,
    s.columns.get .expiring e.1 = some e.2 := by
  intro e he
  change e ∈ (if env.fails s.1.calls .scan then [] else s.columns.below .expiring hi) at he
  split_ifs at he
  · simp at he
  · exact (Store.mem_below.1 he).1

/-- **The sweep** keeps every time stamp with its entry, whatever fails and whenever it is asked to
stop. -/
theorem Db.Settled.clearExpired (h : s.Settled env N) (hwf : s.WellFormed) :
    (exec env (clearExpired cfg) s).2.Settled env N := by
  -- the state in which the transaction has begun
  have h₀ : (exec env beginTransaction (s.1, s.2.readClock 1)).2.Sweeping env N s.columns :=
    ⟨(h.of_columns (t := (s.1, s.2.readClock 1)) rfl (Nat.le_succ _)).begin, rfl, fun _ _ hx => hx⟩
  refine h₀.bind (A := fun _ => True) (only_callOwn trivial) trivial fun ns t₁ _ h₁ => ?_
  have hscan : ∀ e ∈ (exec env (dbScan .expiring (toString ns)) t₁).1,
      s.columns.get .expiring e.1 = some e.2 := h₁.columns ▸ dbScan_subset
  refine h₁.bind (p := dbScan .expiring (toString ns))
    (A := fun es => ∀ e ∈ es, s.columns.get .expiring e.1 = some e.2)
    (only_callStore trivial) hscan fun es t₂ hes h₂ => ?_
  have hcollect : ∀ e ∈ (exec env (collect es) t₂).1,
      s.columns.get .expiring e.1 = some e.2 ∧ getKey e.2 = e.2 := by
    intro e he
    have hx := hes e (collect_subset e he)
    exact ⟨hx, (hwf.committed .expiring e.1 e.2 hx).getKey⟩
  refine h₂.bind (A := fun keys => ∀ e ∈ keys,
      s.columns.get .expiring e.1 = some e.2 ∧ getKey e.2 = e.2)
    ((collect_reads es).mono Op.Reads.untimed) hcollect fun keys t₃ hkeys h₃ => ?_
  refine h₃.bind (A := fun _ => True) (only_callOwn trivial) trivial fun stop t₄ _ h₄ => ?_
  cases stop with
  | true => exact h₄.scheduled.settled
  | false =>
    simp only [Bool.false_eq_true, if_false, exec_bind]
    exact (h₄.sweep cfg hkeys).scheduled.commit

/-- **Every call** keeps every time stamp with its entry. -/
theorem Call.next_settled (ht : env.Ticks N) (hwf : s.WellFormed) (h : s.Settled env N) (c : Call) :
    (c.next env cfg s).Settled env N := by
  have hreads (hr : (c.prog cfg).Only Op.Reads) : (c.next env cfg s).Settled env N :=
    h.of_columns (exec_reads hr).1 (nows_le_exec _ s)
  have htxn {work : DbProg Bool} (hq : work.Only Op.Inside) (hw : work.Schedules env N) :
      (exec env (Answer.bool <$> withMutex cfg true (Database.withTxn work)) s).2.Settled
        env N := by
    rw [exec_map, exec_withMutex]
    exact h.withTxn hq hw
  cases c with
  | get key => exact hreads (Only.map _ (get_reads cfg key))
  | ttl key => exact hreads (Only.map _ (ttl_reads cfg key))
  | list key => exact hreads (Only.map _ (list_reads cfg key))
  | getBatch keys => exact hreads (Only.map _ (getBatch_reads cfg keys))
  | ttlBatch keys => exact hreads (Only.map _ (ttlBatch_reads cfg keys))
  | listBatch keys => exact hreads (Only.map _ (listBatch_reads cfg keys))
  | set d =>
    simp only [Call.next, Call.prog, Database.set]
    split_ifs
    · exact h
    · exact h
    · exact htxn (setTxn_inside cfg _ _ _) (setTxn_schedules cfg ht _ _ _)
  | remove key =>
    simp only [Call.next, Call.prog, Database.remove]
    split_ifs
    · exact h
    · exact htxn (removeTxn_inside cfg _ _) (removeTxn_schedules cfg _ _)
  | move d =>
    simp only [Call.next, Call.prog, Database.move]
    split_ifs
    · exact h
    · exact h
    · exact htxn (moveTxn_inside cfg _ _ _) (moveTxn_schedules cfg ht _ _ _)
  | setBatch kvs =>
    exact htxn (forAll_inside (fun _ => setTxn_inside cfg _ _ _) kvs)
      (forAll_schedules (fun _ => setTxn_schedules cfg ht _ _ _) kvs)
  | removeBatch keys =>
    exact htxn (forAll_inside (fun _ => removeTxn_inside cfg _ _) keys)
      (forAll_schedules (fun _ => removeTxn_schedules cfg _ _) keys)
  | moveBatch kvs =>
    exact htxn (forAll_inside (fun _ => moveTxn_inside cfg _ _ _) kvs)
      (forAll_schedules (fun _ => moveTxn_schedules cfg ht _ _ _) kvs)
  | clearExpired =>
    simp only [Call.next, Call.prog, exec_map]
    exact h.clearExpired hwf

/-- **Every time stamp has its entry, in every state that calls reach.** -/
theorem Reach.scheduled {Q : Db → Call → Prop} {n : ℕ} (h : Reach env cfg Q (Db.init n) s)
    (ht : env.Ticks N) : s.Settled env N := by
  induction h with
  | start => exact fun _ => Store.Scheduled.empty env
  | call c hr _ ih => exact Call.next_settled ht hr.wellFormed ih c

/-- What is left of the `expiration` column after a sweep: nothing of the keys whose entries the
sweep has read. -/
theorem Call.clearExpired_expiration (henv : env.Reliable) {k ts : Bytes}
    (h : (Call.clearExpired.next env cfg s).columns.get .expiration k = some ts) :
    s.columns.get .expiration k = some ts ∧
      ∀ e ∈ s.columns.below .expiring (toString (env.clock (s.2.nows + 1))), getKey e.2 ≠ k := by
  have ha : Call.clearExpired.actions env cfg s = some _ := itemActions_expire _ _
  rw [Call.next_columns henv, ha] at h
  simp only at h
  revert h
  generalize s.columns.below .expiring (toString (env.clock (s.2.nows + 1))) = es
  have hrun (v : Columns) (h : (Store.actAll cfg s.columns v
      (es.flatMap fun e => [.drop (getKey e.2), .forget e.1])).get .expiration k = some ts) :
      v.get .expiration k = some ts ∧ ∀ e ∈ es, getKey e.2 ≠ k := by
    induction es generalizing v with
    | nil => exact ⟨h, by simp⟩
    | cons e es ih =>
      rw [List.flatMap_cons, Store.actAll_append] at h
      obtain ⟨hv, hes⟩ := ih _ h
      simp only [Store.actAll, List.foldl_cons, List.foldl_nil, Store.act, ne_eq, reduceCtorEq,
        not_false_eq_true, Store.get_delete_of_ne, Store.removeEntry_expiration] at hv
      split_ifs at hv with hk
      exact ⟨hv, List.forall_mem_cons.2 ⟨hk, hes⟩⟩
  exact hrun s.columns

end

/-- **The expiry sweep misses nothing.**  Let the clock readings up to the next sweep strictly
increase and have nineteen digits.  In every state that calls reach from the empty store, whatever
database calls fail, every key with a time stamp has an entry in the `expiring` column that begins
with the digits of the time stamp and names the key.  So after a sweep in which nothing fails no
live key has a time stamp before the time of the sweep. -/
theorem sweep_misses_nothing (env : Env) (cfg : Config) (n : ℕ) (s : Db)
    (h : Reach env cfg (fun _ _ => True) (Db.init n) s) (ht : env.Ticks (s.2.nows + 2)) :
    (∀ k ts, s.columns.get .expiration k = some ts →
      ∃ e x, ts = toString e ∧ ts <+: x ∧ s.columns.get .expiring x = some k) ∧
    ∀ env' : Env, env'.Reliable → env'.clock = env.clock → ∀ k e,
      ((Call.clearExpired.next env' cfg s).columns.get .data k).isSome →
      (Call.clearExpired.next env' cfg s).columns.get .expiration k = some (toString e) →
      env.clock (s.2.nows + 1) ≤ e := by
  have hs := h.scheduled ht (Nat.le_add_right _ 2)
  refine ⟨fun k ts hts => ?_, fun env' henv' hclock k e _ he => ?_⟩
  · obtain ⟨e, rfl, -⟩ := hs.stamp k ts hts
    obtain ⟨x, hx⟩ := hs.entry k _ hts
    exact ⟨e, x, rfl, hx⟩
  · obtain ⟨hts, hno⟩ := Call.clearExpired_expiration henv' he
    rw [hclock] at hno
    obtain ⟨e', he', hlo⟩ := hs.stamp k _ hts
    obtain rfl := toString_injective he'
    obtain ⟨x, ⟨r, rfl⟩, hx⟩ := hs.entry k _ hts
    by_contra hle
    have hlt : e < env.clock (s.2.nows + 1) := Nat.lt_of_not_le hle
    obtain ⟨hnlo, hnhi⟩ := ht.digits (s.2.nows + 1) (by omega)
    -- an overdue time stamp has nineteen digits as well, so its entry comes before the bound
    have hcmp := (compare_append_stamp ⟨hlo, hlt.trans hnhi⟩ ⟨hnlo, hnhi⟩ r).2 hlt
    exact hno (_, k) (Store.mem_below.2 ⟨hx, hcmp⟩)
      (h.wellFormed.committed .expiring _ k hx).getKey

/-- Of two keys set to expire after one second and after a hundred, the sweep finds the first and
leaves the second. -/
theorem sweep_misses_nothing_two :
    let env := Env.reliable tickingClock
    let s := (Call.setBatch [⟨[47, 97], [1], { expirationInSeconds := 1 }⟩,
      ⟨[47, 98], [1], { expirationInSeconds := 100 }⟩]).next env (.plain false) (Db.init 1)
    (∃ e x, toString (10 ^ 18 + 10 ^ 9) = toString e ∧ toString (10 ^ 18 + 10 ^ 9) <+: x ∧
        s.columns.get .expiring x = some [47, 97]) ∧
      (Call.clearExpired.next env (.plain false) s).columns.get .expiration [47, 98] =
        some (toString (10 ^ 18 + 104 * 10 ^ 9)) ∧
      env.clock (s.2.nows + 1) ≤ 10 ^ 18 + 104 * 10 ^ 9 := by
  intro env s
  have hticks : env.Ticks (s.2.nows + 2) := by
    have hnows : s.2.nows = 4 := by decide
    refine ⟨fun i j hij _ => ?_, fun i hi => ?_⟩
    · simp only [env, Env.reliable, tickingClock]
      omega
    · simp only [env, Env.reliable, tickingClock]
      omega
  have hall := sweep_misses_nothing env (.plain false) 1 s (.call _ .start trivial) hticks
  have hleft : (Call.clearExpired.next env (.plain false) s).columns.get .expiration [47, 98] =
      some (toString (10 ^ 18 + 104 * 10 ^ 9)) := by decide
  exact ⟨hall.1 [47, 97] _ (by decide), hleft,
    hall.2 env (Env.reliable_reliable _) rfl [47, 98] _ (by decide) hleft⟩

end ConfigDb
