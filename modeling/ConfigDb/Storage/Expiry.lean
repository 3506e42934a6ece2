import ConfigDb.Storage.Decimal
import ConfigDb.Storage.Items

/-!
# What the expiry sweep reads and deletes

The time at which a key is due is stored twice: under the key in the `expiration` column, and as a
key of the `expiring` column, which the sweep reads.  `set` adds to both, `remove` clears only the
first, and nothing but the sweep clears the second.  So an entry of the `expiring` column can
outlive the expiration it was made for.

* `scan_selects_by_time` : byte order up to the digits of the time selects by numeric time.
* `sweep_deletes_undue_key` : a key that was removed and set again, without expiration, is deleted
  when its former expiration passes.
* `sweep_deletes_due_only` : as long as every write leaves its key due no later than the entries of
  the `expiring` column for it say (`KeepsDue`), and time stamps have no more digits than the time
  of the sweep, a sweep deletes only keys that are due.
-/

namespace ConfigDb

open Std Database

/-! ### The scan -/

/-- The keys of the `expiring` column are the digits of two time stamps: when an entry expires, and
when it was made. -/
def Store.Stamped (v : Columns) : Prop :=
  ∀ x k, v.get .expiring x = some k → ∃ e c, Stamp e ∧ Stamp c ∧ x = toString e ++ toString c

/-- `IteratorHolder` and the loop over it: the entries below the digits of the time. -/
def scanExpired : DbProg (List (Bytes × Bytes)) := do
  let ns ← now
  collect (← dbScan .expiring (toString ns))

theorem clearExpired_eq (cfg : Config) : clearExpired cfg = (do
    let _ ← now
    beginTransaction
    let keys ← scanExpired
    if ← stopped then releaseTransaction
    else do
      sweep cfg keys
      let _ ← txnCommit
      releaseTransaction) := by
  simp only [clearExpired, scanExpired, bind_assoc]

theorem exec_scanExpired {env : Env} (henv : env.Reliable) (s : Db) :
    (exec env scanExpired s).1 =
      s.columns.below .expiring (toString (env.clock s.2.nows)) := by
  rw [(exec_ideal henv _ s).1]
  simp only [scanExpired, execIdeal_bind, execIdeal_now, execIdeal_dbScan, collect_ideal henv]
  rfl

/-- **The scan selects by numeric time.**  If the keys of the `expiring` column are the digits of
two time stamps of nineteen digits each, the entries that the scan finds, in byte order up to but
excluding the digits of the time, are exactly those whose first time stamp is less. -/
theorem scan_selects_by_time {env : Env} (henv : env.Reliable) {s : Db}
    (hs : s.columns.Stamped) (hn : Stamp (env.clock s.2.nows)) :
    (exec env scanExpired s).1.Pairwise (fun a b => compare a.1 b.1 = .lt) ∧
      ∀ x k, (x, k) ∈ (exec env scanExpired s).1 ↔ s.columns.get .expiring x = some k ∧
        ∃ e c, Stamp e ∧ Stamp c ∧ x = toString e ++ toString c ∧ e < env.clock s.2.nows := by
  rw [exec_scanExpired henv]
  refine ⟨?_, ?_⟩
  · rw [Store.below_eq_filter]
    exact (s.columns .expiring).ordered_keys_toList.filter _
  · intro x k
    rw [Store.mem_below]
    constructor
    · rintro ⟨hx, hlt⟩
      obtain ⟨e, c, he, hc, rfl⟩ := hs x k hx
      exact ⟨hx, e, c, he, hc, rfl, (compare_append_stamp he hn _).1 hlt⟩
    · rintro ⟨hx, e, c, he, hc, rfl, hlt⟩
      exact ⟨hx, (compare_append_stamp he hn _).2 hlt⟩

/-- At the time `10 ^ 18 + 1`, of an entry that expired one nanosecond ago and one that expires now,
the scan finds the first. -/
theorem scan_selects_by_time_two :
    let x₁ := toString (10 ^ 18) ++ toString (10 ^ 18)
    let x₂ := toString (10 ^ 18 + 1) ++ toString (10 ^ 18)
    let cols : Columns := (Store.empty.put .expiring x₂ [47, 98]).put .expiring x₁ [47, 97]
    (exec (Env.reliable fun _ => 10 ^ 18 + 1) scanExpired (.idle cols 1)).1 =
        [(x₁, [47, 97])] ∧
      ∀ x k, (x, k) ∈ [(x₁, ([47, 97] : Bytes))] ↔ cols.get .expiring x = some k ∧
        ∃ e c, Stamp e ∧ Stamp c ∧ x = toString e ++ toString c ∧ e < 10 ^ 18 + 1 := by
  intro x₁ x₂ cols
  have h₁ : Stamp (10 ^ 18) := by unfold Stamp; omega
  have h₂ : Stamp (10 ^ 18 + 1) := by unfold Stamp; omega
  have hcols : (Db.idle cols 1).columns.Stamped := by
    intro x k hx
    change cols.get .expiring x = some k at hx
    rw [Store.get_put_same, Store.get_put_same, Store.get_empty] at hx
    split_ifs at hx with hx₁ hx₂
    · exact ⟨_, _, h₁, h₁, hx₁.symm⟩
    · exact ⟨_, _, h₂, h₁, hx₂.symm⟩
  have hrun : (exec (Env.reliable fun _ => 10 ^ 18 + 1) scanExpired (.idle cols 1)).1 =
      [(x₁, [47, 97])] := by decide
  have hscan := scan_selects_by_time
    (Env.reliable_reliable fun _ => 10 ^ 18 + 1) hcols h₂
  rw [hrun] at hscan
  exact ⟨hrun, hscan.2⟩

/-! ### Keys that are due -/

/-- The time stamp in the `expiration` column after a write. -/
def Store.stampAfter (v : Columns) (ks : Bytes) (opts : Options) (t : ℕ) : Option Bytes :=
  if opts.expirationInSeconds ≠ 0 then
    some (toString (t + opts.expirationInSeconds.toNat * 10 ^ 9))
  else v.get .expiration ks

/-- The guard against early deletion: after a write, the key has a time stamp that does not come, in
byte order, after any entry of the `expiring` column for the key. -/
def KeepsDue (_ v : Columns) : Action → Prop
  | .put ks _ opts t _ => ∀ e ∈ (v .expiring).toList, e.2 = ks →
      ((v.stampAfter ks opts t).any fun ts => (compare ts e.1).isLE) = true
  | _ => True

instance : ∀ cm v a, Decidable (KeepsDue cm v a)
  | _, v, .put ks _ opts t _ => inferInstanceAs (Decidable (∀ e ∈ (v .expiring).toList, e.2 = ks →
      ((v.stampAfter ks opts t).any fun ts => (compare ts e.1).isLE) = true))
  | _, _, .drop _ => inferInstanceAs (Decidable True)
  | _, _, .forget _ => inferInstanceAs (Decidable True)

/-- The invariant of runs in which no sweep comes too early: an entry of the `expiring` column for a
live key is not before the time stamp of the key. -/
structure Due (v : Columns) : Prop where
  key : ∀ x k, v.get .expiring x = some k → getKey k = k
  numeral : ∀ k ts, v.get .expiration k = some ts → ∃ t, ts = toString t
  stamp : ∀ x k, v.get .expiring x = some k → (v.get .data k).isSome →
    ∃ ts, v.get .expiration k = some ts ∧ (compare ts x).isLE = true

section

variable {cfg : Config} {cm v : Columns}

theorem Due.put (h : Due v) {ks value : Bytes} {opts : Options} {t t1 : ℕ} (hks : getKey ks = ks)
    (hg : KeepsDue cm v (.put ks value opts t t1)) :
    Due (v.setEntry cfg ks value opts t t1) where
  key x k hk := by
    rw [Store.setEntry_expiring] at hk
    split_ifs at hk
    · exact Option.some.inj hk ▸ hks
    · exact h.key x k hk
  numeral k ts hts := by
    rw [Store.setEntry_expiration] at hts
    split_ifs at hts
    · exact ⟨_, (Option.some.inj hts).symm⟩
    · exact h.numeral k ts hts
  stamp x k hx hlive := by
    have hstamp : (v.setEntry cfg ks value opts t t1).get .expiration ks =
        v.stampAfter ks opts t := by
      rw [Store.setEntry_expiration, Store.stampAfter]
      simp
    rw [Store.setEntry_expiring] at hx
    split_ifs at hx with hnew
    · -- the entry that the write itself has made
      obtain rfl := Option.some.inj hx
      refine ⟨_, hstamp.trans (if_pos hnew.1), ?_⟩
      rw [← hnew.2]
      exact compare_append_isLE _ _
    · by_cases hk : ks = k
      · subst hk
        have hm := hg (x, ks) (ExtTreeMap.mem_toList_iff_getElem?_eq_some.2 hx) rfl
        rw [Option.any_eq_true] at hm
        obtain ⟨ts, hts, hle⟩ := hm
        exact ⟨ts, hstamp.trans hts, hle⟩
      · obtain ⟨ts, hts, hle⟩ := h.stamp x k hx (by simpa [hk] using hlive)
        exact ⟨ts, by simpa [hk] using hts, hle⟩

theorem Due.drop (h : Due v) (ks : Bytes) (b : Bool) : Due (v.removeEntry ks b) where
  key x k hk := h.key x k (by simpa using hk)
  numeral k ts hts := by
    rw [Store.removeEntry_expiration] at hts
    split_ifs at hts
    exact h.numeral k ts hts
  stamp x k hx hlive := by
    rw [Store.removeEntry_expiring] at hx
    rw [Store.removeEntry_data] at hlive
    split_ifs at hlive with hk
    · simp at hlive
    · obtain ⟨ts, hts, hle⟩ := h.stamp x k hx hlive
      exact ⟨ts, by simpa [hk] using hts, hle⟩

theorem Due.act {a : Action} (ha : a.On fun k => getKey k = k) (hg : KeepsDue cm v a) (h : Due v) :
    Due (Store.act cfg cm v a) := by
  cases a with
  | put ks value opts t t1 => exact h.put ha hg
  | drop ks => exact h.drop ks _
  | forget y =>
    have hx : ∀ x k, (v.delete .expiring y).get .expiring x = some k →
        v.get .expiring x = some k := by
      intro x k hk
      rw [Store.get_delete_same] at hk
      split_ifs at hk
      exact hk
    refine ⟨fun x k hk => h.key x k (hx x k hk), fun k ts hts => h.numeral k ts ?_, ?_⟩
    · simpa [Store.act] using hts
    · intro x k hk hlive
      obtain ⟨ts, hts, hle⟩ := h.stamp x k (hx x k hk) (by simpa [Store.act] using hlive)
      exact ⟨ts, by simpa [Store.act] using hts, hle⟩

theorem due_empty : Due Store.empty where
  key x k h := by simp at h
  numeral k ts h := by simp at h
  stamp x k h := by simp at h

/-! ### The sweep -/

theorem itemActions_expire {env : Env} (es : List (Bytes × Bytes)) (s : IdealDb) :
    itemActions env cfg (es.map .expire) s =
      some (es.flatMap fun e => [.drop (getKey e.2), .forget e.1]) := by
  induction es generalizing s with
  | nil => rfl
  | cons e es ih =>
    simp only [List.map_cons, itemActions, Item.actions, ih, Option.bind_eq_bind, Option.bind_some,
      List.flatMap_cons]
    rfl

theorem actAll_data_of_sweep {es : List (Bytes × Bytes)} {k : Bytes}
    (h : ∀ e ∈ es, getKey e.2 ≠ k) : (Store.actAll cfg cm v
      (es.flatMap fun e => [.drop (getKey e.2), .forget e.1])).get .data k = v.get .data k := by
  induction es generalizing v with
  | nil => rfl
  | cons e es ih =>
    rw [List.forall_mem_cons] at h
    rw [List.flatMap_cons, Store.actAll_append, ih h.2]
    simp [Store.actAll, Store.act, h.1]

/-- **The keys that a sweep deletes** are those of the entries it reads. -/
theorem Call.clearExpired_data {env : Env} (henv : env.Reliable) {s : Db} {k : Bytes}
    (hlive : (s.columns.get .data k).isSome)
    (hgone : (Call.clearExpired.next env cfg s).columns.get .data k = none) :
    ∃ e ∈ s.columns.below .expiring (toString (env.clock (s.2.nows + 1))), getKey e.2 = k := by
  by_contra hno
  have ha : Call.clearExpired.actions env cfg s = some _ := itemActions_expire _ _
  rw [Call.next_columns henv, ha] at hgone
  simp only at hgone
  rw [actAll_data_of_sweep fun e he hk => hno ⟨e, he, hk⟩] at hgone
  rw [hgone] at hlive
  simp at hlive

end

/-- **The expiry sweep never deletes a key that is not due**, in runs whose writes keep their keys
due (`KeepsDue`), at a time with at least as many digits as the time stamp of the key: a live key
that the sweep deletes had a time stamp before the time of the sweep. -/
theorem sweep_deletes_due_only (env : Env) (henv : env.Reliable) (cfg : Config) (n : ℕ) (s : Db)
    (h : Reach env cfg (fun s c => c.Guarded env cfg KeepsDue s) (Db.init n) s)
    (k : Bytes) (hdigits : ∀ ts, s.columns.get .expiration k = some ts →
      ts.length ≤ (toString (env.clock (s.2.nows + 1))).length)
    (hlive : (s.columns.get .data k).isSome)
    (hgone : (Call.clearExpired.next env cfg s).columns.get .data k = none) :
    ∃ t, s.columns.get .expiration k = some (toString t) ∧ t < env.clock (s.2.nows + 1) := by
  have hI : Due s.columns := Reach.invariant henv (P := fun k => getKey k = k)
    (fun _ _ _ _ ha hg hv => Due.act ha hg hv)
    (fun v hv x k hx => by rw [hv.key x k hx, hv.key x k hx]) due_empty
    (h.mono fun s c hc => ⟨c.on_getKey, hc⟩)
  obtain ⟨⟨x, k'⟩, he, hk⟩ := Call.clearExpired_data henv hlive hgone
  obtain ⟨hx, hlt⟩ := Store.mem_below.1 he
  have hkk : k' = k := (hI.key x k' hx).symm.trans hk
  subst hkk
  obtain ⟨ts, hts, hle⟩ := hI.stamp x k' hx hlive
  obtain ⟨t, rfl⟩ := hI.numeral k' ts hts
  exact ⟨t, hts, lt_of_compare_toString (hdigits _ hts) (TransCmp.lt_of_isLE_of_lt hle hlt)⟩

/-- A clock that advances by two seconds with every reading. -/
def tickingClock (n : ℕ) : ℕ := 10 ^ 18 + n * (2 * 10 ^ 9)

/-- The sweep deletes `/a`, which was set to expire after one second. -/
theorem sweep_deletes_due_key :
    let env := Env.reliable tickingClock
    let s := (Call.set ⟨[47, 97], [1], { expirationInSeconds := 1 }⟩).next env (.plain false)
      (Db.init 1)
    (Call.clearExpired.next env (.plain false) s).columns.get .data [47, 97] = none ∧
      ∃ t, s.columns.get .expiration [47, 97] = some (toString t) ∧
        t < env.clock (s.2.nows + 1) := by
  intro env s
  have hgone : (Call.clearExpired.next env (.plain false) s).columns.get .data [47, 97] = none := by
    decide
  have hts : s.columns.get .expiration [47, 97] = some (toString (10 ^ 18 + 10 ^ 9)) := by decide
  refine ⟨hgone, sweep_deletes_due_only env (Env.reliable_reliable _) _ 1 s
    (.call _ .start (Call.guarded_of_actions rfl ⟨by decide, trivial⟩)) _
    (fun ts h => ?_) (by decide) hgone⟩
  obtain rfl := Option.some.inj (hts.symm.trans h)
  decide

/-- **A key that is not due is deleted.**  `/a` is set to expire after one second, removed, and set
again without expiration; the next sweep deletes it, although it has no time stamp. -/
theorem sweep_deletes_undue_key :
    let env := Env.reliable tickingClock
    let s := runCalls env (.plain false) (Db.init 1)
      [.set ⟨[47, 97], [1], { expirationInSeconds := 1 }⟩, .remove [47, 97],
        .set ⟨[47, 97], [2], {}⟩]
    (s.columns.get .data [47, 97]).isSome ∧ s.columns.get .expiration [47, 97] = none ∧
      (Call.clearExpired.next env (.plain false) s).columns.get .data [47, 97] = none := by
  decide

end ConfigDb
