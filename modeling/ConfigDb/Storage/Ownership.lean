import ConfigDb.Storage.Frame
import ConfigDb.Storage.Values

/-!
# A part of the keys

What a call does to some of the keys does not depend on the values of the others, and a call of the
others leaves them alone.  This is said here of a call that is replayed at another node, on the
reference map: `Call.replay` is a lookup, an insertion and a deletion for every item, and is refused
only for a key to move that is not there.

Keys that are never given an expiration are not touched by the expiry sweep.

## Main definitions

* `Call.replay` : what a call that was accepted does to the reference map of another node.
* `SameOn` : two reference maps have the same values for some keys.
* `Store.Untimed` : some of the keys do not expire.

## Main results

* `Call.replay_congr`, `Call.replay_frame` : replaying a call depends on its keys, and changes no
  others.
* `Call.next_untimed` : keys that no call gives an expiration do not expire.
* `sweep_keeps` : the sweep leaves keys that do not expire alone.
-/

namespace ConfigDb

open Std Database

/-! ### Replaying a call -/

/-- The items of the batch that a mutating call amounts to. -/
def Call.changes : Call → List Item
  | .set d => [.set d]
  | .remove key => [.remove key]
  | .move d => [.move d]
  | .setBatch kvs => kvs.map .set
  | .removeBatch keys => keys.map .remove
  | .moveBatch kvs => kvs.map .move
  | _ => []

/-- A call that was accepted, replayed on the reference map of another node: `ifNotExists` has been
decided already. -/
def Call.replay (m : RefMap) (c : Call) : Option RefMap :=
  c.changes.foldlM (fun m i => m.item i.replay) m

/-- Two reference maps have the same values for the keys that satisfy `P`. -/
def SameOn (P : Bytes → Prop) (m m' : RefMap) : Prop := ∀ k, P k → m[k]? = m'[k]?

section

variable {P : Bytes → Prop} {m m' n : RefMap}

theorem SameOn.equivalence (P : Bytes → Prop) : Equivalence (SameOn P) where
  refl _ _ _ := rfl
  symm h k hk := (h k hk).symm
  trans h h' k hk := (h k hk).trans (h' k hk)

theorem SameOn.insert (h : SameOn P m n) (k v : Bytes) :
    SameOn P (m.insert k v) (n.insert k v) := by
  intro k' hk'
  rw [ExtTreeMap.getElem?_insert, ExtTreeMap.getElem?_insert, h k' hk']

theorem SameOn.erase (h : SameOn P m n) (k : Bytes) : SameOn P (m.erase k) (n.erase k) := by
  intro k' hk'
  rw [ExtTreeMap.getElem?_erase, ExtTreeMap.getElem?_erase, h k' hk']

theorem sameOn_insert {k : Bytes} (hk : ¬ P k) (v : Bytes) : SameOn P m (m.insert k v) := by
  intro k' hk'
  have hne : k ≠ k' := by
    rintro rfl
    exact hk hk'
  simp [ExtTreeMap.getElem?_insert, hne]

theorem sameOn_erase {k : Bytes} (hk : ¬ P k) : SameOn P m (m.erase k) := by
  intro k' hk'
  have hne : k ≠ k' := by
    rintro rfl
    exact hk hk'
  simp [ExtTreeMap.getElem?_erase, hne]

theorem RefMap.replay_move (m : RefMap) (d : RequestData) :
    m.item (Item.move d).replay = m[getKey d.key]?.map fun v =>
      (m.erase (getKey d.key)).insert (getKey d.value) v := by
  simp only [Item.replay, RefMap.item, RefMap.move, RequestData.unconditional, Bool.false_and,
    Bool.false_eq_true, if_false]
  cases m[getKey d.key]? <;> rfl

theorem RefMap.item_replay {i : Item} (h : m.item i = some m') : m.item i.replay = some m' := by
  cases i with
  | set d =>
    simp only [RefMap.item, RefMap.set] at h
    split_ifs at h
    simpa [Item.replay, RefMap.item, RefMap.set, RequestData.unconditional] using h
  | remove key => exact h
  | move d =>
    simp only [RefMap.item, RefMap.move] at h
    split_ifs at h
    rw [RefMap.replay_move]
    cases hv : m[getKey d.key]? with
    | none => simp [hv] at h
    | some v => simpa [hv] using h
  | expire entry => exact h

/-- Whether an item is refused, and what it does to its keys, depends on the values of its keys. -/
theorem RefMap.replay_congr {i : Item} (hi : i.On P) (h : SameOn P m n) :
    Option.Rel (SameOn P) (m.item i.replay) (n.item i.replay) := by
  cases i with
  | set d => exact .some (h.insert _ _)
  | remove key => exact .some (h.erase _)
  | move d =>
    rw [RefMap.replay_move, RefMap.replay_move, h _ hi.1]
    cases n[getKey d.key]? with
    | none => exact .none
    | some v => exact .some ((h.erase _).insert _ v)
  | expire entry => exact .some (h.erase _)

/-- An item leaves the values of other keys alone. -/
theorem RefMap.replay_frame {i : Item} (hi : i.On fun k => ¬ P k)
    (h : m.item i.replay = some m') : SameOn P m m' := by
  cases i with
  | set d =>
    obtain rfl := Option.some.inj h
    exact sameOn_insert hi _
  | remove key =>
    obtain rfl := Option.some.inj h
    exact sameOn_erase hi
  | move d =>
    rw [RefMap.replay_move] at h
    obtain ⟨v, -, rfl⟩ := Option.map_eq_some_iff.1 h
    exact (SameOn.equivalence P).trans (sameOn_erase hi.1) (sameOn_insert hi.2 v)
  | expire entry =>
    obtain rfl := Option.some.inj h
    exact sameOn_erase hi

theorem replayAll_congr {is : List Item} (hi : ∀ i ∈ is, i.On P) (h : SameOn P m n) :
    Option.Rel (SameOn P) (is.foldlM (fun m i => m.item i.replay) m)
      (is.foldlM (fun m i => m.item i.replay) n) := by
  induction is generalizing m n with
  | nil => exact .some h
  | cons i is ih =>
    rw [List.forall_mem_cons] at hi
    have hrel := RefMap.replay_congr hi.1 h
    rw [List.foldlM_cons, List.foldlM_cons]
    cases hm : m.item i.replay with
    | none =>
      rw [hm] at hrel
      cases hn : n.item i.replay with
      | none => exact .none
      | some n₁ => rw [hn] at hrel; cases hrel
    | some m₁ =>
      rw [hm] at hrel
      cases hn : n.item i.replay with
      | none => rw [hn] at hrel; cases hrel
      | some n₁ =>
        rw [hn] at hrel
        obtain ⟨h₁⟩ := hrel
        exact ih hi.2 h₁

theorem replayAll_frame {is : List Item} (hi : ∀ i ∈ is, i.On fun k => ¬ P k)
    (h : is.foldlM (fun m i => m.item i.replay) m = some m') : SameOn P m m' := by
  induction is generalizing m with
  | nil =>
    obtain rfl := Option.some.inj h
    exact (SameOn.equivalence P).refl m
  | cons i is ih =>
    rw [List.forall_mem_cons] at hi
    rw [List.foldlM_cons] at h
    obtain ⟨m₁, h₁, h₂⟩ := Option.bind_eq_some_iff.1 h
    exact (SameOn.equivalence P).trans (RefMap.replay_frame hi.1 h₁) (ih hi.2 h₂)

theorem replayAll_of_items {is : List Item} (h : is.foldlM RefMap.item m = some m') :
    is.foldlM (fun m i => m.item i.replay) m = some m' := by
  induction is generalizing m with
  | nil => exact h
  | cons i is ih =>
    rw [List.foldlM_cons] at h ⊢
    obtain ⟨m₁, h₁, h₂⟩ := Option.bind_eq_some_iff.1 h
    exact Option.bind_eq_some_iff.2 ⟨m₁, RefMap.item_replay h₁, ih h₂⟩

theorem Call.changes_on {c : Call} (hc : c.On P) : ∀ i ∈ c.changes, i.On P := by
  cases c <;> simp only [Call.changes, List.mem_singleton, List.mem_map, List.not_mem_nil,
    forall_eq, forall_exists_index, and_imp, forall_apply_eq_imp_iff₂, false_implies,
    implies_true] <;> exact hc

/-- **What a call does to its keys depends on their values.** -/
theorem Call.replay_congr {c : Call} (hc : c.On P) (h : SameOn P m n) :
    Option.Rel (SameOn P) (c.replay m) (c.replay n) :=
  replayAll_congr (Call.changes_on hc) h

/-- **A call leaves the values of other keys alone.** -/
theorem Call.replay_frame {c : Call} (hc : c.On fun k => ¬ P k) (h : c.replay m = some m') :
    SameOn P m m' :=
  replayAll_frame (Call.changes_on hc) h

end

/-! ### Calls and what they are replayed as -/

theorem Refines.unique {cfg : Config} {v : Columns} {m m' : RefMap} (h : Refines cfg v m)
    (h' : Refines cfg v m') : m = m' :=
  ExtTreeMap.ext_getElem? fun k => (h k).trans (h' k).symm

section

variable {env : Env} {cfg : Config} {s : Db} {m : RefMap} {c : Call}

theorem Call.work_eq_changes (hn : c ≠ .clearExpired) : c.work env s = c.changes := by
  cases c with
  | clearExpired => exact absurd rfl hn
  | _ => rfl

/-- A call does what the fold of its items does, and answers whether none of them is refused. -/
theorem Call.changes_refine (henv : env.Reliable) (hlaw : cfg.cipher.Lawful)
    (h : Refines cfg s.columns m) (hc : c.enters = true) (hn : c ≠ .clearExpired) :
    c.answer env cfg s = .bool (c.changes.foldlM RefMap.item m).isSome ∧
      Refines cfg (c.next env cfg s).columns ((c.changes.foldlM RefMap.item m).getD m) := by
  obtain ⟨ha, hr⟩ := Call.work_refines henv hlaw h hc hn
  rw [RefMap.call_work env s hc hn, Call.work_eq_changes hn] at ha hr
  cases hm : c.changes.foldlM RefMap.item m with
  | none =>
    rw [hm] at ha hr
    exact ⟨ha, hr⟩
  | some m' =>
    rw [hm] at ha hr
    exact ⟨ha, hr⟩

/-- A mutating call that answers `true` has the effect that it has when it is replayed. -/
theorem Call.replay_of_true (henv : env.Reliable) (hlaw : cfg.cipher.Lawful)
    (h : Refines cfg s.columns m) (hc : c.Mutates) (hok : c.answer env cfg s = .bool true) :
    ∃ m', c.replay m = some m' ∧ Refines cfg (c.next env cfg s).columns m' := by
  have hen := (Call.accepted_of_answer henv hc hok).1
  have hn : c ≠ .clearExpired := by
    rintro rfl
    exact hc
  obtain ⟨ha, hr⟩ := Call.changes_refine henv hlaw h hen hn
  rw [hok, Answer.bool.injEq] at ha
  obtain ⟨m', hm'⟩ := Option.isSome_iff_exists.1 ha.symm
  rw [hm'] at hr
  exact ⟨m', replayAll_of_items hm', hr⟩

end

/-! ### Keys that do not expire -/

/-- None of the keys that satisfy `P` has a time stamp, or an entry in the `expiring` column. -/
structure Store.Untimed (P : Bytes → Prop) (v : Columns) : Prop where
  /-- They have no time stamps. -/
  expiration : ∀ k, P k → v.get .expiration k = none
  /-- The entries of the `expiring` column are of other keys. -/
  expiring : ∀ x k, v.get .expiring x = some k → ¬ P (getKey k)

/-- The item gives no key that satisfies `P` an expiration. -/
def Item.LeavesUntimed (P : Bytes → Prop) : Item → Prop
  | .set d => P (getKey d.key) → d.options.expirationInSeconds = 0
  | .move d => P (getKey d.value) → P (getKey d.key) ∧ d.options.expirationInSeconds = 0
  | _ => True

/-- The call gives no key that satisfies `P` an expiration. -/
def Call.LeavesUntimed (P : Bytes → Prop) (c : Call) : Prop := ∀ i ∈ c.changes, i.LeavesUntimed P

section

variable {env : Env} {cfg : Config} {P : Bytes → Prop} {v cm : Columns}

theorem Store.Untimed.setEntry (h : v.Untimed P) {ks : Bytes} {opts : Options}
    (ho : P (getKey ks) → opts.expirationInSeconds = 0) (hks : getKey ks = ks) (value : Bytes)
    (t t1 : ℕ) : (v.setEntry cfg ks value opts t t1).Untimed P where
  expiration k hk := by
    rw [Store.setEntry_expiration, if_neg]
    · exact h.expiration k hk
    · rintro ⟨hne, rfl⟩
      exact hne (ho (hks.symm ▸ hk))
  expiring x k hx := by
    rw [Store.setEntry_expiring] at hx
    split_ifs at hx with hc
    · obtain rfl := Option.some.inj hx
      exact fun hk => hc.1 (ho hk)
    · exact h.expiring x k hx

theorem Store.Untimed.removeEntry (h : v.Untimed P) (ks : Bytes) (b : Bool) :
    (v.removeEntry ks b).Untimed P where
  expiration k hk := by
    rw [Store.removeEntry_expiration]
    split_ifs
    · rfl
    · exact h.expiration k hk
  expiring x k hx := by
    rw [Store.removeEntry_expiring] at hx
    exact h.expiring x k hx

theorem Store.Untimed.forget (h : v.Untimed P) (x : Bytes) : (v.delete .expiring x).Untimed P where
  expiration k hk := by
    rw [Store.get_delete_of_ne _ (by decide)]
    exact h.expiration k hk
  expiring y k hy := by
    by_cases hxy : x = y
    · subst hxy
      simp [Store.get_delete_same] at hy
    · rw [Store.get_delete_same, if_neg hxy] at hy
      exact h.expiring y k hy

theorem Item.untimed {i : Item} (hi : i.LeavesUntimed P) {s : IdealDb} (h : s.1.view.Untimed P)
    {as : List Action} (ha : i.actions env cfg s = some as) :
    (Store.actAll cfg cm s.1.view as).Untimed P := by
  cases i with
  | set d =>
    simp only [Item.actions] at ha
    split_ifs at ha
    obtain rfl := Option.some.inj ha
    exact h.setEntry (by rwa [getKey_getKey]) (getKey_getKey _) _ _ _
  | remove key =>
    obtain rfl := Option.some.inj ha
    exact h.removeEntry _ _
  | move d =>
    simp only [Item.actions] at ha
    split_ifs at ha
    cases hv : s.1.view.get .data (getKey d.key) with
    | none => simp [hv] at ha
    | some x =>
      rw [hv] at ha
      obtain rfl := Option.some.inj ha
      refine (h.removeEntry _ _).setEntry (fun hk => ?_) (getKey_getKey _) _ _ _
      -- the source has no time stamp that the destination could take over
      obtain ⟨hsrc, h0⟩ := hi (by rwa [getKey_getKey] at hk)
      rw [IdealDb.moveOpts_expiration, if_neg (by simp [h0]), Store.secondsLeft,
        h.expiration _ hsrc]
      rfl
  | expire entry =>
    obtain rfl := Option.some.inj ha
    exact (h.removeEntry _ _).forget _

theorem itemActions_untimed (henv : env.Reliable) {is : List Item}
    (hi : ∀ i ∈ is, i.LeavesUntimed P)
    {s : IdealDb} (h : s.1.view.Untimed P) {as : List Action}
    (ha : itemActions env cfg is s = some as) :
    (Store.actAll cfg s.1.committed s.1.view as).Untimed P := by
  induction is generalizing s as with
  | nil =>
    obtain rfl := Option.some.inj ha
    exact h
  | cons i is ih =>
    rw [List.forall_mem_cons] at hi
    cases ha₁ : i.actions env cfg s with
    | none => simp [itemActions, ha₁] at ha
    | some as₁ =>
      cases ha₂ : itemActions env cfg is (i.step env cfg s).2 with
      | none => simp [itemActions, ha₁, ha₂] at ha
      | some as₂ =>
        obtain rfl : as₁ ++ as₂ = as := by simpa [itemActions, ha₁, ha₂] using ha
        obtain ⟨l, hl, -⟩ := Item.step_accepted henv ha₁
        rw [hl] at ha₂
        rw [Store.actAll_append]
        exact ih hi.2 (Item.untimed hi.1 h ha₁) ha₂

/-- **Keys that no call gives an expiration do not expire.** -/
theorem Call.next_untimed (henv : env.Reliable) {c : Call} (hc : c.LeavesUntimed P) {s : Db}
    (h : s.columns.Untimed P) : (c.next env cfg s).columns.Untimed P := by
  have hi : ∀ i ∈ c.items env s, i.LeavesUntimed P := by
    intro i hi
    unfold Call.items at hi
    split_ifs at hi
    · by_cases hn : c = .clearExpired
      · subst hn
        obtain ⟨e, -, rfl⟩ := List.mem_map.1 hi
        trivial
      · rw [Call.work_eq_changes hn] at hi
        exact hc i hi
    · simp at hi
  rw [c.next_columns henv]
  cases ha : c.actions env cfg s with
  | none => exact h
  | some as => exact itemActions_untimed (s := c.start env s) henv hi h ha

/-- **The sweep leaves keys that do not expire alone**, in every environment. -/
theorem sweep_keeps (env : Env) (cfg : Config) {s : Db} (h : s.columns.Untimed P) {k : Bytes}
    (hk : P k) :
    (Call.clearExpired.next env cfg s).columns.get .data k = s.columns.get .data k := by
  refine (clearExpired_changesOnly env cfg s).data k ?_
  rintro ⟨e, he, rfl⟩
  exact h.expiring e.1 e.2 (Store.mem_below.1 he).1 hk

end

end ConfigDb
