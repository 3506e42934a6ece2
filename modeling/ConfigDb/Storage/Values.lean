import ConfigDb.Storage.Refinement
import ConfigDb.Storage.Replica

/-!
# What a successful call does to the values

In *every* environment, a mutating call that answers `true` has done to the values of the keys what
the reference map does.  Database calls may fail; but a lookup that does not fail tells the truth,
and a write to the `data` column that fails makes the call fail.  The other columns do not matter.

## Main definitions

* `RefMap.act`, `Call.effect` : what an item, and a call, do to the reference map once they are
  accepted.

## Main result

* `Call.effect_of_true` : a mutating call that answers `true` takes the columns from a map to its
  effect on the map.
-/

namespace ConfigDb

open Std Database

/-! ### The effect on the reference map -/

/-- What an accepted item does to the reference map. -/
def RefMap.act (m : RefMap) (i : Item) : RefMap := (m.item i.replay).getD m

/-- What an accepted call does to the reference map. -/
def Call.effect (m : RefMap) : Call → RefMap
  | .set d => m.act (.set d)
  | .remove key => m.act (.remove key)
  | .move d => m.act (.move d)
  | .setBatch kvs => kvs.foldl (fun m d => m.act (.set d)) m
  | .removeBatch keys => keys.foldl (fun m key => m.act (.remove key)) m
  | .moveBatch kvs => kvs.foldl (fun m d => m.act (.move d)) m
  | _ => m

@[simp] theorem RefMap.act_set (m : RefMap) (d : RequestData) :
    m.act (.set d) = m.insert (getKey d.key) d.value := by
  simp [RefMap.act, Item.replay, RefMap.item, RefMap.set, RequestData.unconditional]

@[simp] theorem RefMap.act_remove (m : RefMap) (key : Bytes) :
    m.act (.remove key) = m.erase (getKey key) := rfl

theorem RefMap.act_move {m : RefMap} {d : RequestData} {v : Bytes} (h : m[getKey d.key]? = some v) :
    m.act (.move d) = (m.erase (getKey d.key)).insert (getKey d.value) v := by
  simp [RefMap.act, Item.replay, RefMap.item, RefMap.move, RequestData.unconditional, h]

/-! ### Items in every environment -/

/-- The transaction of the store sees the values of the map `m`. -/
def Db.Sees (cfg : Config) (m : RefMap) (s : Db) : Prop := Refines cfg s.1.view m

/-- If the program answers `true`, it has taken what the transaction sees from `m` to `m'`. -/
abbrev Prog.Takes (env : Env) (cfg : Config) (m m' : RefMap) (p : DbProg Bool) : Prop :=
  p.Succeeds env.handle (Db.Sees cfg m) (Db.Sees cfg m')

/-- A call inside a transaction that leaves the `data` column alone. -/
def Op.OffData : DbOp → Prop
  | .store (.put .data _ _) => False
  | .store (.delete .data _) => False
  | .store .begin => False
  | .store .commit => False
  | .store .rollback => False
  | .store .release => False
  | _ => True

theorem Op.Aside.offData : ∀ e : DbOp, e.Aside → e.OffData
  | .store o => by
    cases o with
    | put c k v => cases c <;> simp [Op.Aside, Op.OffData]
    | delete c k => cases c <;> simp [Op.Aside, Op.OffData]
    | _ => simp [Op.Aside, Op.OffData]
  | .own _ => fun _ => trivial

theorem Op.Reads.offData : ∀ e : DbOp, e.Reads → e.OffData
  | .store o => by cases o <;> simp [Op.Reads, Op.OffData]
  | .own _ => fun _ => trivial

section

variable {env : Env} {cfg : Config} {m : RefMap}

/-- A call that does not write the `data` column leaves what the transaction sees of it alone. -/
theorem data_handle {e : DbOp} (he : e.OffData) (s : Db) (k : Bytes) :
    (env.handle e s).2.1.view.get .data k = s.1.view.get .data k := by
  cases e with
  | own x => rfl
  | store o =>
    cases o with
    | put c k' v =>
      have hc : Column.data ≠ c := by
        rintro rfl
        exact he
      simp only [Op.handle, TxnOp.handle]
      split_ifs
      · rfl
      · simp [TxnDb.view, TxnDb.tick, Store.apply, hc]
    | delete c k' =>
      have hc : Column.data ≠ c := by
        rintro rfl
        exact he
      simp only [Op.handle, TxnOp.handle]
      split_ifs
      · rfl
      · simp [TxnDb.view, TxnDb.tick, Store.apply, hc]
    | _ => first | exact he.elim | rfl

theorem Db.Sees.handle {s : Db} (h : s.Sees cfg m) (e : DbOp) (he : e.OffData) :
    (env.handle e s).2.Sees cfg m := by
  intro k
  rw [Store.value, data_handle he]
  exact h k

theorem Db.Sees.exec {s : Db} (h : s.Sees cfg m) {α : Type} {p : DbProg α}
    (hp : p.Only Op.OffData) :
    (exec env p s).2.Sees cfg m :=
  hp.run_invariant (I := Db.Sees cfg m) (fun e _ he ht => ht.handle e he) h

theorem takes_bind {m' : RefMap} {α : Type} {p : DbProg α} {f : α → DbProg Bool}
    (hp : p.Only Op.OffData) (hf : ∀ a, (f a).Takes env cfg m m') : (p >>= f).Takes env cfg m m' :=
  .bind (M := fun _ => Db.Sees cfg m) (fun _ hs => hs.exec hp) hf

theorem takes_offData {p : DbProg Bool} (hp : p.Only Op.OffData) : p.Takes env cfg m m :=
  fun _ hs _ => hs.exec hp

theorem takes_put (hlaw : cfg.cipher.Lawful) (ks value : Bytes) :
    (txnPut .data ks (cfg.cipher.encrypt value)).Takes env cfg m (m.insert ks value) := by
  intro s hs hok k
  have hv := (txnPut_accepted hok).1
  change _ = Store.value cfg (exec env (txnPut .data ks (cfg.cipher.encrypt value)) s).2.1.view k
  rw [Store.value, hv, ExtTreeMap.getElem?_insert, Store.get_put_same]
  by_cases hk : ks = k
  · simp [hk, hlaw value]
  · simpa [hk, Store.value] using hs k

theorem takes_delete (ks : Bytes) : (txnDelete .data ks).Takes env cfg m (m.erase ks) := by
  intro s hs hok k
  obtain ⟨-, -, ⟨-, hv⟩ | ⟨hf, -⟩⟩ := txnDelete_cases env .data ks s
  · change _ = Store.value cfg (exec env (txnDelete .data ks) s).2.1.view k
    rw [Store.value, hv, ExtTreeMap.getElem?_erase, Store.get_delete_same]
    by_cases hk : ks = k
    · simp [hk]
    · simpa [hk, Store.value] using hs k
  · exact absurd (hf.symm.trans hok) Bool.false_ne_true

theorem setExpiration_offData (ks : Bytes) (n : UInt32) :
    (setExpiration ks n).Only Op.OffData :=
  only_ite trivial (.bind (only_callOwn trivial) fun _ => .bind (only_callStore trivial) fun _ =>
    only_ite trivial (.bind (only_callOwn trivial) fun _ => only_callStore trivial))

theorem setTxn_takes (hlaw : cfg.cipher.Lawful) (key value : Bytes) (opts : Options) :
    (setTxn cfg key value opts).Takes env cfg m (m.insert (getKey key) value) := by
  refine .andThen (fun _ => rfl) (takes_offData (only_callOwn trivial)) ?_
  refine takes_bind ((refused_aside _ _).mono Op.Aside.offData) fun b => ?_
  cases b with
  | true => exact .pure_false
  | false =>
    refine .andThen (fun _ => rfl) (takes_put hlaw _ _) ?_
    refine .andThen (fun _ => rfl) (takes_offData ((enterKey_aside _ _).mono Op.Aside.offData)) ?_
    refine .andThen (fun _ => rfl) (takes_offData (setExpiration_offData _ _)) ?_
    exact takes_bind ((putValue_reads cfg _ _).mono Op.Reads.offData) fun _ =>
      .pure_true fun _ => id

theorem removeTxn_takes (key : Bytes) :
    (removeTxn cfg key true).Takes env cfg m (m.erase (getKey key)) := by
  refine .andThen (fun _ => rfl) (takes_delete _) ?_
  refine .andThen (fun _ => rfl) (takes_offData (only_callStore trivial)) ?_
  refine .andThen (fun _ => rfl) (takes_offData ((removeEntry_aside _).mono Op.Aside.offData)) ?_
  exact takes_bind ((eraseValue_reads cfg _).mono Op.Reads.offData) fun _ => .pure_true fun _ => id

/-- A move sets the destination to what it has read of the source, and a lookup that does not fail
tells the truth. -/
theorem moveTxn_takes (hlaw : cfg.cipher.Lawful) (d : RequestData) :
    (moveTxn cfg d.key d.value d.options).Takes env cfg m (m.act (.move d)) := by
  refine .andThen (fun _ => rfl) (takes_offData (only_callOwn trivial)) ?_
  refine takes_bind ((refused_aside _ _).mono Op.Aside.offData) fun b => ?_
  cases b with
  | true => exact .pure_false
  | false =>
    refine .bind (M := fun r s => s.Sees cfg m ∧
      ∀ v, r = .ok v → m[getKey d.key]? = some (cfg.cipher.decrypt v)) (fun s hs => ?_) fun r => ?_
    · refine ⟨hs.exec (p := txnGet .data (getKey d.key)) (only_callStore trivial), fun v hv => ?_⟩
      have hr : (if env.fails s.1.calls .lookup then Reply.error
          else .ofOption (s.1.view.get .data (getKey d.key))) = .ok v := hv
      split_ifs at hr
      cases hg : s.1.view.get .data (getKey d.key) with
      | none => simp [hg] at hr
      | some w =>
        obtain rfl : w = v := by simpa [hg] using hr
        rw [hs (getKey d.key), Store.value, hg, Option.map_some]
    · cases r with
      | ok v =>
        rintro s ⟨hs, hv⟩ hok
        have hm := RefMap.act_move (hv v rfl)
        refine takes_bind ?_ (fun _ => ?_) s hs hok
        · exact only_callStore trivial
        rw [hm]
        refine takes_bind ((moveExpiration_aside _ _).mono Op.Aside.offData) fun _ => ?_
        refine .andThen (fun _ => rfl) (removeTxn_takes _) ?_
        refine .andThen (fun _ => rfl) (setTxn_takes hlaw _ _ _) ?_
        rw [getKey_getKey, getKey_getKey]
        exact .pure_true fun _ => id
      | notFound => exact .pure_false
      | error => exact .pure_false

theorem forAll_takes {β : Type} {f : β → DbProg Bool} {act : RefMap → β → RefMap}
    (hf : ∀ m b, (f b).Takes env cfg m (act m b)) (bs : List β) :
    (forAll f bs).Takes env cfg m (bs.foldl act m) := by
  induction bs generalizing m with
  | nil => exact .pure_true fun _ => id
  | cons b bs ih => exact .andThen (fun _ => rfl) (hf m b) ih

/-! ### Transactions and calls -/

theorem withTxn_takes {m' : RefMap} {work : DbProg Bool} (hw : work.Takes env cfg m m') {s : Db}
    (h : Refines cfg s.columns m) (hok : (exec env (withTxn work) s).1 = true) :
    Refines cfg (exec env (withTxn work) s).2.columns m' := by
  have hb : (exec env beginTransaction s).2.Sees cfg m := h
  have hs := hw _ hb
  change (exec env work (exec env beginTransaction s).2).1 = true →
    (exec env work (exec env beginTransaction s).2).2.Sees cfg m' at hs
  simp only [withTxn, exec_bind, exec_pure] at hok ⊢
  generalize exec env work (exec env beginTransaction s).2 = r at hs hok ⊢
  obtain ⟨saved, t⟩ := r
  cases saved with
  | false => exact absurd hok Bool.false_ne_true
  | true =>
    change (exec env txnCommit t).1 = true at hok
    change Refines cfg (exec env txnCommit t).2.columns m'
    simp only [exec, txnCommit, callStore, Prog.run_perform, Op.handle, TxnOp.handle] at hok ⊢
    split_ifs at hok ⊢
    exact hs rfl

/-- **A successful call has its effect on the values**, in every environment. -/
theorem Call.effect_of_true (hlaw : cfg.cipher.Lawful) {c : Call} (hc : c.Mutates) {s : Db}
    (h : Refines cfg s.columns m) (hok : c.answer env cfg s = .bool true) :
    Refines cfg (c.next env cfg s).columns (c.effect m) := by
  have htxn {work : DbProg Bool} {m' : RefMap} (hw : work.Takes env cfg m m')
      (hp : c.prog cfg = .bool <$> withMutex cfg true (withTxn work)) :
      Refines cfg (c.next env cfg s).columns m' := by
    simp only [Call.answer, Call.next, hp, exec_map, exec_withMutex, Answer.bool.injEq] at hok ⊢
    exact withTxn_takes hw h hok
  -- a call that returns before its transaction answers `false`
  cases hen : c.enters with
  | false => simp [Call.answer, Call.prog_of_not_enters hc hen] at hok
  | true =>
    cases c with
    | set d =>
      rw [Call.effect, RefMap.act_set]
      simp only [Call.enters, Bool.and_eq_true, Bool.not_eq_true'] at hen
      refine htxn (setTxn_takes hlaw d.key d.value d.options) ?_
      simp only [Call.prog, Database.set, hen.1, hen.2, Bool.false_eq_true, if_false]
    | remove key =>
      rw [Call.effect, RefMap.act_remove]
      simp only [Call.enters, Bool.not_eq_true'] at hen
      refine htxn (removeTxn_takes key) ?_
      simp only [Call.prog, Database.remove, hen, Bool.false_eq_true, if_false]
    | move d =>
      simp only [Call.enters, Bool.and_eq_true, Bool.not_eq_true'] at hen
      refine htxn (moveTxn_takes hlaw d) ?_
      simp only [Call.prog, Database.move, hen.1, hen.2, Bool.false_eq_true, if_false]
    | setBatch kvs =>
      simp only [Call.effect, RefMap.act_set]
      exact htxn (forAll_takes (fun _ d => setTxn_takes hlaw d.key d.value d.options) kvs) rfl
    | removeBatch keys =>
      simp only [Call.effect, RefMap.act_remove]
      exact htxn (forAll_takes (fun _ key => removeTxn_takes key) keys) rfl
    | moveBatch kvs => exact htxn (forAll_takes (fun _ d => moveTxn_takes hlaw d) kvs) rfl
    | _ => exact hc.elim

end

end ConfigDb
