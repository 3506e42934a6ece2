import ConfigDb.Storage.Items

/-!
# The store refines a map

The reference is a finite map on normalised keys, without tree, expiry, cipher and transactions:
`set` is an insertion, `remove` a deletion, `move` a lookup, a deletion and an insertion, and a
batch is the fold of its items, all or nothing.  The store gives the same answers over every
sequence of calls (`store_refines_map`).

The proof relates the `data` column of the view of a transaction to the reference map after every
item; the relation `Refines` carries it through a batch, and from call to call.
-/

namespace ConfigDb

open Std Database

/-! ### The reference -/

/-- The reference map. -/
abbrev RefMap := ExtTreeMap Bytes Bytes

namespace RefMap

/-- `set` is refused by `ifNotExists` if the key is present. -/
def set (m : RefMap) (d : RequestData) : Option RefMap :=
  if d.options.ifNotExists && m.contains (getKey d.key) then none
  else some (m.insert (getKey d.key) d.value)

/-- `remove` never fails. -/
def remove (m : RefMap) (key : Bytes) : Option RefMap := some (m.erase (getKey key))

/-- `move` is refused by `ifNotExists` if the destination is present, and if the source is
absent. -/
def move (m : RefMap) (d : RequestData) : Option RefMap :=
  if d.options.ifNotExists && m.contains (getKey d.value) then none
  else match m[getKey d.key]? with
    | none => none
    | some v => some ((m.erase (getKey d.key)).insert (getKey d.value) v)

/-- One item of a call. -/
def item (m : RefMap) : Item → Option RefMap
  | .set d => m.set d
  | .remove key => m.remove key
  | .move d => m.move d
  | .expire entry => m.remove entry.2

/-- A call that takes effect entirely or not at all. -/
def settle (m : RefMap) : Option RefMap → Answer × RefMap
  | some m' => (.bool true, m')
  | none => (.bool false, m)

/-- The calls on the reference map: the answer, and the map afterwards. -/
def call (m : RefMap) : Call → Answer × RefMap
  | .get key => (.value m[getKey key]?, m)
  | .getBatch keys => (.values (keys.map fun key => (getKey key, m[getKey key]?)), m)
  | .set d => m.settle (m.set d)
  | .remove key => m.settle (m.remove key)
  | .move d => m.settle (m.move d)
  | .setBatch kvs => m.settle (kvs.foldlM set m)
  | .removeBatch keys => m.settle (keys.foldlM remove m)
  | .moveBatch kvs => m.settle (kvs.foldlM move m)
  -- the tree and the expiry are not part of the reference
  | _ => (.unit, m)

/-- The answers to a sequence of calls. -/
def answers (m : RefMap) : List Call → List Answer
  | [] => []
  | c :: cs => (m.call c).1 :: answers (m.call c).2 cs

end RefMap

/-- The answers of the store to a sequence of calls. -/
def answers (env : Env) (cfg : Config) (s : Db) : List Call → List Answer
  | [] => []
  | c :: cs => c.answer env cfg s :: answers env cfg (c.next env cfg s) cs

/-- The calls and arguments that the reference describes: non-empty keys, no expiration and no
cache entries. -/
def Call.Plain : Call → Prop
  | .get key => key ≠ []
  | .getBatch keys => ∀ key ∈ keys, key ≠ []
  | .set d => d.key ≠ [] ∧ d.options.expirationInSeconds = 0 ∧ d.options.cache = false
  | .remove key => key ≠ []
  | .move d => (d.key ≠ [] ∧ d.value ≠ []) ∧ d.options.expirationInSeconds = 0 ∧
      d.options.cache = false
  | .setBatch kvs => ∀ d ∈ kvs, d.key ≠ [] ∧ d.options.expirationInSeconds = 0 ∧
      d.options.cache = false
  | .removeBatch keys => ∀ key ∈ keys, key ≠ []
  | .moveBatch kvs => ∀ d ∈ kvs, (d.key ≠ [] ∧ d.value ≠ []) ∧
      d.options.expirationInSeconds = 0 ∧ d.options.cache = false
  | _ => False

/-! ### The refinement relation -/

/-- The columns hold what the reference map does, encrypted. -/
def Refines (cfg : Config) (v : Columns) (m : RefMap) : Prop := ∀ k, m[k]? = v.value cfg k

section

variable {env : Env} {cfg : Config} {v cm : Columns} {m : RefMap}

theorem Refines.contains (h : Refines cfg v m) (k : Bytes) :
    m.contains k = (v.get .data k).isSome := by
  have hk := congrArg Option.isSome (h k)
  rw [Store.value, Option.isSome_map] at hk
  rw [← hk, ExtTreeMap.isSome_getElem?_eq_contains]

theorem Refines.insert (hlaw : cfg.cipher.Lawful) (h : Refines cfg v m) (ks value : Bytes)
    (opts : Options) (t t1 : ℕ) :
    Refines cfg (v.setEntry cfg ks value opts t t1) (m.insert ks value) := by
  intro k
  rw [ExtTreeMap.getElem?_insert, Store.value, Store.setEntry_data]
  by_cases hk : ks = k
  · simp [hk, hlaw value]
  · simpa [hk, Store.value] using h k

theorem Refines.erase (h : Refines cfg v m) (ks : Bytes) (b : Bool) :
    Refines cfg (v.removeEntry ks b) (m.erase ks) := by
  intro k
  rw [ExtTreeMap.getElem?_erase, Store.value, Store.removeEntry_data]
  by_cases hk : ks = k
  · simp [hk]
  · simpa [hk, Store.value] using h k

/-- **One item**: the store and the reference both refuse it, or both accept it and stay related. -/
theorem Item.refines (hlaw : cfg.cipher.Lawful) {s : IdealDb} (h : Refines cfg s.1.view m)
    (i : Item) : Option.Rel
      (fun as m' => Refines cfg (Store.actAll cfg s.1.committed s.1.view as) m')
      (i.actions env cfg s) (m.item i) := by
  cases i with
  | set d =>
    simp only [Item.actions, RefMap.item, RefMap.set, h.contains]
    split_ifs
    · exact .none
    · exact .some (h.insert hlaw _ _ _ _ _)
  | remove key => exact .some (h.erase _ _)
  | move d =>
    simp only [Item.actions, RefMap.item, RefMap.move, h.contains, h (getKey d.key), Store.value]
    split_ifs
    · exact .none
    · cases s.1.view.get .data (getKey d.key) with
      | none => exact .none
      | some v => exact .some ((h.erase _ _).insert hlaw _ _ _ _ _)
  | expire entry =>
    refine .some fun k => ?_
    have hk := h.erase (getKey entry.2) (s.marked (getKey entry.2)) k
    rw [hk, Store.value, Store.value]
    exact congrArg _ (Store.get_delete_of_ne _ (by decide) _ _).symm

/-- **A list of items**, likewise. -/
theorem itemActions_refines (henv : env.Reliable) (hlaw : cfg.cipher.Lawful) {s : IdealDb}
    (h : Refines cfg s.1.view m) (is : List Item) :
    Option.Rel (fun as m' => Refines cfg (Store.actAll cfg s.1.committed s.1.view as) m')
      (itemActions env cfg is s) (is.foldlM RefMap.item m) := by
  induction is generalizing s m with
  | nil => exact .some h
  | cons i is ih =>
    have hi : Option.Rel _ (i.actions env cfg s) (m.item i) := i.refines hlaw h
    rw [itemActions, List.foldlM_cons]
    cases ha : i.actions env cfg s with
    | none =>
      rw [ha] at hi
      cases hm : m.item i with
      | none => exact .none
      | some m' => rw [hm] at hi; cases hi
    | some as =>
      rw [ha] at hi
      cases hm : m.item i with
      | none => rw [hm] at hi; cases hi
      | some m' =>
        rw [hm] at hi
        obtain ⟨hv⟩ := hi
        obtain ⟨l, hl, -⟩ := Item.step_accepted henv ha
        have hr := ih (s := (i.step env cfg s).2) (m := m') (by rw [hl]; exact hv)
        simp only [Option.bind_eq_bind, Option.bind_some]
        cases hb : itemActions env cfg is (i.step env cfg s).2 with
        | none =>
          rw [hb] at hr
          cases hf : is.foldlM RefMap.item m' with
          | none => exact .none
          | some m'' => rw [hf] at hr; cases hr
        | some bs =>
          rw [hb] at hr
          cases hf : is.foldlM RefMap.item m' with
          | none => rw [hf] at hr; cases hr
          | some m'' =>
            rw [hf] at hr
            obtain ⟨hw⟩ := hr
            refine .some ?_
            rw [Store.actAll_append]
            rw [hl] at hw
            exact hw

/-! ### Calls -/

theorem RefMap.call_work (env : Env) (s : Db) {c : Call} (hc : c.enters = true)
    (hn : c ≠ .clearExpired) (m : RefMap) :
    m.call c = m.settle ((c.work env s).foldlM RefMap.item m) := by
  cases c with
  | set d => simp [RefMap.call, Call.work, RefMap.item]
  | remove key => simp [RefMap.call, Call.work, RefMap.item]
  | move d => simp [RefMap.call, Call.work, RefMap.item]
  | setBatch kvs => rw [Call.work, List.foldlM_map]; rfl
  | removeBatch keys => rw [Call.work, List.foldlM_map]; rfl
  | moveBatch kvs => rw [Call.work, List.foldlM_map]; rfl
  | clearExpired => exact absurd rfl hn
  | _ => simp [Call.enters] at hc

theorem Call.work_refines (henv : env.Reliable) (hlaw : cfg.cipher.Lawful) {s : Db}
    (h : Refines cfg s.columns m) {c : Call} (hc : c.enters = true) (hn : c ≠ .clearExpired) :
    c.answer env cfg s = (m.call c).1 ∧ Refines cfg (c.next env cfg s).columns (m.call c).2 := by
  have hi : c.items env s = c.work env s := if_pos hc
  have hr := itemActions_refines (s := c.start env s) henv hlaw h (c.work env s)
  rw [c.answer_ideal henv, c.exec_work hc hn, RefMap.call_work env s hc hn, c.next_columns henv,
    Call.actions, hi]
  cases ha : itemActions env cfg (c.work env s) (c.start env s) with
  | none =>
    rw [ha] at hr
    cases hm : (c.work env s).foldlM RefMap.item m with
    | none => exact ⟨congrArg Answer.bool (runItems_refused henv ha), h⟩
    | some m' => rw [hm] at hr; cases hr
  | some as =>
    rw [ha] at hr
    cases hm : (c.work env s).foldlM RefMap.item m with
    | none => rw [hm] at hr; cases hr
    | some m' =>
      rw [hm] at hr
      obtain ⟨hv⟩ := hr
      obtain ⟨l, hl, -⟩ := runItems_accepted henv ha
      exact ⟨by rw [hl]; rfl, hv⟩

theorem Call.Plain.enters {c : Call} (hc : c.Plain) :
    (∃ key, c = .get key ∧ key ≠ []) ∨ (∃ keys, c = .getBatch keys) ∨
      (c.enters = true ∧ c ≠ .clearExpired) := by
  cases c with
  | get key => exact .inl ⟨key, rfl, hc⟩
  | getBatch keys => exact .inr (.inl ⟨keys, rfl⟩)
  | set d => exact .inr (.inr ⟨by simp [Call.enters, hc.1, hc.2.2], by simp⟩)
  | remove key => exact .inr (.inr ⟨by
      simp only [Call.Plain] at hc
      simpa [Call.enters] using hc, by simp⟩)
  | move d => exact .inr (.inr ⟨by simp [Call.enters, hc.1.1, hc.1.2], by simp⟩)
  | setBatch kvs => exact .inr (.inr ⟨rfl, by simp⟩)
  | removeBatch keys => exact .inr (.inr ⟨rfl, by simp⟩)
  | moveBatch kvs => exact .inr (.inr ⟨rfl, by simp⟩)
  | _ => exact hc.elim

/-- **One call** answers like the reference and stays related to it. -/
theorem Call.refines (henv : env.Reliable) (hlaw : cfg.cipher.Lawful)
    (hcache : cfg.enableCache = false) {s : Db} (h : Refines cfg s.columns m) {c : Call}
    (hc : c.Plain) :
    c.answer env cfg s = (m.call c).1 ∧ Refines cfg (c.next env cfg s).columns (m.call c).2 := by
  have hl : ∀ k, s.ideal.cacheLookup cfg k = none := fun k => by simp [IdealDb.cacheLookup, hcache]
  have hm : ∀ k, s.ideal.1.committed.value cfg k = m[k]? := fun k => (h k).symm
  obtain ⟨key, rfl, hk⟩ | ⟨keys, rfl⟩ | ⟨he, hn⟩ := hc.enters
  · refine ⟨?_, ?_⟩
    · rw [Call.answer_ideal henv, Call.prog, execIdeal_map, get_ideal henv hk, hl, hm, RefMap.call]
      cases m[getKey key]? <;> rfl
    · rw [Call.next, (exec_reads (Call.reads_of_not_enters (c := .get key) rfl)).1]
      exact h
  · refine ⟨?_, ?_⟩
    · rw [Call.answer_ideal henv, Call.prog, execIdeal_map, getBatch_ideal henv, RefMap.call]
      simp [hl, hm]
    · rw [Call.next, (exec_reads (Call.reads_of_not_enters (c := .getBatch keys) rfl)).1]
      exact h
  · exact Call.work_refines henv hlaw h he hn

theorem answers_refine (henv : env.Reliable) (hlaw : cfg.cipher.Lawful)
    (hcache : cfg.enableCache = false) (cs : List Call) (hcs : ∀ c ∈ cs, c.Plain) {s : Db}
    {m : RefMap} (h : Refines cfg s.columns m) : answers env cfg s cs = m.answers cs := by
  induction cs generalizing s m with
  | nil => rfl
  | cons c cs ih =>
    rw [List.forall_mem_cons] at hcs
    obtain ⟨ha, hr⟩ := Call.refines henv hlaw hcache h hcs.1
    rw [answers, RefMap.answers, ha, ih hcs.2 hr]

end

/-- **The store refines a plain map.**  Started empty, without value cache, and as long as no
database call fails, it answers every sequence of plain calls as the reference map does. -/
theorem store_refines_map (env : Env) (henv : env.Reliable) (cfg : Config)
    (hcache : cfg.enableCache = false) (hlaw : cfg.cipher.Lawful) (n : ℕ) (cs : List Call)
    (hcs : ∀ c ∈ cs, c.Plain) :
    answers env cfg (Db.init n) cs = RefMap.answers ∅ cs :=
  answers_refine henv hlaw hcache cs hcs fun k => by
    simp [Store.value]

/-- A batch that moves `/a` to `/b` and `/b` to `/c`, and one that is refused at its second item. -/
theorem store_refines_map_moves :
    let cs : List Call := [.set ⟨[97], [1], {}⟩,
      .moveBatch [⟨[97], [98], {}⟩, ⟨[98], [99], {}⟩],
      .setBatch [⟨[97], [2], {}⟩, ⟨[99], [3], { ifNotExists := true }⟩], .get [47, 97], .get [99]]
    answers (.reliable fun _ => 0) (.plain false) (Db.init 1) cs = RefMap.answers ∅ cs ∧
      RefMap.answers ∅ cs =
        [.bool true, .bool true, .bool false, .value none, .value (some [1])] :=
  ⟨store_refines_map _ (Env.reliable_reliable _) _ rfl (Config.plain_lawful _) _ _
    (by simp [Call.Plain]), by decide⟩

end ConfigDb
