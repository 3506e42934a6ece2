import Mathlib

/-!
# Column stores and transactions over them

A store has a fixed set `C` of columns; column `c` is a finite ordered map from keys `K` to
values `V c`.  A transaction collects *writes* (puts and deletes) that are applied to the
committed store all at once when it commits; until then it reads the committed store with its
own writes laid over it.

## Main definitions

* `Store K V` : the columns.
* `Write K V` : one put or delete; `Write.loc` is the location it writes.
* `Store.applyAll` : laying a list of writes over a store.
* `Store.AgreeOn P` : two stores agree on the locations satisfying `P`.

## Main results

* `Store.get_applyAll_of_notMem` : writes leave every location they do not name alone.
* `Store.AgreeOn.applyAll` : the same writes laid over agreeing stores give agreeing stores.
-/

namespace ConfigDb

open Std

variable {C K : Type} {V : C → Type}

/-- A column store: for every column a finite map from keys to the column's values. -/
abbrev Store (K : Type) [Ord K] (V : C → Type) := (c : C) → ExtTreeMap K (V c)

/-- One write of a transaction. -/
inductive Write (K : Type) (V : C → Type)
  /-- Store `v` under `k` in column `c`. -/
  | put (c : C) (k : K) (v : V c)
  /-- Remove `k` from column `c`. -/
  | delete (c : C) (k : K)

/-- The location a write names. -/
def Write.loc : Write K V → C × K
  | .put c k _ => (c, k)
  | .delete c k => (c, k)

@[simp] theorem Write.loc_put (c : C) (k : K) (v : V c) : (Write.put c k v).loc = (c, k) := rfl

@[simp] theorem Write.loc_delete (c : C) (k : K) :
    (Write.delete c k : Write K V).loc = (c, k) := rfl

namespace Store

variable [Ord K]

/-- The store without entries. -/
def empty : Store K V := fun _ => ∅

variable [TransOrd K]

/-- The value stored under `k` in column `c`. -/
def get (s : Store K V) (c : C) (k : K) : Option (V c) := (s c)[k]?

@[simp] theorem get_empty (c : C) (k : K) : (empty : Store K V).get c k = none := by
  simp [get, empty]

variable [DecidableEq C]

/-- Store `v` under `k` in column `c`. -/
def put (s : Store K V) (c : C) (k : K) (v : V c) : Store K V :=
  Function.update s c ((s c).insert k v)

/-- Remove `k` from column `c`. -/
def delete (s : Store K V) (c : C) (k : K) : Store K V :=
  Function.update s c ((s c).erase k)

/-- Apply one write. -/
def apply (s : Store K V) : Write K V → Store K V
  | .put c k v => s.put c k v
  | .delete c k => s.delete c k

/-- Lay a list of writes, oldest first, over a store. -/
def applyAll (s : Store K V) (ws : List (Write K V)) : Store K V := ws.foldl apply s

/-! ### Columns after a write -/

@[simp] theorem put_same (s : Store K V) (c : C) (k : K) (v : V c) :
    s.put c k v c = (s c).insert k v := by
  simp [put]

@[simp] theorem put_of_ne (s : Store K V) {c c' : C} (h : c' ≠ c) (k : K) (v : V c) :
    s.put c k v c' = s c' := by
  simp [put, h]

@[simp] theorem delete_same (s : Store K V) (c : C) (k : K) :
    s.delete c k c = (s c).erase k := by
  simp [delete]

@[simp] theorem delete_of_ne (s : Store K V) {c c' : C} (h : c' ≠ c) (k : K) :
    s.delete c k c' = s c' := by
  simp [delete, h]

@[simp] theorem get_put_of_ne (s : Store K V) {c c' : C} (h : c' ≠ c) (k k' : K) (v : V c) :
    (s.put c k v).get c' k' = s.get c' k' := by
  simp [get, h]

@[simp] theorem get_delete_of_ne (s : Store K V) {c c' : C} (h : c' ≠ c) (k k' : K) :
    (s.delete c k).get c' k' = s.get c' k' := by
  simp [get, h]

variable [LawfulEqOrd K] [DecidableEq K]

@[simp] theorem get_put_same (s : Store K V) (c : C) (k k' : K) (v : V c) :
    (s.put c k v).get c k' = if k = k' then some v else s.get c k' := by
  simp [get, ExtTreeMap.getElem?_insert]

@[simp] theorem get_delete_same (s : Store K V) (c : C) (k k' : K) :
    (s.delete c k).get c k' = if k = k' then none else s.get c k' := by
  simp [get, ExtTreeMap.getElem?_erase]

omit [DecidableEq C] [DecidableEq K] in
theorem ext_col {s t : Store K V} {c : C} (h : ∀ k, s.get c k = t.get c k) : s c = t c :=
  ExtTreeMap.ext_getElem? h

/-! ### Laying writes over a store -/

omit [LawfulEqOrd K] [DecidableEq K] in
@[simp] theorem applyAll_nil (s : Store K V) : s.applyAll [] = s := rfl

omit [LawfulEqOrd K] [DecidableEq K] in
theorem applyAll_append (s : Store K V) (ws ws' : List (Write K V)) :
    s.applyAll (ws ++ ws') = (s.applyAll ws).applyAll ws' := by
  simp [applyAll]

omit [LawfulEqOrd K] [DecidableEq K] in
@[simp] theorem applyAll_snoc (s : Store K V) (ws : List (Write K V)) (w : Write K V) :
    s.applyAll (ws ++ [w]) = (s.applyAll ws).apply w := by
  simp [applyAll]

theorem get_apply_of_ne (s : Store K V) {w : Write K V} {c : C} {k : K} (h : w.loc ≠ (c, k)) :
    (s.apply w).get c k = s.get c k := by
  cases w with
  | put c' k' v =>
    by_cases hc : c = c'
    · subst hc
      have hk : k' ≠ k := fun hk => h (by simp [hk])
      simp [apply, hk]
    · simp [apply, hc]
  | delete c' k' =>
    by_cases hc : c = c'
    · subst hc
      have hk : k' ≠ k := fun hk => h (by simp [hk])
      simp [apply, hk]
    · simp [apply, hc]

/-- **Frame**: laying writes over a store changes only the locations they name. -/
theorem get_applyAll_of_notMem (s : Store K V) {ws : List (Write K V)} {c : C} {k : K}
    (h : (c, k) ∉ ws.map Write.loc) : (s.applyAll ws).get c k = s.get c k := by
  induction ws generalizing s with
  | nil => rfl
  | cons w ws ih =>
    rw [List.map_cons, List.mem_cons, not_or] at h
    change ((s.apply w).applyAll ws).get c k = _
    rw [ih _ h.2, get_apply_of_ne _ (Ne.symm h.1)]

/-- The two stores agree on the locations that satisfy `P`. -/
def AgreeOn (P : C × K → Prop) (s t : Store K V) : Prop :=
  ∀ c k, P (c, k) → s.get c k = t.get c k

omit [DecidableEq C] [LawfulEqOrd K] [DecidableEq K] in
theorem AgreeOn.mono {P Q : C × K → Prop} {s t : Store K V} (h : AgreeOn Q s t)
    (hPQ : ∀ l, P l → Q l) : AgreeOn P s t :=
  fun c k hl => h c k (hPQ _ hl)

theorem AgreeOn.apply {P : C × K → Prop} {s t : Store K V} (h : AgreeOn P s t)
    (w : Write K V) : AgreeOn P (s.apply w) (t.apply w) := by
  intro c k hl
  by_cases hw : w.loc = (c, k)
  · cases w with
    | put c' k' v =>
      obtain ⟨rfl, rfl⟩ := Prod.mk.injEq .. ▸ hw
      simp [Store.apply]
    | delete c' k' =>
      obtain ⟨rfl, rfl⟩ := Prod.mk.injEq .. ▸ hw
      simp [Store.apply]
  · rw [get_apply_of_ne _ hw, get_apply_of_ne _ hw, h c k hl]

/-- The same writes laid over two stores that agree on `P` give stores that agree on `P`. -/
theorem AgreeOn.applyAll {P : C × K → Prop} {s t : Store K V} (h : AgreeOn P s t)
    (ws : List (Write K V)) : AgreeOn P (s.applyAll ws) (t.applyAll ws) := by
  induction ws generalizing s t with
  | nil => exact h
  | cons w ws ih => exact ih (h.apply w)

end Store

end ConfigDb
