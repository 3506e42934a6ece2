import Mathlib.Logic.Function.Basic
import Mathlib.Tactic.Common

/-!
# Tables of fields with defaults

A table under construction has a slot for every field.  Adding a value to a field writes its slot,
unless the value is the default of the field: then nothing is written.  Reading a field gives what
was written last, and the default if nothing was.

## Main results

* `Slots.read_add` : a field that is added once is read back; `Slots.read_add_self` : a field that
  is added again.
* `Slots.read_add_of_ne` : adding one field leaves the others alone.
-/

namespace ConfigDb

variable {F : Type} {V : F → Type}

/-- The slots of a table under construction. -/
structure Slots (V : F → Type) where
  /-- What has been written to a field. -/
  slot : (f : F) → Option (V f)

namespace Slots

/-- The table before anything is written. -/
def start : Slots V := ⟨fun _ => none⟩

section Read

variable (default : (f : F) → V f)

/-- The value of a field. -/
def read (s : Slots V) (f : F) : V f := (s.slot f).getD (default f)

@[simp] theorem read_start (f : F) : (start : Slots V).read default f = default f := rfl

theorem read_of_none {s : Slots V} {f : F} (h : s.slot f = none) :
    s.read default f = default f := by
  rw [read, h, Option.getD_none]

end Read

section Add

variable [DecidableEq F] [(f : F) → DecidableEq (V f)] (default : (f : F) → V f)

/-- Add a value to a field. -/
def add (s : Slots V) (f : F) (v : V f) : Slots V :=
  if v = default f then s else ⟨Function.update s.slot f (some v)⟩

@[simp] theorem slot_add_of_ne (s : Slots V) {f g : F} (h : g ≠ f) (v : V f) :
    (s.add default f v).slot g = s.slot g := by
  unfold add
  split_ifs
  · rfl
  · exact Function.update_of_ne h _ _

/-- What is added to a field is read back, unless it is the default: then the field is as before. -/
theorem read_add_self (s : Slots V) (f : F) (v : V f) :
    (s.add default f v).read default f = if v = default f then s.read default f else v := by
  unfold add
  split_ifs
  · rfl
  · simp [read]

/-- **What is added to a field that was not written before is read back.** -/
theorem read_add {s : Slots V} {f : F} (h : s.slot f = none) (v : V f) :
    (s.add default f v).read default f = v := by
  rw [read_add_self, read_of_none default h]
  split_ifs with hv
  · exact hv.symm
  · rfl

/-- The other fields are left alone. -/
theorem read_add_of_ne (s : Slots V) {f g : F} (h : g ≠ f) (v : V f) :
    (s.add default f v).read default g = s.read default g := by
  rw [read, slot_add_of_ne default s h, read]

end Add

end Slots

end ConfigDb
