import Mathlib.Data.Nat.Bitwise

/-!
# The Morton order

The Morton code of two numbers interleaves their bits.  To compare two codes it is enough to find
the number in which the highest bit differs, and to compare that number; and the highest bit of `x`
is below the highest bit of `y` if and only if `x < y` and `x < x ^^^ y`.  So codes are compared
without computing them.

## Main definitions

* `Morton.code` : the code.
* `Morton.below` : the test for the highest bits.

## Main results

* `Morton.code_injective` : pairs of numbers below `2 ^ w` have different codes.
* `Morton.code_lt_iff` : how codes are compared.
-/

namespace ConfigDb

namespace Morton

/-- The highest bit of `x` is below the highest bit of `y`. -/
def below (x y : ℕ) : Prop := x < y ∧ x < x ^^^ y

instance (x y : ℕ) : Decidable (below x y) := inferInstanceAs (Decidable (_ ∧ _))

/-- The last `w` bits of two numbers, interleaved. -/
def code : ℕ → ℕ → ℕ → ℕ
  | 0, _, _ => 0
  | w + 1, a, b => 4 * code w (a / 2) (b / 2) + (2 * (a % 2) + b % 2)

variable {w a b a' b' x y : ℕ}

theorem xor_eq_double (a b : ℕ) : a ^^^ b = 2 * (a / 2 ^^^ b / 2) + (a + b) % 2 := by
  have hdiv : (a ^^^ b) / 2 = a / 2 ^^^ b / 2 := Nat.xor_div_two
  have hmod : (a ^^^ b) % 2 = (a + b) % 2 := Nat.xor_mod_two_eq
  rw [← hdiv, ← hmod, Nat.div_add_mod]

theorem below_zero (hy : y ≠ 0) : below 0 y := by
  rw [below, Nat.zero_xor]
  exact ⟨Nat.pos_of_ne_zero hy, Nat.pos_of_ne_zero hy⟩

theorem not_below_zero (x : ℕ) : ¬ below x 0 := fun h => Nat.not_lt_zero x h.1

/-- Only the highest bits matter: the last ones can be cut off, if these are not all there is. -/
theorem below_div_two (h : x / 2 ≠ 0 ∨ y / 2 ≠ 0) : below x y ↔ below (x / 2) (y / 2) := by
  have hxor := xor_eq_double x y
  unfold below
  constructor
  · rintro ⟨hlt, hlt'⟩
    -- equal halves would have `x ^^^ y` below 2
    have hne : x / 2 ≠ y / 2 := by
      intro heq
      rw [heq, Nat.xor_self] at hxor
      omega
    have hne' : x / 2 ≠ x / 2 ^^^ y / 2 := by
      intro heq
      have hzero : y / 2 = 0 := by
        have hself : x / 2 ^^^ (x / 2 ^^^ y / 2) = y / 2 := by
          rw [← Nat.xor_assoc, Nat.xor_self, Nat.zero_xor]
        rw [← heq, Nat.xor_self] at hself
        exact hself.symm
      omega
    omega
  · rintro ⟨hlt, hlt'⟩
    omega

/-- **Different pairs have different codes.** -/
theorem code_injective (ha : a < 2 ^ w) (hb : b < 2 ^ w) (ha' : a' < 2 ^ w) (hb' : b' < 2 ^ w)
    (h : code w a b = code w a' b') : a = a' ∧ b = b' := by
  induction w generalizing a b a' b' with
  | zero => omega
  | succ w ih =>
    rw [code, code] at h
    obtain ⟨hhalf, hhalf'⟩ := @ih (a / 2) (b / 2) (a' / 2) (b' / 2) (by omega) (by omega)
      (by omega) (by omega) (by omega)
    omega

/-- **Codes are compared** by the number in which the highest bit differs. -/
theorem code_lt_iff (ha : a < 2 ^ w) (hb : b < 2 ^ w) (ha' : a' < 2 ^ w) (hb' : b' < 2 ^ w) :
    code w a b < code w a' b' ↔ if below (a ^^^ a') (b ^^^ b') then b < b' else a < a' := by
  induction w generalizing a b a' b' with
  | zero =>
    obtain ⟨rfl, rfl⟩ : a = 0 ∧ b = 0 := by omega
    obtain ⟨rfl, rfl⟩ : a' = 0 ∧ b' = 0 := by omega
    decide
  | succ w ih =>
    have hhalf := @ih (a / 2) (b / 2) (a' / 2) (b' / 2) (by omega) (by omega) (by omega) (by omega)
    have hxor := xor_eq_double a a'
    have hxor' := xor_eq_double b b'
    have hdiv : (a ^^^ a') / 2 = a / 2 ^^^ a' / 2 := Nat.xor_div_two
    have hdiv' : (b ^^^ b') / 2 = b / 2 ^^^ b' / 2 := Nat.xor_div_two
    by_cases heq : a / 2 = a' / 2 ∧ b / 2 = b' / 2
    · obtain ⟨heq, heq'⟩ := heq
      rw [heq, Nat.xor_self] at hxor
      rw [heq', Nat.xor_self] at hxor'
      rw [code, code, heq, heq', hxor, hxor']
      rcases Nat.mod_two_eq_zero_or_one a with hi | hi <;>
        rcases Nat.mod_two_eq_zero_or_one a' with hi' | hi' <;>
        rcases Nat.mod_two_eq_zero_or_one b with hj | hj <;>
        rcases Nat.mod_two_eq_zero_or_one b' with hj' | hj' <;>
        simp [Nat.add_mod, hi, hi', hj, hj', below] <;> omega
    · -- the last bits do not matter, and the halves are compared
      have hne : a / 2 ^^^ a' / 2 ≠ 0 ∨ b / 2 ^^^ b' / 2 ≠ 0 := by
        rw [Ne, Nat.xor_eq_zero_iff, Ne, Nat.xor_eq_zero_iff]
        omega
      have hcodes : code w (a / 2) (b / 2) ≠ code w (a' / 2) (b' / 2) := fun h =>
        heq (code_injective (by omega) (by omega) (by omega) (by omega) h)
      have hlt : code (w + 1) a b < code (w + 1) a' b' ↔
          code w (a / 2) (b / 2) < code w (a' / 2) (b' / 2) := by
        rw [code, code]
        omega
      have hbelow_iff : below (a ^^^ a') (b ^^^ b') ↔
          below (a / 2 ^^^ a' / 2) (b / 2 ^^^ b' / 2) := by
        have h := @below_div_two (a ^^^ a') (b ^^^ b') (by rwa [hdiv, hdiv'])
        rwa [hdiv, hdiv'] at h
      simp only [hlt, hhalf, hbelow_iff]
      split_ifs with hbelow
      · have hb : b / 2 ^^^ b' / 2 ≠ 0 := fun h => not_below_zero _ (h ▸ hbelow)
        rw [Ne, Nat.xor_eq_zero_iff] at hb
        omega
      · have ha : a / 2 ^^^ a' / 2 ≠ 0 := by
          intro h
          rw [h] at hbelow hne
          exact hbelow (below_zero (hne.resolve_left fun h => h rfl))
        rw [Ne, Nat.xor_eq_zero_iff] at ha
        omega

end Morton

end ConfigDb
