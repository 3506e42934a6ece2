import ConfigDb.Storage.Basic

/-!
# Decimal numerals in byte order

Time stamps are stored as decimal numerals and compared as byte strings.  Between numerals of the
same length the two orders agree (`decimalValue_lt_of_compare`); so a numeral that is not longer
than another, and less in byte order, stands for a smaller number (`lt_of_compare_toString`), and a
smaller number with a numeral of the same length comes first whatever is appended to it
(`compare_toString_of_lt`, `compare_append_of_lt`).  For time stamps, which have nineteen digits,
the two orders are one (`compare_append_stamp`).  Reading a numeral gives the number back
(`fromChars_toString`).
-/

namespace ConfigDb

/-- The number that a numeral stands for. -/
def decimalValue (s : Bytes) : ℕ := Nat.ofDigits 10 (s.reverse.map fun d => d.toNat - 48)

/-- Every character is a digit. -/
def Numeral (s : Bytes) : Prop := ∀ b ∈ s, isDigit b = true

theorem decimalValue_cons (x : UInt8) (s : Bytes) :
    decimalValue (x :: s) = decimalValue s + 10 ^ s.length * (x.toNat - 48) := by
  simp [decimalValue, Nat.ofDigits_append]

theorem isDigit_iff {b : UInt8} : isDigit b = true ↔ 48 ≤ b.toNat ∧ b.toNat ≤ 57 := by
  simp [isDigit, UInt8.le_iff_toNat_le]

theorem decimalValue_lt {s : Bytes} (h : Numeral s) : decimalValue s < 10 ^ s.length := by
  have hd := Nat.ofDigits_lt_base_pow_length (b := 10) (l := s.reverse.map fun d => d.toNat - 48)
    (by decide) fun d hd => by
      obtain ⟨b, hb, rfl⟩ := List.mem_map.1 hd
      have := isDigit_iff.1 (h b (List.mem_reverse.1 hb))
      omega
  simpa [decimalValue] using hd

/-- **Between numerals of the same length, byte order is numeric order.** -/
theorem decimalValue_lt_of_compare {a b : Bytes} (ha : Numeral a) (hb : Numeral b)
    (hl : a.length = b.length) (h : compare a b = .lt) : decimalValue a < decimalValue b := by
  induction a generalizing b with
  | nil =>
    cases b with
    | nil => simp at h
    | cons y b => simp at hl
  | cons x a ih =>
    cases b with
    | nil => simp at hl
    | cons y b =>
      have hx := isDigit_iff.1 (ha x (by simp))
      have hy := isDigit_iff.1 (hb y (by simp))
      have ha' : Numeral a := fun c hc => ha c (by simp [hc])
      have hb' : Numeral b := fun c hc => hb c (by simp [hc])
      have hlen : a.length = b.length := by simpa using hl
      have hva := decimalValue_lt ha'
      rw [decimalValue_cons, decimalValue_cons, hlen]
      rw [hlen] at hva
      change List.compareLex compare (x :: a) (y :: b) = .lt at h
      rw [List.compareLex_cons_cons] at h
      -- the first digits decide, or they are equal and the rest does
      rcases lt_trichotomy x.toNat y.toNat with hxy | hxy | hxy
      · obtain ⟨d, hd⟩ := Nat.exists_eq_add_of_lt hxy
        have hy' : y.toNat - 48 = x.toNat - 48 + 1 + d := by omega
        rw [hy', Nat.mul_add, Nat.mul_add, Nat.mul_one]
        omega
      · obtain rfl := UInt8.toNat_inj.1 hxy
        have hrest : List.compareLex compare a b = .lt := by simpa using h
        have := ih ha' hb' hlen hrest
        omega
      · exfalso
        have hgt : compare x y = .gt := by
          have hlt : ¬ x < y := fun hlt => by
            have := UInt8.lt_iff_toNat_lt.1 hlt
            omega
          have hne : ¬ x = y := by
            rintro rfl
            omega
          change compareOfLessAndEq x y = .gt
          rw [compareOfLessAndEq, if_neg hlt, if_neg hne]
        simp [hgt] at h

/-! ### Numerals of numbers -/

theorem numeral_toString (n : ℕ) : Numeral (toString n) := by
  intro b hb
  unfold toString at hb
  split_ifs at hb with hn
  · simp only [List.mem_singleton] at hb
    subst hb
    decide
  · simp only [List.mem_map, List.mem_reverse] at hb
    obtain ⟨d, hd, rfl⟩ := hb
    have hlt := Nat.digits_lt_base (by decide : 1 < 10) hd
    have h8 : (UInt8.ofNat (48 + d)).toNat = 48 + d := by
      rw [UInt8.toNat_ofNat']
      omega
    rw [isDigit_iff, h8]
    omega

theorem decimalValue_toString (n : ℕ) : decimalValue (toString n) = n := by
  unfold toString
  split_ifs with hn
  · subst hn
    rfl
  · have hmap : ((Nat.digits 10 n).reverse.map fun d => UInt8.ofNat (48 + d)).reverse.map
        (fun d => d.toNat - 48) = Nat.digits 10 n := by
      rw [← List.map_reverse, List.reverse_reverse, List.map_map]
      refine (List.map_congr_left fun d hd => ?_).trans (List.map_id _)
      have hlt := Nat.digits_lt_base (by decide : 1 < 10) hd
      simp only [Function.comp_apply, UInt8.toNat_ofNat', id_eq]
      omega
    rw [decimalValue, hmap, Nat.ofDigits_digits]

theorem foldl_digits (n : ℕ) (s : Bytes) :
    s.foldl (fun n d => 10 * n + (d.toNat - 48)) n = n * 10 ^ s.length + decimalValue s := by
  induction s generalizing n with
  | nil => simp [decimalValue]
  | cons d s ih =>
    rw [List.foldl_cons, ih, decimalValue_cons, List.length_cons, pow_succ]
    ring

theorem toString_ne_nil (n : ℕ) : toString n ≠ [] := by
  unfold toString
  split_ifs with hn
  · simp
  · simpa using Nat.digits_ne_nil_iff_ne_zero.2 hn

/-- **A numeral is read back**, if the number fits. -/
theorem fromChars_toString {w n : ℕ} (h : n < 2 ^ w) : fromChars w (toString n) = some n := by
  have htake : (toString n).takeWhile isDigit = toString n :=
    List.takeWhile_eq_self_iff.2 (numeral_toString n)
  have hvalue : (toString n).foldl (fun n d => 10 * n + (d.toNat - 48)) 0 = n := by
    rw [foldl_digits, decimalValue_toString, Nat.zero_mul, Nat.zero_add]
  cases hs : toString n with
  | nil => exact absurd hs (toString_ne_nil n)
  | cons d s =>
    rw [hs] at htake hvalue
    simp only [fromChars, htake, hvalue, if_pos h]

theorem length_toString_mono {m n : ℕ} (h : m ≤ n) :
    (toString m).length ≤ (toString n).length := by
  unfold toString
  split_ifs with hm hn hn
  · exact le_rfl
  · have : Nat.digits 10 n ≠ [] := Nat.digits_ne_nil_iff_ne_zero.2 hn
    simpa [Nat.one_le_iff_ne_zero] using this
  · omega
  · simpa using Nat.le_length_digits_le 10 m n h

/-- **A numeral that is not longer than another, and less in byte order, is less.** -/
theorem lt_of_compare_toString {m n : ℕ} (hl : (toString m).length ≤ (toString n).length)
    (h : compare (toString m) (toString n) = .lt) : m < n := by
  by_contra hge
  have hlen := le_antisymm hl (length_toString_mono (not_lt.1 hge))
  have hlt := decimalValue_lt_of_compare (numeral_toString m) (numeral_toString n) hlen h
  rw [decimalValue_toString, decimalValue_toString] at hlt
  exact hge hlt

theorem toString_injective : Function.Injective toString := by
  intro m n h
  rw [← decimalValue_toString m, h, decimalValue_toString]

/-- **Between numerals of the same length, numeric order is byte order.** -/
theorem compare_toString_of_lt {m n : ℕ} (hl : (toString m).length = (toString n).length)
    (h : m < n) : compare (toString m) (toString n) = .lt := by
  cases hc : compare (toString m) (toString n) with
  | lt => rfl
  | eq =>
    have := toString_injective (Std.LawfulEqOrd.eq_of_compare hc)
    omega
  | gt =>
    have := lt_of_compare_toString hl.symm.le (Std.OrientedCmp.lt_of_gt hc)
    omega

/-- What follows the first characters does not matter if these decide. -/
theorem compare_append_of_lt {a b : Bytes} (hl : a.length = b.length) (h : compare a b = .lt)
    (r : Bytes) : compare (a ++ r) b = .lt := by
  change List.compareLex compare a b = .lt at h
  change List.compareLex compare (a ++ r) b = .lt
  induction a generalizing b with
  | nil =>
    cases b with
    | nil => simp [List.compareLex] at h
    | cons y b => simp at hl
  | cons x a ih =>
    cases b with
    | nil => simp at hl
    | cons y b =>
      rw [List.compareLex_cons_cons] at h
      rw [List.cons_append, List.compareLex_cons_cons]
      cases hxy : compare x y with
      | lt => rfl
      | eq =>
        rw [hxy] at h
        exact ih (by simpa using hl) h
      | gt => simp [hxy] at h

theorem compare_append_isLE (a r : Bytes) : (compare a (a ++ r)).isLE = true := by
  change (List.compareLex compare a (a ++ r)).isLE = true
  induction a with
  | nil => cases r <;> simp [List.compareLex]
  | cons b a ih =>
    rw [List.cons_append, List.compareLex_cons_cons]
    simpa using ih

theorem length_toString {n : ℕ} (h₁ : 10 ^ 18 ≤ n) (h₂ : n < 10 ^ 19) :
    (toString n).length = 19 := by
  have hlo : (toString (10 ^ 18)).length = 19 := by decide
  have hhi : (toString (10 ^ 19 - 1)).length = 19 := by decide
  have hle := length_toString_mono h₁
  have hge := length_toString_mono (Nat.le_sub_one_of_lt h₂)
  omega

/-- A number of nineteen digits, as the nanoseconds since the epoch are since the year 2001. -/
def Stamp (n : ℕ) : Prop := 10 ^ 18 ≤ n ∧ n < 10 ^ 19

/-- **Between time stamps of nineteen digits, byte order is numeric order**, whatever follows the
digits of the first one: in particular what only goes on after the second one is not less. -/
theorem compare_append_stamp {e n : ℕ} (he : Stamp e) (hn : Stamp n) (r : Bytes) :
    compare (toString e ++ r) (toString n) = .lt ↔ e < n := by
  have hlen : (toString e).length = (toString n).length :=
    (length_toString he.1 he.2).trans (length_toString hn.1 hn.2).symm
  constructor
  · intro h
    exact lt_of_compare_toString hlen.le (Std.TransCmp.lt_of_isLE_of_lt (compare_append_isLE _ r) h)
  · intro h
    exact compare_append_of_lt hlen (compare_toString_of_lt hlen h) r

end ConfigDb
