import Mathlib

/-!
# Items laid one after the other on a byte stream

The messages of a sender and the reads of a receiver cut one stream of bytes in two ways.  `placed`
gives the items of a list the offsets at which they begin, `cuts` the offsets at which the stream is
cut.  `u32Bytes` and `u32OfBytes` are the four bytes of a 32-bit number, lowest first.
-/

namespace ConfigDb

variable {α : Type}

/-- The items of a list with their offsets, the first one at `off`. -/
def placed (size : α → ℕ) : ℕ → List α → List (ℕ × α)
  | _, [] => []
  | off, a :: as => (off, a) :: placed size (off + size a) as

/-- The offsets at which the items begin and end. -/
def cuts (size : α → ℕ) : ℕ → List α → List ℕ
  | off, [] => [off]
  | off, a :: as => off :: cuts size (off + size a) as

variable {size : α → ℕ}

@[simp] theorem placed_nil (off : ℕ) : placed size off [] = [] := rfl

@[simp] theorem placed_cons (off : ℕ) (a : α) (as : List α) :
    placed size off (a :: as) = (off, a) :: placed size (off + size a) as := rfl

theorem le_of_mem_placed {off : ℕ} {as : List α} {p : ℕ × α} (h : p ∈ placed size off as) :
    off ≤ p.1 := by
  induction as generalizing off with
  | nil => simp at h
  | cons a as ih =>
    rw [placed_cons, List.mem_cons] at h
    rcases h with rfl | h
    · exact Nat.le_refl _
    · exact Nat.le_trans (Nat.le_add_right _ _) (ih h)

/-- An offset after the first item is a cut if it is one of the remaining items. -/
theorem mem_cuts_cons {off x : ℕ} {a : α} {as : List α} (hx : off < x) :
    x ∈ cuts size off (a :: as) ↔ x ∈ cuts size (off + size a) as := by
  have : x ≠ off := by omega
  simp [cuts, this]

theorem mem_cuts_iff {off x : ℕ} {as : List α} :
    x ∈ cuts size off as ↔ ∃ bs cs, as = bs ++ cs ∧ x = off + (bs.map size).sum := by
  induction as generalizing off with
  | nil => simp [cuts]
  | cons a as ih =>
    simp only [cuts, List.mem_cons, ih]
    constructor
    · rintro (rfl | ⟨bs, cs, rfl, rfl⟩)
      · exact ⟨[], a :: as, rfl, by simp⟩
      · exact ⟨a :: bs, cs, rfl, by simp [Nat.add_assoc]⟩
    · rintro ⟨bs, cs, h, rfl⟩
      cases bs with
      | nil => exact .inl (by simp)
      | cons b bs =>
        obtain ⟨rfl, rfl⟩ := List.cons.inj h
        exact .inr ⟨bs, cs, rfl, by simp [Nat.add_assoc]⟩

/-! ### Four-byte numbers -/

/-- The four bytes of a number, lowest first. -/
def u32Bytes (n : ℕ) : List UInt8 :=
  [.ofNat n, .ofNat (n / 2 ^ 8), .ofNat (n / 2 ^ 16), .ofNat (n / 2 ^ 24)]

/-- The number in the first four bytes. -/
def u32OfBytes : List UInt8 → ℕ
  | a :: b :: c :: d :: _ => a.toNat + b.toNat * 2 ^ 8 + c.toNat * 2 ^ 16 + d.toNat * 2 ^ 24
  | _ => 0

@[simp] theorem length_u32Bytes (n : ℕ) : (u32Bytes n).length = 4 := rfl

theorem u32OfBytes_u32Bytes {n : ℕ} (hn : n < 2 ^ 32) (rest : List UInt8) :
    u32OfBytes (u32Bytes n ++ rest) = n := by
  simp only [u32Bytes, List.cons_append, List.nil_append, u32OfBytes, UInt8.toNat_ofNat']
  omega

theorem u32OfBytes_take {l : List UInt8} {k : ℕ} (hk : 4 ≤ k) :
    u32OfBytes (l.take k) = u32OfBytes l := by
  obtain ⟨k, rfl⟩ := Nat.exists_eq_add_of_le hk
  rcases l with _ | ⟨a, _ | ⟨b, _ | ⟨c, _ | ⟨d, l⟩⟩⟩⟩ <;> simp [u32OfBytes, Nat.add_comm 4 k]

theorem u32OfBytes_append {l : List UInt8} (h : 4 ≤ l.length) (rest : List UInt8) :
    u32OfBytes (l ++ rest) = u32OfBytes l := by
  rw [← u32OfBytes_take (l := l ++ rest) h, List.take_left]

end ConfigDb
