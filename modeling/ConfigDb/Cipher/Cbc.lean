import Mathlib.Logic.Equiv.Basic
import Mathlib.Data.Nat.Basic
import Mathlib.Tactic.Ring

/-!
# Cipher block chaining with padding

Messages of bytes are padded to full blocks (by as many bytes as are missing, each of which says how
many there are), and each block is mixed with the encryption of the one before it before it is
encrypted itself.  The block cipher is an arbitrary permutation of the blocks, of a length `n`
between `1` and `255`.

## Main definitions

* `Cbc.encrypt`, `Cbc.decrypt` : the chains.
* `Cbc.pad`, `Cbc.unpad` : the padding.
* `Cbc.encipher`, `Cbc.decipher` : whole messages.

## Main results

* `Cbc.decrypt_encrypt` : the one chain undoes the other.
* `Cbc.unpad_pad` : the padding can be taken away.
* `Cbc.decipher_encipher` : what is enciphered can be deciphered.
-/

namespace ConfigDb

namespace Cbc

/-- A block of `n` bytes. -/
abbrev Block (n : ℕ) : Type := Vector UInt8 n

variable {n : ℕ}

/-! ### The chains -/

/-- Exclusive or, byte by byte. -/
def mix (a b : Block n) : Block n := Vector.zipWith (· ^^^ ·) a b

theorem mix_mix (a b : Block n) : mix (mix a b) b = a := by
  ext i hi
  simp only [mix, Vector.getElem_zipWith, UInt8.xor_assoc, UInt8.xor_self, UInt8.xor_zero]

/-- Encrypt a list of blocks, of which the first is mixed with `chain`. -/
def encrypt (E : Equiv.Perm (Block n)) : Block n → List (Block n) → List (Block n)
  | _, [] => []
  | chain, b :: bs => E (mix b chain) :: encrypt E (E (mix b chain)) bs

/-- Decrypt a list of blocks, of which the first was mixed with `chain`. -/
def decrypt (E : Equiv.Perm (Block n)) : Block n → List (Block n) → List (Block n)
  | _, [] => []
  | chain, c :: cs => mix (E.symm c) chain :: decrypt E c cs

@[simp]
theorem length_encrypt (E : Equiv.Perm (Block n)) (chain : Block n) (bs : List (Block n)) :
    (encrypt E chain bs).length = bs.length := by
  induction bs generalizing chain with
  | nil => rfl
  | cons b bs ih => simp only [encrypt, List.length_cons, ih]

/-- **The one chain undoes the other.** -/
theorem decrypt_encrypt (E : Equiv.Perm (Block n)) (chain : Block n) (bs : List (Block n)) :
    decrypt E chain (encrypt E chain bs) = bs := by
  induction bs generalizing chain with
  | nil => rfl
  | cons b bs ih =>
    rw [encrypt, decrypt, Equiv.symm_apply_apply, mix_mix, ih]

/-! ### Blocks of a message -/

/-- The first block of a message, filled up by zeros if the message is too short. -/
def block (n : ℕ) (m : List UInt8) : Block n := Vector.ofFn fun i => m.getD i 0

/-- The first `k` blocks of a message. -/
def blocks (n : ℕ) : ℕ → List UInt8 → List (Block n)
  | 0, _ => []
  | k + 1, m => block n m :: blocks n k (m.drop n)

/-- The blocks as one message. -/
def join (bs : List (Block n)) : List UInt8 := bs.flatMap Vector.toList

@[simp]
theorem length_blocks (k : ℕ) (m : List UInt8) : (blocks n k m).length = k := by
  induction k generalizing m with
  | zero => rfl
  | succ k ih => rw [blocks, List.length_cons, ih]

theorem length_join (bs : List (Block n)) : (join bs).length = bs.length * n := by
  induction bs with
  | nil => simp [join]
  | cons b bs ih =>
    simp only [join, List.flatMap_cons, List.length_append, Vector.length_toList,
      List.length_cons] at ih ⊢
    rw [ih]
    ring

theorem toList_block {m : List UInt8} (h : n ≤ m.length) : (block n m).toList = m.take n := by
  refine List.ext_getElem (by simp [h]) fun i hi _ => ?_
  have hin : i < n := by simpa using hi
  simp [block, List.getD_eq_getElem?_getD, show i < m.length by omega]

theorem block_append (b : Block n) (m : List UInt8) : block n (b.toList ++ m) = b := by
  ext i hi
  simp [block, List.getD_eq_getElem?_getD, List.getElem?_append_left]

theorem join_blocks {k : ℕ} {m : List UInt8} (h : m.length = k * n) : join (blocks n k m) = m := by
  induction k generalizing m with
  | zero =>
    rw [Nat.zero_mul, List.length_eq_zero_iff] at h
    rw [h]
    rfl
  | succ k ih =>
    rw [Nat.succ_mul] at h
    have hrest : join (blocks n k (m.drop n)) = m.drop n :=
      ih (by rw [List.length_drop, h, Nat.add_sub_cancel])
    rw [join] at hrest
    rw [blocks, join, List.flatMap_cons, hrest, toList_block (by omega), List.take_append_drop]

theorem blocks_join (bs : List (Block n)) : blocks n bs.length (join bs) = bs := by
  induction bs with
  | nil => rfl
  | cons b bs ih =>
    have hjoin : join (b :: bs) = b.toList ++ join bs := by rw [join, List.flatMap_cons, join]
    rw [List.length_cons, blocks, hjoin, block_append, List.drop_left' (Vector.length_toList), ih]

/-! ### The padding -/

/-- Fill the last block, or add one. -/
def pad (n : ℕ) (m : List UInt8) : List UInt8 :=
  m ++ List.replicate (n - m.length % n) (UInt8.ofNat (n - m.length % n))

/-- Take the padding away, if there is one. -/
def unpad (n : ℕ) (p : List UInt8) : Option (List UInt8) :=
  let k := (p.getLastD 0).toNat
  if 1 ≤ k ∧ k ≤ n ∧ k ≤ p.length ∧ p.drop (p.length - k) = List.replicate k (UInt8.ofNat k) then
    some (p.take (p.length - k))
  else none

theorem length_pad (h : 0 < n) (m : List UInt8) : (pad n m).length = (m.length / n + 1) * n := by
  have hlt := Nat.mod_lt m.length h
  have hdiv := Nat.div_add_mod' m.length n
  rw [pad, List.length_append, List.length_replicate, Nat.add_mul, Nat.one_mul]
  omega

/-- **The padding can be taken away.** -/
theorem unpad_pad (h : 0 < n) (hn : n < 256) (m : List UInt8) : unpad n (pad n m) = some m := by
  have hlt := Nat.mod_lt m.length h
  generalize hk : n - m.length % n = k
  have hpad : pad n m = m ++ List.replicate k (UInt8.ofNat k) := by rw [pad, hk]
  have hlast : ((pad n m).getLastD 0).toNat = k := by
    obtain ⟨j, rfl⟩ : ∃ j, k = j + 1 := ⟨k - 1, by omega⟩
    rw [hpad, List.replicate_succ', ← List.append_assoc, List.getLastD_concat,
      UInt8.toNat_ofNat', Nat.mod_eq_of_lt (by omega)]
  have hlen : (pad n m).length - k = m.length := by
    rw [hpad, List.length_append, List.length_replicate, Nat.add_sub_cancel]
  simp only [unpad, hlast, hlen]
  rw [hpad, if_pos, List.take_left]
  refine ⟨by omega, by omega, by simp, List.drop_left⟩

/-! ### Whole messages -/

/-- Encrypt a message. -/
def encipher (E : Equiv.Perm (Block n)) (iv : Block n) (m : List UInt8) : List UInt8 :=
  join (encrypt E iv (blocks n ((pad n m).length / n) (pad n m)))

/-- Decrypt a message, if it is made of at least one block and has a padding. -/
def decipher (E : Equiv.Perm (Block n)) (iv : Block n) (c : List UInt8) : Option (List UInt8) :=
  if c ≠ [] ∧ c.length % n = 0 then unpad n (join (decrypt E iv (blocks n (c.length / n) c)))
  else none

theorem length_pad_div (h : 0 < n) (m : List UInt8) :
    (pad n m).length / n = m.length / n + 1 := by
  rw [length_pad h, Nat.mul_div_cancel _ h]

theorem length_encipher (h : 0 < n) (E : Equiv.Perm (Block n)) (iv : Block n) (m : List UInt8) :
    (encipher E iv m).length = (m.length / n + 1) * n := by
  rw [encipher, length_join, length_encrypt, length_blocks, length_pad_div h]

theorem encipher_ne_nil (h : 0 < n) (E : Equiv.Perm (Block n)) (iv : Block n) (m : List UInt8) :
    encipher E iv m ≠ [] := by
  rw [← List.length_pos_iff, length_encipher h]
  exact Nat.mul_pos (Nat.succ_pos _) h

/-- **What is enciphered can be deciphered.** -/
theorem decipher_encipher (h : 0 < n) (hn : n < 256) (E : Equiv.Perm (Block n)) (iv : Block n)
    (m : List UInt8) : decipher E iv (encipher E iv m) = some m := by
  have hlen := length_encipher h E iv m
  have hcount : (encipher E iv m).length / n = m.length / n + 1 := by
    rw [hlen, Nat.mul_div_cancel _ h]
  have hblocks : blocks n (m.length / n + 1) (encipher E iv m) =
      encrypt E iv (blocks n (m.length / n + 1) (pad n m)) := by
    have hjoin := blocks_join (encrypt E iv (blocks n (m.length / n + 1) (pad n m)))
    rwa [length_encrypt, length_blocks, ← length_pad_div h, ← encipher, length_pad_div h] at hjoin
  rw [decipher, if_pos ⟨encipher_ne_nil h E iv m, by rw [hlen, Nat.mul_mod_left]⟩, hcount, hblocks,
    decrypt_encrypt, join_blocks (length_pad h m), unpad_pad h hn]

end Cbc

end ConfigDb
