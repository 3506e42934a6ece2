import ConfigDb.Effect.Txn
import ConfigDb.Signal.Morton
import Mathlib.Data.List.Perm.Basic

/-!
# The slots of a signal

A signal keeps its slots in a vector, sorted by `Z_Order`: an order on pairs of words that compares
the word in which the highest bit differs.  A slot is put in after the others of its key, and all
slots of a key are taken out together; both are found by binary search, which needs the vector to be
sorted.

A listener that is not a `Nano::Observer` itself is connected with the signal as its observer, which
lasts as long as the signal.

## Main definitions

* `zOrder` : the order of the slots.
* `Observer.insert`, `Observer.remove` : a slot is put in, and the slots of a key are taken out.
* `Sorted` : the vector is sorted.

## Main results

* `zOrder_iff` : the order is the one of the Morton codes.
* `Observer.sorted_insert`, `Observer.sorted_remove` : the vector stays sorted.
* `Observer.count_insert`, `Observer.count_remove` : the slots of a key.
-/

namespace ConfigDb

namespace Nano

/-- `Delegate_Key` : the addresses of the listener and of its function. -/
abbrev DelegateKey := UInt64 × UInt64

/-- `Z_Order`. -/
def zOrder (lhs rhs : DelegateKey) : Bool :=
  let x := lhs.1 ^^^ rhs.1
  let y := lhs.2 ^^^ rhs.2
  if x < y ∧ x < x ^^^ y then lhs.2 < rhs.2 else lhs.1 < rhs.1

/-- `std::lower_bound` in a sorted vector. -/
def lowerBound (key : DelegateKey) (connections : List DelegateKey) : ℕ :=
  (connections.takeWhile fun c => zOrder c key).length

/-- `std::upper_bound` in a sorted vector. -/
def upperBound (key : DelegateKey) (connections : List DelegateKey) : ℕ :=
  (connections.takeWhile fun c => !zOrder key c).length

namespace Observer

/-- `Observer::insert( key, obs )`. -/
def insert (key : DelegateKey) (connections : List DelegateKey) : List DelegateKey :=
  let i := upperBound key connections
  connections.take i ++ key :: connections.drop i

/-- `Observer::remove( key )` : the slots between the bounds are erased. -/
def remove (key : DelegateKey) (connections : List DelegateKey) : List DelegateKey :=
  connections.take (lowerBound key connections) ++ connections.drop (upperBound key connections)

end Observer

/-! ### The order -/

/-- The Morton code of a key. -/
def code (key : DelegateKey) : ℕ := Morton.code 64 key.1.toNat key.2.toNat

/-- The vector is sorted. -/
def Sorted (connections : List DelegateKey) : Prop :=
  connections.Pairwise fun a b => code a ≤ code b

section

variable {key k : DelegateKey} {cs : List DelegateKey}

/-- **`Z_Order` is the order of the Morton codes.** -/
theorem zOrder_iff (lhs rhs : DelegateKey) : zOrder lhs rhs = true ↔ code lhs < code rhs := by
  have hlt (n : UInt64) : n.toNat < 2 ^ 64 := UInt64.toNat_lt n
  have hbelow : (lhs.1 ^^^ rhs.1 < lhs.2 ^^^ rhs.2 ∧
      lhs.1 ^^^ rhs.1 < (lhs.1 ^^^ rhs.1) ^^^ (lhs.2 ^^^ rhs.2)) ↔
      Morton.below (lhs.1.toNat ^^^ rhs.1.toNat) (lhs.2.toNat ^^^ rhs.2.toNat) := by
    simp only [Morton.below, UInt64.lt_iff_toNat_lt, UInt64.toNat_xor]
  rw [code, code, Morton.code_lt_iff (hlt _) (hlt _) (hlt _) (hlt _)]
  simp only [zOrder, hbelow]
  split_ifs
  · exact decide_eq_true_iff.trans UInt64.lt_iff_toNat_lt
  · exact decide_eq_true_iff.trans UInt64.lt_iff_toNat_lt

theorem zOrder_eq_false (lhs rhs : DelegateKey) : zOrder lhs rhs = false ↔ code rhs ≤ code lhs := by
  rw [← Bool.not_eq_true, zOrder_iff, Nat.not_lt]

theorem code_injective (h : code key = code k) : key = k := by
  obtain ⟨h₁, h₂⟩ := Morton.code_injective (UInt64.toNat_lt _) (UInt64.toNat_lt _)
    (UInt64.toNat_lt _) (UInt64.toNat_lt _) h
  exact Prod.ext (UInt64.toNat_inj.1 h₁) (UInt64.toNat_inj.1 h₂)

/-! ### Searching -/

theorem split_sorted {p : DelegateKey → Bool} (hp : ∀ a b, code a ≤ code b → p b → p a)
    (hcs : Sorted cs) : cs.take (cs.takeWhile p).length = cs.filter p ∧
      cs.drop (cs.takeWhile p).length = cs.filter fun c => !p c := by
  have htake : cs.takeWhile p = cs.filter p := takeWhile_eq_filter hp hcs
  have hsplit : cs.takeWhile p ++ cs.dropWhile p = cs := List.takeWhile_append_dropWhile
  have hkept : (cs.takeWhile p).filter p = cs.takeWhile p := by
    rw [htake, List.filter_filter]
    simp only [Bool.and_self]
  -- what satisfies the condition is all in front, so nothing behind does
  have hnone : (cs.dropWhile p).filter p = [] := by
    have h : (cs.takeWhile p ++ cs.dropWhile p).filter p = cs.takeWhile p := by rw [hsplit, htake]
    rwa [List.filter_append, hkept, List.append_right_eq_self] at h
  have hfront : (cs.takeWhile p).filter (fun c => !p c) = [] := by
    rw [htake, List.filter_filter]
    simp
  have hrest : (cs.dropWhile p).filter (fun c => !p c) = cs.dropWhile p := by
    rw [List.filter_eq_nil_iff] at hnone
    exact List.filter_eq_self.2 fun c hc => by simpa using hnone c hc
  constructor
  · calc cs.take (cs.takeWhile p).length
        = (cs.takeWhile p ++ cs.dropWhile p).take (cs.takeWhile p).length := by rw [hsplit]
      _ = cs.filter p := by rw [List.take_left, htake]
  · calc cs.drop (cs.takeWhile p).length
        = (cs.takeWhile p ++ cs.dropWhile p).drop (cs.takeWhile p).length := by rw [hsplit]
      _ = (cs.takeWhile p ++ cs.dropWhile p).filter fun c => !p c := by
        rw [List.drop_left, List.filter_append, hfront, hrest, List.nil_append]
      _ = cs.filter fun c => !p c := by rw [hsplit]

theorem split_upperBound (hcs : Sorted cs) :
    cs.take (upperBound key cs) = (cs.filter fun c => !zOrder key c) ∧
      cs.drop (upperBound key cs) = cs.filter fun c => zOrder key c := by
  have hp (a b : DelegateKey) (hab : code a ≤ code b) (hb : !zOrder key b) : !zOrder key a := by
    rw [Bool.not_eq_true', zOrder_eq_false] at hb ⊢
    exact hab.trans hb
  obtain ⟨htake, hdrop⟩ := split_sorted hp hcs
  simp only [Bool.not_not] at hdrop
  exact ⟨htake, hdrop⟩

theorem take_lowerBound (hcs : Sorted cs) :
    cs.take (lowerBound key cs) = cs.filter fun c => zOrder c key := by
  have hp (a b : DelegateKey) (hab : code a ≤ code b) (hb : zOrder b key) : zOrder a key := by
    rw [zOrder_iff] at hb ⊢
    exact hab.trans_lt hb
  exact (split_sorted hp hcs).1

/-! ### Slots are put in and taken out -/

namespace Observer

theorem insert_perm (key : DelegateKey) (cs : List DelegateKey) :
    (insert key cs).Perm (key :: cs) := by
  have h : (insert key cs).Perm
      (key :: (cs.take (upperBound key cs) ++ cs.drop (upperBound key cs))) := List.perm_middle
  rwa [List.take_append_drop] at h

theorem count_insert (key k : DelegateKey) (cs : List DelegateKey) :
    (insert key cs).count k = if key = k then cs.count k + 1 else cs.count k := by
  rw [(insert_perm key cs).count_eq, List.count_cons]
  by_cases h : key = k
  · simp [h]
  · simp [h]

theorem remove_eq (hcs : Sorted cs) : remove key cs =
    (cs.filter fun c => zOrder c key) ++ cs.filter fun c => zOrder key c := by
  rw [remove, take_lowerBound hcs, (split_upperBound hcs).2]

theorem count_remove (hcs : Sorted cs) (key k : DelegateKey) :
    (remove key cs).count k = if key = k then 0 else cs.count k := by
  rw [remove_eq hcs, List.count_append]
  have hcount (p : DelegateKey → Bool) : (cs.filter p).count k = if p k then cs.count k else 0 := by
    by_cases hp : p k = true
    · rw [if_pos hp, List.count_filter hp]
    · rw [if_neg hp]
      exact List.count_eq_zero.2 fun hmem => hp (List.mem_filter.1 hmem).2
  simp only [hcount, zOrder_iff]
  by_cases h : key = k
  · simp [h]
  · -- another key is on one side or the other
    have hne : code k ≠ code key := fun heq => h (code_injective heq).symm
    rcases Nat.lt_or_gt_of_ne hne with hlt | hgt
    · simp [hlt, hlt.not_gt, h]
    · simp [hgt, hgt.not_gt, h]

/-- **The vector stays sorted** when a slot is put in. -/
theorem sorted_insert (hcs : Sorted cs) (key : DelegateKey) : Sorted (insert key cs) := by
  have hinsert : insert key cs = (cs.filter fun c => !zOrder key c) ++ key ::
      cs.filter fun c => zOrder key c := by
    rw [insert, (split_upperBound hcs).1, (split_upperBound hcs).2]
  have hbefore : ∀ c ∈ cs.filter (fun c => !zOrder key c), code c ≤ code key := by
    intro c hc
    rw [List.mem_filter, Bool.not_eq_true', zOrder_eq_false] at hc
    exact hc.2
  have hafter : ∀ c ∈ cs.filter (fun c => zOrder key c), code key ≤ code c := by
    intro c hc
    rw [List.mem_filter, zOrder_iff] at hc
    exact hc.2.le
  rw [hinsert]
  refine List.pairwise_append.2 ⟨hcs.sublist List.filter_sublist,
    List.pairwise_cons.2 ⟨hafter, hcs.sublist List.filter_sublist⟩, ?_⟩
  intro c hc c' hc'
  rcases List.mem_cons.1 hc' with rfl | hc'
  · exact hbefore c hc
  · exact (hbefore c hc).trans (hafter c' hc')

/-- **The vector stays sorted** when slots are taken out. -/
theorem sorted_remove (hcs : Sorted cs) (key : DelegateKey) : Sorted (remove key cs) := by
  rw [remove_eq hcs]
  refine List.pairwise_append.2 ⟨hcs.sublist List.filter_sublist, hcs.sublist List.filter_sublist,
    ?_⟩
  intro c hc c' hc'
  rw [List.mem_filter, zOrder_iff] at hc hc'
  exact (hc.2.trans hc'.2).le

end Observer

end

end Nano

end ConfigDb
