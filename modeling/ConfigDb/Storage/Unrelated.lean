import ConfigDb.Storage.Insertion
import ConfigDb.Storage.Pruning

/-!
# Two keys of which neither starts with the other

Keys are not normalised beyond the slash in front, so that a key may have empty components.  The
walk of `treeComponents` skips an empty component but for the first, and the walk of `removeChild`
then goes on to the parent of what it skipped, which other keys may need.

This file takes a key apart at its slashes, and shows exactly when removing a key leaves the tree as
if the key had never been set, for a store in which one other key has been set, and neither key
starts with the other.

## Main definitions

* `slashed` : the key of a list of components.
* `Undisturbed` : removing one of two keys leaves what belongs to the other.

## Main results

* `remove_undoes_set` : when this holds of the calls.
-/

namespace ConfigDb

open Std

/-! ### Keys and their components -/

/-- The key `/c₁/…/cₙ` of some components, empty ones among them. -/
def slashed : List Bytes → Bytes
  | [] => []
  | c :: cs => slash :: (c ++ slashed cs)

/-- The pairs of the components that follow `pre`. -/
def links (pre : Bytes) : List Bytes → List Tuple
  | [] => []
  | c :: cs => emit pre c ++ links (pre ++ slash :: c) cs

/-- There is no slash in the components. -/
def Free (cs : List Bytes) : Prop := ∀ c ∈ cs, slash ∉ c

theorem Free.of_append {cs ds : List Bytes} (h : Free (cs ++ ds)) : Free cs ∧ Free ds :=
  List.forall_mem_append.1 h

theorem slashed_append (cs ds : List Bytes) : slashed (cs ++ ds) = slashed cs ++ slashed ds := by
  induction cs with
  | nil => rfl
  | cons c cs ih => simp [slashed, ih]

theorem takeWhile_slashed {c : Bytes} (hc : slash ∉ c) (cs : List Bytes) :
    (c ++ slashed cs).takeWhile (· != slash) = c := by
  cases cs with
  | nil => rw [slashed, List.append_nil, takeWhile_of_notMem hc]
  | cons d cs => exact takeWhile_append_cons hc _

theorem slashed_injective {cs ds : List Bytes} (hc : Free cs) (hd : Free ds)
    (h : slashed cs = slashed ds) : cs = ds := by
  induction cs generalizing ds with
  | nil =>
    cases ds with
    | nil => rfl
    | cons d ds => simp [slashed] at h
  | cons c cs ih =>
    cases ds with
    | nil => simp [slashed] at h
    | cons d ds =>
      rw [Free, List.forall_mem_cons] at hc hd
      have htail : c ++ slashed cs = d ++ slashed ds := by simpa [slashed] using h
      have hcd : c = d := by
        rw [← takeWhile_slashed hc.1 cs, htail, takeWhile_slashed hd.1]
      subst hcd
      rw [ih hc.2 hd.2 (List.append_cancel_left htail)]

theorem exists_slashed (s : Bytes) : ∃ c cs, slash :: s = slashed (c :: cs) ∧ Free (c :: cs) := by
  induction hn : s.length using Nat.strong_induction_on generalizing s with
  | _ n ih =>
    obtain hs | ⟨c, r, rfl, hc⟩ := slash_cases s
    · exact ⟨s, [], by simp [slashed], by simpa [Free] using hs⟩
    · obtain ⟨d, ds, hr, hfree⟩ := ih r.length (by simp at hn; omega) r rfl
      exact ⟨c, d :: ds, by simp [slashed, hr], List.forall_mem_cons.2 ⟨hc, hfree⟩⟩

theorem walk_slashed (pre : Bytes) {c : Bytes} {cs : List Bytes} (h : Free (c :: cs)) :
    walk pre [] (c ++ slashed cs) = emit pre c ++ links (pre ++ slash :: c) cs := by
  induction cs generalizing pre c with
  | nil =>
    rw [slashed, List.append_nil, walk_of_notMem (h c (by simp)), links, List.append_nil,
      List.nil_append]
  | cons d cs ih =>
    rw [Free, List.forall_mem_cons] at h
    rw [slashed, walk_append h.1, List.nil_append, ih _ h.2, links]

/-- **`treeComponents` of the key of some components**: the first component is a child of the root,
and each of the others that is not empty a child of what comes before it. -/
theorem treeComponents_slashed {c : Bytes} {cs : List Bytes} (h : Free (c :: cs))
    (hl : (slashed (c :: cs)).length < npos) :
    treeComponents (slashed (c :: cs)) = ([slash], c) :: links (slash :: c) cs := by
  have hlen : (slash :: (c ++ slashed cs)).length < npos := hl
  obtain ⟨ts, hts, hw⟩ := treeComponents_eq hlen
  rw [takeWhile_slashed (h c (by simp))] at hts hw
  rw [walk_slashed [] h] at hw
  rw [slashed, hts, ← List.append_cancel_left hw]
  rfl

theorem links_append (pre : Bytes) (cs ds : List Bytes) :
    links pre (cs ++ ds) = links pre cs ++ links (pre ++ slashed cs) ds := by
  induction cs generalizing pre with
  | nil => simp [links, slashed]
  | cons c cs ih => simp [links, slashed, ih]

theorem mem_links {pre path x : Bytes} {cs : List Bytes} : (path, x) ∈ links pre cs ↔
    x ≠ [] ∧ ∃ q, q ++ [x] <+: cs ∧ path = pre ++ slashed q := by
  induction cs generalizing pre with
  | nil => simp [links]
  | cons c cs ih =>
    rw [links, List.mem_append, ih]
    constructor
    · rintro (h | ⟨hx, q, hq, rfl⟩)
      · by_cases hc : c = []
        · simp [emit, hc] at h
        · obtain ⟨rfl, rfl⟩ : path = pre ∧ x = c := by simpa [emit, hc] using h
          exact ⟨hc, [], by simp, by simp [slashed]⟩
      · exact ⟨hx, c :: q, by simpa using hq, by simp [slashed]⟩
    · rintro ⟨hx, q, hq, rfl⟩
      cases q with
      | nil =>
        obtain rfl : x = c := by simpa using hq
        exact .inl (by simp [emit, hx, slashed])
      | cons d q =>
        rw [List.cons_append, List.cons_prefix_cons] at hq
        obtain ⟨rfl, hq⟩ := hq
        exact .inr ⟨hx, q, hq, by simp [slashed]⟩

theorem links_nodup (pre : Bytes) (cs : List Bytes) : (links pre cs).Nodup := by
  induction cs generalizing pre with
  | nil => exact List.nodup_nil
  | cons c cs ih =>
    rw [links, List.nodup_append]
    refine ⟨?_, ih _, ?_⟩
    · unfold emit
      split <;> simp
    · -- the paths below are longer
      rintro ⟨path, x⟩ ht ⟨path', x'⟩ ht' heq
      obtain ⟨-, q, -, hpath'⟩ := mem_links.1 ht'
      have hpath : path = pre := by
        by_cases hc : c = []
        · simp [emit, hc] at ht
        · exact (by simpa [emit, hc] using ht : path = pre ∧ x = c).1
      have := congrArg List.length ((congrArg Prod.fst heq).symm.trans hpath)
      simp [hpath'] at this

theorem mem_treeComponents_slashed {l : List Bytes} (hne : l ≠ []) (h : Free l)
    (hl : (slashed l).length < npos) {path x : Bytes} :
    (path, x) ∈ treeComponents (slashed l) ↔ (path = [slash] ∧ l.head? = some x) ∨
      x ≠ [] ∧ ∃ q, q ≠ [] ∧ q ++ [x] <+: l ∧ path = slashed q := by
  cases l with
  | nil => exact absurd rfl hne
  | cons c cs =>
    rw [treeComponents_slashed h hl, List.mem_cons, Prod.mk.injEq, mem_links, List.head?_cons,
      Option.some.injEq, eq_comm (a := c)]
    refine or_congr Iff.rfl (and_congr Iff.rfl ⟨?_, ?_⟩)
    · rintro ⟨q, hq, rfl⟩
      exact ⟨c :: q, by simp, by simpa using hq, by simp [slashed]⟩
    · rintro ⟨q, hq₀, hq, rfl⟩
      cases q with
      | nil => exact absurd rfl hq₀
      | cons d q =>
        rw [List.cons_append, List.cons_prefix_cons] at hq
        obtain ⟨rfl, hq⟩ := hq
        exact ⟨q, hq, by simp [slashed]⟩

theorem Free.of_prefix {q l : List Bytes} (h : Free l) (hq : q <+: l) : Free q :=
  fun c hc => h c (hq.subset hc)

theorem slashed_eq_root {q : List Bytes} (hq : Free q) : slashed q = [slash] ↔ q = [[]] := by
  have hroot : slashed [[]] = [slash] := rfl
  refine ⟨fun h => slashed_injective hq (by simp [Free]) (h.trans hroot.symm), ?_⟩
  rintro rfl
  rfl

section

variable {l q : List Bytes} {x : Bytes}

theorem mem_treeComponents_of_ne (hne : l ≠ []) (h : Free l) (hl : (slashed l).length < npos)
    (hq : Free q) (hq₀ : q ≠ []) (hroot : q ≠ [[]]) :
    (slashed q, x) ∈ treeComponents (slashed l) ↔ x ≠ [] ∧ q ++ [x] <+: l := by
  rw [mem_treeComponents_slashed hne h hl, slashed_eq_root hq]
  constructor
  · rintro (⟨hq', -⟩ | ⟨hx, q', -, hq', heq⟩)
    · exact absurd hq' hroot
    · obtain rfl := slashed_injective hq
        (h.of_prefix ((List.prefix_append q' [x]).trans hq')) heq
      exact ⟨hx, hq'⟩
  · rintro ⟨hx, hq'⟩
    exact .inr ⟨hx, q, hq₀, hq', rfl⟩

/-- The children of the root: the first component and, if that is empty, the second. -/
theorem mem_treeComponents_root (hne : l ≠ []) (h : Free l) (hl : (slashed l).length < npos) :
    ([slash], x) ∈ treeComponents (slashed l) ↔
      l.head? = some x ∨ x ≠ [] ∧ [[], x] <+: l := by
  rw [mem_treeComponents_slashed hne h hl]
  constructor
  · rintro (⟨-, hx⟩ | ⟨hx, q, -, hq, heq⟩)
    · exact .inl hx
    · rw [eq_comm, slashed_eq_root (h.of_prefix ((List.prefix_append q [x]).trans hq))] at heq
      subst heq
      exact .inr ⟨hx, hq⟩
  · rintro (hx | ⟨hx, hq⟩)
    · exact .inl ⟨rfl, hx⟩
    · exact .inr ⟨hx, [[]], by simp, hq, rfl⟩

end

/-- The pairs of the components `ps`. -/
def upper : List Bytes → List Tuple
  | [] => []
  | p :: ps => ([slash], p) :: links (slash :: p) ps

/-- The pair of the component `c` after the components `ps`, if there is one. -/
def own (ps : List Bytes) (c : Bytes) : List Tuple :=
  if ps = [] then [([slash], c)] else emit (slashed ps) c

theorem treeComponents_split {ps cs : List Bytes} {c : Bytes} (h : Free (ps ++ c :: cs))
    (hl : (slashed (ps ++ c :: cs)).length < npos) :
    treeComponents (slashed (ps ++ c :: cs)) =
      upper ps ++ own ps c ++ links (slashed (ps ++ [c])) cs := by
  cases ps with
  | nil =>
    rw [List.nil_append] at h hl ⊢
    rw [treeComponents_slashed h hl]
    simp [upper, own, slashed]
  | cons p ps =>
    rw [List.cons_append] at h hl ⊢
    rw [treeComponents_slashed h hl, links_append]
    simp [upper, own, links, slashed, slashed_append]

/-! ### Taking out the pairs of a key -/

namespace Store

/-- The pairs that the tree stores. -/
def pairs (v : Columns) : Set Tuple := {t | t.2 ∈ v.children t.1}

/-- Each of the pairs is stored, as the only child of its path, and no value is stored at the
path. -/
structure Sole (v : Columns) (ts : List Tuple) : Prop where
  nodup : ts.Nodup
  mem : ∀ t ∈ ts, t ∈ v.pairs
  only : ∀ t ∈ ts, ∀ x, (t.1, x) ∈ v.pairs → x = t.2
  data : ∀ t ∈ ts, v.get .data t.1 = none

variable {v w : Columns} {t : Tuple} {ds ts : List Tuple}

theorem exists_node (ht : t ∈ v.pairs) :
    ∃ node, v.get .forrest t.1 = some node ∧ t.2 ∈ node.children := by
  have hmem : t.2 ∈ v.children t.1 := ht
  unfold children at hmem
  cases hn : v.get .forrest t.1 with
  | none => simp [hn] at hmem
  | some node => exact ⟨node, rfl, by simpa [hn] using hmem⟩

theorem pairs_dropChild {node : Node} (hn : v.get .forrest t.1 = some node) :
    (v.dropChild t.1 t.2 node).pairs = v.pairs \ {t} := by
  ext ⟨path, x⟩
  have hmem : x ∈ (v.dropChild t.1 t.2 node).children path ↔
      x ∈ v.children path ∧ (x = t.2 → path ≠ t.1) := mem_children_dropChild hn path x
  rw [Set.mem_sdiff, Set.mem_singleton_iff, Prod.ext_iff, not_and']
  exact hmem

theorem pairs_unlink_subset (ts : List Tuple) (v : Columns) : (v.unlink ts).pairs ⊆ v.pairs := by
  induction ts generalizing v with
  | nil => exact subset_rfl
  | cons t ts ih =>
    rw [show t = (t.1, t.2) from rfl, unlink_cons]
    cases hn : v.get .forrest t.1 with
    | none => exact subset_rfl
    | some node =>
      have hsub : (v.dropChild t.1 t.2 node).pairs ⊆ v.pairs := by
        rw [pairs_dropChild hn]
        exact Set.sdiff_subset
      simp only
      split_ifs
      · exact (ih _).trans hsub
      · exact hsub

theorem notMem_pairs_unlink (ht : t ∈ v.pairs) (ts : List Tuple) :
    t ∉ (v.unlink (t :: ts)).pairs := by
  obtain ⟨node, hn, -⟩ := exists_node ht
  have hout : t ∉ (v.dropChild t.1 t.2 node).pairs := by simp [pairs_dropChild hn]
  rw [show t = (t.1, t.2) from rfl, unlink_cons, hn]
  simp only
  split_ifs
  · exact fun h => hout (pairs_unlink_subset _ _ h)
  · exact hout

theorem pairs_unlink_of_other (ht : t ∈ v.pairs) {x : Bytes} (hx : (t.1, x) ∈ v.pairs)
    (hne : x ≠ t.2) (ts : List Tuple) : (v.unlink (t :: ts)).pairs = v.pairs \ {t} := by
  obtain ⟨node, hn, -⟩ := exists_node ht
  have hmem : x ∈ node.children := by
    obtain ⟨node', hn', hmem⟩ := exists_node hx
    obtain rfl : node' = node := by simpa [hn] using hn'.symm
    exact hmem
  have hfilter : (node.children.filter fun item => t.2 != item).isEmpty = false := by
    rw [List.isEmpty_eq_false_iff_exists_mem]
    exact ⟨x, List.mem_filter.2 ⟨hmem, by simpa using hne.symm⟩⟩
  rw [show t = (t.1, t.2) from rfl, unlink_cons, hn]
  simp only [hfilter, Bool.false_eq_true, false_and, if_false]
  exact pairs_dropChild hn

/-- The walk takes out the pairs that are the only children of their paths, and goes on. -/
theorem Sole.exists_unlink (h : v.Sole ds) (ts : List Tuple) :
    ∃ w : Columns, v.unlink (ds ++ ts) = w.unlink ts ∧ w.pairs = v.pairs \ {t | t ∈ ds} := by
  induction ds generalizing v with
  | nil => exact ⟨v, rfl, by simp⟩
  | cons t ds ih =>
    obtain ⟨hnotMem, hnodup⟩ := List.nodup_cons.1 h.nodup
    have ht := h.mem t List.mem_cons_self
    obtain ⟨node, hn, -⟩ := exists_node ht
    have hpairs := pairs_dropChild hn
    have hempty : (node.children.filter fun item => t.2 != item) = [] := by
      rw [List.filter_eq_nil_iff]
      intro x hx
      have hxp : (t.1, x) ∈ v.pairs := by simpa [pairs, children, hn] using hx
      simpa using (h.only t List.mem_cons_self x hxp).symm
    have hsole : (v.dropChild t.1 t.2 node).Sole ds := by
      refine ⟨hnodup, fun u hu => ?_, fun u hu x hx => ?_, fun u hu => ?_⟩
      · rw [hpairs]
        exact ⟨h.mem u (List.mem_cons_of_mem _ hu), fun heq => hnotMem (heq ▸ hu)⟩
      · rw [hpairs] at hx
        exact h.only u (List.mem_cons_of_mem _ hu) x hx.1
      · rw [get_dropChild_data]
        exact h.data u (List.mem_cons_of_mem _ hu)
    obtain ⟨w, hw, hwp⟩ := ih hsole
    refine ⟨w, ?_, ?_⟩
    · rw [List.cons_append, show t = (t.1, t.2) from rfl, unlink_cons, hn]
      simp only [hempty, List.isEmpty_nil, h.data t List.mem_cons_self, and_self, if_true]
      exact hw
    · rw [hwp, hpairs, sdiff_sdiff]
      refine congrArg (v.pairs \ ·) (Set.ext fun u => ?_)
      simp

/-- **A walk that stops**: it takes out the pairs that are the only children of their paths, and the
pair at whose path it finds another child. -/
theorem Sole.pairs_unlink_of_other (h : v.Sole ds) (ht : t ∈ v.pairs) {x : Bytes}
    (hx : (t.1, x) ∈ v.pairs) (hne : x ≠ t.2) (ts : List Tuple) :
    (v.unlink (ds ++ t :: ts)).pairs = v.pairs \ {u | u ∈ ds ∨ u = t} := by
  obtain ⟨w, hw, hwp⟩ := h.exists_unlink (t :: ts)
  have hnot (y : Bytes) (hy : (t.1, y) ∈ ds) (z : Bytes) (hz : (t.1, z) ∈ v.pairs) : z = y :=
    h.only _ hy z hz
  have htw : t ∈ w.pairs := by
    rw [hwp]
    exact ⟨ht, fun hmem => hne (hnot t.2 hmem x hx)⟩
  have hxw : (t.1, x) ∈ w.pairs := by
    rw [hwp]
    exact ⟨hx, fun hmem => hne (hnot x hmem t.2 ht).symm⟩
  rw [hw, Store.pairs_unlink_of_other htw hxw hne, hwp, sdiff_sdiff]
  rfl

/-- **A walk that takes out what it should not**: it goes on to the pair after those that are the
only children of their paths, whatever this is. -/
theorem Sole.notMem_pairs_unlink (h : v.Sole ds) (ht : t ∈ v.pairs) (hnot : t ∉ ds)
    (ts : List Tuple) : t ∉ (v.unlink (ds ++ t :: ts)).pairs := by
  obtain ⟨w, hw, hwp⟩ := h.exists_unlink (t :: ts)
  rw [hw]
  refine Store.notMem_pairs_unlink ?_ ts
  rw [hwp]
  exact ⟨ht, hnot⟩

end Store

/-! ### Where two keys differ -/

/-- Whether taking out the pairs of the components `ps ++ c :: cs` leaves those of `ps ++ d :: ds`,
where `c` and `d` are different. -/
def Spares (ps : List Bytes) (c : Bytes) (cs : List Bytes) (d : Bytes) (ds : List Bytes) : Prop :=
  if ps = [] then
    if c = [] then cs.head? = some [] else ¬ (d = [] ∧ ds.head? = some c)
  else c ≠ [] ∧ (d ≠ [] ∨ ps = [[]])

/-- The components of two keys, and the first in which they differ. -/
structure Parted (k₁ k₂ : Bytes) (ps : List Bytes) (c : Bytes) (cs : List Bytes) (d : Bytes)
    (ds : List Bytes) : Prop where
  /-- The components of the first key. -/
  first : k₁ = slashed (ps ++ c :: cs)
  /-- The components of the second key. -/
  second : k₂ = slashed (ps ++ d :: ds)
  /-- There is no slash in the components of the first key. -/
  free₁ : Free (ps ++ c :: cs)
  /-- There is no slash in the components of the second key. -/
  free₂ : Free (ps ++ d :: ds)
  /-- The components after the common ones differ. -/
  differ : c ≠ d

/-- Removing the key `k₁` leaves what belongs to the key `k₂`: at the first component in which they
differ, none of the two is empty, or else the root keeps them apart. -/
def Undisturbed (k₁ k₂ : Bytes) : Prop :=
  ∃ ps c cs d ds, Parted k₁ k₂ ps c cs d ds ∧ Spares ps c cs d ds

theorem exists_differ {α : Type} {l l' : List α} (h : ¬ l <+: l') (h' : ¬ l' <+: l) :
    ∃ ps c cs d ds, l = ps ++ c :: cs ∧ l' = ps ++ d :: ds ∧ c ≠ d := by
  induction l generalizing l' with
  | nil => exact absurd List.nil_prefix h
  | cons a l ih =>
    cases l' with
    | nil => exact absurd List.nil_prefix h'
    | cons b l' =>
      by_cases hab : a = b
      · subst hab
        rw [List.cons_prefix_cons, not_and] at h h'
        obtain ⟨ps, c, cs, d, ds, rfl, rfl, hne⟩ := ih (h rfl) (h' rfl)
        exact ⟨a :: ps, c, cs, d, ds, rfl, rfl, hne⟩
      · exact ⟨[], a, l, b, l', rfl, rfl, hab⟩

theorem slashed_mono {cs ds : List Bytes} (h : cs <+: ds) : slashed cs <+: slashed ds := by
  obtain ⟨r, rfl⟩ := h
  rw [slashed_append]
  exact List.prefix_append _ _

theorem exists_parted {s₁ s₂ : Bytes} (h₁ : ¬ slash :: s₁ <+: slash :: s₂)
    (h₂ : ¬ slash :: s₂ <+: slash :: s₁) :
    ∃ ps c cs d ds, Parted (slash :: s₁) (slash :: s₂) ps c cs d ds := by
  obtain ⟨c₁, cs₁, hk₁, hf₁⟩ := exists_slashed s₁
  obtain ⟨c₂, cs₂, hk₂, hf₂⟩ := exists_slashed s₂
  rw [hk₁, hk₂] at h₁ h₂ ⊢
  obtain ⟨ps, c, cs, d, ds, he₁, he₂, hne⟩ := exists_differ
    (fun h => h₁ (slashed_mono h)) (fun h => h₂ (slashed_mono h))
  rw [he₁] at hf₁ ⊢
  rw [he₂] at hf₂ ⊢
  exact ⟨ps, c, cs, d, ds, rfl, rfl, hf₁, hf₂, hne⟩

namespace Parted

open Store

section

variable {k₁ k₂ : Bytes} {ps cs ds : List Bytes} {c d : Bytes} (hp : Parted k₁ k₂ ps c cs d ds)
  (hl₁ : k₁.length < npos) (hl₂ : k₂.length < npos)

include hp hl₁

theorem split₁ :
    treeComponents k₁ = upper ps ++ own ps c ++ links (slashed (ps ++ [c])) cs := by
  obtain ⟨rfl, -, hf, -, -⟩ := hp
  exact treeComponents_split hf hl₁

omit hl₁ in
include hl₂ in
theorem split₂ :
    treeComponents k₂ = upper ps ++ own ps d ++ links (slashed (ps ++ [d])) ds := by
  obtain ⟨-, rfl, -, hf, -⟩ := hp
  exact treeComponents_split hf hl₂

include hl₂

/-- The pairs of the first key that lie below `q₀` are the only children of their paths, if the
second key has no components there. -/
theorem sole {v : Columns}
    (hv : ∀ t, t ∈ v.pairs ↔ t ∈ treeComponents k₁ ∨ t ∈ treeComponents k₂)
    (hdata : ∀ t ∈ treeComponents k₁, v.get .data t.1 = none) {q₀ rest : List Bytes}
    (hq : q₀ ++ rest = ps ++ c :: cs) (h₀ : q₀ ≠ []) (hroot : q₀ ≠ [[]])
    (hother : ∀ q x y, q ++ [x] <+: rest → q₀ ++ q ++ [y] <+: ps ++ d :: ds → y = []) :
    v.Sole (links (slashed q₀) rest).reverse ∧
      ∀ t ∈ links (slashed q₀) rest, t ∉ treeComponents k₂ := by
  obtain ⟨rfl, rfl, hf₁, hf₂, -⟩ := hp
  -- the children of the path of such a pair
  have hpair (t : Tuple) (ht : t ∈ links (slashed q₀) rest) :
      t ∈ treeComponents (slashed (ps ++ c :: cs)) ∧
      (∀ x, (t.1, x) ∈ treeComponents (slashed (ps ++ c :: cs)) → x = t.2) ∧
      ∀ x, (t.1, x) ∉ treeComponents (slashed (ps ++ d :: ds)) := by
    obtain ⟨path, x⟩ := t
    obtain ⟨hx, q, hqx, rfl⟩ := mem_links.1 ht
    have hpre : q₀ ++ q ++ [x] <+: ps ++ c :: cs := by
      rw [← hq, List.append_assoc]
      exact (List.prefix_append_right_inj q₀).2 hqx
    have hfree : Free (q₀ ++ q) := hf₁.of_prefix ((List.prefix_append _ [x]).trans hpre)
    have hne : q₀ ++ q ≠ [] := by simp [h₀]
    have hne' : q₀ ++ q ≠ [[]] := by
      rw [Ne, List.append_eq_singleton_iff]
      simp [h₀, hroot]
    rw [← slashed_append]
    refine ⟨?_, fun y hy => ?_, fun y hy => ?_⟩
    · exact (mem_treeComponents_of_ne (by simp) hf₁ hl₁ hfree hne hne').2 ⟨hx, hpre⟩
    · obtain ⟨-, hy⟩ := (mem_treeComponents_of_ne (by simp) hf₁ hl₁ hfree hne hne').1 hy
      obtain ⟨r, hr⟩ := hpre
      rw [← hr, List.append_assoc (q₀ ++ q), List.prefix_append_right_inj] at hy
      simpa using hy
    · obtain ⟨hy₀, hy⟩ := (mem_treeComponents_of_ne (by simp) hf₂ hl₂ hfree hne hne').1 hy
      exact hy₀ (hother q x y hqx hy)
  refine ⟨⟨List.nodup_reverse.2 (links_nodup _ _), fun t ht => ?_, fun t ht x hx => ?_,
    fun t ht => ?_⟩, fun t ht => (hpair t ht).2.2 t.2⟩
  · exact (hv t).2 (.inl (hpair t (List.mem_reverse.1 ht)).1)
  · obtain hx | hx := (hv _).1 hx
    · exact (hpair t (List.mem_reverse.1 ht)).2.1 x hx
    · exact absurd hx ((hpair t (List.mem_reverse.1 ht)).2.2 x)
  · exact hdata t (hpair t (List.mem_reverse.1 ht)).1

end

section

variable {v : Columns} {P Q up below : List Tuple} {t : Tuple}

/-- The walk stops where it should: all that it has taken out belongs to the first key alone, and
all that it has left to the second. -/
theorem spared (hv : ∀ t, t ∈ v.pairs ↔ t ∈ P ∨ t ∈ Q) (hP : P = up ++ t :: below)
    (hsole : v.Sole below.reverse ∧ ∀ u ∈ below, u ∉ Q) (hup : ∀ u ∈ up, u ∈ Q) (ht : t ∉ Q)
    {x : Bytes} (hx : (t.1, x) ∈ v.pairs) (hne : x ≠ t.2) :
    (v.unlink P.reverse).pairs = {u | u ∈ Q} := by
  have htv : t ∈ v.pairs := (hv t).2 (.inl (by simp [hP]))
  have hrev : P.reverse = below.reverse ++ t :: up.reverse := by simp [hP]
  rw [hrev, hsole.1.pairs_unlink_of_other htv hx hne]
  ext u
  simp only [Set.mem_sdiff, Set.mem_ofPred_eq, List.mem_reverse, not_or, hv, hP, List.mem_append,
    List.mem_cons]
  constructor
  · rintro ⟨(hu | rfl | hu) | hu, hnot, hnt⟩
    · exact hup u hu
    · exact absurd rfl hnt
    · exact absurd hu hnot
    · exact hu
  · intro hu
    refine ⟨.inr hu, fun hb => hsole.2 u hb hu, ?_⟩
    rintro rfl
    exact ht hu

theorem not_spared (hv : ∀ t, t ∈ v.pairs ↔ t ∈ P ∨ t ∈ Q) (hP : P = up ++ t :: below)
    (hsole : v.Sole below.reverse ∧ ∀ u ∈ below, u ∉ Q) (ht : t ∈ Q) :
    (v.unlink P.reverse).pairs ≠ {u | u ∈ Q} := by
  have htv : t ∈ v.pairs := (hv t).2 (.inr ht)
  have hrev : P.reverse = below.reverse ++ t :: up.reverse := by simp [hP]
  intro heq
  have hnot : t ∉ (v.unlink P.reverse).pairs := by
    rw [hrev]
    exact hsole.1.notMem_pairs_unlink htv
      (fun h => hsole.2 t (List.mem_reverse.1 h) ht) _
  rw [heq] at hnot
  exact hnot ht

end

section

variable {k₁ k₂ : Bytes} {ps cs ds : List Bytes} {c d : Bytes} (hp : Parted k₁ k₂ ps c cs d ds)
  (hl₁ : k₁.length < npos) (hl₂ : k₂.length < npos) {v : Columns}
  (hv : ∀ t, t ∈ v.pairs ↔ t ∈ treeComponents k₁ ∨ t ∈ treeComponents k₂)
  (hdata : ∀ t ∈ treeComponents k₁, v.get .data t.1 = none)

include hp hl₁ hl₂ hv hdata

theorem sole_below (es rest : List Bytes) (hcs : cs = es ++ rest) (hroot : ps ++ c :: es ≠ [[]]) :
    v.Sole (links (slashed (ps ++ c :: es)) rest).reverse ∧
      ∀ t ∈ links (slashed (ps ++ c :: es)) rest, t ∉ treeComponents k₂ := by
  refine hp.sole hl₁ hl₂ hv hdata (by simp [hcs]) (by simp) hroot fun q x y _ hy => ?_
  simp only [List.append_assoc, List.cons_append, List.prefix_append_right_inj,
    List.cons_prefix_cons] at hy
  exact absurd hy.1 hp.differ

/-- **The keys differ in their first components**, and that of the first key is empty. -/
theorem spares_of_empty (hps : ps = []) (hc : c = []) (hcs : cs ≠ []) :
    (v.unlink (treeComponents k₁).reverse).pairs = {t | t ∈ treeComponents k₂} ↔
      cs.head? = some [] := by
  subst hps hc
  have hd : d ≠ [] := hp.differ.symm
  have h₁ := hp.split₁ hl₁
  have h₂ := hp.split₂ hl₂
  have hroot : ([slash], []) ∉ treeComponents k₂ := by
    obtain ⟨-, rfl, -, hf, -⟩ := hp
    rw [mem_treeComponents_root (by simp) hf hl₂]
    simp [hd]
  cases cs with
  | nil => exact absurd rfl hcs
  | cons b cs =>
    rw [List.head?_cons, Option.some.injEq]
    have hsole := hp.sole_below hl₁ hl₂ hv hdata [b] cs rfl (by simp)
    by_cases hb : b = []
    · subst hb
      refine iff_of_true ?_ rfl
      have hsplit : treeComponents k₁ = [] ++ ([slash], []) :: links (slashed [[], []]) cs := by
        rw [h₁]
        simp [upper, own, links, slashed, emit]
      have hother : ([slash], d) ∈ v.pairs := by
        refine (hv _).2 (.inr ?_)
        rw [h₂]
        simp [upper, own]
      exact spared hv hsplit hsole (by simp) hroot hother hd
    · refine iff_of_false (fun heq => ?_) hb
      have hsplit : treeComponents k₁ =
          [([slash], [])] ++ ([slash], b) :: links (slashed [[], b]) cs := by
        rw [h₁]
        simp [upper, own, links, slashed, emit, hb]
      have hmem (t : Tuple) (ht : t ∈ treeComponents k₁) : t ∈ v.pairs := (hv t).2 (.inl ht)
      have hkeep : ([slash], []) ∈ (v.unlink (treeComponents k₁).reverse).pairs := by
        have hrev : (treeComponents k₁).reverse =
            (links (slashed [[], b]) cs).reverse ++ ([slash], b) :: [([slash], [])] := by
          simp [hsplit]
        have hb' : ([slash], b) ∈ v.pairs := hmem _ (by simp [hsplit])
        have hempty : ([slash], []) ∈ v.pairs := hmem _ (by simp [hsplit])
        rw [List.nil_append] at hsole
        rw [hrev, hsole.1.pairs_unlink_of_other hb' hempty (Ne.symm hb)]
        refine ⟨hmem _ (by simp [hsplit]), ?_⟩
        rintro (hin | heq)
        · have hlen := (mem_links.1 (List.mem_reverse.1 hin)).1
          exact hlen rfl
        · exact hb (congrArg Prod.snd heq).symm
      rw [heq] at hkeep
      exact hroot hkeep

/-- **The keys differ in their first components**, and that of the first key is not empty. -/
theorem spares_of_first (hps : ps = []) (hc : c ≠ []) :
    (v.unlink (treeComponents k₁).reverse).pairs = {t | t ∈ treeComponents k₂} ↔
      ¬ (d = [] ∧ ds.head? = some c) := by
  subst hps
  have h₁ := hp.split₁ hl₁
  have h₂ := hp.split₂ hl₂
  have hsole := hp.sole_below hl₁ hl₂ hv hdata [] cs rfl (by simpa using hc)
  have hsplit : treeComponents k₁ = [] ++ ([slash], c) :: links (slashed [c]) cs := by
    rw [h₁]
    simp [upper, own]
  have hmem : ([slash], c) ∈ treeComponents k₂ ↔ d = [] ∧ ds.head? = some c := by
    obtain ⟨-, rfl, -, hf, hne⟩ := id hp
    rw [mem_treeComponents_root (by simp) hf hl₂]
    simp only [List.nil_append, List.head?_cons, Option.some.injEq, hne.symm, false_or,
      List.cons_prefix_cons, ne_eq, hc, not_false_eq_true, true_and, eq_comm (a := [])]
    refine and_congr Iff.rfl ?_
    cases ds <;> simp [eq_comm]
  have hother : ([slash], d) ∈ v.pairs := by
    refine (hv _).2 (.inr ?_)
    rw [h₂]
    simp [upper, own]
  rw [← hmem]
  refine ⟨fun heq hin => not_spared hv hsplit hsole hin heq, fun hnot => ?_⟩
  exact spared hv hsplit hsole (by simp) hnot hother hp.differ.symm

/-- **The keys differ after common components.** -/
theorem spares_of_later (hps : ps ≠ []) :
    (v.unlink (treeComponents k₁).reverse).pairs = {t | t ∈ treeComponents k₂} ↔
      c ≠ [] ∧ (d ≠ [] ∨ ps = [[]]) := by
  have h₁ := hp.split₁ hl₁
  have h₂ := hp.split₂ hl₂
  have hup : ∀ u ∈ upper ps, u ∈ treeComponents k₂ := by
    intro u hu
    rw [h₂]
    simp [hu]
  -- there is always a pair that belongs to both keys
  obtain ⟨up, u, hu⟩ : ∃ up u, upper ps = up ++ [u] := by
    cases ps with
    | nil => exact absurd rfl hps
    | cons p ps =>
      obtain hnil | h := List.eq_nil_or_concat (upper (p :: ps))
      · simp [upper] at hnil
      · simpa using h
  have hu₂ : u ∈ treeComponents k₂ := hup u (by simp [hu])
  have hsole := hp.sole_below hl₁ hl₂ hv hdata [] cs rfl
    (by simp [List.append_eq_singleton_iff, hps])
  by_cases hc : c = []
  · have hsplit : treeComponents k₁ = up ++ u :: links (slashed (ps ++ [c])) cs := by
      rw [h₁, hu]
      simp [own, hps, emit, hc]
    exact iff_of_false (not_spared hv hsplit hsole hu₂) fun h => h.1 hc
  · have hown (x : Bytes) (hx : x ≠ []) : own ps x = [(slashed ps, x)] := by
      simp [own, hps, emit, hx]
    by_cases hd : d ≠ [] ∨ ps = [[]]
    · refine iff_of_true ?_ ⟨hc, hd⟩
      have hsplit : treeComponents k₁ =
          upper ps ++ (slashed ps, c) :: links (slashed (ps ++ [c])) cs := by
        rw [h₁, hown c hc]
        simp
      have hnot : (slashed ps, c) ∉ treeComponents k₂ := by
        obtain ⟨-, rfl, -, hf, hne⟩ := hp
        by_cases hroot : ps = [[]]
        · subst hroot
          rw [show slashed [[]] = [slash] from rfl, mem_treeComponents_root (by simp) hf hl₂]
          simp [Ne.symm hc, hne]
        · rw [mem_treeComponents_of_ne (by simp) hf hl₂ hf.of_append.1 hps hroot]
          simp [hne]
      obtain hd | hroot := hd
      · have hother : (slashed ps, d) ∈ v.pairs := by
          refine (hv _).2 (.inr ?_)
          rw [h₂, hown d hd]
          simp
        exact spared hv hsplit hsole hup hnot hother hp.differ.symm
      · have hother : (slashed ps, []) ∈ v.pairs := by
          refine (hv _).2 (.inl ?_)
          rw [h₁, hroot]
          simp [upper, slashed]
        exact spared hv hsplit hsole hup hnot hother (Ne.symm hc)
    · rw [not_or, not_not] at hd
      refine iff_of_false ?_ fun h => h.2.elim (absurd hd.1) (absurd · hd.2)
      have hsplit : treeComponents k₁ = up ++ u :: links (slashed ps) (c :: cs) := by
        rw [h₁, hu, hown c hc]
        simp [links, emit, hc, slashed_append, slashed]
      refine not_spared hv hsplit (hp.sole hl₁ hl₂ hv hdata rfl hps hd.2 fun q x y hx hy => ?_) hu₂
      · rw [List.append_assoc, List.prefix_append_right_inj] at hy
        cases q with
        | nil => simpa [hd.1] using hy
        | cons b q =>
          simp only [List.cons_append, List.cons_prefix_cons] at hx hy
          exact absurd (hx.1.symm.trans hy.1) hp.differ

/-- **What the walk leaves of two keys** is the second key, if and only if the components in which
they differ tell them apart. -/
theorem pairs_unlink_iff (hk : ¬ k₁ <+: k₂) :
    (v.unlink (treeComponents k₁).reverse).pairs = {t | t ∈ treeComponents k₂} ↔
      Spares ps c cs d ds := by
  unfold Spares
  split_ifs with hps hc
  · refine hp.spares_of_empty hl₁ hl₂ hv hdata hps hc fun hcs => hk ?_
    -- otherwise the first key is the root
    obtain ⟨rfl, rfl, -, -, -⟩ := hp
    subst hps hc hcs
    exact ⟨d ++ slashed ds, rfl⟩
  · exact hp.spares_of_first hl₁ hl₂ hv hdata hps hc
  · exact hp.spares_of_later hl₁ hl₂ hv hdata hps

end

end Parted

open Store

/-! ### The calls -/

section

variable {env : Env} {cfg : Config}

variable (cfg) in
theorem Call.set_plain (henv : env.Reliable) {d : RequestData} (hd : d.Plain) (s : Db) :
    ∃ t t1, ((Call.set d).next env cfg s).columns =
      s.columns.setEntry cfg (getKey d.key) d.value d.options t t1 := by
  have hen : (Call.set d).enters = true := by simp [Call.enters, hd.1, hd.2.1]
  have hi : (Call.set d).items env s = [.set d] := by
    rw [Call.items, if_pos hen]
    rfl
  rw [Call.next_columns henv, Call.actions, hi, itemActions_singleton, Item.actions, hd.2.2]
  exact ⟨_, _, rfl⟩

theorem forrest_eq_iff (n : ℕ) (cs cs' : List Call) :
    (runCalls env cfg (Db.init n) cs).columns .forrest =
        (runCalls env cfg (Db.init n) cs').columns .forrest ↔
      (runCalls env cfg (Db.init n) cs).columns.pairs =
        (runCalls env cfg (Db.init n) cs').columns.pairs := by
  have hnodes (cs : List Call) (path : Bytes) (node : Node)
      (hn : (runCalls env cfg (Db.init n) cs).columns.get .forrest path = some node) :
      node.Canonical :=
    ((runCalls_wellFormed cs (Reach.wellFormed (.start : Reach env cfg (fun _ _ => True)
      (Db.init n) (Db.init n)))).committed .forrest path node hn).2
  constructor
  · intro h
    unfold pairs
    rw [children_congr h]
  · intro h
    refine forrest_ext (hnodes cs) (hnodes cs') fun path c => ?_
    exact iff_of_eq (congrArg ((path, c) ∈ ·) h)

variable (cfg) in
theorem pairs_runCalls (henv : env.Reliable) {cs : List Call} (hcs : ∀ c ∈ cs, c.SetsPlain)
    (n : ℕ) : (runCalls env cfg (Db.init n) cs).columns.pairs =
      {t | ∃ key ∈ cs.flatMap Call.setKeys, t ∈ treeComponents (getKey key)} := by
  ext ⟨path, x⟩
  have hmem := mem_children_runCalls cfg henv hcs (Db.init n) path x
  have hempty : x ∉ (Db.init n).columns.children path := by simp [children]
  exact hmem.trans (or_iff_right hempty)

end

/-- **Removing a key that has nothing to do with another.**  From the empty store, let two plain
entries be set, of which neither key starts with the other, and the first be removed.  This leaves
the data and the tree that setting the second alone does, if and only if the keys are
`Undisturbed`. -/
theorem remove_undoes_set (env : Env) (henv : env.Reliable) (cfg : Config) (n : ℕ)
    (d₁ d₂ : RequestData) (h₁ : d₁.Plain) (h₂ : d₂.Plain)
    (hl₁ : (getKey d₁.key).length < npos) (hl₂ : (getKey d₂.key).length < npos)
    (hk₁ : ¬ getKey d₁.key <+: getKey d₂.key) (hk₂ : ¬ getKey d₂.key <+: getKey d₁.key) :
    let v := (runCalls env cfg (Db.init n) [.set d₁, .set d₂, .remove d₁.key]).columns
    let w := (runCalls env cfg (Db.init n) [.set d₂]).columns
    (v .data = w .data ∧ v .forrest = w .forrest) ↔
      Undisturbed (getKey d₁.key) (getKey d₂.key) := by
  intro v w
  have hne : getKey d₁.key ≠ getKey d₂.key := fun h => hk₁ (h ▸ List.prefix_refl _)
  obtain ⟨t, t1, hs₁⟩ := Call.set_plain cfg henv h₁ (Db.init n)
  set s₁ := (Call.set d₁).next env cfg (Db.init n)
  obtain ⟨t', t1', hs₂⟩ := Call.set_plain cfg henv h₂ s₁
  set s₂ := (Call.set d₂).next env cfg s₁
  obtain ⟨t'', t1'', hs₃⟩ := Call.set_plain cfg henv h₂ (Db.init n)
  have hw : w = ((Call.set d₂).next env cfg (Db.init n)).columns := rfl
  have hv : v = s₂.columns.removeEntry (getKey d₁.key) false := by
    have hcache : s₂.columns.get .cache (getKey d₁.key) = none := by
      rw [hs₂, setEntry_cache, hs₁, setEntry_cache]
      simp [h₁.2.1, h₂.2.1]
    have hremove := (Call.remove_ideal cfg henv h₁.1 s₂).2
    rw [hcache] at hremove
    exact hremove
  -- the values do not depend on how the keys look
  have hdata : v .data = w .data := by
    refine ext_col fun k => ?_
    rw [hv, hw, removeEntry_data, hs₂, setEntry_data, hs₁, setEntry_data, hs₃, setEntry_data]
    by_cases hk : getKey d₁.key = k
    · subst hk
      simp [hne.symm]
    · simp [hk]
  have hset : ∀ c ∈ [Call.set d₂], c.SetsPlain := List.forall_mem_singleton.2 h₂
  have hsets : ∀ c ∈ [Call.set d₁, Call.set d₂], c.SetsPlain := List.forall_mem_cons.2 ⟨h₁, hset⟩
  -- the walk begins with the pairs of both keys, and no value but that of the second
  set u := (s₂.columns.delete .data (getKey d₁.key)).delete .expiration (getKey d₁.key) with hu
  have hupairs : ∀ t, t ∈ u.pairs ↔
      t ∈ treeComponents (getKey d₁.key) ∨ t ∈ treeComponents (getKey d₂.key) := by
    have hcol : u .forrest = s₂.columns .forrest := by
      rw [hu, delete_of_ne _ (by decide), delete_of_ne _ (by decide)]
    have hus : u.pairs = (runCalls env cfg (Db.init n) [.set d₁, .set d₂]).columns.pairs := by
      unfold pairs
      rw [children_congr hcol]
      rfl
    intro t
    rw [hus, pairs_runCalls cfg henv hsets]
    simp [Call.setKeys]
  have hudata : ∀ t ∈ treeComponents (getKey d₁.key), u.get .data t.1 = none := by
    intro t ht
    have hk : getKey d₂.key ≠ t.1 := by
      intro hk
      exact hk₂ (hk ▸ prefix_of_mem_treeComponents ht)
    simp [hu, hs₂, hs₁, hk]
  have hforrest : v .forrest = w .forrest ↔
      (u.unlink (treeComponents (getKey d₁.key)).reverse).pairs =
        {t | t ∈ treeComponents (getKey d₂.key)} := by
    have hvu : v.pairs = (u.unlink (treeComponents (getKey d₁.key)).reverse).pairs := by
      unfold pairs
      rw [hv, children_congr (removeEntry_forrest _ _ _)]
    have hwp : w.pairs = {t | t ∈ treeComponents (getKey d₂.key)} := by
      rw [pairs_runCalls cfg henv hset]
      simp [Call.setKeys]
    rw [← hvu, ← hwp]
    exact forrest_eq_iff n _ _
  rw [and_iff_right hdata, hforrest]
  constructor
  · intro h
    obtain ⟨s₁', hs₁'⟩ := rooted_getKey d₁.key
    obtain ⟨s₂', hs₂'⟩ := rooted_getKey d₂.key
    obtain ⟨ps, c, cs, d, ds, hp⟩ := exists_parted (hs₁' ▸ hs₂' ▸ hk₁) (hs₁' ▸ hs₂' ▸ hk₂)
    rw [← hs₁', ← hs₂'] at hp
    exact ⟨ps, c, cs, d, ds, hp, (hp.pairs_unlink_iff hl₁ hl₂ hupairs hudata hk₁).1 h⟩
  · rintro ⟨ps, c, cs, d, ds, hp, hspares⟩
    exact (hp.pairs_unlink_iff hl₁ hl₂ hupairs hudata hk₁).2 hspares

/-- `/a//b` and `/a/c` are set and `/a//b` is removed: the root has lost the child `a`, although
`/a/c` is still there. -/
theorem remove_undoes_set_empty_component :
    let env := Env.reliable fun _ => 0
    let d₁ : RequestData := ⟨[47, 97, 47, 47, 98], [1], {}⟩
    let d₂ : RequestData := ⟨[47, 97, 47, 99], [2], {}⟩
    let v := (runCalls env (.plain false) (Db.init 1) [.set d₁, .set d₂, .remove d₁.key]).columns
    let w := (runCalls env (.plain false) (Db.init 1) [.set d₂]).columns
    (¬ getKey d₁.key <+: getKey d₂.key ∧ ¬ getKey d₂.key <+: getKey d₁.key) ∧
      v.children [47] = [] ∧ w.children [47] = [[97]] ∧
      ¬ (v .data = w .data ∧ v .forrest = w .forrest) := by
  intro env d₁ d₂ v w
  have hv : v.children [47] = [] := by decide
  have hw : w.children [47] = [[97]] := by decide
  refine ⟨by decide, hv, hw, fun h => ?_⟩
  rw [children_congr h.2, hw] at hv
  exact absurd hv (by decide)

/-- `/a/b` and `/a/c` are told apart by the components `b` and `c`. -/
theorem remove_undoes_set_siblings :
    let env := Env.reliable fun _ => 0
    let d₁ : RequestData := ⟨[47, 97, 47, 98], [1], {}⟩
    let d₂ : RequestData := ⟨[47, 97, 47, 99], [2], {}⟩
    let v := (runCalls env (.plain false) (Db.init 1) [.set d₁, .set d₂, .remove d₁.key]).columns
    let w := (runCalls env (.plain false) (Db.init 1) [.set d₂]).columns
    v .data = w .data ∧ v .forrest = w .forrest := by
  intro env d₁ d₂ v w
  have hd₁ : d₁.Plain := by simp [RequestData.Plain, d₁]
  have hd₂ : d₂.Plain := by simp [RequestData.Plain, d₂]
  refine (remove_undoes_set env (Env.reliable_reliable _) (.plain false) 1 d₁ d₂ hd₁ hd₂
    (by decide) (by decide) (by decide) (by decide)).2 ?_
  refine ⟨[[97]], [98], [], [99], [], ⟨rfl, rfl, ?_, ?_, by decide⟩, ?_⟩
  · unfold Free
    decide
  · unfold Free
    decide
  · unfold Spares
    decide

end ConfigDb
