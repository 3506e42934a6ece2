import Mathlib

/-!
# Forests of named children

A forest over names `κ` stores, for every path, a set of child names.  A path lists the names from a
node up to the root, so the root is `[]`, the child `c` of `p` is `c :: p`, and the nodes above `k`
are the suffixes of `k`.

Beside a forest there is a set `L` of *live* paths, those that carry a value.  Two properties tie
the two together:

* `Forest.Lists F k` : every name on the path `k` is stored as a child of the name above it;
* `Forest.Grounded F L` : every stored child is live itself or has children of its own.

`Forest.link` stores a whole path.  `Forest.prune` takes a path out again: from the bottom upwards,
as long as no child is left and the node is not live.

## Main results

* `Forest.lists_prune` : pruning a path below which nothing is live keeps the live paths listed.
* `Forest.grounded_prune` : pruning a path that has just died makes the forest grounded again.
* `Forest.Grounded.exists_live` : in a grounded forest of bounded depth, every stored child has a
  live path at or below it.
* `Forest.prune_span` : pruning a leaf of the forest that a set of paths spans leaves the forest
  that the other paths span; `Forest.exists_unlinked` says how far up that goes.
-/

namespace ConfigDb

/-- A forest: the children stored for each path. -/
abbrev Forest (κ : Type*) := List κ → Set κ

namespace Forest

open Classical

variable {κ : Type*} {F : Forest κ} {L : Set (List κ)} {c : κ} {p k m : List κ}

/-- Every name on the path is stored as a child of what is above it. -/
def Lists (F : Forest κ) (k : List κ) : Prop := ∀ c p, c :: p <:+ k → c ∈ F p

/-- Every stored child is live or has children of its own. -/
def Grounded (F : Forest κ) (L : Set (List κ)) : Prop :=
  ∀ c p, c ∈ F p → c :: p ∈ L ∨ (F (c :: p)).Nonempty

/-- Every stored child, apart from the one at `k`, is live or has children of its own. -/
def GroundedBut (F : Forest κ) (L : Set (List κ)) (k : List κ) : Prop :=
  ∀ c p, c ∈ F p → c :: p ≠ k → c :: p ∈ L ∨ (F (c :: p)).Nonempty

/-- Store the names of a path. -/
def link (F : Forest κ) (k : List κ) : Forest κ := fun p => F p ∪ {c | c :: p <:+ k}

/-- Take the child `c` of `p` out. -/
def cut (F : Forest κ) (c : κ) (p : List κ) : Forest κ := fun q => {d | d ∈ F q ∧ (d = c → q ≠ p)}

/-- Take a path out, upwards from its last name: as long as there is something to take out, no child
is left, and the node is not live. -/
noncomputable def prune (L : Set (List κ)) : List κ → Forest κ → Forest κ
  | [], F => F
  | c :: p, F =>
    if (F p).Nonempty then
      if ((F.cut c p) p).Nonempty ∨ p ∈ L then F.cut c p else prune L p (F.cut c p)
    else F

/-- The forest that stores what is on the way to the paths of a set, and nothing else. -/
def span (L : Set (List κ)) : Forest κ := fun p => {c | ∃ k ∈ L, c :: p <:+ k}

theorem mem_cut {d : κ} {q : List κ} : d ∈ F.cut c p q ↔ d ∈ F q ∧ (d = c → q ≠ p) := Iff.rfl

/-! ### Linking -/

theorem Lists.link (h : F.Lists m) (k : List κ) : (F.link k).Lists m :=
  fun c p hcp => .inl (h c p hcp)

theorem lists_link (F : Forest κ) (k : List κ) : (F.link k).Lists k := fun _ _ hcp => .inr hcp

/-- Linking a live path keeps a forest grounded: a name on the way is the parent of the next. -/
theorem Grounded.link (h : F.Grounded L) (hk : k ∈ L) : (F.link k).Grounded L := by
  intro c p hc
  obtain hc | hc := hc
  · obtain hl | ⟨d, hd⟩ := h c p hc
    · exact .inl hl
    · exact .inr ⟨d, .inl hd⟩
  · by_cases he : c :: p = k
    · exact .inl (he ▸ hk)
    · obtain ⟨t, rfl⟩ := hc
      obtain rfl | ⟨t, d, rfl⟩ := List.eq_nil_or_concat t
      · exact absurd rfl he
      · exact .inr ⟨d, .inr ⟨t, by simp⟩⟩

theorem Grounded.mono {L' : Set (List κ)} (h : F.Grounded L) (hL : L ⊆ L') : F.Grounded L' :=
  fun c p hc => (h c p hc).imp_left fun hl => hL hl

/-! ### Pruning -/

theorem Lists.cut (h : F.Lists m) (hm : ¬ c :: p <:+ m) : (F.cut c p).Lists m := by
  intro d q hdq
  refine ⟨h d q hdq, ?_⟩
  rintro rfl rfl
  exact hm hdq

/-- If nothing is live at or below `c :: p`, and cutting `c` leaves `p` dead and without children,
then nothing is live at or below `p` either. -/
theorem not_suffix_of_cut_eq_empty (hL : ∀ m ∈ L, F.Lists m) (hk : ∀ m ∈ L, ¬ c :: p <:+ m)
    (he : ¬ ((F.cut c p) p).Nonempty) (hp : p ∉ L) : ∀ m ∈ L, ¬ p <:+ m := by
  rintro m hm ⟨t, rfl⟩
  obtain rfl | ⟨t, d, rfl⟩ := List.eq_nil_or_concat t
  · exact hp hm
  · -- the child `d` of `p` on the way to `m` is still there after the cut
    have hd : d :: p <:+ t.concat d ++ p := ⟨t, by simp⟩
    refine he ⟨d, hL _ hm d p hd, ?_⟩
    rintro rfl
    exact absurd hd (hk _ hm)

/-- **Pruning a path below which nothing is live keeps the live paths listed.** -/
theorem lists_prune (k : List κ) (hL : ∀ m ∈ L, F.Lists m) (hk : ∀ m ∈ L, ¬ k <:+ m) :
    ∀ m ∈ L, (prune L k F).Lists m := by
  induction k generalizing F with
  | nil => exact hL
  | cons c p ih =>
    have hc : ∀ m ∈ L, (F.cut c p).Lists m := fun m hm => (hL m hm).cut (hk m hm)
    unfold prune
    split_ifs with hne he
    · exact hc
    · rw [not_or] at he
      exact ih hc (not_suffix_of_cut_eq_empty hL hk he.1 he.2)
    · exact hL

theorem GroundedBut.cut (h : F.GroundedBut L (c :: p)) : (F.cut c p).GroundedBut L p := by
  rintro d q ⟨hd, hdq⟩ hne
  have hcp : d :: q ≠ c :: p := by
    intro he
    injection he with h₁ h₂
    exact hdq h₁ h₂
  obtain hl | ⟨e, hm⟩ := h d q hd hcp
  · exact .inl hl
  · exact .inr ⟨e, hm, fun _ => hne⟩

theorem GroundedBut.grounded (h : F.GroundedBut L k) (hk : k ∈ L ∨ (F k).Nonempty) :
    F.Grounded L := by
  intro c p hc
  by_cases he : c :: p = k
  · exact he ▸ hk
  · exact h c p hc he

/-- **Pruning a path that has just died makes the forest grounded again.** -/
theorem grounded_prune (k : List κ) (h : F.GroundedBut L k) : (prune L k F).Grounded L := by
  induction k generalizing F with
  | nil => exact fun c p hc => h c p hc (by simp)
  | cons c p ih =>
    unfold prune
    split_ifs with hne he
    · exact h.cut.grounded he.symm
    · exact ih h.cut
    · -- there are no children at `p`, so in particular none at `c :: p`
      intro d q hd
      refine h d q hd fun he => hne ?_
      injection he with _ h₂
      exact ⟨d, h₂ ▸ hd⟩

/-! ### Depth -/

/-- **In a grounded forest of bounded depth every stored child has a live path at or below it.** -/
theorem Grounded.exists_live (h : F.Grounded L) {n : ℕ}
    (hn : ∀ p, (F p).Nonempty → p.length ≤ n) (hc : c ∈ F p) : ∃ k ∈ L, c :: p <:+ k := by
  -- downwards from `p`, which can go on for at most `n - p.length` more levels
  induction hd : n - p.length generalizing c p with
  | zero =>
    obtain hl | hne := h c p hc
    · exact ⟨_, hl, List.suffix_refl _⟩
    · have := hn _ hne
      simp only [List.length_cons] at this
      omega
  | succ d ih =>
    obtain hl | ⟨e, he⟩ := h c p hc
    · exact ⟨_, hl, List.suffix_refl _⟩
    · obtain ⟨k, hk, hs⟩ := ih he (by simp only [List.length_cons]; omega)
      exact ⟨k, hk, (List.suffix_cons e _).trans hs⟩

/-! ### Leaves -/

theorem exists_cons_suffix (h : p <:+ m) (hne : m ≠ p) : ∃ d, d :: p <:+ m := by
  obtain ⟨t, rfl⟩ := h
  obtain rfl | ⟨t, d, rfl⟩ := List.eq_nil_or_concat t
  · exact absurd rfl hne
  · exact ⟨d, t, by simp⟩

/-- If nothing of `L` is at `p`, and the forest of `L` has no child there, nothing is below `p`. -/
theorem not_suffix_of_span_eq_empty (hp : p ∉ L) (he : ¬ (span L p).Nonempty) :
    ∀ m ∈ L, ¬ p <:+ m := by
  intro m hm hpm
  obtain ⟨d, hd⟩ := exists_cons_suffix hpm fun h => hp (h ▸ hm)
  exact he ⟨d, m, hm, hd⟩

/-- A path whose last node is live already, or has children, adds nothing to the forest. -/
theorem span_insert (h : p = [] ∨ p ∈ L ∨ (span L p).Nonempty) : span (insert p L) = span L := by
  funext q
  ext c
  constructor
  · rintro ⟨m, rfl | hm, hcq⟩
    · obtain rfl | hp | ⟨d, n, hn, hd⟩ := h
      · simp at hcq
      · exact ⟨m, hp, hcq⟩
      · exact ⟨n, hn, hcq.trans ((List.suffix_cons d m).trans hd)⟩
    · exact ⟨m, hm, hcq⟩
  · rintro ⟨m, hm, hcq⟩
    exact ⟨m, .inr hm, hcq⟩

theorem link_span (L : Set (List κ)) (k : List κ) : (span L).link k = span (insert k L) := by
  funext p
  ext c
  constructor
  · rintro (⟨m, hm, hc⟩ | hc)
    · exact ⟨m, .inr hm, hc⟩
    · exact ⟨k, .inl rfl, hc⟩
  · rintro ⟨m, rfl | hm, hc⟩
    · exact .inr hc
    · exact .inl ⟨m, hm, hc⟩

theorem cut_span (hk : ∀ m ∈ L, ¬ c :: p <:+ m) :
    (span (insert (c :: p) L)).cut c p = span (insert p L) := by
  funext q
  ext d
  rw [mem_cut]
  constructor
  · rintro ⟨⟨m, rfl | hm, hdq⟩, hne⟩
    · obtain he | hdp := List.suffix_cons_iff.1 hdq
      · injection he with h₁ h₂
        exact absurd h₂ (hne h₁)
      · exact ⟨p, .inl rfl, hdp⟩
    · exact ⟨m, .inr hm, hdq⟩
  · rintro ⟨m, rfl | hm, hdq⟩
    · refine ⟨⟨c :: m, .inl rfl, hdq.trans (List.suffix_cons c m)⟩, ?_⟩
      rintro - rfl
      have := hdq.length_le
      simp at this
    · refine ⟨⟨m, .inr hm, hdq⟩, ?_⟩
      rintro rfl rfl
      exact hk m hm hdq

/-- **Pruning a leaf**: if nothing of `L` is at `k` or below, pruning `k` in the forest of `L` and
`k` leaves the forest of `L`. -/
theorem prune_span (k : List κ) (hk : ∀ m ∈ L, ¬ k <:+ m) :
    prune L k (span (insert k L)) = span L := by
  induction k with
  | nil => exact span_insert (.inl rfl)
  | cons c p ih =>
    have hne : (span (insert (c :: p) L) p).Nonempty := ⟨c, c :: p, .inl rfl, List.suffix_refl _⟩
    have hself : span (insert p L) p = span L p := by
      ext d
      refine ⟨?_, fun ⟨m, hm, hd⟩ => ⟨m, .inr hm, hd⟩⟩
      rintro ⟨m, rfl | hm, hd⟩
      · have := hd.length_le
        simp at this
      · exact ⟨m, hm, hd⟩
    rw [prune, if_pos hne, cut_span hk, hself]
    split_ifs with he
    · exact span_insert (.inr he.symm)
    · rw [not_or] at he
      exact ih (not_suffix_of_span_eq_empty he.2 he.1)

/-- **How far up a leaf is taken out**: to the first node above it that is the root, is live, or
keeps another child; from there on everything stays. -/
theorem exists_unlinked (k : List κ) (hk : ∀ m ∈ L, ¬ k <:+ m) (hne : k ≠ []) :
    ∃ p, (p <:+ k ∧ p ≠ k) ∧ (p = [] ∨ p ∈ L ∨ (span L p).Nonempty) ∧
      (∀ q, p <:+ q → q <:+ k → q ≠ p → q ∉ L ∧ span L q = ∅) ∧
      ∀ q c, c ∈ span L q ↔ c ∈ span (insert k L) q ∧ ¬ (c :: q <:+ k ∧ p <:+ q) := by
  induction k with
  | nil => exact absurd rfl hne
  | cons d p ih =>
    have hdp : d :: p ∉ L ∧ span L (d :: p) = ∅ :=
      ⟨fun h => hk _ h (List.suffix_refl _), Set.eq_empty_of_forall_notMem
        fun c ⟨m, hm, hc⟩ => hk m hm ((List.suffix_cons c _).trans hc)⟩
    have hlen {a : κ} {q : List κ} (h : a :: q <:+ q) : False := by
      have := h.length_le
      simp at this
    by_cases hp : p = [] ∨ p ∈ L ∨ (span L p).Nonempty
    · refine ⟨p, ⟨List.suffix_cons d p, by simp⟩, hp, fun q hpq hqk hqp => ?_, fun q c => ?_⟩
      · obtain rfl | hq := List.suffix_cons_iff.1 hqk
        · exact hdp
        · exact absurd (hq.sublist.antisymm hpq.sublist) hqp
      · rw [← span_insert hp, ← cut_span hk, mem_cut]
        refine and_congr_right fun _ => ⟨?_, ?_⟩
        · rintro hcd ⟨hcq, hpq⟩
          obtain he | hcp := List.suffix_cons_iff.1 hcq
          · injection he with h₁ h₂
            exact hcd h₁ h₂
          · exact hlen (hcp.trans hpq)
        · rintro hno rfl rfl
          exact hno ⟨List.suffix_refl _, List.suffix_refl _⟩
    · rw [not_or, not_or] at hp
      obtain ⟨r, ⟨hrp, hr⟩, hstop, hempty, hspan⟩ :=
        ih (not_suffix_of_span_eq_empty hp.2.1 hp.2.2) hp.1
      refine ⟨r, ⟨hrp.trans (List.suffix_cons d p), ?_⟩, hstop, fun q hrq hqk hqr => ?_,
        fun q c => ?_⟩
      · rintro rfl
        exact hlen hrp
      · obtain rfl | hq := List.suffix_cons_iff.1 hqk
        · exact hdp
        · exact hempty q hrq hq hqr
      · rw [hspan q c, ← cut_span hk, mem_cut]
        constructor
        · rintro ⟨⟨hc, hcd⟩, hno⟩
          refine ⟨hc, ?_⟩
          rintro ⟨hcq, hrq⟩
          obtain he | hcp := List.suffix_cons_iff.1 hcq
          · injection he with h₁ h₂
            exact hcd h₁ h₂
          · exact hno ⟨hcp, hrq⟩
        · rintro ⟨hc, hno⟩
          refine ⟨⟨hc, ?_⟩, fun ⟨hcp, hrq⟩ => hno ⟨hcp.trans (List.suffix_cons d p), hrq⟩⟩
          rintro rfl rfl
          exact hno ⟨List.suffix_refl _, hrp⟩

end Forest

end ConfigDb
