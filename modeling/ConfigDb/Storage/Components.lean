import ConfigDb.Storage.Path

/-!
# The parent-child pairs of a path

`treeComponents` walks over a key by positions that wrap around at `2 ^ 64`.  For a key that starts
with a slash and is shorter than `npos` this file shows that it computes a walk over the characters
(`treeComponents_eq`), and hence, for a canonical key `/c₁/…/cₙ`, exactly the pairs of each prefix
and the component that follows it (`treeComponents_pathKey`).  The loop with its accesses checked
computes the same and refuses none of them (`treeComponents_pairs`).

Paths are lists of `Name`s from the last component up to the first, as in `ConfigDb.Tree.Forest`.
-/

namespace ConfigDb

/-! ### Positions -/

theorem posAdd_one {i : ℕ} (h : i < npos) : posAdd i 1 = i + 1 := by
  unfold npos at h
  unfold posAdd
  omega

theorem posSub_of_le {i j : ℕ} (hj : j ≤ i) (hi : i ≤ npos) : posSub i j = i - j := by
  unfold npos at hi
  unfold posSub
  omega

theorem posSub_posSub_one {i j : ℕ} (hj : j + 1 ≤ i) (hi : i ≤ npos) :
    posSub (posSub i j) 1 = i - j - 1 := by
  rw [posSub_of_le (i := i) (by omega) hi, posSub_of_le (by omega) (by omega)]

theorem substr_eq_take (key : Bytes) (pos n : ℕ) : substr key pos n = (key.drop pos).take n := by
  rw [substr, ← List.length_drop, ← List.take_eq_take_min]

/-! ### The first of some character -/

section

variable {a : UInt8} {s comp : Bytes}

theorem bne_of_notMem (h : a ∉ s) : ∀ b ∈ s, (b != a) = true :=
  fun _ hb => bne_iff_ne.2 fun heq => h (heq ▸ hb)

theorem takeWhile_of_notMem (h : a ∉ s) : s.takeWhile (· != a) = s :=
  List.takeWhile_eq_self_iff.2 (bne_of_notMem h)

theorem takeWhile_append_cons (hc : a ∉ comp) (r : Bytes) :
    (comp ++ a :: r).takeWhile (· != a) = comp := by
  rw [List.takeWhile_append_of_pos (bne_of_notMem hc)]
  simp

theorem dropWhile_append_cons (hc : a ∉ comp) (r : Bytes) :
    (comp ++ a :: r).dropWhile (· != a) = a :: r := by
  have h := List.takeWhile_append_dropWhile (p := (· != a)) (l := comp ++ a :: r)
  rw [takeWhile_append_cons hc] at h
  exact List.append_cancel_left h

theorem idxOf?_append_cons (hc : a ∉ comp) (r : Bytes) :
    (comp ++ a :: r).idxOf? a = some comp.length := by
  induction comp with
  | nil => simp [List.idxOf?_cons]
  | cons b comp ih =>
    rw [List.mem_cons, not_or] at hc
    have hb : ¬ b = a := fun h => hc.1 h.symm
    rw [List.cons_append, List.idxOf?_cons, ih hc.2]
    simp [hb]

end

theorem find_of_notMem {key : Bytes} {pos : ℕ} (h : slash ∉ key.drop pos) :
    find key pos = npos := by
  rw [find, List.idxOf?_eq_none_iff.2 h]

theorem find_of_append {key comp r : Bytes} {pos : ℕ} (hd : key.drop pos = comp ++ slash :: r)
    (hc : slash ∉ comp) : find key pos = pos + comp.length := by
  rw [find, hd, idxOf?_append_cons hc]

theorem slash_cases (s : Bytes) :
    slash ∉ s ∨ ∃ comp r, s = comp ++ slash :: r ∧ slash ∉ comp := by
  by_cases h : slash ∈ s
  · exact .inr (List.eq_append_cons_of_mem h)
  · exact .inl h

/-! ### The walk over the characters -/

/-- The tuple for a component, if it is not empty. -/
def emit (pre comp : Bytes) : List Tuple := if comp.isEmpty then [] else [(pre, comp)]

/-- The tuples of the rest of a key, where `pre` has been read up to the last slash and `cur` since
then. -/
def walk (pre cur : Bytes) : Bytes → List Tuple
  | [] => emit pre cur
  | b :: r =>
    if b = slash then emit pre cur ++ walk (pre ++ slash :: cur) [] r else walk pre (cur ++ [b]) r

theorem walk_of_notMem {comp : Bytes} (h : slash ∉ comp) (pre cur : Bytes) :
    walk pre cur comp = emit pre (cur ++ comp) := by
  induction comp generalizing cur with
  | nil => simp [walk]
  | cons b comp ih =>
    rw [List.mem_cons, not_or] at h
    rw [walk, if_neg (Ne.symm h.1), ih h.2]
    simp

theorem walk_append {comp : Bytes} (h : slash ∉ comp) (pre cur r : Bytes) :
    walk pre cur (comp ++ slash :: r) =
      emit pre (cur ++ comp) ++ walk (pre ++ slash :: (cur ++ comp)) [] r := by
  induction comp generalizing cur with
  | nil => simp [walk]
  | cons b comp ih =>
    rw [List.mem_cons, not_or] at h
    rw [List.cons_append, walk, if_neg (Ne.symm h.1), ih h.2]
    simp

/-! ### One turn of the loop -/

section

variable {key pre rest : Bytes}

theorem drop_succ_of_eq (h : key = pre ++ slash :: rest) : key.drop (pre.length + 1) = rest := by
  rw [h, ← List.drop_drop]
  simp

theorem treeComponent_of_notMem (h : key = pre ++ slash :: rest) (hl : key.length < npos)
    (hr : slash ∉ rest) : treeComponent key pre.length = emit pre rest := by
  have hd := drop_succ_of_eq h
  have hlen : key.length = pre.length + (rest.length + 1) := by simp [h]
  simp only [treeComponent, posAdd_one (show pre.length < npos by omega),
    find_of_notMem (show slash ∉ key.drop (pre.length + 1) by rwa [hd])]
  by_cases hlt : pre.length + 1 < key.length
  · have hs : substr key (pre.length + 1) (posSub (posSub key.length pre.length) 1) = rest := by
      rw [posSub_posSub_one (by omega) (by omega), substr_eq_take, hd,
        List.take_of_length_le (by omega)]
    simp only [hlt, if_true, ne_eq, not_true_eq_false, if_false, hs]
    simp [emit, substr_eq_take, h]
  · have : rest = [] := List.length_eq_zero_iff.1 (by omega)
    simp [hlt, emit, this]

theorem treeComponent_of_append {comp r : Bytes} (h : key = pre ++ slash :: rest)
    (hl : key.length < npos) (hr : rest = comp ++ slash :: r) (hc : slash ∉ comp) :
    treeComponent key pre.length = emit pre comp := by
  have hd := drop_succ_of_eq h
  have hlen : key.length = pre.length + (rest.length + 1) := by simp [h]
  have hrl : rest.length = comp.length + (r.length + 1) := by simp [hr]
  have hn : ¬ pre.length + 1 + comp.length = npos := by omega
  have hs : substr key (pre.length + 1)
      (posSub (posSub (pre.length + 1 + comp.length) pre.length) 1) = comp := by
    have ht : pre.length + 1 + comp.length - pre.length - 1 = comp.length := by omega
    rw [posSub_posSub_one (by omega) (by omega), substr_eq_take, hd, ht, hr, List.take_left]
  simp only [treeComponent, posAdd_one (show pre.length < npos by omega),
    find_of_append (hd.trans hr) hc, show pre.length + 1 < key.length by omega, if_true, ne_eq, hn,
    not_false_eq_true, hs]
  simp [emit, substr_eq_take, h]

/-- The turn at `npos`, which looks at the string from its first character on, adds nothing to a key
that starts with a slash. -/
theorem treeComponent_npos (h : key = slash :: rest) : treeComponent key npos = [] := by
  have hz : posAdd npos 1 = 0 := by decide
  have hf : find key 0 = 0 := by simp [find, h, List.idxOf?_cons]
  have hs : posSub (posSub 0 npos) 1 = 0 := by decide
  simp [treeComponent, hz, hf, hs, substr, show ¬ 0 = npos by decide]

/-- **The loop of `treeComponents`**, from the turn for the slash after `pre` on, walks over the
rest of the key. -/
theorem treeComponentsLoop_eq {key : Bytes} (hl : key.length < npos) (h₀ : ∃ r, key = slash :: r)
    (fuel : ℕ) {pre rest : Bytes} (h : key = pre ++ slash :: rest) (hf : rest.length < fuel) :
    treeComponent key pre.length ++ treeComponentsLoop key fuel pre.length = walk pre [] rest := by
  induction fuel generalizing pre rest with
  | zero => omega
  | succ fuel ih =>
    have hd := drop_succ_of_eq h
    have hlen : key.length = pre.length + (rest.length + 1) := by simp [h]
    have hn : ¬ pre.length = npos := by omega
    simp only [treeComponentsLoop, if_neg hn, posAdd_one (show pre.length < npos by omega)]
    obtain hr | ⟨comp, r, hr, hc⟩ := slash_cases rest
    · -- no slash follows: the next position is `npos`, and its turn is the last
      obtain ⟨r₀, h₀⟩ := h₀
      have hend : treeComponentsLoop key fuel npos = [] := by
        cases fuel <;> simp [treeComponentsLoop]
      rw [treeComponent_of_notMem h hl hr, find_of_notMem (by rwa [hd]), treeComponent_npos h₀,
        hend, walk_of_notMem hr]
      simp
    · -- the next position is the slash after `comp`
      have hk : key = (pre ++ slash :: comp) ++ slash :: r := by simp [h, hr]
      have hp : pre.length + 1 + comp.length = (pre ++ slash :: comp).length := by
        simp only [List.length_append, List.length_cons]; omega
      have hrl : rest.length = comp.length + (r.length + 1) := by simp [hr]
      rw [treeComponent_of_append h hl hr hc, find_of_append (hd.trans hr) hc, hp,
        ih hk (by omega), hr, walk_append hc]
      rfl

/-- **`treeComponents` of a key that starts with a slash**: the first pair, with the root, and then
what a walk over the characters finds after the first component. -/
theorem treeComponents_eq {rest : Bytes} (hl : (slash :: rest).length < npos) :
    ∃ ts, treeComponents (slash :: rest) = ([slash], rest.takeWhile (· != slash)) :: ts ∧
      walk [] [] rest = emit [] (rest.takeWhile (· != slash)) ++ ts := by
  have hkey : slash :: rest = [] ++ slash :: rest := rfl
  have hw := treeComponentsLoop_eq hl ⟨rest, rfl⟩ ((slash :: rest).length + 1) hkey
    (by simp only [List.length_cons]; omega)
  rw [List.length_nil] at hw
  have hlen : (slash :: rest).length = rest.length + 1 := rfl
  have hd : (slash :: rest).drop 1 = rest := rfl
  refine ⟨treeComponentsLoop (slash :: rest) ((slash :: rest).length + 1) 0, ?_, ?_⟩
  · rw [treeComponents]
    refine congrArg (· :: _) (Prod.ext rfl ?_)
    dsimp only
    obtain hr | ⟨comp, r, hr, hc⟩ := slash_cases rest
    · rw [find_of_notMem (by rwa [hd]), posSub_of_le (by decide) le_rfl, substr_eq_take, hd,
        List.take_of_length_le (by omega), takeWhile_of_notMem hr]
    · have hrl : rest.length = comp.length + (r.length + 1) := by simp [hr]
      rw [find_of_append (hd.trans hr) hc, posSub_of_le (by omega) (by omega), substr_eq_take, hd,
        hr, takeWhile_append_cons hc]
      simp
  · rw [← hw]
    refine congrArg (· ++ _) ?_
    obtain hr | ⟨comp, r, hr, hc⟩ := slash_cases rest
    · rw [takeWhile_of_notMem hr]
      exact treeComponent_of_notMem hkey hl hr
    · have ht : rest.takeWhile (· != slash) = comp := by rw [hr, takeWhile_append_cons hc]
      rw [ht]
      exact treeComponent_of_append hkey hl hr hc

end

/-! ### Canonical keys -/

/-- The name of a component: not empty, and free of slashes. -/
abbrev Name := { b : Bytes // b ≠ [] ∧ slash ∉ b }

/-- The key `/c₁/…/cₙ` of a path, listed from `cₙ` up to `c₁`. -/
def pathKey : List Name → Bytes
  | [] => []
  | c :: p => pathKey p ++ slash :: c.1

/-- The key under which the tree stores the children of a path: its own, but `/` for the root. -/
def nodeKey : List Name → Bytes
  | [] => [slash]
  | c :: p => pathKey (c :: p)

/-- The parent-child pairs of a path, from the last to the first. -/
def upLinks : List Name → List Tuple
  | [] => []
  | c :: p => (nodeKey p, c.1) :: upLinks p

/-- A key of the form `/c₁/…/cₙ` with `n ≥ 1`, and short enough for its positions to be numbers. -/
def Canonical (key : Bytes) : Prop := key.length < npos ∧ ∃ c p, key = pathKey (c :: p)

theorem pathKey_cons (c : Name) (p : List Name) :
    pathKey (c :: p) = pathKey p ++ slash :: c.1 := rfl

theorem pathKey_append (t p : List Name) : ∃ r, pathKey (t ++ p) = pathKey p ++ r ∧
    (t ≠ [] → ∃ r', r = slash :: r') := by
  induction t with
  | nil => exact ⟨[], by simp, by simp⟩
  | cons c t ih =>
    obtain ⟨r, hr, hs⟩ := ih
    refine ⟨r ++ slash :: c.1, by simp [pathKey_cons, hr], fun _ => ?_⟩
    cases r with
    | nil => exact ⟨c.1, rfl⟩
    | cons b r =>
      by_cases ht : t = []
      · subst ht
        simp at hr
      · obtain ⟨r', hr'⟩ := hs ht
        injection hr' with hb
        exact ⟨r ++ slash :: c.1, by rw [hb]; rfl⟩

theorem pathKey_prefix_of_suffix {p m : List Name} (h : p <:+ m) (hne : m ≠ p) :
    pathKey p ++ [slash] <+: pathKey m := by
  obtain ⟨t, rfl⟩ := h
  obtain ⟨r, hr, hs⟩ := pathKey_append t p
  obtain ⟨r', rfl⟩ := hs (by rintro rfl; simp at hne)
  exact ⟨r', by simp [hr]⟩

theorem pathKey_eq_nil {p : List Name} : pathKey p = [] ↔ p = [] := by
  cases p <;> simp [pathKey]

theorem append_slash_inj {a b : Bytes} {c d : Name} (h : a ++ slash :: c.1 = b ++ slash :: d.1) :
    a = b ∧ c = d := by
  rw [List.append_eq_append_iff] at h
  obtain ⟨t, rfl, ht⟩ | ⟨t, rfl, ht⟩ := h
  · cases t with
    | nil => exact ⟨by simp, Subtype.ext (by simpa using ht)⟩
    | cons x t =>
      injection ht with hx ht
      exact absurd (by rw [ht]; simp : slash ∈ c.1) c.2.2
  · cases t with
    | nil => exact ⟨by simp, Subtype.ext (by simpa using ht.symm)⟩
    | cons x t =>
      injection ht with hx ht
      exact absurd (by rw [ht]; simp : slash ∈ d.1) d.2.2

theorem pathKey_injective : Function.Injective pathKey := by
  intro p q h
  induction p generalizing q with
  | nil => exact (pathKey_eq_nil.1 h.symm).symm
  | cons c p ih =>
    cases q with
    | nil => exact absurd h (by simp [pathKey])
    | cons d q =>
      obtain ⟨hp, rfl⟩ := append_slash_inj h
      rw [ih hp]

theorem nodeKey_cons (c : Name) (p : List Name) : nodeKey (c :: p) = pathKey (c :: p) := rfl

theorem pathKey_ne_root (p : List Name) : pathKey p ≠ [slash] := by
  cases p with
  | nil => simp [pathKey]
  | cons c p =>
    intro h
    have hl := congrArg List.length h
    have hc : 0 < c.1.length := List.length_pos_iff.2 c.2.1
    simp only [pathKey, List.length_append, List.length_cons, List.length_nil] at hl
    omega

theorem nodeKey_injective : Function.Injective nodeKey := by
  intro p q h
  cases p with
  | nil =>
    cases q with
    | nil => rfl
    | cons d q => exact absurd h.symm (pathKey_ne_root _)
  | cons c p =>
    cases q with
    | nil => exact absurd h (pathKey_ne_root _)
    | cons d q => exact pathKey_injective h

theorem length_le_nodeKey (p : List Name) : p.length ≤ (nodeKey p).length := by
  cases p with
  | nil => simp
  | cons c p =>
    rw [nodeKey_cons]
    generalize c :: p = q
    induction q with
    | nil => simp
    | cons d q ih =>
      simp only [pathKey, List.length_append, List.length_cons]
      omega

theorem pathKey_starts {p : List Name} (hp : p ≠ []) : ∃ r, pathKey p = slash :: r := by
  obtain ⟨r, hr, hs⟩ := pathKey_append p []
  obtain ⟨r', rfl⟩ := hs hp
  exact ⟨r', by simpa [pathKey] using hr⟩

theorem Canonical.getKey {key : Bytes} (h : Canonical key) : getKey key = key := by
  obtain ⟨-, c, p, rfl⟩ := h
  obtain ⟨r, hr⟩ := pathKey_starts (List.cons_ne_nil c p)
  simp [hr, ConfigDb.getKey]

theorem walk_concat {pre cur rest : Bytes} (c : Name) :
    walk pre cur (rest ++ slash :: c.1) =
      walk pre cur rest ++ [(pre ++ slash :: cur ++ rest, c.1)] := by
  induction rest generalizing pre cur with
  | nil =>
    have hc : c.1.isEmpty = false := by simpa using c.2.1
    simp only [List.nil_append, walk, if_true, walk_of_notMem c.2.2, emit, hc, Bool.false_eq_true,
      if_false, List.append_nil]
  | cons b rest ih =>
    by_cases hb : b = slash
    · simp [walk, hb, ih]
    · simp [walk, hb, ih]

theorem pathKey_head (c : Name) (p : List Name) :
    ∃ b r, pathKey (c :: p) = slash :: b :: r ∧ b ≠ slash := by
  induction p generalizing c with
  | nil =>
    obtain ⟨c, hne, hs⟩ := c
    cases c with
    | nil => exact absurd rfl hne
    | cons b r => exact ⟨b, r, rfl, fun h => hs (by simp [h])⟩
  | cons d p ih =>
    obtain ⟨b, r, h, hb⟩ := ih d
    exact ⟨b, r ++ slash :: c.1, by rw [pathKey_cons, h]; rfl, hb⟩

/-- A walk over a canonical key finds its parent-child pairs, but for the name of the root. -/
theorem walk_pathKey (c : Name) (p : List Name) : ∃ c₁ ts,
    walk [] [] (pathKey (c :: p)).tail = ([], c₁) :: ts ∧
      (upLinks (c :: p)).reverse = ([slash], c₁) :: ts := by
  induction p generalizing c with
  | nil =>
    have hc : c.1.isEmpty = false := by simpa using c.2.1
    refine ⟨c.1, [], ?_, rfl⟩
    simp [pathKey, walk_of_notMem c.2.2, emit, hc]
  | cons d p ih =>
    obtain ⟨c₁, ts, hw, hu⟩ := ih d
    obtain ⟨r, hr⟩ := pathKey_starts (List.cons_ne_nil d p)
    refine ⟨c₁, ts ++ [(nodeKey (d :: p), c.1)], ?_, ?_⟩
    · rw [hr, List.tail_cons] at hw
      rw [pathKey_cons, hr, List.cons_append, List.tail_cons, walk_concat, hw, nodeKey_cons, hr]
      rfl
    · rw [upLinks, List.reverse_cons, hu]
      rfl

/-- **`treeComponents` of a canonical key** are its parent-child pairs, from the first to the
last. -/
theorem treeComponents_pathKey {c : Name} {p : List Name} (hl : (pathKey (c :: p)).length < npos) :
    treeComponents (pathKey (c :: p)) = (upLinks (c :: p)).reverse := by
  obtain ⟨c₁, us, hw, hu⟩ := walk_pathKey c p
  obtain ⟨b, r, hr, hb⟩ := pathKey_head c p
  rw [hr] at hl hw ⊢
  obtain ⟨ts, ht, hs⟩ := treeComponents_eq hl
  have hne : ((b :: r).takeWhile (· != slash)).isEmpty = false := by simp [hb]
  rw [List.tail_cons] at hw
  rw [emit, hne, hw] at hs
  simp only [Bool.false_eq_true, if_false, List.singleton_append, List.cons.injEq, Prod.mk.injEq,
    true_and] at hs
  rw [ht, hu, hs.1, hs.2]

/-! ### Every access is in range -/

theorem posSub_zero (i j : ℕ) : posSub (posSub i 0) j = posSub i j := by
  unfold posSub
  omega

theorem substrAt_of_le {key : Bytes} {pos : ℕ} (h : pos ≤ key.length) (n : ℕ) :
    substrAt key pos n = some (substr key pos n) := if_pos h

theorem substr_zero_prefix (key : Bytes) (n : ℕ) : substr key 0 n <+: key := by
  rw [substr_eq_take]
  exact List.take_prefix n key

/-- The accesses for the tuple of the root are in range in a key that is not empty. -/
theorem rootTuple_zero {key : Bytes} (hne : key ≠ []) :
    rootTuple key 0 = some [(substr key 0 1, substr key 1 (posSub (find key 1) 1))] := by
  have hpos : 1 ≤ key.length := List.length_pos_iff.2 hne
  have hone : posAdd 0 1 = 1 := rfl
  simp only [rootTuple, if_true, hone, substrAt_of_le (Nat.zero_le _), substrAt_of_le hpos,
    posSub_zero, Option.bind_eq_bind, Option.bind_some, Option.pure_def]

theorem rootTuple_of_ne {key : Bytes} {index : ℕ} (h : index ≠ 0) :
    rootTuple key index = some [] := if_neg h

/-- The accesses for the tuple of a slash are in range wherever the slash is, and also at `npos`. -/
theorem slashTuple_eq (key : Bytes) (index : ℕ) :
    slashTuple key index = some (treeComponent key index) := by
  unfold slashTuple treeComponent
  by_cases hlt : posAdd index 1 < key.length
  · have hsub (n : ℕ) := substrAt_of_le (Nat.le_of_lt hlt) n
    have hzero (n : ℕ) := substrAt_of_le (Nat.zero_le key.length) n
    rw [if_pos hlt, if_pos hlt]
    dsimp only
    -- from here on nothing depends on how the positions are computed
    generalize posAdd index 1 = start at hsub
    generalize find key start = idx
    generalize posSub (posSub idx index) 1 = n
    generalize posSub (posSub key.length index) 1 = m
    simp only [hsub, hzero]
    by_cases hidx : idx ≠ npos
    · rw [if_pos hidx, if_pos hidx, Option.bind_eq_bind, Option.bind_some]
      split_ifs <;> rfl
    · rw [if_neg hidx, if_neg hidx, Option.bind_eq_bind, Option.bind_some]
      split_ifs <;> rfl
  · rw [if_neg hlt, if_neg hlt]
    rfl

theorem treeComponentsLoop_fuel {key : Bytes} (hl : key.length < npos) (h₀ : ∃ r, key = slash :: r)
    {pre rest : Bytes} (h : key = pre ++ slash :: rest) {fuel fuel' : ℕ} (hf : rest.length < fuel)
    (hf' : rest.length < fuel') :
    treeComponentsLoop key fuel pre.length = treeComponentsLoop key fuel' pre.length := by
  have h₁ := treeComponentsLoop_eq hl h₀ fuel h hf
  have h₂ := treeComponentsLoop_eq hl h₀ fuel' h hf'
  exact List.append_cancel_left (h₁.trans h₂.symm)

/-- **The checked loop**, from the slash after the one at `pre` on, refuses no access and is over
after a turn for each slash that follows. -/
theorem treeComponentsFrom_find {key : Bytes} (hl : key.length < npos) (fuel : ℕ) {pre rest : Bytes}
    (h : key = pre ++ slash :: rest) (hf : rest.length ≤ fuel) :
    treeComponentsFrom key fuel (find key (pre.length + 1)) =
      some (treeComponentsLoop key fuel (find key (pre.length + 1))) := by
  induction fuel generalizing pre rest with
  | zero =>
    have hd := drop_succ_of_eq h
    have hr : slash ∉ rest := by simp [List.length_eq_zero_iff.1 (Nat.le_zero.1 hf)]
    rw [find_of_notMem (by rwa [hd])]
    simp [treeComponentsFrom, treeComponentsLoop]
  | succ fuel ih =>
    have hd := drop_succ_of_eq h
    have hlen : key.length = pre.length + (rest.length + 1) := by simp [h]
    obtain hr | ⟨comp, r, hr, hc⟩ := slash_cases rest
    · -- no slash follows: the loop is over at `npos`
      rw [find_of_notMem (by rwa [hd])]
      simp [treeComponentsFrom, treeComponentsLoop]
    · have hk : key = (pre ++ slash :: comp) ++ slash :: r := by simp [h, hr]
      have hp : pre.length + 1 + comp.length = (pre ++ slash :: comp).length := by
        simp only [List.length_append, List.length_cons]; omega
      have hrl : rest.length = comp.length + (r.length + 1) := by simp [hr]
      have hn : ¬ (pre ++ slash :: comp).length = npos := by omega
      have hz : (pre ++ slash :: comp).length ≠ 0 := by simp
      rw [find_of_append (hd.trans hr) hc, hp, treeComponentsFrom, if_neg hn, treeComponentsLoop,
        if_neg hn]
      simp only [rootTuple_of_ne hz, slashTuple_eq, ih hk (by omega),
        posAdd_one (show (pre ++ slash :: comp).length < npos by omega), Option.bind_eq_bind,
        Option.bind_some, Option.pure_def, List.nil_append]

/-- The checked loop computes `treeComponents` of a key that starts with a slash, with as many turns
as the key has characters. -/
theorem treeComponentsFrom_zero {rest : Bytes} (hl : (slash :: rest).length < npos) {fuel : ℕ}
    (hf : (slash :: rest).length ≤ fuel) :
    treeComponentsFrom (slash :: rest) fuel 0 = some (treeComponents (slash :: rest)) := by
  obtain ⟨fuel, rfl⟩ : ∃ n, fuel = n + 1 := Nat.exists_eq_add_of_le' (by simp at hf; omega)
  have hlen : (slash :: rest).length = rest.length + 1 := rfl
  have hkey : slash :: rest = [] ++ slash :: rest := rfl
  have hloop := treeComponentsLoop_fuel hl ⟨rest, rfl⟩ hkey
    (show rest.length < (slash :: rest).length + 1 by omega) (show rest.length < fuel + 1 by omega)
  have hrest := treeComponentsFrom_find hl fuel hkey (by omega)
  have hn : ¬ 0 = npos := by decide
  have hone : posAdd 0 1 = 1 := rfl
  rw [List.length_nil] at hloop
  rw [List.length_nil, Nat.zero_add] at hrest
  rw [treeComponents, hloop, treeComponentsFrom, if_neg hn, treeComponentsLoop, if_neg hn]
  simp only [rootTuple_zero (List.cons_ne_nil slash rest), slashTuple_eq, hone, hrest,
    Option.bind_eq_bind, Option.bind_some, Option.pure_def, List.cons_append,
    List.nil_append]

/-- The turn for a slash adds at most one tuple, whose path is what stands before the slash. -/
theorem treeComponent_cases (key : Bytes) (index : ℕ) :
    treeComponent key index = [] ∨
      ∃ sub, treeComponent key index = [(substr key 0 index, sub)] := by
  unfold treeComponent
  by_cases hlt : posAdd index 1 < key.length
  · rw [if_pos hlt]
    dsimp only
    generalize find key (posAdd index 1) = idx
    generalize posSub (posSub idx index) 1 = n
    generalize posSub (posSub key.length index) 1 = m
    generalize (if idx ≠ npos then substr key (posAdd index 1) n
      else substr key (posAdd index 1) m) = sub
    by_cases hs : sub.isEmpty = true
    · exact .inl (if_pos hs)
    · exact .inr ⟨sub, if_neg hs⟩
  · exact .inl (if_neg hlt)

theorem prefix_of_mem_treeComponent {key : Bytes} {index : ℕ} {t : Tuple}
    (h : t ∈ treeComponent key index) : t.1 <+: key := by
  obtain hnil | ⟨sub, hsub⟩ := treeComponent_cases key index
  · simp [hnil] at h
  · rw [hsub, List.mem_singleton] at h
    rw [h]
    exact substr_zero_prefix key index

theorem prefix_of_mem_treeComponentsLoop {key : Bytes} {fuel index : ℕ} {t : Tuple}
    (h : t ∈ treeComponentsLoop key fuel index) : t.1 <+: key := by
  induction fuel generalizing index with
  | zero => simp [treeComponentsLoop] at h
  | succ fuel ih =>
    rw [treeComponentsLoop] at h
    split_ifs at h with hn
    · simp at h
    · obtain h | h := List.mem_append.1 h
      · exact prefix_of_mem_treeComponent h
      · exact ih h

theorem prefix_of_mem_treeComponents {key : Bytes} {t : Tuple} (h : t ∈ treeComponents key) :
    t.1 <+: key := by
  obtain rfl | h := List.mem_cons.1 h
  · exact substr_zero_prefix key 1
  · exact prefix_of_mem_treeComponentsLoop h

/-- **The parent-child pairs of a path.**  For every key that starts with a slash the loop of
`treeComponents` refuses no access and is over after at most as many turns as the key has
characters, and every path it finds is a prefix of the key; for a canonical key `/c₁/…/cₙ` it finds
`("/", c₁)`, `("/c₁", c₂)`, …, `("/c₁/…/cₙ₋₁", cₙ)`, in this order. -/
theorem treeComponents_pairs {key : Bytes} (h₀ : key.head? = some slash) (hl : key.length < npos) :
    (∀ fuel, key.length ≤ fuel → treeComponentsFrom key fuel 0 = some (treeComponents key)) ∧
      (∀ t ∈ treeComponents key, t.1 <+: key) ∧
      ∀ c p, key = pathKey (c :: p) → treeComponents key = (upLinks (c :: p)).reverse := by
  refine ⟨?_, fun t ht => prefix_of_mem_treeComponents ht, ?_⟩
  · intro fuel hf
    obtain ⟨rest, rfl⟩ := List.head?_eq_some_iff.1 h₀
    exact treeComponentsFrom_zero hl hf
  · rintro c p rfl
    exact treeComponents_pathKey hl

/-- The key `/a/b` has the pairs `("/", "a")` and `("/a", "b")`. -/
theorem treeComponents_pairs_ab :
    treeComponentsFrom [47, 97, 47, 98] 4 0 =
        some [([47], [97]), ([47, 97], [98])] ∧
      ∀ t ∈ treeComponents [47, 97, 47, 98], t.1 <+: [47, 97, 47, 98] := by
  have h₀ : ([47, 97, 47, 98] : Bytes).head? = some slash := rfl
  obtain ⟨hrun, hpre, hpairs⟩ := treeComponents_pairs h₀ (by decide)
  refine ⟨?_, hpre⟩
  rw [hrun 4 le_rfl, hpairs ⟨[98], by decide⟩ [⟨[97], by decide⟩] rfl]
  rfl

end ConfigDb
