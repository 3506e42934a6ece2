import Mathlib.Logic.Function.Basic
import Mathlib.Tactic.Common

/-!
# Parties that send their writes to each other

Every party has a copy of some data, and parts of the data belong to parties.  A party applies a
write to its own copy and sends it to the parties that listen to it, over a channel for each of them
that keeps the order.  A party that receives a write applies it to its copy and sends nothing.

There is no agreement on an order between the writes of different parties.  The copies of a part
still agree in the end if only the party that it belongs to writes it: every other copy of the part
is what the owner's was, some writes ago, and these writes are in the channel.  What does not belong
to anybody may be written by all parties, and its copies need not agree.

## Main definitions

* `Shards` : what writes do to a copy, and which parts belong to which party.
* `Behind` : a copy has the parts of a party as they were before the writes in a channel.
* `Parties`, `Parties.Step`, `Parties.Reaches` : the parties, a step, and runs.

## Main results

* `Shards.Synced.step` : every step keeps the copies behind their owners.
* `Parties.agree` : when a channel is empty, both ends agree on what belongs to the sender.
* `Parties.accepts` : a write that was made by the owner is never refused.
-/

namespace ConfigDb

variable {ν α M : Type}

/-- Writes `a : α` to copies `m : M` of some data, parts of which belong to parties `i : ν`. -/
structure Shards (ν α M : Type) where
  /-- The copy after a write; `none` if it is refused. -/
  act : α → M → Option M
  /-- The copies agree on what belongs to the party. -/
  Same : ν → M → M → Prop
  /-- The write is of data that belong to the party, or to nobody. -/
  On : Option ν → α → Prop
  /-- To agree on what belongs to a party is an equivalence. -/
  equivalence : ∀ i, Equivalence (Same i)
  /-- A write leaves alone what belongs to other parties. -/
  frame : ∀ {o a m m'}, On o a → act a m = some m' → ∀ j, o ≠ some j → Same j m m'
  /-- Whether a write is refused, and what it does, depends on the data that it is of. -/
  congr : ∀ {i a m m'}, On (some i) a → Same i m m' → Option.Rel (Same i) (act a m) (act a m')

/-- The copy `m` has what belongs to the party `i` as the copy `m'` had it before the writes in the
channel, up to writes to what belongs to nobody. -/
inductive Behind (S : Shards ν α M) (i : ν) : M → List α → M → Prop
  /-- There are no writes. -/
  | same {m m' : M} : S.Same i m m' → Behind S i m [] m'
  /-- A write to what belongs to the party. -/
  | own {a : α} {q : List α} {m m₁ m' : M} : S.On (some i) a → S.act a m = some m₁ →
      Behind S i m₁ q m' → Behind S i m (a :: q) m'
  /-- A write to what belongs to nobody. -/
  | foreign {a : α} {q : List α} {m m' : M} : S.On none a → Behind S i m q m' →
      Behind S i m (a :: q) m'

/-- The parties: their copies, and the channels from one to another. -/
@[ext] structure Parties (ν α M : Type) where
  /-- The copies. -/
  copy : ν → M
  /-- The writes in the channel from one party to another, oldest first. -/
  channel : ν → ν → List α

/-! ### Copies that are behind -/

namespace Behind

variable {S : Shards ν α M} {i : ν} {a : α} {q : List α} {m n m' n' : M}

theorem of_same (h : Behind S i m q m') (hn : S.Same i m n) : Behind S i n q m' := by
  induction h generalizing n with
  | same hm => exact .same ((S.equivalence i).trans ((S.equivalence i).symm hn) hm)
  | own ha hact _ ih =>
    have hrel := S.congr ha hn
    rw [hact] at hrel
    cases hrel' : S.act _ n with
    | none =>
      rw [hrel'] at hrel
      cases hrel
    | some n₁ =>
      rw [hrel'] at hrel
      obtain ⟨hn₁⟩ := hrel
      exact .own ha hrel' (ih hn₁)
  | foreign ha _ ih => exact .foreign ha (ih hn)

theorem trans_same (h : Behind S i m q m') (hn : S.Same i m' n') : Behind S i m q n' := by
  induction h with
  | same hm => exact .same ((S.equivalence i).trans hm hn)
  | own ha hact _ ih => exact .own ha hact (ih hn)
  | foreign ha _ ih => exact .foreign ha (ih hn)

theorem concat (h : Behind S i m q m') (ha : S.On (some i) a) (hact : S.act a m' = some n') :
    Behind S i m (q ++ [a]) n' := by
  induction h with
  | @same m m' hm =>
    have hrel := S.congr ha hm
    rw [hact] at hrel
    cases hm₁ : S.act a m with
    | none =>
      rw [hm₁] at hrel
      cases hrel
    | some m₁ =>
      rw [hm₁] at hrel
      obtain ⟨hn⟩ := hrel
      exact .own ha hm₁ (.same hn)
  | own hb hbact _ ih => exact .own hb hbact (ih hact)
  | foreign hb _ ih => exact .foreign hb (ih hact)

theorem concat_foreign (h : Behind S i m q m') (ha : S.On none a) :
    Behind S i m (q ++ [a]) m' := by
  induction h with
  | same hm => exact .foreign ha (.same hm)
  | own hb hbact _ ih => exact .own hb hbact ih
  | foreign hb _ ih => exact .foreign hb ih

/-- A write is taken from the channel: if it is of data that belong to the owner, it is not refused,
and otherwise it may be. -/
theorem receive (h : Behind S i m (a :: q) m') :
    (S.On (some i) a ∧ ∃ n, S.act a m = some n ∧ Behind S i n q m') ∨
      (S.On none a ∧ Behind S i m q m' ∧ ∀ n, S.act a m = some n → Behind S i n q m') := by
  cases h with
  | own ha hact hq => exact .inl ⟨ha, _, hact, hq⟩
  | foreign ha hq => exact .inr ⟨ha, hq, fun n hn => hq.of_same (S.frame ha hn i (by simp))⟩

end Behind

/-! ### Steps -/

namespace Parties

variable [DecidableEq ν]

/-- The write of a party enters the channels to its listeners. -/
def send (links : ν → List ν) (channel : ν → ν → List α) (i : ν) (a : α) : ν → ν → List α :=
  fun k j => if k = i ∧ j ∈ links i then channel k j ++ [a] else channel k j

/-- The channel from `i` to `j` is `q` now. -/
def setChannel (channel : ν → ν → List α) (i j : ν) (q : List α) : ν → ν → List α :=
  fun k l => if k = i ∧ l = j then q else channel k l

/-- One step; `links i` are the parties that listen to `i`. -/
inductive Step (S : Shards ν α M) (links : ν → List ν) : Parties ν α M → Parties ν α M → Prop
  /-- A party writes what belongs to it, or to nobody, and sends the write. -/
  | write {s : Parties ν α M} {i : ν} {o : Option ν} {a : α} {m : M} : (∀ j ∈ o, j = i) →
      S.On o a → S.act a (s.copy i) = some m →
      Step S links s ⟨Function.update s.copy i m, send links s.channel i a⟩
  /-- A party receives a write, and applies it unless it is refused. -/
  | receive {s : Parties ν α M} {i j : ν} {a : α} {q : List α} : s.channel i j = a :: q →
      j ∈ links i →
      Step S links s ⟨Function.update s.copy j ((S.act a (s.copy j)).getD (s.copy j)),
        setChannel s.channel i j q⟩
  /-- The copy of a party changes where it belongs to nobody. -/
  | other {s : Parties ν α M} {j : ν} {m : M} : (∀ i, S.Same i (s.copy j) m) →
      Step S links s { s with copy := Function.update s.copy j m }

/-- The states that runs from `s` reach. -/
inductive Reaches (S : Shards ν α M) (links : ν → List ν) (s : Parties ν α M) :
    Parties ν α M → Prop
  /-- Nothing has happened. -/
  | start : Reaches S links s s
  /-- One more step. -/
  | step {t t' : Parties ν α M} : Reaches S links s t → Step S links t t' → Reaches S links s t'

end Parties

/-- Every copy is behind the copies of the owners. -/
def Shards.Synced (S : Shards ν α M) (links : ν → List ν) (s : Parties ν α M) : Prop :=
  ∀ i, ∀ j ∈ links i, Behind S i (s.copy j) (s.channel i j) (s.copy i)

namespace Shards.Synced

variable [DecidableEq ν] {S : Shards ν α M} {links : ν → List ν} {s t : Parties ν α M}

theorem write (h : S.Synced links s) (hself : ∀ i, i ∉ links i) {i : ν} {o : Option ν}
    (ho : ∀ j ∈ o, j = i) {a : α} (ha : S.On o a) {m : M} (hact : S.act a (s.copy i) = some m) :
    S.Synced links ⟨Function.update s.copy i m, Parties.send links s.channel i a⟩ := by
  intro k j hj
  have hne : j ≠ k := fun heq => hself k (heq ▸ hj)
  have hframe := S.frame ha hact
  by_cases hki : k = i
  · -- the channels of the writer
    subst hki
    have hb := h k j hj
    simp only [Parties.send, hj, and_self, if_true, Function.update_self, ne_eq, hne,
      not_false_eq_true, Function.update_of_ne]
    cases o with
    | none => exact (hb.concat_foreign ha).trans_same (hframe k (by simp))
    | some o =>
      obtain rfl := ho o rfl
      exact hb.concat ha hact
  · -- the channels of the others: the writer's copy has changed only where it belongs to itself
    have hsame : S.Same k (s.copy i) m := by
      refine hframe k ?_
      rintro rfl
      exact hki (ho k rfl)
    simp only [Parties.send, hki, false_and, if_false, ne_eq, not_false_eq_true,
      Function.update_of_ne]
    by_cases hji : j = i
    · subst hji
      rw [Function.update_self]
      exact (h k j hj).of_same hsame
    · rw [Function.update_of_ne hji]
      exact h k j hj

theorem receive (h : S.Synced links s) (hself : ∀ i, i ∉ links i) {i j : ν} {a : α} {q : List α}
    (hq : s.channel i j = a :: q) (hlink : j ∈ links i) :
    S.Synced links ⟨Function.update s.copy j ((S.act a (s.copy j)).getD (s.copy j)),
      Parties.setChannel s.channel i j q⟩ := by
  have hb := h i j hlink
  rw [hq] at hb
  have hij : i ≠ j := fun heq => hself i (heq ▸ hlink)
  -- what the write does to the copy: it may change what belongs to `i`, and nothing of the others
  have hsame : ∀ k ≠ i, S.Same k (s.copy j) ((S.act a (s.copy j)).getD (s.copy j)) := by
    intro k hk
    cases hact : S.act a (s.copy j) with
    | none => exact (S.equivalence k).refl _
    | some m =>
      rcases hb.receive with ⟨ha, -⟩ | ⟨ha, -⟩
      · exact S.frame ha hact k (by simpa using hk.symm)
      · exact S.frame ha hact k (by simp)
  have hnext : Behind S i ((S.act a (s.copy j)).getD (s.copy j)) q (s.copy i) := by
    rcases hb.receive with ⟨-, n, hn, hbn⟩ | ⟨-, hkeep, hacted⟩
    · rwa [hn]
    · cases hact : S.act a (s.copy j) with
      | none => exact hkeep
      | some n => exact hacted n hact
  intro k l hl
  by_cases hkl : k = i ∧ l = j
  · obtain ⟨rfl, rfl⟩ := hkl
    simpa [Parties.setChannel, hij] using hnext
  · simp only [Parties.setChannel, if_neg hkl]
    by_cases hlj : l = j
    · subst hlj
      have hki : k ≠ i := fun heq => hkl ⟨heq, rfl⟩
      have hkl' : k ≠ l := fun heq => hself k (heq ▸ hl)
      rw [Function.update_self, Function.update_of_ne hkl']
      exact (h k l hl).of_same (hsame k hki)
    · rw [Function.update_of_ne hlj]
      by_cases hkj : k = j
      · subst hkj
        rw [Function.update_self]
        exact (h k l hl).trans_same (hsame k hij.symm)
      · rw [Function.update_of_ne hkj]
        exact h k l hl

theorem other (h : S.Synced links s) {j : ν} {m : M} (hm : ∀ i, S.Same i (s.copy j) m) :
    S.Synced links { s with copy := Function.update s.copy j m } := by
  have hsame (i l : ν) : S.Same i (s.copy l) (Function.update s.copy j m l) := by
    by_cases hl : l = j
    · subst hl
      rw [Function.update_self]
      exact hm i
    · rw [Function.update_of_ne hl]
      exact (S.equivalence i).refl _
  exact fun i l hl => ((h i l hl).of_same (hsame i l)).trans_same (hsame i i)

/-- **Every step keeps the copies behind their owners.** -/
theorem step (h : S.Synced links s) (hself : ∀ i, i ∉ links i) (hst : Parties.Step S links s t) :
    S.Synced links t := by
  cases hst with
  | write ho ha hact => exact h.write hself ho ha hact
  | receive hq hlink => exact h.receive hself hq hlink
  | other hm => exact h.other hm

theorem reaches (h : S.Synced links s) (hself : ∀ i, i ∉ links i)
    (hr : Parties.Reaches S links s t) : S.Synced links t := by
  induction hr with
  | start => exact h
  | step _ hst ih => exact ih.step hself hst

end Shards.Synced

namespace Parties

variable [DecidableEq ν] {S : Shards ν α M} {links : ν → List ν} {s t : Parties ν α M}

/-- **When a channel is empty, both ends agree** on what belongs to the sender. -/
theorem agree (h : S.Synced links s) (hself : ∀ i, i ∉ links i) (hr : Reaches S links s t)
    {i j : ν} (hj : j ∈ links i) (hq : t.channel i j = []) : S.Same i (t.copy j) (t.copy i) := by
  have hb := h.reaches hself hr i j hj
  rw [hq] at hb
  cases hb with
  | same hs => exact hs

/-- **A write of an owner is never refused** where it is received. -/
theorem accepts (h : S.Synced links s) (hself : ∀ i, i ∉ links i) (hr : Reaches S links s t)
    {i j : ν} (hj : j ∈ links i) {a : α} {q : List α} (hq : t.channel i j = a :: q)
    (ha : ¬ S.On none a) : (S.act a (t.copy j)).isSome := by
  have hb := h.reaches hself hr i j hj
  rw [hq] at hb
  rcases hb.receive with ⟨-, n, hn, -⟩ | ⟨hnone, -⟩
  · rw [hn]
    rfl
  · exact absurd hnone ha

end Parties

end ConfigDb
