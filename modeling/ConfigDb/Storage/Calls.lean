import ConfigDb.Storage.WellFormed

/-!
# Calls that should not differ

Two pairs of calls are expected to do the same.

* A call with the key `key` and the call with `/key`: keys are normalised by `getKey`, but inside
  each operation, and the overloads of `ttl` and `list` that take a vector look their keys up as
  they are.  All other operations are the same *program* for both keys.
* A call with a single key and the call with a vector of this one key: the two are written
  separately, and check different things before they begin.

The calls that get a value are written twice as well; the one for a vector answers what it finds in
the value cache first.

## Main results

* `leading_slash_invisible_iff` : when a leading slash makes no difference.
* `batch_of_one_iff` : when a batch of one is the single call.
* `get_batch_answers_each` : a batch get answers what the single calls do.
-/

namespace ConfigDb

open Std Database

/-! ### Keys with and without a leading slash -/

/-- `k'` is the key `k`, or `k` with the leading slash that it lacks. -/
inductive Slashed : Bytes → Bytes → Prop
  /-- The same key. -/
  | same (k : Bytes) : Slashed k k
  /-- A key without a leading slash, and with it. -/
  | slash {b : UInt8} (k : Bytes) (hb : b ≠ slash) : Slashed (b :: k) (slash :: b :: k)

/-- The requests differ in a leading slash of the key. -/
structure RequestData.Slashed (d d' : RequestData) : Prop where
  key : ConfigDb.Slashed d.key d'.key
  value : d'.value = d.value
  options : d'.options = d.options

/-- The requests of a move differ in leading slashes of the source and of the destination. -/
structure RequestData.MoveSlashed (d d' : RequestData) : Prop where
  key : ConfigDb.Slashed d.key d'.key
  value : ConfigDb.Slashed d.value d'.value
  options : d'.options = d.options

/-- The calls differ in leading slashes of their keys. -/
inductive Call.Slashed : Call → Call → Prop
  | get {k k' : Bytes} : ConfigDb.Slashed k k' → Call.Slashed (.get k) (.get k')
  | set {d d' : RequestData} : d.Slashed d' → Call.Slashed (.set d) (.set d')
  | remove {k k' : Bytes} : ConfigDb.Slashed k k' → Call.Slashed (.remove k) (.remove k')
  | move {d d' : RequestData} : d.MoveSlashed d' → Call.Slashed (.move d) (.move d')
  | ttl {k k' : Bytes} : ConfigDb.Slashed k k' → Call.Slashed (.ttl k) (.ttl k')
  | list {k k' : Bytes} : ConfigDb.Slashed k k' → Call.Slashed (.list k) (.list k')
  | getBatch {ks ks' : List Bytes} :
    List.Forall₂ ConfigDb.Slashed ks ks' → Call.Slashed (.getBatch ks) (.getBatch ks')
  | setBatch {ds ds' : List RequestData} :
    List.Forall₂ RequestData.Slashed ds ds' → Call.Slashed (.setBatch ds) (.setBatch ds')
  | removeBatch {ks ks' : List Bytes} :
    List.Forall₂ ConfigDb.Slashed ks ks' → Call.Slashed (.removeBatch ks) (.removeBatch ks')
  | moveBatch {ds ds' : List RequestData} :
    List.Forall₂ RequestData.MoveSlashed ds ds' → Call.Slashed (.moveBatch ds) (.moveBatch ds')
  | ttlBatch {ks ks' : List Bytes} :
    List.Forall₂ ConfigDb.Slashed ks ks' → Call.Slashed (.ttlBatch ks) (.ttlBatch ks')
  | listBatch {ks ks' : List Bytes} :
    List.Forall₂ ConfigDb.Slashed ks ks' → Call.Slashed (.listBatch ks) (.listBatch ks')

/-- The call looks its keys up as they are. -/
def Call.Raw : Call → Prop
  | .ttlBatch _ | .listBatch _ => True
  | _ => False

section

variable {cfg : Config}

theorem Slashed.getKey_eq {k k' : Bytes} (h : Slashed k k') : getKey k' = getKey k := by
  cases h with
  | same => rfl
  | slash k hb => simp [getKey, hb]

theorem Slashed.isEmpty_eq {k k' : Bytes} (h : Slashed k k') : k'.isEmpty = k.isEmpty := by
  cases h <;> rfl

theorem setTxn_slashed (cfg : Config) {d d' : RequestData} (h : d.Slashed d') :
    setTxn cfg d'.key d'.value d'.options = setTxn cfg d.key d.value d.options := by
  simp only [setTxn, h.key.getKey_eq, h.value, h.options]

theorem removeTxn_slashed {k k' : Bytes} (h : Slashed k k') (b : Bool) :
    removeTxn cfg k' b = removeTxn cfg k b := by
  simp only [removeTxn, h.getKey_eq]

theorem moveTxn_slashed {d d' : RequestData} (h : d.MoveSlashed d') :
    moveTxn cfg d'.key d'.value d'.options = moveTxn cfg d.key d.value d.options := by
  simp only [moveTxn, h.key.getKey_eq, h.value.getKey_eq, h.options]

theorem forAll_congr {α : Type} {f : α → DbProg Bool} {r : α → α → Prop}
    (hf : ∀ a a', r a a' → f a' = f a) {as as' : List α} (h : List.Forall₂ r as as') :
    forAll f as' = forAll f as := by
  induction h with
  | nil => rfl
  | cons ha _ ih => simp only [forAll, hf _ _ ha, ih]

theorem map_getKey_slashed {ks ks' : List Bytes} (h : List.Forall₂ Slashed ks ks') :
    ks'.map getKey = ks.map getKey := by
  induction h with
  | nil => rfl
  | cons hk _ ih => rw [List.map_cons, List.map_cons, hk.getKey_eq, ih]

/-- **A leading slash does not change the program** of a call that normalises its keys. -/
theorem Call.Slashed.prog_eq (cfg : Config) {c c' : Call} (h : Call.Slashed c c') (hc : ¬ c.Raw) :
    c'.prog cfg = c.prog cfg := by
  cases h with
  | get h => simp only [Call.prog, Database.get, h.getKey_eq, h.isEmpty_eq]
  | set h =>
    have hset := setTxn_slashed cfg h
    rw [h.options] at hset
    simp only [Call.prog, Database.set, hset, h.key.isEmpty_eq, h.options]
  | remove h => simp only [Call.prog, Database.remove, removeTxn_slashed h, h.isEmpty_eq]
  | move h =>
    simp only [Call.prog, Database.move, moveTxn_slashed h, h.key.isEmpty_eq, h.value.isEmpty_eq]
  | ttl h => simp only [Call.prog, Database.ttl, h.getKey_eq]
  | list h => simp only [Call.prog, Database.list, h.getKey_eq, h.isEmpty_eq]
  | getBatch h => simp only [Call.prog, Database.getBatch, map_getKey_slashed h]
  | setBatch h =>
    simp only [Call.prog, Database.setBatch, forAll_congr (fun _ _ hd => setTxn_slashed cfg hd) h]
  | removeBatch h =>
    simp only [Call.prog, Database.removeBatch,
      forAll_congr (f := fun key => removeTxn cfg key true)
        (fun _ _ hk => removeTxn_slashed hk true) h]
  | moveBatch h =>
    simp only [Call.prog, Database.moveBatch, forAll_congr (fun _ _ hd => moveTxn_slashed hd) h]
  | ttlBatch h => exact absurd trivial hc
  | listBatch h => exact absurd trivial hc

end

/-! ### Lookups of keys as they are -/

/-- The whole seconds left at time `t` until a key expires, as `ttl` computes them. -/
def Store.timeLeft (v : Columns) (k : Bytes) (t : ℕ) : ℕ :=
  match (v.get .expiration k).bind (fromChars 64) with
  | none => 0
  | some e => ttlAt t e

section

variable {env : Env} {cfg : Config}

theorem listBatch_ideal (vec : List Bytes) (s : IdealDb) :
    execIdeal env (listBatch cfg vec) s =
      (vec.map fun k => (k, (s.1.committed.get .forrest k).map Node.children), s) := by
  simp only [listBatch, execIdeal_bind, withMutex_ideal, multiGet_ideal, execIdeal_pure,
    List.zipWith_map_right, List.zipWith_self]
  refine Prod.ext (List.map_congr_left fun k _ => ?_) rfl
  cases s.1.committed.get .forrest k <;> rfl

/-- While the clock stands still, every key is answered for as of the same time. -/
theorem parseAll_ideal (cm : Columns) (keys : List Bytes) (s : IdealDb)
    (hclock : ∀ i, env.clock (s.2.nows + i) = env.clock s.2.nows) :
    ∃ m, execIdeal env
        (parseAll (keys.zip (keys.map fun k => .ofOption (cm.get .expiration k)))) s =
      (keys.map fun k => (k, cm.timeLeft k (env.clock s.2.nows)),
        s.withLocal (s.2.readClock m)) := by
  induction keys generalizing s with
  | nil => exact ⟨0, rfl⟩
  | cons k keys ih =>
    simp only [List.map_cons, List.zip_cons_cons]
    cases hg : cm.get .expiration k with
    | none =>
      obtain ⟨m, hm⟩ := ih s hclock
      refine ⟨m, ?_⟩
      simp only [Reply.ofOption_none, parseAll, execIdeal_bind, hm, execIdeal_pure,
        Store.timeLeft, hg, Option.bind_none]
    | some value =>
      cases hf : fromChars 64 value with
      | none =>
        obtain ⟨m, hm⟩ := ih s hclock
        refine ⟨m, ?_⟩
        simp only [Reply.ofOption_some, parseAll, execIdeal_bind, parseTTL_ideal, hf, hm,
          execIdeal_pure, Store.timeLeft, hg, Option.bind_some]
      | some v =>
        have hlater (i : ℕ) : env.clock (s.2.nows + 1 + i) = env.clock (s.2.nows + 1) := by
          rw [Nat.add_assoc, hclock, hclock]
        obtain ⟨m, hm⟩ := ih (s.withLocal (s.2.readClock 1)) hlater
        refine ⟨1 + m, ?_⟩
        simp only [Reply.ofOption_some, parseAll, execIdeal_bind, parseTTL_ideal, hf, hm,
          execIdeal_pure, IdealDb.withLocal_snd, Local.nows_readClock, hclock]
        refine Prod.ext ?_ ?_
        · simp only [Store.timeLeft, hg, Option.bind_some, hf]
        · simp only [IdealDb.withLocal, Local.readClock, Nat.add_assoc]

theorem ttlBatch_ideal (cfg : Config) (vec : List Bytes) (s : IdealDb)
    (hclock : ∀ i, env.clock (s.2.nows + i) = env.clock s.2.nows) :
    ∃ m, execIdeal env (ttlBatch cfg vec) s =
      (vec.map fun k => (k, s.1.committed.timeLeft k (env.clock s.2.nows)),
        s.withLocal (s.2.readClock m)) := by
  obtain ⟨m, hm⟩ := parseAll_ideal s.1.committed vec s hclock
  refine ⟨m, ?_⟩
  simp only [ttlBatch, execIdeal_bind, withMutex_ideal, multiGet_ideal, hm]

/-- Keys that differ in a leading slash are answered for alike exactly if the key with the slash has
the answer `z` of keys that are not there. -/
theorem map_eq_iff_of_slashed {β : Type} {f : Bytes → β} {z : β}
    (hf : ∀ b k, b ≠ slash → f (b :: k) = z) {ks ks' : List Bytes}
    (h : List.Forall₂ Slashed ks ks') :
    ks.map f = ks'.map f ↔ ∀ e ∈ ks.zip ks', e.1 ≠ e.2 → f e.2 = z := by
  induction h with
  | nil => simp
  | cons hk _ ih =>
    rw [List.map_cons, List.map_cons, List.cons.injEq, List.zip_cons_cons, List.forall_mem_cons, ih]
    refine and_congr_left fun _ => ?_
    cases hk with
    | same k => simp
    | @slash b k hb =>
      rw [hf b k hb]
      have hne : b :: k ≠ slash :: b :: k := by simp
      exact ⟨fun h _ => h.symm, fun h => (h hne).symm⟩

end

/-! ### A leading slash -/

/-- The answer without the keys that it repeats. -/
def Answer.unkeyed : Answer → Answer
  | .values l => .values (l.map fun e => ([], e.2))
  | .ttls l => .ttls (l.map fun e => ([], e.2))
  | .lists l => .lists (l.map fun e => ([], e.2))
  | a => a

/-- The states differ at most in how often the environment has been asked. -/
structure Db.Same (s t : Db) : Prop where
  columns : s.columns = t.columns
  pending : s.1.pending = t.1.pending
  pool : s.1.pool = t.1.pool
  valueCache : s.2.valueCache = t.2.valueCache

/-- The keys of a vector that lack a leading slash are not stored under the key with the slash: they
have no node or, for `ttl`, less than a second left. -/
def Call.SlashHarmless (env : Env) (s : Db) : Call → Call → Prop
  | .ttlBatch ks, .ttlBatch ks' => ∀ e ∈ ks.zip ks', e.1 ≠ e.2 →
      s.columns.timeLeft e.2 (env.clock s.2.nows) = 0
  | .listBatch ks, .listBatch ks' => ∀ e ∈ ks.zip ks', e.1 ≠ e.2 →
      s.columns.get .forrest e.2 = none
  | _, _ => True

section

variable {env : Env} {cfg : Config} {s : Db}

theorem Db.Same.refl (s : Db) : s.Same s := ⟨rfl, rfl, rfl, rfl⟩

theorem Db.Same.symm {t : Db} (h : s.Same t) : t.Same s :=
  ⟨h.columns.symm, h.pending.symm, h.pool.symm, h.valueCache.symm⟩

theorem Db.Same.trans {t u : Db} (h : s.Same t) (h' : t.Same u) : s.Same u :=
  ⟨h.columns.trans h'.columns, h.pending.trans h'.pending, h.pool.trans h'.pool,
    h.valueCache.trans h'.valueCache⟩

theorem Db.WellFormed.absent (h : s.WellFormed) {k : Bytes} (hk : ¬ Rooted k) {c : Column}
    (hc : c = .expiration ∨ c = .forrest ∧ k ≠ []) : s.columns.get c k = none := by
  cases hg : s.columns.get c k with
  | none => rfl
  | some x =>
    have hfits := h.committed c k x hg
    rcases hc with rfl | ⟨rfl, hne⟩
    · exact absurd hfits hk
    · exact absurd (hfits.1.resolve_left hne) hk

theorem not_rooted_cons {b : UInt8} (hb : b ≠ slash) (k : Bytes) : ¬ Rooted (b :: k) :=
  fun ⟨_, hr⟩ => hb (List.cons.inj hr).1

theorem Call.next_same_of_raw (henv : env.Reliable)
    (hclock : ∀ i, env.clock (s.2.nows + i) = env.clock s.2.nows) {c : Call} (hc : c.Raw) :
    (c.next env cfg s).Same s := by
  have hv : (c.next env cfg s).2 = (execIdeal env (c.prog cfg) s.ideal).2.2 :=
    congrArg Prod.snd (c.next_ideal henv s)
  cases c with
  | ttlBatch ks =>
    obtain ⟨h₁, h₂, h₃⟩ :=
      exec_reads (s := s) (Only.map Answer.ttls (ttlBatch_reads cfg ks))
    obtain ⟨m, hm⟩ := ttlBatch_ideal cfg ks s.ideal hclock
    refine ⟨h₁, h₂, h₃, ?_⟩
    rw [hv, Call.prog, execIdeal_map, hm]
    rfl
  | listBatch ks =>
    obtain ⟨h₁, h₂, h₃⟩ :=
      exec_reads (s := s) (Only.map Answer.lists (listBatch_reads cfg ks))
    refine ⟨h₁, h₂, h₃, ?_⟩
    rw [hv, Call.prog, execIdeal_map, listBatch_ideal]
    rfl
  | _ => exact hc.elim

end

/-- **When a leading slash is invisible.**  In every state that calls reach from the empty store, in
every environment, two calls that differ in leading slashes of their keys give the same answer, but
for the keys it repeats, and lead to the same state, unless they are the overloads of `ttl` or
`list` for vectors.  Those do so exactly if no key that lacks its slash is stored under the key with
the slash; they are compared with the clock standing still and without failures. -/
theorem leading_slash_invisible_iff (env : Env) (cfg : Config) (n : ℕ) (s : Db)
    (h : Reach env cfg (fun _ _ => True) (Db.init n) s) (c c' : Call) (hc : Call.Slashed c c')
    (henv : c.Raw → env.Reliable ∧ ∀ i, env.clock (s.2.nows + i) = env.clock s.2.nows) :
    ((c.answer env cfg s).unkeyed = (c'.answer env cfg s).unkeyed ∧
      (c.next env cfg s).Same (c'.next env cfg s)) ↔ c.SlashHarmless env s c' := by
  by_cases hraw : c.Raw
  · obtain ⟨hr, hclock⟩ := henv hraw
    have hraw' : c'.Raw := by cases hc <;> exact hraw
    have hsame : (c.next env cfg s).Same (c'.next env cfg s) :=
      (Call.next_same_of_raw hr hclock hraw).trans (Call.next_same_of_raw hr hclock hraw').symm
    rw [and_iff_left hsame, Call.answer_ideal hr, Call.answer_ideal hr]
    cases hc with
    | @ttlBatch ks ks' hks =>
      obtain ⟨m, hm⟩ := ttlBatch_ideal cfg ks s.ideal hclock
      obtain ⟨m', hm'⟩ := ttlBatch_ideal cfg ks' s.ideal hclock
      simp only [Call.prog, execIdeal_map, hm, hm', Answer.unkeyed, Answer.ttls.injEq, List.map_map,
        Call.SlashHarmless]
      refine (map_eq_iff_of_slashed (z := ([], 0)) (fun b k hb => ?_) hks).trans ?_
      · have hnone : s.columns.get .expiration (b :: k) = none :=
          h.wellFormed.absent (not_rooted_cons hb k) (.inl rfl)
        simp [Store.timeLeft, Db.ideal, TxnDb.ideal, hnone]
      · simp only [Function.comp_apply, Prod.mk.injEq, true_and]
        rfl
    | @listBatch ks ks' hks =>
      simp only [Call.prog, execIdeal_map, listBatch_ideal, Answer.unkeyed, Answer.lists.injEq,
        List.map_map, Call.SlashHarmless]
      refine (map_eq_iff_of_slashed (z := ([], none)) (fun b k hb => ?_) hks).trans ?_
      · have hnone : s.columns.get .forrest (b :: k) = none :=
          h.wellFormed.absent (not_rooted_cons hb k) (.inr ⟨rfl, by simp⟩)
        simp [Db.ideal, TxnDb.ideal, hnone]
      · simp only [Function.comp_apply, Prod.mk.injEq, true_and, Option.map_eq_none_iff]
        rfl
    | _ => exact hraw.elim
  · have hprog := hc.prog_eq cfg hraw
    have hharm : c.SlashHarmless env s c' := by
      cases hc <;> first | trivial | exact absurd trivial hraw
    simp only [Call.answer, Call.next, hprog, hharm, iff_true, true_and]
    exact Db.Same.refl _

/-- With the keys `a` and `/a` the two calls of `remove` are the same. -/
theorem leading_slash_invisible_remove :
    let env := Env.reliable fun _ => 0
    let s := (Call.set ⟨[97], [1], {}⟩).next env (.plain false) (Db.init 1)
    ((Call.remove [97]).next env (.plain false) s).Same
      ((Call.remove [47, 97]).next env (.plain false) s) :=
  ((leading_slash_invisible_iff _ (.plain false) 1 _ (.call _ .start trivial) _ _
    (.remove (.slash [] (by decide))) fun h => h.elim).2 trivial).2

/-- **A leading slash matters** to the overloads of `ttl` and `list` for vectors: with the key `a`
they find nothing, with the key `/a` they find the time and the child of `/a`. -/
theorem leading_slash_visible :
    let env := Env.reliable fun _ => 0
    let s := (Call.setBatch
      [⟨[97], [1], { expirationInSeconds := 9 }⟩, ⟨[97, 47, 98], [1], {}⟩]).next
      env (.plain false) (Db.init 1)
    (Call.ttlBatch [[97]]).answer env (.plain false) s = .ttls [([97], 0)] ∧
      (Call.ttlBatch [[47, 97]]).answer env (.plain false) s = .ttls [([47, 97], 9)] ∧
      (Call.listBatch [[97]]).answer env (.plain false) s = .lists [([97], none)] ∧
      (Call.listBatch [[47, 97]]).answer env (.plain false) s =
        .lists [([47, 97], some [[98]])] := by
  decide +kernel

/-! ### Batches of one -/

/-- The call with a vector of one in place of the single key or request. -/
def Call.batch : Call → Call
  | .get key => .getBatch [key]
  | .set data => .setBatch [data]
  | .remove key => .removeBatch [key]
  | .move data => .moveBatch [data]
  | .ttl key => .ttlBatch [key]
  | .list key => .listBatch [key]
  | c => c

/-- The call is for a single key or request. -/
def Call.Single : Call → Prop
  | .get _ | .set _ | .remove _ | .move _ | .ttl _ | .list _ => True
  | _ => False

/-- The answer for a single key that an answer for a vector of one amounts to. -/
def Answer.single : Answer → Option Answer
  | .bool b => some (.bool b)
  | .values [(_, v)] => some (.value v)
  | .ttls [(_, n)] => some (.seconds n)
  | .lists [(_, l)] => some (.nodes l)
  | _ => none

/-- The batch of one answers like the single call, and leaves the same columns and value cache. -/
structure Call.BatchAgrees (env : Env) (cfg : Config) (s : Db) (c : Call) : Prop where
  answer : (c.batch.answer env cfg s).single = some (c.answer env cfg s)
  columns : (c.batch.next env cfg s).columns = (c.next env cfg s).columns
  valueCache : (c.batch.next env cfg s).2.valueCache = (c.next env cfg s).2.valueCache

/-- The call passes the checks that the single call makes and the batch does not, or its key needs
no normalisation where the batch makes none. -/
def Call.Checked : Call → Prop
  | .get key => key ≠ []
  | .set d => d.key ≠ [] ∧ ¬ (d.options.cache = true ∧ d.options.expirationInSeconds = 0)
  | .remove key => key ≠ []
  | .move d => d.key ≠ [] ∧ d.value ≠ []
  | .ttl key => Rooted key
  | .list key => Rooted key
  | _ => True

/-- The call finds nothing, or is refused, whether as a single call or as a batch. -/
def Call.Futile (env : Env) (cfg : Config) (s : Db) : Call → Prop
  | .get key => s.ideal.cacheLookup cfg (getKey key) = none ∧
      s.columns.get .data (getKey key) = none
  | .set d => d.options.ifNotExists = true ∧ (s.columns.get .data (getKey d.key)).isSome
  | .move d => (d.options.ifNotExists = true ∧ (s.columns.get .data (getKey d.value)).isSome) ∨
      s.columns.get .data (getKey d.key) = none
  | .ttl key => s.columns.timeLeft (getKey key) (env.clock s.2.nows) = 0
  | .list key => s.columns.get .forrest (if key.isEmpty then key else getKey key) = none
  | _ => False

section

variable {env : Env} {cfg : Config} {s : Db}

theorem forAll_singleton {α : Type} (f : α → DbProg Bool) (a : α) : forAll f [a] = f a := by
  have hret : (fun b : Bool => if !b then pure false else forAll f []) =
      (pure : Bool → DbProg Bool) := by
    funext b
    cases b <;> rfl
  simp only [forAll] at hret ⊢
  rw [hret, bind_pure]

theorem Call.batch_prog {c : Call} (hm : c.Mutates) (hs : c.Single) (hc : c.Checked) :
    c.batch.prog cfg = c.prog cfg := by
  cases c with
  | set d =>
    have hk : d.key.isEmpty = false := by simpa using hc.1
    have ho : (d.options.cache && d.options.expirationInSeconds == 0) = false := by
      simpa using hc.2
    simp only [Call.batch, Call.prog, Database.setBatch, Database.set, forAll_singleton, hk, ho,
      Bool.false_eq_true, if_false]
  | remove key =>
    have hk : key.isEmpty = false := by simpa [Call.Checked] using hc
    simp only [Call.batch, Call.prog, Database.removeBatch, Database.remove, forAll_singleton, hk,
      Bool.false_eq_true, if_false]
  | move d =>
    have hk : d.key.isEmpty = false := by simpa using hc.1
    have hv : d.value.isEmpty = false := by simpa using hc.2
    simp only [Call.batch, Call.prog, Database.moveBatch, Database.move, forAll_singleton, hk, hv,
      Bool.false_eq_true, if_false]
  | _ => first | exact hm.elim | exact hs.elim

theorem Call.batchAgrees_of_exec {c : Call} {a b : Answer} {t u : Db}
    (h₁ : exec env (c.prog cfg) s = (a, t)) (h₂ : exec env (c.batch.prog cfg) s = (b, u))
    (ha : b.single = some a) (hc : u.columns = t.columns)
    (hv : u.2.valueCache = t.2.valueCache) : c.BatchAgrees env cfg s :=
  ⟨by rw [Call.answer, Call.answer, h₁, h₂, ha], by rw [Call.next, Call.next, h₁, h₂, hc],
    by rw [Call.next, Call.next, h₁, h₂, hv]⟩

/-- Both calls look the value cache up, and then the columns; only the order of the requests for an
encrypter differs. -/
theorem batchAgrees_get (hstarved : ∀ i, env.starved i = false) {key : Bytes} (hk : key ≠ []) :
    (Call.get key).BatchAgrees env cfg s := by
  have he : key.isEmpty = false := by simpa using hk
  have hlook (t : Db) (ht : t = (s.1, s.2.acquired)) :
      t.ideal.cacheLookup cfg (getKey key) = s.ideal.cacheLookup cfg (getKey key) := by
    rw [ht]
    rfl
  have hof {v : Option Bytes} {t u : Db} (h₁ : exec env (Database.get cfg key) s = (v, t))
      (h₂ : exec env (Database.getBatch cfg [key]) s = ([(getKey key, v)], u))
      (hc : u.columns = t.columns) (hv : u.2.valueCache = t.2.valueCache) :
      (Call.get key).BatchAgrees env cfg s :=
    Call.batchAgrees_of_exec
      (exec_map env s (Database.get cfg key) Answer.value |>.trans (by rw [h₁]))
      (exec_map env s (Database.getBatch cfg [key]) Answer.values |>.trans (by rw [h₂])) rfl hc hv
  cases hf : s.ideal.cacheLookup cfg (getKey key) with
  | some v =>
    refine hof (v := some v) (t := s) (u := (s.1, s.2.acquired)) ?_ ?_ rfl rfl
    · simp only [Database.get, he, Bool.false_eq_true, if_false, exec_bind, exec_findValue, hf,
        exec_pure]
    · simp only [Database.getBatch, exec_bind, exec_acquireEncrypter, hstarved, Bool.not_false,
        Bool.not_true, Bool.false_eq_true, if_false, List.map_cons, List.map_nil, findCached,
        exec_findValue, hlook _ rfl, hf, exec_pure, List.isEmpty_nil, if_true]
  | none =>
    have hbatch : exec env (Database.getBatch cfg [key]) s =
        exec env (decryptAll cfg [(getKey key, (exec env (dbGet .data (getKey key)) s).1)])
          (s.1.tick, s.2.acquired) := by
      simp only [Database.getBatch, exec_bind, exec_acquireEncrypter, hstarved, Bool.not_false,
        Bool.not_true, Bool.false_eq_true, if_false, List.map_cons, List.map_nil, findCached,
        exec_findValue, hlook _ rfl, hf, exec_pure, List.isEmpty_cons, exec_withMutex, multiGet,
        List.zip_cons_cons, List.zip_nil_right, List.nil_append]
      rfl
    have hnone {r : Reply Bytes} (hr : (exec env (dbGet .data (getKey key)) s).1 = r)
        (hne : ∀ value, r ≠ .ok value) : (Call.get key).BatchAgrees env cfg s := by
      rw [hr] at hbatch
      refine hof (v := none) (t := (s.1.tick, s.2)) (u := (s.1.tick, s.2.acquired)) ?_ ?_ rfl rfl
      · simp only [Database.get, he, Bool.false_eq_true, if_false, exec_bind, exec_findValue, hf,
          exec_withMutex, hr]
        cases r with
        | ok value => exact absurd rfl (hne value)
        | notFound => rfl
        | error => rfl
      · cases r with
        | ok value => exact absurd rfl (hne value)
        | notFound => exact hbatch
        | error => exact hbatch
    cases hr : (exec env (dbGet .data (getKey key)) s).1 with
    | ok value =>
      rw [hr] at hbatch
      simp only [decryptAll, exec_bind, exec_putValue, exec_pure] at hbatch
      refine hof (v := some (cfg.cipher.decrypt value)) ?_ hbatch rfl rfl
      simp only [Database.get, he, Bool.false_eq_true, if_false, exec_bind, exec_findValue, hf,
        exec_withMutex, hr, exec_acquireEncrypter, hstarved, Bool.not_false, Bool.not_true,
        exec_putValue, exec_pure]
      rfl
    | notFound => exact hnone hr fun _ => by simp
    | error => exact hnone hr fun _ => by simp

theorem exec_listBatch_singleton {key : Bytes} (hk : Rooted key) :
    exec env (Database.listBatch cfg [key]) s =
      ([(key, (exec env (Database.list cfg key) s).1)],
        (exec env (Database.list cfg key) s).2) := by
  have he : key.isEmpty = false := by
    obtain ⟨r, rfl⟩ := hk
    rfl
  simp only [Database.listBatch, Database.list, exec_bind, exec_withMutex, multiGet, exec_pure, he,
    Bool.false_eq_true, if_false, hk.getKey]
  cases (exec env (dbGet .forrest key) s).1 <;> rfl

theorem exec_ttlBatch_singleton {key : Bytes} (hk : Rooted key) :
    exec env (Database.ttlBatch cfg [key]) s =
      ([(key, (exec env (Database.ttl cfg key) s).1)], (exec env (Database.ttl cfg key) s).2) := by
  simp only [Database.ttlBatch, Database.ttl, exec_bind, exec_withMutex, multiGet, exec_pure,
    hk.getKey, List.zip_cons_cons, List.zip_nil_right]
  cases (exec env (dbGet .expiration key) s).1 with
  | ok v => simp only [parseAll, exec_bind, exec_pure]
  | notFound => rfl
  | error => rfl

/-- **A checked call** agrees with its batch of one, whatever database calls fail. -/
theorem Call.batchAgrees_of_checked (hstarved : ∀ i, env.starved i = false) {c : Call}
    (hs : c.Single) (hc : c.Checked) : c.BatchAgrees env cfg s := by
  have hbool {p : DbProg Bool} (hp : c.prog cfg = Answer.bool <$> p) (hm : c.Mutates) :
      c.BatchAgrees env cfg s := by
    have hb : c.batch.prog cfg = Answer.bool <$> p := (Call.batch_prog hm hs hc).trans hp
    exact Call.batchAgrees_of_exec (by rw [hp, exec_map]) (by rw [hb, exec_map]) rfl rfl rfl
  cases c with
  | get key => exact batchAgrees_get hstarved hc
  | set d => exact hbool rfl trivial
  | remove key => exact hbool rfl trivial
  | move d => exact hbool rfl trivial
  | ttl key =>
    refine Call.batchAgrees_of_exec (b := .ttls [(key, (exec env (Database.ttl cfg key) s).1)])
      (exec_map env s _ _) ((exec_map env s _ _).trans ?_) rfl rfl rfl
    rw [exec_ttlBatch_singleton hc]
  | list key =>
    refine Call.batchAgrees_of_exec (b := .lists [(key, (exec env (Database.list cfg key) s).1)])
      (exec_map env s _ _) ((exec_map env s _ _).trans ?_) rfl rfl rfl
    rw [exec_listBatch_singleton hc]
  | _ => exact hs.elim

/-- A writing call that is turned away at once agrees with its batch of one exactly if the one item
of the batch is refused. -/
theorem Call.batchAgrees_iff_refused (henv : env.Reliable) {c : Call} {i : Item}
    (hs : c.prog cfg = pure (.bool false)) (hb : c.batch.enters = true)
    (hn : c.batch ≠ .clearExpired) (hi : c.batch.items env s = [i]) :
    c.BatchAgrees env cfg s ↔ i.actions env cfg (c.batch.start env s) = none := by
  have hans : c.batch.answer env cfg s =
      .bool (i.step env cfg (c.batch.start env s)).1 := by
    rw [Call.answer_ideal henv, Call.exec_work hb hn, hi, runItems_singleton]
    rfl
  have hs₁ : c.answer env cfg s = .bool false := by rw [Call.answer, hs]; rfl
  have hs₂ : c.next env cfg s = s := by rw [Call.next, hs]; rfl
  constructor
  · intro h
    have h₁ := h.answer
    rw [hans, hs₁] at h₁
    cases ha : i.actions env cfg (c.batch.start env s) with
    | none => rfl
    | some as =>
      obtain ⟨l, hl, -⟩ := Item.step_accepted henv ha
      rw [hl] at h₁
      simp [Answer.single] at h₁
  · intro h
    have hstep := Item.step_refused henv h
    have hfalse : c.batch.answer env cfg s = .bool false := by rw [hans, hstep]
    refine ⟨by rw [hfalse, hs₁]; rfl, ?_, ?_⟩
    · rw [Call.next_columns_of_false hfalse, hs₂]
    · have hsettle : (c.batch.next env cfg s).ideal = _ := Call.next_of_enters henv hb s
      have hlocal : (c.batch.local env s).valueCache = s.2.valueCache := by
        cases c.batch <;> rfl
      rw [hi, runItems_singleton] at hsettle
      have hnext : (c.batch.next env cfg s).2.valueCache =
          (settle (i.step env cfg (c.batch.start env s))).2.valueCache :=
        congrArg (fun t : IdealDb => t.2.valueCache) hsettle
      rw [hstep] at hnext
      rw [hs₂]
      exact hnext.trans hlocal

/-- In a reliable environment, reading calls that leave the value cache alone agree if their answers
do. -/
theorem Call.batchAgrees_iff_answer (henv : env.Reliable) {c : Call} {a b : Answer} {l l' : Local}
    (h₁ : execIdeal env (c.prog cfg) s.ideal = (a, s.ideal.withLocal l))
    (h₂ : execIdeal env (c.batch.prog cfg) s.ideal = (b, s.ideal.withLocal l'))
    (hl : l'.valueCache = l.valueCache) : c.BatchAgrees env cfg s ↔ b.single = some a := by
  have ha : c.answer env cfg s = a := by rw [Call.answer_ideal henv, h₁]
  have hb : c.batch.answer env cfg s = b := by rw [Call.answer_ideal henv, h₂]
  have hn₁ : (c.next env cfg s).ideal = s.ideal.withLocal l := by rw [Call.next_ideal henv, h₁]
  have hn₂ : (c.batch.next env cfg s).ideal = s.ideal.withLocal l' := by
    rw [Call.next_ideal henv, h₂]
  constructor
  · intro h
    rw [← ha, ← hb]
    exact h.answer
  · intro h
    refine ⟨by rw [ha, hb, h], ?_, ?_⟩
    · exact (congrArg (fun t : IdealDb => t.1.committed) hn₂).trans
        (congrArg (fun t : IdealDb => t.1.committed) hn₁).symm
    · exact ((congrArg (fun t : IdealDb => t.2.valueCache) hn₂).trans hl).trans
        (congrArg (fun t : IdealDb => t.2.valueCache) hn₁).symm

theorem ttl_ideal (env : Env) (cfg : Config) (key : Bytes) (t : IdealDb) :
    ∃ m, execIdeal env (ttl cfg key) t =
    (t.1.committed.timeLeft (getKey key) (env.clock t.2.nows),
      t.withLocal (t.2.readClock m)) := by
  simp only [Database.ttl, withMutex_ideal, execIdeal_bind, execIdeal_dbGet, Store.timeLeft]
  cases t.1.committed.get .expiration (getKey key) with
  | none => exact ⟨0, rfl⟩
  | some value =>
    simp only [Reply.ofOption_some, parseTTL_ideal, Option.bind_some]
    cases fromChars 64 value with
    | none => exact ⟨0, rfl⟩
    | some v => exact ⟨1, rfl⟩

theorem list_ideal {key : Bytes} (hk : key ≠ []) (t : IdealDb) : execIdeal env (list cfg key) t =
    ((t.1.committed.get .forrest (getKey key)).map Node.children, t) := by
  have he : key.isEmpty = false := by simpa using hk
  simp only [Database.list, he, Bool.false_eq_true, if_false, withMutex_ideal, execIdeal_bind,
    execIdeal_dbGet]
  cases t.1.committed.get .forrest (getKey key) <;> rfl

theorem batchAgrees_get_nil_iff (henv : env.Reliable) :
    (Call.get []).BatchAgrees env cfg s ↔ (Call.get []).Futile env cfg s := by
  have hget : execIdeal env ((Call.get []).prog cfg) s.ideal =
      (.value none, s.ideal.withLocal s.2) := rfl
  have hans : (Call.get []).answer env cfg s = .value none := by rw [Call.answer_ideal henv, hget]
  have hbatch : (Call.get []).batch.answer env cfg s =
      .values (execIdeal env (getBatch cfg [[]]) s.ideal).1 := by
    rw [Call.answer_ideal henv]
    exact congrArg Prod.fst (execIdeal_map env s.ideal (getBatch cfg [[]]) Answer.values)
  simp only [Call.Futile]
  cases hf : s.ideal.cacheLookup cfg (getKey []) with
  | some v =>
    refine iff_of_false (fun h => ?_) (by simp)
    have h₁ := h.answer
    rw [hans, hbatch, getBatch_ideal henv] at h₁
    simp [hf, Answer.single] at h₁
  | none =>
    cases hd : s.columns.get .data (getKey []) with
    | some v =>
      refine iff_of_false (fun h => ?_) (by simp)
      have h₁ := h.answer
      have hvalue : s.ideal.1.committed.value cfg (getKey []) = some (cfg.cipher.decrypt v) := by
        rw [Store.value, show s.ideal.1.committed.get .data (getKey []) = some v from hd]
        rfl
      rw [hans, hbatch, getBatch_ideal henv] at h₁
      simp [hf, hvalue, Answer.single] at h₁
    | none =>
      have hvalue : s.ideal.1.committed.value cfg (getKey []) = none := by
        rw [Store.value, show s.ideal.1.committed.get .data (getKey []) = none from hd]
        rfl
      have hb : execIdeal env ((Call.get []).batch.prog cfg) s.ideal =
          (.values [(getKey [], none)], s.ideal.withLocal s.2.acquired) := by
        simp only [Call.batch, Call.prog, execIdeal_map, getBatch_ideal henv]
        simp [hf, hvalue, Local.loaded]
        rfl
      exact iff_of_true ((Call.batchAgrees_iff_answer henv hget hb rfl).2 rfl) ⟨rfl, rfl⟩

theorem batchAgrees_ttl_iff (henv : env.Reliable) (hwf : s.WellFormed) {key : Bytes}
    (hk : ¬ Rooted key) :
    (Call.ttl key).BatchAgrees env cfg s ↔ (Call.ttl key).Futile env cfg s := by
  obtain ⟨m, hm⟩ := ttl_ideal env cfg key s.ideal
  have hnone : s.ideal.1.committed.get .expiration key = none := hwf.absent hk (.inl rfl)
  have hone : execIdeal env ((Call.ttl key).prog cfg) s.ideal =
      (.seconds (s.columns.timeLeft (getKey key) (env.clock s.2.nows)),
        s.ideal.withLocal (s.2.readClock m)) := by
    rw [Call.prog, execIdeal_map, hm]
    rfl
  have hbatch : execIdeal env ((Call.ttl key).batch.prog cfg) s.ideal =
      (.ttls [(key, 0)], s.ideal.withLocal s.2) := by
    simp only [Call.batch, Call.prog, execIdeal_map, Database.ttlBatch, execIdeal_bind,
      withMutex_ideal, multiGet_ideal, List.map_cons, List.map_nil, List.zip_cons_cons,
      List.zip_nil_right, hnone]
    rfl
  rw [Call.batchAgrees_iff_answer henv hone hbatch rfl]
  simp only [Answer.single, Call.Futile, Option.some.injEq, Answer.seconds.injEq]
  exact eq_comm

theorem batchAgrees_list_iff (henv : env.Reliable) (hwf : s.WellFormed) {key : Bytes}
    (hk : ¬ Rooted key) :
    (Call.list key).BatchAgrees env cfg s ↔ (Call.list key).Futile env cfg s := by
  have hbatch : execIdeal env ((Call.list key).batch.prog cfg) s.ideal =
      (.lists [(key, (s.columns.get .forrest key).map Node.children)], s.ideal.withLocal s.2) := by
    simp only [Call.batch, Call.prog, execIdeal_map, listBatch_ideal]
    rfl
  by_cases he : key = []
  · subst he
    have hone : execIdeal env ((Call.list []).prog cfg) s.ideal =
        (.nodes none, s.ideal.withLocal s.2) := rfl
    rw [Call.batchAgrees_iff_answer henv hone hbatch rfl]
    simp [Answer.single, Call.Futile]
  · have hone : execIdeal env ((Call.list key).prog cfg) s.ideal =
        (.nodes ((s.columns.get .forrest (getKey key)).map Node.children),
          s.ideal.withLocal s.2) := by
      rw [Call.prog, execIdeal_map, list_ideal he]
      rfl
    have hnone : s.columns.get .forrest key = none := hwf.absent hk (.inr ⟨rfl, he⟩)
    have hempty : key.isEmpty = false := by simpa using he
    rw [Call.batchAgrees_iff_answer henv hone hbatch rfl, hnone]
    simp only [Answer.single, Call.Futile, hempty, Bool.false_eq_true, if_false, Option.map_none,
      Option.some.injEq, Answer.nodes.injEq]
    rw [eq_comm, Option.map_eq_none_iff]

/-- **A call that is not checked** agrees with its batch of one exactly if it is futile. -/
theorem Call.batchAgrees_iff_futile (henv : env.Reliable) (hwf : s.WellFormed) {c : Call}
    (hs : c.Single) (hc : ¬ c.Checked) : c.BatchAgrees env cfg s ↔ c.Futile env cfg s := by
  have henters (hm : c.Mutates) : c.prog cfg = pure (.bool false) := by
    refine Call.prog_of_not_enters hm ?_
    cases c <;> first
      | exact hm.elim
      | exact hs.elim
      | simpa [Call.Checked, Call.enters, or_iff_not_imp_left] using hc
  cases c with
  | set d =>
    rw [Call.batchAgrees_iff_refused henv (i := .set d) (henters trivial) rfl
      (by simp [Call.batch]) rfl]
    simp [Item.actions, Call.Futile, Call.batch, Call.start, Option.isSome_iff_ne_none]
  | remove key =>
    rw [Call.batchAgrees_iff_refused henv (i := .remove key) (henters trivial) rfl
      (by simp [Call.batch]) rfl]
    simp [Item.actions, Call.Futile]
  | move d =>
    rw [Call.batchAgrees_iff_refused henv (i := .move d) (henters trivial) rfl
      (by simp [Call.batch]) rfl]
    simp only [Item.actions, Call.Futile, Call.batch, Call.start]
    cases s.columns.get .data (getKey d.key) <;> simp [Option.isSome_iff_ne_none]
  | get key =>
    obtain rfl : key = [] := by simpa [Call.Checked] using hc
    exact batchAgrees_get_nil_iff henv
  | ttl key => exact batchAgrees_ttl_iff henv hwf hc
  | list key => exact batchAgrees_list_iff henv hwf hc
  | _ => exact hs.elim

end

/-- **When a batch of one is the single call.**  In every state that calls reach from the empty
store, a call that passes the checks of the single call agrees with its batch of one, whatever
database calls fail, as long as the encrypter pool is not exhausted.  If nothing fails, the other
calls agree exactly if they find nothing or are refused anyway. -/
theorem batch_of_one_iff (env : Env) (cfg : Config) (n : ℕ) (s : Db)
    (h : Reach env cfg (fun _ _ => True) (Db.init n) s) (hstarved : ∀ i, env.starved i = false)
    (c : Call) (hs : c.Single) :
    (c.Checked → c.BatchAgrees env cfg s) ∧
      (env.Reliable → (c.BatchAgrees env cfg s ↔ c.Checked ∨ c.Futile env cfg s)) := by
  have hchecked : c.Checked → c.BatchAgrees env cfg s := Call.batchAgrees_of_checked hstarved hs
  refine ⟨hchecked, fun henv => ?_⟩
  by_cases hc : c.Checked
  · exact iff_of_true (hchecked hc) (.inl hc)
  · rw [Call.batchAgrees_iff_futile henv h.wellFormed hs hc]
    exact ⟨.inr, fun h => h.resolve_left hc⟩

/-- The single call and the batch of one that get `/a`. -/
theorem batch_of_one_get :
    let env := Env.reliable fun _ => 0
    let s := (Call.set ⟨[97], [1], {}⟩).next env (.plain true) (Db.init 1)
    (Call.get [97]).BatchAgrees env (.plain true) s :=
  (batch_of_one_iff _ (.plain true) 1 _ (.call _ .start trivial) (fun _ => rfl) (.get [97])
    trivial).1 (by simp [Call.Checked])

/-- **A batch of one that is not the single call.**  The single call rejects the empty key, and a
cache entry without expiration; the batch stores both. -/
theorem batch_of_one_differs :
    let env := Env.reliable fun _ => 0
    let s := Db.init 1
    (Call.set ⟨[], [1], {}⟩).answer env (.plain false) s = .bool false ∧
      (Call.setBatch [⟨[], [1], {}⟩]).answer env (.plain false) s = .bool true ∧
      ((Call.setBatch [⟨[], [1], {}⟩]).next env (.plain false) s).columns.get .data [47] =
        some [1] ∧
      (Call.set ⟨[97], [1], { cache := true }⟩).answer env (.plain false) s = .bool false ∧
      (Call.setBatch [⟨[97], [1], { cache := true }⟩]).answer env (.plain false) s =
        .bool true := by
  decide

/-! ### Several keys to get -/

/-- Answering those that `f` knows first, and the others from `g`, answers each once. -/
theorem perm_hits_append_misses {α β : Type} (f g : α → Option β) (l : List α) :
    ((l.filterMap fun a => (f a).map fun b => (a, some b)) ++
      (l.filter fun a => (f a).isNone).map fun a => (a, g a)).Perm
        (l.map fun a => (a, (f a).or (g a))) := by
  have hhits : (l.filterMap fun a => (f a).map fun b => (a, some b)) =
      (l.filter fun a => (f a).isSome).map fun a => (a, (f a).or (g a)) := by
    induction l with
    | nil => rfl
    | cons a l ih => cases h : f a <;> simp [h, ih]
  have hmisses : ((l.filter fun a => (f a).isNone).map fun a => (a, g a)) =
      (l.filter fun a => !(f a).isSome).map fun a => (a, (f a).or (g a)) := by
    induction l with
    | nil => rfl
    | cons a l ih => cases h : f a <;> simp_all
  rw [hhits, hmisses, ← List.map_append]
  exact (List.filter_append_perm _ l).map _

/-- **A batch get answers each request once.**  In every state, and with the value cache enabled or
not, the answers to a vector of keys are those of the single `get` of each key in this state, in
some order.  They come in the order of the requests if the cache is not enabled. -/
theorem get_batch_answers_each (env : Env) (henv : env.Reliable) (cfg : Config) (s : Db)
    (keys : List Bytes) (hkeys : ∀ key ∈ keys, key ≠ []) :
    let single := keys.map fun key => (getKey key, (exec env (Database.get cfg key) s).1)
    (exec env (Database.getBatch cfg keys) s).1.Perm single ∧
      (cfg.enableCache = false → (exec env (Database.getBatch cfg keys) s).1 = single) := by
  intro single
  have hsingle : single = (keys.map getKey).map fun ks =>
      (ks, (s.ideal.cacheLookup cfg ks).or (s.columns.value cfg ks)) := by
    rw [List.map_map]
    refine List.map_congr_left fun key hk => ?_
    rw [(exec_ideal henv _ s).1, get_ideal henv (hkeys key hk)]
    change _ = (getKey key, (s.ideal.cacheLookup cfg (getKey key)).or
      (s.ideal.1.committed.value cfg (getKey key)))
    cases s.ideal.cacheLookup cfg (getKey key) with
    | some v => rfl
    | none => cases s.ideal.1.committed.value cfg (getKey key) <;> rfl
  rw [hsingle, (exec_ideal henv _ s).1, getBatch_ideal henv]
  refine ⟨perm_hits_append_misses _ _ _, fun hcache => ?_⟩
  have hmiss (ks : Bytes) : s.ideal.cacheLookup cfg ks = none := by
    simp [IdealDb.cacheLookup, hcache]
  simp only [hmiss, Option.map_none, List.filterMap_none, Option.isNone_none, List.filter_true,
    List.nil_append, Option.none_or]
  rfl

/-- With `/b` in the value cache, `/a` only in the store and `/c` in none of the two, a batch get
that repeats `/a` answers for `/b` first. -/
theorem get_batch_answers_each_mixed :
    let env := Env.reliable fun _ => 0
    let cfg := Config.plain true
    let s₁ := (Call.set ⟨[97], [1], {}⟩).next env (.plain false) (Db.init 1)
    let s₂ := (Call.set ⟨[98], [2], {}⟩).next env cfg s₁
    let single := [[97], [98], [99], [97]].map fun key =>
      (getKey key, (exec env (Database.get cfg key) s₂).1)
    (exec env (Database.getBatch cfg [[97], [98], [99], [97]]) s₂).1.Perm single ∧
      (exec env (Database.getBatch cfg [[97], [98], [99], [97]]) s₂).1 =
        [([47, 98], some [2]), ([47, 97], some [1]), ([47, 99], none), ([47, 97], some [1])] := by
  intro env cfg s₁ s₂ single
  exact ⟨(get_batch_answers_each env (Env.reliable_reliable _) cfg s₂ [[97], [98], [99], [97]]
    (by decide)).1, by decide⟩

end ConfigDb
