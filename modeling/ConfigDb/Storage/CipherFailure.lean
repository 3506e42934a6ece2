import ConfigDb.Cipher.Encrypter
import ConfigDb.Storage.Rename

/-!
# When the cipher fails

`Encrypter::encrypt` and `Encrypter::decrypt` return an empty string when OpenSSL fails, as they do
for the empty value.  None of their callers tells the two apart: `get` reports an empty value,
`move` drops the ciphertext and puts an empty one in, and `set` puts an empty one in.

## Main results

* `Call.answer_of_work` : what a call with one item answers.
* `Call.Sets.data_of_true`, `Call.Moves.data_of_true` : what the two calls store.
* `cipher_failure_noticed_iff` : a failure has no effect exactly if the call is turned away before
  the cipher is used.
-/

namespace ConfigDb

open Database

variable {κ σ : Type}

/-- OpenSSL fails on a value that is not empty. -/
def OpenSSL.Fails (o : OpenSSL κ σ) (d : Direction) (cipher : κ) (key iv value : Bytes) : Prop :=
  value ≠ [] ∧ o.oneShot d (o.init d cipher key iv) value value.length = none

theorem OpenSSL.Fails.encrypt {o : OpenSSL κ σ} {cipher : κ} {key iv value : Bytes}
    (h : o.Fails .encrypt cipher key iv value) :
    (Cipher.ofOpenSSL o cipher key iv).encrypt value = [] := by
  simp only [Cipher.ofOpenSSL, Cipher.ofPartial, if_neg h.1, h.2, Option.getD_none]

theorem OpenSSL.Fails.decrypt {o : OpenSSL κ σ} {cipher : κ} {key iv value : Bytes}
    (h : o.Fails .decrypt cipher key iv value) :
    (Cipher.ofOpenSSL o cipher key iv).decrypt value = [] := by
  simp only [Cipher.ofOpenSSL, Cipher.ofPartial, if_neg h.1, h.2, Option.getD_none]

/-- The answer reports a value for a key. -/
def Answer.Reports (key : Bytes) : Answer → Prop
  | .value v => ∃ x, v = some x
  | .values vs => ∃ x, (getKey key, some x) ∈ vs
  | _ => False

/-- A call that would write `dest` is turned away: it does not pass its checks, or it asks for a key
that does not exist and `dest` does. -/
def Call.TurnedAway (s : Db) (opts : Options) (dest : Bytes) (c : Call) : Prop :=
  c.enters = false ∨ opts.ifNotExists = true ∧ (s.columns.get .data (getKey dest)).isSome

section

variable {env : Env} {cfg : Config} {s : Db} {c : Call} {i : Item}

theorem Call.actions_of_work (hen : c.enters = true) (hw : c.work env s = [i])
    (hl : c.local env s = s.2) :
    c.actions env cfg s = i.actions env cfg (⟨s.columns, s.columns⟩, s.2) := by
  rw [Call.actions, Call.items, hen, if_pos rfl, hw, Call.start, hl, itemActions_singleton]

/-- **What a call with one item answers**: whether it passes its checks and the item is accepted. -/
theorem Call.answer_of_work (henv : env.Reliable) (hm : c.Mutates) (hw : c.work env s = [i])
    (hl : c.local env s = s.2) : c.answer env cfg s =
      .bool (c.enters && (i.actions env cfg (⟨s.columns, s.columns⟩, s.2)).isSome) := by
  cases hen : c.enters with
  | false => simp [Call.answer, Call.prog_of_not_enters hm hen]
  | true =>
    have hn : c ≠ .clearExpired := fun he => by simp [he, Call.Mutates] at hm
    have hactions : c.actions env cfg s = _ := Call.actions_of_work hen hw hl
    cases ha : i.actions env cfg (⟨s.columns, s.columns⟩, s.2) with
    | some as => exact c.answer_of_actions henv hen hn (hactions.trans ha)
    | none =>
      rw [c.answer_ideal henv, c.exec_work hen hn,
        runItems_refused henv ((hactions.trans ha : c.actions env cfg s = none))]
      rfl

theorem Call.columns_of_false (henv : env.Reliable) (hm : c.Mutates)
    (h : c.answer env cfg s = .bool false) : (c.next env cfg s).columns = s.columns := by
  rw [c.next_columns henv]
  cases ha : c.actions env cfg s with
  | none => rfl
  | some as =>
    cases hen : c.enters with
    | false =>
      have hnil : c.actions env cfg s = some [] := by
        simp [Call.actions, Call.items, hen, itemActions]
      obtain rfl := Option.some.inj (hnil.symm.trans ha)
      rfl
    | true =>
      have hn : c ≠ .clearExpired := fun he => by simp [he, Call.Mutates] at hm
      rw [c.answer_of_actions henv hen hn ha] at h
      cases h

theorem Call.next_columns_of_work (henv : env.Reliable) (hm : c.Mutates) (hw : c.work env s = [i])
    (hl : c.local env s = s.2) (h : c.answer env cfg s = .bool true) :
    ∃ as, i.actions env cfg (⟨s.columns, s.columns⟩, s.2) = some as ∧
      (c.next env cfg s).columns = Store.actAll cfg s.columns s.columns as := by
  obtain ⟨hen, as, ha⟩ := c.accepted_of_answer henv hm h
  refine ⟨as, (Call.actions_of_work hen hw hl).symm.trans ha, ?_⟩
  rw [c.next_columns henv, ha]

variable {d : RequestData} {v : Bytes}

theorem Call.Sets.work (hc : c.Sets d) (env : Env) (s : Db) :
    c.work env s = [.set d] ∧ c.local env s = s.2 := by
  rcases hc with rfl | rfl <;> exact ⟨rfl, rfl⟩

theorem Call.Moves.work (hc : c.Moves d) (env : Env) (s : Db) :
    c.work env s = [.move d] ∧ c.local env s = s.2 := by
  rcases hc with rfl | rfl <;> exact ⟨rfl, rfl⟩

theorem Call.Sets.answer_iff (henv : env.Reliable) (cfg : Config) (hc : c.Sets d) (s : Db) :
    c.answer env cfg s = .bool false ↔ c.TurnedAway s d.options d.key := by
  rw [Call.answer_of_work henv hc.mutates (hc.work env s).1 (hc.work env s).2, Call.TurnedAway]
  simp only [Item.actions, Answer.bool.injEq, Bool.and_eq_false_iff]
  refine or_congr Iff.rfl ?_
  split_ifs with h
  · simpa using h
  · simpa using h

/-- A `move` of a key that exists answers `false` exactly if it is turned away. -/
theorem Call.Moves.answer_iff (henv : env.Reliable) (cfg : Config) (hc : c.Moves d)
    (hv : s.columns.get .data (getKey d.key) = some v) :
    c.answer env cfg s = .bool false ↔ c.TurnedAway s d.options d.value := by
  rw [Call.answer_of_work henv hc.mutates (hc.work env s).1 (hc.work env s).2, Call.TurnedAway]
  simp only [Item.actions, Answer.bool.injEq, Bool.and_eq_false_iff, hv]
  refine or_congr Iff.rfl ?_
  split_ifs with h
  · simpa using h
  · simpa using h

/-- A `set` that answers `true` stores what the cipher makes of its value. -/
theorem Call.Sets.data_of_true (henv : env.Reliable) (hc : c.Sets d)
    (h : c.answer env cfg s = .bool true) :
    (c.next env cfg s).columns.get .data (getKey d.key) = some (cfg.cipher.encrypt d.value) := by
  obtain ⟨as, ha, hcols⟩ :=
    Call.next_columns_of_work henv hc.mutates (hc.work env s).1 (hc.work env s).2 h
  simp only [Item.actions] at ha
  split_ifs at ha
  obtain rfl := Option.some.inj ha
  rw [hcols]
  exact (Store.setEntry_data cfg _ _ _ _ _ _ _).trans (if_pos rfl)

/-- A `move` that answers `true` stores what the cipher makes of what it made of the source. -/
theorem Call.Moves.data_of_true (henv : env.Reliable) (hc : c.Moves d)
    (hv : s.columns.get .data (getKey d.key) = some v) (h : c.answer env cfg s = .bool true) :
    (c.next env cfg s).columns.get .data (getKey d.value) =
      some (cfg.cipher.encrypt (cfg.cipher.decrypt v)) := by
  obtain ⟨as, ha, hcols⟩ :=
    Call.next_columns_of_work henv hc.mutates (hc.work env s).1 (hc.work env s).2 h
  simp only [Item.actions, hv] at ha
  split_ifs at ha
  obtain rfl := Option.some.inj ha
  rw [hcols]
  exact (Store.setEntry_data cfg _ _ _ _ _ _ _).trans (if_pos rfl)

theorem Call.answer_true_of_work (henv : env.Reliable) (hm : c.Mutates) (hw : c.work env s = [i])
    (hl : c.local env s = s.2) (h : c.answer env cfg s ≠ .bool false) :
    c.answer env cfg s = .bool true := by
  rw [Call.answer_of_work henv hm hw hl] at h ⊢
  cases hb : c.enters && (i.actions env cfg (⟨s.columns, s.columns⟩, s.2)).isSome with
  | true => rfl
  | false => exact absurd (congrArg Answer.bool hb) h

/-- A `get` of a key that exists answers from the value cache, or what the cipher makes of it. -/
theorem get_answer_of_data {key : Bytes} (henv : env.Reliable) (hk : key ≠ [])
    (hv : s.columns.get .data (getKey key) = some v) :
    (Call.get key).answer env cfg s =
      .value (some ((s.ideal.cacheLookup cfg (getKey key)).getD (cfg.cipher.decrypt v))) := by
  have hval : s.ideal.1.committed.value cfg (getKey key) = some (cfg.cipher.decrypt v) :=
    congrArg (Option.map cfg.cipher.decrypt) hv
  rw [Call.answer_ideal henv, Call.prog, execIdeal_map, get_ideal henv hk, hval]
  cases s.ideal.cacheLookup cfg (getKey key) <;> rfl

theorem getBatch_reports {key : Bytes} (henv : env.Reliable) {keys : List Bytes}
    (hk : key ∈ keys) (hv : s.columns.get .data (getKey key) = some v) :
    ((Call.getBatch keys).answer env cfg s).Reports key := by
  have hmem : getKey key ∈ keys.map getKey := List.mem_map_of_mem hk
  rw [Call.answer_ideal henv, Call.prog, execIdeal_map, getBatch_ideal henv]
  cases hl : s.ideal.cacheLookup cfg (getKey key) with
  | some x =>
    exact ⟨x, List.mem_append_left _ (List.mem_filterMap.2 ⟨_, hmem, by rw [hl]; rfl⟩)⟩
  | none =>
    have hval : s.ideal.1.committed.value cfg (getKey key) = some (cfg.cipher.decrypt v) :=
      congrArg (Option.map cfg.cipher.decrypt) hv
    refine ⟨cfg.cipher.decrypt v, List.mem_append_right _ (List.mem_map.2
      ⟨_, List.mem_filter.2 ⟨hmem, by rw [hl]; rfl⟩, by rw [hval]⟩)⟩

end

/-- **When a failure of the cipher is noticed.**  A `get` of a key whose ciphertext cannot be
decrypted reports no value exactly if the key is empty; otherwise it reports what the value cache
has, or the empty value.  A batch `get` reports a value always.  A `move` of such a key answers
`false` and leaves the ciphertext in place exactly if it is turned away: it does not pass its
checks, or it asks for a new key and its destination exists; otherwise it answers `true` and makes
the destination empty.  And so does a `set` of a value that cannot be encrypted. -/
theorem cipher_failure_noticed_iff (o : OpenSSL κ σ) (cipher : κ) (k iv : Bytes) (env : Env)
    (henv : env.Reliable) (cfg : Config) (hcfg : cfg.cipher = Cipher.ofOpenSSL o cipher k iv)
    (s : Db) :
    (∀ key v, s.columns.get .data (getKey key) = some v → o.Fails .decrypt cipher k iv v →
      (¬ ((Call.get key).answer env cfg s).Reports key ↔ key = []) ∧
      (key ≠ [] → (Call.get key).answer env cfg s =
        .value (some ((s.ideal.cacheLookup cfg (getKey key)).getD []))) ∧
      (∀ keys, key ∈ keys → ((Call.getBatch keys).answer env cfg s).Reports key) ∧
      ∀ (d : RequestData) (c : Call), d.key = key → c.Moves d →
        (c.answer env cfg s = .bool false ∧
            (c.next env cfg s).columns.get .data (getKey key) = some v ↔
          c.TurnedAway s d.options d.value) ∧
        (¬ c.TurnedAway s d.options d.value → c.answer env cfg s = .bool true ∧
          (c.next env cfg s).columns.get .data (getKey d.value) = some [])) ∧
    ∀ (d : RequestData) (c : Call), o.Fails .encrypt cipher k iv d.value → c.Sets d →
      (c.answer env cfg s = .bool false ∧ (c.next env cfg s).columns = s.columns ↔
        c.TurnedAway s d.options d.key) ∧
      (¬ c.TurnedAway s d.options d.key → c.answer env cfg s = .bool true ∧
        (c.next env cfg s).columns.get .data (getKey d.key) = some []) := by
  refine ⟨fun key v hv hfail => ?_, fun d c hfail hc => ⟨?_, fun h => ?_⟩⟩
  · have hget (hk : key ≠ []) : (Call.get key).answer env cfg s =
        .value (some ((s.ideal.cacheLookup cfg (getKey key)).getD [])) := by
      rw [get_answer_of_data henv hk hv, hcfg, hfail.decrypt]
    refine ⟨⟨fun h => ?_, ?_⟩, hget, fun keys hk => getBatch_reports henv hk hv, ?_⟩
    · by_contra hk
      rw [hget hk] at h
      exact h ⟨_, rfl⟩
    · rintro rfl ⟨x, hx⟩
      cases hx
    · rintro d c rfl hc
      rw [← Call.Moves.answer_iff henv cfg hc hv]
      refine ⟨⟨And.left, fun h => ⟨h, ?_⟩⟩, fun h => ?_⟩
      · rw [Call.columns_of_false henv hc.mutates h, hv]
      · have htrue :=
          Call.answer_true_of_work henv hc.mutates (hc.work env s).1 (hc.work env s).2 h
        have hempty : (Cipher.ofOpenSSL o cipher k iv).encrypt [] = [] := rfl
        rw [hc.data_of_true henv hv htrue, hcfg, hfail.decrypt, hempty]
        exact ⟨htrue, rfl⟩
  · rw [← Call.Sets.answer_iff henv cfg hc s]
    exact ⟨And.left, fun h => ⟨h, Call.columns_of_false henv hc.mutates h⟩⟩
  · rw [← Call.Sets.answer_iff henv cfg hc s] at h
    have htrue := Call.answer_true_of_work henv hc.mutates (hc.work env s).1 (hc.work env s).2 h
    rw [hc.data_of_true henv htrue, hcfg, hfail.encrypt]
    exact ⟨htrue, rfl⟩

/-! ### Values under another key -/

/-- The configuration with the default key, where the cipher is a permutation of the blocks. -/
def aesConfig (aes : Equiv.Perm (Cbc.Block 16)) : Config :=
  ⟨false, true, Cipher.ofOpenSSL (OpenSSL.buffered defaultDerived fun _ => aes) () defaultDerived.1
    defaultDerived.2⟩

/-- A key whose value was written with another permutation of the blocks. -/
def foreignDb : Db :=
  (Call.set ⟨[47, 97], text "value", {}⟩).next (Env.reliable fun n => n)
    (aesConfig (Equiv.refl _)) (Db.init 1)

/-- The ciphertext of `/a` in `foreignDb`. -/
def foreignText : Bytes := [126, 233, 81, 207, 18, 168, 181, 47, 27, 228, 195, 21, 8, 8, 9, 65]

theorem foreignDb_data : foreignDb.columns.get .data (getKey [47, 97]) = some foreignText := by
  decide +kernel

theorem fails_foreignText : (OpenSSL.buffered defaultDerived fun _ => defaultAes).Fails .decrypt ()
    defaultDerived.1 defaultDerived.2 foreignText := by
  unfold OpenSSL.Fails
  decide +kernel

/-- A move of the foreign value onto itself that asks for a new key is turned away. -/
theorem cipher_failure_noticed_itself :
    let c : Call := .move ⟨[47, 97], [47, 97], { ifNotExists := true }⟩
    c.answer (Env.reliable fun n => n) (aesConfig defaultAes) foreignDb = .bool false ∧
      (c.next (Env.reliable fun n => n) (aesConfig defaultAes) foreignDb).columns.get .data
        (getKey [47, 97]) = some foreignText := by
  intro c
  obtain ⟨-, -, -, hmove⟩ := (cipher_failure_noticed_iff
    (OpenSSL.buffered defaultDerived fun _ => defaultAes) () defaultDerived.1 defaultDerived.2
    (Env.reliable fun n => n) (Env.reliable_reliable _) (aesConfig defaultAes) rfl foreignDb).1
    [47, 97] foreignText foreignDb_data fails_foreignText
  exact (hmove ⟨[47, 97], [47, 97], { ifNotExists := true }⟩ c rfl (.inl rfl)).1.2
    (.inr ⟨rfl, by rw [foreignDb_data]; rfl⟩)

/-- **A value is lost.**  With the default key, `get` reports the foreign value of `/a` as an empty
one, and `move` answers `true`, drops it and makes the destination empty. -/
theorem cipher_failure_mistaken :
    let env := Env.reliable fun n => n
    let c : Call := .move ⟨[47, 97], [47, 98], {}⟩
    foreignDb.columns.get .data (getKey [47, 97]) = some foreignText ∧
      (OpenSSL.buffered defaultDerived fun _ => defaultAes).Fails .decrypt () defaultDerived.1
        defaultDerived.2 foreignText ∧
      (Call.get [47, 97]).answer env (aesConfig defaultAes) foreignDb = .value (some []) ∧
      c.answer env (aesConfig defaultAes) foreignDb = .bool true ∧
      (c.next env (aesConfig defaultAes) foreignDb).columns.get .data (getKey [47, 97]) = none ∧
      (c.next env (aesConfig defaultAes) foreignDb).columns.get .data (getKey [47, 98]) =
        some [] := by
  refine ⟨foreignDb_data, fails_foreignText, ?_, ?_, ?_, ?_⟩
  all_goals decide +kernel

end ConfigDb
