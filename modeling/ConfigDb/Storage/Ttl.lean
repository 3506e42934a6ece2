import ConfigDb.Storage.Calls
import ConfigDb.Storage.Decimal
import ConfigDb.Storage.Frame
import ConfigDb.Storage.Rename

/-!
# The arithmetic of expirations

A `set` with an expiration of `n` seconds at the time `t` stores the decimal numeral of
`t + n * 10 ^ 9` nanoseconds.  `ttl` reads the numeral back as an unsigned number of 64 bits, takes
it for a signed one, and subtracts the time; and `move` writes what is left into an expiration of 32
bits.  This file shows that nothing is lost on the way, as long as `t + n * 10 ^ 9` is a signed
number of 64 bits.

## Main definitions

* `Call.SetsLast` : calls that set a request, and do not set its key again.
* `Call.Spares` : calls that leave a key alone.
* `Exact64` : the steps of the computation are exact.

## Main results

* `ttl_exact` : the time to live of a key until it is rewritten, moved or removed.
-/

namespace ConfigDb

open Database

/-! ### The steps of the computation -/

/-- The steps from an expiration `n`, set at the time `t`, to what is left of it at the time `u` are
exact: what they compute is the signed number of 64 bits, or the unsigned number of 32 bits, that it
is stored in. -/
structure Exact64 (t : ℕ) (n : UInt32) (u : ℕ) : Prop where
  /-- The expiration in nanoseconds. -/
  nanoseconds : Int.bmod (n.toNat * 10 ^ 9) (2 ^ 64) = n.toNat * 10 ^ 9
  /-- The time stamp. -/
  stamp : Int.bmod (t + n.toNat * 10 ^ 9) (2 ^ 64) = t + n.toNat * 10 ^ 9
  /-- The numeral is read back as an unsigned number of 64 bits. -/
  numeral : fromChars 64 (toString (t + n.toNat * 10 ^ 9)) = some (t + n.toNat * 10 ^ 9)
  /-- What is left, in nanoseconds. -/
  difference : u < t + n.toNat * 10 ^ 9 →
    Int.bmod (t + n.toNat * 10 ^ 9 - u) (2 ^ 64) = t + n.toNat * 10 ^ 9 - u
  /-- What is left, as the expiration of a move. -/
  seconds : t ≤ u → (UInt32.ofNat (ttlAt u (t + n.toNat * 10 ^ 9))).toNat =
    ttlAt u (t + n.toNat * 10 ^ 9)

theorem bmod_of_lt {x : ℤ} (h₀ : 0 ≤ x) (h : x < 2 ^ 63) : Int.bmod x (2 ^ 64) = x := by
  rw [Int.bmod_eq_of_le]
  · norm_num
    omega
  · norm_num
    omega

theorem ttlAt_eq {stamp : ℕ} (h : stamp < 2 ^ 63) (u : ℕ) :
    ttlAt u stamp = if u < stamp then (stamp - u) / 10 ^ 9 else 0 := by
  have hsigned : Int.bmod stamp (2 ^ 64) = stamp := bmod_of_lt (by omega) (by omega)
  unfold ttlAt
  rw [hsigned]
  by_cases hu : u < stamp
  · have hsub : (stamp : ℤ) - u = ((stamp - u : ℕ) : ℤ) := by omega
    rw [if_pos hu, if_pos (by omega), hsub]
    generalize stamp - u = m
    omega
  · rw [if_neg hu, if_neg (by omega)]

theorem ttlAt_le {t u : ℕ} {n : UInt32} (h : t + n.toNat * 10 ^ 9 < 2 ^ 63) (hu : t ≤ u) :
    ttlAt u (t + n.toNat * 10 ^ 9) ≤ n.toNat := by
  rw [ttlAt_eq h]
  split_ifs <;> omega

theorem ttlAt_antitone {stamp u u' : ℕ} (h : stamp < 2 ^ 63) (hu : u ≤ u') :
    ttlAt u' stamp ≤ ttlAt u stamp := by
  rw [ttlAt_eq h, ttlAt_eq h]
  split_ifs <;> omega

theorem exact64 {t : ℕ} {n : UInt32} (h : t + n.toNat * 10 ^ 9 < 2 ^ 63) (u : ℕ) :
    Exact64 t n u where
  nanoseconds := bmod_of_lt (by omega) (by omega)
  stamp := bmod_of_lt (by omega) (by omega)
  numeral := fromChars_toString (by omega)
  difference hu := bmod_of_lt (by omega) (by omega)
  seconds hu := by
    have hle := ttlAt_le h hu
    have hn := n.toNat_lt
    rw [UInt32.toNat_ofNat']
    omega

/-! ### The calls -/

/-- The call sets the request, and does not set its key again. -/
def Call.SetsLast (d : RequestData) : Call → Prop
  | .set d' => d' = d
  | .setBatch kvs => ∃ ds ds', kvs = ds ++ d :: ds' ∧ ∀ d' ∈ ds', getKey d'.key ≠ getKey d.key
  | _ => False

/-- The call leaves the key alone: it is not a key of the call, or the call is refused. -/
def Call.Spares (env : Env) (cfg : Config) (key : Bytes) (s : Db) (c : Call) : Prop :=
  getKey key ∉ c.touches env s ∨ c.answer env cfg s = .bool false

section

variable {env : Env} {cfg : Config}

theorem itemActions_sets {kvs : List RequestData} {s : IdealDb} {as : List Action}
    (h : itemActions env cfg (kvs.map .set) s = some as) :
    List.Forall₂ (fun d a => ∃ i j, a = Action.put (getKey d.key) d.value d.options (env.clock i)
      (env.clock j)) kvs as := by
  induction kvs generalizing s as with
  | nil =>
    obtain rfl : [] = as := by simpa [itemActions] using h
    exact .nil
  | cons d kvs ih =>
    simp only [List.map_cons, itemActions, Item.actions, Option.bind_eq_bind,
      Option.bind_eq_some_iff] at h
    obtain ⟨bs, hbs, cs, hcs, has⟩ := h
    split_ifs at hbs
    obtain rfl := Option.some.inj hbs
    obtain rfl := Option.some.inj has
    exact .cons ⟨_, _, rfl⟩ (ih hcs)

theorem Store.expiration_actAll {cm : Columns} {k : Bytes} {kvs : List RequestData}
    {as : List Action} (h : List.Forall₂ (fun d a => ∃ i j, a = Action.put (getKey d.key) d.value
      d.options (env.clock i) (env.clock j)) kvs as) (hk : ∀ d ∈ kvs, getKey d.key ≠ k)
    (v : Columns) : (Store.actAll cfg cm v as).get .expiration k = v.get .expiration k := by
  induction h generalizing v with
  | nil => rfl
  | @cons d a kvs as ha _ ih =>
    rw [List.forall_mem_cons] at hk
    obtain ⟨i, j, rfl⟩ := ha
    change (Store.actAll cfg cm (v.setEntry cfg (getKey d.key) d.value d.options (env.clock i)
      (env.clock j)) as).get .expiration k = _
    rw [ih hk.2, Store.setEntry_expiration, if_neg fun hx => hk.1 hx.2]

theorem Store.expiration_actAll_last {cm : Columns} {d : RequestData}
    (hn : d.options.expirationInSeconds ≠ 0) {ds ds' : List RequestData}
    (hlater : ∀ d' ∈ ds', getKey d'.key ≠ getKey d.key) {as : List Action}
    (h : List.Forall₂ (fun d a => ∃ i j, a = Action.put (getKey d.key) d.value d.options
      (env.clock i) (env.clock j)) (ds ++ d :: ds') as) (v : Columns) :
    ∃ i, (Store.actAll cfg cm v as).get .expiration (getKey d.key) =
      some (toString (env.clock i + d.options.expirationInSeconds.toNat * 10 ^ 9)) := by
  induction ds generalizing as v with
  | nil =>
    cases h with
    | @cons _ a _ as ha h =>
      obtain ⟨i, j, rfl⟩ := ha
      refine ⟨i, ?_⟩
      change (Store.actAll cfg cm (v.setEntry cfg (getKey d.key) d.value d.options (env.clock i)
        (env.clock j)) as).get .expiration (getKey d.key) = _
      rw [Store.expiration_actAll h hlater, Store.setEntry_expiration, if_pos ⟨hn, rfl⟩]
  | cons d' ds ih =>
    cases h with
    | @cons _ a _ as ha h => exact ih h (Store.act cfg cm v a)

/-- **What is stored** for a key that is set with an expiration: the numeral of a clock reading and
the expiration. -/
theorem Call.SetsLast.stored (henv : env.Reliable) {d : RequestData} {c : Call}
    (hc : c.SetsLast d) (hn : d.options.expirationInSeconds ≠ 0) {s : Db}
    (h : c.answer env cfg s = .bool true) :
    ∃ i, (c.next env cfg s).columns.get .expiration (getKey d.key) =
      some (toString (env.clock i + d.options.expirationInSeconds.toNat * 10 ^ 9)) := by
  have hmut : c.Mutates := by
    cases c <;> first
      | exact trivial
      | exact hc.elim
  obtain ⟨hen, as, has⟩ := Call.accepted_of_answer henv hmut h
  obtain ⟨ds, ds', hitems, hlater⟩ : ∃ ds ds', c.items env s = (ds ++ d :: ds').map .set ∧
      ∀ d' ∈ ds', getKey d'.key ≠ getKey d.key := by
    cases c with
    | set d' =>
      obtain rfl : d' = d := hc
      exact ⟨[], [], by rw [Call.items, if_pos hen]; rfl, by simp⟩
    | setBatch kvs =>
      obtain ⟨ds, ds', rfl, hlater⟩ := hc
      exact ⟨ds, ds', by rw [Call.items, if_pos hen]; rfl, hlater⟩
    | _ => exact hc.elim
  rw [Call.next_columns henv, has]
  rw [Call.actions, hitems] at has
  exact Store.expiration_actAll_last hn hlater (itemActions_sets has) s.columns

theorem Reach.expiration {key : Bytes} {s₀ s : Db}
    (h : Reach env cfg (Call.Spares env cfg key) s₀ s) :
    s.columns.get .expiration (getKey key) = s₀.columns.get .expiration (getKey key) := by
  induction h with
  | start => rfl
  | call c hr hc ih =>
    rw [← ih]
    rcases hc with hc | hc
    · exact (c.next_changesOnly env cfg _).expiration _ hc
    · rw [Call.next_columns_of_false hc]

end

theorem Store.read_stamp {v : Columns} {k : Bytes} {stamp : ℕ} (h : stamp < 2 ^ 63)
    (hv : v.get .expiration k = some (toString stamp)) (u : ℕ) :
    v.timeLeft k u = ttlAt u stamp ∧ v.secondsLeft u k = UInt32.ofNat (ttlAt u stamp) := by
  have hread : fromChars 64 (toString stamp) = some stamp := fromChars_toString (by omega)
  rw [Store.timeLeft, Store.secondsLeft, hv]
  simp only [Option.bind_some, hread, and_self]

/-- **The time to live of a key** that has been set with an expiration of `n` seconds, by a call
that answered `true`, at the clock reading `t`.  As long as the key is left alone, `ttl` at the time
`u` answers the whole seconds of `t + n * 10 ^ 9 - u` nanoseconds, or zero.  This is at most `n`
from the time `t` on, and does not increase; every step of its computation is exact; and a move that
asks for no expiration sets its destination with exactly what is left. -/
theorem ttl_exact (env : Env) (henv : env.Reliable) (cfg : Config) (s₀ : Db) (d : RequestData)
    (c : Call) (hc : c.SetsLast d) (h : c.answer env cfg s₀ = .bool true)
    (hn : d.options.expirationInSeconds ≠ 0) :
    ∃ i, let t := env.clock i
      let n := d.options.expirationInSeconds
      let stamp := t + n.toNat * 10 ^ 9
      let left := fun u => if u < stamp then (stamp - u) / 10 ^ 9 else 0
      (c.next env cfg s₀).columns.get .expiration (getKey d.key) = some (toString stamp) ∧
        (stamp < 2 ^ 63 →
          (∀ s, Reach env cfg (Call.Spares env cfg d.key) (c.next env cfg s₀) s →
            let u := env.clock s.2.nows
            (∀ key, getKey key = getKey d.key →
              (Call.ttl key).answer env cfg s = .seconds (left u)) ∧
            (t ≤ u → ∀ opts : Options, opts.expirationInSeconds = 0 →
              (IdealDb.moveOpts env (⟨s.columns, s.columns⟩, s.2) opts
                (getKey d.key)).expirationInSeconds.toNat = left u)) ∧
          (∀ u, t ≤ u → left u ≤ n.toNat) ∧ (∀ u u', u ≤ u' → left u' ≤ left u) ∧
          ∀ u, Exact64 t n u) := by
  obtain ⟨i, hi⟩ := hc.stored henv hn h
  refine ⟨i, ?_⟩
  intro t n stamp left
  refine ⟨hi, fun ht => ?_⟩
  have hleft (u : ℕ) : left u = ttlAt u stamp := (ttlAt_eq ht u).symm
  refine ⟨fun s hs => ?_, fun u hu => ?_, fun u u' hu => ?_, exact64 ht⟩
  · intro u
    have hstamp : s.columns.get .expiration (getKey d.key) = some (toString stamp) :=
      hs.expiration.trans hi
    obtain ⟨htime, hsecs⟩ := Store.read_stamp ht hstamp u
    refine ⟨fun key hkey => ?_, fun hu opts hopts => ?_⟩
    · obtain ⟨m, hm⟩ := ttl_ideal env cfg key s.ideal
      rw [Call.answer_ideal henv, Call.prog, execIdeal_map, hm, hkey, hleft, ← htime]
      rfl
    · rw [IdealDb.moveOpts_expiration, if_neg (by simp [hopts]), hleft]
      exact (congrArg UInt32.toNat hsecs).trans ((exact64 ht u).seconds hu)
  · rw [hleft]
    exact ttlAt_le ht hu
  · rw [hleft, hleft]
    exact ttlAt_antitone ht hu

/-- `/a` is set for ten seconds at the time `5`, and `/b` is set and `/a` looked up: the third clock
reading, in which `ttl` answers, is `10 ^ 9 + 6`. -/
theorem ttl_exact_ten_seconds :
    let env := Env.reliable fun i => if i < 2 then 5 else 10 ^ 9 + 6
    let d : RequestData := ⟨[97], [1], { expirationInSeconds := 10 }⟩
    let s₁ := (Call.set d).next env (.plain false) (Db.init 1)
    let s₂ := (Call.set ⟨[98], [2], {}⟩).next env (.plain false) s₁
    s₁.columns.get .expiration [47, 97] = some (toString (5 + 10 * 10 ^ 9)) ∧
      (Call.ttl [97]).answer env (.plain false) s₂ = .seconds 8 := by
  intro env d s₁ s₂
  have hset : (Call.set d).answer env (.plain false) (Db.init 1) = .bool true := by decide
  have hstored : s₁.columns.get .expiration [47, 97] = some (toString (5 + 10 * 10 ^ 9)) := by
    decide +kernel
  have hu : env.clock s₂.2.nows = 10 ^ 9 + 6 := by decide +kernel
  have hreach : Reach env (.plain false) (Call.Spares env (.plain false) d.key) s₁ s₂ := by
    refine .call (.set ⟨[98], [2], {}⟩) .start (.inl ?_)
    rw [Call.touches, Set.mem_singleton_iff]
    decide
  obtain ⟨i, hi, hrun⟩ := ttl_exact env (Env.reliable_reliable _) (.plain false) (Db.init 1) d
    (.set d) rfl hset (by decide)
  have hclock : env.clock i = 5 := by
    have := toString_injective (Option.some.inj (hi.symm.trans hstored))
    exact Nat.add_right_cancel this
  have hanswer := ((hrun (by rw [hclock]; decide)).1 s₂ hreach).1 [97] rfl
  have hn : d.options.expirationInSeconds.toNat = 10 := rfl
  simp only [hu, hclock, hn] at hanswer
  exact ⟨hstored, by rw [hanswer]; norm_num⟩

end ConfigDb
