import ConfigDb.Storage.Values

/-!
# Failed calls to RocksDB

Every call to RocksDB may fail, and the storage code tests the status of each by hand.  This module
watches the calls of a run, in *every* environment.  A failure is *overlooked* where the code takes
it for a key that is not there, or tests another status in its place:

* `remove` looks the marker of its key up in the database, and takes a failure for no marker; where
  there is a marker it deletes it, and tests the status of the lookup instead;
* `move` looks the marker and the time stamp of its source up, and takes a failure for none;
* `removeChild` looks up whether a path that has lost its last child is a key itself, and takes a
  failure for no.

Every other failure makes the call fail.

## Main definitions

* `StoreCall`, `Call.storeCalls` : the RocksDB calls of a run.
* `StoreCall.unchecked` : the calls whose failure is overlooked.
* `Tally` : what is taken down of the calls of a run.

## Main results

* `Call.answer_true_iff` : a mutating call answers `true` exactly if it is accepted and no failure
  is noticed.
* `error_noticed_iff` : exactly when a failed call to RocksDB makes the whole call fail.
* `Call.run_sound`, `Call.committed_of_true` : a call that answers `true`, and none of whose
  failures is overlooked, runs as in a reliable environment, and has done its actions.
-/

namespace ConfigDb

open Database

/-! ### The RocksDB calls of a run -/

/-- A call to RocksDB. -/
structure StoreCall where
  /-- The call. -/
  op : TxnOp Bytes Column.Value
  /-- It has failed. -/
  failed : Bool

/-- The lookup has failed, with anything other than `NotFound`. -/
def Reply.failed {α : Type} : Reply α → Bool
  | .error => true
  | _ => false

/-- The call to RocksDB that a program makes, if it is one: `Get`, `Put`, `Delete` and `Commit`, but
not `Rollback`. -/
def Op.storeCall : (e : DbOp) → Op.Res ProcOp.Res e → List StoreCall
  | .store (.get c k), r => [⟨.get c k, r.failed⟩]
  | .store (.read c k), r => [⟨.read c k, r.failed⟩]
  | .store (.put c k v), r => [⟨.put c k v, !r⟩]
  | .store (.delete c k), r => [⟨.delete c k, !r⟩]
  | .store .commit, r => [⟨.commit, !r⟩]
  | _, _ => []

/-- The RocksDB calls of a run of a call, in order. -/
def Call.storeCalls (env : Env) (cfg : Config) (s : Db) (c : Call) : List StoreCall :=
  Prog.log Op.storeCall env.handle (c.prog cfg) s

/-- The call deletes a node of the tree. -/
def StoreCall.dropsNode (x : StoreCall) : Bool :=
  match x.op with
  | .delete .forrest _ => true
  | _ => false

/-- Nobody looks whether the call `x`, made right after the call `before`, has failed. -/
def StoreCall.unchecked (before : Option StoreCall) (x : StoreCall) : Bool :=
  match x.op with
  -- `remove` : the marker of the key, and its deletion
  | .read .cache _ => true
  | .delete .cache _ => true
  -- `move` : the marker and the time stamp of the source
  | .get .cache _ => true
  | .get .expiration _ => true
  -- `removeChild` : the value of a path whose node has just been deleted
  | .get .data _ => before.any StoreCall.dropsNode
  | _ => false

/-- The calls of a list, each with the call before it. -/
def withBefore (before : Option StoreCall) (xs : List StoreCall) :
    List (Option StoreCall × StoreCall) :=
  (before :: xs.map some).zip xs

/-- A call whose status is tested has failed. -/
def StoreCall.Noticed (xs : List StoreCall) : Prop :=
  ∃ x ∈ withBefore none xs, x.2.failed = true ∧ x.2.unchecked x.1 = false

/-- A call whose status is not tested has failed. -/
def StoreCall.Overlooked (xs : List StoreCall) : Prop :=
  ∃ x ∈ withBefore none xs, x.2.failed = true ∧ x.2.unchecked x.1 = true

instance (xs : List StoreCall) : Decidable (StoreCall.Noticed xs) :=
  inferInstanceAs (Decidable (∃ x ∈ withBefore none xs, x.2.failed = true ∧
    x.2.unchecked x.1 = false))

instance (xs : List StoreCall) : Decidable (StoreCall.Overlooked xs) :=
  inferInstanceAs (Decidable (∃ x ∈ withBefore none xs, x.2.failed = true ∧
    x.2.unchecked x.1 = true))

/-- The environment in which no call to RocksDB fails, and all else is as in `env`. -/
def Env.unfailing (env : Env) : Env := { env with fails := fun _ _ => false }

/-! ### Watching a run -/

/-- What is taken down of the calls of a run. -/
structure Tally where
  /-- The last RocksDB call. -/
  before : Option StoreCall
  /-- A call whose status is tested has failed. -/
  noticed : Bool
  /-- A call whose status is not tested has failed. -/
  overlooked : Bool
  /-- No encrypter was left, or the transaction was rolled back. -/
  gaveUp : Bool

namespace Tally

/-- Nothing has happened yet. -/
def start : Tally := ⟨none, false, false, false⟩

/-- One more RocksDB call. -/
def see (w : Tally) (x : StoreCall) : Tally where
  before := some x
  noticed := w.noticed || (x.failed && !x.unchecked w.before)
  overlooked := w.overlooked || (x.failed && x.unchecked w.before)
  gaveUp := w.gaveUp

/-- One more call of the program, with its answer.  The calls that no mutating call makes count as
giving up. -/
def next (e : DbOp) (r : Op.Res ProcOp.Res e) (w : Tally) : Tally :=
  match e, r with
  | .own .acquireEncrypter, r => { w with gaveUp := w.gaveUp || !r }
  | .own .stop, _ => { w with gaveUp := true }
  | .store .rollback, _ => { w with gaveUp := true }
  | .store (.scan _ _), _ => { w with gaveUp := true }
  | e, r => (e.storeCall r).foldl see w

/-- Nothing has gone wrong that anybody would have noticed, and no node has just been deleted. -/
def Calm (w : Tally) : Prop :=
  w.noticed = false ∧ w.gaveUp = false ∧ w.before.any StoreCall.dropsNode = false

/-- Nothing has gone wrong. -/
def Sound (w : Tally) : Prop :=
  w.noticed = false ∧ w.overlooked = false ∧ w.gaveUp = false

theorem start_calm : start.Calm := ⟨rfl, rfl, rfl⟩

/-- A call that does not fail, or whose failure is overlooked, leaves the watch calm. -/
theorem Calm.see {w : Tally} {x : StoreCall} (h : w.Calm) (hd : x.dropsNode = false)
    (hx : x.failed = true → x.unchecked w.before = true) : (w.see x).Calm := by
  refine ⟨?_, h.2.1, hd⟩
  rw [Tally.see, h.1, Bool.false_or, Bool.and_eq_false_imp]
  intro hf
  rw [hx hf, Bool.not_true]

theorem noticed_see (w : Tally) {x : StoreCall} (hf : x.failed = true)
    (hx : x.unchecked w.before = false) : (w.see x).noticed = true := by
  simp [Tally.see, hf, hx]

theorem noticed_of_next {e : DbOp} {r : Op.Res ProcOp.Res e} {w : Tally}
    (h : (next e r w).noticed = false) : w.noticed = false := by
  cases e with
  | own x => cases x <;> exact h
  | store o =>
    cases o <;> first
      | exact h
      | exact (Bool.or_eq_false_iff.1 h).1

end Tally

/-! ### Whatever the answers are

What a program has taken down when it returns, whatever the environment has answered. -/

/-- Whatever the answers are, what the program returns and what has been taken down satisfy `Q`. -/
abbrev Prog.Watched {α : Type} (Q : α → Tally → Prop) (p : DbProg α) (w : Tally) : Prop :=
  p.Tracks (fun _ => True) Tally.next Q w

/-- From a calm start, the program answers `true` exactly if it has noticed no failure. -/
def Prog.Checks (p : DbProg Bool) : Prop :=
  ∀ w : Tally, w.Calm →
    p.Watched (fun b w' => (b = true → w'.Calm) ∧ (b = false → w'.noticed = true)) w

/-- From a calm start, the program ends calm: it makes no call whose status is tested. -/
def Prog.StaysCalm {α : Type} (p : DbProg α) : Prop :=
  ∀ w : Tally, w.Calm → p.Watched (fun _ w' => w'.Calm) w

theorem checks_true : Prog.Checks (pure true) := fun _ hw => ⟨fun _ => hw, nofun⟩

theorem checks_put (c : Column) (k : Bytes) (v : c.Value) : (txnPut c k v).Checks := by
  intro w hw
  refine ⟨trivial, fun r => ?_⟩
  cases r with
  | true => exact ⟨fun _ => hw.see rfl nofun, nofun⟩
  | false => exact ⟨nofun, fun _ => w.noticed_see rfl rfl⟩

theorem Prog.Checks.ite {c : Prop} [Decidable c] {p q : DbProg Bool} (hp : p.Checks)
    (hq : q.Checks) : (if c then p else q).Checks := by
  split
  · exact hp
  · exact hq

theorem Prog.Checks.andThen {p q : DbProg Bool} (hp : p.Checks) (hq : q.Checks) :
    (p >>= fun b => if !b then pure false else q).Checks := by
  intro w hw
  refine .bind ((hp w hw).mono fun b w' hb => ?_)
  cases b with
  | false => exact ⟨nofun, fun _ => hb.2 rfl⟩
  | true => exact hq w' (hb.1 rfl)

theorem checks_addChild (path child : Bytes) (node : Node) : (addChild path child node).Checks :=
  .ite checks_true (checks_put _ _ _)

theorem checks_manageTreeLoop (ts : List Tuple) : (manageTreeLoop ts).Checks := by
  induction ts with
  | nil => exact checks_true
  | cons t ts ih =>
    refine fun w hw => ⟨trivial, fun r => ?_⟩
    cases r with
    | ok node =>
      exact (checks_addChild _ _ node).andThen ih _ (hw.see rfl nofun)
    | notFound => exact (checks_put _ _ _).andThen ih _ (hw.see rfl nofun)
    | error => exact ⟨nofun, fun _ => w.noticed_see rfl rfl⟩

theorem checks_enterKey (ks : Bytes) (cache : Bool) : (enterKey ks cache).Checks :=
  .ite (checks_put _ _ _) (checks_manageTreeLoop _)

theorem checks_setExpiration (ks : Bytes) (seconds : UInt32) :
    (setExpiration ks seconds).Checks := by
  have hlast (x : Bytes) : Prog.Checks (do
      let ns1 ← now
      txnPut .expiring (x ++ toString ns1) ks) :=
    fun w hw => ⟨trivial, fun t => checks_put .expiring _ ks w hw⟩
  refine .ite checks_true fun w hw => ⟨trivial, fun t => ?_⟩
  exact (checks_put .expiration ks _).andThen (hlast _) w hw

/-- After the node of a path has been updated, the watch is calm, unless the node was deleted. -/
theorem watched_removeChildNode (path child : Bytes) (node : Node) {w : Tally} (hw : w.Calm) :
    (removeChildNode path child node).Watched (fun b w' =>
      (b.1 = false → w'.noticed = true) ∧ (b.1 = true → w'.noticed = false ∧ w'.gaveUp = false ∧
        w'.before.any StoreCall.dropsNode = b.2)) w := by
  unfold removeChildNode
  simp only
  split_ifs with hvec
  · refine ⟨trivial, fun r => ?_⟩
    cases r with
    | true =>
      refine ⟨nofun, fun _ => ⟨?_, hw.2.1, rfl⟩⟩
      simp [Tally.next, Op.storeCall, Tally.see, hw.1]
    | false => exact ⟨fun _ => w.noticed_see rfl rfl, nofun⟩
  · refine ⟨trivial, fun r => ?_⟩
    cases r with
    | true => exact ⟨nofun, fun _ => hw.see rfl nofun⟩
    | false => exact ⟨fun _ => w.noticed_see rfl rfl, nofun⟩

theorem checks_removeChildLoop (ts : List Tuple) : (removeChildLoop ts).Checks := by
  induction ts with
  | nil => exact checks_true
  | cons t ts ih =>
    refine fun w hw => ⟨trivial, fun r => ?_⟩
    cases r with
    | notFound => exact checks_true _ (hw.see rfl nofun)
    | error => exact ⟨nofun, fun _ => w.noticed_see rfl rfl⟩
    | ok node =>
      have hnode := watched_removeChildNode t.1 t.2 node (hw.see (x := ⟨.get .forrest t.1, false⟩)
        rfl nofun)
      refine Prog.Tracks.bind (p := removeChildNode t.1 t.2 node) (hnode.mono fun b w' hb => ?_)
      obtain ⟨status, empty⟩ := b
      cases status with
      | false => exact ⟨nofun, fun _ => hb.1 rfl⟩
      | true =>
        obtain ⟨hn, hg, hd⟩ := hb.2 rfl
        cases empty with
        | false => exact ⟨fun _ => ⟨hn, hg, hd⟩, nofun⟩
        | true =>
          -- the lookup follows the deletion of the node, so a failure of it is overlooked
          refine ⟨trivial, fun r => ?_⟩
          have hcalm : (w'.see ⟨.get .data t.1, r.failed⟩).Calm := by
            refine ⟨?_, hg, rfl⟩
            simp only [Tally.see, StoreCall.unchecked, hn, hd, Bool.not_true, Bool.and_false,
              Bool.or_false]
          cases r with
          | ok v => exact checks_true _ hcalm
          | notFound => exact ih _ hcalm
          | error => exact ih _ hcalm

theorem checks_removeEntry (ks : Bytes) : (removeEntry ks).Checks := by
  refine fun w hw => ⟨trivial, fun r => ?_⟩
  have hcalm : (w.see ⟨.read .cache ks, r.failed⟩).Calm := hw.see rfl fun _ => rfl
  cases r with
  | ok v =>
    refine ⟨trivial, fun r => checks_true _ (hcalm.see rfl fun _ => rfl)⟩
  | notFound => exact checks_removeChildLoop _ _ hcalm
  | error => exact checks_removeChildLoop _ _ hcalm

theorem staysCalm_txnGet {c : Column} (hc : c = .cache ∨ c = .expiration) (ks : Bytes) :
    (txnGet c ks).StaysCalm := by
  refine fun w hw => ⟨trivial, fun r => ?_⟩
  rcases hc with rfl | rfl
  · exact hw.see rfl fun _ => rfl
  · exact hw.see rfl fun _ => rfl

theorem Prog.StaysCalm.bind {α β : Type} {p : DbProg α} {f : α → DbProg β} (hp : p.StaysCalm)
    (hf : ∀ a, (f a).StaysCalm) : (p >>= f).StaysCalm :=
  fun w hw => .bind ((hp w hw).mono fun a w' hw' => hf a w' hw')

theorem staysCalm_moveExpiration (opts : Options) (ks : Bytes) :
    (moveExpiration opts ks).StaysCalm := by
  unfold moveExpiration
  split_ifs
  · exact fun w hw => hw
  · refine (staysCalm_txnGet (.inr rfl) ks).bind fun r => ?_
    cases r with
    | ok nsv =>
      simp only [parseTTL]
      cases fromChars 64 nsv with
      | none => exact fun w hw => hw
      | some v => exact fun w hw => ⟨trivial, fun t => hw⟩
    | notFound => exact fun w hw => hw
    | error => exact fun w hw => hw

theorem noticed_of_record {α : Type} {env : Env} {p : DbProg α} {s : Db} {w : Tally}
    (h : (Prog.record Tally.next env.handle p s w).noticed = false) : w.noticed = false :=
  Prog.of_record (I := fun w : Tally => w.noticed = false) (fun _ _ _ => Tally.noticed_of_next) h

/-! ### If no call to RocksDB failed -/

theorem record_unfailing {α : Type} (env : Env) (p : DbProg α) (s : Db) (w : Tally) :
    (Prog.record Tally.next env.unfailing.handle p s w).noticed = w.noticed := by
  induction p generalizing s w with
  | ret a => rfl
  | call e k ih =>
    refine (ih _ _ _).trans ?_
    have hlookup {β : Type} (o : Option β) : (Reply.ofOption o).failed = false := by
      cases o <;> rfl
    cases e with
    | own x => cases x <;> rfl
    | store o => cases o <;> simp [Tally.next, Op.storeCall, Tally.see, Op.handle, TxnOp.handle,
        Env.unfailing, hlookup]

theorem Prog.Checks.unfailing {p : DbProg Bool} (hp : p.Checks) (env : Env) (s : Db) :
    (exec env.unfailing p s).1 = true := by
  have h := (hp _ Tally.start_calm).record env.unfailing.handle s
  rw [record_unfailing] at h
  by_contra hf
  exact Bool.noConfusion (h.2 (Bool.eq_false_iff.2 hf))

/-- The transactions of the two stores see the same values, and the processes have asked for the
same number of encrypters. -/
def Db.Alike (s t : Db) : Prop :=
  (∀ k, s.1.view.get .data k = t.1.view.get .data k) ∧ s.2.acquires = t.2.acquires

/-- A call inside a transaction that leaves the `data` column alone and asks for no encrypter. -/
def Op.Apart : DbOp → Prop
  | .own .acquireEncrypter => False
  | e => e.OffData

theorem Op.Aside.apart : ∀ e : DbOp, e.Aside → e.Apart
  | .store o => fun h => Op.Aside.offData (.store o) h
  | .own x => by cases x <;> simp [Op.Aside, Op.Apart, Op.OffData]

section

variable {env : Env} {cfg : Config} {α : Type}

theorem handle_apart (e : DbOp) (he : e.Apart) (s : Db) : (env.handle e s).2.Alike s := by
  cases e with
  | own x =>
    cases x with
    | acquireEncrypter => exact he.elim
    | _ => exact ⟨fun _ => rfl, rfl⟩
  | store o => exact ⟨fun k => data_handle he s k, rfl⟩

theorem Db.Alike.trans {s t u : Db} (h : s.Alike t) (h' : t.Alike u) : s.Alike u :=
  ⟨fun k => (h.1 k).trans (h'.1 k), h.2.trans h'.2⟩

theorem Db.Alike.symm {s t : Db} (h : s.Alike t) : t.Alike s :=
  ⟨fun k => (h.1 k).symm, h.2.symm⟩

theorem exec_apart (env : Env) {p : DbProg α} (hp : p.Only Op.Apart) (s : Db) :
    (exec env p s).2.Alike s :=
  hp.run_invariant (I := fun t : Db => t.Alike s) (fun e t he ht => (handle_apart e he t).trans ht)
    ⟨fun _ => rfl, rfl⟩

/-- **The program `p` against `q` without failures.**  Run from stores that are alike, `p` answers
as `q` does where no call to RocksDB fails, if it notices no failure; and if its answer is `good`,
it has noticed none, and the stores are alike in the end. -/
def Tallies (env : Env) (good : α → Prop) (p q : DbProg α) : Prop :=
  ∀ (s t : Db) (w : Tally), w.Calm → s.Alike t →
    ((Prog.record Tally.next env.handle p s w).noticed = false →
      (exec env p s).1 = (exec env.unfailing q t).1) ∧
    (good (exec env p s).1 → (Prog.record Tally.next env.handle p s w).Calm ∧
      ((exec env p s).1 = (exec env.unfailing q t).1 →
        (exec env p s).2.Alike (exec env.unfailing q t).2))

theorem Tallies.bind {good : α → Prop} {p q : DbProg α} {f g : α → DbProg Bool}
    (hp : Tallies env good p q)
    (hgood : ∀ a, good a → Tallies env (fun b => b = true) (f a) (g a))
    (hbad : ∀ a, ¬ good a → ∀ (env : Env) (s : Db), (exec env (f a) s).1 = false ∧
      (exec env (g a) s).1 = false) :
    Tallies env (fun b => b = true) (p >>= f) (q >>= g) := by
  intro s t w hw hst
  obtain ⟨hsame, hend⟩ := hp s t w hw hst
  simp only [exec_bind, Prog.record_bind]
  change ((Prog.record Tally.next env.handle (f (exec env p s).1) (exec env p s).2
      (Prog.record Tally.next env.handle p s w)).noticed = false → _) ∧
    (_ → (Prog.record Tally.next env.handle (f (exec env p s).1) (exec env p s).2
      (Prog.record Tally.next env.handle p s w)).Calm ∧ _)
  constructor
  · intro hn
    have ha := hsame (noticed_of_record hn)
    by_cases hg : good (exec env p s).1
    · obtain ⟨hcalm, halike⟩ := hend hg
      rw [← ha]
      exact (hgood _ hg _ _ _ hcalm (halike ha)).1 hn
    · rw [← ha, (hbad _ hg env _).1, (hbad _ hg env.unfailing _).2]
  · intro ht
    -- the answer was good, so nothing was noticed and the two answers are the same
    have hg : good (exec env p s).1 := by
      by_contra hg
      rw [(hbad _ hg env _).1] at ht
      exact Bool.noConfusion ht
    obtain ⟨hcalm, halike⟩ := hend hg
    have ha := hsame hcalm.1
    rw [← ha]
    exact (hgood _ hg _ _ _ hcalm (halike ha)).2 ht

theorem Tallies.aside {p q : DbProg α} {f g : α → DbProg Bool} (hp : p.StaysCalm)
    (hpa : p.Only Op.Apart) (hqa : q.Only Op.Apart)
    (hfg : ∀ a b, Tallies env (fun b => b = true) (f a) (g b)) :
    Tallies env (fun b => b = true) (p >>= f) (q >>= g) := by
  intro s t w hw hst
  have hcalm := (hp w hw).record env.handle s
  have halike := (exec_apart env hpa s).trans
    (hst.trans (exec_apart env.unfailing hqa t).symm)
  simp only [exec_bind, Prog.record_bind]
  exact hfg _ _ _ _ _ hcalm halike

theorem tallies_of_checks {p q : DbProg Bool} (hp : p.Checks) (hq : q.Checks)
    (hend : ∀ s t : Db, s.Alike t → (exec env p s).1 = true → (exec env.unfailing q t).1 = true →
      (exec env p s).2.Alike (exec env.unfailing q t).2) :
    Tallies env (fun b => b = true) p q := by
  intro s t w hw hst
  have h := (hp w hw).record env.handle s
  have hun := hq.unfailing env t
  refine ⟨fun hn => ?_, fun ht => ⟨h.1 ht, fun _ => hend s t hst ht hun⟩⟩
  rw [hun]
  by_contra hf
  exact Bool.noConfusion (hn.symm.trans (h.2 (Bool.eq_false_iff.2 hf)))

theorem tallies_apart {p q : DbProg Bool} (hp : p.Checks) (hq : q.Checks)
    (hpa : p.Only Op.Apart) (hqa : q.Only Op.Apart) : Tallies env (fun b => b = true) p q :=
  tallies_of_checks hp hq fun s t hst _ _ =>
    (exec_apart env hpa s).trans (hst.trans (exec_apart env.unfailing hqa t).symm)

theorem tallies_acquire : Tallies env (fun b => b = true) acquireEncrypter acquireEncrypter := by
  intro s t w hw hst
  simp only [exec_acquireEncrypter, hst.2]
  refine ⟨fun _ => rfl, fun ht => ⟨⟨hw.1, ?_, hw.2.2⟩, fun _ => ⟨hst.1, ?_⟩⟩⟩
  · change (w.gaveUp || !(!env.starved s.2.acquires)) = false
    rw [hst.2, ht, hw.2.1]
    rfl
  · exact congrArg (· + 1) hst.2

theorem tallies_txnGet (ks : Bytes) :
    Tallies env (fun r => r.failed = false) (txnGet .data ks) (txnGet .data ks) := by
  intro s t w hw hst
  have hrec : Prog.record Tally.next env.handle (txnGet .data ks) s w =
      w.see ⟨.get .data ks, (exec env (txnGet .data ks) s).1.failed⟩ := rfl
  have hun : (exec env.unfailing (txnGet .data ks) t).1 = .ofOption (t.1.view.get .data ks) := rfl
  have hcheck (b : Bool) : (⟨.get .data ks, b⟩ : StoreCall).unchecked w.before = false := hw.2.2
  rw [hrec, hun, ← hst.1 ks, exec_txnGet]
  split_ifs with hf
  · refine ⟨fun hn => ?_, fun hok => ?_⟩
    · exact Bool.noConfusion (hn.symm.trans (w.noticed_see rfl (hcheck _)))
    · exact Bool.noConfusion hok
  · have hok : (Reply.ofOption (s.1.view.get .data ks)).failed = false := by
      cases s.1.view.get .data ks <;> rfl
    refine ⟨fun _ => rfl, fun _ => ⟨hw.see rfl fun h => ?_, fun _ => hst⟩⟩
    exact Bool.noConfusion (hok.symm.trans h)

theorem tallies_false : Tallies env (fun b => b = true) (pure false) (pure false) :=
  fun _ _ _ _ _ => ⟨fun _ => rfl, nofun⟩

theorem tallies_refused {opts opts' : Options} (ho : opts.ifNotExists = opts'.ifNotExists)
    (ks : Bytes) {p q : DbProg Bool} (hpq : Tallies env (fun b => b = true) p q) :
    Tallies env (fun b => b = true) (refused opts ks >>= fun b => if b then pure false else p)
      (refused opts' ks >>= fun b => if b then pure false else q) := by
  unfold refused
  rw [← ho]
  split_ifs
  · exact hpq
  · simp only [bind_assoc]
    refine (tallies_txnGet ks).bind (fun r hr => ?_) fun r hr env s => ?_
    · cases r with
      | ok v => exact tallies_false
      | notFound => exact hpq
      | error => exact Bool.noConfusion hr
    · cases r with
      | error => exact ⟨rfl, rfl⟩
      | _ => exact absurd rfl hr

theorem Tallies.andThen {p q p' q' exit : DbProg Bool}
    (hexit : ∀ (env : Env) (s : Db), (exec env exit s).1 = false)
    (hp : Tallies env (fun b => b = true) p p') (hq : Tallies env (fun b => b = true) q q') :
    Tallies env (fun b => b = true) (p >>= fun b => if !b then exit else q)
      (p' >>= fun b => if !b then exit else q') := by
  refine hp.bind (fun b hb => ?_) fun b hb env s => ?_
  · rw [hb]
    exact hq
  · rw [Bool.eq_false_iff.2 hb]
    exact ⟨hexit env s, hexit env s⟩

theorem exec_rollback (env : Env) (s : Db) : (exec env (do return ← rollback) s).1 = false := rfl

theorem tallies_put (ks v : Bytes) :
    Tallies env (fun b => b = true) (txnPut .data ks v) (txnPut .data ks v) := by
  refine tallies_of_checks (checks_put _ _ _) (checks_put _ _ _) fun s t hst hs ht => ⟨?_, ?_⟩
  · intro k
    rw [(txnPut_accepted hs).1, (txnPut_accepted ht).1]
    simp [hst.1 k]
  · rw [(txnPut_accepted hs).2.2, (txnPut_accepted ht).2.2]
    exact hst.2

theorem checks_delete {c : Column} (hc : c ≠ .cache) (hf : c ≠ .forrest) (ks : Bytes) :
    (txnDelete c ks).Checks := by
  intro w hw
  refine ⟨trivial, fun r => ?_⟩
  cases r with
  | true =>
    refine ⟨fun _ => hw.see ?_ nofun, nofun⟩
    cases c <;> first | rfl | exact absurd rfl hf
  | false =>
    refine ⟨nofun, fun _ => w.noticed_see rfl ?_⟩
    cases c <;> first | rfl | exact absurd rfl hc

theorem txnDelete_accepted {c : Column} {k : Bytes} {s : Db}
    (h : (exec env (txnDelete c k) s).1 = true) :
    (exec env (txnDelete c k) s).2.1.view = s.1.view.delete c k ∧
      (exec env (txnDelete c k) s).2.2 = s.2 := by
  obtain ⟨-, hl, ⟨-, hv⟩ | ⟨hf, -⟩⟩ := txnDelete_cases env c k s
  · exact ⟨hv, hl⟩
  · exact Bool.noConfusion (hf.symm.trans h)

theorem tallies_delete (ks : Bytes) :
    Tallies env (fun b => b = true) (txnDelete .data ks) (txnDelete .data ks) := by
  have hchecks : (txnDelete .data ks).Checks := checks_delete (by decide) (by decide) ks
  refine tallies_of_checks hchecks hchecks fun s t hst hs ht => ⟨?_, ?_⟩
  · intro k
    rw [(txnDelete_accepted hs).1, (txnDelete_accepted ht).1]
    simp [hst.1 k]
  · rw [(txnDelete_accepted hs).2, (txnDelete_accepted ht).2]
    exact hst.2

theorem setExpiration_apart (ks : Bytes) (seconds : UInt32) :
    (setExpiration ks seconds).Only Op.Apart :=
  only_ite trivial (.bind (only_callOwn trivial) fun _ => .bind (only_callStore trivial) fun _ =>
    only_ite trivial (.bind (only_callOwn trivial) fun _ => only_callStore trivial))

theorem staysCalm_putValue (ks value : Bytes) : (putValue cfg ks value).StaysCalm := by
  intro w hw
  unfold putValue
  split_ifs
  · exact ⟨trivial, fun _ => hw⟩
  · exact hw

theorem staysCalm_eraseValue (ks : Bytes) : (eraseValue cfg ks).StaysCalm := by
  intro w hw
  unfold eraseValue
  split_ifs
  · exact ⟨trivial, fun _ => hw⟩
  · exact hw

theorem tallies_true : Tallies env (fun b => b = true) (pure true) (pure true) :=
  tallies_apart checks_true checks_true trivial trivial

/-- **`set` inside a transaction**, under options that ask for `ifNotExists` alike. -/
theorem tallies_setTxn {opts opts' : Options} (ho : opts.ifNotExists = opts'.ifNotExists)
    (key value : Bytes) :
    Tallies env (fun b => b = true) (setTxn cfg key value opts) (setTxn cfg key value opts') := by
  have hput : (putValue cfg (getKey key) value).Only Op.Apart :=
    only_ite (only_callOwn trivial) trivial
  refine .andThen (fun _ _ => rfl) tallies_acquire (tallies_refused ho _ ?_)
  refine .andThen exec_rollback (tallies_put _ _) ?_
  refine .andThen exec_rollback (tallies_apart (checks_enterKey _ _) (checks_enterKey _ _)
    ((enterKey_aside _ _).mono Op.Aside.apart) ((enterKey_aside _ _).mono Op.Aside.apart)) ?_
  refine .andThen exec_rollback (tallies_apart (checks_setExpiration _ _)
    (checks_setExpiration _ _) (setExpiration_apart _ _) (setExpiration_apart _ _)) ?_
  exact .aside (staysCalm_putValue _ _) hput hput fun _ _ => tallies_true

/-- **`remove` inside a transaction.** -/
theorem tallies_removeTxn (key : Bytes) :
    Tallies env (fun b => b = true) (removeTxn cfg key true) (removeTxn cfg key true) := by
  have herase : (eraseValue cfg (getKey key)).Only Op.Apart :=
    only_ite (only_callOwn trivial) trivial
  have hexp : (txnDelete .expiration (getKey key)).Checks :=
    checks_delete (by decide) (by decide) _
  refine .andThen exec_rollback (tallies_delete _) ?_
  refine .andThen exec_rollback (tallies_apart hexp hexp (only_callStore trivial)
    (only_callStore trivial)) ?_
  refine .andThen exec_rollback (tallies_apart (checks_removeEntry _) (checks_removeEntry _)
    ((removeEntry_aside _).mono Op.Aside.apart) ((removeEntry_aside _).mono Op.Aside.apart)) ?_
  exact .aside (staysCalm_eraseValue _) herase herase fun _ _ => tallies_true

/-- **`move` inside a transaction.**  What it reads of the marker and of the time stamp of the
source decides neither whether it is refused nor what it writes to the `data` column. -/
theorem tallies_moveTxn (key dest : Bytes) (opts : Options) :
    Tallies env (fun b => b = true) (moveTxn cfg key dest opts) (moveTxn cfg key dest opts) := by
  have hexp : (moveExpiration opts (getKey key)).Only Op.Apart :=
    (moveExpiration_aside _ _).mono Op.Aside.apart
  have hget : (txnGet .cache (getKey key)).Only Op.Apart := only_callStore trivial
  refine .andThen (fun _ _ => rfl) tallies_acquire (tallies_refused rfl _ ?_)
  refine (tallies_txnGet _).bind (fun r hr => ?_) fun r hr env s => ?_
  · cases r with
    | ok v =>
      refine .aside (staysCalm_txnGet (.inl rfl) _) hget hget fun r r' => ?_
      refine .aside (staysCalm_moveExpiration _ _) hexp hexp fun n n' => ?_
      have ho : (moveOptions opts r n).ifNotExists = (moveOptions opts r' n').ifNotExists := rfl
      refine .andThen exec_rollback (tallies_removeTxn _) ?_
      exact .andThen exec_rollback (tallies_setTxn ho _ _) tallies_true
    | notFound => exact tallies_false
    | error => exact tallies_false
  · cases r with
    | error => exact ⟨rfl, rfl⟩
    | _ => exact absurd rfl hr

theorem tallies_forAll {β : Type} {f : β → DbProg Bool}
    (hf : ∀ b, Tallies env (fun b => b = true) (f b) (f b)) (bs : List β) :
    Tallies env (fun b => b = true) (forAll f bs) (forAll f bs) := by
  induction bs with
  | nil => exact tallies_true
  | cons b bs ih => exact .andThen (fun _ _ => rfl) (hf b) ih

/-! ### Transactions and calls -/

theorem tallies_commitIf (saved : Bool) (hs : saved = true) :
    Tallies env (fun b => b = true) (commitIf saved) (commitIf saved) := by
  have hcommit : txnCommit.Checks := by
    refine fun w hw => ⟨trivial, fun r => ?_⟩
    cases r with
    | true => exact ⟨fun _ => hw.see rfl nofun, nofun⟩
    | false => exact ⟨nofun, fun _ => w.noticed_see rfl rfl⟩
  have hview {env : Env} {s : Db} (h : (exec env txnCommit s).1 = true) :
      (exec env txnCommit s).2.1.view = s.1.view ∧ (exec env txnCommit s).2.2 = s.2 := by
    simp only [exec, txnCommit, callStore, Prog.run_perform, Op.handle, TxnOp.handle] at h ⊢
    split_ifs at h ⊢
    exact ⟨rfl, trivial⟩
  rw [hs]
  change Tallies env _ txnCommit txnCommit
  refine tallies_of_checks hcommit hcommit fun s t hst hs ht => ⟨fun k => ?_, ?_⟩
  · rw [(hview hs).1, (hview ht).1]
    exact hst.1 k
  · rw [(hview hs).2, (hview ht).2]
    exact hst.2

/-- **A transaction** answers as if no call to RocksDB failed, if no failure has been noticed; and
if it answers `true`, the run has been calm. -/
theorem withTxn_tallies {work : DbProg Bool} (hw : Tallies env (fun b => b = true) work work)
    (s : Db) :
    ((Prog.record Tally.next env.handle (withTxn work) s .start).noticed = false →
      (exec env (withTxn work) s).1 = (exec env.unfailing (withTxn work) s).1) ∧
    ((exec env (withTxn work) s).1 = true →
      (Prog.record Tally.next env.handle (withTxn work) s .start).Calm) := by
  have ht : Tallies env (fun b => b = true) (work >>= commitIf) (work >>= commitIf) := by
    refine hw.bind tallies_commitIf fun saved hs env s => ?_
    rw [Bool.eq_false_iff.2 hs]
    exact ⟨rfl, rfl⟩
  have hexec (env : Env) : (exec env (withTxn work) s).1 =
      (exec env (work >>= commitIf) (exec env beginTransaction s).2).1 := by
    simp only [withTxn, exec_bind, exec_pure]
  have hrec : Prog.record Tally.next env.handle (withTxn work) s .start =
      Prog.record Tally.next env.handle (work >>= commitIf) (exec env beginTransaction s).2
        .start := by
    simp only [withTxn, Prog.record_bind]
    rfl
  obtain ⟨hsame, hend⟩ := ht (exec env beginTransaction s).2 (exec env beginTransaction s).2 .start
    Tally.start_calm ⟨fun _ => rfl, rfl⟩
  have hbegin : (exec env.unfailing beginTransaction s).2 = (exec env beginTransaction s).2 := rfl
  rw [hexec, hexec, hrec, hbegin]
  exact ⟨hsame, fun h => (hend h).1⟩

/-- What has been taken down of the RocksDB calls is what the list of them shows. -/
theorem record_storeCalls (p : DbProg α) (s : Db) (w : Tally) :
    (Prog.record Tally.next env.handle p s w).noticed = (w.noticed ||
        (withBefore w.before (Prog.log Op.storeCall env.handle p s)).any
          fun x => x.2.failed && !x.2.unchecked x.1) ∧
      (Prog.record Tally.next env.handle p s w).overlooked = (w.overlooked ||
        (withBefore w.before (Prog.log Op.storeCall env.handle p s)).any
          fun x => x.2.failed && x.2.unchecked x.1) := by
  induction p generalizing s w with
  | ret a => exact ⟨(Bool.or_false _).symm, (Bool.or_false _).symm⟩
  | call e k ih =>
    have h := ih (env.handle e s).1 (env.handle e s).2 (Tally.next e (env.handle e s).1 w)
    cases e with
    | own x => cases x <;> exact h
    | store o =>
      cases o <;> first
        | exact h
        | exact ⟨h.1.trans (Bool.or_assoc _ _ _), h.2.trans (Bool.or_assoc _ _ _)⟩

theorem Call.prog_tallies (cfg : Config) {c : Call} (hc : c.Mutates) (hen : c.enters = true) :
    ∃ work : DbProg Bool, c.prog cfg = .bool <$> withMutex cfg true (withTxn work) ∧
      ∀ env, Tallies env (fun b => b = true) work work := by
  cases c with
  | set d =>
    simp only [Call.enters, Bool.and_eq_true, Bool.not_eq_true'] at hen
    refine ⟨setTxn cfg d.key d.value d.options, ?_, fun env => tallies_setTxn rfl d.key d.value⟩
    simp only [Call.prog, Database.set, hen.1, hen.2, Bool.false_eq_true, if_false]
  | remove key =>
    simp only [Call.enters, Bool.not_eq_true'] at hen
    refine ⟨removeTxn cfg key true, ?_, fun env => tallies_removeTxn key⟩
    simp only [Call.prog, Database.remove, hen, Bool.false_eq_true, if_false]
  | move d =>
    simp only [Call.enters, Bool.and_eq_true, Bool.not_eq_true'] at hen
    refine ⟨moveTxn cfg d.key d.value d.options, ?_,
      fun env => tallies_moveTxn d.key d.value d.options⟩
    simp only [Call.prog, Database.move, hen.1, hen.2, Bool.false_eq_true, if_false]
  | setBatch kvs =>
    have hset (env : Env) (d : RequestData) : Tallies env (fun b => b = true)
        (setTxn cfg d.key d.value d.options) (setTxn cfg d.key d.value d.options) :=
      tallies_setTxn rfl d.key d.value
    exact ⟨_, rfl, fun env => tallies_forAll (hset env) kvs⟩
  | removeBatch keys => exact ⟨_, rfl, fun env => tallies_forAll tallies_removeTxn keys⟩
  | moveBatch kvs =>
    have hmove (env : Env) (d : RequestData) : Tallies env (fun b => b = true)
        (moveTxn cfg d.key d.value d.options) (moveTxn cfg d.key d.value d.options) :=
      tallies_moveTxn d.key d.value d.options
    exact ⟨_, rfl, fun env => tallies_forAll (hmove env) kvs⟩
  | _ => exact hc.elim

theorem record_withMutex (p : DbProg Bool) (s : Db) (w : Tally) :
    Prog.record Tally.next env.handle (Answer.bool <$> withMutex cfg true p) s w =
      Prog.record Tally.next env.handle p s w := by
  unfold withMutex ifMutex
  cases cfg.useMutex <;> simp only [map_eq_pure_bind, Prog.record_bind] <;> rfl

/-- A mutating call answers as if no call to RocksDB failed, if no failure has been noticed; and if
it answers `true`, the run has been calm. -/
theorem Call.tallies (env : Env) (cfg : Config) {c : Call} (hc : c.Mutates) (s : Db) :
    ((Prog.record Tally.next env.handle (c.prog cfg) s .start).noticed = false →
      c.answer env cfg s = c.answer env.unfailing cfg s) ∧
    (c.answer env cfg s = .bool true →
      (Prog.record Tally.next env.handle (c.prog cfg) s .start).Calm) := by
  cases hen : c.enters with
  | false =>
    have hp : c.prog cfg = pure (.bool false) := c.prog_of_not_enters hc hen
    simp only [Call.answer, hp]
    exact ⟨fun _ => rfl, fun h => by cases h⟩
  | true =>
    obtain ⟨work, hp, hw⟩ := Call.prog_tallies cfg hc hen
    obtain ⟨hsame, hcalm⟩ := withTxn_tallies (hw env) s
    simp only [Call.answer, hp, record_withMutex, exec_map, exec_withMutex, Answer.bool.injEq]
    exact ⟨hsame, hcalm⟩

end

/-! ### Calls that are accepted -/

/-- The number of encrypters that an item asks for: a move gets one for itself, and one for the
`set` of its destination. -/
def Item.encrypters : Item → ℕ
  | .set _ => 1
  | .move _ => 2
  | _ => 0

/-- The number of encrypters that a call asks for. -/
def Call.encrypters (env : Env) (s : Db) (c : Call) : ℕ :=
  ((c.items env s).map Item.encrypters).sum

/-- **The call is accepted**: its arguments are valid, no item is refused because a key is there or
is not there, and there are encrypters for it. -/
def Call.Accepted (env : Env) (cfg : Config) (s : Db) (c : Call) : Prop :=
  c.enters = true ∧ (c.actions (Env.reliable env.clock) cfg s).isSome ∧
    ∀ n < c.encrypters env s, env.starved (s.2.acquires + n) = false

section

variable {env : Env} {cfg : Config}

theorem setTxn_starved {s : IdealDb} (hs : env.starved s.2.acquires = true) (key value : Bytes)
    (opts : Options) : (execIdeal env (setTxn cfg key value opts) s).1 = false := by
  simp only [setTxn, execIdeal_bind, execIdeal_acquireEncrypter_eq, hs]
  rfl

theorem moveTxn_starved {s : IdealDb} (hs : env.starved s.2.acquires = true) (key dest : Bytes)
    (opts : Options) : (execIdeal env (moveTxn cfg key dest opts) s).1 = false := by
  simp only [moveTxn, execIdeal_bind, execIdeal_acquireEncrypter_eq, hs]
  rfl

theorem moveTxn_starved_second {s : IdealDb} (hs : env.starved (s.2.acquires + 1) = true)
    (key dest : Bytes) (opts : Options) :
    (execIdeal env (moveTxn cfg key dest opts) s).1 = false := by
  cases h0 : env.starved s.2.acquires with
  | true => exact moveTxn_starved h0 key dest opts
  | false =>
    unfold moveTxn
    simp only [execIdeal_bind, execIdeal_acquireEncrypter_eq, h0, Bool.not_false, Bool.not_true,
      Bool.false_eq_true, if_false, refused_ideal, IdealDb.withLocal_fst]
    cases opts.ifNotExists && (s.1.view.get .data (getKey dest)).isSome with
    | true => rfl
    | false =>
      simp only [Bool.false_eq_true, if_false, execIdeal_bind, execIdeal_txnGet,
        IdealDb.withLocal_fst]
      cases s.1.view.get .data (getKey key) with
      | none => rfl
      | some v =>
        simp only [Reply.ofOption_some, execIdeal_bind, execIdeal_txnGet, moveExpiration_ideal,
          IdealDb.withLocal_snd, IdealDb.withLocal_fst, removeTxn_ideal, Bool.not_true,
          Bool.false_eq_true, if_false]
        have hl (n : ℕ) (k : Bytes) :
            (Local.uncached cfg (s.2.acquired.readClock n) k).acquires = s.2.acquires + 1 :=
          Local.acquires_uncached _ _ _
        rw [setTxn_starved]
        · rfl
        · rw [IdealDb.withLocal_snd, hl]
          exact hs

/-- The item belongs to a mutating call. -/
def Item.OfClient : Item → Prop
  | .expire _ => False
  | _ => True

theorem Item.step_of_supplied {i : Item} (hi : i.OfClient) {s : IdealDb}
    (hs : ∀ n < i.encrypters, env.starved (s.2.acquires + n) = false) :
    i.step env cfg s = i.step (Env.reliable env.clock) cfg s := by
  cases i with
  | set d =>
    have hset : execIdeal (Env.reliable env.clock) (setTxn cfg d.key d.value d.options) s = _ :=
      setTxn_ideal (Env.reliable_reliable env.clock) d.key d.value d.options s
    exact (setTxn_of_supplied (hs 0 Nat.one_pos) d.key d.value d.options).trans hset.symm
  | remove key => exact (removeTxn_ideal key true s).trans (removeTxn_ideal key true s).symm
  | move d =>
    have hmove : execIdeal (Env.reliable env.clock) (moveTxn cfg d.key d.value d.options) s = _ :=
      moveTxn_ideal (Env.reliable_reliable env.clock) d.key d.value d.options s
    exact (moveTxn_of_supplied (hs 0 Nat.two_pos) (hs 1 Nat.one_lt_two) d.key d.value
      d.options).trans hmove.symm
  | expire entry => exact hi.elim

theorem Item.step_starved {i : Item} {s : IdealDb} {n : ℕ} (hn : n < i.encrypters)
    (hs : env.starved (s.2.acquires + n) = true) : (i.step env cfg s).1 = false := by
  cases i with
  | set d =>
    obtain rfl : n = 0 := Nat.lt_one_iff.1 hn
    exact setTxn_starved hs d.key d.value d.options
  | move d =>
    obtain rfl | rfl : n = 0 ∨ n = 1 := by
      simp only [Item.encrypters] at hn
      omega
    · exact moveTxn_starved hs d.key d.value d.options
    · exact moveTxn_starved_second hs d.key d.value d.options
  | remove key => exact absurd hn (Nat.not_lt_zero n)
  | expire entry => exact absurd hn (Nat.not_lt_zero n)

theorem Item.acquires_step (henv : env.Reliable) {i : Item} {s : IdealDb}
    (h : (i.step env cfg s).1 = true) :
    (i.step env cfg s).2.2.acquires = s.2.acquires + i.encrypters := by
  have hcached (l : Local) (k v : Bytes) : (l.cached cfg k v).acquires = l.acquires := by
    unfold Local.cached
    split <;> rfl
  cases i with
  | set d =>
    have hm : execIdeal env (setTxn cfg d.key d.value d.options) s = _ :=
      setTxn_ideal henv d.key d.value d.options s
    change (execIdeal env (setTxn cfg d.key d.value d.options) s).1 = true at h
    change (execIdeal env (setTxn cfg d.key d.value d.options) s).2.2.acquires = _
    rw [hm] at h ⊢
    split_ifs at h ⊢
    exact hcached _ _ _
  | remove key =>
    change (execIdeal env (removeTxn cfg key true) s).2.2.acquires = _
    rw [removeTxn_ideal]
    exact Local.acquires_uncached _ _ _
  | move d =>
    have hm : execIdeal env (moveTxn cfg d.key d.value d.options) s = _ :=
      moveTxn_ideal henv d.key d.value d.options s
    change (execIdeal env (moveTxn cfg d.key d.value d.options) s).1 = true at h
    change (execIdeal env (moveTxn cfg d.key d.value d.options) s).2.2.acquires = _
    rw [hm] at h ⊢
    split_ifs at h ⊢
    cases hv : s.1.view.get .data (getKey d.key) with
    | none => simp [hv] at h
    | some v =>
      refine (hcached _ _ _).trans ?_
      exact congrArg (· + 1) (Local.acquires_uncached _ _ _)
  | expire entry =>
    change (execIdeal env (do expireKey cfg entry; let _ ← stopped; return true) s).2.2.acquires = _
    simp only [expireKey, execIdeal_bind, removeTxn_ideal, if_true, execIdeal_txnDelete,
      execIdeal_stopped _ henv, execIdeal_pure]
    exact Local.acquires_uncached _ _ _

/-- **A list of items** is worked off exactly if none of them is refused and there are encrypters
for all of them. -/
theorem runItems_true_iff {is : List Item} (hi : ∀ i ∈ is, i.OfClient) {s : IdealDb} :
    (runItems env cfg is s).1 = true ↔
      (itemActions (Env.reliable env.clock) cfg is s).isSome ∧
        ∀ n < (is.map Item.encrypters).sum, env.starved (s.2.acquires + n) = false := by
  induction is generalizing s with
  | nil => simp [runItems, itemActions]
  | cons i is ih =>
    rw [List.forall_mem_cons] at hi
    by_cases hs : ∀ n < i.encrypters, env.starved (s.2.acquires + n) = false
    · have hstep : i.step env cfg s = i.step (Env.reliable env.clock) cfg s :=
        Item.step_of_supplied hi.1 hs
      cases ha : i.actions (Env.reliable env.clock) cfg s with
      | none =>
        have hf := Item.step_refused (Env.reliable_reliable env.clock) ha
        simp [runItems, itemActions, hstep, hf, ha]
      | some as =>
        obtain ⟨l, hl, -⟩ := Item.step_accepted (Env.reliable_reliable env.clock) ha
        have hok : (i.step (Env.reliable env.clock) cfg s).1 = true := by rw [hl]
        have hacq := Item.acquires_step (Env.reliable_reliable env.clock) hok
        have hrest : (itemActions (Env.reliable env.clock) cfg (i :: is) s).isSome =
            (itemActions (Env.reliable env.clock) cfg is
              (i.step (Env.reliable env.clock) cfg s).2).isSome := by
          cases hb : itemActions (Env.reliable env.clock) cfg is
            (i.step (Env.reliable env.clock) cfg s).2 <;> simp [itemActions, ha, hb]
        rw [runItems, hstep, if_pos hok, ih hi.2, hrest, hacq, List.map_cons, List.sum_cons]
        refine and_congr_right fun _ => ⟨fun h n hn => ?_, fun h n hn => ?_⟩
        · by_cases hlt : n < i.encrypters
          · exact hs n hlt
          · have h' := h (n - i.encrypters) (by omega)
            rwa [show s.2.acquires + i.encrypters + (n - i.encrypters) = s.2.acquires + n by
              omega] at h'
        · rw [Nat.add_assoc]
          exact h _ (by omega)
    · simp only [not_forall] at hs
      obtain ⟨n, hn, hne⟩ := hs
      have hst : env.starved (s.2.acquires + n) = true := by simpa using hne
      rw [runItems, Item.step_starved hn hst]
      refine iff_of_false (by simp) fun h => ?_
      have hf := h.2 n (by simp only [List.map_cons, List.sum_cons]; omega)
      exact Bool.noConfusion (hst.symm.trans hf)

/-- Where no call to RocksDB fails, a program answers as on the ideal database. -/
theorem exec_unfailing {α : Type} (p : DbProg α) (s : Db) :
    (exec env.unfailing p s).1 = (execIdeal env p s.ideal).1 := by
  refine (Prog.run_sim (S := fun (s : Db) t => s.ideal = t) (fun e s t hst => ?_) p rfl).1
  subst hst
  cases e with
  | store o =>
    have hf (n : ℕ) (e : Fallible) : env.unfailing.fails n e = false := rfl
    obtain ⟨h1, h2⟩ := TxnOp.handle_ideal hf o s.1
    exact ⟨h1, Prod.ext h2 rfl⟩
  | own x => exact ⟨rfl, rfl⟩

/-- **Where no call to RocksDB fails**, a mutating call answers `true` exactly if it is accepted. -/
theorem Call.answer_unfailing_iff {c : Call} (hc : c.Mutates) (s : Db) :
    c.answer env.unfailing cfg s = .bool true ↔ c.Accepted env cfg s := by
  rw [Call.answer, exec_unfailing]
  cases hen : c.enters with
  | false =>
    rw [c.prog_of_not_enters hc hen]
    simp [Call.Accepted, hen]
  | true =>
    have hclient : ∀ i ∈ c.items env s, i.OfClient := by
      intro i hi
      cases c <;> simp only [Call.items, hen, if_true, Call.work, List.mem_map,
        List.mem_singleton, List.not_mem_nil] at hi
      case set d => exact hi ▸ trivial
      case remove key => exact hi ▸ trivial
      case move d => exact hi ▸ trivial
      case setBatch kvs =>
        obtain ⟨d, -, rfl⟩ := hi
        trivial
      case removeBatch keys =>
        obtain ⟨key, -, rfl⟩ := hi
        trivial
      case moveBatch kvs =>
        obtain ⟨d, -, rfl⟩ := hi
        trivial
      case clearExpired => exact hc.elim
    have hn : c ≠ .clearExpired := by
      rintro rfl
      exact hc
    have hact : c.actions (Env.reliable env.clock) cfg s =
        itemActions (Env.reliable env.clock) cfg (c.items env s) (c.start env s) := by
      cases c <;> first | exact hc.elim | rfl
    have hacq : (c.start env s).2.acquires = s.2.acquires := by
      cases c <;> first | exact hc.elim | rfl
    rw [c.exec_work hen hn, Answer.bool.injEq, runItems_true_iff hclient, Call.Accepted, hact, hacq]
    exact (and_iff_right hen).symm

/-! ### Which failures make a call fail -/

/-- The list of the RocksDB calls of a run shows what the tally has taken down. -/
theorem Call.noticed_iff (c : Call) (s : Db) :
    StoreCall.Noticed (c.storeCalls env cfg s) ↔
      (Prog.record Tally.next env.handle (c.prog cfg) s .start).noticed = true := by
  rw [(record_storeCalls (c.prog cfg) s .start).1]
  simp [StoreCall.Noticed, Call.storeCalls, Tally.start]

/-- **A mutating call answers `true`** exactly if it is accepted and no call to RocksDB whose status
is tested has failed. -/
theorem Call.answer_true_iff {c : Call} (hc : c.Mutates) (s : Db) :
    c.answer env cfg s = .bool true ↔
      ¬ StoreCall.Noticed (c.storeCalls env cfg s) ∧ c.Accepted env cfg s := by
  obtain ⟨hsame, hcalm⟩ := c.tallies env cfg hc s
  rw [c.noticed_iff, Bool.not_eq_true, ← c.answer_unfailing_iff hc]
  constructor
  · intro h
    have hn := (hcalm h).1
    exact ⟨hn, (hsame hn).symm.trans h⟩
  · rintro ⟨hn, h⟩
    exact (hsame hn).trans h

theorem StoreCall.exists_failed_iff (xs : List StoreCall) :
    (∃ x ∈ xs, x.failed = true) ↔ Noticed xs ∨ Overlooked xs := by
  have hmem (b : Option StoreCall) (xs : List StoreCall) (x : StoreCall) :
      x ∈ xs ↔ ∃ b', (b', x) ∈ withBefore b xs := by
    induction xs generalizing b with
    | nil => simp [withBefore]
    | cons y ys ih =>
      have hcons : withBefore b (y :: ys) = (b, y) :: withBefore (some y) ys := rfl
      rw [hcons, List.mem_cons, ih (some y)]
      constructor
      · rintro (rfl | ⟨b', hb⟩)
        · exact ⟨b, List.mem_cons_self⟩
        · exact ⟨b', List.mem_cons_of_mem _ hb⟩
      · rintro ⟨b', hb⟩
        rcases List.mem_cons.1 hb with h | h
        · exact .inl (congrArg Prod.snd h)
        · exact .inr ⟨b', h⟩
  constructor
  · rintro ⟨x, hx, hf⟩
    obtain ⟨b, hb⟩ := (hmem none xs x).1 hx
    cases hu : x.unchecked b with
    | false => exact .inl ⟨(b, x), hb, hf, hu⟩
    | true => exact .inr ⟨(b, x), hb, hf, hu⟩
  · rintro (⟨⟨b, x⟩, hb, hf, -⟩ | ⟨⟨b, x⟩, hb, hf, -⟩)
    · exact ⟨x, (hmem none xs x).2 ⟨b, hb⟩, hf⟩
    · exact ⟨x, (hmem none xs x).2 ⟨b, hb⟩, hf⟩

theorem Call.answer_eq_false_iff {c : Call} (hc : c.Mutates) (s : Db) :
    c.answer env cfg s = .bool false ↔ c.answer env cfg s ≠ .bool true := by
  have hbool : ∃ b, c.answer env cfg s = .bool b := by
    cases c <;> first
      | exact hc.elim
      | exact ⟨_, congrArg Prod.fst (exec_map env s _ _)⟩
  obtain ⟨b, hb⟩ := hbool
  rw [hb]
  cases b <;> simp

end

/-- **When a failed call to RocksDB makes the whole call fail.**  Whatever calls to RocksDB fail in
the run of a mutating call, a failure makes it return `false` exactly if the call is not accepted,
or no failure is overlooked, or there is another one that is noticed. -/
theorem error_noticed_iff (env : Env) (cfg : Config) (s : Db) (c : Call) (hc : c.Mutates) :
    ((∃ x ∈ c.storeCalls env cfg s, x.failed = true) → c.answer env cfg s = .bool false) ↔
      (c.Accepted env cfg s → StoreCall.Overlooked (c.storeCalls env cfg s) →
        StoreCall.Noticed (c.storeCalls env cfg s)) := by
  rw [Call.answer_eq_false_iff hc, StoreCall.exists_failed_iff, ne_eq, Call.answer_true_iff hc]
  constructor
  · intro h hacc hover
    by_contra hn
    exact h (.inr hover) ⟨hn, hacc⟩
  · rintro h hfail ⟨hn, hacc⟩
    exact hn (hfail.elim id fun hover => h hacc hover)

/-- `/a` is stored as a cache entry and removed, and the deletion of its value fails. -/
theorem error_noticed_delete :
    let env : Env := { Env.reliable (fun n => n) with fails := fun n _ => n == 5 }
    let s := (Call.set ⟨[47, 97], [1], { expirationInSeconds := 100, cache := true }⟩).next env
      (.plain false) (Db.init 1)
    let c : Call := .remove [47, 97]
    (∃ x ∈ c.storeCalls env (.plain false) s, x.failed = true) ∧
      c.answer env (.plain false) s = .bool false := by
  intro env s c
  have hfail : ∃ x ∈ c.storeCalls env (.plain false) s, x.failed = true := by decide
  have hnoticed : StoreCall.Noticed (c.storeCalls env (.plain false) s) := by decide
  exact ⟨hfail, (error_noticed_iff env (.plain false) s c trivial).2 (fun _ _ => hnoticed) hfail⟩

/-- **A failure that is overlooked.**  `/a` is stored as a cache entry and removed, and the deletion
of its marker fails: the call returns `true`, and the marker is still there. -/
theorem error_overlooked :
    let env : Env := { Env.reliable (fun n => n) with fails := fun n _ => n == 8 }
    let s := (Call.set ⟨[47, 97], [1], { expirationInSeconds := 100, cache := true }⟩).next env
      (.plain false) (Db.init 1)
    let c : Call := .remove [47, 97]
    (∃ x ∈ c.storeCalls env (.plain false) s, x.failed = true) ∧
      c.answer env (.plain false) s = .bool true ∧
      ((c.next env (.plain false) s).columns.get .cache [47, 97]).isSome := by
  decide

/-! ### Runs in which nothing fails -/

section

variable {env : Env} {cfg : Config}

theorem Tally.sound_of_next {e : DbOp} {r : Op.Res ProcOp.Res e} {w : Tally}
    (h : (Tally.next e r w).Sound) : w.Sound := by
  have hsee {x : StoreCall} (hx : (w.see x).Sound) : w.Sound :=
    ⟨(Bool.or_eq_false_iff.1 hx.1).1, (Bool.or_eq_false_iff.1 hx.2.1).1, hx.2.2⟩
  cases e with
  | own x =>
    cases x with
    | acquireEncrypter => exact ⟨h.1, h.2.1, (Bool.or_eq_false_iff.1 h.2.2).1⟩
    | stop => exact Bool.noConfusion h.2.2
    | _ => exact h
  | store o =>
    cases o with
    | rollback => exact Bool.noConfusion h.2.2
    | scan c hi => exact Bool.noConfusion h.2.2
    | get c k => exact hsee h
    | read c k => exact hsee h
    | put c k v => exact hsee h
    | delete c k => exact hsee h
    | commit => exact hsee h
    | _ => exact h

/-- A call that has neither failed nor been refused is answered alike in a reliable environment. -/
theorem handle_of_sound {e : DbOp} {s : Db} {w : Tally}
    (h : (Tally.next e (env.handle e s).1 w).Sound) :
    (Env.reliable env.clock).handle e s = env.handle e s := by
  have hsee {x : StoreCall} (hx : (w.see x).Sound) : x.failed = false := by
    have hn := (Bool.or_eq_false_iff.1 hx.1).2
    have ho := (Bool.or_eq_false_iff.1 hx.2.1).2
    cases hu : x.unchecked w.before with
    | false => simpa [hu] using hn
    | true => simpa [hu] using ho
  cases e with
  | own x =>
    cases x with
    | acquireEncrypter =>
      have hs : (!(!env.starved s.2.acquires)) = false := (Bool.or_eq_false_iff.1 h.2.2).2
      rw [Bool.not_not] at hs
      simp [Op.handle, ProcOp.handle, Env.reliable, hs]
    | stop => exact Bool.noConfusion h.2.2
    | _ => rfl
  | store o =>
    cases o with
    | rollback => exact Bool.noConfusion h.2.2
    | scan c hi => exact Bool.noConfusion h.2.2
    | get c k =>
      have hf : env.fails s.1.calls .lookup = false := by
        have hx := hsee h
        by_contra hf
        rw [Bool.not_eq_false] at hf
        simp [Op.handle, TxnOp.handle, Reply.failed, hf] at hx
      simp [Op.handle, TxnOp.handle, Env.reliable, hf]
    | read c k =>
      have hf : env.fails s.1.calls .lookup = false := by
        have hx := hsee h
        by_contra hf
        rw [Bool.not_eq_false] at hf
        simp [Op.handle, TxnOp.handle, Reply.failed, hf] at hx
      simp [Op.handle, TxnOp.handle, Env.reliable, hf]
    | put c k v =>
      have hf : env.fails s.1.calls (.write (s.1.locked (c, k))) = false := by
        have hx := hsee h
        by_contra hf
        rw [Bool.not_eq_false] at hf
        simp [Op.handle, TxnOp.handle, hf] at hx
      simp [Op.handle, TxnOp.handle, Env.reliable, hf]
    | delete c k =>
      have hf : env.fails s.1.calls (.write (s.1.locked (c, k))) = false := by
        have hx := hsee h
        by_contra hf
        rw [Bool.not_eq_false] at hf
        simp [Op.handle, TxnOp.handle, hf] at hx
      simp [Op.handle, TxnOp.handle, Env.reliable, hf]
    | commit =>
      have hf : env.fails s.1.calls .commit = false := by
        have hx := hsee h
        by_contra hf
        rw [Bool.not_eq_false] at hf
        simp [Op.handle, TxnOp.handle, hf] at hx
      simp [Op.handle, TxnOp.handle, Env.reliable, hf]
    | _ => rfl

/-- **A call that answers `true`, and none of whose failures is overlooked,** runs as in a reliable
environment. -/
theorem Call.run_sound {c : Call} (hc : c.Mutates) {s : Db}
    (h : c.answer env cfg s = .bool true)
    (hover : ¬ StoreCall.Overlooked (c.storeCalls env cfg s)) :
    exec (Env.reliable env.clock) (c.prog cfg) s = exec env (c.prog cfg) s := by
  obtain ⟨hn, hg, -⟩ := (c.tallies env cfg hc s).2 h
  have ho : (Prog.record Tally.next env.handle (c.prog cfg) s .start).overlooked = false := by
    rw [(record_storeCalls (c.prog cfg) s .start).2, Bool.eq_false_iff]
    intro hx
    refine hover ?_
    simpa [StoreCall.Overlooked, Call.storeCalls, Tally.start] using hx
  exact Prog.run_congr_of_record (I := Tally.Sound) (fun _ _ _ => Tally.sound_of_next)
    (fun _ _ _ => handle_of_sound) ⟨hn, ho, hg⟩

/-- **What such a call has done** to the columns and to the value cache. -/
theorem Call.committed_of_true {c : Call} (hc : c.Mutates) {s : Db}
    (h : c.answer env cfg s = .bool true)
    (hover : ¬ StoreCall.Overlooked (c.storeCalls env cfg s)) :
    ∃ as, c.actions (Env.reliable env.clock) cfg s = some as ∧
      (c.next env cfg s).columns = Store.actAll cfg s.columns s.columns as ∧
      (c.next env cfg s).2.valueCache = as.foldl (Action.onCache cfg) s.2.valueCache := by
  have hrun := c.run_sound hc h hover
  have hrel := Env.reliable_reliable env.clock
  have hans : c.answer (Env.reliable env.clock) cfg s = .bool true :=
    (congrArg Prod.fst hrun).trans h
  have hnext : c.next (Env.reliable env.clock) cfg s = c.next env cfg s := congrArg Prod.snd hrun
  obtain ⟨hen, as, ha⟩ := Call.accepted_of_answer hrel hc hans
  obtain ⟨l, hl, hv⟩ := runItems_accepted hrel ha
  have hideal : (c.next (Env.reliable env.clock) cfg s).ideal = _ := c.next_of_enters hrel hen s
  rw [hl] at hideal
  have hstart : (c.start (Env.reliable env.clock) s).2.valueCache = s.2.valueCache := by
    cases c <;> rfl
  refine ⟨as, ha, ?_, ?_⟩
  · rw [← hnext, c.next_columns hrel, ha]
  · rw [← hnext, ← hstart, ← hv]
    exact congrArg (fun t : IdealDb => t.2.valueCache) hideal

end

end ConfigDb
