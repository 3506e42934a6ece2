import ConfigDb.Effect.Shards
import ConfigDb.Service.Notification
import ConfigDb.Storage.Ownership

/-!
# Several nodes that take writes

Every node serves clients, and is a peer of other nodes.  A node that accepts a mutation announces
it to the nodes that have connected to it, and a node that is sent a notification makes the call and
announces nothing: `Listener::process` (`src/service/tcp/listener.cpp`) emits no signal.  Nobody
orders the writes of different nodes, and every node deletes what has expired by its own clock.

So two nodes that set one key may keep what the other has set, forever.  They agree in the end on a
key that is written at one node only, and never expires.

The handlers of a node run side by side: each makes its call, and then its notification enters one
queue after the other.  If a request is served before the notification of the one before has entered
all queues, or a queue is not sent in its order, then notifications swap places, and
`ConfigDb.Service.Notification` has what goes wrong.  Orderly runs are those in which that does not
happen.  The connections between the nodes stay up.

## Main definitions

* `Mesh`, `Mesh.step`, `Mesh.run` : the nodes, a step of one of them, and runs.
* `MeshStep.Fair` : a node writes keys of its own, or of nobody.
* `Mesh.Orderly` : the notifications of a node enter its queues, and leave them, in order.
* `ownedKeys` : the nodes as parties that send their writes to each other.

## Main results

* `Mesh.run_reaches` : an orderly run of the nodes is a run of the parties.
* `mesh_converges` : in orderly runs, when nothing is under way, the nodes agree on the keys of the
  sender; and no write of these keys is refused.
-/

namespace ConfigDb

open Std

variable {ν : Type}

/-! ### The nodes -/

/-- A node. -/
structure Site (ν : Type) where
  /-- Its store. -/
  db : Db
  /-- The notifications of its handlers, and the peers whose queues each has yet to enter. -/
  handlers : List (Request × List ν)

/-- The nodes, and the queues between them. -/
structure Mesh (ν : Type) where
  /-- The nodes. -/
  site : ν → Site ν
  /-- The queue that the first node keeps for the second, oldest notification first. -/
  queue : ν → ν → List Request

/-- The environments and configurations of the nodes. -/
structure MeshSetting (ν : Type) where
  /-- The environments. -/
  env : ν → Env
  /-- The configurations. -/
  cfg : ν → Config
  /-- The peers that are connected to a node, in the order in which its signal visits them. -/
  links : ν → List ν

/-- A step of the nodes. -/
inductive MeshStep (ν : Type)
  /-- A node serves a request. -/
  | serve (i : ν) (m : Mutation)
  /-- The notification of the handler `n` of a node enters the queue of its next peer. -/
  | notify (i : ν) (n : ℕ)
  /-- The node `j` is sent the notification at place `n` of the queue that the node `i` keeps for
  it, and applies it. -/
  | receive (i j : ν) (n : ℕ)
  /-- A node deletes what has expired. -/
  | sweep (i : ν)
  deriving DecidableEq

namespace Mesh

variable [DecidableEq ν]

/-- One step; `none` if it cannot be taken, or crashes a node. -/
def step (S : MeshSetting ν) (c : Mesh ν) : MeshStep ν → Option (Mesh ν)
  | .serve i m => (m.serve (S.env i) (S.cfg i) (c.site i).db).map fun r =>
    { c with
      site := Function.update c.site i
        ⟨r.1, (c.site i).handlers ++ r.2.toList.map fun note => (note, S.links i)⟩ }
  | .notify i n => match (c.site i).handlers[n]? with
    | some (note, j :: left) => some
      { site := Function.update c.site i ⟨(c.site i).db, (c.site i).handlers.set n (note, left)⟩
        queue := Parties.setChannel c.queue i j (c.queue i j ++ [note]) }
    | _ => none
  | .receive i j n =>
    if j ∈ S.links i then
      match (c.queue i j)[n]? with
      | some note => (Listener.apply (S.env j) (S.cfg j) (c.site j).db note).map fun db =>
        { site := Function.update c.site j ⟨db, (c.site j).handlers⟩
          queue := Parties.setChannel c.queue i j ((c.queue i j).eraseIdx n) }
      | none => none
    else none
  | .sweep i => some
    { c with
      site := Function.update c.site i
        ⟨Call.clearExpired.next (S.env i) (S.cfg i) (c.site i).db, (c.site i).handlers⟩ }

/-- The steps of a run. -/
def run (S : MeshSetting ν) : List (MeshStep ν) → Mesh ν → Option (Mesh ν)
  | [], c => some c
  | s :: ss, c => (c.step S s).bind (run S ss)

/-- Nothing has happened yet. -/
def start (db : ν → Db) : Mesh ν := ⟨fun i => ⟨db i, []⟩, fun _ _ => []⟩

/-- The notifications that have yet to enter the queue for `j`. -/
def pending (handlers : List (Request × List ν)) (j : ν) : List Request :=
  (handlers.filter fun h => j ∈ h.2).map Prod.fst

/-- What is under way from one node to another. -/
def underWay (c : Mesh ν) (i j : ν) : List Request := c.queue i j ++ pending (c.site i).handlers j

/-- The value that a node has for a key. -/
def value (S : MeshSetting ν) (c : Mesh ν) (i : ν) (k : Bytes) : Option Bytes :=
  (c.site i).db.columns.value (S.cfg i) k

end Mesh

/-- The step can do no harm: a request is served when the notifications before it have entered all
queues of the node, and a node is sent what has been in a queue for longest. -/
def MeshStep.Orderly (c : Mesh ν) : MeshStep ν → Prop
  | .serve i _ => ∀ h ∈ (c.site i).handlers, h.2 = []
  | .receive _ _ n => n = 0
  | .notify _ _ | .sweep _ => True

/-- Every step of the run is orderly. -/
def Mesh.Orderly [DecidableEq ν] (S : MeshSetting ν) : List (MeshStep ν) → Mesh ν → Prop
  | [], _ => True
  | s :: ss, c => s.Orderly c ∧ ∀ c' ∈ c.step S s, Mesh.Orderly S ss c'

instance [DecidableEq ν] (c : Mesh ν) : ∀ s : MeshStep ν, Decidable (s.Orderly c)
  | .serve i _ => inferInstanceAs (Decidable (∀ h ∈ (c.site i).handlers, h.2 = []))
  | .receive _ _ n => inferInstanceAs (Decidable (n = 0))
  | .notify _ _ | .sweep _ => isTrue trivial

instance Mesh.decidableOrderly [DecidableEq ν] (S : MeshSetting ν) :
    ∀ (ss : List (MeshStep ν)) (c : Mesh ν), Decidable (Mesh.Orderly S ss c)
  | [], _ => isTrue trivial
  | s :: ss, c =>
    haveI : DecidablePred fun c : Mesh ν => Mesh.Orderly S ss c := decidableOrderly S ss
    inferInstanceAs (Decidable (s.Orderly c ∧ ∀ c' ∈ c.step S s, Mesh.Orderly S ss c'))

/-! ### Owners -/

/-- The call that a mutation makes. -/
def Mutation.call : Mutation → Option Call
  | .tcp request => Server.process request
  | .httpPut req => some (.set (Endpoints.requestData req))
  | .httpDelete path => some (.remove (Endpoints.key path))

/-- The keys of the call all belong to `o`, or to nobody if this is `none`.  A key that belongs to
somebody is not given an expiration. -/
structure Call.Of (own : Bytes → Option ν) (o : Option ν) (c : Call) : Prop where
  /-- The keys belong to `o`. -/
  on : c.On fun k => own k = o
  /-- No expiration for them. -/
  untimed : c.LeavesUntimed fun k => own k ≠ none

/-- The mutation is of keys of `o`. -/
def Mutation.Of (own : Bytes → Option ν) (o : Option ν) (m : Mutation) : Prop :=
  ∀ c ∈ m.call, c.Of own o

/-- The notification is of keys of `o`. -/
def Request.Of (own : Bytes → Option ν) (o : Option ν) (note : Request) : Prop :=
  ∀ c ∈ Server.process note, c.Of own o

/-- A node serves mutations of keys that belong to it, and of keys that belong to nobody. -/
def MeshStep.Fair (own : Bytes → Option ν) : MeshStep ν → Prop
  | .serve i m => m.Of own (some i) ∨ m.Of own none
  | _ => True

/-- What a notification does to the reference map of a peer; `none` if it is refused. -/
def Request.replay (m : RefMap) (note : Request) : Option RefMap :=
  (Server.process note).bind (Call.replay m)

theorem Call.On.mono {P Q : Bytes → Prop} (hPQ : ∀ k, P k → Q k) {c : Call} (hc : c.On P) :
    c.On Q := by
  cases c with
  | set d => exact hPQ _ hc
  | remove key => exact hPQ _ hc
  | move d => exact ⟨hPQ _ hc.1, hPQ _ hc.2⟩
  | setBatch kvs => exact fun d hd => hPQ _ (hc d hd)
  | removeBatch keys => exact fun key hk => hPQ _ (hc key hk)
  | moveBatch kvs => exact fun d hd => ⟨hPQ _ (hc d hd).1, hPQ _ (hc d hd).2⟩
  | _ => trivial

/-- **The nodes are parties that send their writes to each other**: a copy is the reference map of a
node, and a key belongs to the node that `own` gives. -/
def ownedKeys (own : Bytes → Option ν) : Shards ν Request RefMap where
  act note m := note.replay m
  Same i := SameOn fun k => own k = some i
  On o note := note.Of own o
  equivalence _ := SameOn.equivalence _
  frame := by
    intro o note m m' ho h j hj
    obtain ⟨c, hc, hr⟩ := Option.bind_eq_some_iff.1 h
    refine Call.replay_frame ((ho c hc).on.mono fun k hk => ?_) hr
    rw [hk]
    exact hj
  congr := by
    intro i note m m' hi h
    cases hc : Server.process note with
    | none =>
      rw [Request.replay, Request.replay, hc]
      exact .none
    | some c =>
      rw [Request.replay, Request.replay, hc]
      exact Call.replay_congr (hi c hc).on h

/-! ### Calls of the server and of the listener -/

section

variable {own : Bytes → Option ν} {o : Option ν} {env : Env} {cfg : Config} {s t : Db}
  {μ : Mutation} {note : Request} {m : RefMap} {c : Call}

theorem Mutation.serve_some (h : μ.serve env cfg s = some (t, some note)) :
    ∃ c c', μ.call = some c ∧ Server.process note = some c' ∧ c.Mutates ∧
      c.answer env cfg s = .bool true ∧ t = c.next env cfg s ∧
      (∀ m, c'.replay m = c.replay m) ∧ (∀ P, c.On P → c'.On P) ∧
      ∀ P, c.LeavesUntimed P → c'.LeavesUntimed P := by
  cases μ with
  | tcp request =>
    obtain ⟨c, hc, hmut, hans, rfl, rfl⟩ := Server.serve_eq_some h
    exact ⟨c, c, hc, hc, hmut, hans, rfl, fun _ => rfl, fun _ => id, fun _ => id⟩
  | httpPut req =>
    have hput : Endpoints.put env cfg s req = (t, some note) := Option.some.inj h
    unfold Endpoints.put at hput
    split_ifs at hput with hb
    · simp at hput
    obtain ⟨rfl, hn⟩ := Prod.mk.inj hput
    obtain ⟨hans, rfl⟩ := emitted_eq_some hn
    -- the option for cache entries is left out, which makes no difference to the values
    refine ⟨_, _, rfl, rfl, trivial, hans, rfl, fun _ => rfl, fun P hon => ?_, fun P hsp => ?_⟩
    · exact List.forall_mem_singleton.2 hon
    · have huntimed := hsp (.set (Endpoints.requestData req)) List.mem_cons_self
      exact List.forall_mem_singleton.2 huntimed
  | httpDelete path =>
    obtain ⟨rfl, hn⟩ := Prod.mk.inj (Option.some.inj h)
    obtain ⟨hans, rfl⟩ := emitted_eq_some hn
    refine ⟨_, _, rfl, rfl, trivial, hans, rfl, fun _ => rfl, fun P hon => ?_, fun P hsp => ?_⟩
    · exact List.forall_mem_singleton.2 hon
    · exact List.forall_mem_singleton.2 trivial

theorem Mutation.serve_of (h : μ.serve env cfg s = some (t, some note)) (hof : μ.Of own o) :
    note.Of own o := by
  obtain ⟨c, c', hc, hc', -, -, -, -, hon, huntimed⟩ := μ.serve_some h
  intro c'' hc''
  obtain rfl := Option.some.inj (hc'.symm.trans hc'')
  exact ⟨hon _ (hof c hc).on, huntimed _ (hof c hc).untimed⟩

/-- A mutation that is announced does to the values what its notification does. -/
theorem Mutation.serve_replay (henv : env.Reliable) (hlaw : cfg.cipher.Lawful)
    (h : μ.serve env cfg s = some (t, some note)) (hm : Refines cfg s.columns m) :
    ∃ m', note.replay m = some m' ∧ Refines cfg t.columns m' := by
  obtain ⟨c, c', -, hc', hmut, hans, rfl, hr, -, -⟩ := μ.serve_some h
  obtain ⟨m', hm', href⟩ := Call.replay_of_true henv hlaw hm hmut hans
  refine ⟨m', ?_, href⟩
  rw [Request.replay, hc', Option.bind_some, hr]
  exact hm'

/-- A mutation of keys that belong to somebody leaves them without expiration. -/
theorem Mutation.serve_untimed (henv : env.Reliable) {note : Option Request}
    (h : μ.serve env cfg s = some (t, note)) (hof : μ.Of own o)
    (hs : s.columns.Untimed fun k => own k ≠ none) : t.columns.Untimed fun k => own k ≠ none := by
  cases μ with
  | tcp request =>
    obtain ⟨c, hc, he⟩ := Option.map_eq_some_iff.1 h
    obtain ⟨rfl, -⟩ := Prod.mk.inj he
    exact Call.next_untimed henv (hof c hc).untimed hs
  | httpPut req =>
    have hput : Endpoints.put env cfg s req = (t, note) := Option.some.inj h
    unfold Endpoints.put at hput
    split_ifs at hput with hb
    · obtain ⟨rfl, -⟩ := Prod.mk.inj hput
      exact hs
    · obtain ⟨rfl, -⟩ := Prod.mk.inj hput
      exact Call.next_untimed henv (hof _ rfl).untimed hs
  | httpDelete path =>
    obtain ⟨rfl, -⟩ := Prod.mk.inj (Option.some.inj h)
    exact Call.next_untimed henv (hof _ rfl).untimed hs

theorem listener_process_changes (h : Listener.process note = some (some c)) :
    ∃ c', Server.process note = some c' ∧ c.changes = c'.changes.map Item.replay ∧
      c.enters = true ∧ c ≠ .clearExpired := by
  have hpairs {call : List RequestData → Call}
      (hc : (fun ps => some (call ps)) <$> Listener.pairs note = some (some c)) :
      ∃ ps, Server.pairs note = some ps ∧ c = call (ps.map .unconditional) := by
    obtain ⟨qs, hqs, he⟩ := Option.map_eq_some_iff.1 hc
    obtain ⟨kvs, hk, hp⟩ := Option.bind_eq_some_iff.1 hqs
    obtain ⟨ps, hps, rfl⟩ := server_pairs_of_listener hp
    exact ⟨ps, by simp [Server.pairs, hk, hps], (Option.some.inj he).symm⟩
  unfold Listener.process at h
  cases ha : note.action with
  | put =>
    rw [ha] at h
    obtain ⟨ps, hps, rfl⟩ := hpairs h
    refine ⟨.setBatch ps, by simp [Server.process, ha, hps], ?_, rfl, by simp⟩
    simp [Call.changes, Item.replay]
  | delete =>
    rw [ha] at h
    obtain ⟨keys, hkeys, he⟩ := Option.map_eq_some_iff.1 h
    obtain rfl := Option.some.inj he
    refine ⟨.removeBatch keys, by simp [Server.process, ha, hkeys], ?_, rfl, by simp⟩
    simp [Call.changes, Item.replay]
  | move =>
    rw [ha] at h
    obtain ⟨ps, hps, rfl⟩ := hpairs h
    refine ⟨.moveBatch ps, by simp [Server.process, ha, hps], ?_, rfl, by simp⟩
    simp [Call.changes, Item.replay]
  | get | list | ttl => simp [ha] at h

theorem listener_process_none (h : Listener.process note = some none)
    (hc : c ∈ Server.process note) :
    c.changes = [] ∧ ∀ P, c.On P := by
  unfold Listener.process at h
  cases ha : note.action with
  | get | list | ttl =>
    rw [Server.process, ha] at hc
    obtain ⟨x, -, rfl⟩ := Option.map_eq_some_iff.1 hc
    exact ⟨rfl, fun _ => trivial⟩
  | put | delete | move =>
    rw [ha] at h
    obtain ⟨x, -, hx⟩ := Option.map_eq_some_iff.1 h
    simp at hx

/-- A peer that is sent a notification does to its values what the notification does, or nothing if
it is refused. -/
theorem Listener.apply_replay (henv : env.Reliable) (hlaw : cfg.cipher.Lawful)
    (h : Listener.apply env cfg s note = some t) (hm : Refines cfg s.columns m) :
    Refines cfg t.columns ((note.replay m).getD m) := by
  obtain ⟨oc, hp, rfl⟩ := Option.map_eq_some_iff.1 h
  cases oc with
  | none =>
    cases hc : Server.process note with
    | none => rwa [Request.replay, hc]
    | some c =>
      rw [Request.replay, hc, Option.bind_some, Call.replay, (listener_process_none hp hc).1]
      exact hm
  | some c =>
    obtain ⟨c', hc', hch, hen, hn⟩ := listener_process_changes hp
    have hr := (Call.changes_refine henv hlaw hm hen hn).2
    rw [hch, List.foldlM_map] at hr
    rw [Request.replay, hc']
    exact hr

theorem Listener.applies_of_replay (henv : env.Reliable) (hlaw : cfg.cipher.Lawful)
    (hp : Listener.process note = some (some c)) (hm : Refines cfg s.columns m)
    (hr : (note.replay m).isSome) : Listener.applies env cfg s note = true := by
  obtain ⟨c', hc', hch, hen, hn⟩ := listener_process_changes hp
  have ha := (Call.changes_refine henv hlaw hm hen hn).1
  rw [hch, List.foldlM_map] at ha
  rw [Request.replay, hc'] at hr
  simp only [Listener.applies, hp, decide_eq_true_eq]
  rw [ha]
  exact congrArg Answer.bool hr

theorem Item.LeavesUntimed.replay {P : Bytes → Prop} {i : Item} (h : i.LeavesUntimed P) :
    i.replay.LeavesUntimed P := by
  cases i <;> exact h

/-- A notification of keys that belong to somebody leaves them without expiration. -/
theorem Listener.apply_untimed (henv : env.Reliable) (h : Listener.apply env cfg s note = some t)
    (hof : note.Of own o) (hs : s.columns.Untimed fun k => own k ≠ none) :
    t.columns.Untimed fun k => own k ≠ none := by
  obtain ⟨oc, hp, rfl⟩ := Option.map_eq_some_iff.1 h
  cases oc with
  | none => exact hs
  | some c =>
    obtain ⟨c', hc', hch, -, -⟩ := listener_process_changes hp
    refine Call.next_untimed henv ?_ hs
    intro i hi
    rw [hch] at hi
    obtain ⟨j, hj, rfl⟩ := List.mem_map.1 hi
    exact ((hof c' hc').untimed j hj).replay

end

/-! ### Runs -/

namespace Mesh

variable [DecidableEq ν] {S : MeshSetting ν} {own : Bytes → Option ν} {c c' : Mesh ν}

/-- The nodes as parties. -/
def parties (S : MeshSetting ν) (c : Mesh ν) : Parties ν Request RefMap where
  copy i := (c.site i).db.columns.refMap (S.cfg i)
  channel := c.underWay

theorem refMap_eq {cfg : Config} {v : Columns} {m : RefMap} (h : Refines cfg v m) :
    v.refMap cfg = m :=
  (refines_refMap cfg v).unique h

theorem copy_update (i : ν) (db : Db) (hs : List (Request × List ν)) :
    (fun j => ((Function.update c.site i ⟨db, hs⟩ j).db.columns.refMap (S.cfg j))) =
      Function.update (c.parties S).copy i (db.columns.refMap (S.cfg i)) := by
  funext j
  by_cases hj : j = i
  · subst hj
    simp
  · simp [hj, parties]

/-- The handlers are in turn: all but the last are done, and nobody is told a thing twice. -/
structure InTurn (hs : List (Request × List ν)) : Prop where
  done : hs.Pairwise fun h _ => h.2 = []
  nodup : ∀ h ∈ hs, h.2.Nodup

omit [DecidableEq ν] in
theorem InTurn.tail {h : Request × List ν} {hs : List (Request × List ν)} (ht : InTurn (h :: hs)) :
    InTurn hs :=
  ⟨(List.pairwise_cons.1 ht.done).2, fun h hh => ht.nodup h (List.mem_cons_of_mem _ hh)⟩

theorem pending_of_done {hs : List (Request × List ν)} (hd : ∀ h ∈ hs, h.2 = []) (j : ν) :
    pending hs j = [] := by
  rw [pending, List.map_eq_nil_iff, List.filter_eq_nil_iff]
  intro h hh
  simp [hd h hh]

omit [DecidableEq ν] in
theorem inTurn_concat {hs : List (Request × List ν)} (hd : ∀ h ∈ hs, h.2 = [])
    {h : Request × List ν} (hh : h.2.Nodup) : InTurn (hs ++ [h]) := by
  refine ⟨List.pairwise_append.2 ⟨?_, List.pairwise_singleton .., fun h' hh' _ _ => hd h' hh'⟩,
    fun h' hh' => ?_⟩
  · exact List.pairwise_iff_getElem.2 fun i j hi _ _ => hd _ (List.getElem_mem hi)
  · rcases List.mem_append.1 hh' with hh' | hh'
    · simp [hd h' hh']
    · obtain rfl := List.mem_singleton.1 hh'
      exact hh

/-- A notification enters the queue of the next peer: it was the first that had yet to enter it, and
the other queues have nothing to do with it. -/
theorem InTurn.notify {hs : List (Request × List ν)} (ht : InTurn hs) {n : ℕ} {note : Request}
    {j : ν} {left : List ν} (hn : hs[n]? = some (note, j :: left)) :
    InTurn (hs.set n (note, left)) ∧ ∀ l, pending hs l =
      (if l = j then [note] else []) ++ pending (hs.set n (note, left)) l := by
  induction hs generalizing n with
  | nil => simp at hn
  | cons h hs ih =>
    cases n with
    | zero =>
      obtain rfl : h = (note, j :: left) := Option.some.inj hn
      -- the handler is at work, so it is the last
      have hlast : hs = [] := by
        refine List.eq_nil_iff_forall_not_mem.2 fun h' hh' => ?_
        simpa using (List.pairwise_cons.1 ht.done).1 h' hh'
      subst hlast
      have hnd : (j :: left).Nodup := ht.nodup _ List.mem_cons_self
      rw [List.nodup_cons] at hnd
      refine ⟨⟨List.pairwise_singleton .., by simpa using hnd.2⟩, fun l => ?_⟩
      by_cases hl : l = j
      · subst hl
        simp [pending, hnd.1]
      · by_cases hmem : l ∈ left <;> simp [pending, hl, hmem]
    | succ n =>
      have hmem : (note, j :: left) ∈ hs := List.mem_of_getElem? (by simpa using hn)
      have hd : h.2 = [] := (List.pairwise_cons.1 ht.done).1 _ hmem
      obtain ⟨hturn, hpend⟩ := ih ht.tail (by simpa using hn)
      refine ⟨⟨List.pairwise_cons.2 ⟨fun _ _ => hd, hturn.done⟩, fun h' hh' => ?_⟩, fun l => ?_⟩
      · rcases List.mem_cons.1 hh' with rfl | hh'
        · simp [hd]
        · exact hturn.nodup h' hh'
      · have hskip (hs : List (Request × List ν)) : pending (h :: hs) l = pending hs l := by
          simp [pending, hd]
        rw [List.set_cons_succ, hskip, hskip]
        exact hpend l

/-- The invariant of an orderly run: the parties have made a run, the handlers of every node are in
turn, and the keys that belong to somebody do not expire. -/
structure InRun (S : MeshSetting ν) (own : Bytes → Option ν) (p : Parties ν Request RefMap)
    (c : Mesh ν) : Prop where
  reaches : Parties.Reaches (ownedKeys own) S.links p (c.parties S)
  inTurn : ∀ i, InTurn (c.site i).handlers
  untimed : ∀ i, (c.site i).db.columns.Untimed fun k => own k ≠ none

variable {p : Parties ν Request RefMap}

/-- What holds of every node still does after one of them has changed. -/
theorem forall_site_update {P : Site ν → Prop} (h : ∀ i, P (c.site i)) {i : ν} {s : Site ν}
    (hs : P s) : ∀ j, P (Function.update c.site i s j) :=
  (Function.forall_update_iff c.site fun _ s => P s).2 ⟨hs, fun j _ => h j⟩

theorem InRun.update (h : InRun S own p c) {i : ν} {s : Site ν} {q : ν → ν → List Request}
    (hr : Parties.Reaches (ownedKeys own) S.links p
      (parties S ⟨Function.update c.site i s, q⟩)) (hs : InTurn s.handlers)
    (hdb : s.db.columns.Untimed fun k => own k ≠ none) :
    InRun S own p ⟨Function.update c.site i s, q⟩ where
  reaches := hr
  inTurn := forall_site_update (P := fun s => InTurn s.handlers) h.inTurn hs
  untimed := forall_site_update (P := fun s => s.db.columns.Untimed fun k => own k ≠ none)
    h.untimed hdb

theorem InRun.serve (henv : ∀ i, (S.env i).Reliable) (hlaw : ∀ i, (S.cfg i).cipher.Lawful)
    (hnd : ∀ i, (S.links i).Nodup) (h : InRun S own p c) {i : ν} {m : Mutation} {o : Option ν}
    (ho : ∀ j ∈ o, j = i) (hof : m.Of own o) (hdone : ∀ h ∈ (c.site i).handlers, h.2 = [])
    (hs : c.step S (.serve i m) = some c') : InRun S own p c' := by
  obtain ⟨⟨t, note⟩, hserve, rfl⟩ := Option.map_eq_some_iff.1 hs
  have huntimed : t.columns.Untimed fun k => own k ≠ none :=
    Mutation.serve_untimed (henv i) hserve hof (h.untimed i)
  cases note with
  | none =>
    -- nothing is announced, and nothing has changed
    have ht : t.columns = (c.site i).db.columns := Mutation.serve_silent hserve
    simp only [Option.toList_none, List.map_nil, List.append_nil]
    refine h.update ?_ (h.inTurn i) huntimed
    have hsame : parties S { c with site := Function.update c.site i ⟨t, (c.site i).handlers⟩ } =
        c.parties S := by
      refine Parties.ext ?_ ?_
      · refine (copy_update i t _).trans ?_
        rw [ht]
        exact Function.update_eq_self i _
      · funext k l
        by_cases hk : k = i
        · subst hk
          simp [parties, underWay]
        · simp [parties, underWay, hk]
    rw [hsame]
    exact h.reaches
  | some note =>
    -- the notification is under way to all peers, and replaying it gives the new values
    simp only [Option.toList_some, List.map_cons, List.map_nil]
    refine h.update ?_ (inTurn_concat hdone (hnd i)) huntimed
    obtain ⟨m', hm', href⟩ :=
      Mutation.serve_replay (henv i) (hlaw i) hserve (refines_refMap (S.cfg i) _)
    have hnext : parties S { c with
        site := Function.update c.site i ⟨t, (c.site i).handlers ++ [(note, S.links i)]⟩ } =
        ⟨Function.update (c.parties S).copy i m',
          Parties.send S.links (c.parties S).channel i note⟩ := by
      refine Parties.ext ?_ ?_
      · refine (copy_update i t _).trans ?_
        rw [refMap_eq href]
      · funext k l
        by_cases hk : k = i
        · subst hk
          have hold : pending (c.site k).handlers l = [] := pending_of_done hdone l
          have hnew : pending ((c.site k).handlers ++ [(note, S.links k)]) l =
              pending (c.site k).handlers l ++ if l ∈ S.links k then [note] else [] := by
            rw [pending, List.filter_append, List.map_append]
            by_cases hl : l ∈ S.links k <;> simp [pending, hl]
          simp only [parties, Parties.send, underWay, Function.update_self, hnew, hold, true_and]
          split_ifs <;> simp
        · simp [parties, underWay, Parties.send, hk]
    rw [hnext]
    exact h.reaches.step (.write ho (Mutation.serve_of hserve hof) hm')

theorem InRun.notify (h : InRun S own p c) {i : ν} {n : ℕ} (hs : c.step S (.notify i n) = some c') :
    InRun S own p c' := by
  simp only [step] at hs
  split at hs
  case h_2 => simp at hs
  case h_1 note j left hn =>
    obtain rfl := Option.some.inj hs
    obtain ⟨hturn, hpend⟩ := (h.inTurn i).notify hn
    refine h.update ?_ hturn (h.untimed i)
    -- what leaves the handler enters the queue, and is still under way
    have hunder : underWay ⟨Function.update c.site i
        ⟨(c.site i).db, (c.site i).handlers.set n (note, left)⟩,
        Parties.setChannel c.queue i j (c.queue i j ++ [note])⟩ = c.underWay := by
      funext k l
      by_cases hk : k = i
      · subst hk
        simp only [underWay, Parties.setChannel, Function.update_self, hpend l, true_and]
        by_cases hl : l = j <;> simp [hl]
      · simp [underWay, Parties.setChannel, hk]
    have hsame : parties S ⟨Function.update c.site i
        ⟨(c.site i).db, (c.site i).handlers.set n (note, left)⟩,
        Parties.setChannel c.queue i j (c.queue i j ++ [note])⟩ = c.parties S := by
      refine Parties.ext ?_ hunder
      exact (copy_update i _ _).trans (Function.update_eq_self i _)
    rw [hsame]
    exact h.reaches

theorem InRun.receive (henv : ∀ i, (S.env i).Reliable) (hlaw : ∀ i, (S.cfg i).cipher.Lawful)
    (hself : ∀ i, i ∉ S.links i) (hp : (ownedKeys own).Synced S.links p) (h : InRun S own p c)
    {i j : ν} (hs : c.step S (.receive i j 0) = some c') : InRun S own p c' := by
  simp only [step] at hs
  split_ifs at hs with hlink
  cases hq : c.queue i j with
  | nil => simp [hq] at hs
  | cons note q =>
    simp only [hq, List.getElem?_cons_zero, List.eraseIdx_cons_zero] at hs
    obtain ⟨db, happly, rfl⟩ := Option.map_eq_some_iff.1 hs
    have hij : i ≠ j := fun heq => hself i (heq ▸ hlink)
    -- the notification is at the head of the channel
    obtain ⟨rest, hchannel⟩ : ∃ rest, (c.parties S).channel i j = note :: (q ++ rest) :=
      ⟨pending (c.site i).handlers j, by simp [parties, underWay, hq]⟩
    have hrest : rest = pending (c.site i).handlers j := by
      simpa [parties, underWay, hq] using hchannel.symm
    have hof : note.Of own (some i) ∨ note.Of own none := by
      have hb := hp.reaches hself h.reaches i j hlink
      rw [hchannel] at hb
      exact hb.receive.imp And.left And.left
    have hdb : db.columns.Untimed fun k => own k ≠ none := by
      rcases hof with hof | hof
      · exact Listener.apply_untimed (henv j) happly hof (h.untimed j)
      · exact Listener.apply_untimed (henv j) happly hof (h.untimed j)
    refine h.update ?_ (h.inTurn j) hdb
    have hnext : parties S ⟨Function.update c.site j ⟨db, (c.site j).handlers⟩,
        Parties.setChannel c.queue i j q⟩ =
        ⟨Function.update (c.parties S).copy j
            (((ownedKeys own).act note ((c.parties S).copy j)).getD ((c.parties S).copy j)),
          Parties.setChannel (c.parties S).channel i j (q ++ rest)⟩ := by
      refine Parties.ext ?_ ?_
      · refine (copy_update j db _).trans ?_
        rw [refMap_eq (Listener.apply_replay (henv j) (hlaw j) happly (refines_refMap (S.cfg j) _))]
        rfl
      · funext k l
        have hsite : (Function.update c.site j ⟨db, (c.site j).handlers⟩ k).handlers =
            (c.site k).handlers := by
          by_cases hk : k = j
          · subst hk
            simp
          · simp [hk]
        simp only [parties, underWay, Parties.setChannel, hsite]
        split_ifs with hkl
        · obtain ⟨rfl, rfl⟩ := hkl
          rw [hrest]
        · rfl
    rw [hnext]
    exact h.reaches.step (.receive hchannel hlink)

theorem InRun.sweep (henv : ∀ i, (S.env i).Reliable) (h : InRun S own p c) {i : ν}
    (hs : c.step S (.sweep i) = some c') : InRun S own p c' := by
  obtain rfl := Option.some.inj hs
  have huntimed : Call.clearExpired.LeavesUntimed fun k => own k ≠ none := fun i hi => by
    simp [Call.changes] at hi
  refine h.update ?_ (h.inTurn i) (Call.next_untimed (henv i) huntimed (h.untimed i))
  generalize hdb : Call.clearExpired.next (S.env i) (S.cfg i) (c.site i).db = db
  have hnext : parties S { c with site := Function.update c.site i ⟨db, (c.site i).handlers⟩ } =
      { c.parties S with
        copy := Function.update (c.parties S).copy i (db.columns.refMap (S.cfg i)) } := by
    refine Parties.ext (copy_update i _ _) ?_
    funext k l
    by_cases hk : k = i
    · subst hk
      simp [parties, underWay]
    · simp [parties, underWay, hk]
  rw [hnext]
  -- the sweep takes nothing that belongs to somebody
  refine h.reaches.step (.other fun j k hk => ?_)
  have hkeep := sweep_keeps (S.env i) (S.cfg i) (h.untimed i) (k := k) (by simp [hk])
  rw [hdb] at hkeep
  change ((c.site i).db.columns.refMap (S.cfg i))[k]? = (db.columns.refMap (S.cfg i))[k]?
  rw [refines_refMap, refines_refMap, Store.value, Store.value, hkeep]

theorem InRun.step (henv : ∀ i, (S.env i).Reliable) (hlaw : ∀ i, (S.cfg i).cipher.Lawful)
    (hself : ∀ i, i ∉ S.links i) (hnd : ∀ i, (S.links i).Nodup)
    (hp : (ownedKeys own).Synced S.links p) (h : InRun S own p c) {s : MeshStep ν}
    (hfair : s.Fair own) (ho : s.Orderly c) (hs : c.step S s = some c') : InRun S own p c' := by
  cases s with
  | serve i m =>
    rcases hfair with hof | hof
    · exact h.serve henv hlaw hnd (o := some i) (by simp) hof ho hs
    · exact h.serve henv hlaw hnd (o := none) (by simp) hof ho hs
  | notify i n => exact h.notify hs
  | receive i j n =>
    obtain rfl : n = 0 := ho
    exact h.receive henv hlaw hself hp hs
  | sweep i => exact h.sweep henv hs

/-- **An orderly run of the nodes is a run of the parties.** -/
theorem run_reaches (henv : ∀ i, (S.env i).Reliable) (hlaw : ∀ i, (S.cfg i).cipher.Lawful)
    (hself : ∀ i, i ∉ S.links i) (hnd : ∀ i, (S.links i).Nodup)
    (hp : (ownedKeys own).Synced S.links p) (h : InRun S own p c) {ss : List (MeshStep ν)}
    (hfair : ∀ s ∈ ss, s.Fair own) (ho : c.Orderly S ss) (hrun : c.run S ss = some c') :
    InRun S own p c' := by
  induction ss generalizing c with
  | nil =>
    obtain rfl := Option.some.inj hrun
    exact h
  | cons s ss ih =>
    rw [List.forall_mem_cons] at hfair
    obtain ⟨c₁, hs, hrun⟩ := Option.bind_eq_some_iff.1 hrun
    exact ih (h.step henv hlaw hself hnd hp hfair.1 ho.1 hs) hfair.2 (ho.2 c₁ hs) hrun

end Mesh

/-- **Nodes converge on the keys that have one writer.**  Let every key belong to one node at most,
which alone takes writes of it, and gives it no expiration; what belongs to nobody is written
anywhere; and no mutation is of keys of both kinds.  Then, in every orderly run of any number of
nodes that have the same values for these keys to begin with:
* when nothing is under way from a node to a peer, the peer has the values of the node for all keys
  that belong to the node;
* and the peer applies every notification that it is sent about such keys with success, if it does
  not crash over it. -/
theorem mesh_converges [DecidableEq ν] (S : MeshSetting ν) (henv : ∀ i, (S.env i).Reliable)
    (hlaw : ∀ i, (S.cfg i).cipher.Lawful) (hself : ∀ i, i ∉ S.links i)
    (hnd : ∀ i, (S.links i).Nodup) (own : Bytes → Option ν) (db : ν → Db)
    (huntimed : ∀ i, (db i).columns.Untimed fun k => own k ≠ none)
    (hsame : ∀ i, ∀ j ∈ S.links i, ∀ k, own k = some i →
      (db j).columns.value (S.cfg j) k = (db i).columns.value (S.cfg i) k)
    (ss : List (MeshStep ν)) (hfair : ∀ s ∈ ss, s.Fair own) (horder : (Mesh.start db).Orderly S ss)
    (c : Mesh ν) (hrun : Mesh.run S ss (.start db) = some c) (i j : ν) (hj : j ∈ S.links i) :
    (c.underWay i j = [] → ∀ k, own k = some i → c.value S j k = c.value S i k) ∧
      ∀ note ∈ (c.queue i j).head?, ¬ note.Of own none → (Listener.process note).isSome →
        Listener.applies (S.env j) (S.cfg j) (c.site j).db note = true := by
  have hp : (ownedKeys own).Synced S.links ((Mesh.start db).parties S) := by
    intro i j hj
    refine .same fun k hk => ?_
    exact (refines_refMap _ _ k).trans ((hsame i j hj k hk).trans (refines_refMap _ _ k).symm)
  have h : Mesh.InRun S own ((Mesh.start db).parties S) c :=
    Mesh.run_reaches henv hlaw hself hnd hp
      ⟨.start, fun _ => ⟨.nil, fun h hh => absurd hh List.not_mem_nil⟩, huntimed⟩ hfair horder hrun
  refine ⟨fun hnil k hk => ?_, fun note hnote hof hproc => ?_⟩
  · have hagree := Parties.agree hp hself h.reaches hj hnil k hk
    exact (refines_refMap _ _ k).symm.trans (hagree.trans (refines_refMap _ _ k))
  · obtain ⟨q, hq⟩ := List.head?_eq_some_iff.1 hnote
    obtain ⟨rest, hrest⟩ : ∃ rest, (c.parties S).channel i j = note :: rest :=
      ⟨q ++ Mesh.pending (c.site i).handlers j, by simp [Mesh.parties, Mesh.underWay, hq]⟩
    have hsome : ((ownedKeys own).act note ((c.parties S).copy j)).isSome :=
      Parties.accepts hp hself h.reaches hj hrest hof
    obtain ⟨oc, hoc⟩ := Option.isSome_iff_exists.1 hproc
    cases oc with
    | none =>
      -- a notification that asks for nothing belongs to nobody
      refine absurd (fun call hcall => ⟨(listener_process_none hoc hcall).2 _, ?_⟩) hof
      rw [Call.LeavesUntimed, (listener_process_none hoc hcall).1]
      simp
    | some call =>
      exact Listener.applies_of_replay (henv j) (hlaw j) hoc (refines_refMap _ _) hsome

/-! ### Two nodes -/

/-- Two nodes that listen to each other. -/
def twoNodes : MeshSetting Bool where
  env _ := .reliable fun _ => 0
  cfg _ := .plain false
  links i := [!i]

/-- The key `/a` belongs to the first node, and `/b` to the second. -/
def firstAndSecond (k : Bytes) : Option Bool :=
  if k = [47, 97] then some false else if k = [47, 98] then some true else none

/-- A `PUT` of a key of one letter. -/
def putLetter (letter value : UInt8) : Mutation :=
  .httpPut ⟨[47, 107, 101, 121, 47, letter], [value], none, none, none⟩

theorem putLetter_of {letter value : UInt8} {o : Option Bool}
    (h : firstAndSecond [47, letter] = o) : (putLetter letter value).Of firstAndSecond o := by
  intro c hc
  obtain rfl := Option.some.inj hc
  exact ⟨h, List.forall_mem_singleton.2 fun _ => rfl⟩

/-- Each node sets its own key, and both set `/c`, which belongs to nobody, before they are sent
anything.  In the end they agree on `/a` and `/b`, and each has for `/c` what the other has set. -/
theorem mesh_converges_two :
    let ss : List (MeshStep Bool) :=
      [.serve false (putLetter 97 1), .serve true (putLetter 98 2), .notify true 0, .notify false 0,
        .serve false (putLetter 99 3), .serve true (putLetter 99 4), .notify false 1,
        .notify true 1, .receive false true 0, .receive true false 0, .receive false true 0,
        .receive true false 0]
    ∃ c, Mesh.run twoNodes ss (.start fun _ => Db.init 1) = some c ∧
      (∀ k, firstAndSecond k = some false → c.value twoNodes true k = c.value twoNodes false k) ∧
      c.value twoNodes true [47, 97] = some [1] ∧ c.value twoNodes false [47, 98] = some [2] ∧
      c.value twoNodes false [47, 99] = some [4] ∧ c.value twoNodes true [47, 99] = some [3] := by
  intro ss
  have hobs : (Mesh.run twoNodes ss (.start fun _ => Db.init 1)).map (fun c =>
      (c.underWay false true, [c.value twoNodes true [47, 97], c.value twoNodes false [47, 98],
        c.value twoNodes false [47, 99], c.value twoNodes true [47, 99]])) =
      some ([], [some [1], some [2], some [4], some [3]]) := by decide +kernel
  obtain ⟨c, hrun, hc⟩ := Option.map_eq_some_iff.1 hobs
  simp only [Prod.mk.injEq, List.cons.injEq, and_true] at hc
  obtain ⟨hnil, ha, hb, hc₁, hc₂⟩ := hc
  have huntimed : (Db.init 1).columns.Untimed fun k => firstAndSecond k ≠ none :=
    ⟨fun _ _ => by simp, fun x k hk => by simp at hk⟩
  have hfair : ∀ s ∈ ss, s.Fair firstAndSecond := by
    simp only [ss, List.forall_mem_cons, MeshStep.Fair, List.not_mem_nil, false_implies,
      implies_true, and_true, true_and]
    exact ⟨.inl (putLetter_of rfl), .inl (putLetter_of rfl), .inr (putLetter_of rfl),
      .inr (putLetter_of rfl)⟩
  have horder : (Mesh.start fun _ => Db.init 1).Orderly twoNodes ss := by decide +kernel
  have h := mesh_converges twoNodes (fun _ => Env.reliable_reliable _)
    (fun _ => Config.plain_lawful _) (by decide) (by decide) firstAndSecond (fun _ => Db.init 1)
    (fun _ => huntimed) (fun _ _ _ _ _ => rfl) ss hfair horder c hrun false true (by decide)
  exact ⟨c, hrun, h.1 hnil, ha, hb, hc₁, hc₂⟩

end ConfigDb
