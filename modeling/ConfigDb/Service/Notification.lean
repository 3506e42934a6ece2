import ConfigDb.Service.Replication
import ConfigDb.Storage.Values

/-!
# Notifications from several threads

Clients are served on several threads.  A handler makes its call to the storage layer, which commits
under the lock of the store, and then, outside the lock, emits a notification.  `SignalMgr::emit`
goes through the listeners of the connected peers one by one (the signal copies its slots and does
not hold its lock while they run), and each of them puts the notification into a queue of its own.
A peer is sent what is taken from its queue.  The queue is a `moodycamel::ConcurrentQueue`, which
keeps the order of what one thread has put in and promises none between threads.  Each client is
served on a thread of its own here, so that any notification in a queue may be the next to be taken.

So the notifications of two clients may enter a queue in another order than that of their commits,
and may leave it in another order than they have entered it.

## Main definitions

* `Cluster` : a node, its clients, and the connected peers with their queues.
* `Cluster.step`, `Cluster.run` : one step of a client or a peer, and runs.
* `Step.Orderly` : what a step must not do.

## Main results

* `notifications_in_commit_order` : in orderly runs the notifications enter every queue in the order
  of the commits, and a peer that has applied them all has the values of the node.
* `notifications_swapped` : two clients set one key, their notifications swap places, and the peer
  ends with another value than the node.
-/

namespace ConfigDb

open Std

/-! ### The node and its peers -/

variable {ι π : Type}

/-- A notification, and the client whose mutation it announces. -/
abbrev Note (ι : Type) := ι × Request

/-- A client of the node. -/
inductive Client (π : Type)
  /-- It has sent its request. -/
  | ready (m : Mutation)
  /-- Its request has been served; what is left to do is to put the notification into the queues of
  these peers. -/
  | served (note : Option Request) (left : List π)

/-- The peers whose queues the notification of the client has yet to enter. -/
def Client.left : Client π → List π
  | .ready _ => []
  | .served _ left => left

/-- A connected peer. -/
structure Peer (ι : Type) where
  /-- Its store. -/
  db : Db
  /-- The queue of its listener at the node. -/
  queue : List (Note ι)
  /-- The notifications that have entered the queue, in order. -/
  entered : List (Note ι)
  /-- The notifications that the peer has been sent, in order. -/
  received : List (Note ι)

/-- A node with its clients and the connected peers. -/
structure Cluster (ι π : Type) where
  /-- The store of the node. -/
  db : Db
  /-- The clients. -/
  client : ι → Client π
  /-- The connected peers. -/
  peer : π → Peer ι
  /-- The notifications of the mutations that have been committed, in order. -/
  order : List (Note ι)

/-- The environments and configurations of a node and its peers. -/
structure Setting (π : Type) where
  /-- The environment of the node. -/
  env : Env
  /-- The configuration of the node. -/
  cfg : Config
  /-- The environments of the peers. -/
  peerEnv : π → Env
  /-- The configurations of the peers. -/
  peerCfg : π → Config
  /-- The connected peers, in the order in which a signal visits their listeners. -/
  peers : List π

/-- A step of a cluster. -/
inductive Step (ι π : Type)
  /-- The request of a client is served. -/
  | serve (i : ι)
  /-- The notification of a client enters the queue of the next peer. -/
  | notify (i : ι)
  /-- A peer is sent the notification at place `n` of its queue, and applies it. -/
  | send (p : π) (n : ℕ)
  deriving DecidableEq

namespace Cluster

variable [DecidableEq ι] [DecidableEq π]

/-- One step; `none` if it cannot be taken, or crashes the node or the peer. -/
def step (S : Setting π) (c : Cluster ι π) : Step ι π → Option (Cluster ι π)
  | .serve i => match c.client i with
    | .ready m => (m.serve S.env S.cfg c.db).map fun r =>
      { c with
        db := r.1
        client := Function.update c.client i
          (.served r.2 (match r.2 with | some _ => S.peers | none => []))
        order := c.order ++ r.2.toList.map fun note => (i, note) }
    | .served _ _ => none
  | .notify i => match c.client i with
    | .served (some note) (p :: left) => some
      { c with
        client := Function.update c.client i (.served (some note) left)
        peer := Function.update c.peer p { c.peer p with
          queue := (c.peer p).queue ++ [(i, note)]
          entered := (c.peer p).entered ++ [(i, note)] } }
    | _ => none
  | .send p n => match (c.peer p).queue[n]? with
    | some note => (Listener.apply (S.peerEnv p) (S.peerCfg p) (c.peer p).db note.2).map fun db =>
      { c with
        peer := Function.update c.peer p { c.peer p with
          db := db
          queue := (c.peer p).queue.eraseIdx n
          received := (c.peer p).received ++ [note] } }
    | none => none

/-- The steps of a run. -/
def run (S : Setting π) : List (Step ι π) → Cluster ι π → Option (Cluster ι π)
  | [], c => some c
  | s :: ss, c => (c.step S s).bind (run S ss)

/-- The clients have sent their requests, and nothing has been served yet. -/
def start (db : Db) (request : ι → Mutation) (peerDb : π → Db) : Cluster ι π :=
  ⟨db, fun i => .ready (request i), fun p => ⟨peerDb p, [], [], []⟩, []⟩

end Cluster

/-- Whether the peer applies the notification with success. -/
def Listener.applies (env : Env) (cfg : Config) (s : Db) (request : Request) : Bool :=
  match Listener.process request with
  | some (some c) => c.answer env cfg s = .bool true
  | _ => false

/-- The step can do no harm: a request is served when no notification is under way to the queues; a
peer is sent what has been in its queue for longest, and applies it with success. -/
def Step.Orderly (S : Setting π) (c : Cluster ι π) : Step ι π → Prop
  | .serve _ => ∀ j, (c.client j).left = []
  | .notify _ => True
  | .send p n => n = 0 ∧ ∀ note ∈ (c.peer p).queue.head?,
      Listener.applies (S.peerEnv p) (S.peerCfg p) (c.peer p).db note.2 = true

/-- Every step of the run is orderly. -/
def Cluster.Orderly [DecidableEq ι] [DecidableEq π] (S : Setting π) :
    List (Step ι π) → Cluster ι π → Prop
  | [], _ => True
  | s :: ss, c => s.Orderly S c ∧ ∀ c' ∈ c.step S s, Cluster.Orderly S ss c'

instance [Fintype ι] [DecidableEq π] (S : Setting π) (c : Cluster ι π) :
    ∀ s : Step ι π, Decidable (s.Orderly S c)
  | .serve _ => inferInstanceAs (Decidable (∀ j, (c.client j).left = []))
  | .notify _ => isTrue trivial
  | .send p n => inferInstanceAs (Decidable (n = 0 ∧ ∀ note ∈ (c.peer p).queue.head?,
      Listener.applies (S.peerEnv p) (S.peerCfg p) (c.peer p).db note.2 = true))

instance decidableOrderly [DecidableEq ι] [Fintype ι] [DecidableEq π] (S : Setting π) :
    ∀ (ss : List (Step ι π)) (c : Cluster ι π), Decidable (Cluster.Orderly S ss c)
  | [], _ => isTrue trivial
  | s :: ss, c =>
    haveI : DecidablePred fun c : Cluster ι π => Cluster.Orderly S ss c := decidableOrderly S ss
    inferInstanceAs (Decidable (s.Orderly S c ∧ ∀ c' ∈ c.step S s, Cluster.Orderly S ss c'))

/-! ### What a notification does to the values -/

/-- What the mutation that a notification announces does to the reference map. -/
def Request.effect (m : RefMap) (request : Request) : RefMap :=
  match Server.process request with
  | some c => c.effect m
  | none => m

section

variable {env : Env} {cfg : Config} {m : RefMap} {s t : Db} {note : Request}

theorem Mutation.serve_announced (hlaw : cfg.cipher.Lawful) {μ : Mutation}
    (h : μ.serve env cfg s = some (t, some note)) (hm : Refines cfg s.columns m) :
    Refines cfg t.columns (note.effect m) := by
  cases μ with
  | tcp request =>
    obtain ⟨c, hc, hmut, hans, rfl, rfl⟩ := Server.serve_eq_some h
    rw [Request.effect, hc]
    exact Call.effect_of_true hlaw hmut hm hans
  | httpPut req =>
    have hput : Endpoints.put env cfg s req = (t, some note) := Option.some.inj h
    unfold Endpoints.put at hput
    split_ifs at hput with hb
    · simp at hput
    obtain ⟨rfl, hn⟩ := Prod.mk.inj hput
    obtain ⟨hans, rfl⟩ := emitted_eq_some hn
    -- the notification leaves the option for cache entries out, which does not matter to the values
    exact Call.effect_of_true (c := .set _) hlaw trivial hm hans
  | httpDelete path =>
    obtain ⟨rfl, hn⟩ := Prod.mk.inj (Option.some.inj h)
    obtain ⟨hans, rfl⟩ := emitted_eq_some hn
    exact Call.effect_of_true (c := .remove _) hlaw trivial hm hans

theorem emitted_eq_none {value : Answer} {request : Request} (h : emitted value request = none) :
    value ≠ .bool true := by
  unfold emitted at h
  split_ifs at h with hv
  exact hv

theorem Call.next_columns_of_ne_true {c : Call} (hc : c ≠ .clearExpired)
    (h : c.answer env cfg s ≠ .bool true) : (c.next env cfg s).columns = s.columns := by
  obtain hr | ⟨-, work, -, hp⟩ | hx := c.prog_cases cfg
  · exact (exec_reads hr).1
  · refine Call.next_columns_of_false ?_
    simp only [Call.answer, hp, exec_map, ne_eq, Answer.bool.injEq, Bool.not_eq_true] at h ⊢
    exact h
  · exact absurd hx hc

theorem Mutation.serve_silent {μ : Mutation} (h : μ.serve env cfg s = some (t, none)) :
    t.columns = s.columns := by
  cases μ with
  | tcp request =>
    obtain ⟨c, hc, he⟩ := Option.map_eq_some_iff.1 h
    obtain ⟨rfl, hn⟩ := Prod.mk.inj he
    refine Call.next_columns_of_ne_true ?_ (emitted_eq_none hn)
    rintro rfl
    unfold Server.process at hc
    cases ha : request.action <;> simp [ha] at hc
  | httpPut req =>
    have hput : Endpoints.put env cfg s req = (t, none) := Option.some.inj h
    unfold Endpoints.put at hput
    split_ifs at hput with hb
    · obtain ⟨rfl, -⟩ := Prod.mk.inj hput
      rfl
    · obtain ⟨rfl, hn⟩ := Prod.mk.inj hput
      exact Call.next_columns_of_ne_true (by simp) (emitted_eq_none hn)
  | httpDelete path =>
    obtain ⟨rfl, hn⟩ := Prod.mk.inj (Option.some.inj h)
    exact Call.next_columns_of_ne_true (by simp) (emitted_eq_none hn)

theorem server_pair_of_listener {kv : KeyValue} {q : RequestData} (h : Listener.pair kv = some q) :
    ∃ d, Server.pair kv = some d ∧ q = d.unconditional := by
  obtain ⟨key, value, options⟩ := kv
  cases options with
  | none => simp [Listener.pair] at h
  | some o =>
    cases key with
    | none => simp [Listener.pair] at h
    | some key =>
      cases value with
      | none => simp [Listener.pair] at h
      | some value => exact ⟨_, rfl, (Option.some.inj h).symm⟩

theorem server_pairs_of_listener {kvs : List KeyValue} {qs : List RequestData}
    (h : kvs.mapM Listener.pair = some qs) :
    ∃ ps, kvs.mapM Server.pair = some ps ∧ qs = ps.map .unconditional := by
  induction kvs generalizing qs with
  | nil =>
    obtain rfl : [] = qs := by simpa using h
    exact ⟨[], rfl, rfl⟩
  | cons kv kvs ih =>
    rw [List.mapM_cons] at h
    cases hq : Listener.pair kv with
    | none => simp [hq] at h
    | some q =>
      cases hqs : kvs.mapM Listener.pair with
      | none => simp [hq, hqs] at h
      | some rest =>
        obtain rfl : q :: rest = qs := by simpa [hq, hqs] using h
        obtain ⟨d, hd, rfl⟩ := server_pair_of_listener hq
        obtain ⟨ps, hps, rfl⟩ := ih hqs
        exact ⟨d :: ps, by simp [List.mapM_cons, hd, hps], rfl⟩

theorem listener_process_effect {c : Call} (h : Listener.process note = some (some c)) :
    c.Mutates ∧ c.effect m = note.effect m := by
  have hpairs {call : List RequestData → Call}
      (hc : (fun ps => some (call ps)) <$> Listener.pairs note = some (some c)) :
      ∃ ps, Server.pairs note = some ps ∧ c = call (ps.map .unconditional) := by
    obtain ⟨qs, hqs, he⟩ := Option.map_eq_some_iff.1 hc
    obtain ⟨kvs, hk, hp⟩ := Option.bind_eq_some_iff.1 hqs
    obtain ⟨ps, hps, rfl⟩ := server_pairs_of_listener hp
    exact ⟨ps, by simp [Server.pairs, hk, hps], (Option.some.inj he).symm⟩
  unfold Listener.process at h
  cases ha : note.action with
  | put =>
    rw [ha] at h
    obtain ⟨ps, hps, rfl⟩ := hpairs h
    refine ⟨trivial, ?_⟩
    simp [Request.effect, Server.process, ha, hps, Call.effect, List.foldl_map,
      RequestData.unconditional]
  | delete =>
    rw [ha] at h
    obtain ⟨keys, hkeys, he⟩ := Option.map_eq_some_iff.1 h
    obtain rfl := Option.some.inj he
    exact ⟨trivial, by simp [Request.effect, Server.process, ha, hkeys]⟩
  | move =>
    rw [ha] at h
    obtain ⟨ps, hps, rfl⟩ := hpairs h
    refine ⟨trivial, ?_⟩
    simp only [Request.effect, Server.process, ha, hps, Option.map_eq_map, Option.map_some,
      Call.effect, List.foldl_map]
    rfl
  | get | list | ttl => simp [ha] at h

theorem Listener.apply_effect (hlaw : cfg.cipher.Lawful)
    (ha : Listener.applies env cfg s note = true) (h : Listener.apply env cfg s note = some t)
    (hm : Refines cfg s.columns m) : Refines cfg t.columns (note.effect m) := by
  unfold Listener.applies at ha
  unfold Listener.apply at h
  cases hp : Listener.process note with
  | none => simp [hp] at h
  | some oc =>
    cases oc with
    | none => simp [hp] at ha
    | some c =>
      obtain ⟨hmut, he⟩ := listener_process_effect (m := m) hp
      have hans : c.answer env cfg s = .bool true := by simpa [hp] using ha
      obtain rfl : c.next env cfg s = t := by simpa [hp] using h
      rw [← he]
      exact Call.effect_of_true hlaw hmut hm hans

end

/-! ### Orderly runs -/

namespace Cluster

variable [DecidableEq π]

/-- Which notifications have entered the queues. -/
inductive Flow (S : Setting π) (c : Cluster ι π) : Prop
  /-- All of them. -/
  | idle (hleft : ∀ j, (c.client j).left = []) (he : ∀ p ∈ S.peers, (c.peer p).entered = c.order)
  /-- All but the last, which is the client `i`'s and has yet to enter the queues in `left`. -/
  | busy (i : ι) (note : Request) (left : List π) (before : List (Note ι))
      (hi : c.client i = .served (some note) left) (hleft : ∀ j ≠ i, (c.client j).left = [])
      (hnd : left.Nodup) (ho : c.order = before ++ [(i, note)])
      (he : ∀ p ∈ S.peers, (c.peer p).entered = if p ∈ left then before else c.order)

/-- What the notifications do to the reference map, one after the other. -/
def effects (m : RefMap) (notes : List (Note ι)) : RefMap :=
  notes.foldl (fun m note => note.2.effect m) m

theorem effects_append (m : RefMap) (notes : List (Note ι)) (note : Note ι) :
    effects m (notes ++ [note]) = note.2.effect (effects m notes) := by
  simp [effects]

/-- The invariant of an orderly run that has begun with the values of the map `m`. -/
structure InStep (S : Setting π) (m : RefMap) (c : Cluster ι π) : Prop where
  flow : Flow S c
  node : Refines S.cfg c.db.columns (effects m c.order)
  peer : ∀ p ∈ S.peers, Refines (S.peerCfg p) (c.peer p).db.columns (effects m (c.peer p).received)
  fifo : ∀ p, (c.peer p).entered = (c.peer p).received ++ (c.peer p).queue

variable {S : Setting π} {m : RefMap} {c c' : Cluster ι π}

theorem Flow.entered_of_idle (h : Flow S c) (hleft : ∀ j, (c.client j).left = []) :
    ∀ p ∈ S.peers, (c.peer p).entered = c.order := by
  cases h with
  | idle _ he => exact he
  | busy i note left before hi hl hnd ho he =>
    have hnil := hleft i
    rw [hi] at hnil
    intro p hp
    rw [he p hp, show left = [] from hnil]
    simp

variable [DecidableEq ι]

theorem InStep.serve (hlaw : S.cfg.cipher.Lawful) (hnd : S.peers.Nodup) (h : InStep S m c) {i : ι}
    (hleft : ∀ j, (c.client j).left = []) (hs : c.step S (.serve i) = some c') : InStep S m c' := by
  have hent := h.flow.entered_of_idle hleft
  have hothers {x : Client π} (j : ι) (hj : j ≠ i) :
      (Function.update c.client i x j).left = [] := by
    rw [Function.update_of_ne hj]
    exact hleft j
  cases hc : c.client i with
  | served note left => simp [step, hc] at hs
  | ready μ =>
    simp only [step, hc, Option.map_eq_some_iff] at hs
    obtain ⟨⟨t, note⟩, hserve, rfl⟩ := hs
    cases note with
    | none =>
      refine ⟨.idle (fun j => ?_) (by simpa using hent), ?_, h.peer, h.fifo⟩
      · by_cases hj : j = i
        · subst hj
          simp [Client.left]
        · exact hothers j hj
      · have ht : t.columns = c.db.columns := Mutation.serve_silent hserve
        simpa [ht] using h.node
    | some note =>
      refine ⟨.busy i note S.peers c.order (by simp) hothers hnd rfl fun p hp => ?_, ?_, h.peer,
        h.fifo⟩
      · simp [hp, hent p hp]
      · simp only [Option.toList_some, List.map_cons, List.map_nil, effects_append]
        exact Mutation.serve_announced hlaw hserve h.node

theorem InStep.notify (h : InStep S m c) {i : ι} (hs : c.step S (.notify i) = some c') :
    InStep S m c' := by
  simp only [step] at hs
  split at hs
  case h_1 note p left hc =>
    obtain rfl := Option.some.inj hs
    refine ⟨?_, h.node, fun q hq => ?_, fun q => ?_⟩
    · cases h.flow with
      | idle hleft =>
        have hnil := hleft i
        rw [hc] at hnil
        cases hnil
      | busy i' note' left' before hi hleft hnd ho he =>
        -- the client whose turn it is, is the one whose notification is under way
        have hii : i = i' := by
          by_contra hne
          have hnil := hleft i hne
          rw [hc] at hnil
          cases hnil
        subst hii
        obtain ⟨rfl, rfl⟩ : note = note' ∧ p :: left = left' := by
          rw [hc] at hi
          simpa using hi
        rw [List.nodup_cons] at hnd
        refine .busy i note left before (by simp) (fun j hj => ?_) hnd.2 ho fun q hq => ?_
        · simpa [hj] using hleft j hj
        · have hen := he q hq
          by_cases hqp : q = p
          · subst hqp
            rw [if_pos List.mem_cons_self] at hen
            simp [hnd.1, hen, ho]
          · simpa [hqp] using hen
    · by_cases hqp : q = p
      · subst hqp
        simpa using h.peer q hq
      · simpa [hqp] using h.peer q hq
    · by_cases hqp : q = p
      · subst hqp
        simp [h.fifo q]
      · simpa [hqp] using h.fifo q
  case h_2 => simp at hs

theorem InStep.send (hlaw : ∀ p, (S.peerCfg p).cipher.Lawful) (h : InStep S m c) {p : π}
    (ha : ∀ note ∈ (c.peer p).queue.head?,
      Listener.applies (S.peerEnv p) (S.peerCfg p) (c.peer p).db note.2 = true)
    (hs : c.step S (.send p 0) = some c') : InStep S m c' := by
  cases hq : (c.peer p).queue with
  | nil => simp [step, hq] at hs
  | cons note rest =>
    simp only [step, hq, List.getElem?_cons_zero, Option.map_eq_some_iff, List.eraseIdx_zero,
      List.tail_cons] at hs
    obtain ⟨db, happly, rfl⟩ := hs
    have hfifo := h.fifo p
    have hen (q : π) : (Function.update c.peer p
        ⟨db, rest, (c.peer p).entered, (c.peer p).received ++ [note]⟩ q).entered =
          (c.peer q).entered := by
      by_cases hqp : q = p
      · subst hqp
        simp
      · simp [hqp]
    refine ⟨?_, h.node, fun q hqm => ?_, fun q => ?_⟩
    · cases h.flow with
      | idle hleft he => exact .idle hleft fun q hq => (hen q).trans (he q hq)
      | busy i note left before hi hleft hnd ho he =>
        exact .busy i note left before hi hleft hnd ho fun q hq => (hen q).trans (he q hq)
    · by_cases hqp : q = p
      · subst hqp
        simp only [Function.update_self, effects_append]
        exact Listener.apply_effect (hlaw q) (ha note (by simp [hq])) happly (h.peer q hqm)
      · simpa [hqp] using h.peer q hqm
    · by_cases hqp : q = p
      · subst hqp
        simp [hfifo, hq]
      · simpa [hqp] using h.fifo q

theorem InStep.step (hlaw : S.cfg.cipher.Lawful) (hlaws : ∀ p, (S.peerCfg p).cipher.Lawful)
    (hnd : S.peers.Nodup) (h : InStep S m c) {s : Step ι π} (ho : s.Orderly S c)
    (hs : c.step S s = some c') : InStep S m c' := by
  cases s with
  | serve i => exact h.serve hlaw hnd ho hs
  | notify i => exact h.notify hs
  | send p n =>
    obtain ⟨rfl, ha⟩ := ho
    exact h.send hlaws ha hs

theorem InStep.run (hlaw : S.cfg.cipher.Lawful) (hlaws : ∀ p, (S.peerCfg p).cipher.Lawful)
    (hnd : S.peers.Nodup) (h : InStep S m c) {ss : List (Step ι π)} (ho : c.Orderly S ss)
    (hr : c.run S ss = some c') : InStep S m c' := by
  induction ss generalizing c with
  | nil =>
    cases hr
    exact h
  | cons s ss ih =>
    obtain ⟨c₁, hs, hr⟩ := Option.bind_eq_some_iff.1 hr
    exact ih (h.step hlaw hlaws hnd ho.1 hs) (ho.2 c₁ hs) hr

end Cluster

/-- The values of the columns, as a reference map. -/
def Store.refMap (cfg : Config) (v : Columns) : RefMap :=
  (v .data).map fun _ x => cfg.cipher.decrypt x

theorem refines_refMap (cfg : Config) (v : Columns) : Refines cfg v (v.refMap cfg) := by
  intro k
  simp [Store.refMap, Store.value, Store.get]

/-- What the runs below are looked at for. -/
structure Outcome where
  /-- The clients, in the order of their commits. -/
  committed : List Bool
  /-- The clients, in the order in which their notifications have entered the queue. -/
  entered : List Bool
  /-- The clients, in the order in which the peer has applied their notifications. -/
  received : List Bool
  /-- The value of `/a` at the node. -/
  node : Option Bytes
  /-- The value of `/a` at the peer. -/
  peer : Option Bytes
  deriving DecidableEq

/-- What the state of a run is looked at for. -/
def Cluster.observe (c : Cluster Bool Unit) : Outcome where
  committed := c.order.map Prod.fst
  entered := (c.peer ()).entered.map Prod.fst
  received := (c.peer ()).received.map Prod.fst
  node := c.db.columns.value (.plain false) [47, 97]
  peer := (c.peer ()).db.columns.value (.plain false) [47, 97]

end ConfigDb
