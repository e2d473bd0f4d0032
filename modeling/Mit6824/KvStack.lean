/-
# The key/value service on the cluster

`KvSystem.lean` runs the Clerks, the network and the handlers over an ideal Raft, and
`RaftCluster.lean` runs Raft by itself.  Here they run together: a handler calls the
`Start` of its own Raft server, in two critical sections with anything in between, and
an apply loop takes the messages that the apply goroutines of its server send,
repeated ones included.

* Clerks, network and handlers take the steps of `KvService` that have nothing to do with
  Raft (`KvAction.isLocal`).  What `KvService` knows of the ideal Raft, its pool and its
  agreed sequence, stays empty;
* `received` is the largest index that an incarnation has taken from its apply channel;
* a crash, or a panic, of a server ends the Raft incarnation.  Handlers of the old
  incarnation, which nothing stops, may go on, but `Start` does not answer them.
-/
import Mit6824.KvLinear
import Mit6824.RaftHandlers
import Mit6824.RaftDelivery

namespace Mit6824

/-! ## The steps of the two halves -/

/-- A step of the Clerks, of the network or of a handler in which Raft has no part. -/
def KvAction.isLocal {n : ℕ} : KvAction n → Bool
  | .start _ _ _ => false
  | .agree _ => false
  | .apply _ _ => false
  | .restart _ => false
  | _ => true

/-- A step of Raft in which the service has no part. -/
def Action.isInternal {n : ℕ} {C : Type} : Action n C → Bool
  | .startRead _ _ => false
  | .startAppend _ _ => false
  | .applySend _ _ => false
  | _ => true

namespace KvService

variable {n : ℕ} {c c' : KvService n} {a : KvAction n}

/-- The service with another pool and another agreed sequence. -/
def onIdeal (c : KvService n) (starts agreed : List Op) : KvService n :=
  { c with starts := starts, agreed := agreed }

/-- A local step does not look at the ideal Raft. -/
theorem step_onIdeal (starts agreed : List Op) (hlocal : a.isLocal = true) :
    (c.onIdeal starts agreed).step a = (c.step a).map fun c' => c'.onIdeal starts agreed := by
  cases a with
  | start k index isLeader => cases hlocal
  | agree k => cases hlocal
  | apply server epoch => cases hlocal
  | restart server => cases hlocal
  | invoke client input =>
      simp only [step, onIdeal]
      split <;> rfl
  | call client =>
      simp only [step, onIdeal]
      split <;> rfl
  | callFails client =>
      simp only [step, onIdeal]
      split <;> rfl
  | callReturns client m =>
      simp only [step, onIdeal]
      split
      · split_ifs <;> rfl
      · rfl
  | request m =>
      simp only [step, onIdeal]
      rcases c.calls[m]? with _ | rpc <;> rfl
  | register k =>
      simp only [step, onIdeal]
      split <;> rfl
  | receive k =>
      simp only [step, onIdeal]
      split
      · simp only [home]
        rcases KVServer.receive _ _ with _ | ⟨kv, notification⟩ <;> rfl
      · rfl
  | timeout k =>
      simp only [step, onIdeal]
      split <;> rfl
  | unregister k =>
      simp only [step, onIdeal]
      split
      · split_ifs
        · rfl
        · split <;> rfl
      · rfl
  | read k =>
      simp only [step, onIdeal]
      split
      · simp only [home]
        split <;> rfl
      · rfl
  | notify server epoch =>
      simp only [step, onIdeal]
      rcases KVServer.notify _ with _ | kv <;> rfl

/-- What a local step leaves alone: the epochs, what every incarnation has received, and the
arguments of the handlers. -/
structure LocalFrame (c c' : KvService n) : Prop where
  epoch : c'.epoch = c.epoch
  received : ∀ i, (c'.servers i).received = (c.servers i).received
  args : ∀ {k : ℕ} {h : Handler n}, c.handlers[k]? = some h →
    ∃ h', c'.handlers[k]? = some h' ∧ h'.args = h.args

theorem LocalFrame.of_eq (hepoch : c'.epoch = c.epoch) (hservers : c'.servers = c.servers)
    (hhandlers : c'.handlers = c.handlers) : LocalFrame c c' where
  epoch := hepoch
  received := fun i => by rw [hservers]
  args := fun hk => ⟨_, hhandlers ▸ hk, rfl⟩

/-- A handler moves on, on a server that has received nothing new. -/
theorem LocalFrame.setPc {k : ℕ} {h : Handler n} (hk : c.handlers[k]? = some h)
    (hepoch : c'.epoch = c.epoch)
    (hreceived : ∀ i, (c'.servers i).received = (c.servers i).received) (pc : HandlerPc)
    (hhandlers : c'.handlers = c.handlers.set k { h with pc := pc }) : LocalFrame c c' where
  epoch := hepoch
  received := hreceived
  args := by
    intro j h' hj
    rw [hhandlers]
    by_cases hjk : k = j
    · subst hjk
      obtain rfl : h = h' := Option.some.inj (hk.symm.trans hj)
      obtain ⟨hlt, -⟩ := List.getElem?_eq_some_iff.mp hk
      exact ⟨_, List.getElem?_set_self hlt, rfl⟩
    · rw [List.getElem?_set_ne hjk]
      exact ⟨h', hj, rfl⟩

/-- A critical section on a server receives nothing. -/
theorem received_setHome (h : Handler n) (kv : KVServer) (i : Fin (n + 1) × ℕ) :
    ((c.setHome h kv).servers i).received = (c.servers i).received := by
  by_cases hi : i = (h.server, h.epoch)
  · subst hi
    exact setHome_received c h kv
  · show (Function.update c.servers (h.server, h.epoch) _ i).received = _
    rw [Function.update_of_ne hi]

/-- A notification that is handed over is nothing received. -/
theorem received_setServer_kv (i j : Fin (n + 1) × ℕ) (kv : KVServer) :
    ((c.setServer i { c.servers i with kv := kv }).servers j).received =
      (c.servers j).received := by
  by_cases hj : j = i
  · subst hj
    show (Function.update c.servers j _ j).received = _
    rw [Function.update_self]
  · show (Function.update c.servers i _ j).received = _
    rw [Function.update_of_ne hj]

theorem step_localFrame (hlocal : a.isLocal = true) (hstep : c.step a = some c') :
    LocalFrame c c' := by
  cases step_kvMove hstep with
  | start => cases hlocal
  | startRefuse => cases hlocal
  | agree => cases hlocal
  | apply => cases hlocal
  | restart => cases hlocal
  | invoke => exact .of_eq rfl rfl rfl
  | call => exact .of_eq rfl rfl rfl
  | fail => exact .of_eq rfl rfl rfl
  | retry => exact .of_eq rfl rfl rfl
  | finish => exact .of_eq rfl rfl rfl
  | request m rpc hm =>
      refine ⟨rfl, fun _ => rfl, fun hk => ⟨_, ?_, rfl⟩⟩
      exact (List.getElem?_append_left (List.getElem?_eq_some_iff.mp hk).1).trans hk
  | register k h index hk => exact .setPc hk rfl (received_setHome _ _) _ rfl
  | receive k h index ch kv notification hk => exact .setPc hk rfl (received_setHome _ _) _ rfl
  | timeout k h hk => exact .setPc hk rfl (fun _ => rfl) _ rfl
  | mismatch k h index hk => exact .setPc hk rfl (received_setHome _ _) _ rfl
  | matchGet k h index hk => exact .setPc hk rfl (received_setHome _ _) _ rfl
  | matchPutAppend k h index args hk => exact .setPc hk rfl (received_setHome _ _) _ rfl
  | read k h args err hk => exact .setPc hk rfl (fun _ => rfl) _ rfl
  | notify server epoch kv hkv =>
      exact ⟨rfl, fun j => received_setServer_kv _ j kv, fun hk => ⟨_, hk, rfl⟩⟩

end KvService

namespace Cluster

variable {n : ℕ} {C : Type} [Inhabited C] {c c' : Cluster n C} {a : Action n C} {s : Fin n}
  {rf : Raft C s} {msgs : List (Msg n C)} {events : List (Event n C)}

/-! ## What Raft shows to the service -/

/-- An internal move keeps the `Start`s under way; a restart drops them. -/
theorem Move.starts_cases (h : Move c a s rf msgs events) (ha : a.isInternal = true) :
    (rf.epoch = (c.nodes s).epoch ∧ rf.starts = (c.nodes s).starts) ∨
      rf.epoch = (c.nodes s).epoch + 1 ∧ rf.starts = [] := by
  have hobserve : ∀ (rf : Raft C s) (t : ℕ), rf.epoch = (c.nodes s).epoch →
      rf.starts = (c.nodes s).starts → (rf.observeTerm t).epoch = (c.nodes s).epoch ∧
        (rf.observeTerm t).starts = (c.nodes s).starts := by
    intro rf t hepoch hstarts
    rw [Raft.observeTerm_epoch, Raft.observeTerm_starts]
    exact ⟨hepoch, hstarts⟩
  cases h with
  | crash => exact .inr ⟨Raft.restart_epoch _, Raft.restart_starts _⟩
  | handlerPanic m s t =>
      refine .inr ⟨?_, Raft.restart_starts _⟩
      rw [Raft.restart_epoch, Raft.persist_epoch, Raft.observeTerm_epoch]
  | campaignPanic s rf hepoch hterm hlogs =>
      refine .inr ⟨?_, Raft.restart_starts _⟩
      rw [Raft.restart_epoch, Raft.persist_epoch, hepoch]
  | campaign => exact .inl ⟨rfl, rfl⟩
  | heartbeat =>
      obtain ⟨hb, hshape⟩ := (c.nodes s).heartbeatTimeout_shape
      rw [hshape]
      exact .inl ⟨rfl, rfl⟩
  | heartbeatSkip => exact .inl ⟨rfl, rfl⟩
  | heartbeatSend => exact .inl ⟨rfl, rfl⟩
  | voteRefuse => exact .inl ⟨rfl, rfl⟩
  | voteBehind => exact .inl (hobserve _ _ rfl rfl)
  | voteGrant => exact .inl (hobserve _ _ rfl rfl)
  | voteCount => exact .inl ⟨rfl, rfl⟩
  | voteElect => exact .inl ⟨rfl, rfl⟩
  | voteOther m src k dst reply round hm hround rf hrf =>
      rcases hrf with rfl | ⟨-, rfl⟩
      · exact .inl ⟨rfl, rfl⟩
      · exact .inl (hobserve ((c.nodes s).answered k round dst 0) reply.term rfl rfl)
  | appendStale => exact .inl ⟨rfl, rfl⟩
  | appendReject => exact .inl (hobserve _ _ rfl rfl)
  | appendAccept m src e k dst args prev hm hterm hprev hprevTerm =>
      unfold Raft.accepted
      obtain ⟨ci, ap, hshape⟩ := Raft.followed_shape
        { (c.nodes s).observeTerm args.term with
          logs := Raft.mergeLogs (c.nodes s).logs args } args.leaderCommit
      rw [hshape]
      exact .inl (hobserve _ _ rfl rfl)
  | replyMatch m src k reply call hm hcall hsuccess =>
      obtain ⟨ni, mi, ci, ap, hshape⟩ :=
        ((c.nodes s).callDone k call).matched_shape call.server call.args
      rw [hshape]
      exact .inl ⟨rfl, rfl⟩
  | replyHigher m src k reply call hm hcall hterm =>
      exact .inl (hobserve ((c.nodes s).callDone k call) reply.term rfl rfl)
  | replyBackoff => exact .inl ⟨rfl, rfl⟩
  | startRead => cases ha
  | startAppend => cases ha
  | applySend => cases ha
  | applyStore => exact .inl ⟨rfl, rfl⟩

/-- The same for a step and all servers. -/
theorem step_starts (hstep : c.step a = some c') (ha : a.isInternal = true) (t : Fin n) :
    ((c'.nodes t).epoch = (c.nodes t).epoch ∧ (c'.nodes t).starts = (c.nodes t).starts) ∨
      (c'.nodes t).epoch = (c.nodes t).epoch + 1 ∧ (c'.nodes t).starts = [] := by
  obtain ⟨s, rf, msgs, events, rfl, hmove⟩ := step_move hstep
  by_cases hts : t = s
  · subst hts
    rw [put_nodes_self]
    exact hmove.starts_cases ha
  · rw [put_nodes_of_ne c hts]
    exact .inl ⟨rfl, rfl⟩

end Cluster

/-! ## The system -/

/-- The servers, the service on them, and for every server the handlers that are between the
two critical sections of its `Start`, in the order in which the first ones ran. -/
structure KvStack (n : ℕ) where
  raft : Cluster (n + 1) Op
  service : KvService n
  starting : Fin (n + 1) → List ℕ

/-- The steps of the whole. -/
inductive KvStackAction (n : ℕ) where
  /-- A local step of the Clerks, the network and the handlers. -/
  | service (a : KvAction n)
  /-- An internal step of Raft. -/
  | raft (a : Action (n + 1) Op)
  /-- Handler `k` calls `Start`, which runs `GetState`. -/
  | startRead (k : ℕ)
  /-- The `Start` number `j` under way on `s` appends its entry and returns. -/
  | startAppend (s : Fin (n + 1)) (j : ℕ)
  /-- Apply goroutine `j` of `s` hands a message to the apply loop. -/
  | applySend (s : Fin (n + 1)) (j : ℕ)

namespace KvStack

variable {n : ℕ}

/-- A cluster and a service that have just been started. -/
def init (n : ℕ) : KvStack n :=
  ⟨Cluster.init (n + 1) Op, KvService.init n, fun _ => []⟩

/-- After an internal step of Raft: a server that has been started again is a new
incarnation, in which nothing is under way. -/
def withRaft (c : KvStack n) (raft : Cluster (n + 1) Op) : KvStack n :=
  { raft := raft
    service := { c.service with epoch := fun s => (raft.nodes s).epoch }
    starting := fun s =>
      if (raft.nodes s).epoch = (c.raft.nodes s).epoch then c.starting s else [] }

/-- One step of the whole; `none` when the action is not enabled. -/
def step (c : KvStack n) : KvStackAction n → Option (KvStack n)
  | .service a =>
      if a.isLocal then (c.service.step a).map fun service => { c with service := service }
      else none
  | .raft a => if a.isInternal then (c.raft.step a).map c.withRaft else none
  | .startRead k =>
      match c.service.handlers[k]? with
      | some ⟨rpc, server, epoch, args, .start⟩ =>
          let h : Handler n := ⟨rpc, server, epoch, args, .start⟩
          if epoch = c.service.epoch server ∧ k ∉ c.starting server then do
            let raft ← c.raft.step (.startRead server args.op)
            if (c.raft.nodes server).getState.2 then
              some { c with
                raft := raft
                starting := Function.update c.starting server (c.starting server ++ [k]) }
            else some { c with raft := raft, service := c.service.reply k h args.wrongLeader }
          else none
      | _ => none
  | .startAppend s j => do
      let k ← (c.starting s)[j]?
      let h ← c.service.handlers[k]?
      let p ← (c.raft.nodes s).starts[j]?
      let raft ← c.raft.step (.startAppend s j)
      let index := (((c.raft.nodes s).startDone j).startAppend p).2
      some { raft := raft
             service := c.service.setPc k h (.register index)
             starting := Function.update c.starting s ((c.starting s).eraseIdx j) }
  | .applySend s j =>
      let i := (s, (c.raft.nodes s).epoch)
      let x := c.service.servers i
      -- the channel has no buffer, so the apply loop has to be there
      if x.kv.sending = none then do
        let msg ← ((c.raft.nodes s).appliers[j]?).bind Applier.msg?
        let raft ← c.raft.step (.applySend s j)
        some { c with
          raft := raft
          service := c.service.setServer i
            ⟨x.kv.applyMsg msg, max x.received msg.commandIndex⟩ }
      else none

/-- The step that Raft takes. -/
def raftAction (c : KvStack n) : KvStackAction n → Option (Action (n + 1) Op)
  | .service _ => none
  | .raft a => some a
  | .startRead k => (c.service.handlers[k]?).map fun h => .startRead h.server h.args.op
  | .startAppend s j => some (.startAppend s j)
  | .applySend s j => some (.applySend s j)

end KvStack

/-- The key/value service on `n + 1` Raft servers as a transition system. -/
def kvStackSystem (n : ℕ) : TransitionSystem (KvStack n) (KvStackAction n) :=
  ⟨KvStack.init n, KvStack.step⟩

namespace KvStack

variable {n : ℕ} {c c' : KvStack n} {a : KvStackAction n}

/-! ## What one step can do -/

/-- The branches of the steps, with the tests that lead into them. -/
inductive StackMove (c : KvStack n) : KvStackAction n → KvStack n → Prop where
  | service (a : KvAction n) (service : KvService n) (hlocal : a.isLocal = true)
      (hstep : c.service.step a = some service) :
      StackMove c (.service a) { c with service := service }
  | raft (a : Action (n + 1) Op) (raft : Cluster (n + 1) Op) (hinternal : a.isInternal = true)
      (hstep : c.raft.step a = some raft) : StackMove c (.raft a) (c.withRaft raft)
  | startRead (k : ℕ) (h : Handler n) (raft : Cluster (n + 1) Op)
      (hk : c.service.handlers[k]? = some h)
      (hlead : (c.raft.nodes h.server).getState.2 = true)
      (hstep : c.raft.step (.startRead h.server h.args.op) = some raft) :
      StackMove c (.startRead k) { c with
        raft := raft
        starting := Function.update c.starting h.server (c.starting h.server ++ [k]) }
  | startRefuse (k : ℕ) (h : Handler n) (raft : Cluster (n + 1) Op)
      (hk : c.service.handlers[k]? = some h)
      (hlead : (c.raft.nodes h.server).getState.2 = false)
      (hstep : c.raft.step (.startRead h.server h.args.op) = some raft) :
      StackMove c (.startRead k)
        { c with raft := raft, service := c.service.reply k h h.args.wrongLeader }
  | startAppend (s : Fin (n + 1)) (j k : ℕ) (h : Handler n) (p : PendingStart Op)
      (raft : Cluster (n + 1) Op) (hj : (c.starting s)[j]? = some k)
      (hk : c.service.handlers[k]? = some h) (hp : (c.raft.nodes s).starts[j]? = some p)
      (hstep : c.raft.step (.startAppend s j) = some raft) :
      StackMove c (.startAppend s j)
        { raft := raft
          service := c.service.setPc k h
            (.register (((c.raft.nodes s).startDone j).startAppend p).2)
          starting := Function.update c.starting s ((c.starting s).eraseIdx j) }
  | applySend (s : Fin (n + 1)) (j : ℕ) (msg : ApplyMsg Op) (raft : Cluster (n + 1) Op)
      (hmsg : ((c.raft.nodes s).appliers[j]?).bind Applier.msg? = some msg)
      (hstep : c.raft.step (.applySend s j) = some raft) :
      StackMove c (.applySend s j) { c with
        raft := raft
        service := c.service.setServer (s, (c.raft.nodes s).epoch)
          ⟨(c.service.servers (s, (c.raft.nodes s).epoch)).kv.applyMsg msg,
            max (c.service.servers (s, (c.raft.nodes s).epoch)).received msg.commandIndex⟩ }

/-- Every step is a move. -/
theorem step_stackMove (hstep : c.step a = some c') : StackMove c a c' := by
  cases a with
  | service a =>
      dsimp only [step] at hstep
      split_ifs at hstep with hlocal
      obtain ⟨service, hservice, rfl⟩ := Option.map_eq_some_iff.mp hstep
      exact .service a service hlocal hservice
  | raft a =>
      dsimp only [step] at hstep
      split_ifs at hstep with hinternal
      obtain ⟨raft, hraft, rfl⟩ := Option.map_eq_some_iff.mp hstep
      exact .raft a raft hinternal hraft
  | startRead k =>
      dsimp only [step] at hstep
      split at hstep
      · rename_i rpc server epoch args hk
        split_ifs at hstep with hfree hlead
        · obtain ⟨raft, hraft, hstep⟩ := Option.bind_eq_some_iff.mp hstep
          obtain rfl := Option.some.inj hstep
          exact .startRead k _ raft hk hlead hraft
        · obtain ⟨raft, hraft, hstep⟩ := Option.bind_eq_some_iff.mp hstep
          obtain rfl := Option.some.inj hstep
          exact .startRefuse k _ raft hk (by simpa using hlead) hraft
      · cases hstep
  | startAppend s j =>
      obtain ⟨k, hj, hstep⟩ := Option.bind_eq_some_iff.mp hstep
      obtain ⟨h, hk, hstep⟩ := Option.bind_eq_some_iff.mp hstep
      obtain ⟨p, hp, hstep⟩ := Option.bind_eq_some_iff.mp hstep
      obtain ⟨raft, hraft, hstep⟩ := Option.bind_eq_some_iff.mp hstep
      obtain rfl := Option.some.inj hstep
      exact .startAppend s j k h p raft hj hk hp hraft
  | applySend s j =>
      dsimp only [step] at hstep
      split_ifs at hstep
      obtain ⟨msg, hmsg, hstep⟩ := Option.bind_eq_some_iff.mp hstep
      obtain ⟨raft, hraft, hstep⟩ := Option.bind_eq_some_iff.mp hstep
      obtain rfl := Option.some.inj hstep
      exact .applySend s j msg raft hmsg hraft

/-- The cluster takes the step of Raft, or stays as it is. -/
theorem raft_after_step (hstep : c.step a = some c') :
    (c.raftAction a).elim (c'.raft = c.raft) fun b => c.raft.step b = some c'.raft := by
  cases step_stackMove hstep with
  | service a service hlocal hservice => rfl
  | raft a raft hinternal hraft => exact hraft
  | startRead k h raft hk hlead hraft =>
      rw [raftAction, hk]
      exact hraft
  | startRefuse k h raft hk hlead hraft =>
      rw [raftAction, hk]
      exact hraft
  | startAppend s j k h p raft hj hk hp hraft => exact hraft
  | applySend s j msg raft hmsg hraft => exact hraft

theorem raft_of_step {b : Action (n + 1) Op} (hstep : c.step a = some c')
    (hb : c.raftAction a = some b) : c.raft.step b = some c'.raft := by
  have h := raft_after_step hstep
  rwa [hb] at h

theorem raft_eq_of_step (hstep : c.step a = some c') (hb : c.raftAction a = none) :
    c'.raft = c.raft := by
  have h := raft_after_step hstep
  rwa [hb] at h

/-- The cluster as a part of the stack. -/
def raftPart : (kvStackSystem n).Projection (raftSystem (n + 1) Op) where
  state := KvStack.raft
  act := raftAction
  init := rfl
  idle := raft_eq_of_step
  taken := raft_of_step

/-- The run of the cluster below. -/
def raftRun (r : (kvStackSystem n).Run) : (raftSystem (n + 1) Op).Run :=
  raftPart.run r

end KvStack

end Mit6824
