/-
# Can the apply loop get stuck?

The key/value servers on a cluster of Raft servers.  A handler calls `Start`, and when
it returns an index, `waitApplying` registers a channel for this index and waits for a
notification or for its timer.  The apply loop takes a message from `applyCh` and puts
a notification into the channel that is registered for the index; the channel holds
one notification, and a second send blocks the loop.

A handler whose timer fires leaves its channel registered, with or without a
notification in it.  When Raft then sends the index again, which overlapping apply
goroutines do, nobody takes the first notification out, and the loop is stuck
(`applyLoop_stuck`).  Without such repetitions there is always room in the channel
that the loop sends to (`applyLoop_never_stuck`), for instance when the apply
goroutines run one after the other (`room_of_serialApply`).
-/
import Mit6824.KvServer
import Mit6824.RaftApply

namespace Mit6824

/-! ## The system -/

/-- Where `waitApplying` stands once `Start` has returned an index: before its first critical
section; in the `select`; with a notification, before its second critical section; returned. -/
inductive WaitPc where
  | register (index : ℕ)
  | wait (index ch : ℕ)
  | notified (index : ℕ) (notification : Notification)
  | returned (wrongLeader : Bool)
  deriving DecidableEq

/-- A handler in `waitApplying`, on an incarnation of a server. -/
structure WaitApplying (n : ℕ) where
  server : Fin n
  epoch : ℕ
  op : Op
  pc : WaitPc
  deriving DecidableEq

/-- A cluster of Raft servers, the key/value server on each of them, and the handlers. -/
structure KvRaft (n : ℕ) where
  raft : Cluster n Op
  kv : Fin n → KVServer
  handlers : List (WaitApplying n)

/-- The steps of the servers. -/
inductive KvRaftAction (n : ℕ) where
  /-- A step of Raft.  With `startAppend` a `Start` returns to its handler, and with `applySend`
  the apply loop takes a message. -/
  | raft (a : Action n Op)
  /-- Handler `k` gets the channel for its index. -/
  | register (k : ℕ)
  /-- Handler `k` receives a notification. -/
  | receive (k : ℕ)
  /-- The timer of handler `k` fires. -/
  | timeout (k : ℕ)
  /-- Handler `k`, notified, deletes its channel from the dispatcher. -/
  | unregister (k : ℕ)
  /-- The apply loop of `s` hands its notification over. -/
  | notify (s : Fin n)
  deriving DecidableEq

namespace KvRaft

variable {n : ℕ}

/-- A cluster that has just been started, with a key/value server on each Raft server. -/
def init (n : ℕ) : KvRaft n :=
  ⟨Cluster.init n Op, fun _ => KVServer.start, []⟩

/-- After a step of Raft: a server that has been started again has a new key/value server. -/
def withRaft (c : KvRaft n) (raft : Cluster n Op) : KvRaft n :=
  { c with
    raft := raft
    kv := fun s => if (raft.nodes s).epoch = (c.raft.nodes s).epoch then c.kv s
      else KVServer.start }

/-- The key/value server of `s` moves. -/
def setKv (c : KvRaft n) (s : Fin n) (kv : KVServer) : KvRaft n :=
  { c with kv := Function.update c.kv s kv }

/-- Handler `k` moves on. -/
def setPc (c : KvRaft n) (k : ℕ) (h : WaitApplying n) (pc : WaitPc) : KvRaft n :=
  { c with handlers := c.handlers.set k { h with pc := pc } }

/-- Handler `k`, when its incarnation still runs. -/
def handler? (c : KvRaft n) (k : ℕ) : Option (WaitApplying n) :=
  (c.handlers[k]?).filter fun h => h.epoch = (c.raft.nodes h.server).epoch

/-- One step of the servers; `none` when the action is not enabled. -/
def step (c : KvRaft n) : KvRaftAction n → Option (KvRaft n)
  | .raft (.startAppend s k) => do
      let p ← (c.raft.nodes s).starts[k]?
      let raft ← c.raft.step (.startAppend s k)
      let index := (((c.raft.nodes s).startDone k).startAppend p).2
      some { c.withRaft raft with
        handlers := c.handlers ++ [⟨s, (c.raft.nodes s).epoch, p.command, .register index⟩] }
  | .raft (.applySend s k) =>
      -- the channel has no buffer, so the apply loop has to be there
      if (c.kv s).sending = none then do
        let msg ← ((c.raft.nodes s).appliers[k]?).bind Applier.msg?
        let raft ← c.raft.step (.applySend s k)
        some ((c.withRaft raft).setKv s ((c.kv s).applyMsg msg))
      else none
  | .raft a => (c.raft.step a).map c.withRaft
  | .register k => do
      let h ← c.handler? k
      match h.pc with
      | .register index =>
          let (kv, ch) := (c.kv h.server).register index
          some ((c.setKv h.server kv).setPc k h (.wait index ch))
      | _ => none
  | .receive k => do
      let h ← c.handler? k
      match h.pc with
      | .wait index ch =>
          ((c.kv h.server).receive ch).map fun (kv, notification) =>
            (c.setKv h.server kv).setPc k h (.notified index notification)
      | _ => none
  | .timeout k => do
      let h ← c.handler? k
      match h.pc with
      | .wait _ _ => some (c.setPc k h (.returned true))
      | _ => none
  | .unregister k => do
      let h ← c.handler? k
      match h.pc with
      | .notified index notification =>
          let wrongLeader := notification.clientId ≠ h.op.clientId ∨
            notification.requestId ≠ h.op.requestId
          some ((c.setKv h.server ((c.kv h.server).unregister index)).setPc k h
            (.returned wrongLeader))
      | _ => none
  | .notify s => ((c.kv s).notify).map (c.setKv s)

/-- The indices that the running incarnation of `s` has sent on its `applyCh`. -/
def delivered (c : KvRaft n) (s : Fin n) : List ℕ :=
  c.raft.delivered s (c.raft.nodes s).epoch

/-- Some handler of the running incarnation of `s` waits to receive from `ch`. -/
def Awaited (c : KvRaft n) (s : Fin n) (ch : ℕ) : Prop :=
  ∃ h ∈ c.handlers, h.server = s ∧ h.epoch = (c.raft.nodes s).epoch ∧ ∃ index, h.pc = .wait index ch

/-- No index is sent again while there is a channel for it in the dispatcher. -/
def Unrepeated (c : KvRaft n) : KvRaftAction n → Prop
  | .raft (.applySend s k) => ∀ msg ∈ ((c.raft.nodes s).appliers[k]?).bind Applier.msg?,
      msg.commandIndex ∈ c.delivered s → (c.kv s).dispatcher msg.commandIndex = none
  | _ => True

instance (c : KvRaft n) : (a : KvRaftAction n) → Decidable (c.Unrepeated a)
  | .raft (.applySend s k) => inferInstanceAs (Decidable
      (∀ msg ∈ ((c.raft.nodes s).appliers[k]?).bind Applier.msg?,
        msg.commandIndex ∈ c.delivered s → (c.kv s).dispatcher msg.commandIndex = none))
  | .raft (.electionTimeout _) => .isTrue trivial
  | .raft (.heartbeatTimeout _) => .isTrue trivial
  | .raft (.sendHeartbeat _ _) => .isTrue trivial
  | .raft (.deliver _) => .isTrue trivial
  | .raft (.startRead _ _) => .isTrue trivial
  | .raft (.startAppend _ _) => .isTrue trivial
  | .raft (.applyStore _ _) => .isTrue trivial
  | .raft (.crash _) => .isTrue trivial
  | .register _ => .isTrue trivial
  | .receive _ => .isTrue trivial
  | .timeout _ => .isTrue trivial
  | .unregister _ => .isTrue trivial
  | .notify _ => .isTrue trivial

end KvRaft

/-- The key/value servers on `n` Raft servers as a transition system. -/
def kvRaftSystem (n : ℕ) : TransitionSystem (KvRaft n) (KvRaftAction n) :=
  ⟨KvRaft.init n, KvRaft.step⟩

/-- The step that Raft takes. -/
def KvRaftAction.raft? {n : ℕ} : KvRaftAction n → Option (Action n Op)
  | .raft a => some a
  | _ => none

/-- What handlers and the apply loop do to a key/value server between two messages. -/
inductive ServerMove (kv : KVServer) : KVServer → Prop where
  | same : ServerMove kv kv
  | register (index : ℕ) : ServerMove kv (kv.register index).1
  | receive {ch : ℕ} {kv' : KVServer} {notification : Notification}
      (h : kv.receive ch = some (kv', notification)) : ServerMove kv kv'
  | unregister (index : ℕ) : ServerMove kv (kv.unregister index)
  | notify {kv' : KVServer} (h : kv.notify = some kv') : ServerMove kv kv'

namespace KvRaft

variable {n : ℕ} {c c' : KvRaft n}

/-- Everything that a step can do: a step of Raft that sends nothing on an apply channel, a
message from Raft to the apply loop, or a move of one key/value server. -/
inductive StepCases (c : KvRaft n) : KvRaftAction n → KvRaft n → Prop where
  | raft (a : Action n Op) (raft : Cluster n Op) (handlers : List (WaitApplying n))
      (hstep : c.raft.step a = some raft) :
      StepCases c (.raft a) { c.withRaft raft with handlers := handlers }
  | applySend (s : Fin n) (k : ℕ) (msg : ApplyMsg Op) (raft : Cluster n Op)
      (hmsg : ((c.raft.nodes s).appliers[k]?).bind Applier.msg? = some msg)
      (hstep : c.raft.step (.applySend s k) = some raft) :
      StepCases c (.raft (.applySend s k)) ((c.withRaft raft).setKv s ((c.kv s).applyMsg msg))
  | kv (a : KvRaftAction n) (s : Fin n) (kv : KVServer) (handlers : List (WaitApplying n))
      (hraft : a.raft? = none) (hmove : ServerMove (c.kv s) kv) :
      StepCases c a { c.setKv s kv with handlers := handlers }

theorem step_cases {a : KvRaftAction n} (hstep : c.step a = some c') : StepCases c a c' := by
  cases a with
  | raft a =>
      cases a with
      | startAppend s k =>
          obtain ⟨p, -, hstep⟩ := Option.bind_eq_some_iff.mp hstep
          obtain ⟨raft, hraft, hstep⟩ := Option.bind_eq_some_iff.mp hstep
          obtain rfl := Option.some.inj hstep
          exact .raft _ raft _ hraft
      | applySend s k =>
          simp only [KvRaft.step] at hstep
          split_ifs at hstep with hidle
          obtain ⟨msg, hmsg, hstep⟩ := Option.bind_eq_some_iff.mp hstep
          obtain ⟨raft, hraft, hstep⟩ := Option.bind_eq_some_iff.mp hstep
          obtain rfl := Option.some.inj hstep
          exact .applySend s k msg raft hmsg hraft
      | _ =>
          simp only [KvRaft.step, Option.map_eq_some_iff] at hstep
          obtain ⟨raft, hraft, rfl⟩ := hstep
          exact .raft _ raft _ hraft
  | register k =>
      obtain ⟨w, -, hstep⟩ := Option.bind_eq_some_iff.mp hstep
      cases hpc : w.pc with
      | register index =>
          simp only [hpc, Option.some.injEq] at hstep
          subst hstep
          exact .kv _ w.server _ _ rfl (.register index)
      | _ => simp [hpc] at hstep
  | receive k =>
      obtain ⟨w, -, hstep⟩ := Option.bind_eq_some_iff.mp hstep
      cases hpc : w.pc with
      | wait index ch =>
          simp only [hpc] at hstep
          obtain ⟨⟨kv, notification⟩, hkv, rfl⟩ := Option.map_eq_some_iff.mp hstep
          exact .kv _ w.server kv _ rfl (.receive hkv)
      | _ => simp [hpc] at hstep
  | timeout k =>
      obtain ⟨w, -, hstep⟩ := Option.bind_eq_some_iff.mp hstep
      cases hpc : w.pc with
      | wait index ch =>
          simp only [hpc, Option.some.injEq] at hstep
          subst hstep
          have hsame := StepCases.kv (c := c) (.timeout k) w.server (c.kv w.server)
            (c.handlers.set k { w with pc := .returned true }) rfl .same
          rw [setKv, Function.update_eq_self] at hsame
          exact hsame
      | _ => simp [hpc] at hstep
  | unregister k =>
      obtain ⟨w, -, hstep⟩ := Option.bind_eq_some_iff.mp hstep
      cases hpc : w.pc with
      | notified index notification =>
          simp only [hpc, Option.some.injEq] at hstep
          subst hstep
          exact .kv _ w.server _ _ rfl (.unregister index)
      | _ => simp [hpc] at hstep
  | notify s =>
      obtain ⟨kv, hkv, rfl⟩ := Option.map_eq_some_iff.mp hstep
      exact .kv _ s kv _ rfl (.notify hkv)

/-- The cluster takes the step of Raft. -/
theorem raft_of_step {a : KvRaftAction n} {b : Action n Op} (hstep : c.step a = some c')
    (hb : a.raft? = some b) : c.raft.step b = some c'.raft := by
  cases step_cases hstep with
  | raft a raft handlers hraft =>
      obtain rfl := Option.some.inj hb
      exact hraft
  | applySend s k msg raft hmsg hraft =>
      obtain rfl := Option.some.inj hb
      exact hraft
  | kv a s kv handlers hnone hmove =>
      rw [hnone] at hb
      cases hb

/-- The cluster stays as it is when Raft takes no step. -/
theorem raft_eq_of_step {a : KvRaftAction n} (hstep : c.step a = some c') (hb : a.raft? = none) :
    c'.raft = c.raft := by
  cases step_cases hstep with
  | raft a raft handlers hraft => cases hb
  | applySend s k msg raft hmsg hraft => cases hb
  | kv a s kv handlers hnone hmove => rfl

/-- The cluster as a part of the system. -/
def raftPart : (kvRaftSystem n).Projection (raftSystem n Op) where
  state := KvRaft.raft
  act _ := KvRaftAction.raft?
  init := rfl
  idle := raft_eq_of_step
  taken := raft_of_step

/-- The run of the cluster below. -/
def raftRun (r : (kvRaftSystem n).Run) : (raftSystem n Op).Run :=
  raftPart.run r

end KvRaft

/-! ## The channels of one server -/

/-- Every index has a channel of its own, a channel with a notification in it belongs to an
index of `sent`, and there is room in the channel that the apply loop sends to. -/
structure ChannelsOk (kv : KVServer) (sent : List ℕ) : Prop where
  bound : ∀ {index ch}, kv.dispatcher index = some ch → ch < kv.chans.length
  inj : ∀ {i j ch}, kv.dispatcher i = some ch → kv.dispatcher j = some ch → i = j
  full : ∀ {index ch}, kv.dispatcher index = some ch →
    kv.chans[ch]? = some none ∨ index ∈ sent
  room : ∀ {ch notification}, kv.sending = some (ch, notification) → kv.chans[ch]? = some none
  sending : ∀ {index ch notification}, kv.sending = some (ch, notification) →
    kv.dispatcher index = some ch → index ∈ sent

section Channels

variable {kv kv' : KVServer} {sent sent' : List ℕ}

theorem channelsOk_start (sent : List ℕ) : ChannelsOk KVServer.start sent where
  bound h := nomatch h
  inj h := nomatch h
  full h := nomatch h
  room h := nomatch h
  sending h := nomatch h

theorem ChannelsOk.mono (h : ChannelsOk kv sent) (hsub : sent ⊆ sent') : ChannelsOk kv sent' where
  bound := h.bound
  inj := h.inj
  full hd := (h.full hd).imp_right fun hin => hsub hin
  room := h.room
  sending hs hd := hsub (h.sending hs hd)

/-- The apply loop takes a message. -/
theorem ChannelsOk.applyMsg (h : ChannelsOk kv sent) {msg : ApplyMsg Op}
    (hvalid : msg.commandValid = true)
    (hnew : msg.commandIndex ∈ sent → kv.dispatcher msg.commandIndex = none) :
    ChannelsOk (kv.applyMsg msg) (sent ++ [msg.commandIndex]) := by
  have hdisp : (kv.applyMsg msg).dispatcher = kv.dispatcher := by
    rw [KVServer.applyMsg, if_pos hvalid]
    exact KVServer.execute_dispatcher kv msg.command
  have hchans : (kv.applyMsg msg).chans = kv.chans := by
    rw [KVServer.applyMsg, if_pos hvalid]
    exact KVServer.execute_chans kv msg.command
  have hsending : ∀ {ch notification}, (kv.applyMsg msg).sending = some (ch, notification) →
      kv.dispatcher msg.commandIndex = some ch := by
    intro ch notification hs
    rw [KVServer.applyMsg, if_pos hvalid] at hs
    obtain ⟨ch', hch', heq⟩ := Option.map_eq_some_iff.mp hs
    rw [hch', show ch' = ch from congrArg Prod.fst heq]
  constructor
  · intro index ch hd
    rw [hdisp] at hd
    rw [hchans]
    exact h.bound hd
  · intro i j ch hi hj
    rw [hdisp] at hi hj
    exact h.inj hi hj
  · intro index ch hd
    rw [hdisp] at hd
    rw [hchans]
    exact (h.full hd).imp_right fun hin => List.mem_append_left _ hin
  · intro ch notification hs
    rw [hchans]
    rcases h.full (hsending hs) with hempty | hin
    · exact hempty
    · -- the index has been sent before, and its channel has been deleted
      have hnone := hnew hin
      rw [hsending hs] at hnone
      cases hnone
  · intro index ch notification hs hd
    rw [hdisp] at hd
    rw [h.inj hd (hsending hs)]
    exact List.mem_append_right _ (List.mem_singleton_self _)

/-- The apply loop hands its notification over. -/
theorem ChannelsOk.notify (h : ChannelsOk kv sent) (hstep : kv.notify = some kv') :
    ChannelsOk kv' sent := by
  unfold KVServer.notify at hstep
  rcases hs : kv.sending with _ | ⟨ch, notification⟩
  · rw [hs] at hstep
    cases hstep
  · have hroom := h.room hs
    simp only [hs, hroom, Option.some.injEq] at hstep
    subst hstep
    refine ⟨?_, h.inj, ?_, nofun, nofun⟩
    · intro index ch' hd
      rw [List.length_set]
      exact h.bound hd
    · intro index ch' hd
      rcases eq_or_ne ch ch' with rfl | hne
      · exact .inr (h.sending hs hd)
      · rw [List.getElem?_set_ne hne]
        exact h.full hd

/-- A handler gets its channel. -/
theorem ChannelsOk.register (h : ChannelsOk kv sent) (index : ℕ) :
    ChannelsOk (kv.register index).1 sent := by
  unfold KVServer.register
  rcases hd : kv.dispatcher index with _ | ch
  · have hold : ∀ {i ch}, Function.update kv.dispatcher index (some kv.chans.length) i = some ch →
        (i = index ∧ ch = kv.chans.length) ∨ (i ≠ index ∧ kv.dispatcher i = some ch) := by
      intro i ch hi
      rcases eq_or_ne i index with rfl | hne
      · rw [Function.update_self] at hi
        exact .inl ⟨rfl, (Option.some.inj hi).symm⟩
      · rw [Function.update_of_ne hne] at hi
        exact .inr ⟨hne, hi⟩
    have hkeep : ∀ {ch : ℕ} {x : Option Notification}, kv.chans[ch]? = some x →
        (kv.chans ++ [none])[ch]? = some x := by
      intro ch x hx
      rw [List.getElem?_append_left (List.getElem?_eq_some_iff.mp hx).1, hx]
    constructor
    · intro i ch hi
      rw [List.length_append, List.length_singleton]
      rcases hold hi with ⟨-, rfl⟩ | ⟨-, hi'⟩
      · exact Nat.lt_succ_self _
      · exact (h.bound hi').trans (Nat.lt_succ_self _)
    · intro i j ch hi hj
      rcases hold hi with ⟨rfl, rfl⟩ | ⟨-, hi'⟩
      · rcases hold hj with ⟨rfl, -⟩ | ⟨-, hj'⟩
        · rfl
        · exact absurd (h.bound hj') (lt_irrefl _)
      · rcases hold hj with ⟨-, rfl⟩ | ⟨-, hj'⟩
        · exact absurd (h.bound hi') (lt_irrefl _)
        · exact h.inj hi' hj'
    · intro i ch hi
      rcases hold hi with ⟨-, rfl⟩ | ⟨-, hi'⟩
      · left
        rw [List.getElem?_append_right le_rfl, Nat.sub_self]
        rfl
      · exact (h.full hi').imp_left hkeep
    · intro ch notification hs
      exact hkeep (h.room hs)
    · intro i ch notification hs hi
      rcases hold hi with ⟨-, rfl⟩ | ⟨-, hi'⟩
      · exact absurd (List.getElem?_eq_some_iff.mp (h.room hs)).1 (lt_irrefl _)
      · exact h.sending hs hi'
  · exact h

/-- A handler receives a notification. -/
theorem ChannelsOk.receive (h : ChannelsOk kv sent) {ch : ℕ} {notification : Notification}
    (hstep : kv.receive ch = some (kv', notification)) : ChannelsOk kv' sent := by
  unfold KVServer.receive at hstep
  rcases hc : kv.chans[ch]? with _ | _ | m
  · simp [hc] at hstep
  · simp [hc] at hstep
  · simp only [hc, Option.some.injEq, Prod.mk.injEq] at hstep
    obtain ⟨rfl, -⟩ := hstep
    have hempty : ∀ {ch' : ℕ}, kv.chans[ch']? = some none →
        (kv.chans.set ch none)[ch']? = some none := by
      intro ch' hch'
      rcases eq_or_ne ch ch' with rfl | hne
      · rw [List.getElem?_set_self (List.getElem?_eq_some_iff.mp hch').1]
      · rw [List.getElem?_set_ne hne, hch']
    refine ⟨?_, h.inj, fun hd => (h.full hd).imp_left hempty, fun hs => hempty (h.room hs),
      h.sending⟩
    intro index ch' hd
    rw [List.length_set]
    exact h.bound hd

/-- A handler deletes its channel. -/
theorem ChannelsOk.unregister (h : ChannelsOk kv sent) (index : ℕ) :
    ChannelsOk (kv.unregister index) sent := by
  have hold : ∀ {i ch}, (kv.unregister index).dispatcher i = some ch →
      kv.dispatcher i = some ch := by
    intro i ch hi
    rcases eq_or_ne i index with rfl | hne
    · have hnone : (kv.unregister i).dispatcher i = none := Function.update_self ..
      rw [hnone] at hi
      cases hi
    · have hkeep : (kv.unregister index).dispatcher i = kv.dispatcher i :=
        Function.update_of_ne hne ..
      rw [← hkeep, hi]
  exact ⟨fun hi => h.bound (hold hi), fun hi hj => h.inj (hold hi) (hold hj),
    fun hi => h.full (hold hi), h.room, fun hs hi => h.sending hs (hold hi)⟩

/-- Every move between two messages. -/
theorem ChannelsOk.move (h : ChannelsOk kv sent) (hmove : ServerMove kv kv') :
    ChannelsOk kv' sent := by
  cases hmove with
  | same => exact h
  | register index => exact h.register index
  | receive hkv => exact h.receive hkv
  | unregister index => exact h.unregister index
  | notify hkv => exact h.notify hkv

end Channels

/-! ## All servers -/

namespace KvRaft

variable {n : ℕ} {c c' : KvRaft n}

/-- The channels of every running server are in order. -/
def AllChannelsOk (c : KvRaft n) : Prop :=
  ∀ s, ChannelsOk (c.kv s) (c.delivered s)

theorem allChannelsOk_init : AllChannelsOk (init n) :=
  fun _ => channelsOk_start _

/-- A handler or the apply loop moves. -/
theorem AllChannelsOk.setKv (h : AllChannelsOk c) {s : Fin n} {kv : KVServer}
    (hkv : ChannelsOk kv (c.delivered s)) : AllChannelsOk (c.setKv s kv) := by
  intro t
  show ChannelsOk (Function.update c.kv s kv t) (c.delivered t)
  rcases eq_or_ne t s with rfl | hne
  · rw [Function.update_self]
    exact hkv
  · rw [Function.update_of_ne hne]
    exact h t

/-- What has been sent stays sent, as long as the incarnation runs. -/
theorem delivered_subset {raft : Cluster n Op} {a : Action n Op} (hstep : c.raft.step a = some raft)
    {s : Fin n} (hepoch : (raft.nodes s).epoch = (c.raft.nodes s).epoch) :
    c.delivered s ⊆ (c.withRaft raft).delivered s := by
  obtain ⟨t, rf, msgs, events, rfl, -⟩ := Cluster.step_move hstep
  show c.raft.delivered s (c.raft.nodes s).epoch ⊆
    (c.raft.put t rf msgs events).delivered s ((c.raft.put t rf msgs events).nodes s).epoch
  rw [hepoch, Cluster.delivered_put]
  exact List.subset_append_left ..

/-- A step of Raft. -/
theorem AllChannelsOk.withRaft (h : AllChannelsOk c) {raft : Cluster n Op} {a : Action n Op}
    (hstep : c.raft.step a = some raft) : AllChannelsOk (c.withRaft raft) := by
  intro s
  show ChannelsOk (if (raft.nodes s).epoch = (c.raft.nodes s).epoch then c.kv s
    else KVServer.start) _
  split_ifs with hepoch
  · exact (h s).mono (delivered_subset hstep hepoch)
  · -- the server has been started again
    exact channelsOk_start _

/-- A message on the apply channel. -/
theorem delivered_applySend {s : Fin n} {k : ℕ} {msg : ApplyMsg Op} {raft : Cluster n Op}
    (hmsg : ((c.raft.nodes s).appliers[k]?).bind Applier.msg? = some msg)
    (hstep : c.raft.step (.applySend s k) = some raft) :
    raft.delivered s (raft.nodes s).epoch = c.delivered s ++ [msg.commandIndex] := by
  simp only [Cluster.step, hmsg, Option.some.injEq] at hstep
  subst hstep
  have hevent : [(.applied s (c.raft.nodes s).epoch msg : Event n Op)].filterMap
      (Cluster.appliedIndex s (c.raft.nodes s).epoch) = [msg.commandIndex] := by
    simp [Cluster.appliedIndex]
  rw [Cluster.put_nodes_self, Cluster.delivered_put]
  exact congrArg _ hevent

/-- The apply loop takes a message of its Raft server. -/
theorem AllChannelsOk.applySend (h : AllChannelsOk c) {s : Fin n} {k : ℕ} {msg : ApplyMsg Op}
    {raft : Cluster n Op} (hmsg : ((c.raft.nodes s).appliers[k]?).bind Applier.msg? = some msg)
    (hstep : c.raft.step (.applySend s k) = some raft)
    (hnew : msg.commandIndex ∈ c.delivered s → (c.kv s).dispatcher msg.commandIndex = none) :
    AllChannelsOk ((c.withRaft raft).setKv s ((c.kv s).applyMsg msg)) := by
  refine (h.withRaft hstep).setKv ?_
  obtain ⟨g, -, hg⟩ := Option.bind_eq_some_iff.mp hmsg
  rw [show (c.withRaft raft).delivered s = _ from delivered_applySend hmsg hstep]
  exact (h s).applyMsg (Applier.commandValid_of_msg? hg) hnew

/-- **Every step of an unrepeated run keeps the channels in order.** -/
theorem AllChannelsOk.step {a : KvRaftAction n} (h : AllChannelsOk c) (hok : c.Unrepeated a)
    (hstep : c.step a = some c') : AllChannelsOk c' := by
  cases step_cases hstep with
  | raft a raft handlers hraft => exact h.withRaft hraft
  | applySend s k msg raft hmsg hraft => exact h.applySend hmsg hraft (hok msg hmsg)
  | kv a s kv handlers hnone hmove => exact h.setKv ((h s).move hmove)

end KvRaft

/-! ## Along a run -/

section Runs

variable {n : ℕ}

theorem allChannelsOk_run (r : (kvRaftSystem n).Run) (hok : r.Meets KvRaft.Unrepeated) (k : ℕ) :
    (r.state k).AllChannelsOk :=
  r.invariant hok KvRaft.allChannelsOk_init
    (fun _ _ _ hi hunrepeated hstep => hi.step hunrepeated hstep) k

/-- When `setCommitIndex` finds new entries only while no apply goroutine is unfinished, no index
is sent twice. -/
theorem unrepeated_of_serialApply (r : (kvRaftSystem n).Run)
    (hok : (KvRaft.raftRun r).Meets Cluster.SerialApply) : r.Meets KvRaft.Unrepeated := by
  intro k a ha
  cases a with
  | raft a =>
      cases a with
      | applySend s k' =>
          intro msg hmsg hin
          -- the indices sent by now, and those sent after this step, are both in a row
          have hraft := KvRaft.raft_of_step (r.taken k _ ha) rfl
          obtain ⟨m, hm, -⟩ := (serialInv_run (KvRaft.raftRun r) hok (k + 1)).current s
          have hnodup : ((r.state k).delivered s ++ [msg.commandIndex]).Nodup := by
            rw [← KvRaft.delivered_applySend hmsg hraft]
            exact hm ▸ List.nodup_range'
          exact absurd rfl ((List.nodup_append.mp hnodup).2.2 _ hin _ (List.mem_singleton_self _))
      | _ => trivial
  | _ => trivial

/-- So the loop then never gets stuck. -/
theorem room_of_serialApply (r : (kvRaftSystem n).Run)
    (hok : (KvRaft.raftRun r).Meets Cluster.SerialApply) {k : ℕ} {s : Fin n} {ch : ℕ}
    {notification : Notification}
    (hsending : ((r.state k).kv s).sending = some (ch, notification)) :
    ((r.state k).kv s).chans[ch]? = some none :=
  (allChannelsOk_run r (unrepeated_of_serialApply r hok) k s).room hsending

/-- **The apply loop never gets stuck without repetitions.**  In every run in which Raft does
not send an index again while a channel is registered for it: whenever the apply loop of a
server is about to send a notification, there is room in the channel, or a handler waits to
receive from it. -/
theorem applyLoop_never_stuck (r : (kvRaftSystem n).Run) (hok : r.Meets KvRaft.Unrepeated)
    (k : ℕ) (s : Fin n) (ch : ℕ) (notification : Notification)
    (hsending : ((r.state k).kv s).sending = some (ch, notification)) :
    ((r.state k).kv s).chans[ch]? = some none ∨ (r.state k).Awaited s ch :=
  .inl ((allChannelsOk_run r hok k s).room hsending)

end Runs

/-- Server `0` leads, a handler waits for index `1`, and the index is committed and sent. -/
def notifiedHandler : List (KvRaftAction 3) :=
  [.raft (.electionTimeout 0), .raft (.deliver 0), .raft (.deliver 2),
    .raft (.startRead 0 ⟨"x", "1", .put, 1, 1⟩), .raft (.startAppend 0 0), .register 0,
    .raft (.sendHeartbeat 0 0), .raft (.deliver 3), .raft (.deliver 4), .raft (.applySend 0 0)]

theorem applyLoop_never_stuck_notifiedHandler :
    ((kvRaftSystem 3).ofList notifiedHandler).Meets KvRaft.Unrepeated ∧
      ((((kvRaftSystem 3).ofList notifiedHandler).state 10).kv 0).sending = some (0, ⟨1, 1⟩) ∧
      (((((kvRaftSystem 3).ofList notifiedHandler).state 10).kv 0).chans[0]? = some none ∨
        (((kvRaftSystem 3).ofList notifiedHandler).state 10).Awaited 0 0) := by
  have hok : ((kvRaftSystem 3).ofList notifiedHandler).Meets KvRaft.Unrepeated :=
    TransitionSystem.meets_ofList (by decide)
  have hsending : ((((kvRaftSystem 3).ofList notifiedHandler).state 10).kv 0).sending =
      some (0, ⟨1, 1⟩) := by
    decide
  exact ⟨hok, hsending, applyLoop_never_stuck _ hok 10 0 0 ⟨1, 1⟩ hsending⟩

/-- The handler of that run is notified and its timer fires; then a second entry is committed
before the first apply goroutine has stored `lastApplied`, and index `1` is sent again. -/
def repeatedIndex : List (KvRaftAction 3) :=
  notifiedHandler ++ [.notify 0, .timeout 0, .raft (.startRead 0 ⟨"y", "2", .put, 2, 1⟩),
    .raft (.startAppend 0 0), .raft (.heartbeatTimeout 0), .raft (.sendHeartbeat 0 1),
    .raft (.deliver 5), .raft (.deliver 6), .raft (.applySend 0 1)]

/-- The apply loop is about to send on a channel that is full, and no handler waits for it. -/
theorem applyLoop_stuck :
    let c := ((kvRaftSystem 3).ofList repeatedIndex).state 19
    (c.kv 0).sending = some (0, ⟨1, 1⟩) ∧ (c.kv 0).chans[0]? = some (some ⟨1, 1⟩) ∧
      (c.kv 0).notify = none ∧ ¬ c.Awaited 0 0 := by
  intro c
  have hsending : (c.kv 0).sending = some (0, ⟨1, 1⟩) := by decide
  have hfull : (c.kv 0).chans[0]? = some (some ⟨1, 1⟩) := by decide
  refine ⟨hsending, hfull, ?_, ?_⟩
  · simp only [KVServer.notify, hsending, hfull]
  · rintro ⟨h, hh, -, -, index, hpc⟩
    have hpcs : c.handlers.map WaitApplying.pc = [.returned true, .register 2] := by
      decide
    have hmem : h.pc ∈ c.handlers.map WaitApplying.pc := List.mem_map_of_mem hh
    rw [hpcs, hpc] at hmem
    simp at hmem

end Mit6824
