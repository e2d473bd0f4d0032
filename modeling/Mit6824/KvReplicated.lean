/-
# The service on the cluster is linearizable

The service of `KvStack.lean`, on servers that really run Raft, does what the service on
an ideal Raft does.  The agreed sequence of the ideal Raft is what has been sent on the
apply channels, index by index, and its pool is what `Start` has appended and nobody has
sent yet.  `StackInv` says that the service, put on the ideal Raft with this sequence and
this pool, satisfies the invariant that makes its histories linearizable.  Of Raft this
takes three things:

* two messages for one index carry the same operation (state machine safety);
* an incarnation gets an index only after all smaller ones.  It may get it again: then the
  operation is not executed, but its handler is notified all the same;
* what is sent was appended by `Start` at its index.

Only the first one needs a condition on the run (`Cluster.SoundCommit`).
-/
import Mit6824.KvStack
import Mit6824.RaftCommit
import Mit6824.RaftOrigin

namespace Mit6824

/-! ## A message for an incarnation -/

/-- **A repeated message** is not executed, and notifies of an operation that was. -/
theorem ServerOk.again {agreed : List Op} {x : Incarnation} (h : ServerOk agreed x) {j : ℕ}
    {op : Op} (hj : j < x.received) (hop : agreed[j]? = some op) (index : ℕ) :
    ServerOk agreed ⟨x.kv.applyMsg ⟨true, op, index⟩, x.received⟩ := by
  have hmem : op ∈ agreed.take x.received := by
    refine List.mem_of_getElem? (i := j) ?_
    rw [List.getElem?_take, if_pos hj, hop]
  exact ⟨h.received, (h.replayed.again hmem).applyMsg, h.notifies.applyMsg ⟨op, hmem, rfl⟩ index⟩

namespace KvService

variable {n : ℕ} {c : KvService n} {g : ℕ × ℕ → ℕ}

/-- An incarnation takes the operation of an index up to the next one. -/
theorem KvInv.takeMsg (hi : KvInv c g) (i : Fin (n + 1) × ℕ) {j : ℕ} {op : Op}
    (hj : j ≤ (c.servers i).received) (hop : c.agreed[j]? = some op) :
    KvInv (c.setServer i ⟨(c.servers i).kv.applyMsg ⟨true, op, j + 1⟩,
      max (c.servers i).received (j + 1)⟩) g := by
  refine ⟨hi.clerks, hi.history, hi.ops, ?_, hi.replies, hi.answers⟩
  have hserver := hi.servers.server i
  rcases hj.eq_or_lt with rfl | hlt
  · rw [max_eq_right (Nat.le_succ _)]
    exact hi.servers.setServer (hserver.applyMsg hi.disciplined hop) (Nat.le_succ _)
  · rw [max_eq_left hlt]
    exact hi.servers.setServer (hserver.again hlt hop (j + 1)) le_rfl

end KvService

namespace KvStack

variable {n : ℕ} {c c' : KvStack n} {pool : List (ℕ × Op)} {agreed : List Op} {g : ℕ × ℕ → ℕ}

/-! ## The relation -/

/-- The `Start`s under way on `s` are those of the handlers in `starting`. -/
structure Pending (c : KvStack n) (s : Fin (n + 1)) : Prop where
  length : (c.starting s).length = (c.raft.nodes s).starts.length
  command : ∀ {j k : ℕ} {p : PendingStart Op}, (c.starting s)[j]? = some k →
    (c.raft.nodes s).starts[j]? = some p →
    ∃ h, c.service.handlers[k]? = some h ∧ p.command = h.args.op

/-- The service, put on an ideal Raft with this pool and this agreed sequence, satisfies its
invariant, and the cluster implements this ideal Raft. -/
structure StackInv (c : KvStack n) (pool : List (ℕ × Op)) (agreed : List Op)
    (g : ℕ × ℕ → ℕ) : Prop where
  kv : (c.service.onIdeal (pool.map Prod.snd) agreed).KvInv g
  received : ∀ s e j, j ∈ c.raft.delivered s e ↔
    1 ≤ j ∧ j ≤ (c.service.servers (s, e)).received
  applied : ∀ {s e msg}, .applied s e msg ∈ c.raft.history →
    agreed[msg.commandIndex - 1]? = some msg.command
  taken : ∀ i < agreed.length, ∃ s e msg, .applied s e msg ∈ c.raft.history ∧
    msg.commandIndex = i + 1
  origin : c.raft.Origin fun i op => i ≤ agreed.length ∨ (i, op) ∈ pool
  pending : ∀ s, c.Pending s

theorem stackInv_init : StackInv (init n) [] [] (fun _ => 0) where
  kv := KvService.kvInv_init n _
  received := by
    intro s e j
    constructor
    · intro hj
      cases hj
    · rintro ⟨h1, h0⟩
      have hzero : j ≤ 0 := h0
      omega
  applied := fun hm => nomatch hm
  taken := fun i hi => absurd hi (Nat.not_lt_zero i)
  origin := Cluster.origin_init _
  pending := fun s => ⟨rfl, fun hj => nomatch hj⟩

/-- A step that shows nothing on the apply channels. -/
theorem StackInv.silent (hi : StackInv c pool agreed g) {pool' : List (ℕ × Op)} {g' : ℕ × ℕ → ℕ}
    (hdelivered : ∀ t e, c'.raft.delivered t e = c.raft.delivered t e)
    (hhistory : ∀ t e msg, .applied t e msg ∈ c'.raft.history ↔ .applied t e msg ∈ c.raft.history)
    (hreceived : ∀ i, (c'.service.servers i).received = (c.service.servers i).received)
    (hkv : (c'.service.onIdeal (pool'.map Prod.snd) agreed).KvInv g')
    (horigin : c'.raft.Origin fun i op => i ≤ agreed.length ∨ (i, op) ∈ pool')
    (hpending : ∀ s, c'.Pending s) : StackInv c' pool' agreed g' where
  kv := hkv
  received := by
    intro s e j
    rw [hdelivered, hreceived]
    exact hi.received s e j
  applied := fun hm => hi.applied ((hhistory _ _ _).mp hm)
  taken := by
    intro i hlt
    obtain ⟨s, e, msg, hmsg, hindex⟩ := hi.taken i hlt
    exact ⟨s, e, msg, (hhistory _ _ _).mpr hmsg, hindex⟩
  origin := horigin
  pending := hpending

/-- A handler keeps its arguments, so the `Start`s under way are the same. -/
theorem Pending.of_args {s : Fin (n + 1)} (h : c.Pending s)
    (hstarting : c'.starting s = c.starting s)
    (hstarts : (c'.raft.nodes s).starts = (c.raft.nodes s).starts)
    (hargs : ∀ {k : ℕ} {h : Handler n}, c.service.handlers[k]? = some h →
      ∃ h', c'.service.handlers[k]? = some h' ∧ h'.args = h.args) : c'.Pending s where
  length := by rw [hstarting, hstarts]; exact h.length
  command := by
    intro j k p hj hp
    rw [hstarting] at hj
    rw [hstarts] at hp
    obtain ⟨x, hx, hcommand⟩ := h.command hj hp
    obtain ⟨x', hx', heq⟩ := hargs hx
    exact ⟨x', hx', by rw [hcommand, heq]⟩

/-! ## The steps -/

/-- A local step of the service. -/
theorem StackInv.service (hi : StackInv c pool agreed g) {a : KvAction n} {service : KvService n}
    (hlocal : a.isLocal = true) (hstep : c.service.step a = some service) :
    ∃ g', StackInv { c with service := service } pool agreed g' := by
  have hideal := KvService.step_onIdeal (c := c.service) (pool.map Prod.snd) agreed hlocal
  rw [hstep, Option.map_some] at hideal
  obtain ⟨g', hkv⟩ := hi.kv.step hideal
  have hframe := KvService.step_localFrame hlocal hstep
  refine ⟨g', hi.silent (fun _ _ => rfl) (fun _ _ _ => Iff.rfl) hframe.received hkv hi.origin ?_⟩
  exact fun s => (hi.pending s).of_args rfl rfl hframe.args

/-- An internal step of Raft. -/
theorem StackInv.raft (hi : StackInv c pool agreed g) (hvotes : c.raft.VoteInv)
    {a : Action (n + 1) Op} {raft : Cluster (n + 1) Op} (hinternal : a.isInternal = true)
    (hstep : c.raft.step a = some raft) : StackInv (c.withRaft raft) pool agreed g := by
  have hsend : ∀ s k, a ≠ .applySend s k := by
    rintro s k rfl
    cases hinternal
  obtain ⟨hdelivered, hhistory⟩ := Cluster.step_applied hstep hsend
  have horigin := hi.origin.step hvotes hstep (fun _ _ h => h) (by
    rintro i op ⟨s, k, p, rfl, -⟩
    cases hinternal)
  refine hi.silent hdelivered hhistory (fun _ => rfl) ?_ horigin fun s => ?_
  · exact ⟨hi.kv.clerks, hi.kv.history, hi.kv.ops, hi.kv.servers, hi.kv.replies, hi.kv.answers⟩
  · rcases Cluster.step_starts hstep hinternal s with ⟨hepoch, hstarts⟩ | ⟨hepoch, hstarts⟩
    · exact (hi.pending s).of_args (if_pos hepoch) hstarts fun hk => ⟨_, hk, rfl⟩
    · have hnone : (c.withRaft raft).starting s = [] := if_neg (by omega)
      refine ⟨?_, fun hj => ?_⟩
      · rw [hnone]
        exact (congrArg List.length hstarts).symm
      · rw [hnone] at hj
        cases hj

/-- `GetState` on a leader: the `Start` is under way. -/
theorem StackInv.startRead (hi : StackInv c pool agreed g) (hvotes : c.raft.VoteInv) {k : ℕ}
    {h : Handler n} {raft : Cluster (n + 1) Op} (hk : c.service.handlers[k]? = some h)
    (hlead : (c.raft.nodes h.server).getState.2 = true)
    (hstep : c.raft.step (.startRead h.server h.args.op) = some raft) :
    StackInv { c with
      raft := raft
      starting := Function.update c.starting h.server (c.starting h.server ++ [k]) }
      pool agreed g := by
  obtain ⟨hdelivered, hhistory⟩ := Cluster.step_applied hstep (fun _ _ => by simp)
  have horigin := hi.origin.step hvotes hstep (fun _ _ h => h) (by
    rintro i op ⟨s, k, p, heq, -⟩
    cases heq)
  obtain rfl : _ = raft := Option.some.inj hstep
  refine hi.silent hdelivered hhistory (fun _ => rfl) hi.kv horigin fun s => ?_
  by_cases hs : s = h.server
  · subst hs
    have hstarts : ((c.raft.nodes h.server).startRead h.args.op).starts =
        (c.raft.nodes h.server).starts ++ [⟨h.args.op, (c.raft.nodes h.server).getState.1⟩] := by
      rw [Raft.startRead, if_pos hlead]
    have hpending := hi.pending h.server
    have hstarting : Function.update c.starting h.server (c.starting h.server ++ [k]) h.server
        = c.starting h.server ++ [k] := Function.update_self _ _ _
    constructor
    · show (Function.update c.starting h.server _ h.server).length = _
      rw [hstarting, Cluster.put_nodes_self, hstarts, List.length_append, List.length_append,
        hpending.length]
      rfl
    · intro j k' p hj hp
      have hj' : (c.starting h.server ++ [k])[j]? = some k' := hstarting ▸ hj
      rw [Cluster.put_nodes_self, hstarts] at hp
      rcases Nat.lt_or_ge j (c.starting h.server).length with hlt | hge
      · rw [List.getElem?_append_left hlt] at hj'
        rw [List.getElem?_append_left (by rw [← hpending.length]; exact hlt)] at hp
        exact hpending.command hj' hp
      · -- the new one
        obtain ⟨hjlt, -⟩ := List.getElem?_eq_some_iff.mp hj'
        rw [List.length_append, List.length_singleton] at hjlt
        obtain rfl : j = (c.starting h.server).length := by omega
        rw [List.getElem?_append_right le_rfl, Nat.sub_self] at hj'
        rw [List.getElem?_append_right (by rw [hpending.length]), hpending.length,
          Nat.sub_self] at hp
        obtain rfl : k = k' := Option.some.inj hj'
        obtain rfl := Option.some.inj hp
        exact ⟨h, hk, rfl⟩
  · refine (hi.pending s).of_args ?_ ?_ fun hk => ⟨_, hk, rfl⟩
    · exact Function.update_of_ne hs _ _
    · show (((c.raft.put h.server _ _ _).nodes s)).starts = _
      rw [Cluster.put_nodes_of_ne _ hs]

/-- `GetState` on a server that is no leader: the handler returns. -/
theorem StackInv.startRefuse (hi : StackInv c pool agreed g) (hvotes : c.raft.VoteInv) {k : ℕ}
    {h : Handler n} {raft : Cluster (n + 1) Op} (hk : c.service.handlers[k]? = some h)
    (hlead : (c.raft.nodes h.server).getState.2 = false)
    (hstep : c.raft.step (.startRead h.server h.args.op) = some raft) :
    StackInv { c with raft := raft, service := c.service.reply k h h.args.wrongLeader }
      pool agreed g := by
  obtain ⟨hdelivered, hhistory⟩ := Cluster.step_applied hstep (fun _ _ => by simp)
  have horigin := hi.origin.step hvotes hstep (fun _ _ h => h) (by
    rintro i op ⟨s, k, p, heq, -⟩
    cases heq)
  have hframe : KvService.LocalFrame c.service (c.service.reply k h h.args.wrongLeader) :=
    .setPc hk rfl (fun _ => rfl) .done rfl
  obtain rfl : _ = raft := Option.some.inj hstep
  refine hi.silent hdelivered hhistory (fun _ => rfl) (hi.kv.refuse hk) horigin fun s => ?_
  refine (hi.pending s).of_args rfl ?_ hframe.args
  by_cases hs : s = h.server
  · subst hs
    rw [Cluster.put_nodes_self, Raft.startRead, if_neg (by simp [hlead])]
  · rw [Cluster.put_nodes_of_ne _ hs]

/-- The second critical section of `Start`: the operation joins the pool. -/
theorem StackInv.startAppend (hi : StackInv c pool agreed g) (hvotes : c.raft.VoteInv)
    {s : Fin (n + 1)} {j k : ℕ} {h : Handler n} {p : PendingStart Op}
    {raft : Cluster (n + 1) Op} (hj : (c.starting s)[j]? = some k)
    (hk : c.service.handlers[k]? = some h) (hp : (c.raft.nodes s).starts[j]? = some p)
    (hstep : c.raft.step (.startAppend s j) = some raft) {index : ℕ}
    (hindex : index = (((c.raft.nodes s).startDone j).startAppend p).2) :
    StackInv
      { raft := raft
        service := c.service.setPc k h (.register index)
        starting := Function.update c.starting s ((c.starting s).eraseIdx j) }
      (pool ++ [(index, p.command)]) agreed g := by
  obtain ⟨hdelivered, hhistory⟩ := Cluster.step_applied hstep (fun _ _ => by simp)
  have hop : p.command = h.args.op := by
    obtain ⟨h', hh', hcommand⟩ := (hi.pending s).command hj hp
    rw [hcommand, Option.some.inj (hh'.symm.trans hk)]
  have hold : ∀ i op, i ≤ agreed.length ∨ (i, op) ∈ pool →
      i ≤ agreed.length ∨ (i, op) ∈ pool ++ [(index, p.command)] :=
    fun i op hin => hin.imp_right (List.mem_append_left _)
  have horigin := hi.origin.step hvotes hstep hold (by
      rintro i op ⟨s', k', p', heq, hp', rfl, rfl⟩
      obtain ⟨rfl, rfl⟩ : s = s' ∧ j = k' := by simpa using heq
      obtain rfl : p = p' := Option.some.inj (hp.symm.trans hp')
      exact .inr (List.mem_append_right _ (by rw [hindex]; exact List.mem_singleton_self _)))
  have hkv : ((c.service.setPc k h (.register index)).onIdeal
      ((pool ++ [(index, p.command)]).map Prod.snd) agreed).KvInv g := by
    have hstart := (hi.kv.start hk).setPc hk
      (show (HandlerPc.register index).Ok _ h.args.op from trivial)
    rw [List.map_append, hop]
    exact hstart
  have hframe : KvService.LocalFrame c.service (c.service.setPc k h (.register index)) :=
    .setPc hk rfl (fun _ => rfl) _ rfl
  obtain ⟨p', hp', rfl⟩ := Cluster.step_startAppend hstep
  obtain rfl : p = p' := Option.some.inj (hp.symm.trans hp')
  refine hi.silent hdelivered hhistory (fun _ => rfl) hkv horigin fun t => ?_
  by_cases ht : t = s
  · subst ht
    have hstarts : ((c.raft.put t (((c.raft.nodes t).startDone j).startAppend p).1 [] []).nodes
        t).starts = (c.raft.nodes t).starts.eraseIdx j := by
      rw [Cluster.put_nodes_self]
      rfl
    have hstarting : Function.update c.starting t ((c.starting t).eraseIdx j) t
        = (c.starting t).eraseIdx j := Function.update_self _ _ _
    have hpending := hi.pending t
    constructor
    · show (Function.update c.starting t _ t).length = _
      rw [hstarting, hstarts, List.length_eraseIdx, List.length_eraseIdx, hpending.length]
    · intro i k' q hi' hq
      replace hi' : ((c.starting t).eraseIdx j)[i]? = some k' := hstarting ▸ hi'
      rw [hstarts] at hq
      rw [List.getElem?_eraseIdx] at hi' hq
      -- both lists have lost the same position
      have hold : ∃ i' : ℕ, (c.starting t)[i']? = some k' ∧
          (c.raft.nodes t).starts[i']? = some q := by
        split_ifs at hi' hq
        · exact ⟨i, hi', hq⟩
        · exact ⟨i + 1, hi', hq⟩
      obtain ⟨i', hk', hq'⟩ := hold
      obtain ⟨x, hx, hcommand⟩ := hpending.command hk' hq'
      obtain ⟨x', hx', heq⟩ := hframe.args hx
      exact ⟨x', hx', by rw [hcommand, heq]⟩
  · refine (hi.pending t).of_args ?_ ?_ hframe.args
    · exact Function.update_of_ne ht _ _
    · rw [Cluster.put_nodes_of_ne _ ht]

/-! ## A message on an apply channel -/

/-- What an incarnation has received after one more message. -/
theorem received_max {l : List ℕ} {m j : ℕ} (h : ∀ i, i ∈ l ↔ 1 ≤ i ∧ i ≤ m) (hj : 1 ≤ j)
    (hle : j ≤ m + 1) (i : ℕ) : i ∈ l ++ [j] ↔ 1 ≤ i ∧ i ≤ max m j := by
  rw [List.mem_append, h, List.mem_singleton]
  omega

/-- An operation of the pool is agreed on. -/
theorem StackInv.agree (hi : StackInv c pool agreed g) {q : ℕ} {op : Op}
    (hq : pool[q]? = some (agreed.length + 1, op)) :
    (c.service.onIdeal ((pool.eraseIdx q).map Prod.snd) (agreed ++ [op])).KvInv g ∧
      ∀ i x, i ≤ agreed.length ∨ (i, x) ∈ pool →
        i ≤ (agreed ++ [op]).length ∨ (i, x) ∈ pool.eraseIdx q := by
  constructor
  · have hget : (pool.map Prod.snd)[q]? = some op := by
      rw [List.getElem?_map, hq]
      rfl
    rw [← List.eraseIdx_map]
    exact hi.kv.agree hget
  · rintro i x (hle | hmem)
    · rw [List.length_append]
      exact .inl (by omega)
    · obtain ⟨k, hk⟩ := List.mem_iff_getElem?.mp hmem
      by_cases hkq : k = q
      · subst hkq
        obtain ⟨rfl, -⟩ : agreed.length + 1 = i ∧ op = x := by
          simpa using hq.symm.trans hk
        rw [List.length_append]
        exact .inl le_rfl
      · refine .inr ?_
        rw [List.mem_eraseIdx_iff_getElem?]
        exact ⟨k, hkq, hk⟩

/-- The message that an apply goroutine is about to send is for the next index of its
incarnation or an earlier one. -/
theorem StackInv.commandIndex_le (hi : StackInv c pool agreed g) (hfeed : c.raft.FeedInv)
    {s : Fin (n + 1)} {j : ℕ} {x : Applier Op} {msg : ApplyMsg Op}
    (hx : (c.raft.nodes s).appliers[j]? = some x) (hmsg : x.msg? = some msg) :
    1 ≤ msg.commandIndex ∧ msg.commandIndex
      ≤ (c.service.servers (s, (c.raft.nodes s).epoch)).received + 1 := by
  obtain ⟨h1, hup, -⟩ := Feed.send (hfeed.current s) hx hmsg
  refine ⟨h1, ?_⟩
  by_contra hgt
  have hmem := hup (msg.commandIndex - 1) (by omega) le_rfl
  have hle := ((hi.received s _ _).mp hmem).2
  omega

/-- What is sent is agreed on already, or becomes so now. -/
theorem StackInv.exists_agreed (hi : StackInv c pool agreed g) {raft : Cluster (n + 1) Op}
    (hagree : raft.AppliedAgree)
    (horigin : raft.Origin fun i op => i ≤ agreed.length ∨ (i, op) ∈ pool)
    (hold : ∀ {s e msg}, .applied s e msg ∈ c.raft.history → .applied s e msg ∈ raft.history)
    {s : Fin (n + 1)} {e : ℕ} {msg : ApplyMsg Op} (hnew : .applied s e msg ∈ raft.history)
    (hle : msg.commandIndex ≤ agreed.length + 1) :
    ∃ (pool' : List (ℕ × Op)) (agreed' : List Op),
      (c.service.onIdeal (pool'.map Prod.snd) agreed').KvInv g ∧
      agreed <+: agreed' ∧ agreed'[msg.commandIndex - 1]? = some msg.command ∧
      (∀ i < agreed'.length, ∃ s e msg, .applied s e msg ∈ raft.history ∧
        msg.commandIndex = i + 1) ∧
      ∀ i op, i ≤ agreed.length ∨ (i, op) ∈ pool → i ≤ agreed'.length ∨ (i, op) ∈ pool' := by
  obtain ⟨h1, hplaced⟩ := horigin.applied hnew
  have htaken : ∀ i < agreed.length, ∃ s e msg, .applied s e msg ∈ raft.history ∧
      msg.commandIndex = i + 1 := by
    intro i hlt
    obtain ⟨t, e', msg', hmsg', hindex⟩ := hi.taken i hlt
    exact ⟨t, e', msg', hold hmsg', hindex⟩
  rcases Nat.lt_or_ge agreed.length msg.commandIndex with hgt | hle'
  · -- the first message for this index
    obtain ⟨q, hq⟩ := List.mem_iff_getElem?.mp (hplaced.resolve_left (by omega))
    have hindex : msg.commandIndex = agreed.length + 1 := by omega
    rw [hindex] at hq
    obtain ⟨hkv, hmono⟩ := hi.agree hq
    refine ⟨pool.eraseIdx q, agreed ++ [msg.command], hkv, List.prefix_append _ _, ?_, ?_, hmono⟩
    · rw [hindex, Nat.add_sub_cancel, List.getElem?_append_right le_rfl, Nat.sub_self]
      rfl
    · intro i hlt
      rw [List.length_append, List.length_singleton] at hlt
      rcases Nat.lt_or_ge i agreed.length with hi' | hi'
      · exact htaken i hi'
      · exact ⟨s, e, msg, hnew, by omega⟩
  · -- somebody has got this index before
    obtain ⟨t, e', msg', hmsg', hindex⟩ := hi.taken (msg.commandIndex - 1) (by omega)
    have hsame : msg.command = msg'.command := hagree hnew (hold hmsg') (by omega)
    refine ⟨pool, agreed, hi.kv, List.prefix_rfl, ?_, htaken, fun _ _ h => h⟩
    have hget := hi.applied hmsg'
    rw [hindex, Nat.add_sub_cancel] at hget
    rw [hsame]
    exact hget

/-- **A message reaches an apply loop.** -/
theorem StackInv.applySend (hi : StackInv c pool agreed g) (hvotes : c.raft.VoteInv)
    (hfeed : c.raft.FeedInv) {s : Fin (n + 1)} {j : ℕ} {msg : ApplyMsg Op}
    {raft : Cluster (n + 1) Op} (hagree : raft.AppliedAgree)
    (hmsg : ((c.raft.nodes s).appliers[j]?).bind Applier.msg? = some msg)
    (hstep : c.raft.step (.applySend s j) = some raft) :
    ∃ pool' agreed', StackInv { c with
      raft := raft
      service := c.service.setServer (s, (c.raft.nodes s).epoch)
        ⟨(c.service.servers (s, (c.raft.nodes s).epoch)).kv.applyMsg msg,
          max (c.service.servers (s, (c.raft.nodes s).epoch)).received msg.commandIndex⟩ }
      pool' agreed' g := by
  have horigin := hi.origin.step hvotes hstep (fun _ _ h => h) (by
    rintro i op ⟨s, k, p, heq, -⟩
    cases heq)
  obtain ⟨x, msg', hx, hx', rfl⟩ := Cluster.step_applySend hstep
  obtain rfl : msg = msg' := by
    rw [hx, Option.bind_some, hx'] at hmsg
    exact (Option.some.inj hmsg).symm
  obtain ⟨h1, hle⟩ := hi.commandIndex_le hfeed hx hx'
  have hreceived : (c.service.servers (s, (c.raft.nodes s).epoch)).received ≤ agreed.length :=
    (hi.kv.servers.server (s, (c.raft.nodes s).epoch)).received
  have hnew : .applied s (c.raft.nodes s).epoch msg ∈ (c.raft.put s
      ((c.raft.nodes s).applySend j) [] [.applied s (c.raft.nodes s).epoch msg]).history :=
    List.mem_append_right _ (List.mem_singleton_self _)
  obtain ⟨pool', agreed', hkv, hprefix, hget, htaken, hmono⟩ := hi.exists_agreed hagree horigin
    (List.mem_append_left _) hnew (by omega)
  refine ⟨pool', agreed', ?_, ?_, ?_, htaken, ?_, ?_⟩
  · have htake := hkv.takeMsg (s, (c.raft.nodes s).epoch) (j := msg.commandIndex - 1)
      (by show _ ≤ (c.service.servers _).received; omega) hget
    rw [Nat.sub_add_cancel h1] at htake
    have hvalid : (⟨true, msg.command, msg.commandIndex⟩ : ApplyMsg Op) = msg := by
      unfold Applier.msg? at hx'
      split_ifs at hx'
      obtain ⟨entry, -, rfl⟩ := Option.map_eq_some_iff.mp hx'
      rfl
    rw [hvalid] at htake
    exact htake
  · intro t e i
    rw [Cluster.delivered_put]
    by_cases hte : (t, e) = (s, (c.raft.nodes s).epoch)
    · obtain ⟨rfl, rfl⟩ := Prod.mk.inj hte
      have hindex : [Event.applied t (c.raft.nodes t).epoch msg].filterMap
          (Cluster.appliedIndex t (c.raft.nodes t).epoch) = [msg.commandIndex] := by
        simp [Cluster.appliedIndex]
      show _ ↔ 1 ≤ i ∧ i ≤ (Function.update c.service.servers _ _ _).received
      rw [hindex, Function.update_self]
      exact received_max (hi.received t _) h1 hle i
    · have hindex : [Event.applied s (c.raft.nodes s).epoch msg].filterMap
          (Cluster.appliedIndex t e) = [] := by
        refine List.filterMap_cons_none (if_neg ?_)
        rintro ⟨rfl, rfl⟩
        exact hte rfl
      show _ ↔ 1 ≤ i ∧ i ≤ (Function.update c.service.servers _ _ _).received
      rw [hindex, List.append_nil, Function.update_of_ne hte]
      exact hi.received t e i
  · intro t e msg' hmem
    rcases List.mem_append.mp hmem with hmem | hmem
    · exact getElem?_of_isPrefix hprefix (hi.applied hmem)
    · simp only [List.mem_singleton, Event.applied.injEq] at hmem
      obtain ⟨-, -, rfl⟩ := hmem
      exact hget
  · exact ⟨fun s => (horigin.log s).mono hmono, fun hm => (horigin.request hm).mono hmono,
      fun s g hg => (horigin.slice s g hg).imp_right fun h => h.mono hmono,
      fun hm => (horigin.applied hm).imp_right fun h => hmono _ _ h⟩
  · intro t
    refine (hi.pending t).of_args rfl ?_ fun hk => ⟨_, hk, rfl⟩
    by_cases ht : t = s
    · subst ht
      rw [Cluster.put_nodes_self]
      rfl
    · rw [Cluster.put_nodes_of_ne _ ht]

/-! ## Whole runs -/

/-- The step of Raft, if there is one, elects, starts and commits soundly. -/
def SoundStep (c : KvStack n) (a : KvStackAction n) : Prop :=
  ∀ b ∈ c.raftAction a, c.raft.SoundCommit b

instance (c : KvStack n) (a : KvStackAction n) : Decidable (c.SoundStep a) :=
  inferInstanceAs (Decidable (∀ b ∈ c.raftAction a, c.raft.SoundCommit b))

theorem meets_raftRun {r : (kvStackSystem n).Run} (hok : r.Meets SoundStep) :
    (raftRun r).Meets Cluster.SoundCommit :=
  raftPart.meets hok fun _ _ b h hb => h b hb

/-- **The cluster implements an ideal Raft**, at every moment of a run of sound steps. -/
theorem stackInv_run (r : (kvStackSystem n).Run) (hok : r.Meets SoundStep) (k : ℕ) :
    ∃ pool agreed g, StackInv (r.state k) pool agreed g := by
  obtain ⟨σ, hcommits, -⟩ := exists_commits (raftRun r) (meets_raftRun hok)
  induction k with
  | zero =>
      rw [r.state_zero]
      exact ⟨[], [], _, stackInv_init⟩
  | succ k ih =>
      obtain ⟨pool, agreed, g, hi⟩ := ih
      have hvotes : (r.state k).raft.VoteInv := (origin_run (raftRun r) k).1
      have hfeed : (r.state k).raft.FeedInv := feedInv_run (raftRun r) k
      have hagree : (r.state (k + 1)).raft.AppliedAgree := (hcommits (k + 1)).appliedAgree
      rcases ha : r.act k with _ | a
      · rw [r.idle k ha]
        exact ⟨pool, agreed, g, hi⟩
      · have hmove := step_stackMove (r.taken k a ha)
        generalize r.state (k + 1) = c' at hmove hagree ⊢
        cases hmove with
        | service a service hlocal hstep =>
            obtain ⟨g', hi'⟩ := hi.service hlocal hstep
            exact ⟨pool, agreed, g', hi'⟩
        | raft a raft hinternal hstep => exact ⟨pool, agreed, g, hi.raft hvotes hinternal hstep⟩
        | startRead k h raft hk hlead hstep =>
            exact ⟨pool, agreed, g, hi.startRead hvotes hk hlead hstep⟩
        | startRefuse k h raft hk hlead hstep =>
            exact ⟨pool, agreed, g, hi.startRefuse hvotes hk hlead hstep⟩
        | startAppend s j k h p raft hj hk hp hstep =>
            exact ⟨_, agreed, g, hi.startAppend hvotes hj hk hp hstep rfl⟩
        | applySend s j msg raft hmsg hstep =>
            obtain ⟨pool', agreed', hi'⟩ := hi.applySend hvotes hfeed hagree hmsg hstep
            exact ⟨pool', agreed', g, hi'⟩

end KvStack

section Runs

variable {n : ℕ}

/-- **The key/value service on Raft is linearizable.**  In every run of the Clerks, the
network, the handlers, the apply loops and the Raft servers below them whose Raft steps
elect, start and commit soundly, with any losses, repetitions, timeouts, crashes and
overlapping apply goroutines, the history of the clients at any moment is linearizable
with respect to a map from keys to strings. -/
theorem kvStack_linearizable (r : (kvStackSystem n).Run) (hok : r.Meets KvStack.SoundStep)
    (k : ℕ) : ObjectHistory.Linearizable kvSpec (r.state k).service.history := by
  obtain ⟨pool, agreed, g, hi⟩ := KvStack.stackInv_run r hok k
  exact hi.kv.leveling.linearizable

/-- A `Put` and a `Get` of client `7` on server `0`.  The second commit comes before the apply
goroutine of the first has stored `lastApplied`, so index `1` is sent twice. -/
def repeatedStack : (kvStackSystem 2).Run :=
  (kvStackSystem 2).ofList
    [.raft (.electionTimeout 0), .raft (.deliver 0), .raft (.deliver 2),
      .service (.invoke 7 (.put "k" "a")), .service (.call 7), .service (.request 0),
      .startRead 0, .startAppend 0 0, .service (.register 0),
      .raft (.sendHeartbeat 0 0), .raft (.deliver 3), .raft (.deliver 4), .applySend 0 0,
      .service (.notify 0 0), .service (.receive 0), .service (.unregister 0),
      .service (.callReturns 7 0), .service (.invoke 7 (.get "k")), .service (.call 7),
      .service (.request 1), .startRead 1, .startAppend 0 0, .service (.register 1),
      .raft (.heartbeatTimeout 0), .raft (.sendHeartbeat 0 1), .raft (.deliver 5),
      .raft (.deliver 6), .applySend 0 1, .raft (.applyStore 0 1), .applySend 0 1,
      .service (.notify 0 0), .service (.receive 1), .service (.unregister 1),
      .service (.read 1), .service (.callReturns 7 1)]

theorem repeatedStack_soundStep : repeatedStack.Meets KvStack.SoundStep :=
  TransitionSystem.meets_ofList (by decide +kernel)

/-- Both operations of that run return, and its history is linearizable. -/
theorem kvStack_linearizable_repeatedStack :
    repeatedStack.Meets KvStack.SoundStep ∧
      (repeatedStack.state 35).raft.delivered 0 0 = [1, 1, 2] ∧
      (repeatedStack.state 35).service.history = [.call (7, 1) (.put "k" "a"), .ret (7, 1) none,
        .call (7, 2) (.get "k"), .ret (7, 2) (some "a")] ∧
      ObjectHistory.Linearizable kvSpec (repeatedStack.state 35).service.history := by
  have hok := repeatedStack_soundStep
  exact ⟨hok, by decide +kernel, by decide +kernel, kvStack_linearizable repeatedStack hok 35⟩

/-- **Replicated execution.**  At every moment of such a run there is one sequence of
operations behind all servers: every message on an apply channel carries the operation at
its index, and an incarnation that has got the indices up to `m`, some of them maybe more
than once, has executed exactly the requests among the first `m` operations, each of them
once and in the order of their first copies. -/
theorem kvStack_replicas_replay (r : (kvStackSystem n).Run) (hok : r.Meets KvStack.SoundStep)
    (k : ℕ) : ∃ agreed : List Op,
      (∀ s e msg, .applied s e msg ∈ (r.state k).raft.history →
        agreed[msg.commandIndex - 1]? = some msg.command) ∧
      ∀ s e, ∃ m ≤ agreed.length,
        (∀ j, j ∈ (r.state k).raft.delivered s e ↔ 1 ≤ j ∧ j ≤ m) ∧
        Replayed ((r.state k).service.servers (s, e)).kv (agreed.take m) := by
  obtain ⟨pool, agreed, g, hi⟩ := KvStack.stackInv_run r hok k
  refine ⟨agreed, fun s e msg hmsg => hi.applied hmsg, fun s e => ?_⟩
  have hserver := hi.kv.servers.server (s, e)
  exact ⟨_, hserver.received, hi.received s e, hserver.replayed⟩

/-- In `repeatedStack` server `0` has executed the `Put` once, although it got it twice. -/
theorem kvStack_replicas_replay_repeatedStack :
    repeatedStack.Meets KvStack.SoundStep ∧
      ((repeatedStack.state 35).service.servers (0, 0)).kv.db "k" = some "a" ∧
      ∃ agreed : List Op, ∀ s e, ∃ m ≤ agreed.length,
        Replayed ((repeatedStack.state 35).service.servers (s, e)).kv (agreed.take m) := by
  have hok := repeatedStack_soundStep
  obtain ⟨agreed, -, hreplay⟩ := kvStack_replicas_replay repeatedStack hok 35
  refine ⟨hok, by decide +kernel, agreed, fun s e => ?_⟩
  obtain ⟨m, hm, -, hreplayed⟩ := hreplay s e
  exact ⟨m, hm, hreplayed⟩

end Runs

end Mit6824
