/-
# One key/value server

The state of a `KVServer` and its critical sections under `kv.mu`, translated
from `kvraft/server.go`, together with what its state has to be: the result of
executing every client request of the log once.

* A Go map is a function into `Option`; a channel made by
  `make(chan Notification, 1)` is a number, and `chans` holds its buffer;
* the apply loop takes one message at a time: `applyMsg` is the body of the loop
  up to the unlock, and `sending` the notification that it is then about to put
  into a channel, which blocks while the buffer is full.

The server filters requests by the last request number it has applied for the
client.  `Disciplined` is what Clerks make of a log, and under it the filter lets
exactly the first copy of every request through (`Replayed.next`), also when old
entries of the log are delivered again (`Replayed.again`).
-/
import Mit6824.RaftNode

namespace Mit6824

/-! ## Data -/

/-- The values of `Op.Name`. -/
inductive OpName where
  | get
  | put
  | append
  deriving DecidableEq, Repr, Inhabited

/-- `raftkv.Op`. -/
structure Op where
  key : String
  value : String
  name : OpName
  clientId : ℕ
  requestId : ℕ
  deriving DecidableEq, Repr, Inhabited

/-- Which request of which client the operation is a copy of. -/
def Op.request (op : Op) : ℕ × ℕ :=
  (op.clientId, op.requestId)

/-- `raftkv.Notification`. -/
structure Notification where
  clientId : ℕ
  requestId : ℕ
  deriving DecidableEq, Repr

/-- The notification that announces the operation. -/
def Op.notification (op : Op) : Notification :=
  ⟨op.clientId, op.requestId⟩

/-- The type `map[string]string` of `kv.db`. -/
abbrev Db := String → Option String

/-- `raftkv.KVServer`. -/
structure KVServer where
  db : Db
  dispatcher : ℕ → Option ℕ
  lastAppliedRequestId : ℕ → Option ℕ
  chans : List (Option Notification)
  sending : Option (ℕ × Notification)

/-! ## The critical sections -/

/-- The `switch op.Name` of the apply loop; an absent key reads as the empty string. -/
def execOp (db : Db) (op : Op) : Db :=
  match op.name with
  | .put => Function.update db op.key (some op.value)
  | .append => Function.update db op.key (some ((db op.key).getD "" ++ op.value))
  | .get => db

namespace KVServer

/-- The maps as `StartKVServer` makes them. -/
def start : KVServer :=
  ⟨fun _ => none, fun _ => none, fun _ => none, [], none⟩

/-- The test `!ok || lastAppliedRequestId < op.RequestId`. -/
def isNew (kv : KVServer) (op : Op) : Prop :=
  ∀ last ∈ kv.lastAppliedRequestId op.clientId, last < op.requestId

instance (kv : KVServer) (op : Op) : Decidable (kv.isNew op) :=
  inferInstanceAs (Decidable (∀ last ∈ kv.lastAppliedRequestId op.clientId, _))

/-- Execute the operation unless it was executed before. -/
def execute (kv : KVServer) (op : Op) : KVServer :=
  if kv.isNew op then
    { kv with
      db := execOp kv.db op
      lastAppliedRequestId :=
        Function.update kv.lastAppliedRequestId op.clientId (some op.requestId) }
  else kv

theorem execute_dispatcher (kv : KVServer) (op : Op) :
    (kv.execute op).dispatcher = kv.dispatcher := by
  unfold execute
  split_ifs <;> rfl

theorem execute_chans (kv : KVServer) (op : Op) : (kv.execute op).chans = kv.chans := by
  unfold execute
  split_ifs <;> rfl

/-- The body of the apply loop for one message, up to `ch <- notify`. -/
def applyMsg (kv : KVServer) (msg : ApplyMsg Op) : KVServer :=
  if msg.commandValid then
    -- a request that was executed before is answered all the same
    { kv.execute msg.command with
      sending := (kv.dispatcher msg.commandIndex).map fun ch => (ch, msg.command.notification) }
  else kv

/-- The send `ch <- notify` goes through: there is room in the buffer. -/
def notify (kv : KVServer) : Option KVServer :=
  match kv.sending with
  | none => none
  | some (ch, notification) =>
      match kv.chans[ch]? with
      -- the channel holds one notification; a second send waits
      | some none => some { kv with chans := kv.chans.set ch (some notification), sending := none }
      | _ => none

/-- The first critical section of `waitApplying`: the channel for `index`, made when
there is none. -/
def register (kv : KVServer) (index : ℕ) : KVServer × ℕ :=
  match kv.dispatcher index with
  | some ch => (kv, ch)
  | none =>
      ({ kv with
          dispatcher := Function.update kv.dispatcher index (some kv.chans.length)
          chans := kv.chans ++ [none] }, kv.chans.length)

/-- A receive `<-ch` that finds a notification. -/
def receive (kv : KVServer) (ch : ℕ) : Option (KVServer × Notification) :=
  match kv.chans[ch]? with
  | some (some notification) => some ({ kv with chans := kv.chans.set ch none }, notification)
  | _ => none

/-- The second critical section of `waitApplying`: `delete(kv.dispatcher, index)`. -/
def unregister (kv : KVServer) (index : ℕ) : KVServer :=
  { kv with dispatcher := Function.update kv.dispatcher index none }

end KVServer

/-! ## What a log of client requests means -/

section Requests

variable {l l' : List Op} {op op' : Op} {i j : ℕ}

/-- At index `i` stands `op`, the first copy of its request. -/
def FirstCopy (l : List Op) (i : ℕ) (op : Op) : Prop :=
  l[i]? = some op ∧ ∀ o ∈ l.take i, o.request ≠ op.request

instance (l : List Op) (i : ℕ) (op : Op) : Decidable (FirstCopy l i op) :=
  inferInstanceAs (Decidable (_ ∧ _))

theorem FirstCopy.lt_length (h : FirstCopy l i op) : i < l.length := by
  obtain ⟨hlt, -⟩ := List.getElem?_eq_some_iff.mp h.1
  exact hlt

theorem FirstCopy.append (h : FirstCopy l i op) (l' : List Op) : FirstCopy (l ++ l') i op := by
  refine ⟨?_, ?_⟩
  · rw [List.getElem?_append_left h.lt_length]
    exact h.1
  · rw [List.take_append_of_le_length h.lt_length.le]
    exact h.2

/-- First copies of one request stand at one index. -/
theorem FirstCopy.index_eq (h : FirstCopy l i op) (h' : FirstCopy l j op')
    (hreq : op.request = op'.request) : i = j := by
  have hle : ∀ {i j : ℕ} {op op' : Op}, FirstCopy l i op → FirstCopy l j op' →
      op.request = op'.request → i ≤ j := by
    intro i j op op' h h' hreq
    by_contra hlt
    refine h.2 op' (List.mem_of_getElem? (i := j) ?_) hreq.symm
    rw [List.getElem?_take_of_lt (by omega)]
    exact h'.1
  exact le_antisymm (hle h h' hreq) (hle h' h hreq.symm)

/-- A copy of a request is the first one or comes after it. -/
theorem exists_firstCopy (h : l[i]? = some op) :
    ∃ k ≤ i, ∃ o, FirstCopy l k o ∧ o.request = op.request := by
  -- going back from copy to copy ends at the first one
  induction i using Nat.strong_induction_on generalizing op with
  | _ i ih =>
      by_cases hearlier : ∃ o ∈ l.take i, o.request = op.request
      · obtain ⟨o, ho, hreq⟩ := hearlier
        obtain ⟨k, hk⟩ := List.mem_iff_getElem?.mp ho
        have hki : k < i := by
          obtain ⟨hlt, -⟩ := List.getElem?_eq_some_iff.mp hk
          rw [List.length_take] at hlt
          omega
        rw [List.getElem?_take_of_lt hki] at hk
        obtain ⟨k', hk', o', hfirst, hreq'⟩ := ih k hki hk
        exact ⟨k', by omega, o', hfirst, hreq'.trans hreq⟩
      · exact ⟨i, le_rfl, op, ⟨h, fun o ho hreq => hearlier ⟨o, ho, hreq⟩⟩, rfl⟩

/-- What Clerks make of a log: a request number of a client stands for one operation,
and the requests of a client first occur in the order of their numbers. -/
structure Disciplined (l : List Op) : Prop where
  same : ∀ op ∈ l, ∀ op' ∈ l, op.request = op'.request → op = op'
  ordered : ∀ {i j op op'}, FirstCopy l i op → FirstCopy l j op' → op.clientId = op'.clientId →
    op.requestId < op'.requestId → i < j

/-- The order of two entries, when they are first copies of requests of one client. -/
def OrderedAt (l : List Op) (i j : ℕ) : Prop :=
  ∀ op ∈ l[i]?, ∀ op' ∈ l[j]?, FirstCopy l i op → FirstCopy l j op' →
    op.clientId = op'.clientId → op.requestId < op'.requestId → i < j

instance (l : List Op) (i j : ℕ) : Decidable (OrderedAt l i j) :=
  inferInstanceAs (Decidable (∀ op ∈ l[i]?, ∀ op' ∈ l[j]?, _))

/-- The discipline, with bounds that can be checked. -/
theorem disciplined_iff : Disciplined l ↔
    (∀ op ∈ l, ∀ op' ∈ l, op.request = op'.request → op = op') ∧
      ∀ i < l.length, ∀ j < l.length, OrderedAt l i j := by
  constructor
  · intro h
    exact ⟨h.same, fun i _ j _ op _ op' _ => h.ordered⟩
  · rintro ⟨hsame, hordered⟩
    refine ⟨hsame, ?_⟩
    intro i j op op' hi hj
    exact hordered i hi.lt_length j hj.lt_length op hi.1 op' hj.1 hi hj

instance (l : List Op) : Decidable (Disciplined l) :=
  decidable_of_iff _ disciplined_iff.symm

/-- Part of a disciplined log from its start is disciplined. -/
theorem Disciplined.of_append (h : Disciplined (l ++ l')) : Disciplined l where
  same := fun op hop op' hop' =>
    h.same op (List.mem_append_left _ hop) op' (List.mem_append_left _ hop')
  ordered := fun hi hj => h.ordered (hi.append l') (hj.append l')

/-- **A new request comes after the earlier ones of its client only.** -/
theorem Disciplined.lt_of_new (h : Disciplined (l ++ [op]))
    (hnew : ∀ o ∈ l, o.request ≠ op.request) {o : Op} (ho : o ∈ l)
    (hclient : o.clientId = op.clientId) : o.requestId < op.requestId := by
  by_contra hge
  have hne : o.requestId ≠ op.requestId := fun heq => hnew o ho (Prod.ext hclient heq)
  obtain ⟨i, hi⟩ := List.mem_iff_getElem?.mp ho
  obtain ⟨k, hk, o', hfirst, hreq⟩ := exists_firstCopy hi
  have hlast : FirstCopy (l ++ [op]) l.length op := by
    refine ⟨by simp, ?_⟩
    rw [List.take_left]
    exact hnew
  have hcl : op.clientId = o'.clientId := hclient.symm.trans (congrArg Prod.fst hreq).symm
  have hid : o'.requestId = o.requestId := congrArg Prod.snd hreq
  have := h.ordered hlast (hfirst.append [op]) hcl (by omega)
  have := hfirst.lt_length
  omega

/-- Each distinct request of the list once, in the order of first occurrence. -/
def firstRequests (l : List Op) : List Op :=
  l.foldl (fun acc op => if op.request ∈ acc.map Op.request then acc else acc ++ [op]) []

/-- The state of the key/value map after a log: each request executed once, on the
empty map. -/
def kvState (l : List Op) : Db :=
  (firstRequests l).foldl execOp fun _ => none

theorem firstRequests_append : firstRequests (l ++ [op])
    = if op.request ∈ (firstRequests l).map Op.request then firstRequests l
      else firstRequests l ++ [op] := by
  unfold firstRequests
  rw [List.foldl_append]
  rfl

/-- No request is lost. -/
theorem mem_firstRequests {r : ℕ × ℕ} :
    r ∈ (firstRequests l).map Op.request ↔ r ∈ l.map Op.request := by
  induction l using List.reverseRecOn with
  | nil => rfl
  | append_singleton l op ih =>
      rw [firstRequests_append, List.map_append, List.mem_append, ← ih]
      split_ifs with hold
      · constructor
        · exact .inl
        · rintro (h | h)
          · exact h
          · rw [List.map_singleton, List.mem_singleton] at h
            rwa [h]
      · rw [List.map_append, List.mem_append]

/-- A copy of an old request changes nothing. -/
theorem kvState_old (h : ∃ o ∈ l, o.request = op.request) : kvState (l ++ [op]) = kvState l := by
  obtain ⟨o, ho, hreq⟩ := h
  unfold kvState
  rw [firstRequests_append, if_pos (mem_firstRequests.mpr (List.mem_map.mpr ⟨o, ho, hreq⟩))]

/-- A new request is executed. -/
theorem kvState_new (h : ∀ o ∈ l, o.request ≠ op.request) :
    kvState (l ++ [op]) = execOp (kvState l) op := by
  have hnot : op.request ∉ (firstRequests l).map Op.request := by
    intro hmem
    obtain ⟨o, ho, hreq⟩ := List.mem_map.mp (mem_firstRequests.mp hmem)
    exact h o ho hreq
  unfold kvState
  rw [firstRequests_append, if_neg hnot, List.foldl_append]
  rfl

end Requests

/-! ## The filter of the apply loop -/

/-- The server has executed every request of the list once, and knows for every client
the largest number. -/
structure Replayed (kv : KVServer) (l : List Op) : Prop where
  db : kv.db = kvState l
  seen : ∀ op ∈ l, ∃ last ∈ kv.lastAppliedRequestId op.clientId, op.requestId ≤ last
  known : ∀ {client last}, last ∈ kv.lastAppliedRequestId client →
    ∃ op ∈ l, op.clientId = client ∧ op.requestId = last

section Replay

variable {kv kv' : KVServer} {l : List Op} {op : Op}

theorem replayed_start : Replayed KVServer.start [] where
  db := rfl
  seen := by intro op h; cases h
  known := by intro client last h; cases h

/-- Only two maps count. -/
theorem Replayed.of_eq (h : Replayed kv l) (hdb : kv'.db = kv.db)
    (hlast : kv'.lastAppliedRequestId = kv.lastAppliedRequestId) : Replayed kv' l where
  db := hdb.trans h.db
  seen := by rw [hlast]; exact h.seen
  known := by rw [hlast]; exact h.known

/-- A request of the list is not new. -/
theorem Replayed.not_isNew (h : Replayed kv l) (hop : op ∈ l) : ¬ kv.isNew op := by
  intro hnew
  obtain ⟨last, hlast, hle⟩ := h.seen op hop
  exact absurd (hnew last hlast) (not_lt.mpr hle)

/-- **An entry that is delivered again is skipped.** -/
theorem Replayed.again (h : Replayed kv l) (hop : op ∈ l) : Replayed (kv.execute op) l := by
  unfold KVServer.execute
  rw [if_neg (h.not_isNew hop)]
  exact h

/-- **The next entry is executed if it is a first copy, and skipped otherwise.** -/
theorem Replayed.next (h : Replayed kv l) (hd : Disciplined (l ++ [op])) :
    Replayed (kv.execute op) (l ++ [op]) := by
  by_cases hcopy : ∃ o ∈ l, o.request = op.request
  · obtain ⟨o, ho, hreq⟩ := hcopy
    obtain rfl : o = op := hd.same o (List.mem_append_left _ ho) op (by simp) hreq
    have hagain := h.again ho
    refine ⟨?_, ?_, ?_⟩
    · rw [hagain.db, kvState_old ⟨o, ho, rfl⟩]
    · intro op hop
      rcases List.mem_append.mp hop with hop | hop
      · exact hagain.seen op hop
      · rw [List.mem_singleton.mp hop]
        exact hagain.seen o ho
    · intro client last hlast
      obtain ⟨op, hop, hop'⟩ := hagain.known hlast
      exact ⟨op, List.mem_append_left _ hop, hop'⟩
  · have hfresh : ∀ o ∈ l, o.request ≠ op.request := fun o ho hreq => hcopy ⟨o, ho, hreq⟩
    have hnew : kv.isNew op := by
      intro last hlast
      obtain ⟨o, ho, hclient, rfl⟩ := h.known hlast
      exact hd.lt_of_new hfresh ho hclient
    unfold KVServer.execute
    rw [if_pos hnew]
    refine ⟨?_, ?_, ?_⟩
    · show execOp kv.db op = _
      rw [h.db, kvState_new hfresh]
    · intro o ho
      show ∃ last ∈ Function.update kv.lastAppliedRequestId op.clientId _ o.clientId, _
      rcases List.mem_append.mp ho with hold | hlast
      · by_cases hclient : o.clientId = op.clientId
        · rw [hclient, Function.update_self]
          exact ⟨op.requestId, rfl, (hd.lt_of_new hfresh hold hclient).le⟩
        · rw [Function.update_of_ne hclient]
          exact h.seen o hold
      · rw [List.mem_singleton.mp hlast, Function.update_self]
        exact ⟨op.requestId, rfl, le_rfl⟩
    · intro client last hlast
      by_cases hclient : client = op.clientId
      · subst hclient
        have hlast' : last ∈ some op.requestId := by
          have hself : last ∈ Function.update kv.lastAppliedRequestId op.clientId
            (some op.requestId) op.clientId := hlast
          rwa [Function.update_self] at hself
        exact ⟨op, by simp, rfl, Option.some.inj hlast'⟩
      · have hlast' : last ∈ Function.update kv.lastAppliedRequestId op.clientId
            (some op.requestId) client := hlast
        rw [Function.update_of_ne hclient] at hlast'
        obtain ⟨o, ho, ho'⟩ := h.known hlast'
        exact ⟨o, List.mem_append_left _ ho, ho'⟩

/-! ## The other steps leave the maps alone -/

theorem Replayed.applyMsg {index : ℕ} (h : Replayed (kv.execute op) l) :
    Replayed (kv.applyMsg ⟨true, op, index⟩) l :=
  h.of_eq rfl rfl

theorem Replayed.notify (h : Replayed kv l) (hstep : kv.notify = some kv') : Replayed kv' l := by
  unfold KVServer.notify at hstep
  split at hstep
  · cases hstep
  · split at hstep
    · obtain rfl := Option.some.inj hstep
      exact h.of_eq rfl rfl
    · cases hstep

theorem Replayed.register (h : Replayed kv l) (index : ℕ) :
    Replayed (kv.register index).1 l := by
  unfold KVServer.register
  split
  · exact h
  · exact h.of_eq rfl rfl

theorem Replayed.receive {ch : ℕ} {notification : Notification} (h : Replayed kv l)
    (hstep : kv.receive ch = some (kv', notification)) : Replayed kv' l := by
  unfold KVServer.receive at hstep
  split at hstep
  · cases hstep
    exact h.of_eq rfl rfl
  · cases hstep

theorem Replayed.unregister (h : Replayed kv l) (index : ℕ) :
    Replayed (kv.unregister index) l :=
  h.of_eq rfl rfl

end Replay

end Mit6824
