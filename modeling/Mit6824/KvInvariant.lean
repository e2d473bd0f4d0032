/-
# Invariants of the key/value service

What one step of the service can do (`KvMove`), and the invariants that every
step keeps, one group for each part of the service:

* `ClerkOk`: a Clerk numbers its requests `1, 2, 3, …` and has one under way at a
  time;
* `OpsInv`: every operation on its way to the agreed sequence is that of a call in
  the history;
* `ServersInv`: an incarnation has executed the part of the agreed sequence that it
  has received, and whoever is notified is notified of an operation in that part;
* `RepliesInv`: a reply without `WrongLeader` is the answer at some position of the
  sequence behind a copy of the request;
* `AnswersInv`: every answer in the history is of this kind, and what is called
  later comes behind that position.
-/
import Mit6824.KvSystem

namespace Mit6824

open ObjectHistory

namespace KvService

variable {n : ℕ}

/-! ## What one step can do -/

/-- The branches of the steps, with the tests that lead into them. -/
inductive KvMove (c : KvService n) : KvAction n → KvService n → Prop where
  | invoke (client : ℕ) (input : KvInput) (hidle : (c.clerks client).loop = none) :
      KvMove c (.invoke client input) (c.invoked client input)
  | call (client : ℕ) (input : KvInput) (requestId : ℕ)
      (hloop : (c.clerks client).loop = some ⟨input, requestId, none⟩) :
      KvMove c (.call client) (c.called client input requestId)
  | fail (client : ℕ) (input : KvInput) (requestId m : ℕ)
      (hloop : (c.clerks client).loop = some ⟨input, requestId, some m⟩) :
      KvMove c (.callFails client) (c.retried client input requestId)
  /-- `Call` has returned with `WrongLeader`. -/
  | retry (client k : ℕ) (input : KvInput) (requestId m : ℕ)
      (hloop : (c.clerks client).loop = some ⟨input, requestId, some m⟩) :
      KvMove c (.callReturns client k) (c.retried client input requestId)
  | finish (client k : ℕ) (input : KvInput) (requestId m : ℕ) (reply : Reply)
      (hloop : (c.clerks client).loop = some ⟨input, requestId, some m⟩)
      (hreply : (m, reply) ∈ c.replies) (hleader : reply.isWrongLeader = false) :
      KvMove c (.callReturns client k) (c.returned client requestId reply.output)
  | request (m : ℕ) (rpc : Rpc n) (hm : c.calls[m]? = some rpc) :
      KvMove c (.request m) { c with
        handlers := c.handlers ++ [⟨m, rpc.server, c.epoch rpc.server, rpc.args, .start⟩] }
  | start (k : ℕ) (h : Handler n) (index : ℕ) (isLeader : Bool) (hk : c.handlers[k]? = some h) :
      KvMove c (.start k index isLeader)
        ({ c with starts := c.starts ++ [h.args.op] }.setPc k h (.register index))
  /-- `Start` says that the server is not the leader. -/
  | startRefuse (k : ℕ) (h : Handler n) (index : ℕ) (isLeader : Bool)
      (hk : c.handlers[k]? = some h) :
      KvMove c (.start k index isLeader)
        ({ c with starts := c.starts ++ [h.args.op] }.reply k h h.args.wrongLeader)
  | register (k : ℕ) (h : Handler n) (index : ℕ) (hk : c.handlers[k]? = some h) :
      KvMove c (.register k) ((c.setHome h ((c.home h).kv.register index).1).setPc k h
        (.wait index ((c.home h).kv.register index).2))
  | receive (k : ℕ) (h : Handler n) (index ch : ℕ) (kv : KVServer) (notification : Notification)
      (hk : c.handlers[k]? = some h)
      (hkv : (c.home h).kv.receive ch = some (kv, notification)) :
      KvMove c (.receive k) ((c.setHome h kv).setPc k h (.notified index notification))
  | timeout (k : ℕ) (h : Handler n) (hk : c.handlers[k]? = some h) :
      KvMove c (.timeout k) (c.reply k h h.args.wrongLeader)
  /-- The notification is of another request. -/
  | mismatch (k : ℕ) (h : Handler n) (index : ℕ) (hk : c.handlers[k]? = some h) :
      KvMove c (.unregister k)
        ((c.setHome h ((c.home h).kv.unregister index)).reply k h h.args.wrongLeader)
  | matchGet (k : ℕ) (h : Handler n) (index : ℕ) (hk : c.handlers[k]? = some h)
      (hpc : h.pc = .notified index h.args.op.notification) :
      KvMove c (.unregister k)
        ((c.setHome h ((c.home h).kv.unregister index)).setPc k h .read)
  | matchPutAppend (k : ℕ) (h : Handler n) (index : ℕ) (args : PutAppendArgs)
      (hk : c.handlers[k]? = some h) (hargs : h.args = .putAppend args)
      (hpc : h.pc = .notified index h.args.op.notification) :
      KvMove c (.unregister k) ((c.setHome h ((c.home h).kv.unregister index)).reply k h
        (.putAppend { wrongLeader := false }))
  | read (k : ℕ) (h : Handler n) (args : GetArgs) (err : Err) (hk : c.handlers[k]? = some h)
      (hargs : h.args = .get args) (hpc : h.pc = .read) :
      KvMove c (.read k) (c.reply k h (.get ⟨false, err, ((c.home h).kv.db args.key).getD ""⟩))
  | agree (k : ℕ) (op : Op) (hk : c.starts[k]? = some op) :
      KvMove c (.agree k) { c with starts := c.starts.eraseIdx k, agreed := c.agreed ++ [op] }
  | apply (server : Fin (n + 1)) (epoch : ℕ) (op : Op)
      (hop : c.agreed[(c.servers (server, epoch)).received]? = some op) :
      KvMove c (.apply server epoch) (c.setServer (server, epoch)
        ⟨(c.servers (server, epoch)).kv.applyMsg
            ⟨true, op, (c.servers (server, epoch)).received + 1⟩,
          (c.servers (server, epoch)).received + 1⟩)
  | notify (server : Fin (n + 1)) (epoch : ℕ) (kv : KVServer)
      (hkv : (c.servers (server, epoch)).kv.notify = some kv) :
      KvMove c (.notify server epoch)
        (c.setServer (server, epoch) { c.servers (server, epoch) with kv := kv })
  | restart (server : Fin (n + 1)) :
      KvMove c (.restart server)
        { c with epoch := Function.update c.epoch server (c.epoch server + 1) }

variable {c c' : KvService n} {a : KvAction n}

theorem kvMove_invoke {client : ℕ} {input : KvInput} (h : c.step (.invoke client input) = some c') :
    KvMove c (.invoke client input) c' := by
  dsimp only [step] at h
  split at h
  · cases h
  · rename_i hidle
    obtain rfl := Option.some.inj h
    exact .invoke client input hidle

theorem kvMove_call {client : ℕ} (h : c.step (.call client) = some c') :
    KvMove c (.call client) c' := by
  dsimp only [step] at h
  split at h
  · rename_i input requestId hloop
    obtain rfl := Option.some.inj h
    exact .call client input requestId hloop
  · cases h

theorem kvMove_callFails {client : ℕ} (h : c.step (.callFails client) = some c') :
    KvMove c (.callFails client) c' := by
  dsimp only [step] at h
  split at h
  · rename_i input requestId m hloop
    obtain rfl := Option.some.inj h
    exact .fail client input requestId m hloop
  · cases h

/-- A reply sends the Clerk round its loop again, or out of it. -/
theorem kvMove_callReturns {client m : ℕ} (h : c.step (.callReturns client m) = some c') :
    KvMove c (.callReturns client m) c' := by
  dsimp only [step] at h
  split at h
  · rename_i input requestId call rpc reply hloop hreply
    split_ifs at h with hrpc hwrong
    · obtain rfl := Option.some.inj h
      exact .retry client m input requestId call hloop
    · obtain rfl := Option.some.inj h
      obtain rfl : rpc = call := not_not.mp hrpc
      exact .finish client m input requestId rpc reply hloop (List.mem_of_getElem? hreply)
        (by simpa using hwrong)
  · cases h

/-- `Start` says whether the server is the leader. -/
theorem kvMove_start {k index : ℕ} {isLeader : Bool}
    (h : c.step (.start k index isLeader) = some c') : KvMove c (.start k index isLeader) c' := by
  dsimp only [step] at h
  split at h
  · rename_i rpc server epoch args hk
    split_ifs at h
    · obtain rfl := Option.some.inj h
      exact .start k _ index _ hk
    · obtain rfl := Option.some.inj h
      exact .startRefuse k _ index _ hk
  · cases h

theorem kvMove_register {k : ℕ} (h : c.step (.register k) = some c') :
    KvMove c (.register k) c' := by
  dsimp only [step] at h
  split at h
  · rename_i rpc server epoch args index hk
    obtain rfl := Option.some.inj h
    exact .register k _ index hk
  · cases h

/-- A handler waits for its channel. -/
theorem kvMove_receive {k : ℕ} (h : c.step (.receive k) = some c') :
    KvMove c (.receive k) c' := by
  dsimp only [step] at h
  split at h
  · rename_i rpc server epoch args index ch hk
    obtain ⟨⟨kv, notification⟩, hkv, rfl⟩ := Option.map_eq_some_iff.mp h
    exact .receive k _ index ch kv notification hk hkv
  · cases h

theorem kvMove_timeout {k : ℕ} (h : c.step (.timeout k) = some c') :
    KvMove c (.timeout k) c' := by
  dsimp only [step] at h
  split at h
  · rename_i rpc server epoch args index ch hk
    obtain rfl := Option.some.inj h
    exact .timeout k _ hk
  · cases h

/-- The notification is of another request, or of the one that the handler waits for. -/
theorem kvMove_unregister {k : ℕ} (h : c.step (.unregister k) = some c') :
    KvMove c (.unregister k) c' := by
  dsimp only [step] at h
  split at h
  · rename_i rpc server epoch args index notification hk
    split_ifs at h with hids
    · obtain rfl := Option.some.inj h
      exact .mismatch k _ index hk
    · rw [not_or, not_not, not_not] at hids
      have hnotification : notification = args.op.notification := by
        obtain ⟨client, request⟩ := notification
        obtain ⟨rfl, rfl⟩ := hids
        rfl
      cases args with
      | get args =>
          obtain rfl := Option.some.inj h
          exact .matchGet k _ index hk (by rw [hnotification])
      | putAppend args =>
          obtain rfl := Option.some.inj h
          exact .matchPutAppend k _ index args hk rfl (by rw [hnotification])
  · cases h

/-- Both outcomes of the lookup are one move: they differ in the error only. -/
theorem kvMove_read {k : ℕ} (h : c.step (.read k) = some c') : KvMove c (.read k) c' := by
  dsimp only [step] at h
  split at h
  · rename_i rpc server epoch args hk
    split at h
    · rename_i value hvalue
      obtain rfl := Option.some.inj h
      have hmove := KvMove.read k _ args .none hk rfl rfl
      rw [hvalue] at hmove
      exact hmove
    · rename_i hvalue
      obtain rfl := Option.some.inj h
      have hmove := KvMove.read k _ args .errNoKey hk rfl rfl
      rw [hvalue] at hmove
      exact hmove
  · cases h

/-- The apply loop takes the next operation of the agreed sequence. -/
theorem kvMove_apply {server : Fin (n + 1)} {epoch : ℕ}
    (h : c.step (.apply server epoch) = some c') : KvMove c (.apply server epoch) c' := by
  dsimp only [step] at h
  split_ifs at h
  split at h
  · rename_i op hsending hop
    obtain rfl := Option.some.inj h
    exact .apply server epoch op hop
  · cases h

/-- **Inversion.**  Every step is a move. -/
theorem step_kvMove (h : c.step a = some c') : KvMove c a c' := by
  cases a with
  | invoke client input => exact kvMove_invoke h
  | call client => exact kvMove_call h
  | callFails client => exact kvMove_callFails h
  | callReturns client m => exact kvMove_callReturns h
  | request m =>
      obtain ⟨rpc, hm, rfl⟩ := Option.map_eq_some_iff.mp h
      exact .request m rpc hm
  | start k index isLeader => exact kvMove_start h
  | register k => exact kvMove_register h
  | receive k => exact kvMove_receive h
  | timeout k => exact kvMove_timeout h
  | unregister k => exact kvMove_unregister h
  | read k => exact kvMove_read h
  | agree k =>
      obtain ⟨op, hop, rfl⟩ := Option.map_eq_some_iff.mp h
      exact .agree k op hop
  | apply server epoch => exact kvMove_apply h
  | notify server epoch =>
      obtain ⟨kv, hkv, rfl⟩ := Option.map_eq_some_iff.mp h
      exact .notify server epoch kv hkv
  | restart server =>
      obtain rfl := Option.some.inj h
      exact .restart server

end KvService

/-! ## Operations and answers -/

/-- What the object answers to the operation when its state is `db`. -/
def Op.answer (op : Op) (db : Db) : Option String :=
  match op.name with
  | .get => some ((db op.key).getD "")
  | _ => none

theorem args_op_request (input : KvInput) (client r : ℕ) :
    (input.args client r).op.request = (client, r) := by
  cases input <;> rfl

section Operations

variable {history : List KvEvent} {agreed : List Op} {op : Op} {y : Option String} {p : ℕ}

/-- The operation is that of a call in the history. -/
def Known (history : List KvEvent) (op : Op) : Prop :=
  ∃ client r input, .call (client, r) input ∈ history ∧ op = (input.args client r).op

/-- What is known stays known. -/
theorem Known.append (h : Known history op) (l : List KvEvent) : Known (history ++ l) op := by
  obtain ⟨client, r, input, hmem, hop⟩ := h
  exact ⟨client, r, input, List.mem_append_left _ hmem, hop⟩

/-- The answer `y` to `op` is that of the object at position `p` of the agreed sequence,
behind a copy of `op`. -/
structure Answered (agreed : List Op) (op : Op) (y : Option String) (p : ℕ) : Prop where
  le : p ≤ agreed.length
  copy : ∃ o ∈ agreed.take p, o.request = op.request
  answer : y = op.answer (kvState (agreed.take p))

/-- The sequence only grows at its end. -/
theorem Answered.append (h : Answered agreed op y p) (l : List Op) :
    Answered (agreed ++ l) op y p where
  le := by
    rw [List.length_append]
    exact h.le.trans (Nat.le_add_right _ _)
  copy := by
    rw [List.take_append_of_le_length h.le]
    exact h.copy
  answer := by
    rw [List.take_append_of_le_length h.le]
    exact h.answer

/-- A copy of an answered request stands before the answer, and so does the first. -/
theorem Answered.first_lt (h : Answered agreed op y p) {o : Op} {i : ℕ}
    (hfirst : FirstCopy agreed i o) (hreq : o.request = op.request) : i < p := by
  obtain ⟨o', ho', hreq'⟩ := h.copy
  obtain ⟨k, hk⟩ := List.mem_iff_getElem?.mp ho'
  have hkp : k < p := by
    obtain ⟨hlt, -⟩ := List.getElem?_eq_some_iff.mp hk
    rw [List.length_take] at hlt
    omega
  by_contra hge
  refine hfirst.2 o' ?_ (hreq'.trans hreq.symm)
  exact (List.take_prefix_take_left (by omega)).subset ho'

/-- Some operation of the list is the one notified of. -/
def Seen (l : List Op) (notification : Notification) : Prop :=
  ∃ op ∈ l, op.notification = notification

theorem Seen.mono {l l' : List Op} {notification : Notification} (h : Seen l notification)
    (hl : l <+: l') : Seen l' notification := by
  obtain ⟨op, hop, heq⟩ := h
  exact ⟨op, hl.subset hop, heq⟩

end Operations

/-! ## Clerks and the history -/

section Clerks

variable {n : ℕ} {client : ℕ} {ck : Clerk n} {calls : List (Rpc n)} {history : List KvEvent}

/-- A Clerk that has had its requests `1, …, lastRequestId` answered, and may have the next
one under way. -/
structure ClerkOk (client : ℕ) (ck : Clerk n) (calls : List (Rpc n))
    (history : List KvEvent) : Prop where
  loop : ∀ {loop}, ck.loop = some loop → loop.requestId = ck.lastRequestId + 1 ∧
    .call (client, loop.requestId) loop.input ∈ history ∧
    ∀ m ∈ loop.call, ∃ server, calls[m]? = some ⟨server, loop.input.args client loop.requestId⟩
  returned : ∀ {r}, 1 ≤ r → r ≤ ck.lastRequestId → ∃ y, .ret (client, r) y ∈ history
  ret_le : ∀ {r y}, .ret (client, r) y ∈ history → r ≤ ck.lastRequestId
  call_le : ∀ {r x}, .call (client, r) x ∈ history →
    1 ≤ r ∧ (r ≤ ck.lastRequestId ∨ ∃ loop, ck.loop = some loop ∧ r = loop.requestId)

/-- Each call is made once and answered at most once, and a client calls one after the
other. -/
structure HistoryOk (history : List KvEvent) : Prop where
  call_unique : ∀ {id x x'}, .call id x ∈ history → .call id x' ∈ history → x = x'
  ret_nodup : (history.filterMap Event.retId).Nodup
  sequential : ∀ {client r r' x}, .call (client, r') x ∈ history → 1 ≤ r → r < r' →
    Precedes history (client, r) (client, r')

/-- An event of another client. -/
theorem ClerkOk.other (h : ClerkOk client ck calls history) {e : KvEvent}
    (hne : e.id.1 ≠ client) : ClerkOk client ck calls (history ++ [e]) where
  loop := by
    intro loop hloop
    obtain ⟨hid, hmem, hcall⟩ := h.loop hloop
    exact ⟨hid, List.mem_append_left _ hmem, hcall⟩
  returned := by
    intro r hpos hle
    obtain ⟨y, hy⟩ := h.returned hpos hle
    exact ⟨y, List.mem_append_left _ hy⟩
  ret_le := by
    intro r y hmem
    rcases List.mem_append.mp hmem with hold | hnew
    · exact h.ret_le hold
    · obtain rfl := List.mem_singleton.mp hnew
      exact absurd rfl hne
  call_le := by
    intro r x hmem
    rcases List.mem_append.mp hmem with hold | hnew
    · exact h.call_le hold
    · obtain rfl := List.mem_singleton.mp hnew
      exact absurd rfl hne

/-- More requests on the network. -/
theorem ClerkOk.calls_append (h : ClerkOk client ck calls history) (l : List (Rpc n)) :
    ClerkOk client ck (calls ++ l) history where
  loop := by
    intro loop hloop
    obtain ⟨hid, hmem, hcall⟩ := h.loop hloop
    refine ⟨hid, hmem, fun m hm => ?_⟩
    obtain ⟨server, hserver⟩ := hcall m hm
    obtain ⟨hlt, -⟩ := List.getElem?_eq_some_iff.mp hserver
    exact ⟨server, by rw [List.getElem?_append_left hlt, hserver]⟩
  returned := h.returned
  ret_le := h.ret_le
  call_le := h.call_le

/-- The loop of the Clerk has another call under way, or none. -/
theorem ClerkOk.recalled (h : ClerkOk client ck calls history) {input : KvInput} {requestId : ℕ}
    {call call' : Option ℕ} (hloop : ck.loop = some ⟨input, requestId, call⟩)
    (leaderId : Fin (n + 1))
    (hcall : ∀ m ∈ call', ∃ server, calls[m]? = some ⟨server, input.args client requestId⟩) :
    ClerkOk client ⟨leaderId, ck.lastRequestId, some ⟨input, requestId, call'⟩⟩ calls history where
  loop := by
    intro loop heq
    obtain rfl := Option.some.inj heq
    obtain ⟨hid, hmem, -⟩ := h.loop hloop
    exact ⟨hid, hmem, hcall⟩
  returned := h.returned
  ret_le := h.ret_le
  call_le := by
    intro r x hmem
    obtain ⟨hpos, hle | ⟨loop, heq, hr⟩⟩ := h.call_le hmem
    · exact ⟨hpos, .inl hle⟩
    · rw [hloop] at heq
      obtain rfl := Option.some.inj heq
      exact ⟨hpos, .inr ⟨_, rfl, hr⟩⟩

/-- The next request number is not in use while the Clerk is idle. -/
theorem ClerkOk.fresh (h : ClerkOk client ck calls history) (hidle : ck.loop = none) {x : KvInput} :
    .call (client, ck.lastRequestId + 1) x ∉ history := by
  intro hmem
  rcases (h.call_le hmem).2 with hle | ⟨loop, hloop, -⟩
  · omega
  · rw [hidle] at hloop
    cases hloop

/-- A client calls its Clerk. -/
theorem ClerkOk.invoked (h : ClerkOk client ck calls history) (input : KvInput) :
    ClerkOk client { ck with loop := some ⟨input, ck.lastRequestId + 1, none⟩ } calls
      (history ++ [.call (client, ck.lastRequestId + 1) input]) where
  loop := by
    intro loop hloop
    obtain rfl := Option.some.inj hloop
    refine ⟨rfl, List.mem_append_right _ (List.mem_singleton_self _), ?_⟩
    intro m hm
    cases hm
  returned := by
    intro r hpos hle
    obtain ⟨y, hy⟩ := h.returned hpos hle
    exact ⟨y, List.mem_append_left _ hy⟩
  ret_le := by
    intro r y hmem
    rcases List.mem_append.mp hmem with hold | hnew
    · exact h.ret_le hold
    · cases List.mem_singleton.mp hnew
  call_le := by
    intro r x hmem
    rcases List.mem_append.mp hmem with hold | hnew
    · obtain ⟨hpos, -⟩ := h.call_le hold
      rcases (h.call_le hold).2 with hle | ⟨loop, hloop, hr⟩
      · exact ⟨hpos, .inl hle⟩
      · exact ⟨hpos, .inr ⟨_, rfl, hr.trans (h.loop hloop).1⟩⟩
    · cases List.mem_singleton.mp hnew
      exact ⟨Nat.succ_pos _, .inr ⟨_, rfl, rfl⟩⟩

/-- The Clerk answers its client. -/
theorem ClerkOk.answered (h : ClerkOk client ck calls history) {loop : ClerkLoop}
    (hloop : ck.loop = some loop) (y : Option String) :
    ClerkOk client { ck with lastRequestId := loop.requestId, loop := none } calls
      (history ++ [.ret (client, loop.requestId) y]) where
  loop := by
    intro loop' hnone
    cases hnone
  returned := by
    intro r hpos hle
    have hid := (h.loop hloop).1
    have hle' : r ≤ loop.requestId := hle
    -- the request that ends now has the next number
    rcases Nat.lt_or_eq_of_le hle' with hlt | rfl
    · obtain ⟨y', hy'⟩ := h.returned hpos (by omega : r ≤ ck.lastRequestId)
      exact ⟨y', List.mem_append_left _ hy'⟩
    · exact ⟨y, List.mem_append_right _ (List.mem_singleton_self _)⟩
  ret_le := by
    intro r y' hmem
    have hid := (h.loop hloop).1
    show r ≤ loop.requestId
    rcases List.mem_append.mp hmem with hold | hnew
    · have := h.ret_le hold
      omega
    · cases List.mem_singleton.mp hnew
      exact le_rfl
  call_le := by
    intro r x hmem
    have hid := (h.loop hloop).1
    rcases List.mem_append.mp hmem with hold | hnew
    · refine ⟨(h.call_le hold).1, .inl ?_⟩
      show r ≤ loop.requestId
      rcases (h.call_le hold).2 with hle | ⟨loop', hloop', hr⟩
      · omega
      · rw [hloop] at hloop'
        obtain rfl := Option.some.inj hloop'
        exact hr.le
    · cases List.mem_singleton.mp hnew

/-- The history with one more call. -/
theorem HistoryOk.call (h : HistoryOk history) {r : ℕ} (input : KvInput)
    (hfresh : ∀ x, .call (client, r) x ∉ history)
    (hreturned : ∀ r', 1 ≤ r' → r' < r → ∃ y, .ret (client, r') y ∈ history) :
    HistoryOk (history ++ [.call (client, r) input]) where
  call_unique := by
    intro id x x' hx hx'
    rcases List.mem_append.mp hx with hold | hnew
    · rcases List.mem_append.mp hx' with hold' | hnew'
      · exact h.call_unique hold hold'
      · cases List.mem_singleton.mp hnew'
        exact absurd hold (hfresh x)
    · cases List.mem_singleton.mp hnew
      rcases List.mem_append.mp hx' with hold' | hnew'
      · exact absurd hold' (hfresh x')
      · cases List.mem_singleton.mp hnew'
        rfl
  ret_nodup := by
    rw [List.filterMap_append, List.filterMap_cons_none rfl, List.filterMap_nil, List.append_nil]
    exact h.ret_nodup
  sequential := by
    intro client' r₁ r₂ x hmem hpos hlt
    rcases List.mem_append.mp hmem with hold | hnew
    · exact (h.sequential hold hpos hlt).append _
    · -- a Clerk calls only when all its earlier requests have returned
      cases List.mem_singleton.mp hnew
      obtain ⟨y, hy⟩ := hreturned r₁ hpos hlt
      exact precedes_call input hy

/-- The history with one more return. -/
theorem HistoryOk.ret (h : HistoryOk history) {id : ℕ × ℕ} (y : Option String)
    (hfresh : ∀ y', .ret id y' ∉ history) : HistoryOk (history ++ [.ret id y]) where
  call_unique := by
    intro id' x x' hx hx'
    rcases List.mem_append.mp hx with hold | hnew
    · rcases List.mem_append.mp hx' with hold' | hnew'
      · exact h.call_unique hold hold'
      · cases List.mem_singleton.mp hnew'
    · cases List.mem_singleton.mp hnew
  ret_nodup := by
    rw [List.filterMap_append]
    refine List.Nodup.append h.ret_nodup (List.nodup_singleton id) ?_
    intro id' hold hnew
    obtain rfl : id' = id := List.mem_singleton.mp hnew
    obtain ⟨e, he, heq⟩ := List.mem_filterMap.mp hold
    cases e with
    | call id x => cases heq
    | ret id y' =>
        obtain rfl := Option.some.inj heq
        exact hfresh y' he
  sequential := by
    intro client' r₁ r₂ x hmem hpos hlt
    rcases List.mem_append.mp hmem with hold | hnew
    · exact (h.sequential hold hpos hlt).append _
    · cases List.mem_singleton.mp hnew

end Clerks

/-! ## Servers and handlers -/

section Notifications

variable {kv kv' : KVServer} {P Q : Notification → Prop}

/-- All notifications in the channels of the server, or on their way into one, satisfy
`P`. -/
structure Notifies (kv : KVServer) (P : Notification → Prop) : Prop where
  chans : ∀ {ch : ℕ} {notification}, kv.chans[ch]? = some (some notification) → P notification
  sending : ∀ {ch notification}, kv.sending = some (ch, notification) → P notification

theorem notifies_start : Notifies KVServer.start P where
  chans := by intro ch notification h; simp [KVServer.start] at h
  sending := by intro ch notification h; cases h

theorem Notifies.mono (h : Notifies kv P) (hPQ : ∀ x, P x → Q x) : Notifies kv Q where
  chans := fun hch => hPQ _ (h.chans hch)
  sending := fun hs => hPQ _ (h.sending hs)

/-- A write into the buffer of one channel. -/
theorem Notifies.set (h : Notifies kv P) {ch : ℕ} {buffer : Option Notification}
    (hbuffer : ∀ x ∈ buffer, P x) {k : ℕ} {x : Notification}
    (hget : (kv.chans.set ch buffer)[k]? = some (some x)) : P x := by
  by_cases hk : ch = k
  · subst hk
    rw [List.getElem?_set_self'] at hget
    obtain ⟨_, -, heq⟩ := Option.map_eq_some_iff.mp hget
    exact hbuffer x heq
  · rw [List.getElem?_set_ne hk] at hget
    exact h.chans hget

theorem Notifies.notify (h : Notifies kv P) (hstep : kv.notify = some kv') : Notifies kv' P := by
  unfold KVServer.notify at hstep
  split at hstep
  · cases hstep
  · rename_i ch notification hsending
    split at hstep
    · obtain rfl := Option.some.inj hstep
      refine ⟨fun hget => h.set (fun x hx => ?_) hget, ?_⟩
      · obtain rfl := Option.some.inj hx
        exact h.sending hsending
      · intro ch' x hnone
        cases hnone
    · cases hstep

theorem Notifies.register (h : Notifies kv P) (index : ℕ) :
    Notifies (kv.register index).1 P := by
  unfold KVServer.register
  split
  · exact h
  · refine ⟨?_, h.sending⟩
    intro ch x hget
    have hget' : (kv.chans ++ [none])[ch]? = some (some x) := hget
    rcases Nat.lt_or_ge ch kv.chans.length with hlt | hge
    · rw [List.getElem?_append_left hlt] at hget'
      exact h.chans hget'
    · -- the new channel is empty
      rw [List.getElem?_append_right hge] at hget'
      obtain ⟨hlt, heq⟩ := List.getElem?_eq_some_iff.mp hget'
      simp at heq

/-- What a handler receives was sent by the apply loop. -/
theorem Notifies.receive {ch : ℕ} {notification : Notification} (h : Notifies kv P)
    (hstep : kv.receive ch = some (kv', notification)) : Notifies kv' P ∧ P notification := by
  unfold KVServer.receive at hstep
  split at hstep
  · rename_i x hx
    cases hstep
    refine ⟨⟨fun hget => h.set (fun y hy => ?_) hget, h.sending⟩, h.chans hx⟩
    cases hy
  · cases hstep

theorem Notifies.unregister (h : Notifies kv P) (index : ℕ) : Notifies (kv.unregister index) P :=
  ⟨h.chans, h.sending⟩

/-- The apply loop takes an operation. -/
theorem Notifies.applyMsg {op : Op} (h : Notifies kv P) (hop : P op.notification) (index : ℕ) :
    Notifies (kv.applyMsg ⟨true, op, index⟩) P := by
  have hchans : (kv.applyMsg ⟨true, op, index⟩).chans = kv.chans := kv.execute_chans op
  refine ⟨fun hget => h.chans (hchans ▸ hget), ?_⟩
  intro ch x hsending
  have hmap : (kv.dispatcher index).map (fun ch => (ch, op.notification)) = some (ch, x) := hsending
  obtain ⟨_, -, heq⟩ := Option.map_eq_some_iff.mp hmap
  cases heq
  exact hop

end Notifications

section Servers

variable {n : ℕ} {agreed : List Op} {x x' : Incarnation} {calls : List (Rpc n)}
  {servers : Fin (n + 1) × ℕ → Incarnation} {handlers : List (Handler n)} {h : Handler n}

/-- An incarnation that has executed the operations it has received, and notifies of these
only. -/
structure ServerOk (agreed : List Op) (x : Incarnation) : Prop where
  received : x.received ≤ agreed.length
  replayed : Replayed x.kv (agreed.take x.received)
  notifies : Notifies x.kv (Seen (agreed.take x.received))

theorem serverOk_start : ServerOk [] ⟨KVServer.start, 0⟩ where
  received := le_rfl
  replayed := replayed_start
  notifies := notifies_start

theorem ServerOk.append (h : ServerOk agreed x) (l : List Op) : ServerOk (agreed ++ l) x where
  received := by
    rw [List.length_append]
    exact h.received.trans (Nat.le_add_right _ _)
  replayed := by
    rw [List.take_append_of_le_length h.received]
    exact h.replayed
  notifies := by
    rw [List.take_append_of_le_length h.received]
    exact h.notifies

/-- **The apply loop takes the next operation of a disciplined sequence.** -/
theorem ServerOk.applyMsg {op : Op} (h : ServerOk agreed x) (hd : Disciplined agreed)
    (hop : agreed[x.received]? = some op) :
    ServerOk agreed ⟨x.kv.applyMsg ⟨true, op, x.received + 1⟩, x.received + 1⟩ := by
  obtain ⟨hlt, -⟩ := List.getElem?_eq_some_iff.mp hop
  have htake : agreed.take (x.received + 1) = agreed.take x.received ++ [op] := by
    rw [List.take_add_one, hop]
    rfl
  -- what the incarnation has received is the start of a disciplined sequence
  have hdisc : Disciplined (agreed.take x.received ++ [op]) := by
    have hfull := hd
    rw [← List.take_append_drop (x.received + 1) agreed, htake] at hfull
    exact hfull.of_append
  refine ⟨hlt, ?_, ?_⟩
  · show Replayed _ (agreed.take (x.received + 1))
    rw [htake]
    exact (h.replayed.next hdisc).applyMsg
  · show Notifies _ (Seen (agreed.take (x.received + 1)))
    rw [htake]
    refine Notifies.applyMsg (h.notifies.mono fun y hy => ?_) ?_ _
    · exact hy.mono (List.prefix_append _ _)
    · exact ⟨op, by simp, rfl⟩

/-- A handler that has been notified was notified of an operation in the list. -/
def HandlerPc.Ok (l : List Op) (op : Op) : HandlerPc → Prop
  | .notified _ notification => Seen l notification
  | .read => Seen l op.notification
  | _ => True

theorem HandlerPc.Ok.mono {l l' : List Op} {op : Op} {pc : HandlerPc} (h : pc.Ok l op)
    (hl : l <+: l') : pc.Ok l' op := by
  cases pc with
  | notified index notification => exact Seen.mono h hl
  | read => exact Seen.mono h hl
  | start => trivial
  | register index => trivial
  | wait index ch => trivial
  | done => trivial

/-- A handler answers a request on the network, and was notified of what its incarnation
has executed. -/
structure HandlerOk (servers : Fin (n + 1) × ℕ → Incarnation) (calls : List (Rpc n))
    (agreed : List Op) (h : Handler n) : Prop where
  call : ∃ server, calls[h.rpc]? = some ⟨server, h.args⟩
  pc : h.pc.Ok (agreed.take (servers (h.server, h.epoch)).received) h.args.op

/-- All servers and handlers. -/
structure ServersInv (servers : Fin (n + 1) × ℕ → Incarnation) (handlers : List (Handler n))
    (calls : List (Rpc n)) (agreed : List Op) : Prop where
  server : ∀ i, ServerOk agreed (servers i)
  handler : ∀ h ∈ handlers, HandlerOk servers calls agreed h

/-- An incarnation moves on. -/
theorem ServersInv.setServer (hi : ServersInv servers handlers calls agreed)
    {i : Fin (n + 1) × ℕ} (hx : ServerOk agreed x) (hle : (servers i).received ≤ x.received) :
    ServersInv (Function.update servers i x) handlers calls agreed where
  server := Function.forall_update_iff servers (fun _ x => ServerOk agreed x) |>.mpr
    ⟨hx, fun j _ => hi.server j⟩
  handler := by
    intro h hh
    refine ⟨(hi.handler h hh).call, (hi.handler h hh).pc.mono ?_⟩
    -- the incarnation of the handler may be the one that moves
    by_cases hj : (h.server, h.epoch) = i
    · rw [hj, Function.update_self]
      exact List.take_prefix_take_left hle
    · rw [Function.update_of_ne hj]

/-- A handler moves on. -/
theorem ServersInv.setPc (hi : ServersInv servers handlers calls agreed) {k : ℕ}
    (hk : handlers[k]? = some h) {pc : HandlerPc}
    (hpc : pc.Ok (agreed.take (servers (h.server, h.epoch)).received) h.args.op) :
    ServersInv servers (handlers.set k { h with pc := pc }) calls agreed where
  server := hi.server
  handler := by
    intro h' hh'
    rcases List.mem_or_eq_of_mem_set hh' with hold | rfl
    · exact hi.handler h' hold
    · exact ⟨(hi.handler h (List.mem_of_getElem? hk)).call, hpc⟩

/-- A request reaches its server. -/
theorem ServersInv.request (hi : ServersInv servers handlers calls agreed) {m : ℕ} {rpc : Rpc n}
    (hm : calls[m]? = some rpc) (epoch : ℕ) :
    ServersInv servers (handlers ++ [⟨m, rpc.server, epoch, rpc.args, .start⟩]) calls agreed where
  server := hi.server
  handler := by
    intro h hh
    rcases List.mem_append.mp hh with hold | hnew
    · exact hi.handler h hold
    · obtain rfl := List.mem_singleton.mp hnew
      exact ⟨⟨rpc.server, hm⟩, trivial⟩

/-- More requests on the network. -/
theorem ServersInv.calls_append (hi : ServersInv servers handlers calls agreed)
    (l : List (Rpc n)) : ServersInv servers handlers (calls ++ l) agreed where
  server := hi.server
  handler := by
    intro h hh
    obtain ⟨server, hserver⟩ := (hi.handler h hh).call
    obtain ⟨hlt, -⟩ := List.getElem?_eq_some_iff.mp hserver
    exact ⟨⟨server, by rw [List.getElem?_append_left hlt, hserver]⟩, (hi.handler h hh).pc⟩

/-- More operations agreed. -/
theorem ServersInv.append (hi : ServersInv servers handlers calls agreed) (l : List Op) :
    ServersInv servers handlers calls (agreed ++ l) where
  server := fun i => (hi.server i).append l
  handler := by
    intro h hh
    refine ⟨(hi.handler h hh).call, ?_⟩
    rw [List.take_append_of_le_length (hi.server _).received]
    exact (hi.handler h hh).pc

end Servers

/-! ## Requests, replies and answers -/

section Answers

variable {n : ℕ} {calls : List (Rpc n)} {replies : List (ℕ × Reply)} {starts agreed : List Op}
  {history : List KvEvent} {g : ℕ × ℕ → ℕ}

/-- Whatever is on its way to the agreed sequence, or in it, was called for by a client. -/
structure OpsInv (calls : List (Rpc n)) (starts agreed : List Op) (history : List KvEvent) :
    Prop where
  call : ∀ {m : ℕ} {rpc}, calls[m]? = some rpc → ∃ client r input,
    .call (client, r) input ∈ history ∧ rpc.args = input.args client r
  start : ∀ op ∈ starts, Known history op
  agreed : ∀ op ∈ agreed, Known history op

theorem OpsInv.history_append (hi : OpsInv calls starts agreed history) (l : List KvEvent) :
    OpsInv calls starts agreed (history ++ l) where
  call := by
    intro m rpc hm
    obtain ⟨client, r, input, hmem, hargs⟩ := hi.call hm
    exact ⟨client, r, input, List.mem_append_left _ hmem, hargs⟩
  start := fun op hop => (hi.start op hop).append l
  agreed := fun op hop => (hi.agreed op hop).append l

/-- The operation of a request on the network. -/
theorem OpsInv.known (hi : OpsInv calls starts agreed history) {m : ℕ} {rpc : Rpc n}
    (hm : calls[m]? = some rpc) : Known history rpc.args.op := by
  obtain ⟨client, r, input, hmem, hargs⟩ := hi.call hm
  exact ⟨client, r, input, hmem, by rw [hargs]⟩

/-- A reply without `WrongLeader` is an answer to its request. -/
def RepliesInv (calls : List (Rpc n)) (replies : List (ℕ × Reply)) (agreed : List Op) : Prop :=
  ∀ m reply, (m, reply) ∈ replies → reply.isWrongLeader = false → ∃ rpc p,
    calls[m]? = some rpc ∧ Answered agreed rpc.args.op reply.output p

/-- One more reply. -/
theorem RepliesInv.reply (hi : RepliesInv calls replies agreed) {m : ℕ} {r : Reply}
    (hr : r.isWrongLeader = false → ∃ rpc p,
      calls[m]? = some rpc ∧ Answered agreed rpc.args.op r.output p) :
    RepliesInv calls (replies ++ [(m, r)]) agreed := by
  intro m' r' hmem hleader
  rcases List.mem_append.mp hmem with hold | hnew
  · exact hi _ _ hold hleader
  · cases List.mem_singleton.mp hnew
    exact hr hleader

theorem wrongLeader_isWrongLeader (args : Args) : args.wrongLeader.isWrongLeader = true := by
  cases args <;> rfl

theorem RepliesInv.calls_append (hi : RepliesInv calls replies agreed) (l : List (Rpc n)) :
    RepliesInv (calls ++ l) replies agreed := by
  intro m r hmem hleader
  obtain ⟨rpc, p, hm, hans⟩ := hi _ _ hmem hleader
  obtain ⟨hlt, -⟩ := List.getElem?_eq_some_iff.mp hm
  exact ⟨rpc, p, by rw [List.getElem?_append_left hlt, hm], hans⟩

theorem RepliesInv.append (hi : RepliesInv calls replies agreed) (l : List Op) :
    RepliesInv calls replies (agreed ++ l) := by
  intro m r hmem hleader
  obtain ⟨rpc, p, hm, hans⟩ := hi _ _ hmem hleader
  exact ⟨rpc, p, hm, hans.append l⟩

/-- Every answer in the history is that of the object at position `g id` of the agreed
sequence, behind a copy of the request, and the operations of whatever is called
after the return stand behind that position. -/
structure AnswersInv (g : ℕ × ℕ → ℕ) (history : List KvEvent) (agreed : List Op) : Prop where
  answer : ∀ {id y}, .ret id y ∈ history → ∃ op, Known history op ∧ op.request = id ∧
    Answered agreed op y (g id)
  order : ∀ {a b}, Precedes history a b → ∀ {j : ℕ} {op}, agreed[j]? = some op →
    op.request = b → g a ≤ j

/-- A call by a client: its request is new to the agreed sequence. -/
theorem AnswersInv.call (hi : AnswersInv g history agreed) {id : ℕ × ℕ} (input : KvInput)
    (hfresh : ∀ op ∈ agreed, op.request ≠ id) :
    AnswersInv g (history ++ [.call id input]) agreed where
  answer := by
    intro id' y hmem
    rcases List.mem_append.mp hmem with hold | hnew
    · obtain ⟨op, hknown, hreq, hans⟩ := hi.answer hold
      exact ⟨op, hknown.append _, hreq, hans⟩
    · cases List.mem_singleton.mp hnew
  order := by
    intro a b hab j op hop hreq
    rcases hab.of_append with hold | ⟨⟨x, hnew⟩, -⟩
    · exact hi.order hold hop hreq
    · cases hnew
      exact absurd hreq (hfresh op (List.mem_of_getElem? hop))

/-- **The answer of a Clerk to its client** takes effect at the position of its reply. -/
theorem AnswersInv.ret (hi : AnswersInv g history agreed) {id : ℕ × ℕ} {y : Option String}
    {op : Op} {p : ℕ} (hfresh : ∀ y', .ret id y' ∉ history) (hknown : Known history op)
    (hreq : op.request = id) (hans : Answered agreed op y p) :
    AnswersInv (Function.update g id p) (history ++ [.ret id y]) agreed where
  answer := by
    intro id' y' hmem
    rcases List.mem_append.mp hmem with hold | hnew
    · have hne : id' ≠ id := fun heq => hfresh y' (heq ▸ hold)
      obtain ⟨op', hknown', hreq', hans'⟩ := hi.answer hold
      rw [Function.update_of_ne hne]
      exact ⟨op', hknown'.append _, hreq', hans'⟩
    · cases List.mem_singleton.mp hnew
      rw [Function.update_self]
      exact ⟨op, hknown.append _, hreq, hans⟩
  order := by
    intro a b hab j op' hop hreq'
    rcases hab.of_append with hold | ⟨⟨x, hnew⟩, -⟩
    · obtain ⟨y', hy'⟩ := hold.mem_ret
      have hne : a ≠ id := fun heq => hfresh y' (heq ▸ hy')
      rw [Function.update_of_ne hne]
      exact hi.order hold hop hreq'
    · cases hnew

/-- One more operation agreed: it stands behind all answers so far. -/
theorem AnswersInv.append (hi : AnswersInv g history agreed) (op : Op) :
    AnswersInv g history (agreed ++ [op]) where
  answer := by
    intro id y hmem
    obtain ⟨op', hknown, hreq, hans⟩ := hi.answer hmem
    exact ⟨op', hknown, hreq, hans.append _⟩
  order := by
    intro a b hab j op' hop hreq
    rcases Nat.lt_or_ge j agreed.length with hlt | hge
    · rw [List.getElem?_append_left hlt] at hop
      exact hi.order hab hop hreq
    · obtain ⟨y, hy⟩ := hab.mem_ret
      obtain ⟨_, -, -, hans⟩ := hi.answer hy
      exact hans.le.trans hge

end Answers

/-! ## All together -/

namespace KvService

variable {n : ℕ} {c c' : KvService n} {g : ℕ × ℕ → ℕ}

/-- The invariant of the service. -/
structure KvInv (c : KvService n) (g : ℕ × ℕ → ℕ) : Prop where
  clerks : ∀ client, ClerkOk client (c.clerks client) c.calls c.history
  history : HistoryOk c.history
  ops : OpsInv c.calls c.starts c.agreed c.history
  servers : ServersInv c.servers c.handlers c.calls c.agreed
  replies : RepliesInv c.calls c.replies c.agreed
  answers : AnswersInv g c.history c.agreed

/-- The invariant holds in the beginning, for any positions. -/
theorem kvInv_init (n : ℕ) (g : ℕ × ℕ → ℕ) : KvInv (init n) g where
  clerks := by
    intro client
    refine ⟨?_, ?_, ?_, ?_⟩
    · intro loop h
      cases h
    · intro r hpos hle
      exact absurd (hpos.trans hle) (Nat.not_succ_le_zero 0)
    · intro r y h
      cases h
    · intro r x h
      cases h
  history := by
    refine ⟨?_, List.nodup_nil, ?_⟩
    · intro id x x' h
      cases h
    · intro client r r' x h
      cases h
  ops := by
    refine ⟨?_, ?_, ?_⟩
    · intro m rpc h
      simp [init] at h
    · intro op h
      cases h
    · intro op h
      cases h
  servers := ⟨fun _ => serverOk_start, fun h hh => by cases hh⟩
  replies := by intro m r h; cases h
  answers := by
    refine ⟨?_, ?_⟩
    · intro id y h
      cases h
    · intro a b h
      obtain ⟨y, hy⟩ := h.mem_ret
      cases hy

/-- Two operations of the same request in the agreed sequence are the same. -/
theorem KvInv.eq_of_request (hi : KvInv c g) {op op' : Op} (hop : Known c.history op)
    (hop' : Known c.history op') (hreq : op.request = op'.request) : op = op' := by
  obtain ⟨client, r, input, hmem, rfl⟩ := hop
  obtain ⟨client', r', input', hmem', rfl⟩ := hop'
  rw [args_op_request, args_op_request] at hreq
  obtain ⟨rfl, rfl⟩ := Prod.mk.inj hreq
  rw [hi.history.call_unique hmem hmem']

/-- **The agreed sequence is disciplined**: a Clerk sends a request only after the earlier
ones have been answered, and thus are in the sequence. -/
theorem KvInv.disciplined (hi : KvInv c g) : Disciplined c.agreed where
  same := fun op hop op' hop' hreq =>
    hi.eq_of_request (hi.ops.agreed op hop) (hi.ops.agreed op' hop') hreq
  ordered := by
    intro i j op op' hfirst hfirst' hclient hlt
    obtain ⟨client, r, input, hmem, rfl⟩ := hi.ops.agreed op (List.mem_of_getElem? hfirst.1)
    obtain ⟨client', r', input', hmem', rfl⟩ := hi.ops.agreed op' (List.mem_of_getElem? hfirst'.1)
    have hr : (input.args client r).op.requestId = r := congrArg Prod.snd (args_op_request _ _ _)
    have hr' : (input'.args client' r').op.requestId = r' :=
      congrArg Prod.snd (args_op_request _ _ _)
    have hc : (input.args client r).op.clientId = client :=
      congrArg Prod.fst (args_op_request _ _ _)
    have hc' : (input'.args client' r').op.clientId = client' :=
      congrArg Prod.fst (args_op_request _ _ _)
    obtain rfl : client = client' := hc.symm.trans (hclient.trans hc')
    have hprec := hi.history.sequential hmem' ((hi.clerks client).call_le hmem).1 (by omega)
    obtain ⟨y, hy⟩ := hprec.mem_ret
    obtain ⟨o, -, hreq, hans⟩ := hi.answers.answer hy
    have hbefore := hans.first_lt hfirst ((args_op_request _ _ _).trans hreq.symm)
    have hbehind := hi.answers.order hprec hfirst'.1 (args_op_request _ _ _)
    omega

/-! ## Every move keeps the invariant -/

/-- One Clerk moves. -/
theorem forall_setClerk {client : ℕ} {ck : Clerk n} {calls : List (Rpc n)} {history : List KvEvent}
    (hck : ClerkOk client ck calls history)
    (hother : ∀ client' ≠ client, ClerkOk client' (c.clerks client') calls history) (client' : ℕ) :
    ClerkOk client' (Function.update c.clerks client ck client') calls history :=
  (Function.forall_update_iff c.clerks (fun client' ck => ClerkOk client' ck calls history)).mpr
    ⟨hck, hother⟩ client'

/-- A client calls its Clerk. -/
theorem KvInv.invoke (hi : KvInv c g) {client : ℕ} (input : KvInput)
    (hidle : (c.clerks client).loop = none) : KvInv (c.invoked client input) g := by
  have hck := hi.clerks client
  have hfresh : ∀ x, .call (client, (c.clerks client).lastRequestId + 1) x ∉ c.history :=
    fun x => hck.fresh hidle
  refine ⟨?_, ?_, hi.ops.history_append _, hi.servers, hi.replies, ?_⟩
  · exact forall_setClerk (hck.invoked input) fun client' hne =>
      (hi.clerks client').other (Ne.symm hne)
  · exact hi.history.call input hfresh fun r' hpos hlt => hck.returned hpos (by omega)
  · refine hi.answers.call input fun op hop hreq => ?_
    obtain ⟨client', r, input', hmem, rfl⟩ := hi.ops.agreed op hop
    rw [args_op_request] at hreq
    rw [hreq] at hmem
    exact hfresh input' hmem

/-- The loop of a Clerk sends its request. -/
theorem KvInv.call (hi : KvInv c g) {client : ℕ} {input : KvInput} {requestId : ℕ}
    (hloop : (c.clerks client).loop = some ⟨input, requestId, none⟩) :
    KvInv (c.called client input requestId) g := by
  obtain ⟨-, hmem, -⟩ := (hi.clerks client).loop hloop
  refine ⟨?_, hi.history, ?_, hi.servers.calls_append _, hi.replies.calls_append _, hi.answers⟩
  · refine forall_setClerk ?_ fun client' _ => (hi.clerks client').calls_append _
    apply ((hi.clerks client).calls_append _).recalled hloop
    intro m hm
    refine ⟨(c.clerks client).leaderId, ?_⟩
    obtain rfl : c.calls.length = m := Option.some.inj hm
    show (c.calls ++ [_])[c.calls.length]? = _
    rw [List.getElem?_append_right le_rfl, Nat.sub_self]
    rfl
  · refine ⟨?_, hi.ops.start, hi.ops.agreed⟩
    intro m rpc hm
    rcases Nat.lt_or_ge m c.calls.length with hlt | hge
    · have hold : (c.calls ++ [_])[m]? = some rpc := hm
      rw [List.getElem?_append_left hlt] at hold
      exact hi.ops.call hold
    · have hnew : (c.calls ++ [_])[m]? = some rpc := hm
      rw [List.getElem?_append_right hge] at hnew
      obtain rfl := List.mem_singleton.mp (List.mem_of_getElem? hnew)
      exact ⟨client, requestId, input, hmem, rfl⟩

/-- The loop of a Clerk goes on to the next server. -/
theorem KvInv.retry (hi : KvInv c g) {client : ℕ} {input : KvInput} {requestId m : ℕ}
    (hloop : (c.clerks client).loop = some ⟨input, requestId, some m⟩) :
    KvInv (c.retried client input requestId) g := by
  refine ⟨?_, hi.history, hi.ops, hi.servers, hi.replies, hi.answers⟩
  refine forall_setClerk ?_ fun client' _ => hi.clerks client'
  apply (hi.clerks client).recalled hloop
  intro m' hm'
  cases hm'

/-- **A Clerk returns an answer to its client.** -/
theorem KvInv.finish (hi : KvInv c g) {client : ℕ} {input : KvInput} {requestId m : ℕ}
    {reply : Reply} (hloop : (c.clerks client).loop = some ⟨input, requestId, some m⟩)
    (hreply : (m, reply) ∈ c.replies) (hleader : reply.isWrongLeader = false) :
    ∃ p, KvInv (c.returned client requestId reply.output)
      (Function.update g (client, requestId) p) := by
  have hck := hi.clerks client
  obtain ⟨hid, hmem, hcall⟩ := hck.loop hloop
  obtain ⟨server, hserver⟩ := hcall m rfl
  obtain ⟨rpc, p, hrpc, hans⟩ := hi.replies _ _ hreply hleader
  rw [hserver] at hrpc
  obtain rfl := Option.some.inj hrpc
  have hfresh : ∀ y, .ret (client, requestId) y ∉ c.history := by
    intro y hy
    have hle := hck.ret_le hy
    have hid' : requestId = (c.clerks client).lastRequestId + 1 := hid
    omega
  refine ⟨p, ?_, hi.history.ret _ hfresh, hi.ops.history_append _, hi.servers, hi.replies, ?_⟩
  · exact forall_setClerk (hck.answered hloop _) fun client' hne =>
      (hi.clerks client').other (Ne.symm hne)
  · exact hi.answers.ret hfresh (hi.ops.known hserver) (args_op_request _ _ _) hans

/-- What a handler that runs on an incarnation can answer with its state: the answer of
the object at the position the incarnation has reached. -/
theorem KvInv.answered (hi : KvInv c g) {k : ℕ} {h : Handler n} (hk : c.handlers[k]? = some h)
    (hseen : Seen (c.agreed.take (c.home h).received) h.args.op.notification) :
    ∃ rpc, c.calls[h.rpc]? = some rpc ∧ rpc.args = h.args ∧
      Answered c.agreed rpc.args.op (h.args.op.answer (c.home h).kv.db) (c.home h).received := by
  obtain ⟨server, hcall⟩ := (hi.servers.handler h (List.mem_of_getElem? hk)).call
  have hserver := hi.servers.server (h.server, h.epoch)
  refine ⟨_, hcall, rfl, hserver.received, ?_, ?_⟩
  · obtain ⟨op, hop, heq⟩ := hseen
    exact ⟨op, hop, congrArg (fun x : Notification => (x.clientId, x.requestId)) heq⟩
  · have hdb : (c.home h).kv.db = kvState (c.agreed.take (c.home h).received) :=
      hserver.replayed.db
    rw [hdb]

/-- A critical section of a handler on its server that keeps what the server has
executed. -/
theorem KvInv.setHome (hi : KvInv c g) {h : Handler n} {kv : KVServer}
    (hrep : Replayed kv (c.agreed.take (c.home h).received))
    (hnot : Notifies kv (Seen (c.agreed.take (c.home h).received))) :
    KvInv (c.setHome h kv) g :=
  ⟨hi.clerks, hi.history, hi.ops,
    hi.servers.setServer ⟨(hi.servers.server (h.server, h.epoch)).received, hrep, hnot⟩ le_rfl,
    hi.replies, hi.answers⟩

/-- The incarnation of a handler has received the same after such a section. -/
theorem setHome_received (c : KvService n) (h : Handler n) (kv : KVServer) :
    ((c.setHome h kv).home h).received = (c.home h).received := by
  show (Function.update c.servers (h.server, h.epoch) _ (h.server, h.epoch)).received = _
  rw [Function.update_self]

/-- The second critical section of `waitApplying`. -/
theorem KvInv.unregister (hi : KvInv c g) (h : Handler n) (index : ℕ) :
    KvInv (c.setHome h ((c.home h).kv.unregister index)) g :=
  hi.setHome ((hi.servers.server (h.server, h.epoch)).replayed.unregister index)
    ((hi.servers.server (h.server, h.epoch)).notifies.unregister index)

/-- A handler moves on. -/
theorem KvInv.setPc (hi : KvInv c g) {k : ℕ} {h : Handler n} (hk : c.handlers[k]? = some h)
    {pc : HandlerPc} (hpc : pc.Ok (c.agreed.take (c.home h).received) h.args.op) :
    KvInv (c.setPc k h pc) g :=
  ⟨hi.clerks, hi.history, hi.ops, hi.servers.setPc hk hpc, hi.replies, hi.answers⟩

/-- A handler returns. -/
theorem KvInv.reply (hi : KvInv c g) {k : ℕ} {h : Handler n} (hk : c.handlers[k]? = some h)
    {r : Reply} (hr : r.isWrongLeader = false → ∃ rpc p,
      c.calls[h.rpc]? = some rpc ∧ Answered c.agreed rpc.args.op r.output p) :
    KvInv (c.reply k h r) g :=
  ⟨hi.clerks, hi.history, hi.ops, hi.servers.setPc hk trivial, hi.replies.reply hr, hi.answers⟩

/-- A handler returns with `WrongLeader`. -/
theorem KvInv.refuse (hi : KvInv c g) {k : ℕ} {h : Handler n} (hk : c.handlers[k]? = some h) :
    KvInv (c.reply k h h.args.wrongLeader) g := by
  refine hi.reply hk fun hleader => ?_
  rw [wrongLeader_isWrongLeader] at hleader
  cases hleader

/-- A call of `Start`. -/
theorem KvInv.start (hi : KvInv c g) {k : ℕ} {h : Handler n} (hk : c.handlers[k]? = some h) :
    KvInv { c with starts := c.starts ++ [h.args.op] } g := by
  refine ⟨hi.clerks, hi.history, ⟨hi.ops.call, ?_, hi.ops.agreed⟩, hi.servers, hi.replies,
    hi.answers⟩
  intro op hop
  rcases List.mem_append.mp hop with hold | hnew
  · exact hi.ops.start op hold
  · obtain rfl := List.mem_singleton.mp hnew
    obtain ⟨server, hcall⟩ := (hi.servers.handler h (List.mem_of_getElem? hk)).call
    exact hi.ops.known hcall

/-- An operation of the pool is agreed on. -/
theorem KvInv.agree (hi : KvInv c g) {k : ℕ} {op : Op} (hk : c.starts[k]? = some op) :
    KvInv { c with starts := c.starts.eraseIdx k, agreed := c.agreed ++ [op] } g := by
  refine ⟨hi.clerks, hi.history, ⟨hi.ops.call, ?_, ?_⟩, hi.servers.append _, hi.replies.append _,
    hi.answers.append op⟩
  · intro op' hop'
    exact hi.ops.start op' (List.mem_of_mem_eraseIdx hop')
  · intro op' hop'
    rcases List.mem_append.mp hop' with hold | hnew
    · exact hi.ops.agreed op' hold
    · rw [List.mem_singleton.mp hnew]
      exact hi.ops.start op (List.mem_of_getElem? hk)

/-- A write that a client asked for is not a `Get`. -/
theorem OpsInv.answer_putAppend (hi : OpsInv c.calls c.starts c.agreed c.history) {m : ℕ}
    {rpc : Rpc n} {args : PutAppendArgs} (hm : c.calls[m]? = some rpc)
    (hargs : rpc.args = .putAppend args) (db : Db) : rpc.args.op.answer db = none := by
  obtain ⟨client, r, input, -, heq⟩ := hi.call hm
  rw [heq]
  cases input with
  | get key =>
      rw [hargs] at heq
      cases heq
  | put key value => rfl
  | append key value => rfl

/-- **Every step keeps the invariant**; only the answer to a client gets a position. -/
theorem KvInv.step (hi : KvInv c g) {a : KvAction n} (hstep : c.step a = some c') :
    ∃ g', KvInv c' g' := by
  have hmove := step_kvMove hstep
  cases hmove with
  | invoke client input hidle => exact ⟨g, hi.invoke input hidle⟩
  | call client input requestId hloop => exact ⟨g, hi.call hloop⟩
  | fail client input requestId m hloop => exact ⟨g, hi.retry hloop⟩
  | retry client k input requestId m hloop => exact ⟨g, hi.retry hloop⟩
  | finish client k input requestId m reply hloop hreply hleader =>
      obtain ⟨p, hp⟩ := hi.finish hloop hreply hleader
      exact ⟨_, hp⟩
  | request m rpc hm =>
      exact ⟨g, hi.clerks, hi.history, hi.ops, hi.servers.request hm _, hi.replies, hi.answers⟩
  | start k h index isLeader hk => exact ⟨g, (hi.start hk).setPc hk trivial⟩
  | startRefuse k h index isLeader hk => exact ⟨g, (hi.start hk).refuse hk⟩
  | register k h index hk =>
      have hserver := hi.servers.server (h.server, h.epoch)
      have hhome := hi.setHome (hserver.replayed.register index) (hserver.notifies.register index)
      exact ⟨g, hhome.setPc hk trivial⟩
  | receive k h index ch kv notification hk hkv =>
      have hserver := hi.servers.server (h.server, h.epoch)
      obtain ⟨hnot, hseen⟩ := hserver.notifies.receive hkv
      refine ⟨g, (hi.setHome (hserver.replayed.receive hkv) hnot).setPc hk ?_⟩
      rw [setHome_received]
      exact hseen
  | timeout k h hk => exact ⟨g, hi.refuse hk⟩
  | mismatch k h index hk => exact ⟨g, (hi.unregister h index).refuse hk⟩
  | matchGet k h index hk hpc =>
      refine ⟨g, (hi.unregister h index).setPc hk ?_⟩
      have hseen := (hi.servers.handler h (List.mem_of_getElem? hk)).pc
      rw [hpc] at hseen
      rw [setHome_received]
      exact hseen
  | matchPutAppend k h index args hk hargs hpc =>
      refine ⟨g, (hi.unregister h index).reply hk fun _ => ?_⟩
      have hseen := (hi.servers.handler h (List.mem_of_getElem? hk)).pc
      rw [hpc] at hseen
      obtain ⟨rpc, hcall, hrpc, hans⟩ := hi.answered hk hseen
      refine ⟨rpc, (c.home h).received, hcall, ?_⟩
      rw [← hrpc, OpsInv.answer_putAppend hi.ops hcall (hrpc.trans hargs)] at hans
      exact hans
  | read k h args err hk hargs hpc =>
      refine ⟨g, hi.reply hk fun _ => ?_⟩
      have hseen := (hi.servers.handler h (List.mem_of_getElem? hk)).pc
      rw [hpc] at hseen
      obtain ⟨rpc, hcall, hrpc, hans⟩ := hi.answered hk hseen
      refine ⟨rpc, (c.home h).received, hcall, ?_⟩
      have hvalue : h.args.op.answer (c.home h).kv.db
          = some (((c.home h).kv.db args.key).getD "") := by
        rw [hargs]
        rfl
      rw [hvalue] at hans
      exact hans
  | agree k op hk => exact ⟨g, hi.agree hk⟩
  | apply server epoch op hop =>
      refine ⟨g, hi.clerks, hi.history, hi.ops, ?_, hi.replies, hi.answers⟩
      exact hi.servers.setServer
        ((hi.servers.server (server, epoch)).applyMsg hi.disciplined hop) (Nat.le_succ _)
  | notify server epoch kv hkv =>
      refine ⟨g, hi.clerks, hi.history, hi.ops, ?_, hi.replies, hi.answers⟩
      have hserver := hi.servers.server (server, epoch)
      exact hi.servers.setServer ⟨hserver.received, hserver.replayed.notify hkv,
        hserver.notifies.notify hkv⟩ le_rfl
  | restart server =>
      exact ⟨g, hi.clerks, hi.history, hi.ops, hi.servers, hi.replies, hi.answers⟩

end KvService

end Mit6824
