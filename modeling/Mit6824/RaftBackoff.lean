/-
# The conflict back-off finds the end of the common prefix

A leader whose request is rejected moves `nextIndex` back and tries again.  The
follower answers with the first index of its entries of the conflicting term, the
leader overrides it by the end of its own entries of that term, and a log that is too
short answers with its length.

`exchange` is one round of this: the request of `broadcastHeartbeat`, `AppendEntries`
on the follower and the handler of the reply.  On two logs of the usual shape
(`WellTermed`, `Raft.Agree`) every rejection moves `nextIndex` strictly back and never
behind the end of the common prefix (`exchange_rejected`), and at the latest there a
request is accepted; so the loop `catchUp` ends, with the leader's log at the beginning
of the follower's (`backoff_converges`).
-/
import Mit6824.RaftHandlers

namespace Mit6824

/-! ## The shape of logs -/

/-- Term `0` at index `0`, terms `≥ 1` behind it, and no term below an earlier one. -/
structure WellTermed {C : Type} (logs : List (LogEntry C)) : Prop where
  head : (logs.map LogEntry.term)[0]? = some 0
  tail : ∀ i t, (logs.map LogEntry.term)[i + 1]? = some t → 1 ≤ t
  mono : (logs.map LogEntry.term).Pairwise (· ≤ ·)

/-- Index `m` is the last one of the longest common prefix of two logs. -/
structure CommonEnd {C : Type} (L F : List (LogEntry C)) (m : ℕ) : Prop where
  left : m < L.length
  right : m < F.length
  take : L.take (m + 1) = F.take (m + 1)
  last : ∀ j, j < L.length → j < F.length → L.take (j + 1) = F.take (j + 1) → j ≤ m

section Shape

variable {C : Type} {L F : List (LogEntry C)} {m : ℕ}

/-- The terms of a log of this shape are grounded, below the largest of them. -/
theorem WellTermed.grounded (h : WellTermed F) :
    Grounded (F.map LogEntry.term) ((F.map LogEntry.term).foldr max 0) where
  head := h.head
  tail := by
    intro i t ht
    exact ⟨h.tail i t ht, List.le_max_of_le' 0 (List.mem_of_getElem? ht) le_rfl⟩

/-- Terms do not decrease with the index. -/
theorem WellTermed.term_le (h : WellTermed F) {i j : ℕ} {x y : LogEntry C} (hij : i ≤ j)
    (hx : F[i]? = some x) (hy : F[j]? = some y) : x.term ≤ y.term := by
  rcases hij.lt_or_eq with hlt | rfl
  · obtain ⟨hi, rfl⟩ := List.getElem?_eq_some_iff.mp hx
    obtain ⟨hj, rfl⟩ := List.getElem?_eq_some_iff.mp hy
    have hpair :=
      List.pairwise_iff_getElem.mp h.mono i j (by simpa using hi) (by simpa using hj) hlt
    simpa using hpair
  · rw [hx] at hy
    rw [Option.some.inj hy]

/-- Inside the common prefix the logs hold the same entries. -/
theorem CommonEnd.getElem?_eq (h : CommonEnd L F m) {i : ℕ} (hi : i ≤ m) : L[i]? = F[i]? := by
  rw [← List.getElem?_take_of_lt (show i < m + 1 by omega), h.take,
    List.getElem?_take_of_lt (by omega)]

/-- Two logs of the usual shape share at least the entry at index `0`. -/
theorem exists_commonEnd (hL : WellTermed L) (hF : WellTermed F) (h : Raft.Agree F L) :
    ∃ m, CommonEnd L F m := by
  classical
  have hzero : ∀ {l : List (LogEntry C)}, WellTermed l → ∃ e, l[0]? = some e ∧ e.term = 0 :=
    fun hl => Option.map_eq_some_iff.mp ((List.getElem?_map ..).symm.trans hl.head)
  obtain ⟨x, hx, hx0⟩ := hzero hL
  obtain ⟨y, hy, hy0⟩ := hzero hF
  -- the last index up to which the logs agree
  let P : ℕ → Prop := fun j => j < L.length ∧ j < F.length ∧ L.take (j + 1) = F.take (j + 1)
  have hP : P 0 := ⟨(List.getElem?_eq_some_iff.mp hx).1, (List.getElem?_eq_some_iff.mp hy).1,
    (h 0 y x hy hx (hy0.trans hx0.symm)).symm⟩
  obtain ⟨h1, h2, h3⟩ := Nat.findGreatest_spec (P := P) (Nat.zero_le L.length) hP
  exact ⟨_, h1, h2, h3, fun j hj hj' htake =>
    Nat.le_findGreatest (P := P) hj.le ⟨hj, hj', htake⟩⟩

end Shape

/-! ## What the two searches find -/

namespace Raft

variable {n : ℕ} {C : Type} {me server : Fin n}

/-- The backward loop of `AppendEntries` passes entries of the conflicting term only. -/
theorem conflictScan_block {logs : List (LogEntry C)} {t i j : ℕ}
    (h : conflictScan logs t i = some j) :
    ∀ k, j ≤ k → k < i → ∃ e, logs[k]? = some e ∧ e.term = t := by
  induction i with
  | zero =>
      intro k _ hk
      omega
  | succ i ih =>
      intro k hjk hk
      rw [conflictScan] at h
      rcases he : logs[i]? with _ | e
      · simp [he] at h
      · simp only [he] at h
        split_ifs at h with hterm
        · rcases Nat.lt_succ_iff_lt_or_eq.mp hk with hlt | rfl
          · exact ih h k hjk hlt
          · exact ⟨e, he, hterm⟩
        · obtain rfl := Option.some.inj h
          omega

/-- The leader's search stops behind its last entry of the conflicting term. -/
theorem conflictSearch_found {logs : List (LogEntry C)} {t : ℤ} {i j : ℕ}
    (h : conflictSearch logs t i = some (some j)) :
    (∃ e, logs[j - 1]? = some e ∧ (e.term : ℤ) = t) ∧
      ∀ k e, j ≤ k → k < i → logs[k]? = some e → (e.term : ℤ) ≠ t := by
  induction i with
  | zero => simp [conflictSearch] at h
  | succ i ih =>
      rw [conflictSearch] at h
      rcases he : logs[i]? with _ | e
      · simp [he] at h
      · simp only [he] at h
        split_ifs at h with hterm
        · obtain rfl : i + 1 = j := by simpa using h
          exact ⟨⟨e, he, hterm⟩, fun k e hk hk' => by omega⟩
        · obtain ⟨hfound, hafter⟩ := ih h
          refine ⟨hfound, fun k e' hjk hk he' => ?_⟩
          rcases Nat.lt_succ_iff_lt_or_eq.mp hk with hlt | rfl
          · exact hafter k e' hjk hlt he'
          · rw [he] at he'
            rwa [← Option.some.inj he']

/-- The leader's search comes back empty when it has no entry of that term. -/
theorem conflictSearch_absent {logs : List (LogEntry C)} {t : ℤ} {i : ℕ}
    (h : conflictSearch logs t i = some none) :
    ∀ k e, k < i → logs[k]? = some e → (e.term : ℤ) ≠ t := by
  induction i with
  | zero =>
      intro k e hk
      omega
  | succ i ih =>
      intro k e hk he
      rw [conflictSearch] at h
      rcases hi : logs[i]? with _ | x
      · simp [hi] at h
      · simp only [hi] at h
        split_ifs at h with hterm
        · simp at h
        · rcases Nat.lt_succ_iff_lt_or_eq.mp hk with hlt | rfl
          · exact ih h k e hlt he
          · rw [hi] at he
            rwa [← Option.some.inj he]

/-! ## Rounds -/

/-- One round between a leader and a follower: the request of `broadcastHeartbeat`, the
answer of `AppendEntries` and the handler of the reply.  The flag says whether the
request was accepted; `none` stands for a panic on either side, or for a server that
is not leader. -/
def exchange (rf : Raft C me) (fl : Raft C server) :
    Option (Raft C me × Raft C server × Bool) :=
  match rf.heartbeatRequest server with
  | .ok (rf, [.appendEntries _ _ k _ args]) =>
      match fl.appendEntries args with
      | .ok (fl, reply) =>
          match (rf.callDone k ⟨server, args, true⟩).appendReply server args reply with
          | .ok rf => some (rf, fl, reply.success)
          | .error _ => none
      | .error _ => none
  | _ => none

/-- Rounds until a request is accepted, at most `k` of them. -/
def catchUp : ℕ → Raft C me → Raft C server → Option (Raft C me × Raft C server)
  | 0, _, _ => none
  | k + 1, rf, fl =>
      match exchange rf fl with
      | none => none
      | some (rf, fl, true) => some (rf, fl)
      | some (rf, fl, false) => catchUp k rf fl

/-- A leader with log `L` and a follower of no newer term with log `F`. -/
structure Facing (rf : Raft C me) (fl : Raft C server) (L F : List (LogEntry C)) : Prop where
  leader : rf.state = .leader
  left : rf.logs = L
  right : fl.logs = F
  term : fl.currentTerm ≤ rf.currentTerm

variable {rf : Raft C me} {fl : Raft C server} {L F : List (LogEntry C)} {m p : ℕ}
  {prev : LogEntry C}

/-- The leader while the call of its request is under way. -/
def calling (rf : Raft C me) (server : Fin n) (args : AppendEntriesArgs n C) : Raft C me :=
  (rf.called server args).callDone rf.appends.length ⟨server, args, true⟩

/-- A round is the answer of the follower and the handler of that answer. -/
theorem exchange_eq (hlead : rf.state = .leader) (hnext : rf.nextIndex server = p + 1)
    (hprev : rf.logs[p]? = some prev) {fl' : Raft C server} {reply : AppendEntriesReply}
    (hreply : fl.appendEntries (rf.appendArgs p prev) = .ok (fl', reply)) {rf' : Raft C me}
    (hrf : (rf.calling server (rf.appendArgs p prev)).appendReply server
      (rf.appendArgs p prev) reply = .ok rf') :
    exchange rf fl = some (rf', fl', reply.success) := by
  have hsend : rf.heartbeatRequest server = .ok (rf.called server (rf.appendArgs p prev),
      [.appendEntries me rf.epoch rf.appends.length server (rf.appendArgs p prev)]) := by
    unfold heartbeatRequest
    rw [if_neg (by simpa using hlead), hnext]
    dsimp only
    rw [hprev]
  unfold exchange
  rw [hsend]
  dsimp only
  rw [hreply]
  dsimp only
  have hrf' : ((rf.called server (rf.appendArgs p prev)).callDone rf.appends.length
      ⟨server, rf.appendArgs p prev, true⟩).appendReply server (rf.appendArgs p prev) reply
        = .ok rf' := hrf
  rw [hrf']

/-- The handler of a rejection in the leader's own term that names no conflicting
term. -/
theorem appendReply_short (rf : Raft C me) (server : Fin n) (args : AppendEntriesArgs n C)
    {t i : ℕ} (ht : t ≤ rf.currentTerm) :
    rf.appendReply server args { term := t, conflictTerm := -1, conflictIndex := i }
      = .ok { rf with nextIndex := Function.update rf.nextIndex server i } := by
  unfold appendReply
  rw [if_neg (by simp), if_neg (not_lt.mpr ht)]
  rfl

/-- The handler of a rejection in the leader's own term that names a conflicting
term. -/
theorem appendReply_conflict (rf : Raft C me) (server : Fin n) (args : AppendEntriesArgs n C)
    {t u i : ℕ} (ht : t ≤ rf.currentTerm) {found : Option ℕ}
    (hsearch : conflictSearch rf.logs (u : ℤ) args.prevLogIndex = some found) :
    rf.appendReply server args { term := t, conflictTerm := u, conflictIndex := i }
      = .ok { rf with nextIndex := Function.update rf.nextIndex server (found.getD i) } := by
  have hu : (u : ℤ) ≠ -1 := by omega
  unfold appendReply
  rw [if_neg (by simp), if_neg (not_lt.mpr ht)]
  dsimp only
  rw [if_neg hu, hsearch]
  rcases found with _ | j
  · rfl
  · dsimp only
    rw [Function.update_idem]
    rfl

/-- **An accepted round** leaves the leader's log at the beginning of the follower's. -/
theorem exchange_accepted (h : Facing rf fl L F) (hagree : Agree F L)
    (hnext : rf.nextIndex server = p + 1) (hL : L[p]? = some prev) {e : LogEntry C}
    (hF : F[p]? = some e) (hterm : e.term = prev.term) :
    ∃ rf' fl', exchange rf fl = some (rf', fl', true) ∧ L <+: fl'.logs := by
  have hprev : rf.logs[p]? = some prev := by rw [h.left, hL]
  have hmatch : Matches fl.logs p prev := by
    unfold Matches
    rw [h.right, hF, Option.map_some, hterm]
  have hagree' : Agree fl.logs L := by
    rw [h.right]
    exact hagree
  have hentries : L.drop (p + 1) = (rf.appendArgs p prev).entries := by
    rw [← h.left]
    rfl
  have hcases : (L <+: fl.logs ∧ mergeLogs fl.logs (rf.appendArgs p prev) = fl.logs) ∨
      (¬ L <+: fl.logs ∧ mergeLogs fl.logs (rf.appendArgs p prev) = L) :=
    mergeLogs_cases hagree' hL hmatch hentries
  refine ⟨_, fl.accepted (rf.appendArgs p prev), exchange_eq h.leader hnext hprev
    (appendEntries_eq h.term (by rw [h.right]; exact hF) hterm) (appendReply_of_success rfl), ?_⟩
  rw [(accepted_core fl _).2.2.2.2.2]
  rcases hcases with ⟨hpre, hmerge⟩ | ⟨-, hmerge⟩
  · rw [hmerge]
    exact hpre
  · rw [hmerge]

/-- The state of the two servers after a rejected round. -/
theorem Facing.rejected (h : Facing rf fl L F) (args : AppendEntriesArgs n C)
    (next : Fin n → ℕ) :
    Facing ({ rf.calling server args with nextIndex := next } : Raft C me)
      (fl.observeTerm rf.currentTerm).persist L F where
  leader := h.leader
  left := h.left
  right := by rw [persist_logs, observeTerm_logs, h.right]
  term := by
    rw [persist_currentTerm, observeTerm_currentTerm, max_eq_right h.term]
    exact le_rfl

/-- Where the leader backs off to when the follower has another term at index `p`: behind the
common prefix, and not behind `p`. -/
theorem conflict_bounds {e : LogEntry C} {i : ℕ} {found : Option ℕ} (hF : WellTermed F)
    (hm : CommonEnd L F m) (hmp : m < p) (hFp : F[p]? = some e)
    (hscan : conflictScan F e.term p = some i) (hip : i ≤ p)
    (hsearch : conflictSearch L (e.term : ℤ) p = some found) :
    m + 1 ≤ found.getD i ∧ found.getD i ≤ p := by
  rcases found with _ | j
  · -- the follower's block begins behind the prefix, else the leader had the term
    refine ⟨?_, hip⟩
    by_contra hlt
    have him : i ≤ m := by
      have : ¬ m + 1 ≤ i := hlt
      omega
    obtain ⟨x, hx, hxterm⟩ := conflictScan_block hscan i le_rfl (by show i < p; omega)
    rw [← hm.getElem?_eq him] at hx
    exact conflictSearch_absent hsearch i x (by omega) hx (by rw [hxterm])
  · obtain ⟨hj1, hjp⟩ := conflictSearch_bounds hsearch
    obtain ⟨⟨x, hx, hxterm⟩, hafter⟩ := conflictSearch_found hsearch
    refine ⟨?_, hjp⟩
    by_contra hlt
    have hjm : j ≤ m := by
      have : ¬ m + 1 ≤ j := hlt
      omega
    -- the entry at the end of the prefix lies between two of the conflicting term
    obtain ⟨y, hy⟩ : ∃ y, L[m]? = some y := ⟨_, List.getElem?_eq_getElem hm.left⟩
    have hyF : F[m]? = some y := by rw [← hm.getElem?_eq le_rfl, hy]
    have hlow := hF.term_le (show j - 1 ≤ m by omega)
      (by rw [← hm.getElem?_eq (by omega)]; exact hx) hyF
    have hhigh := hF.term_le hmp.le hyF hFp
    have hxe : x.term = e.term := Int.ofNat_inj.mp hxterm
    exact hafter m y hjm hmp hy (by rw [show y.term = e.term by omega])

/-- **A rejected round** moves `nextIndex` strictly back, and not behind the end of the
common prefix. -/
theorem exchange_rejected (h : Facing rf fl L F) (hL : WellTermed L) (hF : WellTermed F)
    (hm : CommonEnd L F m) (hnext : rf.nextIndex server = p + 1) (hp : L[p]? = some prev)
    (hreject : ∀ e, F[p]? = some e → e.term ≠ prev.term) :
    ∃ rf' fl', exchange rf fl = some (rf', fl', false) ∧ Facing rf' fl' L F ∧
      m + 1 ≤ rf'.nextIndex server ∧ rf'.nextIndex server < rf.nextIndex server := by
  have hprev : rf.logs[p]? = some prev := by rw [h.left, hp]
  have hupdate : ∀ i, Function.update rf.nextIndex server i server = i :=
    fun i => Function.update_self ..
  -- a mismatch lies behind the common prefix
  have hmp : m < p := by
    by_contra hle
    exact hreject prev (by rw [← hm.getElem?_eq (not_lt.mp hle), hp]) rfl
  rcases hFp : F[p]? with _ | e
  · -- the follower's log is too short
    have hshort := List.getElem?_eq_none_iff.mp hFp
    have hright := hm.right
    refine ⟨_, _, exchange_eq h.leader hnext hprev
      (appendEntries_of_short h.term (by rw [h.right]; exact hFp))
      (appendReply_short _ server _ le_rfl), h.rejected _ _, ?_⟩
    show m + 1 ≤ Function.update rf.nextIndex server fl.logs.length server ∧
      Function.update rf.nextIndex server fl.logs.length server < _
    rw [hupdate, h.right, hnext]
    omega
  · have hterm := hreject e hFp
    have hzero : prev.term = 0 ↔ p = 0 :=
      hL.grounded.eq_zero_iff (by rw [List.getElem?_map, hp]; rfl)
    have hground := hF.grounded
    rw [← h.right] at hground hFp
    obtain ⟨-, i, hscan, -, hip⟩ : 1 ≤ e.term ∧ ∃ i,
        conflictScan fl.logs e.term (rf.appendArgs p prev).prevLogIndex = some i ∧ 1 ≤ i ∧ i ≤ p :=
      exists_conflict hground hzero hFp hterm
    have hlen : p ≤ (rf.calling server (rf.appendArgs p prev)).logs.length := by
      obtain ⟨hlt, -⟩ := List.getElem?_eq_some_iff.mp hprev
      exact hlt.le
    obtain ⟨found, hfound⟩ := Option.ne_none_iff_exists'.mp
      (conflictSearch_ne_none (e.term : ℤ) hlen)
    have hsearch : conflictSearch L (e.term : ℤ) p = some found := by
      rw [← h.left]
      exact hfound
    refine ⟨_, _, exchange_eq h.leader hnext hprev
      (appendEntries_of_conflict h.term hFp hterm hscan)
      (appendReply_conflict _ server _ le_rfl hfound), h.rejected _ _, ?_⟩
    show m + 1 ≤ Function.update rf.nextIndex server (found.getD i) server ∧
      Function.update rf.nextIndex server (found.getD i) server < _
    rw [hupdate, hnext]
    rw [h.right] at hscan hFp
    obtain ⟨hlow, hhigh⟩ := conflict_bounds hF hm hmp hFp hscan hip hsearch
    exact ⟨hlow, Nat.lt_succ_of_le hhigh⟩

/-- **The back-off converges and never overshoots.**  A leader with log `L` faces a
follower with log `F`, and `nextIndex` for it is anywhere between `1` and the length of
`L`.  With `m` the last index of the longest common prefix: a round is either accepted,
and then `L` is at the beginning of the follower's log, or it is rejected, and then the
logs are as they were and the new `nextIndex` is at least `m + 1` and smaller than
before; and after finitely many rounds a request is accepted. -/
theorem backoff_converges (hL : WellTermed L) (hF : WellTermed F) (hagree : Agree F L) :
    ∃ m, CommonEnd L F m ∧
      (∀ (rf : Raft C me) (fl : Raft C server), Facing rf fl L F →
        1 ≤ rf.nextIndex server → rf.nextIndex server ≤ L.length →
        (∃ rf' fl' ok, exchange rf fl = some (rf', fl', ok) ∧
          (ok = true → L <+: fl'.logs) ∧
          (ok = false → Facing rf' fl' L F ∧ m + 1 ≤ rf'.nextIndex server ∧
            rf'.nextIndex server < rf.nextIndex server)) ∧
        ∃ k rf' fl', catchUp k rf fl = some (rf', fl') ∧ L <+: fl'.logs) := by
  obtain ⟨m, hm⟩ := exists_commonEnd hL hF hagree
  have hround : ∀ (rf : Raft C me) (fl : Raft C server), Facing rf fl L F →
      1 ≤ rf.nextIndex server → rf.nextIndex server ≤ L.length →
      ∃ rf' fl' ok, exchange rf fl = some (rf', fl', ok) ∧ (ok = true → L <+: fl'.logs) ∧
        (ok = false → Facing rf' fl' L F ∧ m + 1 ≤ rf'.nextIndex server ∧
          rf'.nextIndex server < rf.nextIndex server) := by
    intro rf fl h hlow hhigh
    obtain ⟨p, hnext⟩ : ∃ p, rf.nextIndex server = p + 1 := ⟨rf.nextIndex server - 1, by omega⟩
    have hp := List.getElem?_eq_getElem (show p < L.length by omega)
    by_cases hmatch : ∃ e, F[p]? = some e ∧ e.term = L[p].term
    · obtain ⟨e, he, hterm⟩ := hmatch
      obtain ⟨rf', fl', hex, hpre⟩ := exchange_accepted h hagree hnext hp he hterm
      exact ⟨rf', fl', true, hex, fun _ => hpre, (fun hfalse => by cases hfalse)⟩
    · push Not at hmatch
      obtain ⟨rf', fl', hex, hback⟩ := exchange_rejected h hL hF hm hnext hp hmatch
      exact ⟨rf', fl', false, hex, (fun htrue => by cases htrue), fun _ => hback⟩
  refine ⟨m, hm, fun rf fl h hlow hhigh => ⟨hround rf fl h hlow hhigh, ?_⟩⟩
  -- `nextIndex` only gets smaller, so it bounds the number of rounds
  suffices hloop : ∀ k (rf : Raft C me) (fl : Raft C server), Facing rf fl L F →
      1 ≤ rf.nextIndex server → rf.nextIndex server ≤ L.length → rf.nextIndex server ≤ k →
      ∃ rf' fl', catchUp k rf fl = some (rf', fl') ∧ L <+: fl'.logs from
    ⟨_, hloop (rf.nextIndex server) rf fl h hlow hhigh le_rfl⟩
  intro k
  induction k with
  | zero =>
      intro rf fl h hlow hhigh hk
      omega
  | succ k ih =>
      intro rf fl h hlow hhigh hk
      obtain ⟨rf', fl', ok, hex, hyes, hno⟩ := hround rf fl h hlow hhigh
      rw [catchUp, hex]
      cases ok with
      | true => exact ⟨rf', fl', rfl, hyes rfl⟩
      | false =>
          obtain ⟨hface, hback, hlt⟩ := hno rfl
          exact ih rf' fl' hface (by omega) (by omega) (by omega)

/-- A leader of term `3` in a cluster of three, about to send an empty request. -/
def divergedLeader : Raft ℕ (0 : Fin 3) :=
  { (make 0 none : Raft ℕ (0 : Fin 3)) with
    currentTerm := 3
    state := .leader
    logs := [⟨0, 0⟩, ⟨7, 1⟩, ⟨8, 1⟩, ⟨9, 3⟩, ⟨10, 3⟩]
    nextIndex := fun _ => 5 }

/-- Its follower, which has followed a leader of term `2` since index `2`. -/
def divergedFollower : Raft ℕ (1 : Fin 3) :=
  { (make 0 none : Raft ℕ (1 : Fin 3)) with
    currentTerm := 2
    logs := [⟨0, 0⟩, ⟨7, 1⟩, ⟨11, 2⟩, ⟨12, 2⟩, ⟨13, 2⟩] }

/-- The first round of these two is rejected, and some later one is accepted. -/
theorem backoff_converges_diverged :
    (∃ rf' fl', exchange divergedLeader divergedFollower = some (rf', fl', false) ∧
      2 ≤ rf'.nextIndex 1 ∧ rf'.nextIndex 1 < 5) ∧
    ∃ k rf' fl', catchUp k divergedLeader divergedFollower = some (rf', fl') ∧
      divergedLeader.logs <+: fl'.logs := by
  have hL : WellTermed divergedLeader.logs := by
    refine ⟨rfl, fun i t ht => ?_, by decide⟩
    have hmem : t ∈ [1, 1, 3, 3] := List.mem_of_getElem? (i := i) ht
    exact (show ∀ t ∈ [1, 1, 3, 3], 1 ≤ t by decide) t hmem
  have hF : WellTermed divergedFollower.logs := by
    refine ⟨rfl, fun i t ht => ?_, by decide⟩
    have hmem : t ∈ [1, 2, 2, 2] := List.mem_of_getElem? (i := i) ht
    exact (show ∀ t ∈ [1, 2, 2, 2], 1 ≤ t by decide) t hmem
  have hagree : Agree divergedFollower.logs divergedLeader.logs := by
    intro i e e' he he' hterm
    have hi : i < 5 := (List.getElem?_eq_some_iff.mp he).1
    -- only the entries at indices `0` and `1` have equal terms
    interval_cases i <;> cases he <;> cases he' <;> first | rfl | exact absurd hterm (by decide)
  have hface : Facing divergedLeader divergedFollower divergedLeader.logs divergedFollower.logs :=
    ⟨rfl, rfl, rfl, by decide⟩
  obtain ⟨m, hm, hrun⟩ := @backoff_converges 3 ℕ 0 1 _ _ hL hF hagree
  have hm1 : 1 ≤ m := hm.last 1 (by decide) (by decide) rfl
  obtain ⟨⟨rf', fl', ok, hex, hyes, hno⟩, hend⟩ :=
    hrun divergedLeader divergedFollower hface (by decide) (by decide)
  have hok : (exchange divergedLeader divergedFollower).map (fun out => out.2.2) = some false := rfl
  rw [hex] at hok
  obtain rfl : ok = false := Option.some.inj hok
  obtain ⟨-, hlow, hhigh⟩ := hno rfl
  exact ⟨⟨rf', fl', hex, by omega, hhigh⟩, hend⟩

end Raft

end Mit6824
