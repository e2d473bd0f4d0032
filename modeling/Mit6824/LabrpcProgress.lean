/-
# A call on the simulated network returns

The comment on `sendRequestVote` says of `Call`: it "is guaranteed to return (perhaps after a
delay) *except* if the handler function on the server side does not return".  This is a
statement about the goroutines of one call, among all others and under any changes of the
network: `ProcessReq` goes through its sections (`Process.rank`), and the only one at which it
can stay is the loop around `select`.  It leaves the loop when the goroutine of `dispatch` hands
it a reply, and also when it finds the server dead.

* `Scheduled`: the goroutines of the call keep running;
* `Abandoned`: the exception of the comment, and only while the server is seen alive;
* `call_returns`: the call gets its one reply, or it is abandoned.
-/
import Mit6824.Labrpc

namespace Mit6824.Labrpc

variable {E N : Type}

/-- How far `ProcessReq` is. -/
def Process.rank : Process N → ℕ
  | .accepted => 0
  | .delaying _ => 1
  | .waiting _ => 2
  | .left _ _ => 3
  | .checked _ _ => 4
  | .sending _ => 5
  | .delayed _ => 5
  | .done => 6

/-- The sections of `ProcessReq` outside of its loop. -/
def CallAction.advances : CallAction → Bool
  | .read | .start _ | .recheck | .answer _ _ | .send | .fire => true
  | _ => false

theorem eq_done_of_rank {p : Process N} (h : 6 ≤ p.rank) : p = .done := by
  cases p with
  | done => rfl
  | _ => exact absurd h (by simp [Process.rank])

section Moves

variable {rn : Network E N} {call call' : CallState E N} {a : CallAction}

/-- `ProcessReq` never goes back. -/
theorem CallMove.process_rank_le (h : CallMove rn call a call') :
    call.process.rank ≤ call'.process.rank := by
  cases h with
  | unreachable h => rw [h]; exact Nat.zero_le _
  | found t h => rw [h]; exact Nat.zero_le _
  | requestDropped t drop h => rw [h]; show 1 ≤ 5; decide
  | spawned t drop h => rw [h]; exact Nat.le_succ 1
  | received t server reply h => rw [h]; exact Nat.le_succ 2
  | foundDead t h => rw [h]; exact Nat.le_succ 2
  | failed t reply h => rw [h]; show 3 ≤ 5; decide
  | confirmed t reply h => rw [h]; exact Nat.le_succ 3
  | replyDropped t reply drop delay h => rw [h]; exact Nat.le_succ 4
  | replyDelayed t reply drop delay h => rw [h]; exact Nat.le_succ 4
  | replied t reply drop delay h => rw [h]; exact Nat.le_succ 4
  | sent msg h => rw [h]; exact Nat.le_succ 5
  | fired msg h => rw [h]; exact Nat.le_succ 5
  | _ => exact le_rfl

/-- A section outside of the loop gets it further. -/
theorem CallMove.process_rank_lt (h : CallMove rn call a call') (ha : a.advances = true) :
    call.process.rank < call'.process.rank := by
  cases h with
  | unreachable h => rw [h]; show 0 < 5; decide
  | found t h => rw [h]; exact Nat.zero_lt_one
  | requestDropped t drop h => rw [h]; show 1 < 5; decide
  | spawned t drop h => rw [h]; exact Nat.lt_succ_self 1
  | failed t reply h => rw [h]; show 3 < 5; decide
  | confirmed t reply h => rw [h]; exact Nat.lt_succ_self 3
  | replyDropped t reply drop delay h => rw [h]; exact Nat.lt_succ_self 4
  | replyDelayed t reply drop delay h => rw [h]; exact Nat.lt_succ_self 4
  | replied t reply drop delay h => rw [h]; exact Nat.lt_succ_self 4
  | sent msg h => rw [h]; exact Nat.lt_succ_self 5
  | fired msg h => rw [h]; exact Nat.lt_succ_self 5
  | _ => cases ha

/-- While `ProcessReq` waits, its target and a reply that has been returned stay. -/
theorem CallMove.waiting (h : CallMove rn call a call') {t : Target N}
    (hp : call.process = .waiting t) (hc : call.Consistent) :
    2 < call'.process.rank ∨ call'.process = .waiting t ∧ call'.req = call.req ∧
      ∀ server reply, call.dispatch = .returned server reply →
        call'.dispatch = .returned server reply := by
  simp only [CallState.Consistent, hp] at hc
  cases h with
  | unreachable h => rw [hp] at h; cases h
  | found t h => rw [hp] at h; cases h
  | requestDropped t drop h => rw [hp] at h; cases h
  | spawned t drop h => rw [hp] at h; cases h
  | dispatched server hd => exact .inr ⟨hp, rfl, fun _ _ h => by rw [hd] at h; cases h⟩
  | returned server reply hd => exact .inr ⟨hp, rfl, fun _ _ h => by rw [hd] at h; cases h⟩
  | received => exact .inl (Nat.lt_succ_self 2)
  | stillAlive => exact .inr ⟨hp, rfl, fun _ _ h => h⟩
  | foundDead => exact .inl (Nat.lt_succ_self 2)
  | drained server reply hd hdraining =>
      rw [hc.2.1] at hdraining
      cases hdraining
  | failed t reply h => rw [hp] at h; cases h
  | confirmed t reply h => rw [hp] at h; cases h
  | replyDropped t reply drop delay h => rw [hp] at h; cases h
  | replyDelayed t reply drop delay h => rw [hp] at h; cases h
  | replied t reply drop delay h => rw [hp] at h; cases h
  | sent msg h => rw [hp] at h; cases h
  | fired msg h => rw [hp] at h; cases h

end Moves

section Runs

variable [DecidableEq E] [DecidableEq N]

/-- The goroutines of call `c` keep running: `ProcessReq` goes on when it is outside of its
loop, and in the loop neither the reply nor the timer is ignored for ever. -/
structure Scheduled (r : (labrpcSystem E N).Run) (c : ℕ) : Prop where
  process : ∀ (k : ℕ) (call : CallState E N), (r.state k).calls[c]? = some call →
    (∀ t, call.process ≠ .waiting t) → call.process ≠ .done →
    ∃ j ≥ k, ∃ b, CallAction.advances b = true ∧ r.act j = some (.run c b)
  receive : r.WeaklyFair (.run c .receive)
  timeout : r.WeaklyFair (.run c .timeout)

/-- The handler of call `c` never returns, and its server is seen alive again and again. -/
def Abandoned (r : (labrpcSystem E N).Run) (c : ℕ) : Prop :=
  (∀ j reply, r.act j ≠ some (.run c (.finish reply))) ∧
    ∃ (k : ℕ) (call : CallState E N) (t : Target N), (r.state k).calls[c]? = some call ∧
      call.process = .waiting t ∧ ∀ K, ∃ j ≥ K, (r.state j).net.enabled call.req.endname = true ∧
        (r.state j).net.servers t.servername = some t.server

/-- A section of a call as a step of the system. -/
theorem step_section {s : State E N} {c n : ℕ} {call call' : CallState E N} {b : CallAction}
    (hc : s.calls[c]? = some call) (hstep : call.step s.net b = some call')
    (hserve : s.serve call b = some s.objects) (hlt : n < call'.process.rank) :
    ∃ s', (labrpcSystem E N).step s (.run c b) = some s' ∧
      ∃ call', s'.calls[c]? = some call' ∧ n < call'.process.rank := by
  refine ⟨{ s with calls := s.calls.set c call' }, ?_, call', ?_, hlt⟩
  · show State.step s (.run c b) = _
    simp only [State.step, hc, hstep, hserve, Option.bind_eq_bind, Option.bind_some]
  · exact List.getElem?_set_self (List.getElem?_eq_some_iff.mp hc).1

variable {r : (labrpcSystem E N).Run} {c k : ℕ}

/-- A call at the next moment. -/
theorem call_moment {call : CallState E N} (hc : (r.state k).calls[c]? = some call) :
    ∃ call', (r.state (k + 1)).calls[c]? = some call' ∧
      (call' = call ∨ ∃ b, r.act k = some (.run c b) ∧ CallMove (r.state k).net call b call') := by
  rcases ha : r.act k with _ | a
  · rw [r.idle k ha]
    exact ⟨call, hc, .inl rfl⟩
  · obtain ⟨call', hc', hsame | ⟨b, rfl, hmove⟩⟩ := call_after_step (r.taken k a ha) hc
    · exact ⟨call', hc', .inl hsame⟩
    · exact ⟨call', hc', .inr ⟨b, rfl, hmove⟩⟩

/-- The rank of a call at a later moment. -/
theorem process_rank_of_le {j : ℕ} (hkj : k ≤ j) {call : CallState E N}
    (hc : (r.state k).calls[c]? = some call) :
    ∃ call', (r.state j).calls[c]? = some call' ∧ call.process.rank ≤ call'.process.rank := by
  induction j, hkj using Nat.le_induction with
  | base => exact ⟨call, hc, le_rfl⟩
  | succ j hkj ih =>
      obtain ⟨call', hc', hle⟩ := ih
      obtain ⟨call'', hc'', rfl | ⟨b, -, hmove⟩⟩ := call_moment hc'
      · exact ⟨call'', hc'', hle⟩
      · exact ⟨call'', hc'', hle.trans hmove.process_rank_le⟩

/-- Until it leaves the loop, the call waits for the same server. -/
theorem waiting_of_le {j : ℕ} (hkj : k ≤ j) {call : CallState E N} {t : Target N}
    (hc : (r.state k).calls[c]? = some call) (hp : call.process = .waiting t) :
    ∃ call', (r.state j).calls[c]? = some call' ∧ (2 < call'.process.rank ∨
      call'.process = .waiting t ∧ call'.req = call.req ∧
        ∀ server reply, call.dispatch = .returned server reply →
          call'.dispatch = .returned server reply) := by
  induction j, hkj using Nat.le_induction with
  | base => exact ⟨call, hc, .inr ⟨hp, rfl, fun _ _ h => h⟩⟩
  | succ j hkj ih =>
      obtain ⟨call', hc', hcases⟩ := ih
      obtain ⟨call'', hc'', rfl | ⟨b, -, hmove⟩⟩ := call_moment hc'
      · exact ⟨call'', hc'', hcases⟩
      · refine ⟨call'', hc'', ?_⟩
        rcases hcases with hlt | ⟨hp', hreq, hret⟩
        · exact .inl (hlt.trans_le hmove.process_rank_le)
        · rcases hmove.waiting hp' (consistent_run r j c call' hc') with hlt | ⟨hp'', hreq', hret'⟩
          · exact .inl hlt
          · exact .inr ⟨hp'', hreq'.trans hreq, fun server reply h => hret' _ _ (hret _ _ h)⟩

/-- The goroutine of the call takes a section outside of the loop. -/
theorem rank_lt_of_advances {j : ℕ} {b : CallAction} (hb : b.advances = true)
    (hact : r.act j = some (.run c b)) {call : CallState E N}
    (hc : (r.state j).calls[c]? = some call) :
    ∃ call', (r.state (j + 1)).calls[c]? = some call' ∧ call.process.rank < call'.process.rank := by
  obtain ⟨old, call', hold, hmove, hcalls⟩ := run_of_step (r.taken j _ hact)
  obtain rfl : old = call := Option.some.inj (hold.symm.trans hc)
  refine ⟨call', ?_, hmove.process_rank_lt hb⟩
  rw [hcalls, List.getElem?_set_self (List.getElem?_eq_some_iff.mp hold).1]

/-- A call whose handler has returned leaves the loop. -/
theorem leaves_of_returned (hsched : Scheduled r c) {call : CallState E N} {t : Target N}
    (hc : (r.state k).calls[c]? = some call) (hp : call.process = .waiting t) {server : ℕ}
    {reply : ReplyMsg} (hd : call.dispatch = .returned server reply) :
    ∃ j ≥ k, ∃ call', (r.state j).calls[c]? = some call' ∧ 2 < call'.process.rank := by
  refine hsched.receive.leadsTo (P := fun s => ∃ call' : CallState E N, s.calls[c]? = some call' ∧
    call'.process = .waiting t ∧ call'.dispatch = .returned server reply)
    (Q := fun s => ∃ call' : CallState E N, s.calls[c]? = some call' ∧ 2 < call'.process.rank)
    ⟨call, hc, hp, hd⟩ ?_ ?_
  · rintro j - ⟨call', hc', hp', hd'⟩
    obtain ⟨call'', hc'', hlt | ⟨hp'', -, hret⟩⟩ := waiting_of_le (Nat.le_succ j) hc' hp'
    · exact .inr ⟨call'', hc'', hlt⟩
    · exact .inl ⟨call'', hc'', hp'', hret server reply hd'⟩
  · rintro j - ⟨call', hc', hp', hd'⟩
    have hreceive : call'.step (r.state j).net .receive
        = some { call' with process := .left t (some reply), dispatch := .delivered } := by
      simp only [CallState.step, hp', hd']
    exact step_section hc' hreceive rfl (Nat.lt_succ_self 2)

/-- A call whose server stays dead leaves the loop. -/
theorem leaves_of_dead (hsched : Scheduled r c) {call : CallState E N} {t : Target N}
    (hc : (r.state k).calls[c]? = some call) (hp : call.process = .waiting t)
    (hdead : ∀ j ≥ k,
      (r.state j).net.isServerDead call.req.endname t.servername t.server = true) :
    ∃ j ≥ k, ∃ call', (r.state j).calls[c]? = some call' ∧ 2 < call'.process.rank := by
  refine hsched.timeout.leadsTo (P := fun s => ∃ call' : CallState E N, s.calls[c]? = some call' ∧
    call'.process = .waiting t ∧ call'.req = call.req)
    (Q := fun s => ∃ call' : CallState E N, s.calls[c]? = some call' ∧ 2 < call'.process.rank)
    ⟨call, hc, hp, rfl⟩ ?_ ?_
  · rintro j - ⟨call', hc', hp', hreq⟩
    obtain ⟨call'', hc'', hlt | ⟨hp'', hreq', -⟩⟩ := waiting_of_le (Nat.le_succ j) hc' hp'
    · exact .inr ⟨call'', hc'', hlt⟩
    · exact .inl ⟨call'', hc'', hp'', hreq'.trans hreq⟩
  · rintro j hj ⟨call', hc', hp', hreq⟩
    have hdead' := hdead j hj
    rw [← hreq] at hdead'
    have htimeout : call'.step (r.state j).net .timeout
        = some { call' with process := .left t none, draining := true } := by
      simp only [CallState.step, hp', if_pos hdead']
    exact step_section hc' htimeout rfl (Nat.lt_succ_self 2)

/-- Once the handler has returned, its reply waits for a call that is in the loop. -/
theorem returned_of_finish {i j : ℕ} (hij : i < j) {reply : List UInt8}
    (hact : r.act i = some (.run c (.finish reply))) {call : CallState E N} {t : Target N}
    (hc : (r.state j).calls[c]? = some call) (hp : call.process = .waiting t) :
    ∃ server reply, call.dispatch = .returned server reply := by
  obtain ⟨old, new, hold, hmove, hcalls⟩ := run_of_step (r.taken i _ hact)
  have hnew : (r.state (i + 1)).calls[c]? = some new := by
    rw [hcalls, List.getElem?_set_self (List.getElem?_eq_some_iff.mp hold).1]
  have hthree : new.dispatch.rank = 3 := by
    cases hmove with
    | returned server reply hd => rfl
  obtain ⟨call', hc', hle⟩ := rank_le_of_le r hij hnew
  obtain rfl : call' = call := Option.some.inj (hc'.symm.trans hc)
  have hcons := consistent_run r j c call' hc
  simp only [CallState.Consistent, hp] at hcons
  rw [hthree] at hle
  cases hd : call'.dispatch with
  | idle => rw [hd] at hle; cases hle
  | spawned server => rw [hd] at hle; exact absurd hle (by simp [Dispatch.rank])
  | running server => rw [hd] at hle; exact absurd hle (Nat.not_succ_le_self 2)
  | returned server reply => exact ⟨server, reply, rfl⟩
  | delivered => rw [hd] at hcons; cases hcons.1

/-- A call that waits leaves the loop, unless it is abandoned. -/
theorem leaves_loop (hsched : Scheduled r c) (hnot : ¬ Abandoned r c) {call : CallState E N}
    {t : Target N} (hc : (r.state k).calls[c]? = some call) (hp : call.process = .waiting t) :
    ∃ j ≥ k, ∃ call', (r.state j).calls[c]? = some call' ∧ 2 < call'.process.rank := by
  by_cases hreturns : ∃ i reply, r.act i = some (.run c (.finish reply))
  · obtain ⟨i, reply, hi⟩ := hreturns
    obtain ⟨call', hc', hlt | ⟨hp', -⟩⟩ := waiting_of_le (le_max_left k (i + 1)) hc hp
    · exact ⟨max k (i + 1), le_max_left _ _, call', hc', hlt⟩
    · obtain ⟨server, reply, hd⟩ := returned_of_finish (le_max_right k (i + 1)) hi hc' hp'
      obtain ⟨j, hj, hleft⟩ := leaves_of_returned hsched hc' hp' hd
      exact ⟨j, (le_max_left _ _).trans hj, hleft⟩
  · -- then the server is dead from some moment on
    have hdead : ∃ K, ∀ j ≥ K,
        (r.state j).net.isServerDead call.req.endname t.servername t.server = true := by
      by_contra hne
      push Not at hne
      refine hnot ⟨fun j reply hj => hreturns ⟨j, reply, hj⟩, k, call, t, hc, hp, fun K => ?_⟩
      obtain ⟨j, hj, halive⟩ := hne K
      exact ⟨j, hj, isServerDead_eq_false (Bool.eq_false_iff.mpr halive)⟩
    obtain ⟨K, hK⟩ := hdead
    obtain ⟨call', hc', hlt | ⟨hp', hreq, -⟩⟩ := waiting_of_le (le_max_left k K) hc hp
    · exact ⟨max k K, le_max_left _ _, call', hc', hlt⟩
    · obtain ⟨j, hj, hleft⟩ := leaves_of_dead hsched hc' hp' (by
        intro j hj
        rw [hreq]
        exact hK j ((le_max_right _ _).trans hj))
      exact ⟨j, (le_max_left _ _).trans hj, hleft⟩

/-- `ProcessReq` gets further as long as it is not done, unless the call is abandoned. -/
theorem process_advances (hsched : Scheduled r c) (hnot : ¬ Abandoned r c) {call : CallState E N}
    (hc : (r.state k).calls[c]? = some call) (hdone : call.process ≠ .done) :
    ∃ j ≥ k, ∃ call', (r.state j).calls[c]? = some call' ∧
      call.process.rank < call'.process.rank := by
  by_cases hwait : ∃ t, call.process = .waiting t
  · obtain ⟨t, hp⟩ := hwait
    rw [hp]
    exact leaves_loop hsched hnot hc hp
  · obtain ⟨j, hj, b, hb, hact⟩ := hsched.process k call hc (not_exists.mp hwait) hdone
    obtain ⟨call', hc', hle⟩ := process_rank_of_le hj hc
    obtain ⟨call'', hc'', hlt⟩ := rank_lt_of_advances hb hact hc'
    exact ⟨j + 1, by omega, call'', hc'', hle.trans_lt hlt⟩

/-- A call that is accepted is done at some time, unless it is abandoned. -/
theorem eventually_done (hsched : Scheduled r c) (hnot : ¬ Abandoned r c) (n : ℕ) :
    ∀ (k : ℕ) (call : CallState E N), (r.state k).calls[c]? = some call →
      6 ≤ call.process.rank + n →
      ∃ j ≥ k, ∃ call', (r.state j).calls[c]? = some call' ∧ call'.process = .done := by
  -- induction on the number of sections that are left
  induction n with
  | zero =>
      intro k call hc hrank
      exact ⟨k, le_rfl, call, hc, eq_done_of_rank hrank⟩
  | succ n ih =>
      intro k call hc hrank
      by_cases hdone : call.process = .done
      · exact ⟨k, le_rfl, call, hc, hdone⟩
      · obtain ⟨j, hj, call', hc', hlt⟩ := process_advances hsched hnot hc hdone
        obtain ⟨i, hi, hfinal⟩ := ih j call' hc' (by omega)
        exact ⟨i, hj.trans hi, hfinal⟩

end Runs

/-- In the run of `delayedAnswer` nothing is left undone. -/
theorem scheduled_delayedAnswer : Scheduled ((labrpcSystem ℕ ℕ).ofList delayedAnswer) 0 where
  process k call hc _ hdone := by
    by_cases hk : k ≤ 16
    · exact ⟨16, hk, .fire, rfl, by decide⟩
    · have hlen : delayedAnswer.length ≤ k := by
        show 17 ≤ k
        omega
      rw [TransitionSystem.ofList_state_of_le hlen] at hc
      have hlast : (((labrpcSystem ℕ ℕ).ofList delayedAnswer).state
          delayedAnswer.length).calls[0]?.map CallState.process = some .done := by decide
      rw [hc] at hlast
      exact absurd (Option.some.inj hlast) hdone
  receive := TransitionSystem.weaklyFair_ofList (by
    have : (((labrpcSystem ℕ ℕ).step
        (((labrpcSystem ℕ ℕ).ofList delayedAnswer).state delayedAnswer.length)
        (.run 0 .receive)).isNone) = true := by decide
    exact Option.isNone_iff_eq_none.mp this)
  timeout := TransitionSystem.weaklyFair_ofList (by
    have : (((labrpcSystem ℕ ℕ).step
        (((labrpcSystem ℕ ℕ).ofList delayedAnswer).state delayedAnswer.length)
        (.run 0 .timeout)).isNone) = true := by decide
    exact Option.isNone_iff_eq_none.mp this)

/-- **A call returns.**  In every run, with any changes of the network, any drops and delays and
any other calls: if the goroutines of call `c` keep running, then the call gets its one reply;
the only exception is a call whose handler never returns, and it needs that the end of the call
is enabled and the server that it has found is registered at moments as late as one likes. -/
theorem call_returns [DecidableEq E] [DecidableEq N] (r : (labrpcSystem E N).Run) (c : ℕ)
    (hsched : Scheduled r c) (k : ℕ) (call : CallState E N)
    (hcall : (r.state k).calls[c]? = some call) :
    Abandoned r c ∨ ∃ j ≥ k, ∃ (call' : CallState E N) (m : ReplyMsg),
      (r.state j).calls[c]? = some call' ∧ call'.process = .done ∧ call'.replies = [m] := by
  by_cases hnot : Abandoned r c
  · exact .inl hnot
  · right
    obtain ⟨j, hj, call', hc', hdone⟩ := eventually_done hsched hnot 6 k call hcall (by omega)
    have hcons := consistent_run r j c call' hc'
    simp only [CallState.Consistent, hdone] at hcons
    obtain ⟨m, hm⟩ := List.length_eq_one_iff.mp hcons
    exact ⟨j, hj, call', m, hc', hdone, hm⟩

theorem call_returns_delayedAnswer :
    ∃ j ≥ 7, ∃ (call : CallState ℕ ℕ) (m : ReplyMsg),
      (((labrpcSystem ℕ ℕ).ofList delayedAnswer).state j).calls[0]? = some call ∧
        call.process = .done ∧ call.replies = [m] := by
  refine (call_returns ((labrpcSystem ℕ ℕ).ofList delayedAnswer) 0 scheduled_delayedAnswer 7
    (.new ⟨0, "Raft.RequestVote"⟩) (by decide)).resolve_left ?_
  rintro ⟨hnever, -⟩
  exact hnever 11 [42] (by decide)

end Mit6824.Labrpc
