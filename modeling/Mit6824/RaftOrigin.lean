/-
# Where the commands of the logs come from

A command enters a log in one place only, the second critical section of `Start`, and
from there it is copied: into append requests, from requests into the logs of other
servers, from a log to the disk and back, and into the slices of the apply goroutines.
None of the copies moves a command to another index.

`Origin P` says that every copy of a command at index `i` satisfies `P i`; it holds for
the commands that `Start` has put at `i` (`Cluster.Starts`), whatever the elections and
the logs of the run look like.  So what a server sends on its apply channel was given
to `Start`, and at the index that `Start` returned (`applied_was_started`).
-/
import Mit6824.RaftLog
import Mit6824.RaftApply

namespace Mit6824

/-! ## Commands at their indices -/

section Placed

variable {C : Type} {P : ℕ → C → Prop} {start : ℕ} {entries : List (LogEntry C)}

/-- The commands of `entries`, the first of which has index `start`, satisfy `P` at their
indices; index `0` holds the zero entry, which is nobody's command. -/
def Placed (P : ℕ → C → Prop) (start : ℕ) (entries : List (LogEntry C)) : Prop :=
  ∀ (i : ℕ) (e : LogEntry C), entries[i]? = some e → 0 < start + i → P (start + i) e.command

theorem Placed.mono (h : Placed P start entries) {P' : ℕ → C → Prop}
    (hP : ∀ i command, P i command → P' i command) : Placed P' start entries :=
  fun i e he hpos => hP _ _ (h i e he hpos)

theorem Placed.take (h : Placed P start entries) (k : ℕ) : Placed P start (entries.take k) := by
  intro i e he hpos
  rw [List.getElem?_take] at he
  split_ifs at he
  exact h i e he hpos

/-- What stands behind the first `k` entries has its index from `k` on. -/
theorem Placed.drop (h : Placed P start entries) (k : ℕ) :
    Placed P (start + k) (entries.drop k) := by
  intro i e he hpos
  rw [List.getElem?_drop] at he
  rw [Nat.add_assoc] at hpos ⊢
  exact h (k + i) e he hpos

theorem Placed.concat (h : Placed P start entries) {e : LogEntry C}
    (he : P (start + entries.length) e.command) : Placed P start (entries ++ [e]) := by
  intro i e' he' hpos
  rcases Nat.lt_or_ge i entries.length with hlt | hge
  · rw [List.getElem?_append_left hlt] at he'
    exact h i e' he' hpos
  · rw [List.getElem?_append_right hge] at he'
    obtain ⟨hlt, -⟩ := List.getElem?_eq_some_iff.mp he'
    rw [List.length_singleton] at hlt
    obtain rfl : i = entries.length := by omega
    rw [Nat.sub_self] at he'
    obtain rfl : e = e' := Option.some.inj he'
    exact he

end Placed

namespace Raft

variable {n : ℕ} {C : Type} {logs : List (LogEntry C)}

/-- An entry of the merged log stands at the same index of the log as it was, or of the
request. -/
theorem getElem?_mergeLogs {args : AppendEntriesArgs n C} {prev : LogEntry C}
    (hprev : logs[args.prevLogIndex]? = some prev) {i : ℕ} {e : LogEntry C}
    (h : (mergeLogs logs args)[i]? = some e) :
    logs[i]? = some e ∨ ∃ j, i = args.prevLogIndex + 1 + j ∧ args.entries[j]? = some e := by
  unfold mergeLogs at h
  rcases hu : unmatchIdx logs (args.prevLogIndex + 1) 0 args.entries with _ | u
  · rw [hu] at h
    exact .inl h
  · rw [hu] at h
    dsimp only at h
    obtain ⟨v, hv, hbefore, x, hx, -⟩ := matches_of_unmatchIdx_some hu
    obtain rfl : u = v := by omega
    -- the entries before the unmatched one are all in the log
    have hlen : args.prevLogIndex + 1 + u ≤ logs.length := by
      obtain ⟨hlt, -⟩ := List.getElem?_eq_some_iff.mp hprev
      rcases u with _ | u
      · omega
      · obtain ⟨hulen, -⟩ := List.getElem?_eq_some_iff.mp hx
        have hget : args.entries[u]? = some (args.entries.get ⟨u, by omega⟩) :=
          List.getElem?_eq_getElem _
        obtain ⟨y, hy, -⟩ := Option.map_eq_some_iff.mp (hbefore u _ (by omega) hget)
        obtain ⟨hlt', -⟩ := List.getElem?_eq_some_iff.mp hy
        omega
    have htake : (logs.take (args.prevLogIndex + 1 + u)).length = args.prevLogIndex + 1 + u := by
      rw [List.length_take, min_eq_left hlen]
    rcases Nat.lt_or_ge i (args.prevLogIndex + 1 + u) with hlt | hge
    · rw [List.getElem?_append_left (by omega), List.getElem?_take, if_pos hlt] at h
      exact .inl h
    · rw [List.getElem?_append_right (by omega), htake, List.getElem?_drop] at h
      refine .inr ⟨u + (i - (args.prevLogIndex + 1 + u)), by omega, h⟩

/-- A merge keeps the commands at their indices. -/
theorem placed_mergeLogs {P : ℕ → C → Prop} {args : AppendEntriesArgs n C} {prev : LogEntry C}
    (hprev : logs[args.prevLogIndex]? = some prev) (hlogs : Placed P 0 logs)
    (hargs : Placed P (args.prevLogIndex + 1) args.entries) : Placed P 0 (mergeLogs logs args) := by
  intro i e he hpos
  rcases getElem?_mergeLogs hprev he with hold | ⟨j, rfl, hnew⟩
  · exact hlogs i e hold hpos
  · rw [Nat.zero_add]
    exact hargs j e hnew (by omega)

end Raft

namespace Cluster

variable {n : ℕ} {C : Type} {c c' : Cluster n C} {a : Action n C} {s : Fin n}
  {rf : Raft C s} {msgs : List (Msg n C)} {events : List (Event n C)} {P P' : ℕ → C → Prop}

/-! ## The invariant -/

/-- With the action `a` some `Start` appends its command, and returns the index `i`. -/
def Starts (c : Cluster n C) (a : Action n C) (i : ℕ) (command : C) : Prop :=
  ∃ s k p, a = .startAppend s k ∧ (c.nodes s).starts[k]? = some p ∧ p.command = command ∧
    (((c.nodes s).startDone k).startAppend p).2 = i

/-- Every copy of a command satisfies `P` at its index. -/
structure Origin (P : ℕ → C → Prop) (c : Cluster n C) : Prop where
  log : ∀ s, Placed P 0 (c.nodes s).logs
  request : ∀ {src e k dst args}, .appendEntries src e k dst args ∈ c.net →
    Placed P (args.prevLogIndex + 1) args.entries
  slice : ∀ s, ∀ g ∈ (c.nodes s).appliers, 1 ≤ g.startIdx ∧ Placed P g.startIdx g.entries
  applied : ∀ {s e msg}, .applied s e msg ∈ c.history →
    1 ≤ msg.commandIndex ∧ P msg.commandIndex msg.command

theorem origin_init [Inhabited C] (P : ℕ → C → Prop) : Origin P (Cluster.init n C) where
  log := by
    intro s i e he hpos
    obtain ⟨hlt, -⟩ := List.getElem?_eq_some_iff.mp he
    have hone : i < 1 := hlt
    omega
  request := fun hm => nomatch hm
  slice := fun _ _ hg => nomatch hg
  applied := fun hm => nomatch hm

/-- The log of the server that moves. -/
theorem Origin.put_log (hi : Origin P c) (hcore : CoreMove c a s rf msgs events)
    (hP : ∀ i command, P i command → P' i command)
    (hnew : ∀ i command, c.Starts a i command → P' i command) : Placed P' 0 rf.logs := by
  have hlog := (hi.log s).mono hP
  rcases hcore.logs_cases with hlogs |
    ⟨src, e, k, args, prev, hm, -, hprev, -, -, hlogs⟩ | ⟨k, p, ha, hp, -, hlogs⟩
  · rw [hlogs]
    exact hlog
  · rw [hlogs]
    exact Raft.placed_mergeLogs hprev hlog ((hi.request hm).mono hP)
  · rw [hlogs]
    -- the index that `Start` returns is the length of the log
    refine hlog.concat (hnew _ _ ⟨s, k, p, ha, hp, rfl, ?_⟩)
    rw [Nat.zero_add]
    rfl

/-- A request takes the entries behind its previous index. -/
theorem Origin.put_request (hi : Origin P c) (hcore : CoreMove c a s rf msgs events)
    {src dst : Fin n} {e k : ℕ} {args : AppendEntriesArgs n C}
    (hm : .appendEntries src e k dst args ∈ (c.put s rf msgs events).net) :
    Placed P (args.prevLogIndex + 1) args.entries := by
  rcases List.mem_append.mp hm with hold | hnew
  · exact hi.request hold
  · cases hcore with
    | drift a s rf msgs events hdrift hstate hquiet =>
        obtain ⟨-, i, prev, -, rfl⟩ := hquiet.append hnew
        have hdrop := (hi.log s).drop (i + 1)
        rwa [Nat.zero_add] at hdrop
    | _ => simp at hnew

/-- An apply goroutine has its slice from the log. -/
theorem Origin.put_slice (hi : Origin P c) (hrep : ReplicaMove c a s rf msgs events)
    (hP : ∀ i command, P i command → P' i command) (hlog : Placed P' 0 rf.logs)
    {g : Applier C} (hg : g ∈ rf.appliers) : 1 ≤ g.startIdx ∧ Placed P' g.startIdx g.entries := by
  rcases hrep.mem_appliers hg with ⟨g', hg', hstart, hentries⟩ | ⟨last, hstart, hentries⟩
  · rw [hstart, hentries]
    exact (hi.slice s g' hg').imp_right fun h => h.mono hP
  · refine ⟨by omega, ?_⟩
    have hdrop := (hlog.take (rf.commitIndex + 1)).drop (last + 1)
    rw [hstart, hentries]
    rwa [Nat.zero_add] at hdrop

/-- What is sent on an apply channel is an entry of a slice. -/
theorem Origin.put_applied (hi : Origin P c) (hrep : ReplicaMove c a s rf msgs events)
    {t : Fin n} {e : ℕ} {msg : ApplyMsg C}
    (hm : .applied t e msg ∈ (c.put s rf msgs events).history) :
    1 ≤ msg.commandIndex ∧ P msg.commandIndex msg.command := by
  rcases List.mem_append.mp hm with hold | hnew
  · exact hi.applied hold
  · obtain ⟨g, hg, i, entry, hentry, hcommand, hindex⟩ := hrep.mem_applied hnew
    obtain ⟨hstart, hplaced⟩ := hi.slice s g hg
    rw [hindex, ← hcommand]
    exact ⟨by omega, hplaced i entry hentry (by omega)⟩

variable [Inhabited C]

/-- **Every step copies commands to their own index only.** -/
theorem Origin.step (hi : Origin P c) (hvotes : VoteInv c) (hstep : c.step a = some c')
    (hP : ∀ i command, P i command → P' i command)
    (hnew : ∀ i command, c.Starts a i command → P' i command) : Origin P' c' := by
  obtain ⟨s, rf, msgs, events, rfl, hmove⟩ := step_move hstep
  have hcore := hmove.core (hvotes.synced s)
  have hlog := hi.put_log hcore hP hnew
  constructor
  · exact (forall_put (P := fun _ node => Placed P' 0 node.logs)).mpr
      ⟨hlog, fun t _ => (hi.log t).mono hP⟩
  · intro src e k dst args hm
    exact (hi.put_request hcore hm).mono hP
  · refine (forall_put (P := fun _ node => ∀ g ∈ node.appliers,
      1 ≤ g.startIdx ∧ Placed P' g.startIdx g.entries)).mpr ⟨?_, fun t _ g hg => ?_⟩
    · exact fun g hg => hi.put_slice hmove.replica hP hlog hg
    · exact (hi.slice t g hg).imp_right fun h => h.mono hP
  · intro t e msg hm
    exact (hi.put_applied hmove.replica hm).imp_right fun h => hP _ _ h

end Cluster

/-! ## Whole runs -/

section Runs

variable {n : ℕ} {C : Type} [Inhabited C]

/-- Before moment `k` of the run, some `Start` has put the command at index `i`. -/
def StartedBefore (r : (raftSystem n C).Run) (k i : ℕ) (command : C) : Prop :=
  ∃ j < k, ∃ a, r.act j = some a ∧ (r.state j).Starts a i command

/-- All copies of commands come from `Start`, at every moment of every run. -/
theorem origin_run (r : (raftSystem n C).Run) (k : ℕ) :
    (r.state k).VoteInv ∧ (r.state k).Origin (StartedBefore r k) := by
  induction k with
  | zero =>
      rw [r.state_zero]
      exact ⟨Cluster.voteInv_init, Cluster.origin_init _⟩
  | succ k ih =>
      obtain ⟨hvotes, hi⟩ := ih
      have hP : ∀ i command, StartedBefore r k i command → StartedBefore r (k + 1) i command := by
        rintro i command ⟨j, hj, h⟩
        exact ⟨j, by omega, h⟩
      rcases ha : r.act k with _ | a
      · rw [r.idle k ha]
        refine ⟨hvotes, fun s => (hi.log s).mono hP, fun hm => (hi.request hm).mono hP,
          fun s g hg => (hi.slice s g hg).imp_right fun h => h.mono hP, fun hm => ?_⟩
        exact (hi.applied hm).imp_right fun h => hP _ _ h
      · have hstep := r.taken k a ha
        refine ⟨hvotes.step hstep, hi.step hvotes hstep hP ?_⟩
        exact fun i command h => ⟨k, by omega, a, ha, h⟩

/-- **Nothing is applied that was not started.**  In every run, whatever its elections and
its losses, a message on an apply channel carries a command that an earlier `Start` has
appended, and its index is the one that this `Start` returned. -/
theorem applied_was_started (r : (raftSystem n C).Run) (k : ℕ) (s : Fin n) (e : ℕ)
    (msg : ApplyMsg C) (hmsg : .applied s e msg ∈ (r.state k).history) :
    1 ≤ msg.commandIndex ∧ StartedBefore r k msg.commandIndex msg.command :=
  (origin_run r k).2.applied hmsg

/-- The second message of `serialApplies` carries the command of its second `Start`. -/
theorem applied_was_started_serialApplies :
    .applied 0 0 ⟨true, 8, 2⟩ ∈ (serialApplies.state 17).history ∧
      StartedBefore serialApplies 17 2 8 := by
  have hmsg : .applied 0 0 ⟨true, 8, 2⟩ ∈ (serialApplies.state 17).history := by decide
  exact ⟨hmsg, (applied_was_started serialApplies 17 0 0 ⟨true, 8, 2⟩ hmsg).2⟩

end Runs

end Mit6824
