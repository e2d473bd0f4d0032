/-
# Scheduling the tasks of a phase

`mapreduce/schedule.go` and `forwardRegistrations` of `master.go`: one goroutine for
each task takes a worker from an unbuffered channel, calls it, hands it back through
another goroutine, and starts again if the call failed.

* `schedule`: the phase as a transition system.  One step is one action of one
  goroutine, a registration or the return of a call, in any order;
* `Inv`: a worker that has been forwarded is in exactly one place, waiting in a
  sender or held by a task (`Inv.tokens`), and the calls that returned true are those
  of the tasks that are past their loop (`Inv.successes`);
* `schedule_exclusive_once`: no two calls to one worker overlap, and when `schedule`
  returns, every task has had exactly one call that returned true.
-/
import Mit6824.MrFiles
import Mit6824.TransitionSystem

namespace Mit6824.MapReduce

/-- What `schedule` is called with, the channel apart. -/
structure Phase where
  jobName : GoString
  mapFiles : List GoString
  nReduce : ℕ
  phase : JobPhase

/-- `DoTaskArgs`: what a worker is told about its task. -/
structure DoTaskArgs where
  jobName : GoString
  file : GoString
  phase : JobPhase
  taskNumber : ℕ
  numOtherPhase : ℕ
  deriving DecidableEq, Repr

namespace Phase

/-- The number of tasks of the phase. -/
def ntasks (p : Phase) : ℕ :=
  match p.phase with
  | .mapPhase => p.mapFiles.length
  | .reducePhase => p.nReduce

/-- The number of inputs (for reduce) or outputs (for map). -/
def nother (p : Phase) : ℕ :=
  match p.phase with
  | .mapPhase => p.nReduce
  | .reducePhase => p.mapFiles.length

/-- The arguments of task `i`, with `f` for `mapFiles[i]`. -/
def taskArgs (p : Phase) (i : ℕ) (f : GoString) : DoTaskArgs :=
  ⟨p.jobName, f, p.phase, i, p.nother⟩

/-- Every task number is an index of `mapFiles`. -/
def Indexed (p : Phase) : Prop :=
  p.phase = .reducePhase → p.nReduce ≤ p.mapFiles.length

theorem Indexed.ntasks_le {p : Phase} (h : p.Indexed) : p.ntasks ≤ p.mapFiles.length := by
  unfold ntasks
  split
  · exact le_rfl
  · next hp => exact h hp

end Phase

/-! ## The goroutines -/

/-- Where the goroutine of a task is. -/
inductive Routine where
  /-- At `worker := <-registerChan`. -/
  | receiving
  /-- In `call(worker, "Worker.DoTask", doTaskArgs, nil)`. -/
  | calling (worker : GoString)
  /-- The call has returned; the goroutine with `registerChan <- worker` is next. -/
  | returned (worker : GoString) (callResult : Bool)
  /-- At the test of `callResult`. -/
  | testing (callResult : Bool)
  /-- After `wg.Done()`. -/
  | finished
  deriving DecidableEq, Repr

/-- The worker that a goroutine holds. -/
def Routine.worker : Routine → Option GoString
  | calling w => some w
  | returned w _ => some w
  | _ => none

/-- A call of the goroutine has returned true. -/
def Routine.succeeded : Routine → Bool
  | returned _ ok => ok
  | testing ok => ok
  | finished => true
  | _ => false

/-- Where `schedule` stands. -/
inductive Status where
  /-- In the loop of `schedule` or at `wg.Wait()`. -/
  | running
  | returned
  | panicked
  deriving DecidableEq, Repr

/-- A call that has returned. -/
structure CallRecord where
  args : DoTaskArgs
  worker : GoString
  callResult : Bool
  deriving DecidableEq, Repr

/-- The arguments of the calls for task `t` that have returned true. -/
def successes (calls : List CallRecord) (t : ℕ) : List DoTaskArgs :=
  (calls.filter fun c => c.args.taskNumber = t ∧ c.callResult).map CallRecord.args

/-- The state of one call of `schedule`, with the registrations that reach it. -/
structure ScheduleState where
  /-- `mr.workers`. -/
  workers : List GoString
  /-- The index of `forwardRegistrations`. -/
  forwarded : ℕ
  /-- The goroutines at a send on the channel. -/
  senders : List GoString
  /-- The index of the loop of `schedule`. -/
  i : ℕ
  /-- The goroutines of the tasks, in the order of their start. -/
  tasks : List (DoTaskArgs × Routine)
  wg : ℕ
  status : Status
  /-- The calls that have returned so far. -/
  calls : List CallRecord

/-- The steps of `schedule`, of its goroutines and of the registrations. -/
inductive ScheduleAction where
  /-- An iteration of the loop of `schedule`. -/
  | fork
  /-- The return from `wg.Wait()`. -/
  | wait
  /-- The RPC `Master.Register`. -/
  | register (w : GoString)
  /-- An iteration of `forwardRegistrations`. -/
  | forward
  /-- Task `t` receives `w` from the channel. -/
  | receive (t : ℕ) (w : GoString)
  /-- The call of task `t` returns. -/
  | callReturn (t : ℕ) (callResult : Bool)
  /-- Task `t` starts the goroutine that hands its worker back. -/
  | handBack (t : ℕ)
  /-- Task `t` tests `callResult`. -/
  | test (t : ℕ)
  deriving DecidableEq, Repr

namespace ScheduleState

/-- Put the goroutine of task `t` at another place. -/
def setTask (s : ScheduleState) (t : ℕ) (args : DoTaskArgs) (q : Routine) : ScheduleState :=
  { s with tasks := s.tasks.set t (args, q) }

/-- The workers that the tasks hold. -/
def held (s : ScheduleState) : List GoString :=
  s.tasks.filterMap fun t => t.2.worker

/-- A call of task `t` to `w` is in progress. -/
def Calling (s : ScheduleState) (t : ℕ) (w : GoString) : Prop :=
  ∃ args, s.tasks[t]? = some (args, .calling w)

/-- One step.  A panic ends the process. -/
def step (p : Phase) (s : ScheduleState) (a : ScheduleAction) : Option ScheduleState :=
  if s.status = .panicked then none else
  match a with
  | .fork =>
      if s.status = .running ∧ s.i < p.ntasks then
        match p.mapFiles[s.i]? with
        | none => some { s with status := .panicked }
        | some f => some { s with
            i := s.i + 1, wg := s.wg + 1, tasks := s.tasks ++ [(p.taskArgs s.i f, .receiving)] }
      else none
  | .wait =>
      if s.status = .running ∧ p.ntasks ≤ s.i ∧ s.wg = 0 then
        some { s with status := .returned }
      else none
  | .register w => some { s with workers := s.workers ++ [w] }
  | .forward =>
      match s.workers[s.forwarded]? with
      | none => none
      | some w => some { s with forwarded := s.forwarded + 1, senders := s.senders ++ [w] }
  | .receive t w =>
      match s.tasks[t]? with
      | some (args, .receiving) =>
          if w ∈ s.senders then
            some { s.setTask t args (.calling w) with senders := s.senders.erase w }
          else none
      | _ => none
  | .callReturn t callResult =>
      match s.tasks[t]? with
      | some (args, .calling w) =>
          some { s.setTask t args (.returned w callResult) with
            calls := s.calls ++ [⟨args, w, callResult⟩] }
      | _ => none
  | .handBack t =>
      match s.tasks[t]? with
      | some (args, .returned w callResult) =>
          some { s.setTask t args (.testing callResult) with senders := s.senders ++ [w] }
      | _ => none
  | .test t =>
      match s.tasks[t]? with
      | some (args, .testing false) => some (s.setTask t args .receiving)
      | some (args, .testing true) =>
          -- a negative counter is a panic
          if s.wg = 0 then some { s with status := .panicked }
          else some { s.setTask t args .finished with wg := s.wg - 1 }
      | _ => none

/-- The start of a phase, with the workers that have registered before. -/
def start (workers : List GoString) : ScheduleState :=
  ⟨workers, 0, [], 0, [], 0, .running, []⟩

/-- A registration is that of a new address. -/
def Distinct (s : ScheduleState) : ScheduleAction → Prop
  | .register w => w ∉ s.workers
  | _ => True

instance (s : ScheduleState) (a : ScheduleAction) : Decidable (s.Distinct a) := by
  cases a <;> unfold Distinct <;> infer_instance

end ScheduleState

/-- A phase as a transition system. -/
def schedule (p : Phase) (workers : List GoString) :
    TransitionSystem ScheduleState ScheduleAction where
  init := ScheduleState.start workers
  step := ScheduleState.step p

/-- What the steps can do, one case for each outcome. -/
inductive Moves (p : Phase) (s : ScheduleState) : ScheduleAction → ScheduleState → Prop
  | fork {f : GoString} (hrun : s.status = .running) (hi : s.i < p.ntasks)
      (hf : p.mapFiles[s.i]? = some f) :
      Moves p s .fork { s with
        i := s.i + 1, wg := s.wg + 1, tasks := s.tasks ++ [(p.taskArgs s.i f, .receiving)] }
  | outOfRange (hrun : s.status = .running) (hi : s.i < p.ntasks)
      (hf : p.mapFiles[s.i]? = none) : Moves p s .fork { s with status := .panicked }
  | wait (hrun : s.status = .running) (hi : p.ntasks ≤ s.i) (hwg : s.wg = 0) :
      Moves p s .wait { s with status := .returned }
  | register (w : GoString) : Moves p s (.register w) { s with workers := s.workers ++ [w] }
  | forward {w : GoString} (hw : s.workers[s.forwarded]? = some w) :
      Moves p s .forward { s with forwarded := s.forwarded + 1, senders := s.senders ++ [w] }
  | receive {t : ℕ} {w : GoString} {args : DoTaskArgs}
      (ht : s.tasks[t]? = some (args, .receiving)) (hw : w ∈ s.senders) :
      Moves p s (.receive t w)
        { s.setTask t args (.calling w) with senders := s.senders.erase w }
  | callReturn {t : ℕ} {w : GoString} {args : DoTaskArgs} (ok : Bool)
      (ht : s.tasks[t]? = some (args, .calling w)) :
      Moves p s (.callReturn t ok)
        { s.setTask t args (.returned w ok) with calls := s.calls ++ [⟨args, w, ok⟩] }
  | handBack {t : ℕ} {w : GoString} {args : DoTaskArgs} {ok : Bool}
      (ht : s.tasks[t]? = some (args, .returned w ok)) :
      Moves p s (.handBack t)
        { s.setTask t args (.testing ok) with senders := s.senders ++ [w] }
  | retry {t : ℕ} {args : DoTaskArgs} (ht : s.tasks[t]? = some (args, .testing false)) :
      Moves p s (.test t) (s.setTask t args .receiving)
  | finish {t : ℕ} {args : DoTaskArgs} (ht : s.tasks[t]? = some (args, .testing true))
      (hwg : s.wg ≠ 0) :
      Moves p s (.test t) { s.setTask t args .finished with wg := s.wg - 1 }
  | negative {t : ℕ} {args : DoTaskArgs} (ht : s.tasks[t]? = some (args, .testing true))
      (hwg : s.wg = 0) : Moves p s (.test t) { s with status := .panicked }

theorem moves_of_step {p : Phase} {s s' : ScheduleState} {a : ScheduleAction}
    (h : s.step p a = some s') : Moves p s a s' := by
  unfold ScheduleState.step at h
  split at h
  · cases h
  · cases a with
    | fork =>
        simp only at h
        split at h
        · next hrun =>
            split at h
            · next hf =>
                cases h
                exact .outOfRange hrun.1 hrun.2 hf
            · next f hf =>
                cases h
                exact .fork hrun.1 hrun.2 hf
        · cases h
    | wait =>
        simp only at h
        split at h
        · next hrun =>
            cases h
            exact .wait hrun.1 hrun.2.1 hrun.2.2
        · cases h
    | register w =>
        cases h
        exact .register w
    | forward =>
        simp only at h
        split at h
        · cases h
        · next w hw =>
            cases h
            exact .forward hw
    | receive t w =>
        simp only at h
        split at h
        · next args ht =>
            split at h
            · next hw =>
                cases h
                exact .receive ht hw
            · cases h
        · cases h
    | callReturn t ok =>
        simp only at h
        split at h
        · next args w ht =>
            cases h
            exact .callReturn ok ht
        · cases h
    | handBack t =>
        simp only at h
        split at h
        · next args w ok ht =>
            cases h
            exact .handBack ht
        · cases h
    | test t =>
        simp only at h
        split at h
        · next args ht =>
            cases h
            exact .retry ht
        · next args ht =>
            split at h
            · next hwg =>
                cases h
                exact .negative ht hwg
            · next hwg =>
                cases h
                exact .finish ht hwg
        · cases h

/-! ## The invariant -/

/-- What a successful task has in the list of calls. -/
def successArgs (tasks : List (DoTaskArgs × Routine)) (t : ℕ) : List DoTaskArgs :=
  match tasks[t]? with
  | some (args, q) => if q.succeeded then [args] else []
  | none => []

/-- What holds in every run in which the workers have distinct addresses. -/
structure Inv (p : Phase) (s : ScheduleState) : Prop where
  nodup : s.workers.Nodup
  forwarded : s.forwarded ≤ s.workers.length
  /-- Every forwarded worker is in one place. -/
  tokens : (s.senders ++ s.held).Perm (s.workers.take s.forwarded)
  index : s.i = s.tasks.length
  bound : s.i ≤ p.ntasks
  args : ∀ t args q, s.tasks[t]? = some (args, q) →
    ∃ f, p.mapFiles[t]? = some f ∧ args = p.taskArgs t f
  wg : s.wg = s.tasks.countP fun t => t.2 ≠ .finished
  successes : ∀ t, MapReduce.successes s.calls t = successArgs s.tasks t
  returned : s.status = .returned → p.ntasks ≤ s.i ∧ s.wg = 0
  running : s.status ≠ .panicked

section Lists

variable {α β : Type*}

/-- Replacing an element of a list, up to order. -/
theorem perm_cons_set {l : List α} {t : ℕ} {x : α} (hx : l[t]? = some x) (y : α) :
    (x :: l.set t y).Perm (y :: l) := by
  obtain ⟨ht, rfl⟩ := List.getElem?_eq_some_iff.mp hx
  have hl : l = l.take t ++ l[t] :: l.drop (t + 1) := by
    rw [List.getElem_cons_drop, List.take_append_drop]
  rw [List.set_eq_take_append_cons_drop, if_pos ht]
  conv_rhs => rw [hl]
  calc
    (l[t] :: (l.take t ++ y :: l.drop (t + 1))).Perm (l[t] :: y :: (l.take t ++ l.drop (t + 1))) :=
      List.perm_middle.cons _
    List.Perm _ (y :: l[t] :: (l.take t ++ l.drop (t + 1))) := List.Perm.swap _ _ _
    List.Perm _ (y :: (l.take t ++ l[t] :: l.drop (t + 1))) := (List.perm_middle.symm).cons _

/-- Two positions of a list with the same image under a partial function. -/
theorem eq_of_filterMap_nodup {f : α → Option β} {l : List α} (h : (l.filterMap f).Nodup)
    {t t' : ℕ} {x y : α} {b : β} (hx : l[t]? = some x) (hy : l[t']? = some y)
    (hfx : f x = some b) (hfy : f y = some b) : t = t' := by
  obtain ⟨ht, rfl⟩ := List.getElem?_eq_some_iff.mp hx
  obtain ⟨ht', rfl⟩ := List.getElem?_eq_some_iff.mp hy
  have hpair := List.pairwise_iff_getElem.mp (List.pairwise_filterMap.mp h)
  by_contra hne
  rcases Nat.lt_or_gt_of_ne hne with hlt | hlt
  · exact hpair t t' ht ht' hlt b hfx b hfy rfl
  · exact hpair t' t ht' ht hlt b hfy b hfx rfl

/-- The last element apart, a list is as before it was added. -/
theorem getElem?_concat_ne {l : List α} {x : α} {t : ℕ} (h : t ≠ l.length) :
    (l ++ [x])[t]? = l[t]? := by
  by_cases ht : t < l.length
  · exact List.getElem?_append_left ht
  · rw [List.getElem?_eq_none (by simp; omega), List.getElem?_eq_none (by omega)]

end Lists

section Moving

variable {p : Phase} {s : ScheduleState} {t : ℕ} {args : DoTaskArgs} {q : Routine}

/-- A goroutine that moves changes what it holds. -/
theorem held_setTask (ht : s.tasks[t]? = some (args, q)) (q' : Routine) :
    (q.worker.toList ++ (s.setTask t args q').held).Perm (q'.worker.toList ++ s.held) := by
  have hperm := (perm_cons_set ht (args, q')).filterMap fun x => x.2.worker
  have hcons : ∀ (x : DoTaskArgs × Routine) l, (x :: l).filterMap (fun x => x.2.worker) =
      x.2.worker.toList ++ l.filterMap fun x => x.2.worker := by
    intro x l
    rw [List.filterMap_cons]
    cases x.2.worker <;> rfl
  rw [hcons, hcons] at hperm
  exact hperm

/-- A goroutine that moves without finishing. -/
theorem countP_setTask (ht : s.tasks[t]? = some (args, q)) (hq : q ≠ .finished) (q' : Routine) :
    (s.setTask t args q').tasks.countP (fun x => x.2 ≠ .finished) + 1 =
      s.tasks.countP (fun x => x.2 ≠ .finished) + if q' = .finished then 0 else 1 := by
  have hperm := (perm_cons_set ht (args, q')).countP_eq fun x => x.2 ≠ .finished
  rw [List.countP_cons, List.countP_cons] at hperm
  simpa [ScheduleState.setTask, hq] using hperm

theorem getElem?_setTask (ht : s.tasks[t]? = some (args, q)) (q' : Routine) (t' : ℕ) :
    (s.setTask t args q').tasks[t']? = if t' = t then some (args, q') else s.tasks[t']? := by
  have hlt : t < s.tasks.length := (List.getElem?_eq_some_iff.mp ht).1
  by_cases h : t' = t
  · rw [if_pos h, h]
    exact List.getElem?_set_self hlt
  · rw [if_neg h]
    exact List.getElem?_set_ne (Ne.symm h)

/-- A goroutine that moves without a call that succeeds. -/
theorem successArgs_setTask (ht : s.tasks[t]? = some (args, q)) {q' : Routine}
    (hq : q'.succeeded = q.succeeded) (t' : ℕ) :
    successArgs (s.setTask t args q').tasks t' = successArgs s.tasks t' := by
  unfold successArgs
  rw [getElem?_setTask ht]
  by_cases h : t' = t
  · rw [if_pos h, h, ht]
    simp only [hq]
  · rw [if_neg h]

theorem Inv.args_setTask (h : Inv p s) (ht : s.tasks[t]? = some (args, q)) (q' : Routine) :
    ∀ t' args' r, (s.setTask t args q').tasks[t']? = some (args', r) →
      ∃ f, p.mapFiles[t']? = some f ∧ args' = p.taskArgs t' f := by
  intro t' args' r ht'
  rw [getElem?_setTask ht] at ht'
  split at ht'
  · next heq =>
      cases ht'
      rw [heq]
      exact h.args t args q ht
  · exact h.args t' args' r ht'

end Moving

/-! ### The steps keep the invariant -/

section Steps

variable {p : Phase} {s s' : ScheduleState} {a : ScheduleAction}

theorem inv_start {workers : List GoString} (h : workers.Nodup) :
    Inv p (ScheduleState.start workers) where
  nodup := h
  forwarded := Nat.zero_le _
  tokens := List.Perm.refl _
  index := rfl
  bound := Nat.zero_le _
  args t args q ht := by cases ht
  wg := rfl
  successes t := rfl
  returned h := by cases h
  running h := by cases h

theorem Inv.fork (h : Inv p s) {f : GoString} (hi : s.i < p.ntasks)
    (hf : p.mapFiles[s.i]? = some f) (hrun : s.status = .running) :
    Inv p { s with
      i := s.i + 1, wg := s.wg + 1, tasks := s.tasks ++ [(p.taskArgs s.i f, .receiving)] } where
  nodup := h.nodup
  forwarded := h.forwarded
  tokens := by
    have hheld : (s.tasks ++ [(p.taskArgs s.i f, Routine.receiving)]).filterMap
        (fun t => t.2.worker) = s.held := by
      rw [List.filterMap_append]
      exact List.append_nil _
    rw [ScheduleState.held, hheld]
    exact h.tokens
  index := by rw [List.length_append, List.length_singleton, h.index]
  bound := hi
  args t args q ht := by
    by_cases hlast : t = s.tasks.length
    · rw [hlast, List.getElem?_concat_length] at ht
      cases ht
      rw [hlast, ← h.index]
      exact ⟨f, hf, rfl⟩
    · rw [getElem?_concat_ne hlast] at ht
      exact h.args t args q ht
  wg := by
    rw [List.countP_append, ← h.wg]
    rfl
  successes t := by
    refine (h.successes t).trans ?_
    unfold successArgs
    by_cases hlast : t = s.tasks.length
    · rw [hlast, List.getElem?_concat_length, List.getElem?_eq_none le_rfl]
      rfl
    · rw [getElem?_concat_ne hlast]
  returned hret := by
    rw [hrun] at hret
    cases hret
  running := h.running

theorem Inv.register (h : Inv p s) {w : GoString} (hw : w ∉ s.workers) :
    Inv p { s with workers := s.workers ++ [w] } := by
  refine { h with nodup := ?_, forwarded := ?_, tokens := ?_ }
  · rw [List.nodup_append_comm]
    exact List.nodup_cons.mpr ⟨hw, h.nodup⟩
  · rw [List.length_append]
    exact h.forwarded.trans (Nat.le_add_right _ _)
  · rw [List.take_append_of_le_length h.forwarded]
    exact h.tokens

theorem Inv.forward (h : Inv p s) {w : GoString} (hw : s.workers[s.forwarded]? = some w) :
    Inv p { s with forwarded := s.forwarded + 1, senders := s.senders ++ [w] } := by
  refine { h with forwarded := (List.getElem?_eq_some_iff.mp hw).1, tokens := ?_ }
  rw [List.take_add_one, hw, List.append_assoc]
  calc
    (s.senders ++ ([w] ++ s.held)).Perm (s.senders ++ (s.held ++ [w])) :=
      List.perm_append_comm.append_left _
    List.Perm _ (s.senders ++ s.held ++ [w]) := by rw [List.append_assoc]
    List.Perm _ (s.workers.take s.forwarded ++ [w]) := h.tokens.append_right _

/-- The counter counts the goroutines that have not finished. -/
theorem Inv.wg_ne_zero (h : Inv p s) {t : ℕ} {args : DoTaskArgs} {q : Routine}
    (ht : s.tasks[t]? = some (args, q)) (hq : q ≠ .finished) : s.wg ≠ 0 := by
  rw [h.wg, ← Nat.pos_iff_ne_zero, List.countP_pos_iff]
  exact ⟨(args, q), List.mem_of_getElem? ht, by simpa using hq⟩

/-- A goroutine moves, and takes from the channel what it then holds or gives to it what it
held before. -/
theorem Inv.move (h : Inv p s) {t wg : ℕ} {args : DoTaskArgs} {q q' : Routine}
    {senders : List GoString} {calls : List CallRecord}
    (ht : s.tasks[t]? = some (args, q)) (hq : q ≠ .finished)
    (hsenders : (q'.worker.toList ++ senders).Perm (q.worker.toList ++ s.senders))
    (hwg : wg + 1 = s.wg + if q' = .finished then 0 else 1)
    (hcalls : ∀ t', MapReduce.successes calls t' = successArgs (s.setTask t args q').tasks t') :
    Inv p { s.setTask t args q' with senders := senders, wg := wg, calls := calls } where
  nodup := h.nodup
  forwarded := h.forwarded
  tokens := by
    -- with what the goroutine held before on both sides
    rw [← List.perm_append_left_iff q.worker.toList]
    calc
      (q.worker.toList ++ (senders ++ (s.setTask t args q').held)).Perm
          (senders ++ (q.worker.toList ++ (s.setTask t args q').held)) := by
        rw [← List.append_assoc, ← List.append_assoc]
        exact List.perm_append_comm.append_right _
      List.Perm _ (senders ++ (q'.worker.toList ++ s.held)) := (held_setTask ht q').append_left _
      List.Perm _ (q'.worker.toList ++ senders ++ s.held) := by
        rw [← List.append_assoc]
        exact List.perm_append_comm.append_right _
      List.Perm _ (q.worker.toList ++ s.senders ++ s.held) := hsenders.append_right _
      List.Perm _ (q.worker.toList ++ s.workers.take s.forwarded) := by
        rw [List.append_assoc]
        exact h.tokens.append_left _
  index := h.index.trans List.length_set.symm
  bound := h.bound
  args := h.args_setTask ht q'
  wg := by
    have hcount := countP_setTask ht hq q'
    rw [← h.wg] at hcount
    show wg = (s.setTask t args q').tasks.countP _
    omega
  successes := hcalls
  returned hret := absurd (h.returned hret).2 (h.wg_ne_zero ht hq)
  running := h.running

/-- The calls of a step that makes none. -/
theorem Inv.successes_setTask (h : Inv p s) {t : ℕ} {args : DoTaskArgs} {q q' : Routine}
    (ht : s.tasks[t]? = some (args, q)) (hq : q'.succeeded = q.succeeded) (t' : ℕ) :
    MapReduce.successes s.calls t' = successArgs (s.setTask t args q').tasks t' := by
  rw [successArgs_setTask ht hq]
  exact h.successes t'

/-- The calls after one more has returned. -/
theorem Inv.successes_callReturn (h : Inv p s) {t : ℕ} {w : GoString} {args : DoTaskArgs}
    (ht : s.tasks[t]? = some (args, .calling w)) (ok : Bool) (t' : ℕ) :
    MapReduce.successes (s.calls ++ [⟨args, w, ok⟩]) t' =
      successArgs (s.setTask t args (.returned w ok)).tasks t' := by
  have hold := h.successes t'
  obtain ⟨f, _, hargs⟩ := h.args t args _ ht
  have hnumber : args.taskNumber = t := by rw [hargs, Phase.taskArgs]
  unfold MapReduce.successes successArgs at hold ⊢
  rw [getElem?_setTask ht, List.filter_append, List.map_append, hold]
  by_cases htt : t' = t
  · subst htt
    rw [if_pos rfl, ht]
    cases ok <;> simp [Routine.succeeded, hnumber]
  · have hne : ¬ args.taskNumber = t' := by
      rw [hnumber]
      exact Ne.symm htt
    rw [if_neg htt, List.filter_cons_of_neg (by simp [hne])]
    exact List.append_nil _

/-- **The step lemma.** -/
theorem Inv.step (hp : p.Indexed) (h : Inv p s) (hok : s.Distinct a)
    (hstep : s.step p a = some s') : Inv p s' := by
  cases moves_of_step hstep with
  | fork hrun hi hf => exact h.fork hi hf hrun
  | outOfRange hrun hi hf =>
      have hlt := hi.trans_le hp.ntasks_le
      rw [List.getElem?_eq_getElem hlt] at hf
      cases hf
  | wait hrun hi hwg => exact { h with returned := fun _ => ⟨hi, hwg⟩, running := nofun }
  | register w => exact h.register hok
  | forward hw => exact h.forward hw
  | receive ht hw =>
      exact h.move ht nofun (List.perm_cons_erase hw).symm rfl (h.successes_setTask ht rfl)
  | callReturn ok ht =>
      exact h.move ht nofun (List.Perm.refl _) rfl (h.successes_callReturn ht ok)
  | handBack ht =>
      refine h.move ht nofun ?_ rfl (h.successes_setTask ht rfl)
      show (s.senders ++ [_]).Perm ([_] ++ s.senders)
      exact List.perm_append_comm
  | retry ht => exact h.move ht nofun (List.Perm.refl _) rfl (h.successes_setTask ht rfl)
  | finish ht hwg =>
      refine h.move ht nofun (List.Perm.refl _) ?_ (h.successes_setTask ht rfl)
      rw [if_pos rfl]
      omega
  | negative ht hwg => exact absurd hwg (h.wg_ne_zero ht nofun)

end Steps

/-! ## The result of a phase -/

section Results

variable {p : Phase} {s : ScheduleState}

/-- A worker that is called is called once. -/
theorem Inv.calling_unique (h : Inv p s) {t t' : ℕ} {w : GoString} (ht : s.Calling t w)
    (ht' : s.Calling t' w) : t = t' := by
  obtain ⟨args, ht⟩ := ht
  obtain ⟨args', ht'⟩ := ht'
  have hnodup : (s.senders ++ s.held).Nodup :=
    h.tokens.nodup_iff.mpr (h.nodup.sublist (List.take_sublist _ _))
  exact eq_of_filterMap_nodup (List.nodup_append.mp hnodup).2.1 ht ht' rfl rfl

/-- At the return of `wg.Wait()` every task has finished. -/
theorem Inv.finished (h : Inv p s) (hi : p.ntasks ≤ s.i) (hwg : s.wg = 0) {t : ℕ}
    (ht : t < p.ntasks) :
    ∃ f, p.mapFiles[t]? = some f ∧ s.tasks[t]? = some (p.taskArgs t f, .finished) := by
  have hlen : t < s.tasks.length := by
    rw [h.index] at hi
    omega
  obtain ⟨f, hf, hargs⟩ := h.args t _ _ (List.getElem?_eq_getElem hlen)
  have hfin : s.tasks[t].2 = .finished := by
    rw [h.wg, List.countP_eq_zero] at hwg
    simpa using hwg _ (List.getElem_mem hlen)
  refine ⟨f, hf, ?_⟩
  rw [List.getElem?_eq_getElem hlen, ← hfin]
  exact congrArg (fun args => some (args, s.tasks[t].2)) hargs

/-- When `schedule` has returned, every task has had one call that returned true. -/
theorem Inv.successes_of_returned (h : Inv p s) (hret : s.status = .returned) {t : ℕ}
    (ht : t < p.ntasks) :
    ∃ f, p.mapFiles[t]? = some f ∧ MapReduce.successes s.calls t = [p.taskArgs t f] := by
  obtain ⟨hi, hwg⟩ := h.returned hret
  obtain ⟨f, hf, hfin⟩ := h.finished hi hwg ht
  refine ⟨f, hf, ?_⟩
  rw [h.successes t, successArgs, hfin]
  rfl

end Results

/-- The invariant of a run. -/
theorem inv_run {p : Phase} {workers : List GoString} (hp : p.Indexed) (hworkers : workers.Nodup)
    (r : (schedule p workers).Run) (hr : r.Meets ScheduleState.Distinct) (k : ℕ) :
    Inv p (r.state k) :=
  r.invariant hr (I := Inv p) (inv_start hworkers) (fun _ _ _ h hok hstep => h.step hp hok hstep) k

/-- **Calls to a worker do not overlap, and every task succeeds once.**  In every map phase, and
in every reduce phase with at most as many tasks as input files, with any workers that
register under distinct addresses at any time, any interleaving and any results of the calls:
`schedule` does not panic, at no moment are two calls to one worker in progress, and when
`schedule` has returned, exactly one call for each task has returned true, with the arguments
of the task. -/
theorem schedule_exclusive_once (p : Phase)
    (hp : p.phase = .reducePhase → p.nReduce ≤ p.mapFiles.length) (workers : List GoString)
    (hworkers : workers.Nodup) (r : (schedule p workers).Run)
    (hr : r.Meets ScheduleState.Distinct) (k : ℕ) :
    (r.state k).status ≠ .panicked ∧
      (∀ t t' w, (r.state k).Calling t w → (r.state k).Calling t' w → t = t') ∧
      ((r.state k).status = .returned → ∀ t < p.ntasks, ∃ f, p.mapFiles[t]? = some f ∧
        successes (r.state k).calls t = [⟨p.jobName, f, p.phase, t, p.nother⟩]) := by
  have hinv := inv_run hp hworkers r hr k
  refine ⟨hinv.running, ?_, ?_⟩
  · intro t t' w ht ht'
    exact hinv.calling_unique ht ht'
  · intro hret t ht
    exact hinv.successes_of_returned hret ht

/-- A reduce phase with two tasks. -/
def twoReduces : Phase :=
  ⟨GoString.lit "job", [GoString.lit "f", GoString.lit "g", GoString.lit "h"], 2, .reducePhase⟩

/-- One worker, which fails task 1 once; a second one registers while it works. -/
def twoReducesActions : List ScheduleAction :=
  [.register (GoString.lit "w"), .fork, .forward, .fork,
    .receive 1 (GoString.lit "w"), .callReturn 1 false, .handBack 1, .receive 0 (GoString.lit "w"),
    .register (GoString.lit "v"), .forward, .test 1, .receive 1 (GoString.lit "v"),
    .callReturn 1 true, .callReturn 0 true, .handBack 0, .test 0, .handBack 1, .test 1, .wait]

theorem schedule_exclusive_once_twoReduces :
    (((schedule twoReduces []).ofList twoReducesActions).state 19).status = .returned ∧
      ∀ t < 2, ∃ f, twoReduces.mapFiles[t]? = some f ∧
        successes (((schedule twoReduces []).ofList twoReducesActions).state 19).calls t =
          [⟨twoReduces.jobName, f, .reducePhase, t, 3⟩] := by
  have hret :
      (((schedule twoReduces []).ofList twoReducesActions).state 19).status = .returned := by
    decide
  have hmeets : ((schedule twoReduces []).ofList twoReducesActions).Meets ScheduleState.Distinct :=
    TransitionSystem.meets_ofList (by decide)
  have honce := schedule_exclusive_once twoReduces (by decide) [] List.nodup_nil _ hmeets 19
  exact ⟨hret, honce.2.2 hret⟩

end Mit6824.MapReduce
