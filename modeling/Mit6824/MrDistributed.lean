/-
# Distributed MapReduce

`Distributed` and `run` of `mapreduce/master.go`, and `DoTask` of `worker.go`: the
phases of `schedule` one after the other, with workers that carry out the calls on the
shared file system, and the merge.

* `distributed`: the whole job as a transition system.  Workers take one file
  operation at a time, in any order; a call returns true after its task has been
  executed, and false if it has not been executed, or if it has and the reply is lost.
  A panic of the master, an error of a task and a second `DoTask` at a busy worker end
  the job (`Stage.crashed`);
* `Setup.reads`, `Setup.writes`: the tasks of a phase do not interfere
  (`Setup.subset_compl_writes`);
* `PhaseInv`: every task that has been executed is done, one that is being executed
  will be, and a worker executes one task at most;
* `distInv_run`: with at most as many reduce tasks as input files, no run crashes, and
  a run that has completed has the report of the job in the final file.
-/
import Mit6824.MrSchedule
import Mit6824.MrSequential

namespace Mit6824.MapReduce

open GoString FileProgram FileSystem

/-- A job on a file system, with the JSON package, the hash and the orders in which the
successive loops of the run visit their maps. -/
structure Setup where
  json : Json
  hash : GoString → ℕ
  orders : ℕ → RangeOrder GoString
  job : Job
  fs₀ : Files

/-- The arguments of `schedule`. -/
def Setup.phase (E : Setup) (ph : JobPhase) : Phase :=
  ⟨E.job.jobName, E.job.files, E.job.nReduce, ph⟩

/-- What `DoTask` executes. -/
def Setup.doTask (E : Setup) (ord : RangeOrder GoString) (arg : DoTaskArgs) : Prog Unit :=
  match arg.phase with
  | .mapPhase =>
      doMap E.json E.hash arg.jobName arg.taskNumber arg.file arg.numOtherPhase E.job.mapF
  | .reducePhase => doReduce E.json ord arg.jobName arg.taskNumber
      (mergeName arg.jobName arg.taskNumber) arg.numOtherPhase E.job.reduceF

/-- How far the worker is with the call of a task. -/
inductive Execution where
  /-- `DoTask` has not started. -/
  | idle
  | working (p : Prog Unit)
  /-- `DoTask` has returned. -/
  | complete

/-- The call may return this result. -/
def Execution.canReturn : Execution → Bool → Bool
  | idle, ok => !ok
  | working _, _ => false
  | complete, _ => true

/-- A call that returns is not in execution. -/
theorem Execution.not_working_of_canReturn {e : Execution} {ok : Bool}
    (h : e.canReturn ok = true) (p : Prog Unit) : e ≠ .working p := by
  rintro rfl
  cases h

/-- A call that returns `true` has been executed. -/
theorem Execution.complete_of_canReturn {e : Execution} (h : e.canReturn true = true) :
    e = .complete := by
  cases e with
  | complete => rfl
  | _ => cases h

/-- Where `run` is. -/
inductive Stage where
  /-- In the call of `schedule` for a phase. -/
  | phase (ph : JobPhase)
  | merging (p : Prog Unit)
  | completed
  | crashed

/-- A distributed job: the master, its `schedule`, the workers and the shared file system. -/
structure DistState where
  stage : Stage
  sched : ScheduleState
  /-- The executions of the calls of the tasks. -/
  execs : ℕ → Execution
  /-- The field `concurrent` of the workers. -/
  concurrent : GoString → ℕ
  fs : Files
  /-- The number of loops over maps so far. -/
  visits : ℕ

/-- The steps of `schedule`, of the workers and of `merge`. -/
inductive DistAction where
  | sched (a : ScheduleAction)
  /-- `DoTask` starts for the call of task `t`. -/
  | begin (t : ℕ)
  /-- The next file operation of task `t`, or the return of `DoTask`. -/
  | work (t : ℕ)
  /-- The next file operation of `merge`, or its return. -/
  | merge
  deriving DecidableEq, Repr

namespace DistState

/-- The result of a call depends on the execution. -/
def allows (s : DistState) : ScheduleAction → Bool
  | .callReturn t ok => (s.execs t).canReturn ok
  | _ => true

/-- `run` after a step of `schedule`.  The next phase has its own channel and its own
`forwardRegistrations`; `finish` changes nothing here. -/
def proceed (E : Setup) (s : DistState) (ph : JobPhase) (a : ScheduleAction)
    (sched : ScheduleState) : DistState :=
  match sched.status with
  | .panicked => { s with stage := .crashed, sched := sched }
  | .returned =>
      match ph with
      | .mapPhase => { s with stage := .phase .reducePhase, sched := .start sched.workers }
      | .reducePhase => { s with
          stage := .merging (MapReduce.merge E.json (E.orders s.visits) E.job.jobName E.job.nReduce)
          sched := sched
          visits := s.visits + 1 }
  | .running =>
      match a with
      | .receive t _ => { s with sched := sched, execs := Function.update s.execs t .idle }
      | _ => { s with sched := sched }

/-- One step; `none` when the action is not enabled. -/
def step (E : Setup) (s : DistState) : DistAction → Option DistState
  | .sched a =>
      match s.stage with
      | .phase ph =>
          if s.allows a then (s.sched.step (E.phase ph) a).map (s.proceed E ph a) else none
      | _ => none
  | .begin t =>
      match s.stage, s.sched.tasks[t]?, s.execs t with
      | .phase _, some (args, .calling w), .idle =>
          if s.concurrent w + 1 > 1 then some { s with stage := .crashed }
          else some { s with
            concurrent := Function.update s.concurrent w (s.concurrent w + 1)
            execs := Function.update s.execs t (.working (E.doTask (E.orders s.visits) args))
            visits := s.visits + 1 }
      | _, _, _ => none
  | .work t =>
      match s.stage, s.sched.tasks[t]?, s.execs t with
      | .phase _, some (_, .calling w), .working p =>
          match p.step s.fs with
          | some (p', fs') =>
              some { s with execs := Function.update s.execs t (.working p'), fs := fs' }
          | none =>
              if p.finished then some { s with
                concurrent := Function.update s.concurrent w (s.concurrent w - 1)
                execs := Function.update s.execs t .complete }
              else some { s with stage := .crashed }
      | _, _, _ => none
  | .merge =>
      match s.stage with
      | .merging p =>
          match p.step s.fs with
          | some (p', fs') => some { s with stage := .merging p', fs := fs' }
          | none =>
              if p.finished then some { s with stage := .completed }
              else some { s with stage := .crashed }
      | _ => none

/-- A registration is that of a new address. -/
def Distinct (s : DistState) : DistAction → Prop
  | .sched a => s.sched.Distinct a
  | _ => True

end DistState

/-- A distributed job as a transition system. -/
def distributed (E : Setup) : TransitionSystem DistState DistAction where
  init := ⟨.phase .mapPhase, .start [], fun _ => .idle, fun _ => 0, E.fs₀, 0⟩
  step := DistState.step E

/-- What the steps can do, one case for each outcome. -/
inductive DistMoves (E : Setup) (s : DistState) : DistAction → DistState → Prop
  | sched {ph : JobPhase} {a : ScheduleAction} {sched : ScheduleState} (hst : s.stage = .phase ph)
      (hallow : s.allows a = true) (hstep : s.sched.step (E.phase ph) a = some sched) :
      DistMoves E s (.sched a) (s.proceed E ph a sched)
  | begin {ph : JobPhase} {t : ℕ} {args : DoTaskArgs} {w : GoString} (hst : s.stage = .phase ph)
      (ht : s.sched.tasks[t]? = some (args, .calling w)) (he : s.execs t = .idle)
      (hw : s.concurrent w = 0) :
      DistMoves E s (.begin t) { s with
        concurrent := Function.update s.concurrent w (s.concurrent w + 1)
        execs := Function.update s.execs t (.working (E.doTask (E.orders s.visits) args))
        visits := s.visits + 1 }
  | overlap {ph : JobPhase} {t : ℕ} {args : DoTaskArgs} {w : GoString} (hst : s.stage = .phase ph)
      (ht : s.sched.tasks[t]? = some (args, .calling w)) (he : s.execs t = .idle)
      (hw : s.concurrent w ≠ 0) : DistMoves E s (.begin t) { s with stage := .crashed }
  | work {ph : JobPhase} {t : ℕ} {args : DoTaskArgs} {w : GoString} {p p' : Prog Unit} {fs' : Files}
      (hst : s.stage = .phase ph) (ht : s.sched.tasks[t]? = some (args, .calling w))
      (he : s.execs t = .working p) (hp : p.step s.fs = some (p', fs')) :
      DistMoves E s (.work t)
        { s with execs := Function.update s.execs t (.working p'), fs := fs' }
  | worked {ph : JobPhase} {t : ℕ} {args : DoTaskArgs} {w : GoString} {p : Prog Unit}
      (hst : s.stage = .phase ph) (ht : s.sched.tasks[t]? = some (args, .calling w))
      (he : s.execs t = .working p) (hp : p.step s.fs = none) (hfin : p.finished = true) :
      DistMoves E s (.work t) { s with
        concurrent := Function.update s.concurrent w (s.concurrent w - 1)
        execs := Function.update s.execs t .complete }
  | workFailed {ph : JobPhase} {t : ℕ} {args : DoTaskArgs} {w : GoString} {p : Prog Unit}
      (hst : s.stage = .phase ph) (ht : s.sched.tasks[t]? = some (args, .calling w))
      (he : s.execs t = .working p) (hp : p.step s.fs = none) (hfin : ¬ p.finished = true) :
      DistMoves E s (.work t) { s with stage := .crashed }
  | merge {p p' : Prog Unit} {fs' : Files} (hst : s.stage = .merging p)
      (hp : p.step s.fs = some (p', fs')) :
      DistMoves E s .merge { s with stage := .merging p', fs := fs' }
  | merged {p : Prog Unit} (hst : s.stage = .merging p) (hp : p.step s.fs = none)
      (hfin : p.finished = true) : DistMoves E s .merge { s with stage := .completed }
  | mergeFailed {p : Prog Unit} (hst : s.stage = .merging p) (hp : p.step s.fs = none)
      (hfin : ¬ p.finished = true) : DistMoves E s .merge { s with stage := .crashed }

theorem distMoves_of_step {E : Setup} {s s' : DistState} {a : DistAction}
    (h : s.step E a = some s') : DistMoves E s a s' := by
  cases a with
  | sched a =>
      simp only [DistState.step] at h
      split at h
      · next ph hst =>
          split at h
          · next hallow =>
              obtain ⟨sched, hstep, rfl⟩ := Option.map_eq_some_iff.mp h
              exact .sched hst hallow hstep
          · cases h
      · cases h
  | begin t =>
      simp only [DistState.step] at h
      split at h
      · next ph args w hst ht he =>
          split at h
          · next hw =>
              cases h
              exact .overlap hst ht he (by omega)
          · next hw =>
              cases h
              exact .begin hst ht he (by omega)
      · cases h
  | work t =>
      simp only [DistState.step] at h
      split at h
      · next ph args w p hst ht he =>
          split at h
          · next p' fs' hp =>
              cases h
              exact .work hst ht he hp
          · next hp =>
              split at h
              · next hfin =>
                  cases h
                  exact .worked hst ht he hp hfin
              · next hfin =>
                  cases h
                  exact .workFailed hst ht he hp hfin
      · cases h
  | merge =>
      simp only [DistState.step] at h
      split at h
      · next p hst =>
          split at h
          · next p' fs' hp =>
              cases h
              exact .merge hst hp
          · next hp =>
              split at h
              · next hfin =>
                  cases h
                  exact .merged hst hp hfin
              · next hfin =>
                  cases h
                  exact .mergeFailed hst hp hfin
      · cases h

/-! ## The tasks of a phase -/

namespace Setup

variable (E : Setup)

/-- The files that a task reads. -/
def reads (ph : JobPhase) (t : ℕ) : Set GoString :=
  match ph with
  | .mapPhase => {n | E.job.files[t]? = some n}
  | .reducePhase => reduceReads E.job t

/-- The files that a task writes. -/
def writes (ph : JobPhase) (t : ℕ) : Set GoString :=
  match ph with
  | .mapPhase => mapWrites E.job t
  | .reducePhase => {mergeName E.job.jobName t}

/-- What a task leaves in its files. -/
def Done (ph : JobPhase) (t : ℕ) (fs : Files) : Prop :=
  match ph with
  | .mapPhase => ∀ f, E.job.files[t]? = some f → MapDone E.json E.hash E.job E.fs₀ t f fs
  | .reducePhase => ReduceDone E.json E.hash E.job E.fs₀ t fs

/-- The files that the tasks of a phase need are as they should be. -/
structure Ready (ph : JobPhase) (fs : Files) : Prop where
  inputs : AgreesOn E.job.ownFilesᶜ E.fs₀ fs
  maps : ph = .reducePhase → ∀ t, E.Done .mapPhase t fs

variable {E} {ph : JobPhase} {t t' : ℕ} {fs fs' : Files}

theorem Done.congr (h : E.Done ph t fs) (hagree : AgreesOn (E.writes ph t) fs fs') :
    E.Done ph t fs' := by
  cases ph with
  | mapPhase => exact fun f hf => (h f hf).congr hagree
  | reducePhase => exact ReduceDone.congr h hagree

theorem writes_subset_own (ht : t < (E.phase ph).ntasks) : E.writes ph t ⊆ E.job.ownFiles := by
  cases ph with
  | mapPhase => exact mapWrites_subset_own ht
  | reducePhase =>
      rintro _ rfl
      exact mergeName_mem_own ht

/-- **The tasks of a phase do not interfere.** -/
theorem subset_compl_writes (hacc : E.job.Accessible E.fs₀) (hne : t ≠ t')
    (ht' : t' < (E.phase ph).ntasks) : E.reads ph t ∪ E.writes ph t ⊆ (E.writes ph t')ᶜ := by
  rintro n (hn | hn) hn'
  · cases ph with
    | mapPhase => exact hacc.foreign n (List.mem_of_getElem? hn) (writes_subset_own ht' hn')
    | reducePhase =>
        obtain ⟨m, _, rfl⟩ := hn
        exact reduceName_ne_mergeName _ _ _ _ hn'
  · cases ph with
    | mapPhase => exact mapWrites_subset_compl hne hn hn'
    | reducePhase =>
        obtain rfl := hn
        exact hne (mergeName_inj hn')

/-- A task of the phase leaves what the others need. -/
theorem Ready.congr (h : E.Ready ph fs) (ht : t < (E.phase ph).ntasks)
    (hagree : AgreesOn (E.writes ph t)ᶜ fs fs') : E.Ready ph fs' where
  inputs := h.inputs.trans (hagree.mono (Set.compl_subset_compl.mpr (writes_subset_own ht)))
  maps hph m := by
    subst hph
    exact (h.maps rfl m).congr (hagree.mono (mapWrites_subset_mergeName m t))

theorem ready_start : E.Ready .mapPhase E.fs₀ :=
  ⟨.refl _ _, nofun⟩

/-- The reduce phase can start when the map tasks are done. -/
theorem Ready.reducePhase (h : E.Ready .mapPhase fs)
    (hdone : ∀ t < E.job.files.length, E.Done .mapPhase t fs) : E.Ready .reducePhase fs := by
  refine ⟨h.inputs, ?_⟩
  intro _ t f hf
  exact hdone t (List.getElem?_eq_some_iff.mp hf).1 f hf

theorem uses_doTask (ord : RangeOrder GoString) {f : GoString} (hf : E.job.files[t]? = some f) :
    (E.doTask ord ((E.phase ph).taskArgs t f)).Uses (E.reads ph t) (E.writes ph t) := by
  cases ph with
  | mapPhase =>
      have hreads : E.reads .mapPhase t = {f} := by
        ext n
        show E.job.files[t]? = some n ↔ n = f
        rw [hf, Option.some_inj]
        exact eq_comm
      rw [hreads]
      exact uses_doMap _ _ _ _ _ _ _
  | reducePhase => exact uses_doReduce _ _ _ _ _ _ _

/-- A task does its work when it is executed alone. -/
theorem wp_doTask (hn : 1 ≤ E.job.nReduce) (hacc : E.job.Accessible E.fs₀)
    (hvalid : E.job.ValidOutput) (ord : RangeOrder GoString) {f : GoString}
    (hf : E.job.files[t]? = some f) (ht : t < (E.phase ph).ntasks) (h : E.Ready ph fs) :
    wp (E.doTask ord ((E.phase ph).taskArgs t f)) (fun _ => E.Done ph t) fs := by
  cases ph with
  | mapPhase =>
      have hforeign : {f} ⊆ E.job.ownFilesᶜ := by
        rintro _ rfl
        exact hacc.foreign _ (List.mem_of_getElem? hf)
      refine (wp_mapTask hn hacc.runnable hf (h.inputs.mono hforeign)).mono ?_
      intro _ fs' hdone f' hf'
      rw [hf] at hf'
      cases hf'
      exact hdone
  | reducePhase =>
      exact wp_reduceTask hacc.runnable (hvalid.on _) ht h.inputs.creatable
        fun m f hm => h.maps rfl m f hm

/-- So does the merge when the reduce tasks are done. -/
theorem wp_merge_of_done (hn : 1 ≤ E.job.nReduce) (hacc : E.job.Accessible E.fs₀)
    (hvalid : E.job.ValidOutput) (ord : RangeOrder GoString) (h : E.Ready .reducePhase fs)
    (hdone : ∀ t < E.job.nReduce, E.Done .reducePhase t fs) :
    wp (MapReduce.merge E.json ord E.job.jobName E.job.nReduce)
      (fun _ => Reported E.job E.fs₀) fs :=
  wp_mergeTask hn hacc.runnable (hvalid.on _) h.inputs.creatable hdone

end Setup

/-! ## The invariant of a phase -/

namespace DistState

/-- Task `t` is being executed by `w`. -/
def Works (s : DistState) (t : ℕ) (w : GoString) (p : Prog Unit) : Prop :=
  s.sched.Calling t w ∧ s.execs t = .working p

/-- Task `t` has been executed in its current call, or in one that has returned true. -/
def Achieved (s : DistState) (t : ℕ) : Prop :=
  ∃ args q, s.sched.tasks[t]? = some (args, q) ∧
    (q.succeeded = true ∨ (∃ w, q = .calling w) ∧ s.execs t = .complete)

end DistState

/-- What holds throughout a phase. -/
structure PhaseInv (E : Setup) (ph : JobPhase) (s : DistState) : Prop where
  sched : Inv (E.phase ph) s.sched
  running : s.sched.status = .running
  ready : E.Ready ph s.fs
  /-- What is being executed does its work. -/
  works : ∀ t w p, s.Works t w p →
    p.Uses (E.reads ph t) (E.writes ph t) ∧ p.wp (fun _ => E.Done ph t) s.fs
  achieved : ∀ t, s.Achieved t → E.Done ph t s.fs
  /-- A busy worker executes one task, which it has been called for. -/
  busy : ∀ w, s.concurrent w ≤ 1 ∧ (s.concurrent w ≠ 0 → ∃ t p, s.Works t w p)

section Phase

variable {E : Setup} {ph : JobPhase} {s s' : DistState}

theorem phaseInv_start {workers : List GoString} (hworkers : workers.Nodup) {fs : Files}
    (hready : E.Ready ph fs) {execs : ℕ → Execution} {concurrent : GoString → ℕ}
    (hidle : ∀ w, concurrent w = 0) {visits : ℕ} :
    PhaseInv E ph ⟨.phase ph, .start workers, execs, concurrent, fs, visits⟩ where
  sched := inv_start hworkers
  running := rfl
  ready := hready
  works t w p h := by
    obtain ⟨⟨args, ht⟩, _⟩ := h
    cases ht
  achieved t h := by
    obtain ⟨args, q, ht, _⟩ := h
    cases ht
  busy w := by
    have hw : concurrent w = 0 := hidle w
    exact ⟨by show concurrent w ≤ 1; omega, fun h => absurd hw h⟩

theorem PhaseInv.lt_ntasks (h : PhaseInv E ph s) {t : ℕ} {args : DoTaskArgs} {q : Routine}
    (ht : s.sched.tasks[t]? = some (args, q)) : t < (E.phase ph).ntasks := by
  have hlen : t < s.sched.tasks.length := (List.getElem?_eq_some_iff.mp ht).1
  rw [← h.sched.index] at hlen
  exact hlen.trans_le h.sched.bound

/-- A step of `schedule` that neither starts nor ends an execution. -/
theorem PhaseInv.of_same (h : PhaseInv E ph s) (hsched : Inv (E.phase ph) s'.sched)
    (hrun : s'.sched.status = .running) (hfs : s'.fs = s.fs) (hconc : s'.concurrent = s.concurrent)
    (hworks : ∀ t w p, s'.Works t w p ↔ s.Works t w p)
    (hachieved : ∀ t, s'.Achieved t → s.Achieved t) : PhaseInv E ph s' where
  sched := hsched
  running := hrun
  ready := by
    rw [hfs]
    exact h.ready
  works t w p hw := by
    rw [hfs]
    exact h.works t w p ((hworks t w p).mp hw)
  achieved t ht := by
    rw [hfs]
    exact h.achieved t (hachieved t ht)
  busy w := by
    rw [hconc]
    refine ⟨(h.busy w).1, ?_⟩
    intro hw
    obtain ⟨t, p, hwork⟩ := (h.busy w).2 hw
    exact ⟨t, p, (hworks t w p).mpr hwork⟩

/-- A goroutine of `schedule` moves, and no execution is touched by it. -/
theorem PhaseInv.move (h : PhaseInv E ph s) {t : ℕ} {args : DoTaskArgs} {q q' : Routine}
    {sched : ScheduleState} {execs : ℕ → Execution}
    (ht : s.sched.tasks[t]? = some (args, q))
    (htasks : sched.tasks = (s.sched.setTask t args q').tasks)
    (hsched : Inv (E.phase ph) sched) (hrun : sched.status = .running)
    (hexecs : ∀ t' ≠ t, execs t' = s.execs t')
    (hq : ∀ w p, q = .calling w → s.execs t ≠ .working p)
    (hq' : ∀ w p, q' = .calling w → execs t ≠ .working p)
    (hdone : q'.succeeded = true ∨ (∃ w, q' = .calling w) ∧ execs t = .complete →
      q.succeeded = true ∨ (∃ w, q = .calling w) ∧ s.execs t = .complete) :
    PhaseInv E ph { s with sched := sched, execs := execs } := by
  have hget : ∀ t', sched.tasks[t']? = if t' = t then some (args, q') else s.sched.tasks[t']? := by
    intro t'
    rw [htasks]
    exact getElem?_setTask ht q' t'
  refine h.of_same hsched hrun rfl rfl ?_ ?_
  · intro t' w p
    show (∃ args, sched.tasks[t']? = some (args, .calling w)) ∧ execs t' = .working p ↔
      (∃ args, s.sched.tasks[t']? = some (args, .calling w)) ∧ s.execs t' = .working p
    rw [hget]
    by_cases htt : t' = t
    · subst htt
      rw [if_pos rfl, ht]
      constructor
      · rintro ⟨⟨_, heq⟩, hwork⟩
        cases heq
        exact absurd hwork (hq' w p rfl)
      · rintro ⟨⟨_, heq⟩, hwork⟩
        cases heq
        exact absurd hwork (hq w p rfl)
    · rw [if_neg htt, hexecs t' htt]
  · rintro t' ⟨args', r, hr, hdone'⟩
    rw [hget] at hr
    by_cases htt : t' = t
    · subst htt
      rw [if_pos rfl] at hr
      cases hr
      exact ⟨args, q, ht, hdone hdone'⟩
    · rw [if_neg htt] at hr
      refine ⟨args', r, hr, ?_⟩
      rw [← hexecs t' htt]
      exact hdone'

/-- A goroutine moves that is in no call, neither before nor after. -/
theorem PhaseInv.move_uncalled (h : PhaseInv E ph s) {t : ℕ} {args : DoTaskArgs} {q q' : Routine}
    {sched : ScheduleState} (ht : s.sched.tasks[t]? = some (args, q))
    (htasks : sched.tasks = (s.sched.setTask t args q').tasks)
    (hsched : Inv (E.phase ph) sched) (hrun : sched.status = .running)
    (hq : ∀ w, q ≠ .calling w) (hq' : ∀ w, q' ≠ .calling w)
    (hdone : q'.succeeded = true → q.succeeded = true) :
    PhaseInv E ph { s with sched := sched } := by
  refine h.move ht htasks hsched hrun (fun _ _ => rfl) ?_ ?_ ?_
  · intro w p hw
    exact absurd hw (hq w)
  · intro w p hw
    exact absurd hw (hq' w)
  · rintro (hsucc | ⟨⟨w, hw⟩, -⟩)
    · exact .inl (hdone hsucc)
    · exact absurd hw (hq' w)

/-- `schedule` forks the goroutine of one more task. -/
theorem PhaseInv.fork (h : PhaseInv E ph s) {args : DoTaskArgs} {sched : ScheduleState}
    (htasks : sched.tasks = s.sched.tasks ++ [(args, .receiving)])
    (hsched : Inv (E.phase ph) sched) (hrun : sched.status = .running) :
    PhaseInv E ph { s with sched := sched } := by
  refine h.of_same hsched hrun rfl rfl ?_ ?_
  · intro t w p
    refine and_congr_left' (exists_congr fun args => ?_)
    show sched.tasks[t]? = _ ↔ _
    rw [htasks]
    by_cases hlast : t = s.sched.tasks.length
    · rw [hlast, List.getElem?_concat_length, List.getElem?_eq_none le_rfl]
      simp
    · rw [getElem?_concat_ne hlast]
  · rintro t ⟨args, q, hq, hdone⟩
    rw [htasks] at hq
    by_cases hlast : t = s.sched.tasks.length
    · rw [hlast, List.getElem?_concat_length] at hq
      cases hq
      simp [Routine.succeeded] at hdone
    · rw [getElem?_concat_ne hlast] at hq
      exact ⟨args, q, hq, hdone⟩

/-- A step of `schedule` before its return. -/
theorem PhaseInv.sched_step (hp : (E.phase ph).Indexed) (h : PhaseInv E ph s) {a : ScheduleAction}
    (hok : s.sched.Distinct a) (hallow : s.allows a = true) {sched : ScheduleState}
    (hstep : s.sched.step (E.phase ph) a = some sched) (hwait : a ≠ .wait) :
    sched.status = .running ∧ PhaseInv E ph (s.proceed E ph a sched) := by
  have hinv : Inv (E.phase ph) sched := h.sched.step hp hok hstep
  have hrun : sched.status = .running := by
    cases moves_of_step hstep with
    | wait => exact absurd rfl hwait
    | outOfRange => exact absurd rfl hinv.running
    | negative => exact absurd rfl hinv.running
    | _ => exact h.running
  refine ⟨hrun, ?_⟩
  unfold DistState.proceed
  rw [hrun]
  cases moves_of_step hstep with
  | fork _ hi hf => exact h.fork rfl hinv hrun
  | outOfRange => exact absurd rfl hinv.running
  | wait => exact absurd rfl hwait
  | register w => exact h.of_same hinv hrun rfl rfl (fun _ _ _ => Iff.rfl) fun _ h => h
  | forward hw => exact h.of_same hinv hrun rfl rfl (fun _ _ _ => Iff.rfl) fun _ h => h
  | receive ht hw =>
      refine h.move ht rfl hinv hrun (fun t' htt => Function.update_of_ne htt _ _) (by simp) ?_ ?_
      · intro w' p _
        rw [Function.update_self]
        simp
      · rintro (hsucc | ⟨_, hcomplete⟩)
        · cases hsucc
        · rw [Function.update_self] at hcomplete
          cases hcomplete
  | callReturn ok ht =>
      -- the call has been executed, or it has not and returns false
      have hcan : (s.execs _).canReturn ok = true := hallow
      refine h.move ht rfl hinv hrun (fun _ _ => rfl) ?_ (by simp) ?_
      · intro _ p _
        exact Execution.not_working_of_canReturn hcan p
      · rintro (hsucc | ⟨⟨w', hw'⟩, _⟩)
        · obtain rfl : ok = true := hsucc
          exact .inr ⟨⟨_, rfl⟩, Execution.complete_of_canReturn hcan⟩
        · cases hw'
  | handBack ht => exact h.move_uncalled ht rfl hinv hrun (by simp) (by simp) id
  | retry ht => exact h.move_uncalled ht rfl hinv hrun (by simp) (by simp) id
  | finish ht hwg => exact h.move_uncalled ht rfl hinv hrun (by simp) (by simp) fun _ => rfl
  | negative => exact absurd rfl hinv.running

/-- At the return of `schedule` the tasks of the phase are done and no worker is busy. -/
theorem PhaseInv.returned (h : PhaseInv E ph s) (hi : (E.phase ph).ntasks ≤ s.sched.i)
    (hwg : s.sched.wg = 0) :
    (∀ t < (E.phase ph).ntasks, E.Done ph t s.fs) ∧ ∀ w, s.concurrent w = 0 := by
  constructor
  · intro t ht
    obtain ⟨f, _, hfin⟩ := h.sched.finished hi hwg ht
    exact h.achieved t ⟨_, _, hfin, .inl rfl⟩
  · intro w
    by_contra hw
    obtain ⟨t, p, ⟨args, hcall⟩, _⟩ := (h.busy w).2 hw
    obtain ⟨f, _, hfin⟩ := h.sched.finished hi hwg (h.lt_ntasks hcall)
    rw [hcall] at hfin
    cases hfin

/-- A call that has not been executed finds its worker free. -/
theorem PhaseInv.free (h : PhaseInv E ph s) {t : ℕ} {w : GoString} (hcall : s.sched.Calling t w)
    (he : s.execs t = .idle) : s.concurrent w = 0 := by
  by_contra hw
  obtain ⟨t', p, hcall', he'⟩ := (h.busy w).2 hw
  rw [h.sched.calling_unique hcall hcall', he'] at he
  cases he

/-- The execution of a call gets further, to `e`. -/
theorem PhaseInv.exec (hacc : E.job.Accessible E.fs₀) (h : PhaseInv E ph s) {t visits : ℕ}
    {args : DoTaskArgs} {w : GoString} (ht : s.sched.tasks[t]? = some (args, .calling w))
    {e : Execution} {concurrent : GoString → ℕ} {fs' : Files}
    (hframe : AgreesOn (E.writes ph t)ᶜ s.fs fs')
    (hworks : ∀ p, e = .working p →
      p.Uses (E.reads ph t) (E.writes ph t) ∧ p.wp (fun _ => E.Done ph t) fs')
    (hdone : e = .complete → E.Done ph t fs')
    (hbusy : concurrent w ≤ 1 ∧ (concurrent w ≠ 0 → ∃ p, e = .working p))
    (hfree : ∀ w' ≠ w, concurrent w' = s.concurrent w') :
    PhaseInv E ph
      ⟨s.stage, s.sched, Function.update s.execs t e, concurrent, fs', visits⟩ := by
  have hlt := h.lt_ntasks ht
  have hself : Function.update s.execs t e t = e := Function.update_self _ _ _
  have hother : ∀ t' ≠ t, Function.update s.execs t e t' = s.execs t' :=
    fun t' htt => Function.update_of_ne htt _ _
  have hagree : ∀ t' ≠ t, AgreesOn (E.reads ph t' ∪ E.writes ph t') s.fs fs' :=
    fun t' htt => hframe.mono (E.subset_compl_writes hacc htt hlt)
  refine ⟨h.sched, h.running, h.ready.congr hlt hframe, ?_, ?_, ?_⟩
  · rintro t' w' p ⟨hcall, hwork⟩
    by_cases htt : t' = t
    · subst htt
      exact hworks p (hself.symm.trans hwork)
    · obtain ⟨huses, hwp⟩ := h.works t' w' p ⟨hcall, (hother t' htt).symm.trans hwork⟩
      exact ⟨huses, wp_congr huses (fun _ _ _ hag hd => hd.congr hag) (hagree t' htt) hwp⟩
  · rintro t' ⟨args', q, hq, hach⟩
    by_cases htt : t' = t
    · subst htt
      cases ht.symm.trans hq
      rcases hach with hsucc | ⟨_, hcomplete⟩
      · cases hsucc
      · exact hdone (hself.symm.trans hcomplete)
    · have hach' : s.Achieved t' := by
        refine ⟨args', q, hq, ?_⟩
        rw [← hother t' htt]
        exact hach
      exact (h.achieved t' hach').congr ((hagree t' htt).mono Set.subset_union_right)
  · intro w'
    show concurrent w' ≤ 1 ∧ (concurrent w' ≠ 0 → _)
    by_cases hww : w' = w
    · subst hww
      refine ⟨hbusy.1, ?_⟩
      intro hw'
      obtain ⟨p, hp⟩ := hbusy.2 hw'
      exact ⟨t, p, ⟨args, ht⟩, hself.trans hp⟩
    · rw [hfree w' hww]
      refine ⟨(h.busy w').1, ?_⟩
      intro hw'
      obtain ⟨t', p, ⟨args', hcall⟩, hwork⟩ := (h.busy w').2 hw'
      have htt : t' ≠ t := by
        rintro rfl
        cases ht.symm.trans hcall
        exact hww rfl
      exact ⟨t', p, ⟨args', hcall⟩, (hother t' htt).trans hwork⟩

/-- `DoTask` starts. -/
theorem PhaseInv.begin (hn : 1 ≤ E.job.nReduce) (hacc : E.job.Accessible E.fs₀)
    (hvalid : E.job.ValidOutput) (h : PhaseInv E ph s) {t visits : ℕ} {args : DoTaskArgs}
    {w : GoString} (ht : s.sched.tasks[t]? = some (args, .calling w)) (hw : s.concurrent w = 0)
    (ord : RangeOrder GoString) :
    PhaseInv E ph ⟨s.stage, s.sched, Function.update s.execs t (.working (E.doTask ord args)),
      Function.update s.concurrent w (s.concurrent w + 1), s.fs, visits⟩ := by
  obtain ⟨f, hf, rfl⟩ := h.sched.args t args _ ht
  apply h.exec hacc ht (.refl _ _)
  · intro p hp
    cases hp
    exact ⟨E.uses_doTask ord hf, E.wp_doTask hn hacc hvalid ord hf (h.lt_ntasks ht) h.ready⟩
  · exact nofun
  · rw [Function.update_self, hw]
    exact ⟨le_rfl, fun _ => ⟨_, rfl⟩⟩
  · exact fun w' hww => Function.update_of_ne hww _ _

/-- A worker takes a file operation. -/
theorem PhaseInv.work (hacc : E.job.Accessible E.fs₀) (h : PhaseInv E ph s) {t : ℕ}
    {args : DoTaskArgs} {w : GoString} (ht : s.sched.tasks[t]? = some (args, .calling w))
    {p p' : Prog Unit} {fs' : Files} (he : s.execs t = .working p)
    (hp : p.step s.fs = some (p', fs')) :
    PhaseInv E ph
      ⟨s.stage, s.sched, Function.update s.execs t (.working p'), s.concurrent, fs', s.visits⟩ := by
  obtain ⟨huses, hwp⟩ := h.works t w p ⟨⟨args, ht⟩, he⟩
  obtain ⟨huses', hframe⟩ := huses.step hp
  apply h.exec hacc ht hframe
  · intro r hr
    cases hr
    exact ⟨huses', wp_step hwp hp⟩
  · exact nofun
  · exact ⟨(h.busy w).1, fun _ => ⟨p', rfl⟩⟩
  · exact fun _ _ => rfl

/-- `DoTask` returns. -/
theorem PhaseInv.worked (hacc : E.job.Accessible E.fs₀) (h : PhaseInv E ph s) {t : ℕ}
    {args : DoTaskArgs} {w : GoString} (ht : s.sched.tasks[t]? = some (args, .calling w))
    {p : Prog Unit} (he : s.execs t = .working p) (hp : p.step s.fs = none) :
    PhaseInv E ph ⟨s.stage, s.sched, Function.update s.execs t .complete,
      Function.update s.concurrent w (s.concurrent w - 1), s.fs, s.visits⟩ := by
  obtain ⟨_, hwp⟩ := h.works t w p ⟨⟨args, ht⟩, he⟩
  apply h.exec hacc ht (.refl _ _)
  · exact nofun
  · intro _
    exact (hwp.finished hp).2.choose_spec
  · have hle := (h.busy w).1
    rw [Function.update_self]
    exact ⟨by omega, fun hne => by omega⟩
  · exact fun w' hww => Function.update_of_ne hww _ _

end Phase

/-! ## The invariant of a run -/

/-- At every stage of a job. -/
def DistInv (E : Setup) (s : DistState) : Prop :=
  match s.stage with
  | .phase ph => PhaseInv E ph s
  | .merging p => p.wp (fun _ => Reported E.job E.fs₀) s.fs
  | .completed => Reported E.job E.fs₀ s.fs
  | .crashed => False

section Run

variable {E : Setup} {s s' : DistState} {a : DistAction}

theorem DistInv.phaseInv (h : DistInv E s) {ph : JobPhase} (hst : s.stage = .phase ph) :
    PhaseInv E ph s := by
  unfold DistInv at h
  rw [hst] at h
  exact h

theorem DistInv.merging (h : DistInv E s) {p : Prog Unit} (hst : s.stage = .merging p) :
    p.wp (fun _ => Reported E.job E.fs₀) s.fs := by
  unfold DistInv at h
  rw [hst] at h
  exact h

theorem DistInv.not_crashed (h : DistInv E s) : s.stage ≠ .crashed := by
  intro hst
  unfold DistInv at h
  rw [hst] at h
  exact h

theorem indexed_phase (hle : E.job.nReduce ≤ E.job.files.length) (ph : JobPhase) :
    (E.phase ph).Indexed :=
  fun _ => hle

/-- The step from a phase to what follows it. -/
theorem PhaseInv.distInv_wait (hn : 1 ≤ E.job.nReduce) (hacc : E.job.Accessible E.fs₀)
    (hvalid : E.job.ValidOutput) {ph : JobPhase} (h : PhaseInv E ph s)
    (hi : (E.phase ph).ntasks ≤ s.sched.i) (hwg : s.sched.wg = 0) :
    DistInv E (s.proceed E ph .wait { s.sched with status := .returned }) := by
  obtain ⟨hdone, hidle⟩ := h.returned hi hwg
  cases ph with
  | mapPhase => exact phaseInv_start h.sched.nodup (h.ready.reducePhase hdone) hidle
  | reducePhase => exact E.wp_merge_of_done hn hacc hvalid _ h.ready hdone

/-- A state of a phase with its invariant. -/
theorem PhaseInv.distInv {ph : JobPhase} (hst : s.stage = .phase ph) (h : PhaseInv E ph s) :
    DistInv E s := by
  unfold DistInv
  rw [hst]
  exact h

/-- A step of `schedule` that does not return stays in its phase. -/
theorem proceed_running {ph : JobPhase} {a : ScheduleAction} {sched : ScheduleState}
    (hrun : sched.status = .running) :
    (s.proceed E ph a sched).stage = s.stage ∧ (s.proceed E ph a sched).sched = sched := by
  unfold DistState.proceed
  rw [hrun]
  cases a <;> exact ⟨rfl, rfl⟩

/-- **The step lemma.** -/
theorem DistInv.step (hn : 1 ≤ E.job.nReduce) (hacc : E.job.Accessible E.fs₀)
    (hvalid : E.job.ValidOutput) (hle : E.job.nReduce ≤ E.job.files.length) (h : DistInv E s)
    (hok : s.Distinct a) (hstep : s.step E a = some s') : DistInv E s' := by
  cases distMoves_of_step hstep with
  | @sched ph a sched hst hallow hsched =>
      have hph := h.phaseInv hst
      by_cases hwait : a = .wait
      · subst hwait
        cases moves_of_step hsched with
        | wait _ hi hwg => exact hph.distInv_wait hn hacc hvalid hi hwg
      · obtain ⟨hrun, hph'⟩ := hph.sched_step (indexed_phase hle ph) hok hallow hsched hwait
        exact hph'.distInv ((proceed_running hrun).1.trans hst)
  | begin hst ht he hw =>
      exact ((h.phaseInv hst).begin hn hacc hvalid ht hw _).distInv hst
  | overlap hst ht he hw => exact absurd ((h.phaseInv hst).free ⟨_, ht⟩ he) hw
  | work hst ht he hp => exact ((h.phaseInv hst).work hacc ht he hp).distInv hst
  | worked hst ht he hp hfin => exact ((h.phaseInv hst).worked hacc ht he hp).distInv hst
  | workFailed hst ht he hp hfin =>
      exact absurd (((h.phaseInv hst).works _ _ _ ⟨⟨_, ht⟩, he⟩).2.finished hp).1 hfin
  | merge hst hp => exact wp_step (h.merging hst) hp
  | merged hst hp hfin => exact ((h.merging hst).finished hp).2.choose_spec
  | mergeFailed hst hp hfin => exact absurd ((h.merging hst).finished hp).1 hfin

theorem distInv_init : DistInv E (distributed E).init :=
  phaseInv_start List.nodup_nil E.ready_start fun _ => rfl

theorem distInv_run (hn : 1 ≤ E.job.nReduce) (hacc : E.job.Accessible E.fs₀)
    (hvalid : E.job.ValidOutput) (hle : E.job.nReduce ≤ E.job.files.length)
    (r : (distributed E).Run) (hr : r.Meets DistState.Distinct) (k : ℕ) : DistInv E (r.state k) :=
  r.invariant hr (I := DistInv E) distInv_init
    (fun _ _ _ h hok hstep => h.step hn hacc hvalid hle hok hstep) k

end Run

end Mit6824.MapReduce
