/-
# Distributed MapReduce refines the sequential one

A distributed job gets to its end if its goroutines keep running and every task
eventually gets a successful call, and then its final file is that of `Sequential`.

* `EventuallySucceeds`, `Fair`: what is assumed of a run.  Nothing is assumed of the
  order of the steps, of the workers or of the number of calls that fail;
* `noDeaths`: a run of the job is one of `faulty` in which nobody dies, so it ends
  (`MrProgress`);
* `distributed_refines_sequential_iff`: the job ends without an error, and with the
  result of `Sequential`, exactly when there are at most as many reduce tasks as input
  files.  `schedule` reads `mapFiles[i]` for the reduce tasks too.
-/
import Mit6824.MrProgress

namespace Mit6824.MapReduce

open GoString FileProgram FileSystem

variable {E : Setup}

/-! ## Fair runs -/

/-- Every task that has been started eventually gets a call that returns true, unless the job
crashes before. -/
def EventuallySucceeds (r : (distributed E).Run) : Prop :=
  ∀ k ph t, (r.state k).stage = .phase ph → t < (r.state k).sched.tasks.length →
    ∃ j, ((r.state j).stage = .phase ph ∧ r.act j = some (.sched (.callReturn t true))) ∨
      (r.state j).stage = .crashed

/-- The goroutines of the master keep running.  Registrations, workers and calls are free. -/
structure Fair (r : (distributed E).Run) : Prop where
  fork : r.WeaklyFair (.sched .fork)
  wait : r.WeaklyFair (.sched .wait)
  handBack : ∀ t, r.WeaklyFair (.sched (.handBack t))
  test : ∀ t, r.WeaklyFair (.sched (.test t))
  merge : r.WeaklyFair .merge

/-! ## A run without deaths -/

/-- A worker that is alive may do everything. -/
theorem faulty_step_alive (s : DistState) (a : DistAction) :
    (faulty E).step ⟨s, fun _ => false⟩ (.dist a) =
      (s.step E a).map fun d => ⟨d, fun _ => false⟩ := by
  have hpermits : FaultState.permits ⟨s, fun _ => false⟩ a = true := by
    cases a with
    | begin t =>
        dsimp only [FaultState.permits]
        split <;> rfl
    | work t =>
        dsimp only [FaultState.permits]
        split <;> rfl
    | sched a => rfl
    | merge => rfl
  show FaultState.step E ⟨s, fun _ => false⟩ (.dist a) = _
  rw [FaultState.step, if_pos hpermits]

/-- A job is a job in which nobody dies. -/
def noDeaths (E : Setup) : TransitionSystem.Projection (distributed E) (faulty E) where
  state s := ⟨s, fun _ => false⟩
  act _ a := some (.dist a)
  init := rfl
  idle _ hact := by cases hact
  taken := by
    intro s a s' b hstep hact
    obtain rfl := Option.some.inj hact
    rw [faulty_step_alive, show s.step E a = some s' from hstep]
    rfl

section NoDeaths

variable {r : (distributed E).Run}

/-- Fairness to the goroutines of the master carries over. -/
theorem Fair.master (hfair : Fair r) : MasterFair ((noDeaths E).run r) := by
  have hdist : ∀ {a : DistAction}, r.WeaklyFair a →
      ((noDeaths E).run r).WeaklyFair (.dist a) := by
    intro a ha
    refine ha.projection _ (fun _ => rfl) fun s hnone => ?_
    show (faulty E).step ⟨s, fun _ => false⟩ (.dist a) = none
    rw [faulty_step_alive, show s.step E a = none from hnone]
    rfl
  exact ⟨hdist hfair.fork, hdist hfair.wait, fun t => hdist (hfair.handBack t),
    fun t => hdist (hfair.test t), hdist hfair.merge⟩

/-- Every task that has been started succeeds, and every task is started. -/
theorem EventuallySucceeds.tasksSucceed (hsucc : EventuallySucceeds r)
    (hle : E.job.nReduce ≤ E.job.files.length) (hinv : ∀ j, DistInv E (r.state j))
    (hfair : Fair r) : TasksSucceed ((noDeaths E).run r) := by
  intro k ph hstay t ht
  obtain ⟨i, hi, hlen⟩ := eventually_started hinv hstay hfair.master (indexed_phase hle ph)
  have hstarted : t < (r.state i).sched.tasks.length := (hlen i le_rfl).symm ▸ ht
  obtain ⟨c, ⟨hc, hact⟩ | hc⟩ := hsucc i ph t (hstay i hi) hstarted
  · -- the call may have returned before `k`
    have hstay' : ∀ j ≥ c, (((noDeaths E).run r).state j).dist.stage = .phase ph := by
      intro j hj
      rcases le_total k j with hkj | hjk
      · exact hstay j hkj
      · have hlow := (advances_run ((noDeaths E).run r) hj).1
        have hhigh := (advances_run ((noDeaths E).run r) hjk).1
        rw [show (((noDeaths E).run r).state c).dist.stage = _ from hc] at hlow
        rw [hstay k le_rfl] at hhigh
        exact Stage.eq_of_rank (le_antisymm hhigh hlow)
    have hact' : ((noDeaths E).run r).act c = some (.dist (.sched (.callReturn t true))) := by
      show (r.act c).bind _ = _
      rw [hact]
      rfl
    obtain ⟨args, w, -, hret⟩ := callReturn_moment hstay' le_rfl hact'
    refine ⟨max (c + 1) k, le_max_right _ _, ?_⟩
    refine succeeded_of_le hstay' (Nat.le_succ c) (le_max_left _ _) ?_
    rw [ScheduleState.succeeded, hret]
    rfl
  · exact absurd hc (hinv c).not_crashed

end NoDeaths

/-! ## Jobs with more reduce tasks than input files -/

/-- The loop of `schedule` does not get past the input files. -/
theorem forks_le_of_step {p : Phase} {s s' : ScheduleState} {a : ScheduleAction}
    (h : s.step p a = some s') (hi : s.i ≤ p.mapFiles.length) (hret : s.status ≠ .returned) :
    s'.i ≤ p.mapFiles.length ∧ (s'.status = .returned → p.ntasks ≤ s'.i) := by
  cases moves_of_step h with
  | fork hrun _ hf => exact ⟨(List.getElem?_eq_some_iff.mp hf).1, fun h => absurd h hret⟩
  | outOfRange => exact ⟨hi, nofun⟩
  | wait _ hn _ => exact ⟨hi, fun _ => hn⟩
  | negative => exact ⟨hi, nofun⟩
  | _ => exact ⟨hi, fun h => absurd h hret⟩

/-- Where a job can get: past the reduce phase only if every reduce task has an input file. -/
def Passes (E : Setup) (s : DistState) : Prop :=
  match s.stage with
  | .phase .mapPhase => True
  | .phase .reducePhase => s.sched.i ≤ E.job.files.length ∧ s.sched.status ≠ .returned
  | .merging _ => E.job.nReduce ≤ E.job.files.length
  | .completed => E.job.nReduce ≤ E.job.files.length
  | .crashed => True

/-- Every step of the job keeps to where it can get. -/
theorem Passes.step {s s' : DistState} {a : DistAction} (h : Passes E s)
    (hstep : s.step E a = some s') : Passes E s' := by
  cases distMoves_of_step hstep with
  | @sched ph a sched hst _ hsched =>
      unfold Passes at h
      rw [hst] at h
      cases hstatus : sched.status with
      | panicked =>
          unfold DistState.proceed
          rw [hstatus]
          trivial
      | returned =>
          unfold DistState.proceed
          rw [hstatus]
          cases ph with
          | mapPhase => exact ⟨Nat.zero_le _, nofun⟩
          | reducePhase =>
              obtain ⟨hi, hn⟩ := forks_le_of_step hsched h.1 h.2
              exact (hn hstatus).trans hi
      | running =>
          obtain ⟨hstage, hsched'⟩ := proceed_running hstatus
          unfold Passes
          rw [hstage, hsched', hst]
          cases ph with
          | mapPhase => trivial
          | reducePhase =>
              refine ⟨(forks_le_of_step hsched h.1 h.2).1, ?_⟩
              rw [hstatus]
              exact nofun
  | begin => exact h
  | work => exact h
  | worked => exact h
  | merge hst _ =>
      unfold Passes at h
      rw [hst] at h
      exact h
  | merged hst _ =>
      unfold Passes at h
      rw [hst] at h
      exact h
  | _ => trivial

theorem passes_run (r : (distributed E).Run) (k : ℕ) : Passes E (r.state k) :=
  r.invariant r.meets_true (I := Passes E) trivial (fun _ _ _ h _ hstep => h.step hstep) k

/-! ## The refinement -/

/-- **Distributed execution refines sequential execution exactly for the jobs with at most as many
reduce tasks as input files.**  In every run in which the workers have distinct addresses, the
goroutines of the master keep running and every task eventually gets a successful call: the
job goes through both phases without an error and ends with the final file of `Sequential` if
and only if `nReduce ≤ len(files)`. -/
theorem distributed_refines_sequential_iff (E : Setup) (hn : 1 ≤ E.job.nReduce)
    (hacc : E.job.Accessible E.fs₀) (hvalid : E.job.ValidOutput)
    (ords : ℕ → RangeOrder GoString) (ord : RangeOrder GoString) (r : (distributed E).Run)
    (hdistinct : r.Meets DistState.Distinct) (hfair : Fair r) (hsucc : EventuallySucceeds r) :
    ((∀ k, (r.state k).stage ≠ .crashed) ∧
      ∃ k fs' data, (r.state k).stage = .completed ∧
        (sequential E.json E.hash ords ord E.job).run E.fs₀ = .ok ((), fs') ∧
        fs'.content (outName E.job.jobName) = some data ∧
        (r.state k).fs.content (outName E.job.jobName) = some data) ↔
      E.job.nReduce ≤ E.job.files.length := by
  constructor
  · rintro ⟨_, k, _, _, hk, _⟩
    have hpass := passes_run r k
    unfold Passes at hpass
    rw [hk] at hpass
    exact hpass
  · intro hle
    have hinv := distInv_run hn hacc hvalid hle r hdistinct
    refine ⟨fun k => (hinv k).not_crashed, ?_⟩
    obtain ⟨k, hk⟩ := completes hle hinv hfair.master (hsucc.tasksSucceed hle hinv hfair)
    replace hk : (r.state k).stage = .completed := hk
    have hseq :
        wp (sequential E.json E.hash ords ord E.job) (fun _ => Reported E.job E.fs₀) E.fs₀ :=
      wp_sequential hn hacc.runnable (hvalid.on _) ords ord
    obtain ⟨_, fs', hrun, hfile⟩ := wp_iff_run.mp hseq
    have hreported : Reported E.job E.fs₀ (r.state k).fs := by
      have h := hinv k
      unfold DistInv at h
      rw [hk] at h
      exact h
    exact ⟨k, fs', _, hk, hrun, hfile, hreported⟩

/-! ## Two runs -/

section Runs

/-- Count letters with one or more reduce tasks. -/
def letterSetup (files : List GoString) (nReduce : ℕ) : Setup :=
  ⟨plainJson, ihash, fun _ => storedOrder, countLetters files nReduce, letterFiles⟩

/-- Nothing happens in a job that has ended. -/
theorem step_of_ended {s : DistState} (h : 3 ≤ s.stage.rank) (a : DistAction) :
    (distributed E).step s a = none := by
  show s.step E a = none
  rcases hst : s.stage with ph | p | _ | _
  · rw [hst] at h
    cases ph <;> exact absurd h (by decide)
  · rw [hst] at h
    exact absurd h (by show ¬ 3 ≤ 2; decide)
  all_goals cases a <;> simp [DistState.step, hst]

/-- A list of actions that ends the job is a fair run. -/
theorem fair_ofList {l : List DistAction}
    (h : 3 ≤ (((distributed E).ofList l).state l.length).stage.rank) :
    Fair ((distributed E).ofList l) where
  fork := TransitionSystem.weaklyFair_ofList (step_of_ended h _)
  wait := TransitionSystem.weaklyFair_ofList (step_of_ended h _)
  handBack _ := TransitionSystem.weaklyFair_ofList (step_of_ended h _)
  test _ := TransitionSystem.weaklyFair_ofList (step_of_ended h _)
  merge := TransitionSystem.weaklyFair_ofList (step_of_ended h _)

/-- One worker for one map task and one reduce task.  The reply to the first call is lost. -/
def lostReplyActions : List DistAction :=
  [.sched (.register (lit "w")), .sched .fork, .sched .forward, .sched (.receive 0 (lit "w")),
    .begin 0, .work 0, .work 0, .work 0, .work 0, .sched (.callReturn 0 false),
    .sched (.handBack 0), .sched (.test 0), .sched (.receive 0 (lit "w")),
    .begin 0, .work 0, .work 0, .work 0, .work 0, .sched (.callReturn 0 true),
    .sched (.handBack 0), .sched (.test 0), .sched .wait,
    .sched .fork, .sched .forward, .sched (.receive 0 (lit "w")),
    .begin 0, .work 0, .work 0, .work 0, .work 0, .sched (.callReturn 0 true),
    .sched (.handBack 0), .sched (.test 0), .sched .wait, .merge, .merge, .merge, .merge]

/-- The run of these actions. -/
def lostReply : (distributed (letterSetup [lit "g"] 1)).Run :=
  (distributed (letterSetup [lit "g"] 1)).ofList lostReplyActions

theorem lostReply_distinct : lostReply.Meets DistState.Distinct :=
  TransitionSystem.meets_ofList (by decide)

theorem letterSetup_accessible (nReduce : ℕ) :
    (letterSetup [lit "g"] nReduce).job.Accessible letterFiles :=
  letterFiles_accessible (show [lit "g"] ⊆ _ by decide)

/-- Each of the two tasks has its successful call. -/
theorem lostReply_succeeds : EventuallySucceeds lostReply := by
  intro k ph t hst ht
  have hinv := distInv_run (E := letterSetup [lit "g"] 1) le_rfl (letterSetup_accessible 1)
    (countLetters_valid _ 1) le_rfl lostReply lostReply_distinct k
  have hzero : t = 0 := by
    have hlt := (hinv.phaseInv hst).lt_ntasks (List.getElem?_eq_getElem ht)
    cases ph
    · exact Nat.lt_one_iff.mp hlt
    · exact Nat.lt_one_iff.mp hlt
  subst hzero
  cases ph with
  | mapPhase => exact ⟨18, .inl ⟨Stage.eq_of_rank (by decide), by decide⟩⟩
  | reducePhase => exact ⟨30, .inl ⟨Stage.eq_of_rank (by decide), by decide⟩⟩

theorem distributed_refines_sequential_iff_lostReply :
    (∀ k, (lostReply.state k).stage ≠ .crashed) ∧
      ∃ k fs' data, (lostReply.state k).stage = .completed ∧
        (sequential plainJson ihash (fun _ => storedOrder) storedOrder
          (countLetters [lit "g"] 1)).run letterFiles = .ok ((), fs') ∧
        fs'.content (lit "mrtmp.count") = some data ∧
        (lostReply.state k).fs.content (lit "mrtmp.count") = some data :=
  (distributed_refines_sequential_iff (letterSetup [lit "g"] 1) le_rfl (letterSetup_accessible 1)
    (countLetters_valid _ 1) (fun _ => storedOrder) storedOrder lostReply lostReply_distinct
    (fair_ofList (by decide)) lostReply_succeeds).mpr le_rfl

/-- One map task and two reduce tasks. -/
def moreReducesActions : List DistAction :=
  [.sched (.register (lit "w")), .sched .fork, .sched .forward, .sched (.receive 0 (lit "w")),
    .begin 0, .work 0, .work 0, .work 0, .work 0, .work 0, .sched (.callReturn 0 true),
    .sched (.handBack 0), .sched (.test 0), .sched .wait, .sched .fork, .sched .fork]

/-- The run of these actions. -/
def moreReduces : (distributed (letterSetup [lit "g"] 2)).Run :=
  (distributed (letterSetup [lit "g"] 2)).ofList moreReducesActions

/-- The second reduce task has no input file: `mapFiles[1]` is out of range. -/
theorem moreReduces_crashed : (moreReduces.state 16).stage = .crashed := by
  have hrank : (moreReduces.state 16).stage.rank = 4 := by decide
  rcases hst : (moreReduces.state 16).stage with ph | p | _ | _
  · rw [hst] at hrank
    cases ph <;> cases hrank
  · rw [hst] at hrank
    cases hrank
  · rw [hst] at hrank
    cases hrank
  · rfl

theorem distributed_refines_sequential_fails :
    ¬ ∀ (E : Setup) (ords : ℕ → RangeOrder GoString) (ord : RangeOrder GoString)
      (r : (distributed E).Run), 1 ≤ E.job.nReduce → E.job.Accessible E.fs₀ → E.job.ValidOutput →
      r.Meets DistState.Distinct → Fair r → EventuallySucceeds r →
      (∀ k, (r.state k).stage ≠ .crashed) ∧
        ∃ k fs' data, (r.state k).stage = .completed ∧
          (sequential E.json E.hash ords ord E.job).run E.fs₀ = .ok ((), fs') ∧
          fs'.content (outName E.job.jobName) = some data ∧
          (r.state k).fs.content (outName E.job.jobName) = some data := by
  intro h
  have hdistinct : moreReduces.Meets DistState.Distinct :=
    TransitionSystem.meets_ofList (by decide)
  have hsucc : EventuallySucceeds moreReduces := fun _ _ _ _ _ => ⟨16, .inr moreReduces_crashed⟩
  exact (h _ (fun _ => storedOrder) storedOrder moreReduces (by decide) (letterSetup_accessible 2)
    (countLetters_valid _ 2) hdistinct (fair_ofList (by decide)) hsucc).1 16
    moreReduces_crashed

end Runs

end Mit6824.MapReduce
