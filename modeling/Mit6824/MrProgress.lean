/-
# How a distributed job gets on

A worker is a process of its own, and it may end at any moment: before it gets a call, after
it has answered, or in the middle of `DoTask`, with some of the output files of its task
missing, empty or half written.  The call then fails, and `schedule` gives the task to the
next worker it receives, which may be the dead one again.

* `faulty`: the system of `MrDistributed` with the deaths of workers.  What a dead worker has
  written stays on the shared file system;
* `PhaseInv.abort`: a death keeps the invariant of the phase.  An attempt starts with
  `os.Create`, which truncates, so what an earlier one has left is not read;
* `Advances`: a run never goes back over its stages;
* `RoutineStep`: what a step does to the goroutine of a task;
* `completes`: if the goroutines of the master keep running (`MasterFair`) and every task of a
  phase succeeds at some time (`TasksSucceed`), then every stage is left and the job ends.
  Who dies and how many calls fail does not matter.
-/
import Mit6824.MrDistributed

namespace Mit6824.MapReduce

open GoString FileProgram FileSystem

variable {E : Setup}

/-! ## Workers that die -/

/-- An execution after the death of `w`, where `q` is the task with its goroutine. -/
def Execution.abort (w : GoString) (q : Option (DoTaskArgs × Routine)) (e : Execution) :
    Execution :=
  match q, e with
  | some (_, .calling w'), .working p => if w' = w then .idle else .working p
  | _, e => e

/-- The executions of a worker end where they are. -/
def DistState.abort (s : DistState) (w : GoString) : DistState :=
  { s with
    execs := fun t => (s.execs t).abort w s.sched.tasks[t]?
    concurrent := Function.update s.concurrent w 0 }

instance (s : DistState) (a : DistAction) : Decidable (s.Distinct a) := by
  cases a <;> unfold DistState.Distinct <;> infer_instance

/-- A distributed job and the workers whose processes have ended. -/
structure FaultState where
  dist : DistState
  dead : GoString → Bool

/-- The steps of the job, and deaths. -/
inductive FaultAction where
  | dist (a : DistAction)
  /-- The process of worker `w` ends. -/
  | die (w : GoString)
  deriving DecidableEq, Repr

namespace FaultState

/-- `DoTask` runs on workers that are alive only. -/
def permits (s : FaultState) : DistAction → Bool
  | .begin t | .work t =>
      match s.dist.sched.tasks[t]? with
      | some (_, .calling w) => !s.dead w
      | _ => true
  | _ => true

/-- One step; a worker that has died does not die again. -/
def step (E : Setup) (s : FaultState) : FaultAction → Option FaultState
  | .dist a =>
      if s.permits a then (s.dist.step E a).map fun d => { s with dist := d } else none
  | .die w =>
      if s.dead w then none
      else some ⟨s.dist.abort w, Function.update s.dead w true⟩

/-- A registration is that of a new address. -/
def Distinct (s : FaultState) : FaultAction → Prop
  | .dist a => s.dist.Distinct a
  | .die _ => True

instance (s : FaultState) (a : FaultAction) : Decidable (s.Distinct a) := by
  cases a <;> unfold Distinct <;> infer_instance

end FaultState

/-- A distributed job with deaths as a transition system. -/
def faulty (E : Setup) : TransitionSystem FaultState FaultAction where
  init := ⟨(distributed E).init, fun _ => false⟩
  step := FaultState.step E

/-- A step is one of the job, or a death. -/
theorem faulty_cases {s s' : FaultState} {a : FaultAction} (h : s.step E a = some s') :
    (∃ b, a = .dist b ∧ s.dist.step E b = some s'.dist) ∨
      ∃ w, a = .die w ∧ s'.dist = s.dist.abort w := by
  cases a with
  | dist b =>
      simp only [FaultState.step] at h
      split at h
      · obtain ⟨d, hd, rfl⟩ := Option.map_eq_some_iff.mp h
        exact .inl ⟨b, rfl, hd⟩
      · cases h
  | die w =>
      simp only [FaultState.step] at h
      split at h
      · cases h
      · cases h
        exact .inr ⟨w, rfl, rfl⟩

/-! ## A death keeps the invariant -/

section Deaths

variable {ph : JobPhase} {s : DistState} {w : GoString}

theorem Execution.abort_eq_working {args : DoTaskArgs} {w' : GoString} {e : Execution}
    {p : Prog Unit} :
    e.abort w (some (args, .calling w')) = .working p ↔ e = .working p ∧ w' ≠ w := by
  cases e with
  | idle => simp [Execution.abort]
  | working q =>
      show (if w' = w then Execution.idle else .working q) = .working p ↔ _
      split_ifs with hw
      · simp [hw]
      · simp [hw]
  | complete => simp [Execution.abort]

theorem Execution.eq_complete_of_abort {args : DoTaskArgs} {w' : GoString} {e : Execution}
    (h : e.abort w (some (args, .calling w')) = .complete) : e = .complete := by
  cases e with
  | idle => cases h
  | working q =>
      have h' : (if w' = w then Execution.idle else .working q) = .complete := h
      split_ifs at h'
  | complete => rfl

/-- What is executed after a death was executed before, by another worker. -/
theorem DistState.works_abort {t : ℕ} {w' : GoString} {p : Prog Unit} :
    (s.abort w).Works t w' p ↔ s.Works t w' p ∧ w' ≠ w := by
  constructor
  · rintro ⟨⟨args, ht⟩, he⟩
    have ht' : s.sched.tasks[t]? = some (args, .calling w') := ht
    have he' : (s.execs t).abort w s.sched.tasks[t]? = .working p := he
    rw [ht'] at he'
    obtain ⟨hexec, hw⟩ := Execution.abort_eq_working.mp he'
    exact ⟨⟨⟨args, ht'⟩, hexec⟩, hw⟩
  · rintro ⟨⟨⟨args, ht⟩, he⟩, hw⟩
    refine ⟨⟨args, ht⟩, ?_⟩
    show (s.execs t).abort w s.sched.tasks[t]? = .working p
    rw [ht]
    exact Execution.abort_eq_working.mpr ⟨he, hw⟩

/-- A death achieves nothing. -/
theorem DistState.Achieved.of_abort {t : ℕ} (h : (s.abort w).Achieved t) : s.Achieved t := by
  obtain ⟨args, q, hq, hdone⟩ := h
  refine ⟨args, q, hq, hdone.imp_right ?_⟩
  rintro ⟨⟨w', rfl⟩, he⟩
  have he' : (s.execs t).abort w s.sched.tasks[t]? = .complete := he
  rw [show s.sched.tasks[t]? = some (args, .calling w') from hq] at he'
  exact ⟨⟨w', rfl⟩, Execution.eq_complete_of_abort he'⟩

/-- **A death keeps the invariant of the phase.** -/
theorem PhaseInv.abort (h : PhaseInv E ph s) (w : GoString) : PhaseInv E ph (s.abort w) where
  sched := h.sched
  running := h.running
  ready := h.ready
  works t w' p hw := h.works t w' p (DistState.works_abort.mp hw).1
  achieved t ht := h.achieved t ht.of_abort
  busy w' := by
    show Function.update s.concurrent w 0 w' ≤ 1 ∧ (Function.update s.concurrent w 0 w' ≠ 0 → _)
    by_cases hw : w' = w
    · subst hw
      rw [Function.update_self]
      exact ⟨Nat.zero_le _, fun hne => absurd rfl hne⟩
    · rw [Function.update_of_ne hw]
      refine ⟨(h.busy w').1, fun hne => ?_⟩
      obtain ⟨t, p, hworks⟩ := (h.busy w').2 hne
      exact ⟨t, p, DistState.works_abort.mpr ⟨hworks, hw⟩⟩

theorem DistInv.abort (h : DistInv E s) (w : GoString) : DistInv E (s.abort w) := by
  unfold DistInv at h ⊢
  rcases hst : s.stage with ph | p | _ | _
  · rw [hst] at h
    have hst' : (s.abort w).stage = .phase ph := hst
    rw [hst']
    exact PhaseInv.abort h w
  · rw [hst] at h
    have hst' : (s.abort w).stage = .merging p := hst
    rw [hst']
    exact h
  · rw [hst] at h
    have hst' : (s.abort w).stage = .completed := hst
    rw [hst']
    exact h
  · rw [hst] at h
    exact h.elim

end Deaths

theorem faultInv_run (hn : 1 ≤ E.job.nReduce) (hacc : E.job.Accessible E.fs₀)
    (hvalid : E.job.ValidOutput) (hle : E.job.nReduce ≤ E.job.files.length)
    (r : (faulty E).Run) (hr : r.Meets FaultState.Distinct) (k : ℕ) :
    DistInv E (r.state k).dist := by
  refine r.invariant hr (I := fun s => DistInv E s.dist) distInv_init ?_ k
  intro s a s' h hok hstep
  rcases faulty_cases hstep with ⟨b, rfl, hb⟩ | ⟨w, -, hw⟩
  · exact h.step hn hacc hvalid hle hok hb
  · rw [hw]
    exact h.abort w

/-! ## A run never goes back -/

/-- The stages in their order. -/
def Stage.rank : Stage → ℕ
  | phase .mapPhase => 0
  | phase .reducePhase => 1
  | merging _ => 2
  | completed => 3
  | crashed => 4

theorem Stage.eq_of_rank {st : Stage} {ph : JobPhase} (h : st.rank = (Stage.phase ph).rank) :
    st = .phase ph := by
  cases st with
  | phase ph' => cases ph' <;> cases ph <;> first | rfl | cases h
  | merging p => cases ph <;> cases h
  | completed => cases ph <;> cases h
  | crashed => cases ph <;> cases h

/-- The loop of `schedule` does not go back. -/
theorem i_le_of_step {p : Phase} {s s' : ScheduleState} {a : ScheduleAction}
    (h : s.step p a = some s') : s.i ≤ s'.i := by
  cases moves_of_step h with
  | fork => exact Nat.le_succ _
  | _ => exact le_rfl

/-- A later state is at a later stage, or at the same with the loop as far. -/
def Advances (s s' : DistState) : Prop :=
  s.stage.rank ≤ s'.stage.rank ∧ (s.stage.rank = s'.stage.rank → s.sched.i ≤ s'.sched.i)

theorem Advances.refl (s : DistState) : Advances s s :=
  ⟨le_rfl, fun _ => le_rfl⟩

theorem Advances.trans {a b c : DistState} (h₁ : Advances a b) (h₂ : Advances b c) :
    Advances a c := by
  refine ⟨h₁.1.trans h₂.1, fun heq => ?_⟩
  have hab : a.stage.rank = b.stage.rank := le_antisymm h₁.1 (heq ▸ h₂.1)
  exact (h₁.2 hab).trans (h₂.2 (hab.symm.trans heq))

theorem Advances.of_lt {s s' : DistState} (h : s.stage.rank < s'.stage.rank) : Advances s s' :=
  ⟨h.le, fun heq => absurd heq h.ne⟩

/-- An error ends the job. -/
theorem Advances.crashed (s : DistState) : Advances s { s with stage := .crashed } := by
  refine ⟨?_, fun _ => le_rfl⟩
  show s.stage.rank ≤ 4
  unfold Stage.rank
  split <;> omega

theorem advances_of_step {s s' : DistState} {a : DistAction} (h : s.step E a = some s') :
    Advances s s' := by
  cases distMoves_of_step h with
  | @sched ph a sched hst hallow hstep =>
      unfold DistState.proceed
      split
      · -- a panic
        apply Advances.of_lt
        show s.stage.rank < 4
        rw [hst]
        cases ph <;> decide
      · -- the return of `schedule`
        split
        · apply Advances.of_lt
          show s.stage.rank < 1
          rw [hst]
          decide
        · apply Advances.of_lt
          show s.stage.rank < 2
          rw [hst]
          decide
      · split
        · exact ⟨le_rfl, fun _ => i_le_of_step hstep⟩
        · exact ⟨le_rfl, fun _ => i_le_of_step hstep⟩
  | begin => exact .refl _
  | overlap => exact .crashed s
  | work => exact .refl _
  | worked => exact .refl _
  | workFailed => exact .crashed s
  | merge hst hp =>
      refine ⟨?_, fun _ => le_rfl⟩
      rw [hst]
      exact le_rfl
  | merged hst hp =>
      refine ⟨?_, fun _ => le_rfl⟩
      rw [hst]
      exact Nat.le_succ 2
  | mergeFailed => exact .crashed s

theorem advances_run (r : (faulty E).Run) {j k : ℕ} (h : j ≤ k) :
    Advances (r.state j).dist (r.state k).dist := by
  refine r.rel_of_le r.meets_true (R := fun s s' => Advances s.dist s'.dist)
    (fun s => Advances.refl s.dist) (fun _ _ _ h₁ h₂ => h₁.trans h₂) ?_ h
  intro i a _ _ hstep
  rcases faulty_cases hstep with ⟨b, -, hb⟩ | ⟨w, -, hw⟩
  · exact advances_of_step hb
  · rw [hw]
    exact .refl _

/-! ## What a step does to the goroutine of a task -/

/-- The goroutine of task `t` goes from one place to another. -/
inductive RoutineStep (t : ℕ) : ScheduleAction → Routine → Routine → Prop
  | stay (a : ScheduleAction) (q : Routine) : RoutineStep t a q q
  | receive (w : GoString) : RoutineStep t (.receive t w) .receiving (.calling w)
  | callReturn (w : GoString) (ok : Bool) :
      RoutineStep t (.callReturn t ok) (.calling w) (.returned w ok)
  | handBack (w : GoString) (ok : Bool) :
      RoutineStep t (.handBack t) (.returned w ok) (.testing ok)
  | retry : RoutineStep t (.test t) (.testing false) .receiving
  | finish : RoutineStep t (.test t) (.testing true) .finished

section Routines

variable {p : Phase} {s s' : ScheduleState} {a : ScheduleAction} {t : ℕ} {args : DoTaskArgs}
  {q : Routine}

/-- A step moves one goroutine at most. -/
theorem routineStep_setTask {t' : ℕ} {args' : DoTaskArgs} {q₁ q₂ : Routine}
    (ht : s.tasks[t]? = some (args, q)) (ht' : s.tasks[t']? = some (args', q₁))
    (hmove : t' = t → RoutineStep t a q₁ q₂) :
    ∃ q', (s.setTask t' args' q₂).tasks[t]? = some (args, q') ∧ RoutineStep t a q q' := by
  rw [getElem?_setTask ht']
  by_cases htt : t = t'
  · subst htt
    rw [ht] at ht'
    cases ht'
    exact ⟨q₂, if_pos rfl, hmove rfl⟩
  · rw [if_neg htt]
    exact ⟨q, ht, .stay a q⟩

theorem routineStep_of_step (ht : s.tasks[t]? = some (args, q)) (hstep : s.step p a = some s') :
    ∃ q', s'.tasks[t]? = some (args, q') ∧ RoutineStep t a q q' := by
  cases moves_of_step hstep with
  | fork =>
      obtain ⟨hlt, -⟩ := List.getElem?_eq_some_iff.mp ht
      exact ⟨q, by rw [List.getElem?_append_left hlt, ht], .stay _ q⟩
  | receive ht' hw => exact routineStep_setTask ht ht' (by rintro rfl; exact .receive _)
  | callReturn ok ht' => exact routineStep_setTask ht ht' (by rintro rfl; exact .callReturn _ ok)
  | handBack ht' => exact routineStep_setTask ht ht' (by rintro rfl; exact .handBack _ _)
  | retry ht' => exact routineStep_setTask ht ht' (by rintro rfl; exact .retry)
  | finish ht' hwg => exact routineStep_setTask ht ht' (by rintro rfl; exact .finish)
  | _ => exact ⟨q, ht, .stay _ q⟩

/-- What has succeeded has succeeded. -/
theorem RoutineStep.succeeded {q' : Routine} (h : RoutineStep t a q q')
    (hq : q.succeeded = true) : q'.succeeded = true := by
  cases h with
  | stay => exact hq
  | receive => cases hq
  | callReturn => cases hq
  | handBack => exact hq
  | retry => cases hq
  | finish => rfl

/-- What is finished is finished. -/
theorem RoutineStep.finished {q' : Routine} (h : RoutineStep t a .finished q') :
    q' = .finished := by
  cases h with
  | stay => rfl

end Routines

/-- Only steps of `schedule` move the goroutines of a phase. -/
theorem sched_of_step {s s' : DistState} {ph : JobPhase} {b : DistAction}
    (hst : s.stage = .phase ph) (hst' : s'.stage = .phase ph) (h : s.step E b = some s') :
    (∃ a, b = .sched a ∧ s.sched.step (E.phase ph) a = some s'.sched) ∨
      (∀ a, b ≠ .sched a) ∧ s'.sched = s.sched := by
  cases distMoves_of_step h with
  | @sched ph' a sched hph hallow hstep =>
      obtain rfl : ph = ph' := by
        rw [hst] at hph
        cases hph
        rfl
      refine .inl ⟨a, rfl, ?_⟩
      rcases hstatus : sched.status with _ | _ | _
      · rw [(proceed_running hstatus).2]
        exact hstep
      · unfold DistState.proceed at hst'
        rw [hstatus] at hst'
        cases ph <;> cases hst'
      · unfold DistState.proceed at hst'
        rw [hstatus] at hst'
        cases hst'
  | begin => exact .inr ⟨nofun, rfl⟩
  | overlap => exact .inr ⟨nofun, rfl⟩
  | work => exact .inr ⟨nofun, rfl⟩
  | worked => exact .inr ⟨nofun, rfl⟩
  | workFailed => exact .inr ⟨nofun, rfl⟩
  | merge => exact .inr ⟨nofun, rfl⟩
  | merged => exact .inr ⟨nofun, rfl⟩
  | mergeFailed => exact .inr ⟨nofun, rfl⟩

/-! ## Tasks -/

/-- The goroutines of the master keep running.  Registrations, workers and calls are free. -/
structure MasterFair (r : (faulty E).Run) : Prop where
  fork : r.WeaklyFair (.dist (.sched .fork))
  wait : r.WeaklyFair (.dist (.sched .wait))
  handBack : ∀ t, r.WeaklyFair (.dist (.sched (.handBack t)))
  test : ∀ t, r.WeaklyFair (.dist (.sched (.test t)))
  merge : r.WeaklyFair (.dist .merge)

/-- The goroutine of task `t` has a call behind it that returned true. -/
def ScheduleState.succeeded (s : ScheduleState) (t : ℕ) : Bool :=
  (s.tasks[t]?).elim false fun x => x.2.succeeded

/-- A phase that lasts for ever gets a successful call for every task. -/
def TasksSucceed (r : (faulty E).Run) : Prop :=
  ∀ k ph, (∀ j ≥ k, (r.state j).dist.stage = .phase ph) → ∀ t < (E.phase ph).ntasks,
    ∃ j ≥ k, (r.state j).dist.sched.succeeded t = true

/-- A step of `schedule` is a step of the job. -/
theorem step_sched {s : DistState} {ph : JobPhase} {a : ScheduleAction} {sched : ScheduleState}
    (hst : s.stage = .phase ph) (hallow : s.allows a = true)
    (hstep : s.sched.step (E.phase ph) a = some sched) (hrun : sched.status = .running) :
    ∃ s', s.step E (.sched a) = some s' ∧ s'.sched = sched := by
  refine ⟨s.proceed E ph a sched, ?_, ?_⟩
  · simp only [DistState.step, hst, hallow, if_true, hstep, Option.map_some]
  · exact (proceed_running hrun).2

/-- The loop of `schedule` can go on. -/
theorem step_fork {s : DistState} {ph : JobPhase} (hp : (E.phase ph).Indexed) (h : PhaseInv E ph s)
    (hst : s.stage = .phase ph) (hi : s.sched.i < (E.phase ph).ntasks) :
    ∃ s', s.step E (.sched .fork) = some s' ∧ s.sched.i < s'.sched.i := by
  obtain ⟨f, hf⟩ : ∃ f, (E.phase ph).mapFiles[s.sched.i]? = some f :=
    ⟨_, List.getElem?_eq_getElem (hi.trans_le hp.ntasks_le)⟩
  have hstep : s.sched.step (E.phase ph) .fork = some { s.sched with
      i := s.sched.i + 1, wg := s.sched.wg + 1,
      tasks := s.sched.tasks ++ [((E.phase ph).taskArgs s.sched.i f, .receiving)] } := by
    simp [ScheduleState.step, h.running, hi, hf]
  obtain ⟨s', hs', hsched⟩ := step_sched hst rfl hstep h.running
  refine ⟨s', hs', ?_⟩
  rw [hsched]
  exact Nat.lt_succ_self _

/-- `wg.Wait()` can return when all tasks have finished. -/
theorem step_wait {s : DistState} {ph : JobPhase} (h : PhaseInv E ph s)
    (hst : s.stage = .phase ph) (hi : (E.phase ph).ntasks ≤ s.sched.i)
    (hfin : ∀ t < (E.phase ph).ntasks, ∃ args, s.sched.tasks[t]? = some (args, .finished)) :
    ∃ s', s.step E (.sched .wait) = some s' ∧ s.stage.rank < s'.stage.rank := by
  have hwg : s.sched.wg = 0 := by
    rw [h.sched.wg, List.countP_eq_zero]
    intro x hx
    obtain ⟨t, ht⟩ := List.mem_iff_getElem?.mp hx
    obtain ⟨args, hargs⟩ := hfin t (h.lt_ntasks ht)
    obtain rfl := Option.some.inj (hargs.symm.trans ht)
    simp
  have hstep : s.sched.step (E.phase ph) .wait = some { s.sched with status := .returned } := by
    simp [ScheduleState.step, h.running, hi, hwg]
  refine ⟨s.proceed E ph .wait { s.sched with status := .returned }, ?_, ?_⟩
  · simp only [DistState.step, hst, DistState.allows, if_true, hstep, Option.map_some]
  · rw [hst]
    cases ph with
    | mapPhase => exact Nat.lt_succ_self 0
    | reducePhase => exact Nat.lt_succ_self 1

section Progress

variable {r : (faulty E).Run}

theorem faulty_step_sched {s : FaultState} {a : ScheduleAction} {d : DistState}
    (h : s.dist.step E (.sched a) = some d) :
    (faulty E).step s (.dist (.sched a)) = some { s with dist := d } := by
  show s.step E (.dist (.sched a)) = _
  simp [FaultState.step, FaultState.permits, h]

section Leaving

variable {ph : JobPhase} {k : ℕ} (hinv : ∀ j, DistInv E (r.state j).dist)
  (hstay : ∀ j ≥ k, (r.state j).dist.stage = .phase ph)

include hstay

/-- A moment of a phase: a step of `schedule`, or none of its business. -/
theorem sched_moment {j : ℕ} (hj : k ≤ j) :
    (∃ a, r.act j = some (.dist (.sched a)) ∧
      (r.state j).dist.sched.step (E.phase ph) a = some (r.state (j + 1)).dist.sched) ∨
    (∀ a, r.act j ≠ some (.dist (.sched a))) ∧
      (r.state (j + 1)).dist.sched = (r.state j).dist.sched := by
  rcases ha : r.act j with _ | a
  · rw [r.idle j ha]
    exact .inr ⟨nofun, rfl⟩
  · rcases faulty_cases (r.taken j a ha) with ⟨b, rfl, hb⟩ | ⟨w, rfl, heq⟩
    · rcases sched_of_step (hstay j hj) (hstay (j + 1) (by omega)) hb with
        ⟨a, rfl, hstep⟩ | ⟨hno, hsame⟩
      · exact .inl ⟨a, rfl, hstep⟩
      · refine .inr ⟨fun a heq => hno a ?_, hsame⟩
        cases heq
        rfl
    · refine .inr ⟨nofun, ?_⟩
      rw [heq]
      rfl

/-- What a moment does to the goroutine of a task. -/
theorem routine_moment {j t : ℕ} (hj : k ≤ j) {args : DoTaskArgs} {q : Routine}
    (ht : (r.state j).dist.sched.tasks[t]? = some (args, q)) :
    ∃ q', (r.state (j + 1)).dist.sched.tasks[t]? = some (args, q') ∧
      (q' = q ∨ ∃ a, r.act j = some (.dist (.sched a)) ∧ RoutineStep t a q q') := by
  rcases sched_moment hstay hj with ⟨a, ha, hstep⟩ | ⟨-, hsame⟩
  · obtain ⟨q', hq', hmove⟩ := routineStep_of_step ht hstep
    exact ⟨q', hq', .inr ⟨a, ha, hmove⟩⟩
  · exact ⟨q, by rw [hsame]; exact ht, .inl rfl⟩

/-- A task that has been started stays there. -/
theorem started_of_le {i j t : ℕ} (hi : k ≤ i) (hij : i ≤ j) {args : DoTaskArgs} {q : Routine}
    (ht : (r.state i).dist.sched.tasks[t]? = some (args, q)) :
    ∃ q', (r.state j).dist.sched.tasks[t]? = some (args, q') ∧
      (q.succeeded = true → q'.succeeded = true) ∧ (q = .finished → q' = .finished) := by
  induction j, hij using Nat.le_induction with
  | base => exact ⟨q, ht, id, id⟩
  | succ j hij ih =>
      obtain ⟨q', hq', hsucc, hfin⟩ := ih
      obtain ⟨q'', hq'', rfl | ⟨a, -, hmove⟩⟩ := routine_moment hstay (by omega) hq'
      · exact ⟨q'', hq'', hsucc, hfin⟩
      · refine ⟨q'', hq'', fun h => hmove.succeeded (hsucc h), fun h => ?_⟩
        rw [hfin h] at hmove
        exact hmove.finished

theorem succeeded_of_le {i j t : ℕ} (hi : k ≤ i) (hij : i ≤ j)
    (h : (r.state i).dist.sched.succeeded t = true) :
    (r.state j).dist.sched.succeeded t = true := by
  unfold ScheduleState.succeeded at h ⊢
  rcases ht : (r.state i).dist.sched.tasks[t]? with _ | ⟨args, q⟩
  · rw [ht] at h
    cases h
  · rw [ht] at h
    obtain ⟨q', hq', hsucc, -⟩ := started_of_le hstay hi hij ht
    rw [hq']
    exact hsucc h

/-- The call of a task returns. -/
theorem callReturn_moment {j t : ℕ} {ok : Bool} (hj : k ≤ j)
    (ha : r.act j = some (.dist (.sched (.callReturn t ok)))) :
    ∃ args w, (r.state j).dist.sched.tasks[t]? = some (args, .calling w) ∧
      (r.state (j + 1)).dist.sched.tasks[t]? = some (args, .returned w ok) := by
  rcases sched_moment hstay hj with ⟨a, ha', hstep⟩ | ⟨hno, -⟩
  · rw [ha] at ha'
    cases ha'
    generalize (r.state (j + 1)).dist.sched = sched at hstep ⊢
    cases moves_of_step hstep with
    | @callReturn _ w args _ ht =>
        refine ⟨args, w, ht, ?_⟩
        show ((r.state j).dist.sched.setTask t args (.returned w ok)).tasks[t]? = _
        rw [getElem?_setTask ht, if_pos rfl]
  · exact absurd ha (hno _)

include hinv

/-- **One step of a goroutine.**  If the only thing that the goroutine of a task can do next is
`a`, and the run is fair to `a`, then it does it. -/
theorem eventually_moves {a : ScheduleAction} (hfair : r.WeaklyFair (.dist (.sched a)))
    {t i : ℕ} {args : DoTaskArgs} {q₁ q₂ : Routine} (hi : k ≤ i)
    (ht : (r.state i).dist.sched.tasks[t]? = some (args, q₁))
    (honly : ∀ b q', RoutineStep t b q₁ q' → q' = q₁ ∨ q' = q₂)
    (henabled : ∀ s : ScheduleState, Inv (E.phase ph) s → s.status = .running →
      s.tasks[t]? = some (args, q₁) → ∃ s', s.step (E.phase ph) a = some s' ∧
        s'.status = .running ∧ s'.tasks[t]? = some (args, q₂))
    (hallow : ∀ s : DistState, s.allows a = true) :
    ∃ j ≥ i, (r.state j).dist.sched.tasks[t]? = some (args, q₂) := by
  refine hfair.leadsTo (P := fun s => s.dist.sched.tasks[t]? = some (args, q₁))
    (Q := fun s => s.dist.sched.tasks[t]? = some (args, q₂)) ht ?_ ?_
  · intro j hj hP
    obtain ⟨q', hq', rfl | ⟨b, -, hmove⟩⟩ := routine_moment hstay (show k ≤ j by omega) hP
    · exact .inl hq'
    · rcases honly b q' hmove with rfl | rfl
      · exact .inl hq'
      · exact .inr hq'
  · intro j hj hP
    have hst := hstay j (by omega)
    have hphase := (hinv j).phaseInv hst
    obtain ⟨sched, hsched, hrun, htask⟩ := henabled _ hphase.sched hphase.running hP
    obtain ⟨d, hd, heq⟩ := step_sched hst (hallow _) hsched hrun
    exact ⟨_, faulty_step_sched hd, by rw [heq]; exact htask⟩

/-- A goroutine whose call has returned hands its worker back, -/
theorem eventually_testing (hfair : MasterFair r) {t i : ℕ} {args : DoTaskArgs} {w : GoString}
    {ok : Bool} (hi : k ≤ i)
    (ht : (r.state i).dist.sched.tasks[t]? = some (args, .returned w ok)) :
    ∃ j ≥ i, (r.state j).dist.sched.tasks[t]? = some (args, .testing ok) := by
  refine eventually_moves hinv hstay (hfair.handBack t) hi ht ?_ ?_ fun _ => rfl
  · intro b q' hmove
    cases hmove with
    | stay => exact .inl rfl
    | handBack => exact .inr rfl
  · intro s hs hrun hget
    refine ⟨{ s.setTask t args (.testing ok) with senders := s.senders ++ [w] }, ?_, hrun, ?_⟩
    · simp [ScheduleState.step, hrun, hget]
    · show (s.setTask t args (.testing ok)).tasks[t]? = _
      rw [getElem?_setTask hget, if_pos rfl]

/-- and it finishes when the call has returned true. -/
theorem eventually_done (hfair : MasterFair r) {t i : ℕ} {args : DoTaskArgs} (hi : k ≤ i)
    (ht : (r.state i).dist.sched.tasks[t]? = some (args, .testing true)) :
    ∃ j ≥ i, (r.state j).dist.sched.tasks[t]? = some (args, .finished) := by
  refine eventually_moves hinv hstay (hfair.test t) hi ht ?_ ?_ fun _ => rfl
  · intro b q' hmove
    cases hmove with
    | stay => exact .inl rfl
    | finish => exact .inr rfl
  · intro s hs hrun hget
    have hwg : s.wg ≠ 0 := hs.wg_ne_zero hget nofun
    refine ⟨{ s.setTask t args .finished with wg := s.wg - 1 }, ?_, hrun, ?_⟩
    · simp [ScheduleState.step, hrun, hget, hwg]
    · show (s.setTask t args .finished).tasks[t]? = _
      rw [getElem?_setTask hget, if_pos rfl]

/-- The loop of `schedule` starts all tasks. -/
theorem eventually_started (hfair : MasterFair r) (hp : (E.phase ph).Indexed) :
    ∃ j ≥ k, ∀ i ≥ j, (r.state i).dist.sched.tasks.length = (E.phase ph).ntasks := by
  have hmono : ∀ {i j}, k ≤ i → i ≤ j →
      (r.state i).dist.sched.i ≤ (r.state j).dist.sched.i := by
    intro i j hi hij
    exact (advances_run r hij).2 (by rw [hstay i hi, hstay j (by omega)])
  have hall : ∀ n ≤ (E.phase ph).ntasks, ∃ j ≥ k, n ≤ (r.state j).dist.sched.i := by
    intro n
    induction n with
    | zero => exact fun _ => ⟨k, le_rfl, Nat.zero_le _⟩
    | succ n ih =>
        intro hn
        obtain ⟨j, hj, hnj⟩ := ih (by omega)
        obtain ⟨j', hj', hlt⟩ := hfair.fork.eventually_lt (μ := fun s => s.dist.sched.i) hnj
          (fun i hi => hmono (show k ≤ i by omega) (Nat.le_succ i)) (by
            intro i hi heq
            have hst := hstay i (by omega)
            obtain ⟨d, hd, hlt⟩ := step_fork hp ((hinv i).phaseInv hst) hst (by
              show (r.state i).dist.sched.i < _
              omega)
            refine ⟨_, faulty_step_sched hd, ?_⟩
            rw [heq] at hlt
            exact hlt)
        exact ⟨j', by omega, hlt⟩
  obtain ⟨j, hj, hforked⟩ := hall _ le_rfl
  refine ⟨j, hj, fun i hi => ?_⟩
  have hsched := ((hinv i).phaseInv (hstay i (by omega))).sched
  have hle := hforked.trans (hmono hj hi)
  rw [← hsched.index]
  exact le_antisymm hsched.bound hle

/-- A task that has succeeded finishes. -/
theorem eventually_finishes (hfair : MasterFair r) {t i : ℕ} (hi : k ≤ i)
    (hsucc : (r.state i).dist.sched.succeeded t = true) :
    ∃ j ≥ i, ∀ m ≥ j, ∃ args, (r.state m).dist.sched.tasks[t]? = some (args, .finished) := by
  unfold ScheduleState.succeeded at hsucc
  rcases ht : (r.state i).dist.sched.tasks[t]? with _ | ⟨args, q⟩
  · rw [ht] at hsucc
    cases hsucc
  · rw [ht] at hsucc
    have htesting : ∀ i' ≥ i, (r.state i').dist.sched.tasks[t]? = some (args, .testing true) →
        ∃ j ≥ i, (r.state j).dist.sched.tasks[t]? = some (args, .finished) := by
      intro i' hi' ht'
      obtain ⟨j, hj, hdone⟩ := eventually_done hinv hstay hfair (by omega) ht'
      exact ⟨j, by omega, hdone⟩
    have hdone : ∃ j ≥ i, (r.state j).dist.sched.tasks[t]? = some (args, .finished) := by
      cases q with
      | receiving => cases hsucc
      | calling => cases hsucc
      | returned w ok =>
          obtain rfl : ok = true := hsucc
          obtain ⟨j, hj, htest⟩ := eventually_testing hinv hstay hfair hi ht
          exact htesting j hj htest
      | testing ok =>
          obtain rfl : ok = true := hsucc
          exact htesting i le_rfl ht
      | finished => exact ⟨i, le_rfl, ht⟩
    obtain ⟨j, hj, hfin⟩ := hdone
    refine ⟨j, hj, fun m hm => ⟨args, ?_⟩⟩
    obtain ⟨q', hq', -, hstays⟩ := started_of_le hstay (show k ≤ j by omega) hm hfin
    rw [hq', hstays rfl]

end Leaving

/-! ## Every stage is left -/

open Filter in
/-- **A phase is left.** -/
theorem leaves_phase (hle : E.job.nReduce ≤ E.job.files.length)
    (hinv : ∀ j, DistInv E (r.state j).dist) (hfair : MasterFair r) (hsucc : TasksSucceed r)
    {ph : JobPhase} {k : ℕ} (hk : (r.state k).dist.stage = .phase ph) :
    ∃ j ≥ k, (Stage.phase ph).rank < (r.state j).dist.stage.rank := by
  by_contra hnever
  have hstay : ∀ j ≥ k, (r.state j).dist.stage = .phase ph := by
    intro j hj
    have hadv := (advances_run r hj).1
    rw [hk] at hadv
    exact Stage.eq_of_rank (le_antisymm (not_lt.mp fun hlt => hnever ⟨j, hj, hlt⟩) hadv)
  obtain ⟨j₁, hj₁, hlen⟩ := eventually_started hinv hstay hfair (indexed_phase hle ph)
  have hall : ∀ᶠ j in atTop, ∀ t ∈ Finset.range (E.phase ph).ntasks,
      ∃ args, (r.state j).dist.sched.tasks[t]? = some (args, .finished) := by
    refine (eventually_all_finset _).mpr fun t ht => ?_
    obtain ⟨i, hi, hone⟩ := hsucc k ph hstay t (Finset.mem_range.mp ht)
    obtain ⟨j, -, hfin⟩ := eventually_finishes hinv hstay hfair hi hone
    exact eventually_atTop.mpr ⟨j, hfin⟩
  obtain ⟨j₂, hfin⟩ := eventually_atTop.mp hall
  -- from then on `wg.Wait()` can return
  obtain ⟨i, hi, hact⟩ := hfair.wait (max (max j₁ k) j₂)
  have hst := hstay i (by omega)
  have hphase := (hinv i).phaseInv hst
  obtain ⟨d, hd, hlt⟩ := step_wait hphase hst
    (by rw [hphase.sched.index, hlen i (by omega)])
    fun t ht => hfin i (by omega) t (Finset.mem_range.mpr ht)
  have hstep := faulty_step_sched hd
  rcases hact with htaken | hdisabled
  · have htake := (r.taken i _ htaken).symm.trans hstep
    have hdist : (r.state (i + 1)).dist = d := by
      rw [Option.some.inj htake]
    rw [← hdist, hst, hstay (i + 1) (by omega)] at hlt
    exact lt_irrefl _ hlt
  · rw [hstep] at hdisabled
    cases hdisabled

/-- A step of the merge has been taken. -/
def MergesTo (p : Prog Unit) (s : DistState) : Prop :=
  s.stage = .completed ∨ ∃ fs p' fs', p.step fs = some (p', fs') ∧ s.stage = .merging p'

/-- The merge can go on. -/
theorem step_merge {s : DistState} (h : DistInv E s) {p : Prog Unit}
    (hst : s.stage = .merging p) : ∃ s', s.step E .merge = some s' ∧ MergesTo p s' := by
  rcases hp : p.step s.fs with _ | ⟨p', fs'⟩
  · have hfin := ((h.merging hst).finished hp).1
    refine ⟨{ s with stage := .completed }, ?_, .inl rfl⟩
    simp only [DistState.step, hst, hp, hfin, if_true]
  · refine ⟨{ s with stage := .merging p', fs := fs' }, ?_, .inr ⟨_, p', fs', hp, rfl⟩⟩
    simp only [DistState.step, hst, hp]

/-- The merge goes on. -/
theorem merging_advances (hinv : ∀ j, DistInv E (r.state j).dist) (hfair : MasterFair r)
    {p : Prog Unit} {k : ℕ} (hk : (r.state k).dist.stage = .merging p) :
    ∃ j ≥ k, MergesTo p (r.state j).dist := by
  refine hfair.merge.leadsTo (P := fun s => s.dist.stage = .merging p)
    (Q := fun s => MergesTo p s.dist) hk ?_ ?_
  · intro j hj hst
    rcases ha : r.act j with _ | a
    · rw [r.idle j ha]
      exact .inl hst
    · rcases faulty_cases (r.taken j a ha) with ⟨b, rfl, hb⟩ | ⟨w, -, hw⟩
      · right
        cases b with
        | merge =>
            obtain ⟨d, hd, hQ⟩ := step_merge (hinv j) hst
            rw [hd] at hb
            rw [← Option.some.inj hb]
            exact hQ
        | sched a => simp [DistState.step, hst] at hb
        | begin t => simp [DistState.step, hst] at hb
        | work t => simp [DistState.step, hst] at hb
      · left
        rw [hw]
        exact hst
  · intro j hj hst
    obtain ⟨d, hd, hQ⟩ := step_merge (hinv j) hst
    refine ⟨{ r.state j with dist := d }, ?_, hQ⟩
    show (r.state j).step E (.dist .merge) = _
    simp [FaultState.step, FaultState.permits, hd]

/-- **The merge ends.** -/
theorem completes_of_merging (hinv : ∀ j, DistInv E (r.state j).dist) (hfair : MasterFair r)
    (p : Prog Unit) {k : ℕ} (hk : (r.state k).dist.stage = .merging p) :
    ∃ j ≥ k, (r.state j).dist.stage = .completed := by
  induction p using FileProgram.step_induction generalizing k with
  | h p ih =>
      obtain ⟨j, hj, hdone | ⟨fs, p', fs', hstep, hst⟩⟩ := merging_advances hinv hfair hk
      · exact ⟨j, hj, hdone⟩
      · obtain ⟨i, hi, hdone⟩ := ih fs p' fs' hstep hst
        exact ⟨i, by omega, hdone⟩

/-- **The job ends.** -/
theorem completes (hle : E.job.nReduce ≤ E.job.files.length)
    (hinv : ∀ j, DistInv E (r.state j).dist) (hfair : MasterFair r) (hsucc : TasksSucceed r) :
    ∃ k, (r.state k).dist.stage = .completed := by
  -- past the reduce phase
  have hlast : ∀ k, 1 < (r.state k).dist.stage.rank →
      ∃ k, (r.state k).dist.stage = .completed := by
    intro k hk
    rcases hst : (r.state k).dist.stage with ph | p | _ | _
    · rw [hst] at hk
      cases ph <;> cases Nat.not_lt.mpr (by decide) hk
    · obtain ⟨j, _, hdone⟩ := completes_of_merging hinv hfair p hst
      exact ⟨j, hdone⟩
    · exact ⟨k, hst⟩
    · exact absurd hst (hinv k).not_crashed
  have hstart : (r.state 0).dist.stage = .phase .mapPhase := by
    rw [r.state_zero]
    rfl
  obtain ⟨k, _, hk⟩ := leaves_phase hle hinv hfair hsucc hstart
  by_cases hst : (r.state k).dist.stage = .phase .reducePhase
  · obtain ⟨j, _, hj⟩ := leaves_phase hle hinv hfair hsucc hst
    exact hlast j hj
  · refine hlast k (lt_of_le_of_ne hk fun heq => hst ?_)
    exact Stage.eq_of_rank heq.symm

end Progress

end Mit6824.MapReduce
