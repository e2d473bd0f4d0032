/-
# MapReduce with workers that die

`MrProgress` has the system `faulty`, in which the processes of workers end at any moment.

* `deaths_harmless`: deaths do no harm to the result;
* `Survivor`: one worker whose calls succeed and which the channel does not starve;
* `survivor_completes`: one such worker is enough.  The job ends with the final file of
  `Sequential`, whatever happens to the others.
-/
import Mit6824.MrRefinement

namespace Mit6824.MapReduce

open GoString FileProgram FileSystem

variable {E : Setup}

/-! ## The result -/

/-- **Deaths do no harm.**  In every run of a job with at most as many reduce tasks as input
files, with workers that have distinct addresses and die at any moments, also in the middle of
a task: the job does not end with an error, and when it has ended, the final file is that of
`Sequential`. -/
theorem deaths_harmless (E : Setup) (hn : 1 ≤ E.job.nReduce) (hacc : E.job.Accessible E.fs₀)
    (hvalid : E.job.ValidOutput) (hle : E.job.nReduce ≤ E.job.files.length)
    (ords : ℕ → RangeOrder GoString) (ord : RangeOrder GoString) (r : (faulty E).Run)
    (hdistinct : r.Meets FaultState.Distinct) :
    ∃ fs' data, (sequential E.json E.hash ords ord E.job).run E.fs₀ = .ok ((), fs') ∧
      fs'.content (outName E.job.jobName) = some data ∧
      ∀ k, (r.state k).dist.stage ≠ .crashed ∧ ((r.state k).dist.stage = .completed →
        (r.state k).dist.fs.content (outName E.job.jobName) = some data) := by
  have hseq : wp (sequential E.json E.hash ords ord E.job) (fun _ => Reported E.job E.fs₀) E.fs₀ :=
    wp_sequential hn hacc.runnable (hvalid.on _) ords ord
  obtain ⟨_, fs', hrun, hfile⟩ := wp_iff_run.mp hseq
  refine ⟨fs', _, hrun, hfile, fun k => ?_⟩
  have hinv := faultInv_run hn hacc hvalid hle r hdistinct k
  refine ⟨hinv.not_crashed, fun hk => ?_⟩
  unfold DistInv at hinv
  rw [hk] at hinv
  exact hinv

/-! ## The channel of the workers -/

section Channel

variable {p : Phase} {s s' : ScheduleState} {a : ScheduleAction}

/-- A worker that waits on the channel is taken by a task, or goes on to wait. -/
theorem mem_senders_of_step {w : GoString} (hw : w ∈ s.senders) (hstep : s.step p a = some s') :
    w ∈ s'.senders ∨ ∃ t, s'.Calling t w := by
  cases moves_of_step hstep with
  | forward => exact .inl (List.mem_append_left _ hw)
  | @receive t w' args ht hw' =>
      by_cases hww : w = w'
      · subst hww
        refine .inr ⟨t, args, ?_⟩
        show (s.setTask t args (.calling w)).tasks[t]? = _
        rw [getElem?_setTask ht, if_pos rfl]
      · exact .inl ((List.mem_erase_of_ne hww).mpr hw)
  | handBack => exact .inl (List.mem_append_left _ hw)
  | _ => exact .inl hw

theorem workers_of_step (hstep : s.step p a = some s') :
    s.workers <+: s'.workers ∧ s.forwarded ≤ s'.forwarded := by
  cases moves_of_step hstep with
  | register => exact ⟨List.prefix_append _ _, le_rfl⟩
  | forward => exact ⟨List.prefix_rfl, Nat.le_succ _⟩
  | _ => exact ⟨List.prefix_rfl, le_rfl⟩

end Channel

/-! ## Fair runs with one worker that survives -/

/-- The goroutines of the master keep running, and every call returns. -/
structure FaultFair (r : (faulty E).Run) : Prop where
  fork : r.WeaklyFair (.dist (.sched .fork))
  wait : r.WeaklyFair (.dist (.sched .wait))
  forward : r.WeaklyFair (.dist (.sched .forward))
  handBack : ∀ t, r.WeaklyFair (.dist (.sched (.handBack t)))
  test : ∀ t, r.WeaklyFair (.dist (.sched (.test t)))
  merge : r.WeaklyFair (.dist .merge)
  returns : ∀ k ph t w, (r.state k).dist.stage = .phase ph → (r.state k).dist.sched.Calling t w →
    ∃ j ≥ k, ∃ ok, r.act j = some (.dist (.sched (.callReturn t ok)))

/-- A worker that registers and whose calls succeed.  The channel does not starve it: when it
waits to be received for ever, and again and again some task waits for a worker, then a task
receives it. -/
structure Survivor (r : (faulty E).Run) (w : GoString) : Prop where
  registers : ∃ k, w ∈ (r.state k).dist.sched.workers
  succeeds : ∀ k t, (r.state k).dist.sched.Calling t w →
    r.act k ≠ some (.dist (.sched (.callReturn t false)))
  received : ∀ k, (∀ j ≥ k, w ∈ (r.state j).dist.sched.senders) →
    (∀ i, ∃ j ≥ i, ∃ (t : ℕ) (args : DoTaskArgs),
      (r.state j).dist.sched.tasks[t]? = some (args, Routine.receiving)) →
    ∃ j ≥ k, ∃ t, r.act j = some (.dist (.sched (.receive t w)))

theorem FaultFair.master {r : (faulty E).Run} (hfair : FaultFair r) : MasterFair r :=
  ⟨hfair.fork, hfair.wait, hfair.handBack, hfair.test, hfair.merge⟩

section Progress

variable {r : (faulty E).Run}

/-- Workers stay registered, -/
theorem mem_workers_of_step {s s' : DistState} {b : DistAction} {w : GoString}
    (h : s.step E b = some s') (hw : w ∈ s.sched.workers) : w ∈ s'.sched.workers := by
  cases distMoves_of_step h with
  | @sched ph a sched hst hallow hsched =>
      have hmem := (workers_of_step hsched).1.subset hw
      unfold DistState.proceed
      split
      · exact hmem
      · split
        · exact hmem
        · exact hmem
      · split
        · exact hmem
        · exact hmem
  | _ => exact hw

/-- from one phase to the next. -/
theorem mem_workers_of_le {w : GoString} {j k : ℕ} (h : j ≤ k)
    (hw : w ∈ (r.state j).dist.sched.workers) : w ∈ (r.state k).dist.sched.workers := by
  refine r.rel_of_le r.meets_true
    (R := fun s s' => w ∈ s.dist.sched.workers → w ∈ s'.dist.sched.workers)
    (fun _ h => h) (fun _ _ _ h₁ h₂ h => h₂ (h₁ h)) ?_ h hw
  intro i a _ _ hstep hw
  rcases faulty_cases hstep with ⟨b, -, hb⟩ | ⟨w, -, heq⟩
  · exact mem_workers_of_step hb hw
  · rw [heq]
    exact hw

section Leaving

variable {ph : JobPhase} {k : ℕ} (hinv : ∀ j, DistInv E (r.state j).dist)
  (hstay : ∀ j ≥ k, (r.state j).dist.stage = .phase ph)

include hstay

include hinv

/-- A goroutine whose call has returned false starts again. -/
theorem eventually_retries (hfair : FaultFair r) {t i : ℕ} {args : DoTaskArgs} (hi : k ≤ i)
    (ht : (r.state i).dist.sched.tasks[t]? = some (args, .testing false)) :
    ∃ j ≥ i, (r.state j).dist.sched.tasks[t]? = some (args, .receiving) := by
  refine eventually_moves hinv hstay (hfair.test t) hi ht ?_ ?_ fun _ => rfl
  · intro b q' hmove
    cases hmove with
    | stay => exact .inl rfl
    | retry => exact .inr rfl
  · intro s hs hrun hget
    refine ⟨s.setTask t args .receiving, ?_, hrun, ?_⟩
    · simp [ScheduleState.step, hrun, hget]
    · rw [getElem?_setTask hget, if_pos rfl]

/-- A task that does not succeed asks for a worker again and again. -/
theorem eventually_receiving (hfair : FaultFair r) {t i : ℕ} {args : DoTaskArgs} {q : Routine}
    (hi : k ≤ i) (ht : (r.state i).dist.sched.tasks[t]? = some (args, q))
    (hnever : ∀ j ≥ i, ∀ q', (r.state j).dist.sched.tasks[t]? = some (args, q') →
      q'.succeeded = false) :
    ∃ j ≥ i, (r.state j).dist.sched.tasks[t]? = some (args, .receiving) := by
  -- backwards from the end of the loop
  have htesting : ∀ i' ≥ i, (r.state i').dist.sched.tasks[t]? = some (args, .testing false) →
      ∃ j ≥ i, (r.state j).dist.sched.tasks[t]? = some (args, .receiving) := by
    intro i' hi' ht'
    obtain ⟨j, hj, hrec⟩ := eventually_retries hinv hstay hfair (by omega) ht'
    exact ⟨j, by omega, hrec⟩
  have hreturned : ∀ i' ≥ i, ∀ w ok,
      (r.state i').dist.sched.tasks[t]? = some (args, .returned w ok) →
      ∃ j ≥ i, (r.state j).dist.sched.tasks[t]? = some (args, .receiving) := by
    intro i' hi' w ok ht'
    obtain rfl : ok = false := hnever i' hi' _ ht'
    obtain ⟨j, hj, htest⟩ := eventually_testing hinv hstay hfair.master (by omega) ht'
    exact htesting j (by omega) htest
  cases q with
  | receiving => exact ⟨i, le_rfl, ht⟩
  | calling w =>
      obtain ⟨j, hj, ok, ha⟩ := hfair.returns i ph t w (hstay i hi) ⟨args, ht⟩
      obtain ⟨args', w', hcall, hret⟩ := callReturn_moment hstay (show k ≤ j by omega) ha
      obtain ⟨q', hq', -⟩ := started_of_le hstay hi hj ht
      obtain rfl : args' = args := by
        rw [hcall] at hq'
        cases hq'
        rfl
      exact hreturned (j + 1) (by omega) w' ok hret
  | returned w ok => exact hreturned i le_rfl w ok ht
  | testing ok =>
      obtain rfl : ok = false := hnever i le_rfl _ ht
      exact htesting i le_rfl ht
  | finished => cases hnever i le_rfl _ ht

omit hinv in
/-- A call to the survivor returns true. -/
theorem eventually_succeeds (hfair : FaultFair r) {w : GoString} (hw : Survivor r w) {t i : ℕ}
    {args : DoTaskArgs} (hi : k ≤ i)
    (ht : (r.state i).dist.sched.tasks[t]? = some (args, .calling w)) :
    ∃ j ≥ i, (r.state j).dist.sched.tasks[t]? = some (args, .returned w true) := by
  obtain ⟨j, hj, ok, ha⟩ := hfair.returns i ph t w (hstay i hi) ⟨args, ht⟩
  -- up to its return the call stays what it is
  obtain ⟨n, rfl⟩ := Nat.exists_eq_add_of_le hj
  clear hj
  induction n generalizing i with
  | zero =>
      obtain ⟨args', w', hcall, hret⟩ := callReturn_moment hstay hi ha
      rw [ht] at hcall
      cases hcall
      cases ok with
      | false => exact absurd ha (hw.succeeds i t ⟨args, ht⟩)
      | true => exact ⟨i + 1, by omega, hret⟩
  | succ n ih =>
      obtain ⟨q', hq', rfl | ⟨a, ha', hmove⟩⟩ := routine_moment hstay hi ht
      · rw [show i + (n + 1) = i + 1 + n by omega] at ha
        obtain ⟨j, hj, hret⟩ := ih (show k ≤ i + 1 by omega) hq' ha
        exact ⟨j, by omega, hret⟩
      · cases hmove with
        | stay =>
            rw [show i + (n + 1) = i + 1 + n by omega] at ha
            obtain ⟨j, hj, hret⟩ := ih (show k ≤ i + 1 by omega) hq' ha
            exact ⟨j, by omega, hret⟩
        | callReturn _ ok' =>
            cases ok' with
            | false => exact absurd ha' (hw.succeeds i t ⟨args, ht⟩)
            | true => exact ⟨i + 1, by omega, hq'⟩

/-- A registered worker gets to the channel. -/
theorem eventually_forwarded (hfair : FaultFair r) {w : GoString}
    (hw : ∃ i, w ∈ (r.state i).dist.sched.workers) :
    ∃ j ≥ k, ∀ i ≥ j, w ∈ (r.state i).dist.sched.senders ∨
      ∃ (t : ℕ) (args : DoTaskArgs) (q : Routine),
        (r.state i).dist.sched.tasks[t]? = some (args, q) ∧ q.worker = some w := by
  obtain ⟨i₀, hi₀⟩ := hw
  obtain ⟨n, hn⟩ := List.mem_iff_getElem?.mp (mem_workers_of_le (le_max_right k i₀) hi₀)
  -- the place of the worker in the list
  have hplace : ∀ i ≥ max k i₀, (r.state i).dist.sched.workers[n]? = some w := by
    intro i hi
    induction i, hi using Nat.le_induction with
    | base => exact hn
    | succ i hi ih =>
        rcases sched_moment hstay (show k ≤ i by omega) with ⟨a, -, hstep⟩ | ⟨-, hsame⟩
        · obtain ⟨l, hl⟩ := (workers_of_step hstep).1
          rw [← hl, List.getElem?_append_left (List.getElem?_eq_some_iff.mp ih).1]
          exact ih
        · rw [hsame]
          exact ih
  have hmono : ∀ i ≥ k,
      (r.state i).dist.sched.forwarded ≤ (r.state (i + 1)).dist.sched.forwarded := by
    intro i hi
    rcases sched_moment hstay hi with ⟨a, -, hstep⟩ | ⟨-, hsame⟩
    · exact (workers_of_step hstep).2
    · rw [hsame]
  have hall : ∀ m ≤ n + 1, ∃ j ≥ max k i₀, m ≤ (r.state j).dist.sched.forwarded := by
    intro m
    induction m with
    | zero => exact fun _ => ⟨max k i₀, le_rfl, Nat.zero_le _⟩
    | succ m ih =>
        intro hm
        obtain ⟨j, hj, hmj⟩ := ih (by omega)
        obtain ⟨j', hj', hlt⟩ := hfair.forward.eventually_lt (μ := fun s => s.dist.sched.forwarded)
          hmj (fun i hi => hmono i (by omega)) (by
            intro i hi heq
            have hst := hstay i (by omega)
            obtain ⟨hlt, -⟩ := List.getElem?_eq_some_iff.mp (hplace i (by omega))
            have heq' : (r.state i).dist.sched.forwarded = m := heq
            obtain ⟨v, hv⟩ : ∃ v, (r.state i).dist.sched.workers[m]? = some v :=
              ⟨_, List.getElem?_eq_getElem (by omega)⟩
            have hrun := ((hinv i).phaseInv hst).running
            have hstep : (r.state i).dist.sched.step (E.phase ph) .forward = some
                { (r.state i).dist.sched with
                  forwarded := (r.state i).dist.sched.forwarded + 1
                  senders := (r.state i).dist.sched.senders ++ [v] } := by
              simp [ScheduleState.step, hrun, heq', hv]
            obtain ⟨d, hd, hsched⟩ := step_sched hst rfl hstep hrun
            refine ⟨_, faulty_step_sched hd, ?_⟩
            show m < d.sched.forwarded
            rw [hsched, heq']
            exact Nat.lt_succ_self m)
        exact ⟨j', by omega, hlt⟩
  obtain ⟨j, hj, hlt⟩ := hall _ le_rfl
  refine ⟨j, by omega, fun i hi => ?_⟩
  have hle : n < (r.state i).dist.sched.forwarded := by
    induction i, hi using Nat.le_induction with
    | base => exact hlt
    | succ i hi ih => exact ih.trans_le (hmono i (by omega))
  have hpool : w ∈ (r.state i).dist.sched.workers.take (r.state i).dist.sched.forwarded := by
    refine List.mem_of_getElem? (i := n) ?_
    rw [List.getElem?_take_of_lt hle]
    exact hplace i (by omega)
  have htokens := ((hinv i).phaseInv (hstay i (by omega))).sched.tokens
  rcases List.mem_append.mp (htokens.mem_iff.mpr hpool) with hsend | hheld
  · exact .inl hsend
  · obtain ⟨⟨args, q⟩, hmem, hq⟩ := List.mem_filterMap.mp hheld
    obtain ⟨t, ht⟩ := List.mem_iff_getElem?.mp hmem
    exact .inr ⟨t, args, q, ht, hq⟩

/-- A survivor that is not called gets to wait on the channel, for ever. -/
theorem eventually_waits (hfair : FaultFair r) {w : GoString} {i : ℕ} (hi : k ≤ i)
    (hpool : w ∈ (r.state i).dist.sched.senders ∨ ∃ (t : ℕ) (args : DoTaskArgs) (q : Routine),
      (r.state i).dist.sched.tasks[t]? = some (args, q) ∧ q.worker = some w)
    (huncalled : ∀ j ≥ i, ∀ t, ¬ (r.state j).dist.sched.Calling t w) :
    ∃ j ≥ i, ∀ m ≥ j, w ∈ (r.state m).dist.sched.senders := by
  have hwaits : ∃ j ≥ i, w ∈ (r.state j).dist.sched.senders := by
    rcases hpool with hsend | ⟨t, args, q, ht, hq⟩
    · exact ⟨i, le_rfl, hsend⟩
    · cases q with
      | calling w' =>
          cases hq
          exact absurd ⟨args, ht⟩ (huncalled i le_rfl t)
      | returned w' ok =>
          cases hq
          -- it is about to be handed back
          refine (hfair.handBack t).leadsTo
            (P := fun s => s.dist.sched.tasks[t]? = some (args, .returned w ok))
            (Q := fun s => w ∈ s.dist.sched.senders) ht ?_ ?_
          · intro j hj hP
            rcases sched_moment hstay (show k ≤ j by omega) with ⟨a, -, hstep⟩ | ⟨-, hsame⟩
            · obtain ⟨q', hq', hmove⟩ := routineStep_of_step hP hstep
              cases hmove with
              | stay => exact .inl hq'
              | handBack =>
                  generalize (r.state (j + 1)).dist.sched = sched at hstep ⊢
                  cases moves_of_step hstep with
                  | handBack ht' =>
                      rw [hP] at ht'
                      cases ht'
                      exact .inr (List.mem_append_right _ List.mem_cons_self)
            · exact .inl (by rw [hsame]; exact hP)
          · intro j hj hP
            have hst := hstay j (by omega)
            have hrun := ((hinv j).phaseInv hst).running
            have hstep : (r.state j).dist.sched.step (E.phase ph) (.handBack t) = some
                { (r.state j).dist.sched.setTask t args (.testing ok) with
                  senders := (r.state j).dist.sched.senders ++ [w] } := by
              simp [ScheduleState.step, hrun, hP]
            obtain ⟨d, hd, hsched⟩ := step_sched hst rfl hstep hrun
            refine ⟨_, faulty_step_sched hd, ?_⟩
            show w ∈ d.sched.senders
            rw [hsched]
            exact List.mem_append_right _ List.mem_cons_self
      | receiving => cases hq
      | testing => cases hq
      | finished => cases hq
  obtain ⟨j, hj, hsend⟩ := hwaits
  refine ⟨j, hj, fun m hm => ?_⟩
  induction m, hm using Nat.le_induction with
  | base => exact hsend
  | succ m hm ih =>
      rcases sched_moment hstay (show k ≤ m by omega) with ⟨a, -, hstep⟩ | ⟨-, hsame⟩
      · rcases mem_senders_of_step ih hstep with hmem | ⟨t, hcall⟩
        · exact hmem
        · exact absurd hcall (huncalled (m + 1) (by omega) t)
      · rw [hsame]
        exact ih

/-- **As long as a task has not succeeded, one more succeeds.** -/
theorem eventually_one_more (hfair : FaultFair r) {w : GoString} (hw : Survivor r w) {i : ℕ}
    (hi : k ≤ i) (hlen : ∀ j ≥ i, (r.state j).dist.sched.tasks.length = (E.phase ph).ntasks)
    (hpool : w ∈ (r.state i).dist.sched.senders ∨ ∃ (t : ℕ) (args : DoTaskArgs) (q : Routine),
      (r.state i).dist.sched.tasks[t]? = some (args, q) ∧ q.worker = some w)
    (hopen : ∃ t < (E.phase ph).ntasks, (r.state i).dist.sched.succeeded t = false) :
    ∃ j ≥ i, ∃ t < (E.phase ph).ntasks, (r.state i).dist.sched.succeeded t = false ∧
      (r.state j).dist.sched.succeeded t = true := by
  by_contra hnone
  have hfrozen : ∀ j ≥ i, ∀ t < (E.phase ph).ntasks,
      (r.state i).dist.sched.succeeded t = false → (r.state j).dist.sched.succeeded t = false := by
    intro j hj t ht hfalse
    by_contra htrue
    exact hnone ⟨j, hj, t, ht, hfalse, by simpa using htrue⟩
  -- a call to the survivor would succeed
  have huncalled : ∀ j ≥ i, ∀ t, ¬ (r.state j).dist.sched.Calling t w := by
    rintro j hj t ⟨args, ht⟩
    have hlt : t < (E.phase ph).ntasks := by
      rw [← hlen j hj]
      exact (List.getElem?_eq_some_iff.mp ht).1
    have hfalse : (r.state i).dist.sched.succeeded t = false := by
      by_contra htrue
      have hsucc := succeeded_of_le hstay hi hj (t := t) (by simpa using htrue)
      unfold ScheduleState.succeeded at hsucc
      rw [ht] at hsucc
      cases hsucc
    obtain ⟨m, hm, hret⟩ := eventually_succeeds hstay hfair hw (show k ≤ j by omega) ht
    have hsucc := hfrozen m (by omega) t hlt hfalse
    unfold ScheduleState.succeeded at hsucc
    rw [hret] at hsucc
    cases hsucc
  obtain ⟨j, hj, hwaits⟩ := eventually_waits hinv hstay hfair hi hpool huncalled
  -- but somebody asks for a worker again and again
  obtain ⟨t₀, ht₀, hfalse⟩ := hopen
  have hasks : ∀ m, ∃ m' ≥ m, ∃ (t : ℕ) (args : DoTaskArgs),
      (r.state m').dist.sched.tasks[t]? = some (args, Routine.receiving) := by
    intro m
    have hlt : t₀ < (r.state (max m i)).dist.sched.tasks.length := by
      rw [hlen _ (le_max_right m i)]
      exact ht₀
    rcases htask : (r.state (max m i)).dist.sched.tasks[t₀]? with _ | ⟨args, q⟩
    · exact absurd (List.getElem?_eq_none_iff.mp htask) (not_le.mpr hlt)
    · obtain ⟨m', hm', hrec⟩ := eventually_receiving hinv hstay hfair
        (show k ≤ max m i by omega) htask (by
          intro j' hj' q' hq'
          have hsucc := hfrozen j' (by omega) t₀ ht₀ hfalse
          unfold ScheduleState.succeeded at hsucc
          rw [hq'] at hsucc
          exact hsucc)
      exact ⟨m', by omega, t₀, args, hrec⟩
  obtain ⟨m, hm, t, ha⟩ := hw.received j hwaits hasks
  -- the task that receives the survivor calls it
  rcases sched_moment hstay (show k ≤ m by omega) with ⟨a, ha', hstep⟩ | ⟨hno, -⟩
  · rw [ha] at ha'
    cases ha'
    refine huncalled (m + 1) (by omega) t ?_
    generalize (r.state (m + 1)).dist.sched = sched at hstep ⊢
    cases moves_of_step hstep with
    | @receive _ _ args ht hsend =>
        refine ⟨args, ?_⟩
        show ((r.state m).dist.sched.setTask t args (.calling w)).tasks[t]? = _
        rw [getElem?_setTask ht, if_pos rfl]
  · exact hno _ ha

/-- All tasks succeed. -/
theorem eventually_all_succeed (hfair : FaultFair r) {w : GoString} (hw : Survivor r w)
    (hp : (E.phase ph).Indexed) :
    ∃ j ≥ k, ∀ i ≥ j, ∀ t < (E.phase ph).ntasks, (r.state i).dist.sched.succeeded t = true := by
  obtain ⟨j₁, hj₁, hlen⟩ := eventually_started hinv hstay hfair.master hp
  obtain ⟨j₂, hj₂, hpool⟩ := eventually_forwarded hinv hstay hfair hw.registers
  -- the tasks that have not succeeded become fewer
  have hfewer : ∀ n, ∀ i ≥ max j₁ j₂, ((Finset.range (E.phase ph).ntasks).filter
      fun t => (r.state i).dist.sched.succeeded t = false).card ≤ n →
      ∃ j ≥ i, ∀ t < (E.phase ph).ntasks, (r.state j).dist.sched.succeeded t = true := by
    intro n
    induction n with
    | zero =>
        intro i hi hcard
        refine ⟨i, le_rfl, fun t ht => ?_⟩
        by_contra hfalse
        have hempty := Finset.card_eq_zero.mp (Nat.le_zero.mp hcard)
        have hmem : t ∈ (Finset.range (E.phase ph).ntasks).filter
            fun t => (r.state i).dist.sched.succeeded t = false :=
          Finset.mem_filter.mpr ⟨Finset.mem_range.mpr ht, by simpa using hfalse⟩
        rw [hempty] at hmem
        cases hmem
    | succ n ih =>
        intro i hi hcard
        by_cases hopen : ∃ t < (E.phase ph).ntasks, (r.state i).dist.sched.succeeded t = false
        · obtain ⟨j, hj, t, ht, hfalse, htrue⟩ := eventually_one_more hinv hstay hfair hw
            (show k ≤ i by omega) (fun j hj => hlen j (by omega)) (hpool i (by omega)) hopen
          have hlt : ((Finset.range (E.phase ph).ntasks).filter
              fun t => (r.state j).dist.sched.succeeded t = false) ⊂
              (Finset.range (E.phase ph).ntasks).filter
                fun t => (r.state i).dist.sched.succeeded t = false := by
            refine Finset.ssubset_iff_of_subset ?_ |>.mpr ⟨t, ?_, ?_⟩
            · intro t' ht'
              rw [Finset.mem_filter] at ht' ⊢
              refine ⟨ht'.1, ?_⟩
              by_contra hsucc
              have hsucc' := succeeded_of_le hstay (show k ≤ i by omega) hj (t := t')
                (by simpa using hsucc)
              rw [ht'.2] at hsucc'
              cases hsucc'
            · exact Finset.mem_filter.mpr ⟨Finset.mem_range.mpr ht, hfalse⟩
            · rw [Finset.mem_filter, htrue]
              simp
          have hcard' := Finset.card_lt_card hlt
          obtain ⟨j', hj', hall⟩ := ih j (by omega) (by omega)
          exact ⟨j', by omega, hall⟩
        · refine ⟨i, le_rfl, fun t ht => ?_⟩
          by_contra hfalse
          exact hopen ⟨t, ht, by simpa using hfalse⟩
  obtain ⟨j, hj, hall⟩ := hfewer _ (max j₁ j₂) le_rfl le_rfl
  exact ⟨j, by omega, fun i hi t ht => succeeded_of_le hstay (by omega) hi (hall t ht)⟩

end Leaving

end Progress

/-- **One worker that survives is enough.**  In every run of a job with at most as many reduce
tasks as input files, with workers that have distinct addresses and die at any moments, also in
the middle of a task: if the goroutines of the master keep running, every call returns, and
there is one worker that registers at some time, whose calls succeed and which the channel does
not starve, then the job does not end with an error, and it ends with the final file of
`Sequential`. -/
theorem survivor_completes (E : Setup) (hn : 1 ≤ E.job.nReduce) (hacc : E.job.Accessible E.fs₀)
    (hvalid : E.job.ValidOutput) (hle : E.job.nReduce ≤ E.job.files.length)
    (ords : ℕ → RangeOrder GoString) (ord : RangeOrder GoString) (r : (faulty E).Run)
    (hdistinct : r.Meets FaultState.Distinct) (hfair : FaultFair r) (w : GoString)
    (hw : Survivor r w) :
    (∀ k, (r.state k).dist.stage ≠ .crashed) ∧
      ∃ k fs' data, (r.state k).dist.stage = .completed ∧
        (sequential E.json E.hash ords ord E.job).run E.fs₀ = .ok ((), fs') ∧
        fs'.content (outName E.job.jobName) = some data ∧
        (r.state k).dist.fs.content (outName E.job.jobName) = some data := by
  have hinv := faultInv_run hn hacc hvalid hle r hdistinct
  have hsucc : TasksSucceed r := by
    intro k ph hstay t ht
    obtain ⟨j, hj, hall⟩ := eventually_all_succeed hinv hstay hfair hw (indexed_phase hle ph)
    exact ⟨j, hj, hall j le_rfl t ht⟩
  obtain ⟨k, hk⟩ := completes hle hinv hfair.master hsucc
  have hseq : wp (sequential E.json E.hash ords ord E.job) (fun _ => Reported E.job E.fs₀) E.fs₀ :=
    wp_sequential hn hacc.runnable (hvalid.on _) ords ord
  obtain ⟨_, fs', hrun, hfile⟩ := wp_iff_run.mp hseq
  have hreported := hinv k
  unfold DistInv at hreported
  rw [hk] at hreported
  exact ⟨fun k => (hinv k).not_crashed, k, fs', _, hk, hrun, hfile, hreported⟩

/-! ## A run -/

section Run

/-- Worker `v` gets the map task and dies after it has created its output file; the next call
to it fails, and worker `w` does the job. -/
def deadWorkerActions : List FaultAction :=
  [.dist (.sched (.register (lit "v"))), .dist (.sched .fork), .dist (.sched .forward),
    .dist (.sched (.receive 0 (lit "v"))), .dist (.begin 0), .dist (.work 0), .dist (.work 0),
    .die (lit "v"), .dist (.sched (.callReturn 0 false)), .dist (.sched (.handBack 0)),
    .dist (.sched (.test 0)), .dist (.sched (.receive 0 (lit "v"))), .dist (.begin 0),
    .dist (.sched (.callReturn 0 false)), .dist (.sched (.handBack 0)), .dist (.sched (.test 0)),
    .dist (.sched (.register (lit "w"))), .dist (.sched .forward),
    .dist (.sched (.receive 0 (lit "w"))), .dist (.begin 0), .dist (.work 0), .dist (.work 0),
    .dist (.work 0), .dist (.work 0), .dist (.sched (.callReturn 0 true)),
    .dist (.sched (.handBack 0)), .dist (.sched (.test 0)), .dist (.sched .wait),
    .dist (.sched .fork), .dist (.sched .forward), .dist (.sched .forward),
    .dist (.sched (.receive 0 (lit "w"))), .dist (.begin 0), .dist (.work 0), .dist (.work 0),
    .dist (.work 0), .dist (.work 0), .dist (.sched (.callReturn 0 true)),
    .dist (.sched (.handBack 0)), .dist (.sched (.test 0)), .dist (.sched .wait),
    .dist .merge, .dist .merge, .dist .merge, .dist .merge]

/-- The run of these actions. -/
def deadWorker : (faulty (letterSetup [lit "g"] 1)).Run :=
  (faulty (letterSetup [lit "g"] 1)).ofList deadWorkerActions

theorem deadWorker_distinct : deadWorker.Meets FaultState.Distinct :=
  TransitionSystem.meets_ofList (by decide)

/-- Between the death and the second attempt the map task has left an empty file. -/
theorem deaths_harmless_deadWorker :
    (deadWorker.state 8).dist.fs.content (lit "mrtmp.count-0-0") = some [] ∧
      ∃ fs' data, (sequential plainJson ihash (fun _ => storedOrder) storedOrder
          (countLetters [lit "g"] 1)).run letterFiles = .ok ((), fs') ∧
        fs'.content (lit "mrtmp.count") = some data ∧
        ∀ k, (deadWorker.state k).dist.stage ≠ .crashed ∧
          ((deadWorker.state k).dist.stage = .completed →
            (deadWorker.state k).dist.fs.content (lit "mrtmp.count") = some data) :=
  ⟨by decide, deaths_harmless (letterSetup [lit "g"] 1) le_rfl (letterSetup_accessible 1)
    (countLetters_valid _ 1) le_rfl (fun _ => storedOrder) storedOrder deadWorker
    deadWorker_distinct⟩

/-- Nothing but deaths happens in a job that has ended. -/
theorem faulty_step_of_ended {s : FaultState} (h : 3 ≤ s.dist.stage.rank) (a : DistAction) :
    (faulty E).step s (.dist a) = none := by
  show s.step E (.dist a) = none
  simp only [FaultState.step, show s.dist.step E a = none from step_of_ended h a, Option.map_none,
    ite_self]

/-- There is one task in each phase, and it is called for the last time at the moment `37`. -/
theorem deadWorker_calling {k t : ℕ} {v : GoString}
    (h : (deadWorker.state k).dist.sched.Calling t v) : t = 0 ∧ k ≤ 37 := by
  obtain ⟨args, ht⟩ := h
  have hlen : ∀ k ≥ 0, (deadWorker.state k).dist.sched.tasks.length ≤ 1 :=
    TransitionSystem.ofList_forall_ge (S := faulty (letterSetup [lit "g"] 1))
      (P := fun s => s.dist.sched.tasks.length ≤ 1) (by decide) (by decide)
  have hlate : ∀ k ≥ 38, ((deadWorker.state k).dist.sched.tasks.all
      fun x => x.2.worker.isNone || x.2.succeeded) = true :=
    TransitionSystem.ofList_forall_ge (S := faulty (letterSetup [lit "g"] 1))
      (P := fun s => (s.dist.sched.tasks.all fun x => x.2.worker.isNone || x.2.succeeded) = true)
      (by decide) (by decide)
  obtain ⟨hlt, -⟩ := List.getElem?_eq_some_iff.mp ht
  have hone := hlen k (Nat.zero_le k)
  refine ⟨by omega, ?_⟩
  by_contra hk
  have hnone := List.all_eq_true.mp (hlate k (by omega)) _ (List.mem_of_getElem? ht)
  cases hnone

theorem deadWorker_fair : FaultFair deadWorker := by
  have hended : 3 ≤ (deadWorker.state deadWorkerActions.length).dist.stage.rank := by
    decide +kernel
  have hfair : ∀ a, deadWorker.WeaklyFair (.dist a) := fun a =>
    TransitionSystem.weaklyFair_ofList (faulty_step_of_ended hended a)
  refine ⟨hfair _, hfair _, hfair _, fun _ => hfair _, fun _ => hfair _, hfair _, ?_⟩
  intro k ph t v _ hcall
  obtain ⟨rfl, hk⟩ := deadWorker_calling hcall
  exact ⟨37, hk, true, by decide +kernel⟩

theorem deadWorker_survivor : Survivor deadWorker (lit "w") where
  registers := ⟨17, by decide +kernel⟩
  succeeds k t hcall ha := by
    obtain ⟨rfl, hk⟩ := deadWorker_calling hcall
    have hfails : ∀ k < 38, deadWorker.act k = some (.dist (.sched (.callReturn 0 false))) →
        ((deadWorker.state k).dist.sched.tasks.all
          fun x => x.2.worker != some (lit "w")) = true := by
      decide +kernel
    obtain ⟨args, ht⟩ := hcall
    have hother := List.all_eq_true.mp (hfails k (by omega) ha) _ (List.mem_of_getElem? ht)
    simp [Routine.worker] at hother
  received k _ hasks := by
    have hquiet : ∀ k ≥ 45, ((deadWorker.state k).dist.sched.tasks.all
        fun x => x.2 != .receiving) = true :=
      TransitionSystem.ofList_forall_ge (S := faulty (letterSetup [lit "g"] 1))
        (P := fun s => (s.dist.sched.tasks.all fun x => x.2 != .receiving) = true)
        (by decide +kernel) (by decide)
    obtain ⟨j, hj, t, args, ht⟩ := hasks 45
    have hother := List.all_eq_true.mp (hquiet j hj) _ (List.mem_of_getElem? ht)
    simp at hother

/-- The job of `deadWorker` ends with the file of `Sequential`. -/
theorem survivor_completes_deadWorker :
    (∀ k, (deadWorker.state k).dist.stage ≠ .crashed) ∧
      ∃ k fs' data, (deadWorker.state k).dist.stage = .completed ∧
        (sequential plainJson ihash (fun _ => storedOrder) storedOrder
          (countLetters [lit "g"] 1)).run letterFiles = .ok ((), fs') ∧
        fs'.content (lit "mrtmp.count") = some data ∧
        (deadWorker.state k).dist.fs.content (lit "mrtmp.count") = some data :=
  survivor_completes (letterSetup [lit "g"] 1) le_rfl (letterSetup_accessible 1)
    (countLetters_valid _ 1) le_rfl (fun _ => storedOrder) storedOrder deadWorker
    deadWorker_distinct deadWorker_fair (lit "w") deadWorker_survivor

end Run

end Mit6824.MapReduce
