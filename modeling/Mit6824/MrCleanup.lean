/-
# The files of a MapReduce job

Which files a job creates and which ones `CleanupFiles` of `master_splitmerge.go`
removes.

* `cleanupFiles`: the loops of `CleanupFiles`, which remove the files of `fileNames` one
  after the other (`cleanupFiles_eq`).  Removing a file that is not there ends the
  process, so it matters that no name comes twice (`nodup_fileNames`);
* `Task`: the map tasks, the reduce tasks and the merge, with the files that each of them
  writes (`uses_program`);
* `uses_sequential`, `makes_sequential`: a finished job has created its own files and changed no
  others;
* `jobFiles_never_collide`: the names of a job's files are distinct, and `CleanupFiles`
  removes just the files that the job has created.
-/
import Mit6824.MrSequential
import Mathlib.Order.CompletePartialOrder

namespace Mit6824.MapReduce

open GoString FileProgram FileSystem

/-! ## Removing files -/

/-- A file that is there is removed; otherwise `os.Remove` fails and the process ends. -/
def removeFile (fs : Files) (n : GoString) : Except String Files :=
  match fs.content n with
  | none => .error "CleanupFiles "
  | some _ => .ok { fs with content := Function.update fs.content n none }

/-- The method `CleanupFiles`. -/
def cleanupFiles (job : Job) (fs : Files) : Except String Files := do
  let fs ← (List.range job.files.length).foldlM (fun fs i =>
    (List.range job.nReduce).foldlM (fun fs j => removeFile fs (reduceName job.jobName i j)) fs) fs
  let fs ← (List.range job.nReduce).foldlM (fun fs i => removeFile fs (mergeName job.jobName i)) fs
  removeFile fs (outName job.jobName)

/-- The names that `CleanupFiles` goes through. -/
def fileNames (job : Job) : List GoString :=
  ((List.range job.files.length).flatMap fun i =>
    (List.range job.nReduce).map (reduceName job.jobName i)) ++
  ((List.range job.nReduce).map (mergeName job.jobName) ++ [outName job.jobName])

/-- A loop in a loop. -/
theorem foldlM_flatMap {α β γ ε : Type} (f : γ → β → Except ε γ) (g : α → List β) (l : List α)
    (c : γ) : (l.flatMap g).foldlM f c = l.foldlM (fun c a => (g a).foldlM f c) c := by
  induction l generalizing c with
  | nil => rfl
  | cons a l ih =>
      rw [List.flatMap_cons, List.foldlM_append, List.foldlM_cons]
      exact congrArg _ (funext ih)

theorem cleanupFiles_eq (job : Job) (fs : Files) :
    cleanupFiles job fs = (fileNames job).foldlM removeFile fs := by
  rw [fileNames, List.foldlM_append, foldlM_flatMap, cleanupFiles]
  simp only [List.foldlM_map, List.foldlM_append]
  refine congrArg _ (funext fun fs₁ => congrArg _ (funext fun fs₂ => ?_))
  rw [List.foldlM_cons]
  cases removeFile fs₂ (outName job.jobName) with
  | error msg => rfl
  | ok fs₃ => rfl

/-- Files that are there, none of them twice, can be removed. -/
theorem removeFiles_spec {l : List GoString} (hnd : l.Nodup) {fs : Files}
    (hl : ∀ n ∈ l, fs.content n ≠ none) :
    ∃ fs', l.foldlM removeFile fs = .ok fs' ∧ (∀ n ∈ l, fs'.content n = none) ∧
      ∀ n, n ∉ l → fs'.content n = fs.content n := by
  induction l generalizing fs with
  | nil => exact ⟨fs, rfl, fun n hn => absurd hn List.not_mem_nil, fun n _ => rfl⟩
  | cons m l ih =>
      obtain ⟨hm, hnd⟩ := List.nodup_cons.mp hnd
      obtain ⟨data, hdata⟩ := Option.ne_none_iff_exists'.mp (hl m List.mem_cons_self)
      set fs₁ : Files := { fs with content := Function.update fs.content m none } with hfs₁
      have hself : fs₁.content m = none := Function.update_self ..
      have hother : ∀ n, n ≠ m → fs₁.content n = fs.content n := fun n hn =>
        Function.update_of_ne hn ..
      have hremove : removeFile fs m = .ok fs₁ := by rw [removeFile, hdata]
      have hl₁ : ∀ n ∈ l, fs₁.content n ≠ none := by
        intro n hn
        rw [hother n (by rintro rfl; exact hm hn)]
        exact hl n (List.mem_cons_of_mem m hn)
      obtain ⟨fs', hrun, hgone, hkept⟩ := ih hnd hl₁
      refine ⟨fs', ?_, ?_, ?_⟩
      · rw [List.foldlM_cons, hremove]
        exact hrun
      · intro n hn
        rcases List.mem_cons.mp hn with rfl | hn
        · rw [hkept n hm, hself]
        · exact hgone n hn
      · intro n hn
        rw [List.mem_cons, not_or] at hn
        rw [hkept n hn.2, hother n hn.1]

/-! ## The names of the files -/

/-- `CleanupFiles` goes through the job's own files. -/
theorem mem_fileNames {job : Job} {n : GoString} : n ∈ fileNames job ↔ n ∈ job.ownFiles := by
  simp only [fileNames, Job.ownFiles, List.mem_append, List.mem_flatMap, List.mem_map,
    List.mem_range, List.mem_singleton, Set.mem_ofPred_eq]
  constructor
  · rintro (⟨m, hm, r, hr, rfl⟩ | ⟨r, hr, rfl⟩ | rfl)
    · exact .inr (.inr ⟨m, hm, r, hr, rfl⟩)
    · exact .inr (.inl ⟨r, hr, rfl⟩)
    · exact .inl rfl
  · rintro (rfl | ⟨r, hr, rfl⟩ | ⟨m, hm, r, hr, rfl⟩)
    · exact .inr (.inr rfl)
    · exact .inr (.inl ⟨r, hr, rfl⟩)
    · exact .inl ⟨m, hm, r, hr, rfl⟩

/-- No name comes twice. -/
theorem nodup_fileNames (job : Job) : (fileNames job).Nodup := by
  have hreduce : ∀ m, ((List.range job.nReduce).map (reduceName job.jobName m)).Nodup := fun m =>
    List.nodup_range.map fun _ _ h => (reduceName_inj h).2
  have hmerge : ((List.range job.nReduce).map (mergeName job.jobName)).Nodup :=
    List.nodup_range.map fun _ _ h => mergeName_inj h
  rw [fileNames, List.nodup_append', List.nodup_append', List.nodup_flatMap]
  refine ⟨⟨fun m _ => hreduce m, ?_⟩, ⟨hmerge, List.nodup_singleton _, ?_⟩, ?_⟩
  · -- the files of two map tasks
    apply List.nodup_range.imp
    intro m m' hne n hn hn'
    obtain ⟨r, _, rfl⟩ := List.mem_map.mp hn
    obtain ⟨r', _, heq⟩ := List.mem_map.mp hn'
    exact hne (reduceName_inj heq).1.symm
  · intro n hn hn'
    obtain ⟨r, _, rfl⟩ := List.mem_map.mp hn
    exact mergeName_ne_outName _ _ (List.mem_singleton.mp hn')
  · intro n hn hn'
    obtain ⟨m, _, hn⟩ := List.mem_flatMap.mp hn
    obtain ⟨r, _, rfl⟩ := List.mem_map.mp hn
    rcases List.mem_append.mp hn' with hn' | hn'
    · obtain ⟨r', _, heq⟩ := List.mem_map.mp hn'
      exact reduceName_ne_mergeName _ _ _ _ heq.symm
    · exact reduceName_ne_outName _ _ _ (List.mem_singleton.mp hn')

/-! ## The tasks and their files -/

/-- A task of a job, the merge included. -/
inductive Task where
  | map (m : ℕ)
  | reduce (r : ℕ)
  | merge
  deriving DecidableEq, Repr

section Tasks

variable (json : Json) (hash : GoString → ℕ) (ords : ℕ → RangeOrder GoString)
  (ord : RangeOrder GoString) (job : Job)

/-- What a task runs. -/
def Task.program : Task → Prog Unit
  | .map m => doMap json hash job.jobName m (job.files.getD m []) job.nReduce job.mapF
  | .reduce r => doReduce json (ords r) job.jobName r (mergeName job.jobName r) job.files.length
      job.reduceF
  | .merge => MapReduce.merge json ord job.jobName job.nReduce

/-- The files of a task. -/
def Task.files : Task → Set GoString
  | .map m => mapWrites job m
  | .reduce r => {mergeName job.jobName r}
  | .merge => {outName job.jobName}

/-- A task writes its own files only. -/
theorem uses_program (t : Task) :
    (t.program json hash ords ord job).Uses Set.univ (t.files job) := by
  cases t with
  | map m => exact (uses_doMap json hash _ _ _ _ _).mono (Set.subset_univ _) subset_rfl
  | reduce r => exact (uses_doReduce json _ _ _ _ _ _).mono (Set.subset_univ _) subset_rfl
  | merge => exact (uses_merge json _ _ _).mono (Set.subset_univ _) subset_rfl

/-- No two tasks have a file in common. -/
theorem disjoint_files {t t' : Task} (hne : t ≠ t') : Disjoint (t.files job) (t'.files job) := by
  rw [Set.disjoint_left]
  intro n hn hn'
  cases t with
  | map m =>
      obtain ⟨r, _, rfl⟩ := hn
      cases t' with
      | map m' =>
          obtain ⟨r', _, heq⟩ := hn'
          exact hne (congrArg Task.map (reduceName_inj heq).1)
      | reduce r' => exact reduceName_ne_mergeName _ _ _ _ hn'
      | merge => exact reduceName_ne_outName _ _ _ hn'
  | reduce r =>
      obtain rfl := hn
      cases t' with
      | map m' =>
          obtain ⟨r', _, heq⟩ := hn'
          exact reduceName_ne_mergeName _ _ _ _ heq.symm
      | reduce r' => exact hne (congrArg Task.reduce (mergeName_inj hn'))
      | merge => exact mergeName_ne_outName _ _ hn'
  | merge =>
      obtain rfl := hn
      cases t' with
      | map m' =>
          obtain ⟨r', _, heq⟩ := hn'
          exact reduceName_ne_outName _ _ _ heq.symm
      | reduce r' => exact mergeName_ne_outName _ _ hn'.symm
      | merge => exact hne rfl

/-! ## A finished job -/

/-- A sequential run writes the job's own files only, -/
theorem uses_sequential : (sequential json hash ords ord job).Uses Set.univ job.ownFiles := by
  unfold sequential run
  apply Uses.bind
  · apply Uses.forM
    rintro ⟨f, i⟩ hi
    have hlt : i < job.files.length := (List.mem_zipIdx' hi).1
    exact (uses_doMap json hash _ _ _ _ _).mono (Set.subset_univ _) (mapWrites_subset_own hlt)
  · intro _
    apply Uses.bind
    · apply Uses.forM
      intro r hr
      refine (uses_doReduce json _ _ _ _ _ _).mono (Set.subset_univ _) ?_
      rintro _ rfl
      exact mergeName_mem_own (List.mem_range.mp hr)
    · intro _
      apply Uses.bind
      · trivial
      · intro _
        refine (uses_merge json _ _ _).mono (Set.subset_univ _) ?_
        rintro _ rfl
        exact .inl rfl

/-- and leaves all of them behind. -/
theorem makes_sequential {n : GoString} (hn : n ∈ job.ownFiles) :
    (sequential json hash ords ord job).Makes n := by
  unfold sequential run
  rcases hn with rfl | ⟨r, hr, rfl⟩ | ⟨m, hm, r, hr, rfl⟩
  · apply makes_bind
    intro _
    apply makes_bind
    intro _
    apply makes_bind
    intro _
    exact makes_merge json ord _ _
  · apply makes_bind
    intro _
    apply Makes.bind
    exact Makes.forM (List.mem_range.mpr hr) (makes_doReduce json _ _ _ _ _ _)
  · apply Makes.bind
    have hmem : (job.files[m], m) ∈ job.files.zipIdx := by
      rw [List.mem_zipIdx_iff_getElem?]
      exact List.getElem?_eq_getElem hm
    exact Makes.forM hmem (makes_doMap json hash _ _ _ hr _)

/-- **A job's files never collide.**  The names of the intermediate files, of the reduce tasks'
files and of the final file are pairwise distinct, for all numbers of map and reduce tasks.  So
no task writes to a file of another task; and when the job has finished, its own files are
there, no others have changed, and `CleanupFiles` removes just these and leaves what was there
before. -/
theorem jobFiles_never_collide :
    (∀ m r m' r', reduceName job.jobName m r = reduceName job.jobName m' r' → m = m' ∧ r = r') ∧
    (∀ r r', mergeName job.jobName r = mergeName job.jobName r' → r = r') ∧
    (∀ m r r', reduceName job.jobName m r ≠ mergeName job.jobName r') ∧
    (∀ m r, reduceName job.jobName m r ≠ outName job.jobName) ∧
    (∀ r, mergeName job.jobName r ≠ outName job.jobName) ∧
    (∀ t : Task, (t.program json hash ords ord job).Uses Set.univ (t.files job)) ∧
    (∀ t t' : Task, t ≠ t' → Disjoint (t.files job) (t'.files job)) ∧
    ∀ fs fs', (sequential json hash ords ord job).run fs = .ok ((), fs') →
      (∀ n ∈ job.ownFiles, fs'.content n ≠ none) ∧
      (∀ n, n ∉ job.ownFiles → fs'.content n = fs.content n) ∧
      ∃ fs'', cleanupFiles job fs' = .ok fs'' ∧ (∀ n ∈ job.ownFiles, fs''.content n = none) ∧
        ∀ n, n ∉ job.ownFiles → fs''.content n = fs.content n := by
  refine ⟨fun m r m' r' => reduceName_inj, fun r r' => mergeName_inj,
    reduceName_ne_mergeName _, reduceName_ne_outName _, mergeName_ne_outName _,
    uses_program json hash ords ord job, fun t t' => disjoint_files job, ?_⟩
  intro fs fs' hrun
  have hmade : ∀ n ∈ job.ownFiles, fs'.content n ≠ none := fun n hn =>
    makes_sequential json hash ords ord job hn fs () fs' hrun
  have hframe : ∀ n, n ∉ job.ownFiles → fs'.content n = fs.content n :=
    (run_frame (uses_sequential json hash ords ord job) hrun).content
  obtain ⟨fs'', hcleanup, hgone, hkept⟩ := removeFiles_spec (nodup_fileNames job)
    (fun n hn => hmade n (mem_fileNames.mp hn))
  refine ⟨hmade, hframe, fs'', ?_, ?_, ?_⟩
  · rw [cleanupFiles_eq, hcleanup]
  · intro n hn
    exact hgone n (mem_fileNames.mpr hn)
  · intro n hn
    rw [hkept n (fun hmem => hn (mem_fileNames.mp hmem)), hframe n hn]

end Tasks

end Mit6824.MapReduce
