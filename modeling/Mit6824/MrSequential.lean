/-
# Sequential MapReduce

`mapreduce/master.go`: `Sequential` runs the map tasks, the reduce tasks and the merge
one after the other.

* `Job`, `sequential`;
* `report`: what a job is for, without files, partitions or hashes.  One line for
  each key that the map function emits, in increasing order, with the reduction of
  all its values;
* `MapDone`, `ReduceDone`: what a finished task has left in its files.  The tasks are
  specified by these alone (`wp_mapTask`, `wp_reduceTask`, `wp_mergeTask`), in terms
  that do not care who ran the other tasks, or when;
* `sequential_report`: `Sequential` leaves the report in the final file.
-/
import Mit6824.MrFiles

namespace Mit6824.MapReduce

open GoString FileProgram FileSystem

/-- A job: what the master is told, and the functions that the workers run. -/
structure Job where
  jobName : GoString
  files : List GoString
  nReduce : ℕ
  mapF : GoString → GoString → List KeyValue
  reduceF : GoString → List GoString → GoString

/-- The method `run`.  `ord` is the order in which `merge` visits its map. -/
def run (json : Json) (ord : RangeOrder GoString) (job : Job) (schedule : JobPhase → Prog Unit)
    (finish : Prog Unit) : Prog Unit := do
  schedule .mapPhase
  schedule .reducePhase
  finish
  merge json ord job.jobName job.nReduce

/-- `Sequential`; its `finish` touches no file.  `ords i` is the order in which reduce task `i`
visits its map. -/
def sequential (json : Json) (hash : GoString → ℕ) (ords : ℕ → RangeOrder GoString)
    (ord : RangeOrder GoString) (job : Job) : Prog Unit :=
  run json ord job
    (fun
      | .mapPhase => forM job.files.zipIdx fun (f, i) =>
          doMap json hash job.jobName i f job.nReduce job.mapF
      | .reducePhase => forM (List.range job.nReduce) fun i =>
          doReduce json (ords i) job.jobName i (mergeName job.jobName i) job.files.length
            job.reduceF)
    (pure ())

/-! ## What a job is for -/

namespace Job

/-- The pairs that the map function emits for an input file. -/
def emittedFor (job : Job) (fs : Files) (f : GoString) : List KeyValue :=
  job.mapF f ((fs.content f).getD [])

/-- All pairs, in the order of the files and then of emission. -/
def emitted (job : Job) (fs : Files) : List KeyValue :=
  job.files.flatMap (job.emittedFor fs)

/-- The files that the job writes. -/
def ownFiles (job : Job) : Set GoString :=
  {n | n = outName job.jobName ∨ (∃ r < job.nReduce, n = mergeName job.jobName r) ∨
    ∃ m < job.files.length, ∃ r < job.nReduce, n = reduceName job.jobName m r}

/-- The input files are there, none of them is one of the job's own files, and those can be
created. -/
structure Accessible (job : Job) (fs : Files) : Prop where
  readable : ∀ f ∈ job.files, fs.content f ≠ none
  foreign : ∀ f ∈ job.files, f ∉ job.ownFiles
  creatable : ∀ n ∈ job.ownFiles, fs.creatable n = true

/-- The functions of the job produce valid UTF-8. -/
structure ValidOutput (job : Job) : Prop where
  map : ∀ f data, ∀ kv ∈ job.mapF f data, kv.Valid
  reduce : ∀ k vs, ValidUtf8 (job.reduceF k vs)

/-- What a sequential run needs of the file system: the input files are there, no map task
writes over the input of a later one, and the job's own files can be created. -/
structure Runnable (job : Job) (fs : Files) : Prop where
  readable : ∀ f ∈ job.files, fs.content f ≠ none
  kept : ∀ i f, job.files[i]? = some f → ∀ m < i, ∀ r < job.nReduce,
    f ≠ reduceName job.jobName m r
  creatable : ∀ n ∈ job.ownFiles, fs.creatable n = true

/-- The functions of the job produce valid UTF-8 for the input files. -/
structure ValidOn (job : Job) (fs : Files) : Prop where
  map : ∀ kv ∈ job.emitted fs, kv.Valid
  reduce : ∀ k ∈ (job.emitted fs).map KeyValue.key,
    ValidUtf8 (job.reduceF k (valuesOf (job.emitted fs) k))

variable {job : Job} {fs : Files}

/-- An input file that is not one of the job's own is not written over. -/
theorem Accessible.runnable (hacc : job.Accessible fs) : job.Runnable fs where
  readable := hacc.readable
  kept i f hf m hm r hr heq := by
    have hlt : i < job.files.length := (List.getElem?_eq_some_iff.mp hf).1
    exact hacc.foreign f (List.mem_of_getElem? hf) (.inr (.inr ⟨m, hm.trans hlt, r, hr, heq⟩))
  creatable := hacc.creatable

/-- Functions that are always valid are so on the input files. -/
theorem ValidOutput.on (hvalid : job.ValidOutput) (fs : Files) : job.ValidOn fs where
  map kv hkv := by
    obtain ⟨f, _, hkv⟩ := List.mem_flatMap.mp hkv
    exact hvalid.map _ _ kv hkv
  reduce k _ := hvalid.reduce k _

end Job

/-- One line for each key of the pairs, in increasing order. -/
def report (reduceF : GoString → List GoString → GoString) (kvs : List KeyValue) :
    List KeyValue :=
  (sortStrings (kvs.map KeyValue.key).dedup).map fun k => ⟨k, reduceF k (valuesOf kvs k)⟩

/-- The keys of a report are those of the pairs, each once. -/
theorem report_keys (reduceF : GoString → List GoString → GoString) (kvs : List KeyValue) :
    (report reduceF kvs).map KeyValue.key = sortStrings (kvs.map KeyValue.key).dedup := by
  rw [report, List.map_map]
  exact List.map_id _

theorem mem_report_keys {reduceF : GoString → List GoString → GoString} {kvs : List KeyValue}
    {k : GoString} : k ∈ (report reduceF kvs).map KeyValue.key ↔ k ∈ kvs.map KeyValue.key := by
  rw [report_keys, (sortStrings_perm _).mem_iff, List.mem_dedup]

/-- Lines in increasing order of their keys are determined by their keys and by the value of
each key. -/
theorem eq_of_sorted_lines {lines lines' : List KeyValue}
    (hsorted : (lines.map KeyValue.key).Pairwise (· < ·))
    (hsorted' : (lines'.map KeyValue.key).Pairwise (· < ·))
    (hkeys : ∀ w, w ∈ lines.map KeyValue.key ↔ w ∈ lines'.map KeyValue.key)
    (hvalues : ∀ kv ∈ lines, ∀ kv' ∈ lines', kv.key = kv'.key → kv.value = kv'.value) :
    lines = lines' := by
  have hsame : ∀ {kv kv' : KeyValue}, kv ∈ lines → kv' ∈ lines' → kv.key = kv'.key →
      kv = kv' := by
    rintro ⟨k, v⟩ ⟨k', v'⟩ hkv hkv' hkey
    obtain rfl : k = k' := hkey
    obtain rfl : v = v' := hvalues _ hkv _ hkv' rfl
    rfl
  have hlt : Std.Asymm fun a b : KeyValue => a.key < b.key := ⟨fun _ _ => lt_asymm⟩
  refine (List.pairwise_map.mp hsorted).eq_of_mem_iff (List.pairwise_map.mp hsorted') fun kv => ?_
  constructor
  · intro hkv
    obtain ⟨kv', hkv', heq⟩ := List.mem_map.mp ((hkeys _).mp (List.mem_map_of_mem hkv))
    rwa [hsame hkv hkv' heq.symm]
  · intro hkv
    obtain ⟨kv', hkv', heq⟩ := List.mem_map.mp ((hkeys _).mpr (List.mem_map_of_mem hkv))
    rwa [← hsame hkv' hkv heq]

/-! ## What the tasks of a job leave behind -/

section Tasks

variable (json : Json) (hash : GoString → ℕ) (job : Job) (fs₀ : Files)

/-- The map task of the file `f` has left its pairs in its files. -/
def MapDone (m : ℕ) (f : GoString) (fs : Files) : Prop :=
  ∀ r < job.nReduce, fs.content (reduceName job.jobName m r) =
    some ((bucket hash job.nReduce r (job.emittedFor fs₀ f)).flatMap json.encode)

/-- A reduce task has left the reduction of its pairs in its file. -/
def ReduceDone (r : ℕ) (fs : Files) : Prop :=
  ∃ out, fs.content (mergeName job.jobName r) = some (out.flatMap json.encode) ∧
    IsReduction job.reduceF (bucket hash job.nReduce r (job.emitted fs₀)) out

/-- The final file is the report. -/
def Reported (fs : Files) : Prop :=
  fs.content (outName job.jobName) =
    some ((report job.reduceF (job.emitted fs₀)).flatMap KeyValue.line)

/-- The files that a map task writes. -/
def mapWrites (m : ℕ) : Set GoString :=
  {n | ∃ r < job.nReduce, n = reduceName job.jobName m r}

/-- The files that a reduce task reads. -/
def reduceReads (r : ℕ) : Set GoString :=
  {n | ∃ m < job.files.length, n = reduceName job.jobName m r}

variable {json hash job fs₀}

/-- Only its own files say whether a map task is done, -/
theorem MapDone.congr {m : ℕ} {f : GoString} {fs fs' : Files}
    (h : MapDone json hash job fs₀ m f fs) (hagree : AgreesOn (mapWrites job m) fs fs') :
    MapDone json hash job fs₀ m f fs' := by
  intro r hr
  rw [hagree.content _ ⟨r, hr, rfl⟩]
  exact h r hr

/-- and the same holds of a reduce task. -/
theorem ReduceDone.congr {r : ℕ} {fs fs' : Files} (h : ReduceDone json hash job fs₀ r fs)
    (hagree : AgreesOn {mergeName job.jobName r} fs fs') : ReduceDone json hash job fs₀ r fs' := by
  obtain ⟨out, hfile, hout⟩ := h
  refine ⟨out, ?_, hout⟩
  rw [hagree.content _ rfl]
  exact hfile

/-- No other map task writes the files of a map task. -/
theorem mapWrites_subset_compl {m m' : ℕ} (h : m ≠ m') :
    mapWrites job m ⊆ (mapWrites job m')ᶜ := by
  rintro _ ⟨r, _, rfl⟩ ⟨r', _, heq⟩
  exact h (reduceName_inj heq).1

/-- The reduce tasks write none of the files of a map task. -/
theorem mapWrites_subset_mergeName (m r : ℕ) :
    mapWrites job m ⊆ {mergeName job.jobName r}ᶜ := by
  rintro _ ⟨r', _, rfl⟩
  exact reduceName_ne_mergeName _ _ _ _

theorem mapWrites_subset_own {m : ℕ} (hm : m < job.files.length) :
    mapWrites job m ⊆ job.ownFiles := by
  rintro _ ⟨r, hr, rfl⟩
  exact .inr (.inr ⟨m, hm, r, hr, rfl⟩)

theorem mergeName_mem_own {r : ℕ} (hr : r < job.nReduce) :
    mergeName job.jobName r ∈ job.ownFiles :=
  .inr (.inl ⟨r, hr, rfl⟩)

/-! ### The map tasks -/

/-- A map task does its work. -/
theorem wp_mapTask (hn : 1 ≤ job.nReduce) (hjob : job.Runnable fs₀) {m : ℕ} {f : GoString}
    (hm : job.files[m]? = some f) {fs : Files} (hfs : AgreesOn {f} fs₀ fs) :
    wp (doMap json hash job.jobName m f job.nReduce job.mapF)
      (fun _ => MapDone json hash job fs₀ m f) fs := by
  have hf : f ∈ job.files := List.mem_of_getElem? hm
  have hlt : m < job.files.length := (List.getElem?_eq_some_iff.mp hm).1
  obtain ⟨data, hdata⟩ := Option.ne_none_iff_exists'.mp (hjob.readable f hf)
  have hin : fs.content f = some data := by
    rw [hfs.content f rfl, hdata]
  have hemit : job.emittedFor fs₀ f = job.mapF f data := by
    rw [Job.emittedFor, hdata, Option.getD_some]
  refine (wp_doMap hn hin ?_).mono ?_
  · intro r hr
    rw [hfs.creatable]
    exact hjob.creatable _ (mapWrites_subset_own hlt ⟨r, hr, rfl⟩)
  · intro _ fs' h r hr
    rw [hemit]
    exact h r hr

/-! ### The reduce tasks -/

/-- Every value of a key is in the bucket of the key. -/
theorem valuesOf_bucket {nReduce r : ℕ} {k : GoString} (hk : hash k % nReduce = r)
    (kvs : List KeyValue) : valuesOf (bucket hash nReduce r kvs) k = valuesOf kvs k := by
  rw [valuesOf, valuesOf, bucket, List.filter_filter]
  refine congrArg (List.map KeyValue.value) (List.filter_congr ?_)
  intro kv _
  by_cases h : kv.key = k
  · simp [h, hk]
  · simp [h]

/-- A bucket has the keys with its hash. -/
theorem mem_bucket_keys {nReduce r : ℕ} {k : GoString} {kvs : List KeyValue} :
    k ∈ (bucket hash nReduce r kvs).map KeyValue.key ↔
      k ∈ kvs.map KeyValue.key ∧ hash k % nReduce = r := by
  simp only [bucket, List.mem_map, List.mem_filter, decide_eq_true_eq]
  constructor
  · rintro ⟨kv, ⟨hkv, hr⟩, rfl⟩
    exact ⟨⟨kv, hkv, rfl⟩, hr⟩
  · rintro ⟨⟨kv, hkv, rfl⟩, hr⟩
    exact ⟨kv, ⟨hkv, hr⟩, rfl⟩

/-- The pairs of a reduce task, file by file. -/
theorem flatMap_range_bucket (r : ℕ) :
    ((List.range job.files.length).flatMap fun m =>
      bucket hash job.nReduce r (job.emittedFor fs₀ (job.files.getD m []))) =
      bucket hash job.nReduce r (job.emitted fs₀) := by
  have hfiles : (List.range job.files.length).map (fun m => job.files.getD m []) = job.files := by
    apply List.ext_getElem
    · simp
    · intro i h₁ h₂
      simp [h₂]
  conv_rhs => rw [Job.emitted, ← hfiles]
  rw [bucket, List.filter_flatMap, List.flatMap_map]
  rfl

/-- A reduce task does its work when all map tasks are done. -/
theorem wp_reduceTask (hjob : job.Runnable fs₀) (hvalid : job.ValidOn fs₀)
    {ord : RangeOrder GoString} {r : ℕ} (hr : r < job.nReduce) {fs : Files}
    (hfs : fs.creatable = fs₀.creatable)
    (hmaps : ∀ m f, job.files[m]? = some f → MapDone json hash job fs₀ m f fs) :
    wp (doReduce json ord job.jobName r (mergeName job.jobName r) job.files.length job.reduceF)
      (fun _ => ReduceDone json hash job fs₀ r) fs := by
  have hget : ∀ m < job.files.length, job.files[m]? = some (job.files.getD m []) := by
    intro m hm
    rw [List.getD_eq_getElem _ _ hm, List.getElem?_eq_getElem hm]
  refine (wp_doReduce (L := fun m =>
    bucket hash job.nReduce r (job.emittedFor fs₀ (job.files.getD m []))) ?_ ?_ ?_).mono ?_
  · intro m hm
    exact hmaps m _ (hget m hm) r hr
  · intro m hm kv hkv
    refine hvalid.map kv (List.mem_flatMap.mpr ⟨_, List.mem_of_getElem? (hget m hm), ?_⟩)
    exact (List.mem_filter.mp hkv).1
  · rw [hfs]
    exact hjob.creatable _ (mergeName_mem_own hr)
  · rintro _ fs' ⟨out, hfile, hout⟩
    rw [flatMap_range_bucket] at hout
    exact ⟨out, hfile, hout⟩

/-! ### The merge -/

/-- The merge does its work when all reduce tasks are done. -/
theorem wp_mergeTask (hn : 1 ≤ job.nReduce) (hjob : job.Runnable fs₀)
    (hvalid : job.ValidOn fs₀) {ord : RangeOrder GoString} {fs : Files}
    (hfs : fs.creatable = fs₀.creatable)
    (hreduces : ∀ r < job.nReduce, ReduceDone json hash job fs₀ r fs) :
    wp (merge json ord job.jobName job.nReduce) (fun _ => Reported job fs₀) fs := by
  choose! L hfile hout using hreduces
  -- an output pair is a key of its bucket with the reduction of all its values
  have hkv : ∀ r < job.nReduce, ∀ kv ∈ L r,
      (kv.key ∈ (job.emitted fs₀).map KeyValue.key ∧ hash kv.key % job.nReduce = r) ∧
        kv.value = job.reduceF kv.key (valuesOf (job.emitted fs₀) kv.key) := by
    intro r hr kv hmem
    obtain ⟨hkey, hvalue⟩ := (hout r hr kv).mp hmem
    rw [mem_bucket_keys] at hkey
    rw [valuesOf_bucket hkey.2] at hvalue
    exact ⟨hkey, hvalue⟩
  refine (wp_merge (K := ((job.emitted fs₀).map KeyValue.key).dedup)
    (f := fun k => job.reduceF k (valuesOf (job.emitted fs₀) k)) hfile ?_ ?_
    (List.nodup_dedup _) ?_ ?_).mono ?_
  · intro r hr kv hmem
    obtain ⟨⟨hkey, _⟩, hvalue⟩ := hkv r hr kv hmem
    obtain ⟨kv', hkv', heq⟩ := List.mem_map.mp hkey
    constructor
    · rw [← heq]
      exact (hvalid.map kv' hkv').1
    · rw [hvalue]
      exact hvalid.reduce _ hkey
  · intro r hr kv hmem
    exact (hkv r hr kv hmem).2
  · intro k
    rw [List.mem_dedup]
    constructor
    · intro hk
      have hlt : hash k % job.nReduce < job.nReduce := Nat.mod_lt _ (by omega)
      refine ⟨_, hlt, ⟨k, job.reduceF k (valuesOf (job.emitted fs₀) k)⟩, ?_, rfl⟩
      rw [hout _ hlt, mem_bucket_keys, valuesOf_bucket rfl]
      exact ⟨⟨hk, rfl⟩, rfl⟩
    · rintro ⟨r, hr, kv, hmem, rfl⟩
      exact (hkv r hr kv hmem).1.1
  · rw [hfs]
    exact hjob.creatable _ (.inl rfl)
  · intro _ fs' h
    rw [Reported, report, List.flatMap_map]
    exact h

end Tasks

/-! ## The sequential run -/

section Sequential

variable {json : Json} {hash : GoString → ℕ} {job : Job} {fs₀ : Files}

/-- The files that the map tasks before `i` write. -/
def earlierWrites (job : Job) (i : ℕ) : Set GoString :=
  {n | ∃ m < i, n ∈ mapWrites job m}

/-- **The map phase.**  The tasks run one after the other, and none undoes what another has done. -/
theorem wp_mapPhase (hn : 1 ≤ job.nReduce) (hjob : job.Runnable fs₀) :
    wp (forM job.files.zipIdx fun (f, i) => doMap json hash job.jobName i f job.nReduce job.mapF)
      (fun _ fs => fs.creatable = fs₀.creatable ∧
        ∀ m f, job.files[m]? = some f → MapDone json hash job fs₀ m f fs) fs₀ := by
  -- the tasks of the files visited so far are done, and have written nothing else
  refine (wp_forM (I := fun pre fs => AgreesOn (earlierWrites job pre.length)ᶜ fs₀ fs ∧
    ∀ m < pre.length, ∀ f, job.files[m]? = some f → MapDone json hash job fs₀ m f fs) ?_ ?_).mono ?_
  · rintro pre ⟨f, i⟩ post fs hl ⟨hfs, hpre⟩
    have hget : job.files.zipIdx[pre.length]? = some (f, i) := by
      rw [hl, List.getElem?_append_right le_rfl, Nat.sub_self]
      rfl
    obtain ⟨hf, rfl⟩ : job.files[pre.length]? = some f ∧ i = pre.length := by
      simpa [List.getElem?_zipIdx, eq_comm] using hget
    have hkept : {f} ⊆ (earlierWrites job pre.length)ᶜ := by
      rintro _ rfl ⟨m, hm, r, hr, heq⟩
      exact hjob.kept _ _ hf m hm r hr heq
    refine (wp_frame (uses_doMap json hash _ _ _ _ _)
      (wp_mapTask hn hjob hf (hfs.mono hkept))).mono ?_
    rintro _ fs' ⟨hdone, hframe⟩
    rw [List.length_append, List.length_singleton]
    constructor
    · refine (hfs.mono ?_).trans (hframe.mono ?_)
      · rintro n hn ⟨m, hm, hmem⟩
        exact hn ⟨m, hm.trans (Nat.lt_succ_self _), hmem⟩
      · intro n hn hmem
        exact hn ⟨pre.length, Nat.lt_succ_self _, hmem⟩
    · intro m hm f' hf'
      by_cases hmi : m = pre.length
      · subst hmi
        rw [hf] at hf'
        cases hf'
        exact hdone
      · have hm' : m < pre.length := by omega
        exact (hpre m hm' f' hf').congr (hframe.mono (mapWrites_subset_compl hmi))
  · refine ⟨.refl _ _, ?_⟩
    intro m hm
    exact absurd hm (Nat.not_lt_zero m)
  · rintro _ fs ⟨hfs, hmaps⟩
    refine ⟨hfs.creatable, ?_⟩
    intro m f hf
    apply hmaps m _ f hf
    rw [List.length_zipIdx]
    exact (List.getElem?_eq_some_iff.mp hf).1

/-- **The reduce phase.** -/
theorem wp_reducePhase (hjob : job.Runnable fs₀) (hvalid : job.ValidOn fs₀)
    {ords : ℕ → RangeOrder GoString} {fs : Files} (hfs : fs.creatable = fs₀.creatable)
    (hmaps : ∀ m f, job.files[m]? = some f → MapDone json hash job fs₀ m f fs) :
    wp (forM (List.range job.nReduce) fun i =>
        doReduce json (ords i) job.jobName i (mergeName job.jobName i) job.files.length job.reduceF)
      (fun _ fs' => fs'.creatable = fs₀.creatable ∧
        ∀ r < job.nReduce, ReduceDone json hash job fs₀ r fs') fs := by
  -- the map tasks stay done, and so do the reduce tasks visited so far
  refine (wp_forM (I := fun pre fs => fs.creatable = fs₀.creatable ∧
    (∀ m f, job.files[m]? = some f → MapDone json hash job fs₀ m f fs) ∧
    ∀ r ∈ pre, ReduceDone json hash job fs₀ r fs) ?_ ?_).mono ?_
  · rintro pre i post fs hl ⟨hfs, hmaps, hpre⟩
    have hi : i < job.nReduce := lt_of_range_eq hl
    refine (wp_frame (uses_doReduce json _ _ _ _ _ _)
      (wp_reduceTask hjob hvalid hi hfs hmaps)).mono ?_
    rintro _ fs' ⟨hdone, hframe⟩
    refine ⟨hframe.creatable.trans hfs, ?_, ?_⟩
    · intro m f hf
      exact (hmaps m f hf).congr (hframe.mono (mapWrites_subset_mergeName m i))
    · intro r hr
      by_cases hri : r = i
      · rw [hri]
        exact hdone
      · have hr' : r ∈ pre := (List.mem_append.mp hr).resolve_right (by simpa using hri)
        refine (hpre r hr').congr (hframe.mono ?_)
        rintro _ rfl heq
        exact hri (mergeName_inj heq)
  · exact ⟨hfs, hmaps, fun r hr => absurd hr List.not_mem_nil⟩
  · rintro _ fs' ⟨hfs', _, hreduces⟩
    exact ⟨hfs', fun r hr => hreduces r (List.mem_range.mpr hr)⟩

/-- `Sequential` finishes with the report in the final file. -/
theorem wp_sequential (hn : 1 ≤ job.nReduce) (hjob : job.Runnable fs₀)
    (hvalid : job.ValidOn fs₀) (ords : ℕ → RangeOrder GoString) (ord : RangeOrder GoString) :
    wp (sequential json hash ords ord job) (fun _ => Reported job fs₀) fs₀ := by
  rw [sequential, run, wp_bind]
  refine (wp_mapPhase hn hjob).mono ?_
  rintro _ fs ⟨hfs, hmaps⟩
  rw [wp_bind]
  refine (wp_reducePhase hjob hvalid hfs hmaps).mono ?_
  rintro _ fs' ⟨hfs', hreduces⟩
  rw [wp_bind, wp_pure]
  exact wp_mergeTask hn hjob hvalid hfs' hreduces

/-- **`Sequential` computes the job.**  Whatever the number of reduce tasks, the hash and the
orders in which Go visits its maps, the final file is the report of the job: its keys are in
strictly increasing order, they are the keys that are emitted for some file, and the value of
a key is the reduction of all its values, in the order of the files and then of emission. -/
theorem sequential_report (json : Json) (hash : GoString → ℕ) (ords : ℕ → RangeOrder GoString)
    (ord : RangeOrder GoString) (job : Job) (fs : Files) (hn : 1 ≤ job.nReduce)
    (hacc : job.Accessible fs) (hvalid : job.ValidOutput) :
    ∃ fs', (sequential json hash ords ord job).run fs = .ok ((), fs') ∧
      fs'.content (outName job.jobName) =
        some ((report job.reduceF (job.emitted fs)).flatMap KeyValue.line) ∧
      ((report job.reduceF (job.emitted fs)).map KeyValue.key).Pairwise (· < ·) ∧
      (∀ k, k ∈ (report job.reduceF (job.emitted fs)).map KeyValue.key ↔
        ∃ f ∈ job.files, ∃ kv ∈ job.mapF f ((fs.content f).getD []), kv.key = k) ∧
      ∀ kv ∈ report job.reduceF (job.emitted fs),
        kv.value = job.reduceF kv.key (valuesOf (job.emitted fs) kv.key) := by
  have hwp : wp (sequential json hash ords ord job) (fun _ => Reported job fs) fs :=
    wp_sequential hn hacc.runnable (hvalid.on fs) ords ord
  obtain ⟨_, fs', hrun, hfile⟩ := wp_iff_run.mp hwp
  refine ⟨fs', hrun, hfile, ?_, ?_, ?_⟩
  · rw [report_keys]
    exact sortStrings_strict (List.nodup_dedup _)
  · intro k
    rw [mem_report_keys, List.mem_map]
    simp only [Job.emitted, Job.emittedFor, List.mem_flatMap]
    constructor
    · rintro ⟨kv, ⟨f, hf, hkv⟩, rfl⟩
      exact ⟨f, hf, kv, hkv, rfl⟩
    · rintro ⟨f, hf, kv, hkv, rfl⟩
      exact ⟨kv, ⟨f, hf, hkv⟩, rfl⟩
  · intro kv hkv
    obtain ⟨k, _, rfl⟩ := List.mem_map.mp hkv
    rfl

end Sequential

/-! ## A job -/

/-- A plain encoding of a string: every byte after a 1, and two zeros at the end. -/
def plainString (s : GoString) : GoString :=
  (s.flatMap fun b => [1, b]) ++ [0, 0]

/-- Read plain strings as pairs.  `key` is the key of the pair that is being read, if it has
been read, and `s` what has been read of the current string. -/
def plainPairs : Option GoString → GoString → GoString → List KeyValue
  | none, s, flag :: b :: l =>
      if flag = 0 then plainPairs (some s) [] l else plainPairs none (s ++ [b]) l
  | some key, s, flag :: b :: l =>
      if flag = 0 then ⟨key, s⟩ :: plainPairs none [] l else plainPairs (some key) (s ++ [b]) l
  | _, _, _ => []

/-- A plain string is read up to its end. -/
theorem plainPairs_plainString (key : Option GoString) (s s' l : GoString) :
    plainPairs key s (plainString s' ++ l) = plainPairs key (s ++ s') (0 :: 0 :: l) := by
  induction s' generalizing s with
  | nil => simp [plainString]
  | cons b s' ih =>
      have hcons : plainString (b :: s') ++ l = 1 :: b :: (plainString s' ++ l) := by
        simp [plainString]
      have hread : plainPairs key s (1 :: b :: (plainString s' ++ l)) =
          plainPairs key (s ++ [b]) (plainString s' ++ l) := by
        cases key with
        | none => rw [plainPairs, if_neg (by decide)]
        | some key => rw [plainPairs, if_neg (by decide)]
      rw [hcons, hread, ih, List.append_assoc, List.singleton_append]

/-- A codec with the round trip of JSON. -/
def plainJson : Json where
  encode kv := plainString kv.key ++ plainString kv.value
  decode := plainPairs none []
  roundTrip kvs h := by
    induction kvs with
    | nil => rfl
    | cons kv kvs ih =>
        rw [List.flatMap_cons, List.append_assoc, plainPairs_plainString, plainPairs,
          if_pos rfl, plainPairs_plainString, plainPairs, if_pos rfl]
        exact congrArg (kv :: ·) (ih fun kv' hkv' => h kv' (List.mem_cons_of_mem _ hkv'))

/-- Visit a map as it is stored. -/
def storedOrder : RangeOrder GoString :=
  ⟨id, fun l => List.Perm.refl l⟩

/-- Count the letters `a` and `b` of some files. -/
def countLetters (files : List GoString) (nReduce : ℕ) : Job where
  jobName := lit "count"
  files := files
  nReduce := nReduce
  mapF _ data := (data.filter fun b => b = 97 ∨ b = 98).map fun b => ⟨[b], lit "1"⟩
  reduceF _ vs := itoa vs.length

/-- Two files with letters. -/
def letterFiles : Files where
  content n :=
    if n = lit "f" then some (lit "b a") else if n = lit "g" then some (lit "a") else none
  creatable _ := true

/-- Letters and numbers are valid. -/
theorem countLetters_valid (files : List GoString) (nReduce : ℕ) :
    (countLetters files nReduce).ValidOutput where
  map := by
    intro _ data kv hkv
    obtain ⟨b, hb, rfl⟩ := List.mem_map.mp hkv
    have hletter : b = 97 ∨ b = 98 := by simpa using (List.mem_filter.mp hb).2
    refine ⟨?_, validUtf8_lit "1" (by decide)⟩
    rcases hletter with rfl | rfl
    · exact ⟨['a'], by decide⟩
    · exact ⟨['b'], by decide⟩
  reduce _ _ := validUtf8_itoa _

/-- The names of a job's own files begin like that of its final file. -/
theorem Job.outName_prefix {job : Job} {n : GoString} (hn : n ∈ job.ownFiles) :
    outName job.jobName <+: n := by
  rcases hn with rfl | ⟨r, _, rfl⟩ | ⟨m, _, r, _, rfl⟩
  · exact List.prefix_rfl
  · rw [mergeName_eq]
    exact List.prefix_append _ _
  · rw [reduceName_eq]
    exact List.prefix_append _ _

/-- Every job on the two files finds what it needs: its own files have other names. -/
theorem letterFiles_accessible {job : Job} (hfiles : job.files ⊆ [lit "f", lit "g"]) :
    job.Accessible letterFiles where
  readable := by
    have hread : ∀ f ∈ [lit "f", lit "g"], letterFiles.content f ≠ none := by decide
    exact fun f hf => hread f (hfiles hf)
  foreign := by
    have hout : ∀ f ∈ [lit "f", lit "g"], ¬ lit "mrtmp." <+: f := by decide
    exact fun f hf hown =>
      hout f (hfiles hf) ((List.prefix_append _ _).trans (Job.outName_prefix hown))
  creatable _ _ := rfl

theorem sequential_report_countLetters : ∃ fs',
    (sequential plainJson ihash (fun _ => storedOrder) storedOrder
      (countLetters [lit "f", lit "g"] 3)).run letterFiles = .ok ((), fs') ∧
    fs'.content (lit "mrtmp.count") = some (lit "a: 2\nb: 1\n") := by
  obtain ⟨fs', hrun, hfile, _⟩ := sequential_report plainJson ihash (fun _ => storedOrder)
    storedOrder (countLetters [lit "f", lit "g"] 3) letterFiles (by decide)
    (letterFiles_accessible (List.Subset.refl _)) (countLetters_valid _ 3)
  have hlines : (report (countLetters [lit "f", lit "g"] 3).reduceF
      ((countLetters [lit "f", lit "g"] 3).emitted letterFiles)).flatMap KeyValue.line =
      lit "a: 2\nb: 1\n" := by decide
  rw [hlines] at hfile
  exact ⟨fs', hrun, hfile⟩

end Mit6824.MapReduce
