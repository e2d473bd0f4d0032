/-
# The tasks of a MapReduce job

`mapreduce/common.go`, `common_map.go`, `common_reduce.go` and
`master_splitmerge.go`: the names of a job's files, the map task, the reduce task and
the merge, as programs on files.

* `doMap`, `doReduce`, `merge`.  The JSON package is a parameter (`Json`), of which
  only the round trip is known; so are the hash and the orders in which Go visits a
  map;
* `reduceName_inj`, `mergeName_inj`, `reduceName_ne_mergeName`: no two tasks share a
  file;
* `wp_doMap`, `wp_doReduce`, `wp_merge`: what a task leaves in its files;
* `uses_doMap`, `uses_doReduce`, `uses_merge`: which files it reads and writes;
* `makes_doMap`, `makes_doReduce`, `makes_merge`: which files are there when it has finished.
-/
import Mathlib.Data.List.GetD
import Mit6824.FileProgram
import Mit6824.GoString
import Mit6824.Grouping

namespace Mit6824.MapReduce

open GoString FileProgram Grouping

/-- The shared file system. -/
abbrev Files := FileSystem GoString UInt8

/-- A program on the shared file system. -/
abbrev Prog := FileProgram GoString UInt8

/-- `jobPhase`. -/
inductive JobPhase where
  | mapPhase
  | reducePhase
  deriving DecidableEq, Repr

/-- `KeyValue`: a pair that map tasks emit. -/
structure KeyValue where
  key : GoString
  value : GoString
  deriving DecidableEq, Repr

/-- Key and value are valid UTF-8. -/
def KeyValue.Valid (kv : KeyValue) : Prop :=
  ValidUtf8 kv.key ∧ ValidUtf8 kv.value

/-- The package `encoding/json` on a stream of `KeyValue` objects. -/
structure Json where
  /-- What `enc.Encode(&kv)` writes. -/
  encode : KeyValue → GoString
  /-- The objects that `dec.Decode(&kv)` returns before its first error. -/
  decode : GoString → List KeyValue
  /-- A stream of objects of valid strings is read back. -/
  roundTrip : ∀ kvs : List KeyValue, (∀ kv ∈ kvs, kv.Valid) → decode (kvs.flatMap encode) = kvs

/-! ## Names -/

/-- The intermediate file of a map task for a reduce task. -/
def reduceName (jobName : GoString) (mapTask reduceTask : ℕ) : GoString :=
  lit "mrtmp." ++ jobName ++ lit "-" ++ itoa mapTask ++ lit "-" ++ itoa reduceTask

/-- The output file of a reduce task. -/
def mergeName (jobName : GoString) (reduceTask : ℕ) : GoString :=
  lit "mrtmp." ++ jobName ++ lit "-res-" ++ itoa reduceTask

/-- The file that `merge` creates. -/
def outName (jobName : GoString) : GoString :=
  lit "mrtmp." ++ jobName

/-! ## The tasks -/

/-- FNV-1a with 32 bits, without the sign bit. -/
def ihash (s : GoString) : ℕ :=
  (s.foldl (fun h b => (h ^^^ b.toUInt32) * 16777619) (2166136261 : UInt32) &&& 0x7fffffff).toNat

section Tasks

variable (json : Json) (hash : GoString → ℕ)

/-- `taskNo := ihash(kv.Key) % nReduce; tasks[taskNo] = append(tasks[taskNo], kv)`. -/
def addToTask (nReduce : ℕ) (tasks : List (List KeyValue)) (kv : KeyValue) :
    Prog (List (List KeyValue)) :=
  if nReduce = 0 then fatal "runtime error: integer divide by zero"
  else pure (tasks.modify (hash kv.key % nReduce) (· ++ [kv]))

/-- A map task. -/
def doMap (jobName : GoString) (mapTask : ℕ) (inFile : GoString) (nReduce : ℕ)
    (mapF : GoString → GoString → List KeyValue) : Prog Unit := do
  let inContent ← readFile inFile "doMap failed to read input file, err: "
  let tasks ← (mapF inFile inContent).foldlM (addToTask hash nReduce) (List.replicate nReduce [])
  forM (List.range nReduce) fun i => do
    createFile (reduceName jobName mapTask i) "doMap failed to create reduce file, err: "
    forM (tasks.getD i []) fun kv => appendFile (reduceName jobName mapTask i) (json.encode kv)

/-- One intermediate file of a reduce task. -/
def readPairs (jobName : GoString) (reduceTask : ℕ) (kvs : AList fun _ : GoString => List GoString)
    (m : ℕ) : Prog (AList fun _ : GoString => List GoString) := do
  let reduceFile ← readFile (reduceName jobName m reduceTask) "doReduce failed to open, err: "
  return group KeyValue.key KeyValue.value kvs (json.decode reduceFile)

/-- A reduce task; `ord` is the order of `for k, v := range kvs`. -/
def doReduce (ord : RangeOrder GoString) (jobName : GoString) (reduceTask : ℕ)
    (outFile : GoString) (nMap : ℕ) (reduceF : GoString → List GoString → GoString) :
    Prog Unit := do
  let kvs ← (List.range nMap).foldlM (readPairs json jobName reduceTask) ∅
  createFile outFile "doReduce failed to create output file, err: "
  forM (ord.visit kvs.keys) fun k =>
    appendFile outFile (json.encode ⟨k, reduceF k ((kvs.lookup k).getD [])⟩)

/-- `fmt.Fprintf(w, "%s: %s\n", k, v)`. -/
def KeyValue.line (kv : KeyValue) : GoString :=
  kv.key ++ lit ": " ++ kv.value ++ lit "\n"

/-- `kvs[kv.Key] = kv.Value` for every pair of a list. -/
def storePairs (kvs : AList fun _ : GoString => GoString) (l : List KeyValue) :
    AList fun _ : GoString => GoString :=
  l.foldl (fun kvs kv => kvs.insert kv.key kv.value) kvs

/-- One output file of the reduce tasks. -/
def readResult (jobName : GoString) (kvs : AList fun _ : GoString => GoString) (i : ℕ) :
    Prog (AList fun _ : GoString => GoString) := do
  let file ← readFile (mergeName jobName i) "Merge: "
  return storePairs kvs (json.decode file)

/-- The method `merge`; `ord` is the order of `for k := range kvs`. -/
def merge (ord : RangeOrder GoString) (jobName : GoString) (nReduce : ℕ) : Prog Unit := do
  let kvs ← (List.range nReduce).foldlM (readResult json jobName) ∅
  createFile (outName jobName) "Merge: create "
  forM (sortStrings (ord.visit kvs.keys)) fun k =>
    appendFile (outName jobName) (KeyValue.line ⟨k, (kvs.lookup k).getD []⟩)

end Tasks

/-! ## The names of a job are distinct -/

/-- The dash between the numbers of a name is not part of a number. -/
theorem dash_notMem_itoa (n : ℕ) : (45 : UInt8) ∉ itoa n := by
  intro h
  have hdigit := mem_itoa h
  have hdash : (45 : UInt8).toNat = 45 := rfl
  omega

/-- The name of an intermediate file is that of the final file with two numbers behind it. -/
theorem reduceName_eq (jobName : GoString) (m r : ℕ) :
    reduceName jobName m r = outName jobName ++ 45 :: (itoa m ++ 45 :: itoa r) := by
  have hdash : lit "-" = [45] := by decide
  rw [reduceName, hdash, outName]
  simp only [List.append_assoc, List.cons_append, List.nil_append]

/-- The name of the output of a reduce task, in the same form. -/
theorem mergeName_eq (jobName : GoString) (r : ℕ) :
    mergeName jobName r = outName jobName ++ 45 :: (lit "res" ++ 45 :: itoa r) := by
  have hres : lit "-res-" = 45 :: (lit "res" ++ [45]) := by decide
  rw [mergeName, hres, outName]
  simp only [List.append_assoc, List.cons_append, List.nil_append]

/-- The numbers of the tasks can be read off the name. -/
theorem reduceName_inj {jobName : GoString} {m r m' r' : ℕ}
    (h : reduceName jobName m r = reduceName jobName m' r') : m = m' ∧ r = r' := by
  rw [reduceName_eq, reduceName_eq, List.append_cancel_left_eq, List.cons_inj_right,
    List.append_cons_inj_of_notMem (dash_notMem_itoa m) (dash_notMem_itoa r)] at h
  exact ⟨itoa_injective h.1, itoa_injective h.2.2⟩

theorem mergeName_inj {jobName : GoString} {r r' : ℕ}
    (h : mergeName jobName r = mergeName jobName r') : r = r' := by
  rw [mergeName, mergeName, List.append_cancel_left_eq] at h
  exact itoa_injective h

/-- A map task does not write over the output of a reduce task: `res` is not a number. -/
theorem reduceName_ne_mergeName (jobName : GoString) (m r r' : ℕ) :
    reduceName jobName m r ≠ mergeName jobName r' := by
  intro h
  rw [reduceName_eq, mergeName_eq, List.append_cancel_left_eq, List.cons_inj_right,
    List.append_cons_inj_of_notMem (dash_notMem_itoa m) (dash_notMem_itoa r)] at h
  -- a numeral would have the letter `r`
  have hmem : (114 : UInt8) ∈ itoa m := by
    rw [h.1]
    decide
  have hdigit := mem_itoa hmem
  have hletter : (114 : UInt8).toNat = 114 := rfl
  omega

theorem outName_ne_append {jobName : GoString} {b : UInt8} {s : GoString} :
    outName jobName ++ b :: s ≠ outName jobName := by
  intro h
  have hlen := congrArg List.length h
  rw [List.length_append, List.length_cons] at hlen
  omega

theorem reduceName_ne_outName (jobName : GoString) (m r : ℕ) :
    reduceName jobName m r ≠ outName jobName := by
  rw [reduceName_eq]
  exact outName_ne_append

theorem mergeName_ne_outName (jobName : GoString) (r : ℕ) :
    mergeName jobName r ≠ outName jobName := by
  rw [mergeName_eq]
  exact outName_ne_append

/-! ## What the tasks do -/

section Specs

variable {json : Json} {hash : GoString → ℕ}

/-- The pairs of a list that belong to a reduce task. -/
def bucket (hash : GoString → ℕ) (nReduce r : ℕ) (kvs : List KeyValue) : List KeyValue :=
  kvs.filter fun kv => hash kv.key % nReduce = r

/-- The values of a key, in the order of the list. -/
def valuesOf (kvs : List KeyValue) (k : GoString) : List GoString :=
  (kvs.filter fun kv => kv.key = k).map KeyValue.value

theorem valuesOf_append (l l' : List KeyValue) (k : GoString) :
    valuesOf (l ++ l') k = valuesOf l k ++ valuesOf l' k := by
  rw [valuesOf, List.filter_append, List.map_append, valuesOf, valuesOf]

/-- The loop of `doMap` over the pairs. -/
theorem wp_addToTask {nReduce : ℕ} (hn : 1 ≤ nReduce) (kvs : List KeyValue)
    {Q : List (List KeyValue) → Files → Prop} {fs : Files}
    (h : ∀ tasks, (∀ r < nReduce, tasks.getD r [] = bucket hash nReduce r kvs) → Q tasks fs) :
    wp (kvs.foldlM (addToTask hash nReduce) (List.replicate nReduce [])) Q fs := by
  have hloop : wp (kvs.foldlM (addToTask hash nReduce) (List.replicate nReduce []))
      (fun tasks fs' => fs' = fs ∧ tasks.length = nReduce ∧
        ∀ r < nReduce, tasks.getD r [] = bucket hash nReduce r kvs) fs := by
    refine wp_foldlM (I := fun pre (tasks : List (List KeyValue)) fs' => fs' = fs ∧
      tasks.length = nReduce ∧ ∀ r < nReduce, tasks.getD r [] = bucket hash nReduce r pre) ?_ ?_
    · rintro pre kv post tasks _ - ⟨rfl, hlen, hget⟩
      rw [addToTask, if_neg (by omega), wp_pure]
      refine ⟨rfl, by rw [List.length_modify, hlen], ?_⟩
      intro r hr
      have hrt : r < tasks.length := by omega
      have hold := hget r hr
      rw [List.getD_eq_getElem _ _ hrt] at hold
      rw [List.getD_eq_getElem _ _ (by simpa using hrt), List.getElem_modify, hold, bucket, bucket,
        List.filter_append]
      by_cases hk : hash kv.key % nReduce = r
      · rw [if_pos hk, List.filter_cons_of_pos (by simpa using hk), List.filter_nil]
      · rw [if_neg hk, List.filter_cons_of_neg (by simpa using hk), List.filter_nil,
          List.append_nil]
    · refine ⟨rfl, List.length_replicate, ?_⟩
      intro r hr
      rw [List.getD_eq_getElem _ _ (by simpa using hr), List.getElem_replicate]
      rfl
  refine hloop.mono ?_
  rintro tasks _ ⟨rfl, _, hget⟩
  exact h tasks hget

/-- A map task leaves the pairs of every reduce task in its file. -/
theorem wp_doMap {jobName inFile data : GoString} {mapTask nReduce : ℕ}
    {mapF : GoString → GoString → List KeyValue} {fs : Files} (hn : 1 ≤ nReduce)
    (hin : fs.content inFile = some data)
    (hcreate : ∀ r < nReduce, fs.creatable (reduceName jobName mapTask r) = true) :
    wp (doMap json hash jobName mapTask inFile nReduce mapF) (fun _ fs' => ∀ r < nReduce,
      fs'.content (reduceName jobName mapTask r) =
        some ((bucket hash nReduce r (mapF inFile data)).flatMap json.encode)) fs := by
  rw [doMap, wp_bind]
  refine wp_readFile hin ?_
  rw [wp_bind]
  apply wp_addToTask hn
  intro tasks htasks
  refine (wp_forM (I := fun pre fs' => fs'.creatable = fs.creatable ∧ ∀ r ∈ pre,
    fs'.content (reduceName jobName mapTask r) =
      some ((bucket hash nReduce r (mapF inFile data)).flatMap json.encode)) ?_ ?_).mono ?_
  · rintro pre i post fs' hl ⟨hcr, hpre⟩
    have hi : i < nReduce := lt_of_range_eq hl
    apply wp_create_forM
    · rw [hcr]
      exact hcreate i hi
    · refine ⟨hcr, ?_⟩
      intro r hr
      by_cases hri : r = i
      · rw [hri, FileSystem.write_content_self, htasks i hi]
      · rw [FileSystem.write_content_ne _ (fun h => hri (reduceName_inj h).2)]
        exact hpre r ((List.mem_append.mp hr).resolve_right (by simpa using hri))
  · exact ⟨rfl, fun r hr => absurd hr List.not_mem_nil⟩
  · intro _ fs' h r hr
    exact h.2 r (List.mem_range.mpr hr)

/-- The loop of `doReduce` over the intermediate files. -/
theorem wp_readPairs {jobName : GoString} {r nMap : ℕ} {L : ℕ → List KeyValue} {fs : Files}
    (hfile : ∀ m < nMap, fs.content (reduceName jobName m r) = some ((L m).flatMap json.encode))
    (hvalid : ∀ m < nMap, ∀ kv ∈ L m, kv.Valid) :
    wp ((List.range nMap).foldlM (readPairs json jobName r) ∅) (fun kvs fs' => fs' = fs ∧
      kvs = group KeyValue.key KeyValue.value ∅ ((List.range nMap).flatMap L)) fs := by
  refine wp_foldlM (I := fun pre kvs fs' => fs' = fs ∧
    kvs = group KeyValue.key KeyValue.value ∅ (pre.flatMap L)) ?_ ⟨rfl, rfl⟩
  rintro pre m post _ _ hl ⟨rfl, rfl⟩
  have hm : m < nMap := lt_of_range_eq hl
  rw [readPairs, wp_bind]
  refine wp_readFile (hfile m hm) ?_
  rw [wp_pure, json.roundTrip _ (hvalid m hm)]
  refine ⟨rfl, ?_⟩
  rw [List.flatMap_append, List.flatMap_singleton, group, group, group, List.foldl_append]

/-- The output of a reduction: for every key of the list, what `reduceF` makes of its
values. -/
def IsReduction (reduceF : GoString → List GoString → GoString) (kvs out : List KeyValue) : Prop :=
  ∀ kv, kv ∈ out ↔
    kv.key ∈ kvs.map KeyValue.key ∧ kv.value = reduceF kv.key (valuesOf kvs kv.key)

/-- A reduce task leaves the reduction of its pairs in its file. -/
theorem wp_doReduce {ord : RangeOrder GoString} {jobName outFile : GoString} {r nMap : ℕ}
    {reduceF : GoString → List GoString → GoString} {L : ℕ → List KeyValue} {fs : Files}
    (hfile : ∀ m < nMap, fs.content (reduceName jobName m r) = some ((L m).flatMap json.encode))
    (hvalid : ∀ m < nMap, ∀ kv ∈ L m, kv.Valid) (hcreate : fs.creatable outFile = true) :
    wp (doReduce json ord jobName r outFile nMap reduceF) (fun _ fs' =>
      ∃ out, fs'.content outFile = some (out.flatMap json.encode) ∧
        IsReduction reduceF ((List.range nMap).flatMap L) out) fs := by
  rw [doReduce, wp_bind]
  refine (wp_readPairs hfile hvalid).mono ?_
  rintro _ _ ⟨rfl, rfl⟩
  apply wp_create_forM hcreate
  set kvs := (List.range nMap).flatMap L with hkvs
  set m := group KeyValue.key KeyValue.value ∅ kvs with hm
  have hvalues : ∀ k, (m.lookup k).getD [] = valuesOf kvs k := by
    intro k
    rw [hm, lookup_group, AList.lookup_empty]
    rfl
  refine ⟨(ord.visit m.keys).map fun k => ⟨k, reduceF k ((m.lookup k).getD [])⟩, ?_, ?_⟩
  · rw [FileSystem.write_content_self, List.flatMap_map]
  · intro kv
    have hmem : kv.key ∈ ord.visit m.keys ↔ kv.key ∈ kvs.map KeyValue.key := by
      rw [(ord.perm _).mem_iff, ← AList.mem_keys, hm, mem_group, List.mem_map]
      simp only [AList.notMem_empty, false_or]
    rw [← hmem, List.mem_map]
    constructor
    · rintro ⟨k, hk, rfl⟩
      exact ⟨hk, by rw [hvalues]⟩
    · rintro ⟨hk, hv⟩
      refine ⟨kv.key, hk, ?_⟩
      rw [hvalues, ← hv]

/-- A map filled with pairs whose values are determined by their keys. -/
theorem lookup_storePairs {f : GoString → GoString} {l : List KeyValue}
    (hl : ∀ kv ∈ l, kv.value = f kv.key) (kvs : AList fun _ : GoString => GoString)
    (k : GoString) :
    (storePairs kvs l).lookup k =
      if k ∈ l.map KeyValue.key then some (f k) else kvs.lookup k := by
  induction l generalizing kvs with
  | nil => rfl
  | cons kv l ih =>
      have hcons : storePairs kvs (kv :: l) = storePairs (kvs.insert kv.key kv.value) l := rfl
      rw [hcons, ih (fun kv' hkv' => hl kv' (List.mem_cons_of_mem _ hkv')), List.map_cons]
      by_cases hmem : k ∈ l.map KeyValue.key
      · rw [if_pos hmem, if_pos (List.mem_cons_of_mem _ hmem)]
      · rw [if_neg hmem]
        by_cases hk : k = kv.key
        · rw [hk, AList.lookup_insert, if_pos List.mem_cons_self, hl kv List.mem_cons_self]
        · rw [AList.lookup_insert_ne hk, if_neg]
          simpa [hk] using hmem

/-- The keys of a map that has been filled from nothing, each once. -/
theorem keys_storePairs_perm {f : GoString → GoString} {l : List KeyValue}
    (hl : ∀ kv ∈ l, kv.value = f kv.key) {K : List GoString} (hK : K.Nodup)
    (hmem : ∀ k, k ∈ K ↔ k ∈ l.map KeyValue.key) : (storePairs ∅ l).keys.Perm K := by
  refine (List.perm_ext_iff_of_nodup (AList.keys_nodup _) hK).mpr ?_
  intro k
  rw [← AList.mem_keys, ← AList.lookup_isSome, lookup_storePairs hl, hmem]
  by_cases hk : k ∈ l.map KeyValue.key
  · simp [hk]
  · simp [hk]

/-- The pairs of such a map, visited in any order. -/
theorem visit_storePairs_perm {f : GoString → GoString} {l : List KeyValue}
    (hl : ∀ kv ∈ l, kv.value = f kv.key) {K : List GoString} (hK : K.Nodup)
    (hmem : ∀ k, k ∈ K ↔ k ∈ l.map KeyValue.key) (ord : RangeOrder GoString) :
    ((ord.visit (storePairs ∅ l).keys).map fun k =>
      (⟨k, ((storePairs ∅ l).lookup k).getD []⟩ : KeyValue)).Perm (K.map fun k => ⟨k, f k⟩) := by
  have hperm := (ord.perm _).trans (keys_storePairs_perm hl hK hmem)
  have hvalues : ((ord.visit (storePairs ∅ l).keys).map fun k =>
      (⟨k, ((storePairs ∅ l).lookup k).getD []⟩ : KeyValue)) =
      (ord.visit (storePairs ∅ l).keys).map fun k => ⟨k, f k⟩ := by
    apply List.map_congr_left
    intro k hk
    rw [lookup_storePairs hl, if_pos ((hmem k).mp (hperm.mem_iff.mp hk)), Option.getD_some]
  rw [hvalues]
  exact hperm.map _

/-- The loop of `merge` over the output files. -/
theorem wp_readResult {jobName : GoString} {nReduce : ℕ} {L : ℕ → List KeyValue} {fs : Files}
    (hfile : ∀ i < nReduce, fs.content (mergeName jobName i) = some ((L i).flatMap json.encode))
    (hvalid : ∀ i < nReduce, ∀ kv ∈ L i, kv.Valid) :
    wp ((List.range nReduce).foldlM (readResult json jobName) ∅) (fun kvs fs' => fs' = fs ∧
      kvs = storePairs ∅ ((List.range nReduce).flatMap L)) fs := by
  refine wp_foldlM (I := fun pre kvs fs' => fs' = fs ∧
    kvs = storePairs ∅ (pre.flatMap L)) ?_ ⟨rfl, rfl⟩
  rintro pre i post _ _ hl ⟨rfl, rfl⟩
  have hi : i < nReduce := lt_of_range_eq hl
  rw [readResult, wp_bind]
  refine wp_readFile (hfile i hi) ?_
  rw [wp_pure, json.roundTrip _ (hvalid i hi)]
  refine ⟨rfl, ?_⟩
  rw [List.flatMap_append, List.flatMap_singleton, storePairs, storePairs, storePairs,
    List.foldl_append]

/-- The merge of output files whose values are determined by their keys. -/
theorem wp_merge {ord : RangeOrder GoString} {jobName : GoString} {nReduce : ℕ}
    {L : ℕ → List KeyValue} {f : GoString → GoString} {K : List GoString} {fs : Files}
    (hfile : ∀ i < nReduce, fs.content (mergeName jobName i) = some ((L i).flatMap json.encode))
    (hvalid : ∀ i < nReduce, ∀ kv ∈ L i, kv.Valid)
    (hvalue : ∀ i < nReduce, ∀ kv ∈ L i, kv.value = f kv.key)
    (hK : K.Nodup) (hkeys : ∀ k, k ∈ K ↔ ∃ i < nReduce, ∃ kv ∈ L i, kv.key = k)
    (hcreate : fs.creatable (outName jobName) = true) :
    wp (merge json ord jobName nReduce) (fun _ fs' => fs'.content (outName jobName) =
      some ((sortStrings K).flatMap fun k => KeyValue.line ⟨k, f k⟩)) fs := by
  rw [merge, wp_bind]
  refine (wp_readResult hfile hvalid).mono ?_
  rintro _ _ ⟨rfl, rfl⟩
  apply wp_create_forM hcreate
  set all := (List.range nReduce).flatMap L with hall
  have hmemAll : ∀ kv, kv ∈ all ↔ ∃ i < nReduce, kv ∈ L i := by
    intro kv
    simp only [hall, List.mem_flatMap, List.mem_range]
  have hf : ∀ kv ∈ all, kv.value = f kv.key := by
    intro kv hkv
    obtain ⟨i, hi, hkv⟩ := (hmemAll kv).mp hkv
    exact hvalue i hi kv hkv
  have hmem : ∀ k, k ∈ K ↔ k ∈ all.map KeyValue.key := by
    intro k
    rw [hkeys, List.mem_map]
    constructor
    · rintro ⟨i, hi, kv, hkv, rfl⟩
      exact ⟨kv, (hmemAll kv).mpr ⟨i, hi, hkv⟩, rfl⟩
    · rintro ⟨kv, hkv, rfl⟩
      obtain ⟨i, hi, hkv⟩ := (hmemAll kv).mp hkv
      exact ⟨i, hi, kv, hkv, rfl⟩
  -- the keys of the map are those of `K`, in some order
  have hperm : (ord.visit (storePairs ∅ all).keys).Perm K :=
    (ord.perm _).trans (keys_storePairs_perm hf hK hmem)
  rw [FileSystem.write_content_self, sortStrings_eq hperm]
  refine congrArg some (List.flatMap_congr ?_)
  intro k hk
  have hkK : k ∈ K := (sortStrings_perm K).mem_iff.mp hk
  rw [lookup_storePairs hf, if_pos ((hmem k).mp hkK)]
  rfl

end Specs

/-! ## The files of the tasks -/

section Footprints

variable (json : Json) (hash : GoString → ℕ)

/-- A map task reads its input and writes one file for each reduce task. -/
theorem uses_doMap (jobName : GoString) (mapTask : ℕ) (inFile : GoString) (nReduce : ℕ)
    (mapF : GoString → GoString → List KeyValue) :
    (doMap json hash jobName mapTask inFile nReduce mapF).Uses {inFile}
      {n | ∃ r < nReduce, n = reduceName jobName mapTask r} := by
  unfold doMap
  apply (uses_readFile (Set.mem_singleton inFile) _).bind
  intro data
  apply Uses.bind
  · apply Uses.foldlM
    intro tasks kv _
    unfold addToTask
    split <;> trivial
  · intro tasks
    apply Uses.forM
    intro i hi
    apply uses_create_forM
    exact ⟨i, List.mem_range.mp hi, rfl⟩

/-- A reduce task reads one file of each map task and writes its output. -/
theorem uses_doReduce (ord : RangeOrder GoString) (jobName : GoString) (reduceTask : ℕ)
    (outFile : GoString) (nMap : ℕ) (reduceF : GoString → List GoString → GoString) :
    (doReduce json ord jobName reduceTask outFile nMap reduceF).Uses
      {n | ∃ m < nMap, n = reduceName jobName m reduceTask} {outFile} := by
  unfold doReduce
  apply Uses.bind
  · apply Uses.foldlM
    intro kvs m hm
    apply Uses.bind
    · apply uses_readFile
      exact ⟨m, List.mem_range.mp hm, rfl⟩
    · intro reduceFile
      trivial
  · intro kvs
    exact uses_create_forM (Set.mem_singleton outFile)

/-- The merge reads the outputs of the reduce tasks and writes the final file. -/
theorem uses_merge (ord : RangeOrder GoString) (jobName : GoString) (nReduce : ℕ) :
    (merge json ord jobName nReduce).Uses {n | ∃ r < nReduce, n = mergeName jobName r}
      {outName jobName} := by
  unfold merge
  apply Uses.bind
  · apply Uses.foldlM
    intro kvs i hi
    apply Uses.bind
    · apply uses_readFile
      exact ⟨i, List.mem_range.mp hi, rfl⟩
    · intro file
      trivial
  · intro kvs
    exact uses_create_forM (Set.mem_singleton (outName jobName))

/-- A map task leaves a file for each reduce task, also for those that get no pair. -/
theorem makes_doMap (jobName : GoString) (mapTask : ℕ) (inFile : GoString) {nReduce r : ℕ}
    (hr : r < nReduce) (mapF : GoString → GoString → List KeyValue) :
    (doMap json hash jobName mapTask inFile nReduce mapF).Makes (reduceName jobName mapTask r) := by
  unfold doMap
  apply makes_bind
  intro inContent
  apply makes_bind
  intro tasks
  apply Makes.forM (List.mem_range.mpr hr)
  exact (makes_createFile _ _).bind _

theorem makes_doReduce (ord : RangeOrder GoString) (jobName : GoString) (reduceTask : ℕ)
    (outFile : GoString) (nMap : ℕ) (reduceF : GoString → List GoString → GoString) :
    (doReduce json ord jobName reduceTask outFile nMap reduceF).Makes outFile := by
  unfold doReduce
  apply makes_bind
  intro kvs
  exact (makes_createFile _ _).bind _

theorem makes_merge (ord : RangeOrder GoString) (jobName : GoString) (nReduce : ℕ) :
    (merge json ord jobName nReduce).Makes (outName jobName) := by
  unfold merge
  apply makes_bind
  intro kvs
  exact (makes_createFile _ _).bind _

end Footprints

end Mit6824.MapReduce
