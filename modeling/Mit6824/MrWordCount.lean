/-
# The word count

`main/wc.go`: the map function and the reduce function of a job that counts the words of some
files, in one process or with workers that may die.

* `mapF`, `reduceF`, `countJob`;
* `IsCount`: what the job is for.  One line for each word of the files, in increasing order,
  with the number of places at which the word stands in them.  There is only one such list of
  lines (`IsCount.unique`);
* `isCount_report`: the report of the job is a count;
* `word_count`: `Sequential` leaves the count in the final file, and so does `Distributed`
  when it ends, whatever happens to its workers.
-/
import Mit6824.MrFailures
import Mit6824.MrIndex
import Mit6824.GoFields

namespace Mit6824.WordCount

open GoString FileProgram FileSystem MapReduce InvertedIndex

/-! ## The source -/

/-- `mapF`, which ignores the name of the file. -/
def mapF (unicode : Unicode) (_filename contents : GoString) : List KeyValue :=
  (wordsOf unicode contents).map fun w => ⟨w, lit "1"⟩

/-- `reduceF`, which looks at neither the key nor the values. -/
def reduceF (_key : GoString) (values : List GoString) : GoString :=
  itoa values.length

/-- The job of `wc.go`. -/
def countJob (unicode : Unicode) (jobName : GoString) (files : List GoString) (nReduce : ℕ) :
    Job where
  jobName := jobName
  files := files
  nReduce := nReduce
  mapF := mapF unicode
  reduceF := reduceF

/-! ## What the job is for -/

/-- The number of places at which the word stands in the text. -/
noncomputable def occurrences (unicode : Unicode) (w text : GoString) : ℕ :=
  (runStarts (fun r => unicode.isLetter r.char) (fun run => run.flatMap Rune.bytes = w)
    (runes text)).ncard

/-- The lines of the count of some files; a file that is named twice counts twice. -/
structure IsCount (unicode : Unicode) (files : List GoString) (fs : Files)
    (lines : List KeyValue) : Prop where
  sorted : (lines.map KeyValue.key).Pairwise (· < ·)
  words : ∀ w, w ∈ lines.map KeyValue.key ↔
    ∃ f ∈ files, Occurs unicode w ((fs.content f).getD [])
  values : ∀ kv ∈ lines, kv.value =
    itoa (files.map fun f => occurrences unicode kv.key ((fs.content f).getD [])).sum

/-- There is one count. -/
theorem IsCount.unique {unicode : Unicode} {files : List GoString} {fs : Files}
    {lines lines' : List KeyValue} (h : IsCount unicode files fs lines)
    (h' : IsCount unicode files fs lines') : lines = lines' := by
  refine eq_of_sorted_lines h.sorted h'.sorted (fun w => (h.words w).trans (h'.words w).symm) ?_
  intro kv hkv kv' hkv' hkey
  rw [h.values kv hkv, h'.values kv' hkv', hkey]

/-! ## The report of the job -/

/-- The words of a text, as often as they stand in it. -/
theorem count_wordsOf (unicode : Unicode) (w text : GoString) :
    (wordsOf unicode text).count w = occurrences unicode w text := by
  rw [wordsOf, count_fieldsFunc, occurrences]
  simp only [Bool.not_not]

/-- A word has as many values as it has occurrences. -/
theorem length_valuesOf_mapF (unicode : Unicode) (filename contents w : GoString) :
    (valuesOf (mapF unicode filename contents) w).length = occurrences unicode w contents := by
  rw [← count_wordsOf, valuesOf, mapF, List.filter_map, List.length_map, List.length_map,
    List.count, List.countP_eq_length_filter]
  refine congrArg List.length (List.filter_congr ?_)
  intro w' _
  exact (beq_eq_decide w' w).symm

section Report

variable (unicode : Unicode) (jobName : GoString) (files : List GoString) (nReduce : ℕ)
  (fs : Files)

/-- The map tasks emit one value for each place of a word. -/
theorem length_valuesOf_emitted (w : GoString) :
    (valuesOf ((countJob unicode jobName files nReduce).emitted fs) w).length =
      (files.map fun f => occurrences unicode w ((fs.content f).getD [])).sum := by
  show (valuesOf (files.flatMap fun f => mapF unicode f ((fs.content f).getD [])) w).length = _
  induction files with
  | nil => rfl
  | cons f files ih =>
      rw [List.flatMap_cons, valuesOf_append, List.length_append, length_valuesOf_mapF, ih]
      rfl

theorem mem_emitted_keys (w : GoString) :
    w ∈ ((countJob unicode jobName files nReduce).emitted fs).map KeyValue.key ↔
      ∃ f ∈ files, Occurs unicode w ((fs.content f).getD []) := by
  show w ∈ (files.flatMap fun f => mapF unicode f ((fs.content f).getD [])).map KeyValue.key ↔ _
  simp only [List.map_flatMap, List.mem_flatMap, mapF, List.map_map, ← mem_wordsOf]
  refine exists_congr fun f => and_congr_right fun _ => ?_
  show w ∈ List.map id _ ↔ _
  rw [List.map_id]

/-- The report of the job is a count. -/
theorem isCount_report : IsCount unicode files fs
    (report reduceF ((countJob unicode jobName files nReduce).emitted fs)) where
  sorted := by
    rw [report_keys]
    exact sortStrings_strict (List.nodup_dedup _)
  words w := by
    rw [mem_report_keys, mem_emitted_keys]
  values kv hkv := by
    obtain ⟨w, _, rfl⟩ := List.mem_map.mp hkv
    rw [reduceF, length_valuesOf_emitted]

/-- Words and numbers are valid. -/
theorem countJob_valid : (countJob unicode jobName files nReduce).ValidOutput where
  map _ contents kv hkv := by
    obtain ⟨w, hw, rfl⟩ := List.mem_map.mp hkv
    exact ⟨validUtf8_of_occurs (mem_wordsOf.mp hw), validUtf8_lit "1" (by decide)⟩
  reduce _ _ := validUtf8_itoa _

end Report

/-! ## The runs -/

/-- **The word count.**  Let the input files be there and none of them be a file of the job.
Then `Sequential` leaves the count of their words in the final file.  With at most as many
reduce tasks as input files, a distributed job does not end with an error, and when it has
ended, the final file is the same, whatever workers with distinct addresses register, get lost
or die in the middle of a task.  The count does not depend on the number of reduce tasks, the
hash, the encoding and the orders in which Go visits its maps. -/
theorem word_count (unicode : Unicode) (jobName : GoString) (files : List GoString) (fs : Files) :
    ∃ lines, IsCount unicode files fs lines ∧
      ∀ (nReduce : ℕ) (json : Json) (hash : GoString → ℕ) (ords : ℕ → RangeOrder GoString)
        (ord : RangeOrder GoString), 1 ≤ nReduce →
        (countJob unicode jobName files nReduce).Accessible fs →
        (∃ fs', (sequential json hash ords ord (countJob unicode jobName files nReduce)).run fs =
            .ok ((), fs') ∧
          fs'.content (outName jobName) = some (lines.flatMap KeyValue.line)) ∧
        (nReduce ≤ files.length →
          ∀ r : (faulty ⟨json, hash, ords, countJob unicode jobName files nReduce, fs⟩).Run,
            r.Meets FaultState.Distinct → ∀ k, (r.state k).dist.stage ≠ .crashed ∧
              ((r.state k).dist.stage = .completed →
                (r.state k).dist.fs.content (outName jobName) =
                  some (lines.flatMap KeyValue.line))) := by
  refine ⟨_, isCount_report unicode jobName files 1 fs, ?_⟩
  intro nReduce json hash ords ord hn hacc
  -- the emitted pairs do not depend on the number of reduce tasks
  have hreport : ∀ {fs' : Files}, Reported (countJob unicode jobName files nReduce) fs fs' →
      fs'.content (outName jobName) = some ((report reduceF
        ((countJob unicode jobName files 1).emitted fs)).flatMap KeyValue.line) := fun h => h
  have hvalid := countJob_valid unicode jobName files nReduce
  constructor
  · have hwp : wp (sequential json hash ords ord (countJob unicode jobName files nReduce))
        (fun _ => Reported (countJob unicode jobName files nReduce) fs) fs :=
      wp_sequential hn hacc.runnable (hvalid.on fs) ords ord
    obtain ⟨_, fs', hrun, hfile⟩ := wp_iff_run.mp hwp
    exact ⟨fs', hrun, hreport hfile⟩
  · intro hle r hdistinct k
    have hinv := faultInv_run (E := ⟨json, hash, ords, countJob unicode jobName files nReduce, fs⟩)
      hn hacc hvalid hle r hdistinct k
    refine ⟨hinv.not_crashed, fun hk => ?_⟩
    unfold DistInv at hinv
    rw [hk] at hinv
    exact hreport hinv

/-- The words of the two files, with two reduce tasks. -/
theorem word_count_letterFiles :
    (∃ fs', (sequential plainJson ihash (fun _ => storedOrder) storedOrder
        (countJob asciiTables (lit "wcseq") [lit "f", lit "g"] 2)).run letterFiles =
          .ok ((), fs') ∧
      fs'.content (lit "mrtmp.wcseq") = some (lit "a: 2\nb: 1\n")) ∧
    ∀ r : (faulty ⟨plainJson, ihash, fun _ => storedOrder,
        countJob asciiTables (lit "wcseq") [lit "f", lit "g"] 2, letterFiles⟩).Run,
      r.Meets FaultState.Distinct → ∀ k, (r.state k).dist.stage ≠ .crashed ∧
        ((r.state k).dist.stage = .completed →
          (r.state k).dist.fs.content (lit "mrtmp.wcseq") = some (lit "a: 2\nb: 1\n")) := by
  obtain ⟨lines, hlines, hrun⟩ := word_count asciiTables (lit "wcseq") [lit "f", lit "g"]
    letterFiles
  have htext : lines.flatMap KeyValue.line = lit "a: 2\nb: 1\n" := by
    rw [hlines.unique (isCount_report asciiTables (lit "wcseq") [lit "f", lit "g"] 2 letterFiles)]
    decide
  rw [htext] at hrun
  obtain ⟨hseq, hdist⟩ := hrun 2 plainJson ihash (fun _ => storedOrder) storedOrder (by decide)
    (letterFiles_accessible (List.Subset.refl _))
  exact ⟨hseq, hdist (by decide)⟩

end Mit6824.WordCount
