/-
# The inverted index

`main/ii.go`: the map function and the reduce function of a job that lists, for every word,
the files that contain it.

* `mapF`, `reduceF`, `indexJob`;
* `IsIndex`: what the job is for.  One line for each word of the files, in increasing order,
  with the number of the files that contain the word and their names.  There is only one such
  list of lines (`IsIndex.unique`);
* `isIndex_report`: the report of the job is an index;
* `sequential_index`: a run leaves the index in the final file, if no map task writes over the
  input of a later one.  An input file with the name of an intermediate file is lost
  (`overwritten_input_not_indexed`).
-/
import Mit6824.GoFields
import Mit6824.MrSequential

namespace Mit6824.InvertedIndex

open GoString FileProgram FileSystem MapReduce

/-! ## The source -/

/-- The words of a text, from left to right. -/
def wordsOf (unicode : Unicode) (value : GoString) : List GoString :=
  fieldsFunc value fun c => !unicode.isLetter c

/-- `mapF`; `ord` is the order of `for k, v := range wordsMap`. -/
def mapF (unicode : Unicode) (ord : RangeOrder GoString) (document value : GoString) :
    List KeyValue :=
  let wordsMap : AList fun _ : GoString => GoString :=
    (wordsOf unicode value).foldl (fun wordsMap w => wordsMap.insert w document) ∅
  (ord.visit wordsMap.keys).map fun k => ⟨k, (wordsMap.lookup k).getD []⟩

/-- `reduceF`, which ignores the key. -/
def reduceF (_key : GoString) (values : List GoString) : GoString :=
  let nDocument := values.length
  let values := sortStrings values
  itoa values.length ++ lit " " ++ values.zipIdx.flatMap fun (document, i) =>
    document ++ if i ≠ nDocument - 1 then lit "," else []

/-- The job of `ii.go`.  `mapOrds f` is the order in which the map task of the file `f` visits
its map. -/
def indexJob (unicode : Unicode) (mapOrds : GoString → RangeOrder GoString) (jobName : GoString)
    (files : List GoString) (nReduce : ℕ) : Job where
  jobName := jobName
  files := files
  nReduce := nReduce
  mapF document := mapF unicode (mapOrds document) document
  reduceF := reduceF

/-! ## What the job is for -/

/-- `w` is a word of the text: a maximal run of letters. -/
def Occurs (unicode : Unicode) (w text : GoString) : Prop :=
  ∃ run, MaximalRun (fun r => unicode.isLetter r.char) (runes text) run ∧
    w = run.flatMap Rune.bytes

/-- The lines of the index of some files. -/
structure IsIndex (unicode : Unicode) (files : List GoString) (fs : Files)
    (lines : List KeyValue) : Prop where
  sorted : (lines.map KeyValue.key).Pairwise (· < ·)
  words : ∀ w, w ∈ lines.map KeyValue.key ↔
    ∃ f ∈ files, Occurs unicode w ((fs.content f).getD [])
  values : ∀ kv ∈ lines, ∃ names : List GoString, names.Pairwise (· < ·) ∧
    (∀ f, f ∈ names ↔ f ∈ files ∧ Occurs unicode kv.key ((fs.content f).getD [])) ∧
    kv.value = itoa names.length ++ lit " " ++ (lit ",").intercalate names

/-- The key of a line of the index determines its value. -/
theorem IsIndex.value_eq {unicode : Unicode} {files : List GoString} {fs : Files}
    {lines lines' : List KeyValue} (h : IsIndex unicode files fs lines)
    (h' : IsIndex unicode files fs lines') {kv kv' : KeyValue} (hkv : kv ∈ lines)
    (hkv' : kv' ∈ lines') (hkey : kv.key = kv'.key) : kv.value = kv'.value := by
  obtain ⟨names, hsorted, hnames, hvalue⟩ := h.values kv hkv
  obtain ⟨names', hsorted', hnames', hvalue'⟩ := h'.values kv' hkv'
  have hsame : names = names' := by
    apply hsorted.eq_of_mem_iff hsorted'
    intro f
    rw [hnames, hnames', hkey]
  rw [hvalue, hvalue', hsame]

theorem IsIndex.unique {unicode : Unicode} {files : List GoString} {fs : Files}
    {lines lines' : List KeyValue} (h : IsIndex unicode files fs lines)
    (h' : IsIndex unicode files fs lines') : lines = lines' :=
  eq_of_sorted_lines h.sorted h'.sorted (fun w => (h.words w).trans (h'.words w).symm)
    fun _ hkv _ hkv' => h.value_eq h' hkv hkv'

/-! ## The functions of the job -/

theorem mem_wordsOf {unicode : Unicode} {w text : GoString} :
    w ∈ wordsOf unicode text ↔ Occurs unicode w text := by
  rw [wordsOf, mem_fieldsFunc, Occurs]
  simp only [Bool.not_not]

/-- One pair for each word of the file, in some order. -/
theorem mapF_perm (unicode : Unicode) (ord : RangeOrder GoString) (document value : GoString) :
    (mapF unicode ord document value).Perm
      ((wordsOf unicode value).dedup.map fun w => ⟨w, document⟩) := by
  have hpairs : mapF unicode ord document value =
      (ord.visit (storePairs ∅ ((wordsOf unicode value).map fun w => ⟨w, document⟩)).keys).map
        fun k => ⟨k, ((storePairs ∅ ((wordsOf unicode value).map fun w =>
          ⟨w, document⟩)).lookup k).getD []⟩ := by
    rw [storePairs, List.foldl_map]
    rfl
  rw [hpairs]
  apply visit_storePairs_perm (f := fun _ => document)
  · intro kv hkv
    obtain ⟨w, _, rfl⟩ := List.mem_map.mp hkv
    rfl
  · exact List.nodup_dedup _
  · intro k
    simp

/-- A file has one value for each of its words, its name. -/
theorem valuesOf_mapF (unicode : Unicode) (ord : RangeOrder GoString)
    (document value w : GoString) :
    valuesOf (mapF unicode ord document value) w =
      if w ∈ wordsOf unicode value then [document] else [] := by
  have hperm : (valuesOf (mapF unicode ord document value) w).Perm
      (valuesOf ((wordsOf unicode value).dedup.map fun w => ⟨w, document⟩) w) :=
    ((mapF_perm unicode ord document value).filter _).map _
  have hvalues : valuesOf ((wordsOf unicode value).dedup.map fun w => ⟨w, document⟩) w =
      List.replicate ((wordsOf unicode value).dedup.count w) document := by
    rw [valuesOf, List.filter_map, List.map_map]
    show ((wordsOf unicode value).dedup.filter (· = w)).map (fun _ => document) = _
    rw [List.filter_eq, List.map_replicate]
  rw [hvalues] at hperm
  by_cases hw : w ∈ wordsOf unicode value
  · rw [List.count_eq_one_of_mem (List.nodup_dedup _) (List.mem_dedup.mpr hw)] at hperm
    rw [if_pos hw]
    exact List.perm_singleton.mp hperm
  · rw [List.count_eq_zero_of_not_mem (mt List.mem_dedup.mp hw)] at hperm
    rw [if_neg hw]
    exact List.perm_nil.mp hperm

/-- The loop over the documents puts a separator between any two of them. -/
theorem flatMap_zipIdx (sep : GoString) (l : List GoString) (k : ℕ) :
    ((l.zipIdx k).flatMap fun (d, i) => d ++ if i ≠ k + l.length - 1 then sep else []) =
      sep.intercalate l := by
  induction l generalizing k with
  | nil => rfl
  | cons d l ih =>
    rw [List.zipIdx_cons, List.flatMap_cons]
    have hrest : k + (d :: l).length - 1 = k + 1 + l.length - 1 := by
      rw [List.length_cons]
      omega
    rw [hrest, ih (k + 1)]
    cases l with
    | nil => simp
    | cons d' l =>
      have hne : k ≠ k + 1 + (d' :: l).length - 1 := by
        rw [List.length_cons]
        omega
      show (d ++ if _ then sep else []) ++ _ = _
      rw [if_pos hne, List.intercalate_cons_cons]

theorem reduceF_eq (key : GoString) (values : List GoString) :
    reduceF key values =
      itoa values.length ++ lit " " ++ (lit ",").intercalate (sortStrings values) := by
  have hlength : (sortStrings values).length = values.length := (sortStrings_perm values).length_eq
  have hloop := flatMap_zipIdx (lit ",") (sortStrings values) 0
  rw [Nat.zero_add, hlength] at hloop
  rw [reduceF, hlength, hloop]

/-! ## The report of the job -/

section Report

variable (unicode : Unicode) (mapOrds : GoString → RangeOrder GoString) (jobName : GoString)
  (files : List GoString) (nReduce : ℕ) (fs : Files)

/-- The values of a word are the names of the files that contain it. -/
theorem valuesOf_emitted (w : GoString) :
    valuesOf ((indexJob unicode mapOrds jobName files nReduce).emitted fs) w =
      files.filter fun f => w ∈ wordsOf unicode ((fs.content f).getD []) := by
  show valuesOf (files.flatMap fun f =>
    mapF unicode (mapOrds f) f ((fs.content f).getD [])) w = _
  induction files with
  | nil => rfl
  | cons f files ih =>
    rw [List.flatMap_cons, valuesOf_append, valuesOf_mapF, ih]
    by_cases hw : w ∈ wordsOf unicode ((fs.content f).getD [])
    · rw [if_pos hw, List.filter_cons_of_pos (by simpa using hw)]
      rfl
    · rw [if_neg hw, List.filter_cons_of_neg (by simpa using hw)]
      rfl

theorem mem_emitted (kv : KeyValue) :
    kv ∈ (indexJob unicode mapOrds jobName files nReduce).emitted fs ↔
      kv.value ∈ files ∧ Occurs unicode kv.key ((fs.content kv.value).getD []) := by
  show kv ∈ files.flatMap (fun f => mapF unicode (mapOrds f) f ((fs.content f).getD [])) ↔ _
  simp only [List.mem_flatMap, (mapF_perm _ _ _ _).mem_iff, List.mem_map, List.mem_dedup,
    mem_wordsOf]
  constructor
  · rintro ⟨f, hf, w, hw, rfl⟩
    exact ⟨hf, hw⟩
  · rintro ⟨hf, hw⟩
    exact ⟨kv.value, hf, kv.key, hw, rfl⟩

theorem mem_emitted_keys (w : GoString) :
    w ∈ ((indexJob unicode mapOrds jobName files nReduce).emitted fs).map KeyValue.key ↔
      ∃ f ∈ files, Occurs unicode w ((fs.content f).getD []) := by
  rw [List.mem_map]
  constructor
  · rintro ⟨kv, hkv, rfl⟩
    exact ⟨kv.value, (mem_emitted unicode mapOrds jobName files nReduce fs kv).mp hkv⟩
  · rintro ⟨f, hf⟩
    exact ⟨⟨w, f⟩, (mem_emitted unicode mapOrds jobName files nReduce fs ⟨w, f⟩).mpr hf, rfl⟩

variable {files} in
theorem isIndex_report (hfiles : files.Nodup) : IsIndex unicode files fs
    (report reduceF ((indexJob unicode mapOrds jobName files nReduce).emitted fs)) where
  sorted := by
    rw [report_keys]
    exact sortStrings_strict (List.nodup_dedup _)
  words w := by
    rw [mem_report_keys, mem_emitted_keys]
  values kv hkv := by
    obtain ⟨w, _, rfl⟩ := List.mem_map.mp hkv
    set names := files.filter fun f => w ∈ wordsOf unicode ((fs.content f).getD []) with hnames
    refine ⟨sortStrings names, sortStrings_strict (hfiles.filter _), ?_, ?_⟩
    · intro f
      rw [(sortStrings_perm names).mem_iff, hnames, List.mem_filter, decide_eq_true_eq,
        mem_wordsOf]
    · show reduceF w _ = _
      rw [valuesOf_emitted, ← hnames, reduceF_eq, (sortStrings_perm names).length_eq]

end Report

/-! ## Valid strings -/

/-- The characters of a word are letters, so none of its bytes has been read wrongly. -/
theorem validUtf8_of_occurs {unicode : Unicode} {w text : GoString}
    (hw : Occurs unicode w text) : ValidUtf8 w := by
  obtain ⟨run, ⟨pre, post, hsplit, _, hletters, _⟩, rfl⟩ := hw
  apply validUtf8_flatMap
  intro r hr
  have hmem : r ∈ runes text := by
    rw [hsplit]
    exact List.mem_append_right _ (List.mem_append_left _ hr)
  rcases bytes_of_mem_runes hmem with hbytes | hbytes
  · rw [hbytes]
    exact validUtf8_utf8EncodeChar r.char
  · have hletter : unicode.isLetter r.char = true := hletters r hr
    rw [hbytes, unicode.isLetter_runeError] at hletter
    contradiction

theorem validUtf8_reduceF (key : GoString) {values : List GoString}
    (hvalues : ∀ v ∈ values, ValidUtf8 v) : ValidUtf8 (reduceF key values) := by
  have hblank : ValidUtf8 (lit " ") := validUtf8_lit " " (by decide)
  refine ((validUtf8_itoa _).append hblank).append (validUtf8_flatMap ?_)
  rintro ⟨document, i⟩ hmem
  have hdocument : document ∈ values :=
    (sortStrings_perm values).mem_iff.mp (List.fst_mem_of_mem_zipIdx hmem)
  apply (hvalues document hdocument).append
  split
  · exact validUtf8_lit "," (by decide)
  · exact ⟨[], rfl⟩

theorem indexJob_validOn (unicode : Unicode) (mapOrds : GoString → RangeOrder GoString)
    (jobName : GoString) {files : List GoString} (nReduce : ℕ) (fs : Files)
    (hfiles : ∀ f ∈ files, ValidUtf8 f) :
    (indexJob unicode mapOrds jobName files nReduce).ValidOn fs where
  map kv hkv := by
    rw [mem_emitted] at hkv
    exact ⟨validUtf8_of_occurs hkv.2, hfiles kv.value hkv.1⟩
  reduce k _ := by
    apply validUtf8_reduceF k
    intro v hv
    rw [valuesOf_emitted] at hv
    exact hfiles v (List.mem_filter.mp hv).1

/-! ## The run -/

/-- **The inverted index.**  Let no input file have the name of an intermediate file of an
earlier map task.  Then a run over distinct files leaves their index in the final file, and the
index does not depend on the number of reduce tasks, the hash, the encoding and the orders in
which Go visits its maps. -/
theorem sequential_index (unicode : Unicode) (jobName : GoString) (files : List GoString)
    (nReduce : ℕ) (fs : Files) (hn : 1 ≤ nReduce) (hfiles : files.Nodup)
    (hutf8 : ∀ f ∈ files, ValidUtf8 f) :
    ∃ lines, IsIndex unicode files fs lines ∧
      ∀ (json : Json) (hash : GoString → ℕ) (mapOrds : GoString → RangeOrder GoString)
        (ords : ℕ → RangeOrder GoString) (ord : RangeOrder GoString),
        (indexJob unicode mapOrds jobName files nReduce).Runnable fs →
        ∃ fs', (sequential json hash ords ord
            (indexJob unicode mapOrds jobName files nReduce)).run fs = .ok ((), fs') ∧
          fs'.content (outName jobName) = some (lines.flatMap KeyValue.line) := by
  refine ⟨_, isIndex_report unicode (fun _ => storedOrder) jobName nReduce fs hfiles, ?_⟩
  intro json hash mapOrds ords ord hjob
  have hwp : wp (sequential json hash ords ord (indexJob unicode mapOrds jobName files nReduce))
      (fun _ => Reported (indexJob unicode mapOrds jobName files nReduce) fs) fs :=
    wp_sequential hn hjob (indexJob_validOn unicode mapOrds jobName nReduce fs hutf8) ords ord
  obtain ⟨_, fs', hrun, hfile⟩ := wp_iff_run.mp hwp
  refine ⟨fs', hrun, ?_⟩
  -- with another order of the words the report is an index as well
  rw [(isIndex_report unicode (fun _ => storedOrder) jobName nReduce fs hfiles).unique
    (isIndex_report unicode mapOrds jobName nReduce fs hfiles)]
  exact hfile

theorem sequential_index_letterFiles : ∃ fs',
    (sequential plainJson ihash (fun _ => storedOrder) storedOrder
      (indexJob asciiTables (fun _ => storedOrder) (lit "iiseq") [lit "f", lit "g"] 3)).run
        letterFiles = .ok ((), fs') ∧
    fs'.content (lit "mrtmp.iiseq") = some (lit "a: 2 f,g\nb: 1 f\n") := by
  have hutf8 : ∀ f ∈ [lit "f", lit "g"], ValidUtf8 f := by
    simp only [List.forall_mem_cons]
    exact ⟨validUtf8_lit "f" (by decide), validUtf8_lit "g" (by decide), by simp⟩
  obtain ⟨lines, hlines, hrun⟩ := sequential_index asciiTables (lit "iiseq")
    [lit "f", lit "g"] 3 letterFiles (by decide) (by decide) hutf8
  have htext : lines.flatMap KeyValue.line = lit "a: 2 f,g\nb: 1 f\n" := by
    rw [hlines.unique (isIndex_report asciiTables (fun _ => storedOrder) (lit "iiseq") 3
      letterFiles (by decide))]
    decide
  rw [htext] at hrun
  exact hrun plainJson ihash (fun _ => storedOrder) (fun _ => storedOrder) storedOrder
    (letterFiles_accessible (List.Subset.refl _)).runnable

/-! ## An input file with the name of an intermediate file -/

/-- The file `f` and a file with the name of an intermediate file of its map task. -/
def clashNames : List GoString :=
  [lit "f", lit "mrtmp.iiseq-0-0"]

/-- The word `a` in the first file, any text in the second. -/
def clashFiles (data : GoString) : Files where
  content n :=
    if n = lit "f" then some (lit "a")
    else if n = lit "mrtmp.iiseq-0-0" then some data
    else none
  creatable _ := true

/-- The job over these two files, with one reduce task. -/
def clashJob : Job :=
  indexJob asciiTables (fun _ => storedOrder) (lit "iiseq") clashNames 1

/-- After the first map task nothing is left of the second file. -/
theorem clash_overwritten {json : Json} {data : GoString} {fs : Files}
    (hrun : (doMap json ihash (lit "iiseq") 0 (lit "f") 1 clashJob.mapF).run (clashFiles data) =
      .ok ((), fs)) :
    fs = (clashFiles []).write (lit "mrtmp.iiseq-0-0")
      ((clashJob.mapF (lit "f") (lit "a")).flatMap json.encode) := by
  have hin : (clashFiles data).content (lit "f") = some (lit "a") := rfl
  have hwp := wp_frame (uses_doMap json ihash (lit "iiseq") 0 (lit "f") 1 clashJob.mapF)
    (wp_doMap le_rfl hin fun _ _ => rfl)
  obtain ⟨_, fs₁, hrun₁, hbucket, hframe⟩ := wp_iff_run.mp hwp
  rw [hrun] at hrun₁
  cases hrun₁
  have hname : reduceName (lit "iiseq") 0 0 = lit "mrtmp.iiseq-0-0" := by decide
  have hall : bucket ihash 1 0 (clashJob.mapF (lit "f") (lit "a")) =
      clashJob.mapF (lit "f") (lit "a") := by
    rw [bucket, List.filter_eq_self]
    intro kv _
    rw [Nat.mod_one, decide_eq_true_eq]
  apply AgreesOn.eq
  refine ⟨?_, hframe.creatable⟩
  intro n _
  by_cases hn : n = lit "mrtmp.iiseq-0-0"
  · rw [hn, write_content_self, ← hname, hbucket 0 Nat.one_pos, hall]
  · have hother : n ∉ {n | ∃ r < 1, n = reduceName (lit "iiseq") 0 r} := by
      rintro ⟨r, hr, rfl⟩
      apply hn
      rw [Nat.lt_one_iff.mp hr, hname]
    rw [write_content_ne _ hn, hframe.content n hother]
    simp only [clashFiles, if_neg hn]

/-- So the result of a run does not depend on the text of the second file. -/
theorem clash_run_eq {json : Json} {data data' : GoString} {fs fs' : Files}
    (hrun : (sequential json ihash (fun _ => storedOrder) storedOrder clashJob).run
      (clashFiles data) = .ok ((), fs))
    (hrun' : (sequential json ihash (fun _ => storedOrder) storedOrder clashJob).run
      (clashFiles data') = .ok ((), fs')) : fs = fs' := by
  obtain ⟨_, fs₁, hmaps, hrest⟩ := run_bind hrun
  obtain ⟨_, fs₁', hmaps', hrest'⟩ := run_bind hrun'
  obtain ⟨_, fs₀, hfirst, hsecond⟩ := run_bind hmaps
  obtain ⟨_, fs₀', hfirst', hsecond'⟩ := run_bind hmaps'
  obtain rfl := clash_overwritten hfirst
  obtain rfl := clash_overwritten hfirst'
  rw [hsecond] at hsecond'
  cases hsecond'
  rw [hrest] at hrest'
  cases hrest'
  rfl

/-- The names are distinct and valid, and all files can be read and created.  But whatever the
encoding is, the second file may contain a text whose words the final file does not list
rightly, because the first map task writes over it before it is read. -/
theorem overwritten_input_not_indexed :
    clashNames.Nodup ∧ (∀ f ∈ clashNames, ValidUtf8 f) ∧
      (∀ data, ∀ f ∈ clashNames, (clashFiles data).content f ≠ none) ∧
      ¬ ∃ json : Json, ∀ data, ∃ lines, IsIndex asciiTables clashNames (clashFiles data) lines ∧
        ∃ fs', (sequential json ihash (fun _ => storedOrder) storedOrder clashJob).run
            (clashFiles data) = .ok ((), fs') ∧
          fs'.content (outName (lit "iiseq")) = some (lines.flatMap KeyValue.line) := by
  have hnodup : clashNames.Nodup := by decide
  refine ⟨hnodup, ?_, ?_, ?_⟩
  · simp only [clashNames, List.forall_mem_cons]
    exact ⟨validUtf8_lit "f" (by decide), validUtf8_lit "mrtmp.iiseq-0-0" (by decide), by simp⟩
  · intro data
    have hne : lit "mrtmp.iiseq-0-0" ≠ lit "f" := by decide
    simp [clashNames, clashFiles, hne]
  · rintro ⟨json, hindex⟩
    have htext : ∀ data, ∃ fs', (sequential json ihash (fun _ => storedOrder) storedOrder
        clashJob).run (clashFiles data) = .ok ((), fs') ∧
        fs'.content (outName (lit "iiseq")) =
          some ((report reduceF (clashJob.emitted (clashFiles data))).flatMap KeyValue.line) := by
      intro data
      obtain ⟨lines, hlines, hrun⟩ := hindex data
      rw [hlines.unique (isIndex_report asciiTables (fun _ => storedOrder) (lit "iiseq") 1
        (clashFiles data) hnodup)] at hrun
      exact hrun
    obtain ⟨fs, hrun, hfile⟩ := htext []
    obtain ⟨fs', hrun', hfile'⟩ := htext (lit "b")
    rw [clash_run_eq hrun hrun', hfile', Option.some_inj] at hfile
    revert hfile
    decide

end Mit6824.InvertedIndex
