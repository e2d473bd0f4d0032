/-
# Programs on files

Programs that read, create and extend files, as trees of operations: after an
operation the program goes on with its answer.  A program can be run from start to
end (`run`), and it can be taken one operation at a time (`step`), so that several
programs can work on the same files in turn.

* `wp`: a program finishes, and in a state that meets a condition; with the rules
  for sequences and loops (`wp_bind`, `wp_forM`, `wp_foldlM`);
* `Uses R W`: a program reads files of `R` only and writes files of `W` only.  It
  leaves the other files alone (`wp_frame`), and what it does only depends on these
  (`wp_congr`);
* `Makes`: a file is there when a program has finished;
* `wp_step`: a program taken one operation further still does what it would have
  done.
-/
import Mathlib.Data.Set.Basic
import Mathlib.Tactic

/-- The files of a machine: their contents, and where a file may be created. -/
structure FileSystem (N B : Type) where
  content : N → Option (List B)
  creatable : N → Bool

namespace FileSystem

variable {N B : Type} [DecidableEq N]

/-- A file gets a new content. -/
def write (fs : FileSystem N B) (n : N) (data : List B) : FileSystem N B :=
  { fs with content := Function.update fs.content n (some data) }

/-- Data is added at the end of a file. -/
def extend (fs : FileSystem N B) (n : N) (data : List B) : FileSystem N B :=
  fs.write n ((fs.content n).getD [] ++ data)

@[simp] theorem write_content_self (fs : FileSystem N B) (n : N) (data : List B) :
    (fs.write n data).content n = some data := by
  simp [write]

theorem write_content_ne (fs : FileSystem N B) {n m : N} (h : m ≠ n) (data : List B) :
    (fs.write n data).content m = fs.content m := by
  simp [write, h]

@[simp] theorem write_write (fs : FileSystem N B) (n : N) (data data' : List B) :
    (fs.write n data).write n data' = fs.write n data' := by
  simp [write]

@[simp] theorem extend_write (fs : FileSystem N B) (n : N) (data data' : List B) :
    (fs.write n data).extend n data' = fs.write n (data ++ data') := by
  simp [extend]

/-- The same on some files. -/
structure AgreesOn (F : Set N) (fs fs' : FileSystem N B) : Prop where
  content : ∀ n ∈ F, fs'.content n = fs.content n
  creatable : fs'.creatable = fs.creatable

omit [DecidableEq N] in
theorem AgreesOn.refl (F : Set N) (fs : FileSystem N B) : AgreesOn F fs fs :=
  ⟨fun _ _ => rfl, rfl⟩

omit [DecidableEq N] in
theorem AgreesOn.trans {F : Set N} {a b c : FileSystem N B} (h₁ : AgreesOn F a b)
    (h₂ : AgreesOn F b c) : AgreesOn F a c :=
  ⟨fun n hn => (h₂.content n hn).trans (h₁.content n hn), h₂.creatable.trans h₁.creatable⟩

omit [DecidableEq N] in
theorem AgreesOn.mono {F G : Set N} {a b : FileSystem N B} (h : AgreesOn G a b) (hFG : F ⊆ G) :
    AgreesOn F a b :=
  ⟨fun n hn => h.content n (hFG hn), h.creatable⟩

omit [DecidableEq N] in
/-- Agreement everywhere is equality. -/
theorem AgreesOn.eq {fs fs' : FileSystem N B} (h : AgreesOn Set.univ fs fs') : fs' = fs := by
  have hcontent : fs'.content = fs.content := by
    funext n
    exact h.content n (Set.mem_univ n)
  cases fs
  cases fs'
  rw [mk.injEq]
  exact ⟨hcontent, h.creatable⟩

/-- Writing a file leaves the others alone. -/
theorem agreesOn_write {F : Set N} (fs : FileSystem N B) {n : N} (hn : n ∉ F) (data : List B) :
    AgreesOn F fs (fs.write n data) := by
  refine ⟨?_, rfl⟩
  intro m hm
  refine fs.write_content_ne ?_ data
  rintro rfl
  exact hn hm

/-- The same write on both sides. -/
theorem AgreesOn.write {F : Set N} {fs fs' : FileSystem N B} (h : AgreesOn F fs fs') (n : N)
    (data : List B) : AgreesOn F (fs.write n data) (fs'.write n data) := by
  refine ⟨?_, h.creatable⟩
  intro m hm
  by_cases hmn : m = n
  · rw [hmn, write_content_self, write_content_self]
  · rw [write_content_ne _ hmn, write_content_ne _ hmn, h.content m hm]

/-- Two file systems that agree on a file go on to do so when both append to it. -/
theorem AgreesOn.extend {F : Set N} {fs fs' : FileSystem N B} (h : AgreesOn F fs fs') {n : N}
    (hn : n ∈ F) (data : List B) : AgreesOn F (fs.extend n data) (fs'.extend n data) := by
  unfold FileSystem.extend
  rw [h.content n hn]
  exact h.write n _

end FileSystem

/-! ## Programs -/

/-- A program on files with names `N` and contents of `B`s. -/
inductive FileProgram (N B α : Type) : Type
  /-- The program has finished. -/
  | ret (a : α)
  /-- Open a file and read it to the end; the answer is `none` if that fails. -/
  | read (n : N) (k : Option (List B) → FileProgram N B α)
  /-- Create a file or truncate it; the answer says whether this was possible. -/
  | create (n : N) (k : Bool → FileProgram N B α)
  /-- Write data at the end of a file. -/
  | append (n : N) (data : List B) (k : FileProgram N B α)
  /-- The program has ended with an error. -/
  | fatal (msg : String)

namespace FileProgram

variable {N B α β ι : Type} [DecidableEq N]

/-- One program after the other. -/
def bind : FileProgram N B α → (α → FileProgram N B β) → FileProgram N B β
  | ret a, f => f a
  | read n k, f => read n fun o => bind (k o) f
  | create n k, f => create n fun b => bind (k b) f
  | append n data k, f => append n data (bind k f)
  | fatal msg, _ => fatal msg

instance : Monad (FileProgram N B) where
  pure := ret
  bind := bind

/-- The content of a file, which must be there. -/
def readFile (n : N) (msg : String) : FileProgram N B (List B) :=
  read n fun
    | some data => ret data
    | none => fatal msg

/-- A new file, which must be possible. -/
def createFile (n : N) (msg : String) : FileProgram N B Unit :=
  create n fun
    | true => ret ()
    | false => fatal msg

/-- Write at the end of a file. -/
def appendFile (n : N) (data : List B) : FileProgram N B Unit :=
  append n data (ret ())

/-- The file system after a file is created. -/
def created (fs : FileSystem N B) (n : N) : FileSystem N B :=
  if fs.creatable n then fs.write n [] else fs

/-- Run a program to its end. -/
def run : FileProgram N B α → FileSystem N B → Except String (α × FileSystem N B)
  | ret a, fs => .ok (a, fs)
  | read n k, fs => run (k (fs.content n)) fs
  | create n k, fs => run (k (fs.creatable n)) (created fs n)
  | append n data k, fs => run k (fs.extend n data)
  | fatal msg, _ => .error msg

/-- Take one operation of a program that has not ended. -/
def step : FileProgram N B α → FileSystem N B → Option (FileProgram N B α × FileSystem N B)
  | ret _, _ => none
  | read n k, fs => some (k (fs.content n), fs)
  | create n k, fs => some (k (fs.creatable n), created fs n)
  | append n data k, fs => some (k, fs.extend n data)
  | fatal _, _ => none

/-- The program has ended, without an error. -/
def finished : FileProgram N B α → Bool
  | ret _ => true
  | _ => false

/-! ## What a program achieves -/

/-- The program finishes without an error, in a state with `Q`. -/
def wp : FileProgram N B α → (α → FileSystem N B → Prop) → FileSystem N B → Prop
  | ret a, Q, fs => Q a fs
  | read n k, Q, fs => wp (k (fs.content n)) Q fs
  | create n k, Q, fs => wp (k (fs.creatable n)) Q (created fs n)
  | append n data k, Q, fs => wp k Q (fs.extend n data)
  | fatal _, _, _ => False

/-- The precondition says what a run does: it ends without an error, and with `Q`. -/
theorem wp_iff_run {p : FileProgram N B α} {Q : α → FileSystem N B → Prop}
    {fs : FileSystem N B} : p.wp Q fs ↔ ∃ a fs', p.run fs = .ok (a, fs') ∧ Q a fs' := by
  induction p generalizing fs with
  | ret a => simp [wp, run]
  | read n k ih => exact ih _
  | create n k ih => exact ih _
  | append n data k ih => exact ih
  | fatal msg => simp [wp, run]

theorem wp.mono {p : FileProgram N B α} {Q Q' : α → FileSystem N B → Prop}
    {fs : FileSystem N B} (h : p.wp Q fs) (hQ : ∀ a fs', Q a fs' → Q' a fs') : p.wp Q' fs := by
  obtain ⟨a, fs', hrun, ha⟩ := wp_iff_run.mp h
  exact wp_iff_run.mpr ⟨a, fs', hrun, hQ a fs' ha⟩

@[simp] theorem wp_pure (a : α) (Q : α → FileSystem N B → Prop) (fs : FileSystem N B) :
    wp (pure a : FileProgram N B α) Q fs ↔ Q a fs := Iff.rfl

/-- One program after the other. -/
theorem wp_bind {p : FileProgram N B α} {f : α → FileProgram N B β}
    {Q : β → FileSystem N B → Prop} {fs : FileSystem N B} :
    wp (p >>= f) Q fs ↔ p.wp (fun a fs' => (f a).wp Q fs') fs := by
  change wp (bind p f) Q fs ↔ _
  induction p generalizing fs with
  | ret a => exact Iff.rfl
  | read n k ih => exact ih _
  | create n k ih => exact ih _
  | append n data k ih => exact ih
  | fatal msg => exact Iff.rfl

/-- Reading a file that is there. -/
theorem wp_readFile {n : N} {msg : String} {Q : List B → FileSystem N B → Prop}
    {fs : FileSystem N B} {data : List B} (hn : fs.content n = some data) (h : Q data fs) :
    wp (readFile n msg) Q fs := by
  simp only [readFile, wp, hn]
  exact h

/-- Creating a file empties it. -/
theorem wp_createFile {n : N} {msg : String} {Q : Unit → FileSystem N B → Prop}
    {fs : FileSystem N B} (hn : fs.creatable n = true) (h : Q () (fs.write n [])) :
    wp (createFile n msg) Q fs := by
  simp only [createFile, wp, created, hn, if_true]
  exact h

@[simp] theorem wp_appendFile {n : N} {data : List B} {Q : Unit → FileSystem N B → Prop}
    {fs : FileSystem N B} : wp (appendFile n data) Q fs ↔ Q () (fs.extend n data) := Iff.rfl

/-- **The loop rule.**  `I` holds of the part of the list that has been visited and
the accumulator. -/
theorem wp_foldlM {f : β → ι → FileProgram N B β} {I : List ι → β → FileSystem N B → Prop}
    {l : List ι} (hstep : ∀ pre i post b fs, l = pre ++ i :: post → I pre b fs →
      (f b i).wp (I (pre ++ [i])) fs) {b : β} {fs : FileSystem N B} (hinit : I [] b fs) :
    wp (l.foldlM f b) (I l) fs := by
  -- for every part that is still to be visited
  have hrest : ∀ post pre b fs, l = pre ++ post → I pre b fs → wp (post.foldlM f b) (I l) fs := by
    intro post
    induction post with
    | nil =>
        intro pre b fs hl hI
        rw [List.append_nil] at hl
        rw [List.foldlM_nil, wp_pure, hl]
        exact hI
    | cons i post ih =>
        intro pre b fs hl hI
        rw [List.foldlM_cons, wp_bind]
        refine (hstep pre i post b fs hl hI).mono ?_
        intro b' fs' hI'
        exact ih (pre ++ [i]) b' fs' (by rw [hl, List.append_assoc]; rfl) hI'
  exact hrest l [] b fs rfl hinit

omit [DecidableEq N] in
/-- A loop without an accumulator. -/
theorem forM_eq_foldlM (f : ι → FileProgram N B Unit) (l : List ι) :
    forM l f = l.foldlM (fun _ i => f i) () := by
  induction l with
  | nil => rfl
  | cons i l ih =>
      rw [List.forM_cons, List.foldlM_cons]
      exact congrArg (f i >>= ·) (funext fun _ => ih)

/-- The loop rule without an accumulator. -/
theorem wp_forM {f : ι → FileProgram N B Unit} {I : List ι → FileSystem N B → Prop}
    {l : List ι} (hstep : ∀ pre i post fs, l = pre ++ i :: post → I pre fs →
      (f i).wp (fun _ => I (pre ++ [i])) fs) {fs : FileSystem N B} (hinit : I [] fs) :
    wp (forM l f) (fun _ => I l) fs := by
  rw [forM_eq_foldlM]
  exact wp_foldlM (I := fun pre _ => I pre) (fun pre i post _ => hstep pre i post) hinit

/-- What is visited of a range. -/
theorem lt_of_range_eq {n i : ℕ} {pre post : List ℕ} (h : List.range n = pre ++ i :: post) :
    i < n := by
  rw [← List.mem_range, h]
  exact List.mem_append_right _ List.mem_cons_self

/-- A file created and then written piece by piece. -/
theorem wp_create_forM {n : N} {msg : String} {g : ι → List B} {l : List ι}
    {Q : Unit → FileSystem N B → Prop} {fs : FileSystem N B} (hn : fs.creatable n = true)
    (h : Q () (fs.write n (l.flatMap g))) :
    wp (do createFile n msg; forM l fun i => appendFile n (g i)) Q fs := by
  rw [wp_bind]
  refine wp_createFile hn ?_
  have hloop : wp (forM l fun i => appendFile n (g i))
      (fun _ fs' => fs' = fs.write n (l.flatMap g)) (fs.write n []) := by
    refine wp_forM (I := fun pre fs' => fs' = fs.write n (pre.flatMap g)) ?_ rfl
    rintro pre i post _ - rfl
    rw [wp_appendFile, FileSystem.extend_write, List.flatMap_append, List.flatMap_singleton]
  refine hloop.mono ?_
  rintro _ _ rfl
  exact h

/-! ## The files of a program -/

/-- The program reads files of `R` only and writes files of `W` only. -/
def Uses (R W : Set N) : FileProgram N B α → Prop
  | ret _ => True
  | read n k => n ∈ R ∧ ∀ o, Uses R W (k o)
  | create n k => n ∈ W ∧ ∀ b, Uses R W (k b)
  | append n _ k => n ∈ W ∧ Uses R W k
  | fatal _ => True

variable {R W : Set N}

omit [DecidableEq N] in
/-- What two programs use, one after the other. -/
theorem Uses.bind {p : FileProgram N B α} (hp : p.Uses R W) {f : α → FileProgram N B β}
    (hf : ∀ a, (f a).Uses R W) : (p >>= f).Uses R W := by
  change (p.bind f).Uses R W
  induction p with
  | ret a => exact hf a
  | read n k ih => exact ⟨hp.1, fun o => ih o (hp.2 o)⟩
  | create n k ih => exact ⟨hp.1, fun b => ih b (hp.2 b)⟩
  | append n data k ih => exact ⟨hp.1, ih hp.2⟩
  | fatal msg => trivial

omit [DecidableEq N] in
/-- What a loop with an accumulator uses. -/
theorem Uses.foldlM {f : β → ι → FileProgram N B β} {l : List ι}
    (hf : ∀ b, ∀ i ∈ l, (f b i).Uses R W) (b : β) : (l.foldlM f b).Uses R W := by
  induction l generalizing b with
  | nil => trivial
  | cons i l ih =>
      rw [List.foldlM_cons]
      refine (hf b i List.mem_cons_self).bind ?_
      exact fun b' => ih (fun b i hi => hf b i (List.mem_cons_of_mem _ hi)) b'

omit [DecidableEq N] in
/-- What a loop uses. -/
theorem Uses.forM {f : ι → FileProgram N B Unit} {l : List ι}
    (hf : ∀ i ∈ l, (f i).Uses R W) : (ForM.forM l f : FileProgram N B PUnit).Uses R W := by
  rw [forM_eq_foldlM]
  exact Uses.foldlM (fun _ => hf) ()

omit [DecidableEq N] in
theorem uses_readFile {n : N} (hn : n ∈ R) (msg : String) :
    (readFile n msg : FileProgram N B (List B)).Uses R W :=
  ⟨hn, fun o => by cases o <;> trivial⟩

omit [DecidableEq N] in
theorem uses_createFile {n : N} (hn : n ∈ W) (msg : String) :
    (createFile n msg : FileProgram N B Unit).Uses R W :=
  ⟨hn, fun b => by cases b <;> trivial⟩

omit [DecidableEq N] in
theorem uses_appendFile {n : N} (hn : n ∈ W) (data : List B) :
    (appendFile n data).Uses R W :=
  ⟨hn, trivial⟩

omit [DecidableEq N] in
/-- Creating a file and appending to it in a loop uses this file only. -/
theorem uses_create_forM {n : N} (hn : n ∈ W) {msg : String} {g : ι → List B} {l : List ι} :
    Uses R W (do createFile n msg; ForM.forM l fun i => appendFile n (g i)) :=
  (uses_createFile hn msg).bind fun _ => Uses.forM fun i _ => uses_appendFile hn (g i)

/-- Creating one file leaves the others alone. -/
theorem agreesOn_created {F : Set N} (fs : FileSystem N B) {n : N} (hn : n ∉ F) :
    FileSystem.AgreesOn F fs (created fs n) := by
  unfold created
  split
  · exact FileSystem.agreesOn_write fs hn []
  · exact FileSystem.AgreesOn.refl F fs

/-- One operation leaves the files that are not written alone, and the rest of the
program uses the same files. -/
theorem Uses.step {p p' : FileProgram N B α} {fs fs' : FileSystem N B} (hp : p.Uses R W)
    (hstep : p.step fs = some (p', fs')) : p'.Uses R W ∧ FileSystem.AgreesOn Wᶜ fs fs' := by
  cases p with
  | ret a => cases hstep
  | read n k =>
      obtain ⟨rfl, rfl⟩ : _ ∧ _ := by simpa [FileProgram.step] using hstep
      exact ⟨hp.2 _, .refl _ _⟩
  | create n k =>
      obtain ⟨rfl, rfl⟩ : _ ∧ _ := by simpa [FileProgram.step] using hstep
      exact ⟨hp.2 _, agreesOn_created fs (by simpa using hp.1)⟩
  | append n data k =>
      obtain ⟨rfl, rfl⟩ : _ ∧ _ := by simpa [FileProgram.step] using hstep
      exact ⟨hp.2, FileSystem.agreesOn_write fs (by simpa using hp.1) _⟩
  | fatal msg => cases hstep

/-- **The frame rule.** -/
theorem wp_frame {p : FileProgram N B α} (hp : p.Uses R W) {Q : α → FileSystem N B → Prop}
    {fs : FileSystem N B} (h : p.wp Q fs) :
    p.wp (fun a fs' => Q a fs' ∧ FileSystem.AgreesOn Wᶜ fs fs') fs := by
  -- relative to any earlier file system
  suffices hgen : ∀ fs₀, FileSystem.AgreesOn Wᶜ fs₀ fs →
      p.wp (fun a fs' => Q a fs' ∧ FileSystem.AgreesOn Wᶜ fs₀ fs') fs from
    hgen fs (.refl _ _)
  induction p generalizing fs with
  | ret a => exact fun fs₀ h₀ => ⟨h, h₀⟩
  | read n k ih => exact fun fs₀ h₀ => ih _ (hp.2 _) h fs₀ h₀
  | create n k ih =>
      intro fs₀ h₀
      exact ih _ (hp.2 _) h fs₀ (h₀.trans (agreesOn_created fs (by simpa using hp.1)))
  | append n data k ih =>
      intro fs₀ h₀
      exact ih hp.2 h fs₀ (h₀.trans (FileSystem.agreesOn_write fs (by simpa using hp.1) _))
  | fatal msg => exact fun _ _ => h

/-- **The locality rule.**  What a program achieves on its own files only depends
on the files that it uses. -/
theorem wp_congr {p : FileProgram N B α} (hp : p.Uses R W) {Q : α → FileSystem N B → Prop}
    (hQ : ∀ a fs fs', FileSystem.AgreesOn W fs fs' → Q a fs → Q a fs') {fs fs' : FileSystem N B}
    (hagree : FileSystem.AgreesOn (R ∪ W) fs fs') (h : p.wp Q fs) : p.wp Q fs' := by
  induction p generalizing fs fs' with
  | ret a => exact hQ a fs fs' (hagree.mono Set.subset_union_right) h
  | read n k ih =>
      have heq := hagree.content n (.inl hp.1)
      simp only [wp] at h ⊢
      rw [heq]
      exact ih _ (hp.2 _) hagree h
  | create n k ih =>
      simp only [wp, created] at h ⊢
      rw [hagree.creatable]
      refine ih _ (hp.2 _) ?_ h
      split
      · exact hagree.write n []
      · exact hagree
  | append n data k ih => exact ih hp.2 (hagree.extend (.inr hp.1) data) h
  | fatal msg => exact h

omit [DecidableEq N] in
/-- More files may be used. -/
theorem Uses.mono {R' W' : Set N} {p : FileProgram N B α} (hp : p.Uses R W) (hR : R ⊆ R')
    (hW : W ⊆ W') : p.Uses R' W' := by
  induction p with
  | ret a => trivial
  | read n k ih => exact ⟨hR hp.1, fun o => ih o (hp.2 o)⟩
  | create n k ih => exact ⟨hW hp.1, fun b => ih b (hp.2 b)⟩
  | append n data k ih => exact ⟨hW hp.1, ih hp.2⟩
  | fatal msg => trivial

/-! ## Runs that finish -/

/-- The frame rule for a run that finishes. -/
theorem run_frame {p : FileProgram N B α} (hp : p.Uses R W) {fs fs' : FileSystem N B} {a : α}
    (hrun : p.run fs = .ok (a, fs')) : FileSystem.AgreesOn Wᶜ fs fs' := by
  have hwp : p.wp (fun a' fs'' => a' = a ∧ fs'' = fs') fs :=
    wp_iff_run.mpr ⟨a, fs', hrun, rfl, rfl⟩
  obtain ⟨_, _, _, ⟨_, rfl⟩, hagree⟩ := wp_iff_run.mp (wp_frame hp hwp)
  exact hagree

/-- A run of two programs is a run of the first and then one of the second. -/
theorem run_bind {p : FileProgram N B α} {f : α → FileProgram N B β} {fs fs' : FileSystem N B}
    {b : β} (hrun : (p >>= f).run fs = .ok (b, fs')) :
    ∃ a fs₁, p.run fs = .ok (a, fs₁) ∧ (f a).run fs₁ = .ok (b, fs') := by
  have hwp : wp (p >>= f) (fun b' fs'' => b' = b ∧ fs'' = fs') fs :=
    wp_iff_run.mpr ⟨b, fs', hrun, rfl, rfl⟩
  obtain ⟨a, fs₁, hp, hrest⟩ := wp_iff_run.mp (wp_bind.mp hwp)
  obtain ⟨_, _, hf, rfl, rfl⟩ := wp_iff_run.mp hrest
  exact ⟨a, fs₁, hp, hf⟩

/-- No program removes a file. -/
theorem run_content_ne_none {p : FileProgram N B α} {fs fs' : FileSystem N B} {a : α}
    (hrun : p.run fs = .ok (a, fs')) {n : N} (hn : fs.content n ≠ none) :
    fs'.content n ≠ none := by
  have hwrite : ∀ (fs : FileSystem N B) (m : N) (data : List B), fs.content n ≠ none →
      (fs.write m data).content n ≠ none := by
    intro fs m data hn
    by_cases hnm : n = m
    · rw [hnm, FileSystem.write_content_self]
      exact Option.some_ne_none data
    · rw [FileSystem.write_content_ne _ hnm]
      exact hn
  induction p generalizing fs with
  | ret a =>
      cases hrun
      exact hn
  | read m k ih => exact ih _ hrun hn
  | create m k ih =>
      refine ih _ hrun ?_
      unfold created
      split
      · exact hwrite fs m [] hn
      · exact hn
  | append m data k ih => exact ih hrun (hwrite fs m _ hn)
  | fatal msg => cases hrun

/-- When the program has finished, the file is there. -/
def Makes (p : FileProgram N B α) (n : N) : Prop :=
  ∀ fs a fs', p.run fs = .ok (a, fs') → fs'.content n ≠ none

/-- Who creates a file leaves it there. -/
theorem makes_createFile (n : N) (msg : String) :
    Makes (createFile n msg : FileProgram N B Unit) n := by
  intro fs a fs' hrun
  by_cases hn : fs.creatable n = true
  · simp only [createFile, run, created, hn, if_true] at hrun
    cases hrun
    rw [FileSystem.write_content_self]
    exact Option.some_ne_none _
  · rw [Bool.not_eq_true] at hn
    simp only [createFile, run, hn] at hrun
    cases hrun

/-- A file that has been made is not removed later. -/
theorem Makes.bind {p : FileProgram N B α} {n : N} (hp : p.Makes n)
    (f : α → FileProgram N B β) : (p >>= f).Makes n := by
  intro fs b fs' hrun
  obtain ⟨a, fs₁, hrun₁, hrun₂⟩ := run_bind hrun
  exact run_content_ne_none hrun₂ (hp fs a fs₁ hrun₁)

/-- A file that is made later is made. -/
theorem makes_bind (p : FileProgram N B α) {f : α → FileProgram N B β} {n : N}
    (hf : ∀ a, (f a).Makes n) : (p >>= f).Makes n := by
  intro fs b fs' hrun
  obtain ⟨a, fs₁, _, hrun₂⟩ := run_bind hrun
  exact hf a fs₁ b fs' hrun₂

/-- One iteration of a loop is enough. -/
theorem Makes.forM {f : ι → FileProgram N B Unit} {l : List ι} {i : ι} (hi : i ∈ l) {n : N}
    (hf : (f i).Makes n) : (ForM.forM l f : FileProgram N B PUnit).Makes n := by
  induction l with
  | nil => cases hi
  | cons j l ih =>
      rw [List.forM_cons]
      rcases List.mem_cons.mp hi with rfl | hi
      · exact hf.bind _
      · exact makes_bind _ fun _ => ih hi

/-- **The step rule.**  A program that has not ended takes a step and then achieves
the same. -/
theorem wp_step {p p' : FileProgram N B α} {Q : α → FileSystem N B → Prop}
    {fs fs' : FileSystem N B} (h : p.wp Q fs) (hstep : p.step fs = some (p', fs')) :
    p'.wp Q fs' := by
  cases p <;> simp only [step, reduceCtorEq, Option.some.injEq, Prod.mk.injEq] at hstep
  all_goals
    obtain ⟨rfl, rfl⟩ := hstep
    exact h

/-- Induction on the rest of a program. -/
theorem step_induction {P : FileProgram N B α → Prop}
    (h : ∀ p, (∀ fs p' fs', p.step fs = some (p', fs') → P p') → P p) (p : FileProgram N B α) :
    P p := by
  induction p with
  | ret a => exact h _ nofun
  | read n k ih =>
      apply h
      intro fs p' fs' hstep
      cases hstep
      exact ih _
  | create n k ih =>
      apply h
      intro fs p' fs' hstep
      cases hstep
      exact ih _
  | append n data k ih =>
      apply h
      intro fs p' fs' hstep
      cases hstep
      exact ih
  | fatal msg => exact h _ nofun

/-- A program that cannot take a step has finished. -/
theorem wp.finished {p : FileProgram N B α} {Q : α → FileSystem N B → Prop}
    {fs : FileSystem N B} (h : p.wp Q fs) (hstep : p.step fs = none) :
    p.finished = true ∧ ∃ a, Q a fs := by
  cases p with
  | ret a => exact ⟨rfl, a, h⟩
  | read n k => cases hstep
  | create n k => cases hstep
  | append n data k => cases hstep
  | fatal msg => exact h.elim

end FileProgram
