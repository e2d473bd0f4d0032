/-
# What the tester checks

Beside every instance of a server, `start1` of `config.go` runs a goroutine that reads its
`applyCh`.  Under the lock it compares each command with those that it and the goroutines of all
other servers have read for the same index, looks whether the preceding index has been read
before, and stores the command.  With an error it ends the program, but only after it has given
the lock back: until then everybody else goes on, and sees what it has stored.  `nCommitted`
counts the servers that have got to an index, and it compares the commands once more, reading
one server after the other while everything goes on; at an error it ends its own goroutine.

* `Tester`, `testerSystem`: a cluster, the readers of its channels, and calls of `nCommitted`;
* `TesterInv`: what has been read is in `logs`, nothing else is, and where `logs` do not agree, a
  reader has found it out;
* `tester_exact`: for every index, a reader has found two different commands, or all that has
  been checked agrees and no `nCommitted` has failed; and every error is about commands that have
  really been sent;
* `tester_silent`: in a run of sound steps there is no error, and a count is what it says.
-/
import Mit6824.RaftCommit
import Mit6824.RaftDelivery

namespace Mit6824

/-! ## The reader of an apply channel -/

/-- The errors that end the program. -/
inductive TestError (n : ℕ) (C : Type) where
  | mismatch (index : ℕ) (server : Fin n) (value : ℤ) (other : Fin n) (old : ℤ)
  | outOfOrder (server : Fin n) (index : ℕ)
  | notInt (command : C)
  | noMatch (index : ℕ) (cmd cmd1 : ℤ)
  deriving DecidableEq

/-- The texts of the errors. -/
def TestError.text {n : ℕ} {C : Type} [ToString C] : TestError n C → String
  | .mismatch index server value other old =>
      "apply error: commit index=" ++ toString index ++ " server=" ++ toString server ++ " " ++
        toString value ++ " != server=" ++ toString other ++ " " ++ toString old
  | .outOfOrder server index =>
      "apply error: server " ++ toString server ++ " apply out of order " ++ toString index
  | .notInt command => "apply error: committed command " ++ toString command ++ " is not an int"
  | .noMatch index cmd cmd1 =>
      "committed values do not match: index " ++ toString index ++ ", " ++ toString cmd ++ ", " ++
        toString cmd1

/-- The fields of a `config` that the readers share. -/
structure Reads (n : ℕ) where
  logs : Fin n → ℕ → Option ℤ
  maxIndex : ℕ

namespace Reads

variable {n : ℕ} {C : Type}

/-- A round of the loop over all servers. -/
def differ (rd : Reads n) (i : Fin n) (index : ℕ) (v : ℤ) (err : Option (TestError n C))
    (j : Fin n) : Option (TestError n C) :=
  match rd.logs j index with
  | some old => if old ≠ v then some (.mismatch index i v j old) else err
  | none => err

/-- The loop over all servers; the last one that differs is reported. -/
def compare (rd : Reads n) (i : Fin n) (index : ℕ) (v : ℤ) : Option (TestError n C) :=
  (List.finRange n).foldl (rd.differ i index v) none

/-- The value is stored. -/
def store (rd : Reads n) (i : Fin n) (index : ℕ) (v : ℤ) : Reads n :=
  ⟨Function.update rd.logs i (Function.update (rd.logs i) index (some v)), max rd.maxIndex index⟩

/-- The body of the loop that reads `applyCh`; `asInt` is the type assertion. -/
def check (rd : Reads n) (asInt : C → Option ℤ) (i : Fin n) (m : ApplyMsg C) :
    Reads n × Option (TestError n C) :=
  if m.commandValid = false then (rd, none)
  else
    match asInt m.command with
    | none => (rd, some (.notInt m.command))
    | some v =>
        let prevok := (rd.logs i (m.commandIndex - 1)).isSome
        (rd.store i m.commandIndex v,
          if 1 < m.commandIndex ∧ prevok = false then some (.outOfOrder i m.commandIndex)
          else rd.compare i m.commandIndex v)

end Reads

/-! ## The system -/

/-- Where the reader of an apply channel stands. -/
inductive Reader (n : ℕ) (C : Type) where
  | waiting
  | received (m : ApplyMsg C)
  /-- It has given the lock back with an error, and `log.Fatalf` comes next. -/
  | failed (err : TestError n C)

/-- The reader after a check. -/
def Reader.checked {n : ℕ} {C : Type} : Option (TestError n C) → Reader n C
  | none => .waiting
  | some err => .failed err

/-- Where a call of `nCommitted` stands: the index, the next server, and its variables. -/
structure Counting where
  index : ℕ
  next : ℕ
  count : ℕ
  cmd : ℤ
  deriving DecidableEq

/-- A cluster, the readers by server and incarnation, what they share, the goroutines that count,
the results of their calls, the errors that have ended one of them, and the error that has ended
the program. -/
structure Tester (n : ℕ) (C : Type) where
  raft : Cluster n C
  readers : Fin n → ℕ → Reader n C
  reads : Reads n
  counting : ℕ → Option Counting
  counted : List Counting
  failed : List (TestError n C)
  fatal : Option (TestError n C)

/-- The steps of the tester and of the cluster. -/
inductive TesterAction (n : ℕ) (C : Type) where
  /-- A step of Raft.  With `applySend` the reader receives a message. -/
  | raft (a : Action n C)
  /-- The reader of an incarnation checks its message, up to `cfg.mu.Unlock`. -/
  | check (s : Fin n) (e : ℕ)
  /-- The reader of an incarnation calls `log.Fatalf`. -/
  | fatalf (s : Fin n) (e : ℕ)
  /-- A goroutine of the test calls `nCommitted`. -/
  | nCommitted (g index : ℕ)
  /-- Its `nCommitted` looks at the next server, or returns. -/
  | look (g : ℕ)
  deriving DecidableEq

namespace Tester

variable {n : ℕ} {C : Type}

/-- No reader has got anything yet. -/
def init (n : ℕ) (C : Type) [Inhabited C] : Tester n C where
  raft := Cluster.init n C
  readers _ _ := .waiting
  reads := ⟨fun _ _ => none, 0⟩
  counting _ := none
  counted := []
  failed := []
  fatal := none

/-- A reader moves on. -/
def setReader (t : Tester n C) (s : Fin n) (e : ℕ) (x : Reader n C) : Tester n C :=
  { t with readers := Function.update t.readers s (Function.update (t.readers s) e x) }

/-- A call of `nCommitted` moves on. -/
def setCounting (t : Tester n C) (g : ℕ) (w : Option Counting) : Tester n C :=
  { t with counting := Function.update t.counting g w }

/-- A step of `nCommitted`.  `t.Fatalf` ends the goroutine, not the program. -/
def look (t : Tester n C) (g : ℕ) (w : Counting) : Tester n C :=
  if h : w.next < n then
    match t.reads.logs ⟨w.next, h⟩ w.index with
    | none => t.setCounting g (some { w with next := w.next + 1 })
    | some cmd1 =>
        if 0 < w.count ∧ w.cmd ≠ cmd1 then
          { t.setCounting g none with failed := t.failed ++ [.noMatch w.index w.cmd cmd1] }
        else t.setCounting g (some ⟨w.index, w.next + 1, w.count + 1, cmd1⟩)
  else { t.setCounting g none with counted := t.counted ++ [w] }

variable [Inhabited C]

/-- One step; nothing happens after the program has ended. -/
def step (asInt : C → Option ℤ) (t : Tester n C) (a : TesterAction n C) : Option (Tester n C) :=
  if t.fatal.isSome then none
  else
    match a with
    | .raft (.applySend s k) =>
        -- the channel has no buffer, so the reader has to be there
        match t.readers s (t.raft.nodes s).epoch with
        | .waiting => do
            let msg ← ((t.raft.nodes s).appliers[k]?).bind Applier.msg?
            let raft ← t.raft.step (.applySend s k)
            some { t.setReader s (t.raft.nodes s).epoch (.received msg) with raft := raft }
        | _ => none
    | .raft a => (t.raft.step a).map fun raft => { t with raft := raft }
    | .check s e =>
        match t.readers s e with
        | .received m =>
            some { t.setReader s e (.checked (t.reads.check asInt s m).2) with
              reads := (t.reads.check asInt s m).1 }
        | _ => none
    | .fatalf s e =>
        match t.readers s e with
        | .failed err => some { t with fatal := some err }
        | _ => none
    | .nCommitted g index =>
        match t.counting g with
        | none => some (t.setCounting g (some ⟨index, 0, 0, -1⟩))
        | some _ => none
    | .look g => (t.counting g).map (t.look g)

/-- The reader of an incarnation has found that a server has sent another value for the index. -/
def Found (t : Tester n C) (index : ℕ) : Prop :=
  ∃ s e v j old, t.readers s e = .failed (.mismatch index s v j old)

/-- A reader has found the error, it has ended the program, or an `nCommitted` has failed
with it. -/
def Reports (t : Tester n C) (err : TestError n C) : Prop :=
  (∃ s e, t.readers s e = .failed err) ∨ t.fatal = some err ∨ err ∈ t.failed

end Tester

/-- The tester on a cluster as a transition system. -/
def testerSystem (n : ℕ) (C : Type) [Inhabited C] (asInt : C → Option ℤ) :
    TransitionSystem (Tester n C) (TesterAction n C) :=
  ⟨Tester.init n C, Tester.step asInt⟩

/-! ## What a step can do -/

section Moves

variable {n : ℕ} {C : Type} {asInt : C → Option ℤ} {t t' : Tester n C}

theorem readers_setReader (t : Tester n C) (s s' : Fin n) (e e' : ℕ) (x : Reader n C) :
    (t.setReader s e x).readers s' e' = if s' = s ∧ e' = e then x else t.readers s' e' := by
  unfold Tester.setReader
  rcases eq_or_ne s' s with rfl | hs
  · rcases eq_or_ne e' e with rfl | he
    · simp
    · simp [he]
  · simp [hs]

variable [Inhabited C]

/-- Everything that a step can do. -/
inductive TesterMove (asInt : C → Option ℤ) (t : Tester n C) :
    TesterAction n C → Tester n C → Prop where
  | raft (a : Action n C) (raft : Cluster n C) (hsend : ∀ s k, a ≠ .applySend s k)
      (hstep : t.raft.step a = some raft) : TesterMove asInt t (.raft a) { t with raft := raft }
  | receive (s : Fin n) (k : ℕ) (msg : ApplyMsg C) (raft : Cluster n C)
      (hfree : t.readers s (t.raft.nodes s).epoch = .waiting)
      (hmsg : ((t.raft.nodes s).appliers[k]?).bind Applier.msg? = some msg)
      (hstep : t.raft.step (.applySend s k) = some raft) :
      TesterMove asInt t (.raft (.applySend s k))
        { t.setReader s (t.raft.nodes s).epoch (.received msg) with raft := raft }
  | check (s : Fin n) (e : ℕ) (m : ApplyMsg C) (hm : t.readers s e = .received m) :
      TesterMove asInt t (.check s e)
        { t.setReader s e (.checked (t.reads.check asInt s m).2) with
          reads := (t.reads.check asInt s m).1 }
  | fatalf (s : Fin n) (e : ℕ) (err : TestError n C) (herr : t.readers s e = .failed err) :
      TesterMove asInt t (.fatalf s e) { t with fatal := some err }
  | nCommitted (g index : ℕ) (hnone : t.counting g = none) :
      TesterMove asInt t (.nCommitted g index) (t.setCounting g (some ⟨index, 0, 0, -1⟩))
  | look (g : ℕ) (w : Counting) (hw : t.counting g = some w) :
      TesterMove asInt t (.look g) (t.look g w)

theorem testerMove_of_step {a : TesterAction n C} (h : t.step asInt a = some t') :
    TesterMove asInt t a t' := by
  cases hfatal : t.fatal with
  | some err => simp [Tester.step, hfatal] at h
  | none =>
      unfold Tester.step at h
      rw [if_neg (by rw [hfatal]; exact Bool.false_ne_true)] at h
      cases a with
      | raft a =>
          cases a with
          | applySend s k =>
              cases hfree : t.readers s (t.raft.nodes s).epoch with
              | waiting =>
                  simp only [hfree] at h
                  obtain ⟨msg, hmsg, h⟩ := Option.bind_eq_some_iff.mp h
                  obtain ⟨raft, hraft, h⟩ := Option.bind_eq_some_iff.mp h
                  obtain rfl := Option.some.inj h
                  exact .receive s k msg raft hfree hmsg hraft
              | received m => simp [hfree] at h
              | failed err => simp [hfree] at h
          | _ =>
              obtain ⟨raft, hraft, rfl⟩ := Option.map_eq_some_iff.mp h
              exact .raft _ raft (fun _ _ heq => by cases heq) hraft
      | check s e =>
          cases hm : t.readers s e with
          | waiting => simp [hm] at h
          | received m =>
              simp only [hm, Option.some.injEq] at h
              subst h
              exact .check s e m hm
          | failed err => simp [hm] at h
      | fatalf s e =>
          cases herr : t.readers s e with
          | waiting => simp [herr] at h
          | received m => simp [herr] at h
          | failed err =>
              simp only [herr, Option.some.injEq] at h
              subst h
              exact .fatalf s e err herr
      | nCommitted g index =>
          cases hnone : t.counting g with
          | none =>
              simp only [hnone, Option.some.injEq] at h
              subst h
              exact .nCommitted g index hnone
          | some w => simp [hnone] at h
      | look g =>
          obtain ⟨w, hw, rfl⟩ := Option.map_eq_some_iff.mp h
          exact .look g w hw

/-- The step that Raft takes. -/
def TesterAction.raft? {n : ℕ} {C : Type} : TesterAction n C → Option (Action n C)
  | .raft a => some a
  | _ => none

omit [Inhabited C] in
theorem look_raft (g : ℕ) (w : Counting) : (t.look g w).raft = t.raft := by
  unfold Tester.look
  split
  · split
    · rfl
    · split <;> rfl
  · rfl

/-- The cluster below the tester. -/
def testerRaft (n : ℕ) (C : Type) [Inhabited C] (asInt : C → Option ℤ) :
    (testerSystem n C asInt).Projection (raftSystem n C) where
  state := Tester.raft
  act _ := TesterAction.raft?
  init := rfl
  idle h hnone := by
    cases testerMove_of_step h with
    | raft => cases hnone
    | receive => cases hnone
    | check => rfl
    | fatalf => rfl
    | nCommitted => rfl
    | look g w => exact look_raft g w
  taken h hsome := by
    cases testerMove_of_step h with
    | raft a raft hsend hstep =>
        obtain rfl := Option.some.inj hsome
        exact hstep
    | receive s k msg raft hfree hmsg hstep =>
        obtain rfl := Option.some.inj hsome
        exact hstep
    | check => cases hsome
    | fatalf => cases hsome
    | nCommitted => cases hsome
    | look => cases hsome

/-- The step that Raft takes is sound. -/
def Tester.Sound (t : Tester n C) (a : TesterAction n C) : Prop :=
  ∀ b ∈ a.raft?, t.raft.SoundCommit b

instance (t : Tester n C) (a : TesterAction n C) : Decidable (t.Sound a) :=
  inferInstanceAs (Decidable (∀ b ∈ a.raft?, t.raft.SoundCommit b))

end Moves

/-! ## What a check can find -/

section Check

variable {n : ℕ} {C : Type} {asInt : C → Option ℤ} {rd : Reads n} {i : Fin n} {index : ℕ} {v : ℤ}

/-- The loop over some servers leaves the error as it was, or finds one of them that differs. -/
theorem foldl_differ_cases (rd : Reads n) (i : Fin n) (index : ℕ) (v : ℤ) (l : List (Fin n))
    (err : Option (TestError n C)) :
    (l.foldl (rd.differ i index v) err = err ∧
        ∀ j ∈ l, ∀ old, rd.logs j index = some old → old = v) ∨
      ∃ j old, rd.logs j index = some old ∧ old ≠ v ∧
        l.foldl (rd.differ i index v) err = some (.mismatch index i v j old) := by
  induction l generalizing err with
  | nil => exact .inl ⟨rfl, fun j hj => absurd hj List.not_mem_nil⟩
  | cons j l ih =>
      rw [List.foldl_cons]
      by_cases hdiffers : ∃ old, rd.logs j index = some old ∧ old ≠ v
      · obtain ⟨old, hj, hne⟩ := hdiffers
        have hround : rd.differ i index v err j = some (.mismatch index i v j old) := by
          simp only [Reads.differ, hj, if_pos hne]
        rw [hround]
        rcases ih (some (.mismatch index i v j old)) with ⟨heq, -⟩ | hfound
        · exact .inr ⟨j, old, hj, hne, heq⟩
        · exact .inr hfound
      · have hsame : ∀ old, rd.logs j index = some old → old = v := by
          intro old hj
          by_contra hne
          exact hdiffers ⟨old, hj, hne⟩
        have hround : rd.differ i index v err j = err := by
          rcases hj : rd.logs j index with _ | old
          · simp only [Reads.differ, hj]
          · simp only [Reads.differ, hj, hsame old hj, ne_eq, not_true_eq_false, if_false]
        rw [hround]
        rcases ih err with ⟨heq, hall⟩ | hfound
        · refine .inl ⟨heq, fun j' hj' old h => ?_⟩
          rcases List.mem_cons.mp hj' with rfl | hj'
          · exact hsame old h
          · exact hall j' hj' old h
        · exact .inr hfound

/-- The loop finds a server that differs, when there is one. -/
theorem compare_cases (rd : Reads n) (i : Fin n) (index : ℕ) (v : ℤ) :
    (rd.compare i index v = (none : Option (TestError n C)) ∧
        ∀ j old, rd.logs j index = some old → old = v) ∨
      ∃ j old, rd.logs j index = some old ∧ old ≠ v ∧
        rd.compare i index v = (some (.mismatch index i v j old) : Option (TestError n C)) := by
  rcases foldl_differ_cases (C := C) rd i index v (List.finRange n) none with
    ⟨heq, hall⟩ | hfound
  · exact .inl ⟨heq, fun j old h => hall j (List.mem_finRange j) old h⟩
  · exact .inr hfound

/-- Everything that the check of a message can come to. -/
inductive Checked (asInt : C → Option ℤ) (rd : Reads n) (i : Fin n) (m : ApplyMsg C) :
    Reads n → Option (TestError n C) → Prop where
  | ignored (hvalid : m.commandValid = false) : Checked asInt rd i m rd none
  | notInt (hnot : asInt m.command = none) :
      Checked asInt rd i m rd (some (.notInt m.command))
  | outOfOrder (v : ℤ) (hv : asInt m.command = some v) (hone : 1 < m.commandIndex)
      (hprev : rd.logs i (m.commandIndex - 1) = none) :
      Checked asInt rd i m (rd.store i m.commandIndex v) (some (.outOfOrder i m.commandIndex))
  | mismatch (v : ℤ) (hv : asInt m.command = some v) (j : Fin n) (old : ℤ)
      (hold : rd.logs j m.commandIndex = some old) (hne : old ≠ v) :
      Checked asInt rd i m (rd.store i m.commandIndex v)
        (some (.mismatch m.commandIndex i v j old))
  | passed (v : ℤ) (hv : asInt m.command = some v)
      (hall : ∀ j old, rd.logs j m.commandIndex = some old → old = v) :
      Checked asInt rd i m (rd.store i m.commandIndex v) none

theorem checked (asInt : C → Option ℤ) (rd : Reads n) (i : Fin n) (m : ApplyMsg C) :
    Checked asInt rd i m (rd.check asInt i m).1 (rd.check asInt i m).2 := by
  unfold Reads.check
  by_cases hvalid : m.commandValid = false
  · rw [if_pos hvalid]
    exact .ignored hvalid
  · rw [if_neg hvalid]
    rcases hv : asInt m.command with _ | v
    · exact .notInt hv
    · dsimp only
      by_cases hprev : 1 < m.commandIndex ∧ (rd.logs i (m.commandIndex - 1)).isSome = false
      · rw [if_pos hprev]
        exact .outOfOrder v hv hprev.1 (Option.isNone_iff_eq_none.mp (by simpa using hprev.2))
      · rw [if_neg hprev]
        rcases compare_cases (C := C) rd i m.commandIndex v with
          ⟨heq, hall⟩ | ⟨j, old, hold, hne, heq⟩
        · rw [heq]
          exact .passed v hv hall
        · rw [heq]
          exact .mismatch v hv j old hold hne

end Check

/-! ## The invariant -/

section Invariant

variable {n : ℕ} {C : Type} {asInt : C → Option ℤ} {c c' : Cluster n C}

/-- Some incarnation of server `s` has sent the value `v` for the index. -/
def Cluster.SentValue (asInt : C → Option ℤ) (c : Cluster n C) (s : Fin n) (index : ℕ)
    (v : ℤ) : Prop :=
  ∃ e m, .applied s e m ∈ c.history ∧ m.commandIndex = index ∧ asInt m.command = some v

/-- Why there may be an error. -/
def TestError.Justified (asInt : C → Option ℤ) (c : Cluster n C) : TestError n C → Prop
  | .mismatch index s v j old =>
      v ≠ old ∧ c.SentValue asInt s index v ∧ c.SentValue asInt j index old
  | .notInt command => asInt command = none ∧
      ∃ s e m, .applied s e m ∈ c.history ∧ m.command = command
  | .outOfOrder _ _ => False
  | .noMatch index cmd cmd1 =>
      cmd ≠ cmd1 ∧ ∃ s j, c.SentValue asInt s index cmd ∧ c.SentValue asInt j index cmd1

/-- `w.count` of the servers that have been looked at hold the value `w.cmd`. -/
def Counting.Holds (w : Counting) (rd : Reads n) : Prop :=
  ∃ S : Finset (Fin n), S.card = w.count ∧
    ∀ s ∈ S, s.val < w.next ∧ rd.logs s w.index = some w.cmd

/-- The value of a message has been stored, and only another value for the index can have
replaced it. -/
def Tester.Stored (asInt : C → Option ℤ) (t : Tester n C) (s : Fin n) (m : ApplyMsg C) : Prop :=
  ∃ v w, asInt m.command = some v ∧ t.reads.logs s m.commandIndex = some w ∧
    (w = v ∨ t.Found m.commandIndex)

/-- What a message comes to: its reader still has it, or has found that it is no integer, or has
stored its value. -/
def Tester.Processed (asInt : C → Option ℤ) (t : Tester n C) (s : Fin n) (e : ℕ)
    (m : ApplyMsg C) : Prop :=
  t.readers s e = .received m ∨ t.readers s e = .failed (.notInt m.command) ∨ t.Stored asInt s m

/-- What holds along a run. -/
structure TesterInv (asInt : C → Option ℤ) (t : Tester n C) : Prop where
  feed : t.raft.FeedInv
  valid : ∀ {s e m}, .applied s e m ∈ t.raft.history → m.commandValid = true
  received : ∀ {s e m}, t.readers s e = .received m → .applied s e m ∈ t.raft.history
  read : ∀ {s e m}, .applied s e m ∈ t.raft.history → t.Processed asInt s e m
  sent : ∀ {s index v}, t.reads.logs s index = some v → t.raft.SentValue asInt s index v
  agree : ∀ {s s' index v v'}, t.reads.logs s index = some v → t.reads.logs s' index = some v' →
    v = v' ∨ t.Found index
  counts : ∀ {g w}, t.counting g = some w → 0 < w.count →
    ∃ s, t.raft.SentValue asInt s w.index w.cmd
  counting : ∀ {g w}, t.counting g = some w → w.Holds t.reads ∨ t.Found w.index
  counted : ∀ w ∈ t.counted, w.Holds t.reads ∨ t.Found w.index
  failed : ∀ {index cmd cmd1}, .noMatch index cmd cmd1 ∈ t.failed → t.Found index
  reports : ∀ {err}, t.Reports err → err.Justified asInt t.raft

variable {t t' : Tester n C} {s : Fin n} {e : ℕ} {m : ApplyMsg C} {v : ℤ}

/-! ### What only grows -/

theorem Cluster.SentValue.mono {index : ℕ} (h : c.SentValue asInt s index v)
    (hsub : ∀ s e m, .applied s e m ∈ c.history → .applied s e m ∈ c'.history) :
    c'.SentValue asInt s index v := by
  obtain ⟨e, m, hm, hrest⟩ := h
  exact ⟨e, m, hsub s e m hm, hrest⟩

theorem TestError.Justified.mono {err : TestError n C} (h : err.Justified asInt c)
    (hsub : ∀ s e m, .applied s e m ∈ c.history → .applied s e m ∈ c'.history) :
    err.Justified asInt c' := by
  cases err with
  | mismatch index s v j old => exact ⟨h.1, h.2.1.mono hsub, h.2.2.mono hsub⟩
  | outOfOrder server index => exact h
  | notInt command =>
      obtain ⟨hnot, s, e, m, hm, hcommand⟩ := h
      exact ⟨hnot, s, e, m, hsub s e m hm, hcommand⟩
  | noMatch index cmd cmd1 =>
      obtain ⟨hne, s, j, hs, hj⟩ := h
      exact ⟨hne, s, j, hs.mono hsub, hj.mono hsub⟩

/-- What a reader has found it does not forget. -/
theorem Tester.Found.setReader {index : ℕ} (h : t.Found index) {x : Reader n C}
    (hold : ∀ err, t.readers s e ≠ .failed err) : (t.setReader s e x).Found index := by
  obtain ⟨s', e', v, j, old, herr⟩ := h
  refine ⟨s', e', v, j, old, ?_⟩
  rw [readers_setReader, if_neg]
  · exact herr
  · rintro ⟨rfl, rfl⟩
    exact hold _ herr

theorem Tester.Stored.setReader {s' : Fin n} {m' : ApplyMsg C} (h : t.Stored asInt s' m')
    {x : Reader n C} (hold : ∀ err, t.readers s e ≠ .failed err) :
    (t.setReader s e x).Stored asInt s' m' := by
  obtain ⟨v, w, hv, hw, heq⟩ := h
  exact ⟨v, w, hv, hw, heq.imp_right fun hf => hf.setReader hold⟩

/-- When a reader moves on, only its own message comes to something else. -/
theorem Tester.Processed.setReader {s' : Fin n} {e' : ℕ} {m' : ApplyMsg C}
    (h : t.Processed asInt s' e' m') {x : Reader n C}
    (hold : ∀ err, t.readers s e ≠ .failed err)
    (hown : s' = s → e' = e → t.readers s e = .received m' →
      (t.setReader s e x).Processed asInt s' e' m') :
    (t.setReader s e x).Processed asInt s' e' m' := by
  by_cases hsame : s' = s ∧ e' = e
  · obtain ⟨rfl, rfl⟩ := hsame
    rcases h with hpending | hfailed | hstored
    · exact hown rfl rfl hpending
    · exact absurd hfailed (hold _)
    · exact .inr (.inr (hstored.setReader hold))
  · have hreader : (t.setReader s e x).readers s' e' = t.readers s' e' :=
      (readers_setReader ..).trans (if_neg hsame)
    exact h.imp hreader.trans (Or.imp hreader.trans fun hstored => hstored.setReader hold)

/-- A reader that goes on without an error has found nothing new. -/
theorem Tester.Reports.of_setReader {err : TestError n C} {x : Reader n C}
    (h : (t.setReader s e x).Reports err) : t.Reports err ∨ x = .failed err := by
  rcases h with ⟨s', e', herr⟩ | hrest
  · rw [readers_setReader] at herr
    split at herr
    · exact .inr herr
    · exact .inl (.inl ⟨s', e', herr⟩)
  · exact .inl (.inr hrest)

theorem logs_store {rd : Reads n} {i s : Fin n} {index index' : ℕ} {v w : ℤ} :
    (rd.store i index v).logs s index' = some w ↔
      (s = i ∧ index' = index ∧ w = v) ∨
        (¬ (s = i ∧ index' = index) ∧ rd.logs s index' = some w) := by
  rcases eq_or_ne s i with rfl | hs
  · rcases eq_or_ne index' index with rfl | hindex
    · simp [Reads.store, eq_comm]
    · simp [Reads.store, hindex]
  · simp [Reads.store, hs]

/-- A value that is stored, also under another one. -/
theorem logs_store_cases (rd : Reads n) (i s : Fin n) (index index' : ℕ) (v : ℤ) {w : ℤ}
    (h : rd.logs s index' = some w) :
    (rd.store i index v).logs s index' = some w ∨
      index' = index ∧ (rd.store i index v).logs s index' = some v := by
  by_cases hsame : s = i ∧ index' = index
  · exact .inr ⟨hsame.2, logs_store.mpr (.inl ⟨hsame.1, hsame.2, rfl⟩)⟩
  · exact .inl (logs_store.mpr (.inr ⟨hsame, h⟩))

/-- The server that has been looked at does not have the index. -/
theorem Counting.Holds.skip {w : Counting} {rd : Reads n} (h : w.Holds rd) :
    Holds { w with next := w.next + 1 } rd := by
  obtain ⟨S, hcard, hS⟩ := h
  exact ⟨S, hcard, fun s hs => ⟨(hS s hs).1.trans (Nat.lt_succ_self _), (hS s hs).2⟩⟩

/-- One more server has the value. -/
theorem Counting.Holds.count {w : Counting} {rd : Reads n} (h : w.Holds rd) (hnext : w.next < n)
    {cmd1 : ℤ} (hcmd : rd.logs ⟨w.next, hnext⟩ w.index = some cmd1)
    (hmatch : ¬ (0 < w.count ∧ w.cmd ≠ cmd1)) :
    Holds ⟨w.index, w.next + 1, w.count + 1, cmd1⟩ rd := by
  obtain ⟨S, hcard, hS⟩ := h
  -- the servers counted before hold the same value
  have hsame : ∀ s ∈ S, rd.logs s w.index = some cmd1 := by
    intro s hs
    have hpos : 0 < w.count := hcard ▸ Finset.card_pos.mpr ⟨s, hs⟩
    have heq : w.cmd = cmd1 := by
      by_contra hne
      exact hmatch ⟨hpos, hne⟩
    rw [(hS s hs).2, heq]
  have hnew : (⟨w.next, hnext⟩ : Fin n) ∉ S := fun hmem => (hS _ hmem).1.ne rfl
  refine ⟨insert ⟨w.next, hnext⟩ S, ?_, fun s hs => ?_⟩
  · rw [Finset.card_insert_of_notMem hnew, hcard]
  · rcases Finset.mem_insert.mp hs with rfl | hs
    · exact ⟨Nat.lt_succ_self _, hcmd⟩
    · exact ⟨(hS s hs).1.trans (Nat.lt_succ_self _), hsame s hs⟩

/-- What has been sent after one more message. -/
theorem Cluster.mem_history_applySend [Inhabited C] {k : ℕ} {msg : ApplyMsg C}
    (hmsg : ((c.nodes s).appliers[k]?).bind Applier.msg? = some msg)
    (hstep : c.step (.applySend s k) = some c') {s' : Fin n} {e' : ℕ} {m' : ApplyMsg C} :
    .applied s' e' m' ∈ c'.history ↔
      .applied s' e' m' ∈ c.history ∨ s' = s ∧ e' = (c.nodes s).epoch ∧ m' = msg := by
  obtain ⟨a, msg', ha, hmsg', rfl⟩ := step_applySend hstep
  rw [ha, Option.bind_some, hmsg'] at hmsg
  obtain rfl := Option.some.inj hmsg
  rw [put_history, List.mem_append, List.mem_singleton, Event.applied.injEq]

/-! ### The steps -/

/-- A message that is being checked is preceded by one that has been read. -/
theorem TesterInv.prev (hi : TesterInv asInt t) (hm : t.readers s e = .received m)
    (hone : 1 < m.commandIndex) : t.reads.logs s (m.commandIndex - 1) ≠ none := by
  have hmem : m.commandIndex ∈ t.raft.delivered s e :=
    Cluster.mem_delivered.mpr ⟨m, hi.received hm, rfl⟩
  obtain ⟨pre, post, hsplit⟩ := List.append_of_mem hmem
  obtain ⟨-, hup⟩ := hi.feed.inTurn s e pre m.commandIndex post hsplit
  have hprev : m.commandIndex - 1 ∈ t.raft.delivered s e := by
    rw [hsplit]
    exact List.mem_append_left _ (hup _ (by omega) le_rfl)
  obtain ⟨m', hm', hindex⟩ := Cluster.mem_delivered.mp hprev
  rcases hi.read hm' with hpending | hfailed | ⟨v, w, -, hw, -⟩
  · -- the reader has one message at a time
    rw [hm] at hpending
    injection hpending with heq
    rw [← heq] at hindex
    omega
  · rw [hm] at hfailed
    cases hfailed
  · rw [← hindex, hw]
    exact Option.some_ne_none w

/-- A step of Raft that sends nothing on an apply channel. -/
theorem TesterInv.raft [Inhabited C] (hi : TesterInv asInt t) {a : Action n C}
    {raft : Cluster n C} (hsend : ∀ s k, a ≠ .applySend s k)
    (hstep : t.raft.step a = some raft) : TesterInv asInt { t with raft := raft } := by
  have hhist := (Cluster.step_applied hstep hsend).2
  have hgrow : ∀ s e m, .applied s e m ∈ t.raft.history → .applied s e m ∈ raft.history :=
    fun s e m => (hhist s e m).mpr
  obtain ⟨s, rf, msgs, events, rfl, hmove⟩ := Cluster.step_move hstep
  refine ⟨hi.feed.put hmove.replica, fun h => hi.valid ((hhist _ _ _).mp h),
    fun h => hgrow _ _ _ (hi.received h), fun h => hi.read ((hhist _ _ _).mp h),
    fun h => (hi.sent h).mono hgrow, hi.agree, fun h hpos => ?_, hi.counting, hi.counted,
    hi.failed, fun h => (hi.reports h).mono hgrow⟩
  obtain ⟨s', hs'⟩ := hi.counts h hpos
  exact ⟨s', hs'.mono hgrow⟩

/-- A reader receives a message. -/
theorem TesterInv.receive [Inhabited C] (hi : TesterInv asInt t) {k : ℕ} {msg : ApplyMsg C}
    {raft : Cluster n C} (hfree : t.readers s (t.raft.nodes s).epoch = .waiting)
    (hmsg : ((t.raft.nodes s).appliers[k]?).bind Applier.msg? = some msg)
    (hstep : t.raft.step (.applySend s k) = some raft) :
    TesterInv asInt
      { t.setReader s (t.raft.nodes s).epoch (.received msg) with raft := raft } := by
  have hfeed : raft.FeedInv := by
    obtain ⟨s, rf, msgs, events, rfl, hmove⟩ := Cluster.step_move hstep
    exact hi.feed.put hmove.replica
  have hhist : ∀ {s' e' m'}, .applied s' e' m' ∈ raft.history ↔
      .applied s' e' m' ∈ t.raft.history ∨ s' = s ∧ e' = (t.raft.nodes s).epoch ∧ m' = msg :=
    Cluster.mem_history_applySend hmsg hstep
  have hgrow : ∀ s' e' m', .applied s' e' m' ∈ t.raft.history →
      .applied s' e' m' ∈ raft.history := fun _ _ _ h => hhist.mpr (.inl h)
  have hnofail : ∀ err, t.readers s (t.raft.nodes s).epoch ≠ .failed err := by simp [hfree]
  have hfound : ∀ {index}, t.Found index →
      (t.setReader s (t.raft.nodes s).epoch (.received msg)).Found index :=
    fun h => h.setReader hnofail
  refine ⟨hfeed, ?_, ?_, ?_, fun h => (hi.sent h).mono hgrow,
    fun h h' => (hi.agree h h').imp_right hfound, fun h hpos => ?_,
    fun h => (hi.counting h).imp_right hfound, fun w hw => (hi.counted w hw).imp_right hfound,
    fun h => hfound (hi.failed h), fun h => ?_⟩
  · intro s' e' m' h
    rcases hhist.mp h with hold | ⟨-, -, rfl⟩
    · exact hi.valid hold
    · obtain ⟨a, -, ha⟩ := Option.bind_eq_some_iff.mp hmsg
      exact Applier.commandValid_of_msg? ha
  · intro s' e' m' h
    have hreader : (if s' = s ∧ e' = (t.raft.nodes s).epoch then .received msg
        else t.readers s' e') = Reader.received m' := (readers_setReader ..).symm.trans h
    split at hreader
    next hsame =>
      injection hreader with heq
      exact hhist.mpr (.inr ⟨hsame.1, hsame.2, heq.symm⟩)
    next => exact hgrow s' e' m' (hi.received hreader)
  · intro s' e' m' h
    rcases hhist.mp h with hold | ⟨rfl, rfl, rfl⟩
    · refine (hi.read hold).setReader hnofail fun _ _ hpending => ?_
      rw [hfree] at hpending
      cases hpending
    · exact .inl ((readers_setReader ..).trans (if_pos ⟨rfl, rfl⟩))
  · obtain ⟨s', hs'⟩ := hi.counts h hpos
    exact ⟨s', hs'.mono hgrow⟩
  · rcases Tester.Reports.of_setReader h with hold | hnew
    · exact (hi.reports hold).mono hgrow
    · cases hnew

/-- A reader stores the value of its message.  All values for the index are then the same, or
the reader has found out that they are not. -/
theorem TesterInv.store (hi : TesterInv asInt t) (hm : t.readers s e = .received m)
    (hv : asInt m.command = some v) {x : Reader n C} (hx : ∀ m', x ≠ .received m')
    (hjust : ∀ err, x = .failed err → err.Justified asInt t.raft)
    (hnew : (∀ j old, t.reads.logs j m.commandIndex = some old → old = v) ∨
      (t.setReader s e x).Found m.commandIndex) :
    TesterInv asInt { t.setReader s e x with reads := t.reads.store s m.commandIndex v } := by
  have hnofail : ∀ err, t.readers s e ≠ .failed err := by simp [hm]
  have hfound : ∀ {index}, t.Found index → (t.setReader s e x).Found index :=
    fun h => h.setReader hnofail
  have hreader : ∀ {s' e'}, ¬ (s' = s ∧ e' = e) →
      (t.setReader s e x).readers s' e' = t.readers s' e' :=
    fun h => (readers_setReader ..).trans (if_neg h)
  have hkeep : ∀ {s' index w}, t.reads.logs s' index = some w →
      ∃ w', (t.reads.store s m.commandIndex v).logs s' index = some w' ∧
        (w' = w ∨ (t.setReader s e x).Found index) := by
    intro s' index w h
    rcases logs_store_cases t.reads s s' m.commandIndex index v h with hsame | ⟨rfl, hstored⟩
    · exact ⟨w, hsame, .inl rfl⟩
    · exact ⟨v, hstored, hnew.imp_left fun hall => (hall s' w h).symm⟩
  have hholds : ∀ {w : Counting}, w.Holds t.reads ∨ t.Found w.index →
      w.Holds (t.reads.store s m.commandIndex v) ∨ (t.setReader s e x).Found w.index := by
    rintro w (⟨S, hcard, hS⟩ | hf)
    · by_cases hf : (t.setReader s e x).Found w.index
      · exact .inr hf
      · refine .inl ⟨S, hcard, fun s' hs' => ⟨(hS s' hs').1, ?_⟩⟩
        obtain ⟨w', hw', heq⟩ := hkeep (hS s' hs').2
        rw [hw', heq.resolve_right hf]
    · exact .inr (hfound hf)
  refine ⟨hi.feed, hi.valid, ?_, ?_, ?_, ?_, hi.counts, fun h => hholds (hi.counting h),
    fun w hw => hholds (hi.counted w hw), fun h => hfound (hi.failed h), fun h => ?_⟩
  · intro s' e' m' h
    by_cases hsame : s' = s ∧ e' = e
    · exact absurd (((readers_setReader ..).trans (if_pos hsame)).symm.trans h) (hx m')
    · exact hi.received ((hreader hsame).symm.trans h)
  · intro s' e' m' h
    rcases hi.read h with hpending | hfailed | ⟨v', w, hv', hw, heq⟩
    · by_cases hsame : s' = s ∧ e' = e
      · obtain ⟨rfl, rfl⟩ := hsame
        rw [hm] at hpending
        injection hpending with heq
        subst heq
        exact .inr (.inr ⟨v, v, hv, logs_store.mpr (.inl ⟨rfl, rfl, rfl⟩), .inl rfl⟩)
      · exact .inl ((hreader hsame).trans hpending)
    · have hother : ¬ (s' = s ∧ e' = e) := by
        rintro ⟨rfl, rfl⟩
        exact hnofail _ hfailed
      exact .inr (.inl ((hreader hother).trans hfailed))
    · obtain ⟨w', hw', heq'⟩ := hkeep hw
      refine .inr (.inr ⟨v', w', hv', hw', ?_⟩)
      rcases heq' with rfl | hf
      · exact heq.imp_right hfound
      · exact .inr hf
  · intro s' index w h
    rcases logs_store.mp h with ⟨rfl, rfl, rfl⟩ | ⟨-, h⟩
    · exact ⟨e, m, hi.received hm, rfl, hv⟩
    · exact hi.sent h
  · intro s₁ s₂ index w₁ w₂ h₁ h₂
    rcases eq_or_ne index m.commandIndex with rfl | hindex
    · refine hnew.imp_left fun hall => ?_
      have hvalue : ∀ {s' w}, (t.reads.store s m.commandIndex v).logs s' m.commandIndex = some w →
          w = v := by
        intro s' w h
        rcases logs_store.mp h with ⟨-, -, rfl⟩ | ⟨-, h⟩
        · rfl
        · exact hall s' w h
      rw [hvalue h₁, hvalue h₂]
    · rcases logs_store.mp h₁ with ⟨-, heq, -⟩ | ⟨-, h₁⟩
      · exact absurd heq hindex
      · rcases logs_store.mp h₂ with ⟨-, heq, -⟩ | ⟨-, h₂⟩
        · exact absurd heq hindex
        · exact (hi.agree h₁ h₂).imp_right hfound
  · rcases Tester.Reports.of_setReader h with hold | hnew
    · exact hi.reports hold
    · exact hjust _ hnew

/-- A reader finds that a command is no integer. -/
theorem TesterInv.notInt (hi : TesterInv asInt t) (hm : t.readers s e = .received m)
    (hnot : asInt m.command = none) :
    TesterInv asInt (t.setReader s e (.failed (.notInt m.command))) := by
  have hnofail : ∀ err, t.readers s e ≠ .failed err := by simp [hm]
  have hfound : ∀ {index}, t.Found index →
      (t.setReader s e (.failed (.notInt m.command))).Found index := fun h => h.setReader hnofail
  have hsent := hi.received hm
  refine ⟨hi.feed, hi.valid, ?_, ?_, hi.sent, fun h h' => (hi.agree h h').imp_right hfound,
    hi.counts, fun h => (hi.counting h).imp_right hfound,
    fun w hw => (hi.counted w hw).imp_right hfound, fun h => hfound (hi.failed h), fun h => ?_⟩
  · intro s' e' m' h
    rw [readers_setReader] at h
    split at h
    · cases h
    · exact hi.received h
  · intro s' e' m' h
    refine (hi.read h).setReader hnofail fun hs he hpending => ?_
    rw [hm] at hpending
    injection hpending with heq
    subst heq
    exact .inr (.inl ((readers_setReader ..).trans (if_pos ⟨hs, he⟩)))
  · rcases Tester.Reports.of_setReader h with hold | hnew
    · exact hi.reports hold
    · injection hnew with herr
      subst herr
      exact ⟨hnot, s, e, m, hsent, rfl⟩

/-- A reader checks its message. -/
theorem TesterInv.check (hi : TesterInv asInt t) (hm : t.readers s e = .received m) :
    TesterInv asInt { t.setReader s e (.checked (t.reads.check asInt s m).2) with
      reads := (t.reads.check asInt s m).1 } := by
  have hsent := hi.received hm
  have hcheck := checked asInt t.reads s m
  generalize (t.reads.check asInt s m).1 = rd at hcheck ⊢
  generalize (t.reads.check asInt s m).2 = err at hcheck ⊢
  cases hcheck with
  | ignored hvalid =>
      rw [hi.valid hsent] at hvalid
      cases hvalid
  | notInt hnot => exact hi.notInt hm hnot
  | outOfOrder v hv hone hprev => exact absurd hprev (hi.prev hm hone)
  | mismatch v hv j old hold hne =>
      refine hi.store hm hv (fun _ h => by cases h) (fun err h => ?_) (.inr ?_)
      · injection h with herr
        subst herr
        exact ⟨hne.symm, ⟨e, m, hsent, rfl, hv⟩, hi.sent hold⟩
      · exact ⟨s, e, v, j, old, (readers_setReader ..).trans (if_pos ⟨rfl, rfl⟩)⟩
  | passed v hv hall =>
      exact hi.store hm hv (fun _ h => by cases h) (fun _ h => by cases h) (.inl hall)

/-- A call of `nCommitted` moves on. -/
theorem TesterInv.setCounting (hi : TesterInv asInt t) {g : ℕ} {x : Option Counting}
    (hx : ∀ w, x = some w → (0 < w.count → ∃ s, t.raft.SentValue asInt s w.index w.cmd) ∧
      (w.Holds t.reads ∨ t.Found w.index)) : TesterInv asInt (t.setCounting g x) := by
  have hcases : ∀ {g' w}, (t.setCounting g x).counting g' = some w →
      (0 < w.count → ∃ s, t.raft.SentValue asInt s w.index w.cmd) ∧
        (w.Holds t.reads ∨ t.Found w.index) := by
    intro g' w h
    dsimp only [Tester.setCounting] at h
    rcases eq_or_ne g' g with rfl | hne
    · rw [Function.update_self] at h
      exact hx w h
    · rw [Function.update_of_ne hne] at h
      exact ⟨hi.counts h, hi.counting h⟩
  exact { hi with
    counts := fun h => (hcases h).1
    counting := fun h => (hcases h).2 }

/-- A step of `nCommitted` goes on with a count that holds, returns one, or fails where a reader
has found the mismatch before. -/
theorem TesterInv.look (hi : TesterInv asInt t) {g : ℕ} {w : Counting}
    (hw : t.counting g = some w) : TesterInv asInt (t.look g w) := by
  unfold Tester.look
  split
  next hnext =>
    split
    next hnone =>
      refine hi.setCounting ?_
      rintro w' ⟨⟩
      have hcounts := hi.counts hw
      exact ⟨hcounts, (hi.counting hw).imp_left Counting.Holds.skip⟩
    next cmd1 hcmd =>
      split
      next hdiffers =>
        have hnone : TesterInv asInt (t.setCounting g none) :=
          hi.setCounting fun _ h => by cases h
        refine { hnone with failed := fun h => ?_, reports := fun h => ?_ }
        · rcases List.mem_append.mp h with hold | hnew
          · exact hnone.failed hold
          · cases List.mem_singleton.mp hnew
            rcases hi.counting hw with ⟨S, hcard, hS⟩ | hfound
            · obtain ⟨s, hs⟩ := Finset.card_pos.mp (hcard ▸ hdiffers.1)
              exact (hi.agree (hS s hs).2 hcmd).resolve_left hdiffers.2
            · exact hfound
        · rcases h with hreader | hfatal | hfailed
          · exact hnone.reports (.inl hreader)
          · exact hnone.reports (.inr (.inl hfatal))
          · rcases List.mem_append.mp hfailed with hold | hnew
            · exact hnone.reports (.inr (.inr hold))
            · rw [List.mem_singleton.mp hnew]
              obtain ⟨s, hs⟩ := hi.counts hw hdiffers.1
              exact ⟨hdiffers.2, s, _, hs, hi.sent hcmd⟩
      next hmatch =>
        refine hi.setCounting ?_
        rintro w' ⟨⟩
        exact ⟨fun _ => ⟨_, hi.sent hcmd⟩,
          (hi.counting hw).imp_left fun h => h.count hnext hcmd hmatch⟩
  next =>
    have hnone : TesterInv asInt (t.setCounting g none) := hi.setCounting fun _ h => by cases h
    refine { hnone with counted := fun w' hw' => ?_ }
    rcases List.mem_append.mp hw' with hold | hnew
    · exact hi.counted w' hold
    · rw [List.mem_singleton.mp hnew]
      exact hi.counting hw

variable [Inhabited C]

/-- **Every step** keeps the invariant. -/
theorem TesterInv.step (hi : TesterInv asInt t) {a : TesterAction n C}
    (hstep : t.step asInt a = some t') : TesterInv asInt t' := by
  cases testerMove_of_step hstep with
  | raft a raft hsend hraft => exact hi.raft hsend hraft
  | receive s k msg raft hfree hmsg hraft => exact hi.receive hfree hmsg hraft
  | check s e m hm => exact hi.check hm
  | fatalf s e err herr =>
      refine { hi with reports := fun h => ?_ }
      rcases h with hreader | hfatal | hfailed
      · exact hi.reports (.inl hreader)
      · rw [← Option.some.inj hfatal]
        exact hi.reports (.inl ⟨s, e, herr⟩)
      · exact hi.reports (.inr (.inr hfailed))
  | nCommitted g index hnone =>
      refine hi.setCounting ?_
      rintro w ⟨⟩
      refine ⟨fun hpos => absurd hpos (Nat.lt_irrefl 0), .inl ⟨∅, rfl, fun s hs => ?_⟩⟩
      exact absurd hs (Finset.notMem_empty s)
  | look g w hw => exact hi.look hw

theorem testerInv_init : TesterInv asInt (Tester.init n C) where
  feed := Cluster.feedInv_init
  valid h := absurd h List.not_mem_nil
  received h := by cases h
  read h := absurd h List.not_mem_nil
  sent h := by cases h
  agree h := by cases h
  counts h := by cases h
  counting h := by cases h
  counted _ h := absurd h List.not_mem_nil
  failed h := absurd h List.not_mem_nil
  reports h := by
    rcases h with ⟨s, e, herr⟩ | hfatal | hfailed
    · cases herr
    · cases hfatal
    · exact absurd hfailed List.not_mem_nil

/-- The invariant along a run. -/
theorem testerInv_run (r : (testerSystem n C asInt).Run) (k : ℕ) :
    TesterInv asInt (r.state k) :=
  r.invariant r.meets_true (I := TesterInv asInt) testerInv_init
    (fun _ _ _ hi _ hstep => hi.step hstep) k

end Invariant

/-! ## The theorems -/

section Theorems

variable {n : ℕ} {C : Type} [Inhabited C]

/-- **The checks are exact.**  In every run, sound or not, with any crashes, overlapping apply
goroutines and interleavings of the readers, also in the time between the check of a message and
`log.Fatalf`.  For every index: a reader has found that another value has been sent for it; or no
`nCommitted` has failed on it, and there is one integer which all messages sent for it carry,
except for those that a reader has still to check and those that are no integers, as their reader
has found.  And every error that a reader has found, that has ended the program or that an
`nCommitted` has failed with is about two different values that have been sent for one index, or
about a command that has been sent and is no integer.  It is never about the order of the
messages. -/
theorem tester_exact (asInt : C → Option ℤ) (r : (testerSystem n C asInt).Run) (k : ℕ) :
    (∀ index, (r.state k).Found index ∨
      (∀ cmd cmd1, .noMatch index cmd cmd1 ∉ (r.state k).failed) ∧
        ∃ v, ∀ s e m, .applied s e m ∈ (r.state k).raft.history → m.commandIndex = index →
          asInt m.command = some v ∨ (r.state k).readers s e = .received m ∨
            (r.state k).readers s e = .failed (.notInt m.command)) ∧
    ∀ err, (r.state k).Reports err → err.Justified asInt (r.state k).raft := by
  have hi := testerInv_run r k
  refine ⟨fun index => ?_, fun err => hi.reports⟩
  by_cases hfound : (r.state k).Found index
  · exact .inl hfound
  refine .inr ⟨fun cmd cmd1 h => hfound (hi.failed h), ?_⟩
  -- the value that some server has stored, if there is one
  obtain ⟨v, hstored⟩ : ∃ v, ∀ s w, (r.state k).reads.logs s index = some w → w = v := by
    by_cases hnone : ∀ s, (r.state k).reads.logs s index = none
    · exact ⟨0, fun s w h => by rw [hnone s] at h; cases h⟩
    · push Not at hnone
      obtain ⟨s₀, hs₀⟩ := hnone
      obtain ⟨v, hv⟩ := Option.ne_none_iff_exists'.mp hs₀
      exact ⟨v, fun s w h => (hi.agree h hv).resolve_right hfound⟩
  refine ⟨v, fun s e m hm hindex => ?_⟩
  subst hindex
  rcases hi.read hm with hpending | hfailed | ⟨v', w, hv', hw, heq⟩
  · exact .inr (.inl hpending)
  · exact .inr (.inr hfailed)
  · rw [← heq.resolve_right hfound, hstored s w hw] at hv'
    exact .inl hv'

/-- Commands that are integers. -/
def natAsInt (c : ℕ) : Option ℤ :=
  some c

/-- In the run of the cluster in which servers `0` and `2` commit different commands, an
`nCommitted` may read both of them before the reader of server `2` calls `log.Fatalf`. -/
example :
    let r := (testerSystem 3 ℕ natAsInt).ofList
      [.raft (.electionTimeout 0), .raft (.deliver 0), .raft (.deliver 2), .raft (.startRead 0 7),
        .raft (.startAppend 0 0), .raft (.electionTimeout 2), .raft (.electionTimeout 2),
        .raft (.deliver 6), .raft (.deliver 7), .raft (.startRead 2 8), .raft (.startAppend 2 0),
        .raft (.deliver 5), .raft (.electionTimeout 0), .raft (.deliver 9), .raft (.deliver 11),
        .raft (.sendHeartbeat 0 0), .raft (.deliver 12), .raft (.deliver 13),
        .raft (.sendHeartbeat 0 1), .raft (.deliver 14), .raft (.startRead 0 9),
        .raft (.startAppend 0 0), .raft (.deliver 15), .raft (.applySend 0 0), .check 0 0,
        .raft (.deliver 10), .raft (.electionTimeout 2), .raft (.deliver 18), .raft (.deliver 19),
        .raft (.startRead 2 6), .raft (.startAppend 2 0), .raft (.sendHeartbeat 2 1),
        .raft (.deliver 20), .raft (.deliver 21), .raft (.sendHeartbeat 2 2), .raft (.deliver 22),
        .raft (.deliver 23), .raft (.applySend 2 0), .check 2 0, .nCommitted 0 1, .look 0, .look 0,
        .look 0]
    (r.state 43).fatal = none ∧ (r.state 43).failed = [.noMatch 1 7 8] := by
  decide +kernel

/-- Two messages for one index, sent at any moments of a run of sound steps, carry one command. -/
theorem command_eq_of_sound {r : (raftSystem n C).Run} (hok : r.Meets Cluster.SoundCommit)
    {k l : ℕ} {s s' : Fin n} {e e' : ℕ} {m m' : ApplyMsg C}
    (h : .applied s e m ∈ (r.state k).history) (h' : .applied s' e' m' ∈ (r.state l).history)
    (hindex : m.commandIndex = m'.commandIndex) : m.command = m'.command := by
  obtain ⟨g, hcommits, -⟩ := exists_commits r hok
  exact (hcommits (max k l)).appliedAgree ((history_mono r (le_max_left k l)).subset h)
    ((history_mono r (le_max_right k l)).subset h') hindex

/-- **The tester is silent on sound runs.**  If the steps of Raft are sound and all commands are
integers, then no reader ever finds an error, the program never ends and no `nCommitted` fails;
and when one has returned a positive count for an index, then that many servers have sent its
value for the index, and nobody sends another one for it at any moment of the run. -/
theorem tester_silent (asInt : C → Option ℤ) (r : (testerSystem n C asInt).Run)
    (hsound : r.Meets Tester.Sound) (hint : ∀ c, (asInt c).isSome = true) (k : ℕ) :
    ((r.state k).fatal = none ∧ (r.state k).failed = [] ∧
      ∀ s e err, (r.state k).readers s e ≠ .failed err) ∧
    ∀ w ∈ (r.state k).counted, 0 < w.count →
      (∃ S : Finset (Fin n), S.card = w.count ∧
        ∀ s ∈ S, (r.state k).raft.SentValue asInt s w.index w.cmd) ∧
      ∀ l s v, (r.state l).raft.SentValue asInt s w.index v → v = w.cmd := by
  have hraft : ((testerRaft n C asInt).run r).Meets Cluster.SoundCommit :=
    (testerRaft n C asInt).meets hsound fun _ _ b h hb => h b hb
  have hsame : ∀ {k l s s' index v v'}, (r.state k).raft.SentValue asInt s index v →
      (r.state l).raft.SentValue asInt s' index v' → v = v' := by
    rintro k l s s' index v v' ⟨e, m, hm, rfl, hv⟩ ⟨e', m', hm', hindex, hv'⟩
    have hcommand : m.command = m'.command := command_eq_of_sound hraft hm hm' hindex.symm
    rw [hcommand, hv'] at hv
    exact (Option.some.inj hv).symm
  have hi := testerInv_run r k
  have hnone : ∀ err, ¬ (r.state k).Reports err := by
    intro err h
    have hjust := hi.reports h
    cases err with
    | mismatch index s v j old => exact hjust.1 (hsame hjust.2.1 hjust.2.2)
    | outOfOrder server index => exact hjust
    | notInt command =>
        have hsome := hint command
        rw [hjust.1] at hsome
        cases hsome
    | noMatch index cmd cmd1 =>
        obtain ⟨hne, s, j, hs, hj⟩ := hjust
        exact hne (hsame hs hj)
  refine ⟨⟨?_, ?_, fun s e err h => hnone err (.inl ⟨s, e, h⟩)⟩, fun w hw hpos => ?_⟩
  · exact Option.eq_none_iff_forall_ne_some.mpr fun err h => hnone err (.inr (.inl h))
  · exact List.eq_nil_iff_forall_not_mem.mpr fun err h => hnone err (.inr (.inr h))
  · have hholds : w.Holds (r.state k).reads := (hi.counted w hw).resolve_right
      fun ⟨s, e, _, _, _, h⟩ => hnone _ (.inl ⟨s, e, h⟩)
    obtain ⟨S, hcard, hS⟩ := hholds
    refine ⟨⟨S, hcard, fun s hs => hi.sent (hS s hs).2⟩, fun l s v hv => ?_⟩
    rw [← hcard] at hpos
    obtain ⟨s₀, hs₀⟩ := Finset.card_pos.mp hpos
    exact hsame hv (hi.sent (hS s₀ hs₀).2)

end Theorems

/-- Two servers of a cluster send the same command, and two goroutines of the test count them at
the same time. -/
def countedTwice : List (TesterAction 3 ℕ) :=
  [.raft (.electionTimeout 0), .raft (.deliver 0), .raft (.deliver 2), .raft (.startRead 0 7),
    .raft (.startAppend 0 0), .raft (.sendHeartbeat 0 0), .raft (.deliver 3), .raft (.deliver 4),
    .raft (.applySend 0 0), .raft (.applyStore 0 0), .nCommitted 0 1, .look 0, .check 0 0,
    .raft (.electionTimeout 1), .raft (.deliver 5), .raft (.deliver 7), .raft (.startRead 1 8),
    .raft (.startAppend 1 0), .raft (.sendHeartbeat 1 0), .raft (.deliver 8), .raft (.deliver 9),
    .raft (.applySend 1 0), .nCommitted 1 1, .look 1, .look 0, .look 0, .look 0, .check 1 0,
    .look 1, .look 1, .look 1]

theorem tester_silent_countedTwice :
    let r := (testerSystem 3 ℕ natAsInt).ofList countedTwice
    (r.state 31).counted = [⟨1, 3, 0, -1⟩, ⟨1, 3, 2, 7⟩] ∧
      ∀ l s v, (r.state l).raft.SentValue natAsInt s 1 v → v = 7 := by
  intro r
  have hcounted : (r.state 31).counted = [⟨1, 3, 0, -1⟩, ⟨1, 3, 2, 7⟩] := by decide +kernel
  have hsound : r.Meets Tester.Sound := TransitionSystem.meets_ofList (by decide +kernel)
  refine ⟨hcounted, ?_⟩
  have hsilent := (tester_silent natAsInt r hsound (fun _ => rfl) 31).2 ⟨1, 3, 2, 7⟩
  rw [hcounted] at hsilent
  exact (hsilent (by decide) (by decide)).2

end Mit6824
