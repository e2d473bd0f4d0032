/-
# The servers of a test: crashes, restarts and Persisters

`config.go` of the Raft tester starts and stops the servers of a simulated network.  It cannot
really stop one: the goroutines of an old instance go on, and only its connections and its
`Persister` are taken away.  So two things have to be put in order with care, and both depend on
what `ProcessReq` does at the same time: that an old instance cannot be heard any more, and that
nothing which it has promised is lost.

* `Persister`, `Config` and `Op`: the fields of a `config`, and the functions of the tester as
  lists of operations between which everybody else runs;
* `configSystem`: the tester beside the calls on the network (`Labrpc`) and the instances, old
  and new, that save their state; `labRun`: its runs are runs of the network;
* `safely_of_le`: what the functions of the tester keep holds whenever none of them is running;
* `acknowledged_survives`: what an instance had saved before it answered a call is in the
  `Persister` of its server for ever.
-/
import Mit6824.Labrpc
import Mit6824.Straightline

namespace Mit6824

/-! ## Persisters -/

/-- `Persister`: the saved state of a server and its snapshot. -/
structure Persister (V : Type) where
  raftstate : Option V
  snapshot : Option (List UInt8)

namespace Persister

variable {V : Type}

/-- `MakePersister`: nothing has been saved. -/
def makePersister : Persister V :=
  ⟨none, none⟩

/-- A persister of its own with the same content. -/
def copy (ps : Persister V) : Persister V :=
  ⟨ps.raftstate, ps.snapshot⟩

/-- Save a state in place of the last one. -/
def saveRaftState (ps : Persister V) (state : Option V) : Persister V :=
  { ps with raftstate := state }

/-- The state that was saved last. -/
def readRaftState (ps : Persister V) : Option V :=
  ps.raftstate

end Persister

namespace RaftTest

open Labrpc Straightline

/-! ## The configuration -/

/-- The fields of a `config` and the addresses that have been given out.  An instance of Raft is
known by the address of its `Persister`, which no other instance has; `hosts` are the instances
behind the servers of the network, and `srv` is the variable of `start1`. -/
structure Config (n : ℕ) (E : Type) where
  net : Network E (Fin n)
  rafts : Fin n → Option ℕ
  connected : Fin n → Bool
  saved : Fin n → Option ℕ
  endnames : Fin n → Option (Fin n → E)
  persisters : ℕ
  servers : ℕ
  hosts : ℕ → Option ℕ
  srv : Option ℕ

variable {n : ℕ} {E V : Type}

/-- The fields before `make_config` starts the servers. -/
def Config.init : Config n E :=
  { net := .makeNetwork
    rafts := fun _ => none
    connected := fun _ => false
    saved := fun _ => none
    endnames := fun _ => none
    persisters := 0
    servers := 0
    hosts := fun _ => none
    srv := none }

/-- The steps of the functions of the tester. -/
inductive Op (n : ℕ) (E : Type) where
  | setConnected (i : Fin n) (yes : Bool)
  /-- `if cfg.connected[peer] { cfg.net.Enable(cfg.endnames[i][j], true) }`. -/
  | attach (peer i j : Fin n)
  /-- `if cfg.endnames[i] != nil { cfg.net.Enable(cfg.endnames[i][j], false) }`. -/
  | detach (i j : Fin n)
  | deleteServer (i : Fin n)
  /-- `if cfg.saved[i] != nil { cfg.saved[i] = cfg.saved[i].Copy() }`. -/
  | copySaved (i : Fin n)
  | kill (i : Fin n)
  /-- The fresh `Persister` at the end of `crash1`, with the state but without the snapshot. -/
  | renewSaved (i : Fin n)
  | setEndnames (i : Fin n) (names : Fin n → E)
  | makeEnd (i j : Fin n)
  | connectEnd (i j : Fin n)
  /-- The fresh `Persister` of `start1`. -/
  | makeSaved (i : Fin n)
  | make (i : Fin n)
  /-- `srv := labrpc.MakeServer()` with the service of the instance. -/
  | makeServer (i : Fin n)
  | addServer (i : Fin n)
  | reliable (yes : Bool)
  | longReordering (yes : Bool)

/-- A step on the fields; `none` where the program ends: at an index into a nil slice, at a
second end of the same name, and at a nil `Persister` that `Make` reads. -/
def Config.exec [DecidableEq E] (cfg : Config n E) : Op n E → Option (Config n E)
  | .setConnected i yes => some { cfg with connected := Function.update cfg.connected i yes }
  | .attach peer i j =>
      if cfg.connected peer then
        (cfg.endnames i).map fun names => { cfg with net := cfg.net.enable (names j) true }
      else some cfg
  | .detach i j =>
      match cfg.endnames i with
      | none => some cfg
      | some names => some { cfg with net := cfg.net.enable (names j) false }
  | .deleteServer i => some { cfg with net := cfg.net.deleteServer i }
  | .copySaved i | .renewSaved i =>
      match cfg.saved i with
      | none => some cfg
      | some _ => some { cfg with
          saved := Function.update cfg.saved i (some cfg.persisters)
          persisters := cfg.persisters + 1 }
  | .kill i => some { cfg with rafts := Function.update cfg.rafts i none }
  | .setEndnames i names =>
      some { cfg with endnames := Function.update cfg.endnames i (some names) }
  | .makeEnd i j => do
      let names ← cfg.endnames i
      let net ← cfg.net.makeEnd (names j)
      some { cfg with net := net }
  | .connectEnd i j =>
      (cfg.endnames i).map fun names => { cfg with net := cfg.net.connect (names j) (some j) }
  | .makeSaved i =>
      some { cfg with
        saved := Function.update cfg.saved i (some cfg.persisters)
        persisters := cfg.persisters + 1 }
  | .make i =>
      (cfg.saved i).map fun q => { cfg with rafts := Function.update cfg.rafts i (some q) }
  | .makeServer i =>
      some { cfg with
        hosts := Function.update cfg.hosts cfg.servers (cfg.rafts i)
        srv := some cfg.servers
        servers := cfg.servers + 1 }
  | .addServer i => some { cfg with net := cfg.net.addServer i cfg.srv }
  | .reliable yes => some { cfg with net := { cfg.net with reliable := yes } }
  | .longReordering yes => some { cfg with net := { cfg.net with longReordering := yes } }

/-- What a step writes into the `Persister` that it makes. -/
def Config.store (cfg : Config n E) (store : ℕ → Persister V) : Op n E → ℕ → Persister V
  | .copySaved i =>
      match cfg.saved i with
      | none => store
      | some q => Function.update store cfg.persisters (store q).copy
  | .renewSaved i =>
      match cfg.saved i with
      | none => store
      | some q => Function.update store cfg.persisters
          (Persister.makePersister.saveRaftState (store q).readRaftState)
  | .makeSaved i =>
      match cfg.saved i with
      | none => Function.update store cfg.persisters .makePersister
      | some q => Function.update store cfg.persisters (store q).copy
  | _ => store

/-! ## The functions of the tester -/

/-- Attach a server: its outgoing ends first, then its incoming ends. -/
def connect (i : Fin n) : List (Op n E) :=
  .setConnected i true ::
    ((List.finRange n).map (fun j => .attach j i j) ++ (List.finRange n).map fun j => .attach j j i)

/-- Detach a server: its outgoing ends first, then its incoming ends. -/
def disconnect (i : Fin n) : List (Op n E) :=
  .setConnected i false ::
    ((List.finRange n).map (fun j => .detach i j) ++ (List.finRange n).map fun j => .detach j i)

/-- Shut down a server but save its persistent state. -/
def crash1 (i : Fin n) : List (Op n E) :=
  disconnect i ++ [.deleteServer i, .copySaved i, .kill i, .renewSaved i]

/-- Start or restart a server; `names` are the random names of its ends. -/
def start1 (i : Fin n) (names : Fin n → E) : List (Op n E) :=
  crash1 i ++ .setEndnames i names ::
    ((List.finRange n).flatMap (fun j => [.makeEnd i j, .connectEnd i j]) ++
      [.makeSaved i, .make i, .makeServer i, .addServer i])

/-- A call of the test. -/
inductive Command (n : ℕ) (E : Type) where
  | connect (i : Fin n)
  | disconnect (i : Fin n)
  | crash1 (i : Fin n)
  | start1 (i : Fin n) (names : Fin n → E)
  | setunreliable (unrel : Bool)
  | setlongreordering (longrel : Bool)
  deriving DecidableEq

/-- The steps that a call of the tester consists of. -/
def Command.ops : Command n E → List (Op n E)
  | .connect i => RaftTest.connect i
  | .disconnect i => RaftTest.disconnect i
  | .crash1 i => RaftTest.crash1 i
  | .start1 i names => RaftTest.start1 i names
  | .setunreliable unrel => [.reliable (!unrel)]
  | .setlongreordering longrel => [.longReordering longrel]

/-! ## The system -/

/-- The fields of the configuration, the steps that are left of the function that the test has
called, the contents of the `Persister`s, the servers of the network, and its calls. -/
structure State (n : ℕ) (E V : Type) where
  cfg : Config n E
  todo : List (Op n E)
  store : ℕ → Persister V
  objects : ℕ → Server
  calls : List (CallState E (Fin n))

/-- The calls of the tester and their steps, the requests and the saves of the servers. -/
inductive Action (n : ℕ) (E V : Type) where
  | command (c : Command n E)
  | tester
  | call (req : ReqMsg E)
  | run (c : ℕ) (a : CallAction)
  /-- An instance, running or abandoned, saves its state. -/
  | save (q : ℕ) (state : V)
  deriving DecidableEq

/-- The exported methods of `Raft` that have the form of a handler. -/
def raftMethods : List String :=
  ["AppendEntries", "RequestVote"]

namespace State

/-- A configuration that has just been made. -/
def init : State n E V :=
  ⟨.init, [], fun _ => .makePersister, fun _ => Labrpc.makeServer, []⟩

/-- The network of the configuration, with its servers and calls. -/
def lab (s : State n E V) : Labrpc.State E (Fin n) :=
  ⟨s.cfg.net, s.objects, s.calls⟩

/-- The servers after a step of the tester. -/
def serve (s : State n E V) : Op n E → ℕ → Server
  | .makeServer _ => Function.update s.objects s.cfg.servers
      ((s.objects s.cfg.servers).addService "Raft" raftMethods)
  | _ => s.objects

/-- One step; `none` when the action is not enabled. -/
def step [DecidableEq E] (s : State n E V) : Action n E V → Option (State n E V)
  | .command c =>
      match s.todo with
      | [] => some { s with todo := c.ops }
      | _ :: _ => none
  | .tester =>
      match s.todo with
      | [] => none
      | o :: rest => (s.cfg.exec o).map fun cfg =>
          { s with
            cfg := cfg
            todo := rest
            store := s.cfg.store s.store o
            objects := s.serve o }
  | .call req => some { s with calls := s.calls ++ [.new req] }
  | .run c a => (s.lab.step (.run c a)).map fun l =>
      { s with objects := l.objects, calls := l.calls }
  | .save q state =>
      if q < s.cfg.persisters then
        some { s with store := Function.update s.store q ((s.store q).saveRaftState (some state)) }
      else none

end State

/-- The tester, the network and the instances as a transition system. -/
def configSystem (n : ℕ) (E V : Type) [DecidableEq E] :
    TransitionSystem (State n E V) (Action n E V) :=
  ⟨.init, State.step⟩

/-! ## What a step can do -/

/-- Everything that a step of the tester can do to the configuration. -/
inductive Exec [DecidableEq E] (cfg : Config n E) : Op n E → Config n E → Prop where
  | setConnected (i : Fin n) (yes : Bool) :
      Exec cfg (.setConnected i yes) { cfg with connected := Function.update cfg.connected i yes }
  | attached (peer i j : Fin n) (names : Fin n → E) (hpeer : cfg.connected peer = true)
      (hnames : cfg.endnames i = some names) :
      Exec cfg (.attach peer i j) { cfg with net := cfg.net.enable (names j) true }
  | notAttached (peer i j : Fin n) (hpeer : cfg.connected peer = false) :
      Exec cfg (.attach peer i j) cfg
  | detached (i j : Fin n) (names : Fin n → E) (hnames : cfg.endnames i = some names) :
      Exec cfg (.detach i j) { cfg with net := cfg.net.enable (names j) false }
  | notDetached (i j : Fin n) (hnames : cfg.endnames i = none) : Exec cfg (.detach i j) cfg
  | deleteServer (i : Fin n) :
      Exec cfg (.deleteServer i) { cfg with net := cfg.net.deleteServer i }
  | copied (i : Fin n) (q : ℕ) (hsaved : cfg.saved i = some q) :
      Exec cfg (.copySaved i) { cfg with
        saved := Function.update cfg.saved i (some cfg.persisters)
        persisters := cfg.persisters + 1 }
  | notCopied (i : Fin n) (hsaved : cfg.saved i = none) : Exec cfg (.copySaved i) cfg
  | kill (i : Fin n) : Exec cfg (.kill i) { cfg with rafts := Function.update cfg.rafts i none }
  | renewed (i : Fin n) (q : ℕ) (hsaved : cfg.saved i = some q) :
      Exec cfg (.renewSaved i) { cfg with
        saved := Function.update cfg.saved i (some cfg.persisters)
        persisters := cfg.persisters + 1 }
  | notRenewed (i : Fin n) (hsaved : cfg.saved i = none) : Exec cfg (.renewSaved i) cfg
  | setEndnames (i : Fin n) (names : Fin n → E) :
      Exec cfg (.setEndnames i names)
        { cfg with endnames := Function.update cfg.endnames i (some names) }
  | makeEnd (i j : Fin n) (names : Fin n → E) (hnames : cfg.endnames i = some names)
      (hnew : cfg.net.ends (names j) = false) :
      Exec cfg (.makeEnd i j) { cfg with net := { cfg.net with
        ends := Function.update cfg.net.ends (names j) true
        enabled := Function.update cfg.net.enabled (names j) false
        connections := Function.update cfg.net.connections (names j) none } }
  | connectEnd (i j : Fin n) (names : Fin n → E) (hnames : cfg.endnames i = some names) :
      Exec cfg (.connectEnd i j) { cfg with net := cfg.net.connect (names j) (some j) }
  | makeSaved (i : Fin n) :
      Exec cfg (.makeSaved i) { cfg with
        saved := Function.update cfg.saved i (some cfg.persisters)
        persisters := cfg.persisters + 1 }
  | make (i : Fin n) (q : ℕ) (hsaved : cfg.saved i = some q) :
      Exec cfg (.make i) { cfg with rafts := Function.update cfg.rafts i (some q) }
  | makeServer (i : Fin n) :
      Exec cfg (.makeServer i) { cfg with
        hosts := Function.update cfg.hosts cfg.servers (cfg.rafts i)
        srv := some cfg.servers
        servers := cfg.servers + 1 }
  | addServer (i : Fin n) :
      Exec cfg (.addServer i) { cfg with net := cfg.net.addServer i cfg.srv }
  | reliable (yes : Bool) :
      Exec cfg (.reliable yes) { cfg with net := { cfg.net with reliable := yes } }
  | longReordering (yes : Bool) :
      Exec cfg (.longReordering yes) { cfg with net := { cfg.net with longReordering := yes } }

/-- The steps of the tester, once and for all. -/
theorem exec_of_some [DecidableEq E] {cfg cfg' : Config n E} {o : Op n E}
    (h : cfg.exec o = some cfg') : Exec cfg o cfg' := by
  cases o with
  | setConnected i yes => obtain rfl := Option.some.inj h; exact .setConnected i yes
  | attach peer i j =>
      cases hpeer : cfg.connected peer with
      | false =>
          simp only [Config.exec, hpeer, Bool.false_eq_true, if_false, Option.some.injEq] at h
          subst h
          exact .notAttached peer i j hpeer
      | true =>
          simp only [Config.exec, hpeer, if_true] at h
          obtain ⟨names, hnames, rfl⟩ := Option.map_eq_some_iff.mp h
          exact .attached peer i j names hpeer hnames
  | detach i j =>
      cases hnames : cfg.endnames i with
      | none =>
          simp only [Config.exec, hnames, Option.some.injEq] at h
          subst h
          exact .notDetached i j hnames
      | some names =>
          simp only [Config.exec, hnames, Option.some.injEq] at h
          subst h
          exact .detached i j names hnames
  | deleteServer i => obtain rfl := Option.some.inj h; exact .deleteServer i
  | copySaved i =>
      cases hsaved : cfg.saved i with
      | none =>
          simp only [Config.exec, hsaved, Option.some.injEq] at h
          subst h
          exact .notCopied i hsaved
      | some q =>
          simp only [Config.exec, hsaved, Option.some.injEq] at h
          subst h
          exact .copied i q hsaved
  | kill i => obtain rfl := Option.some.inj h; exact .kill i
  | renewSaved i =>
      cases hsaved : cfg.saved i with
      | none =>
          simp only [Config.exec, hsaved, Option.some.injEq] at h
          subst h
          exact .notRenewed i hsaved
      | some q =>
          simp only [Config.exec, hsaved, Option.some.injEq] at h
          subst h
          exact .renewed i q hsaved
  | setEndnames i names => obtain rfl := Option.some.inj h; exact .setEndnames i names
  | makeEnd i j =>
      obtain ⟨names, hnames, h⟩ := Option.bind_eq_some_iff.mp h
      obtain ⟨net, hnet, h⟩ := Option.bind_eq_some_iff.mp h
      obtain rfl := Option.some.inj h
      cases hends : cfg.net.ends (names j) with
      | true => simp [Network.makeEnd, hends] at hnet
      | false =>
          simp only [Network.makeEnd, hends, Bool.false_eq_true, if_false,
            Option.some.injEq] at hnet
          subst hnet
          exact .makeEnd i j names hnames hends
  | connectEnd i j =>
      obtain ⟨names, hnames, rfl⟩ := Option.map_eq_some_iff.mp h
      exact .connectEnd i j names hnames
  | makeSaved i => obtain rfl := Option.some.inj h; exact .makeSaved i
  | make i =>
      obtain ⟨q, hsaved, rfl⟩ := Option.map_eq_some_iff.mp h
      exact .make i q hsaved
  | makeServer i => obtain rfl := Option.some.inj h; exact .makeServer i
  | addServer i => obtain rfl := Option.some.inj h; exact .addServer i
  | reliable yes => obtain rfl := Option.some.inj h; exact .reliable yes
  | longReordering yes => obtain rfl := Option.some.inj h; exact .longReordering yes

/-- Everything that a step can do. -/
inductive Move [DecidableEq E] (s : State n E V) : Action n E V → State n E V → Prop where
  | command (c : Command n E) (h : s.todo = []) : Move s (.command c) { s with todo := c.ops }
  | tester (o : Op n E) (rest : List (Op n E)) (cfg : Config n E) (h : s.todo = o :: rest)
      (hexec : s.cfg.exec o = some cfg) :
      Move s .tester { s with
        cfg := cfg
        todo := rest
        store := s.cfg.store s.store o
        objects := s.serve o }
  | call (req : ReqMsg E) : Move s (.call req) { s with calls := s.calls ++ [.new req] }
  | run (c : ℕ) (a : CallAction) (l : Labrpc.State E (Fin n))
      (h : s.lab.step (.run c a) = some l) :
      Move s (.run c a) { s with objects := l.objects, calls := l.calls }
  | save (q : ℕ) (state : V) (h : q < s.cfg.persisters) :
      Move s (.save q state)
        { s with store := Function.update s.store q ((s.store q).saveRaftState (some state)) }

section Moves

variable [DecidableEq E] {s s' : State n E V} {a : Action n E V}

theorem move_of_step (h : s.step a = some s') : Move s a s' := by
  cases a with
  | command c =>
      cases htodo : s.todo with
      | nil =>
          simp only [State.step, htodo, Option.some.injEq] at h
          subst h
          exact .command c htodo
      | cons o rest => simp [State.step, htodo] at h
  | tester =>
      cases htodo : s.todo with
      | nil => simp [State.step, htodo] at h
      | cons o rest =>
          simp only [State.step, htodo] at h
          obtain ⟨cfg, hexec, rfl⟩ := Option.map_eq_some_iff.mp h
          exact .tester o rest cfg htodo hexec
  | call req =>
      obtain rfl := Option.some.inj h
      exact .call req
  | run c b =>
      obtain ⟨l, hl, rfl⟩ := Option.map_eq_some_iff.mp h
      exact .run c b l hl
  | save q state =>
      by_cases hq : q < s.cfg.persisters
      · simp only [State.step, if_pos hq, Option.some.injEq] at h
        subst h
        exact .save q state hq
      · simp [State.step, hq] at h

/-- **The functions of the tester in a run.**  What every function of the tester keeps, and the
one that is running will establish at its end, is kept so at every later moment: nobody else
writes the fields of the configuration. -/
theorem safely_of_le {pre : Config n E → Op n E → Prop} {post : Config n E → Prop}
    (hops : ∀ (c : Command n E) cfg, post cfg → Safely Config.exec pre post cfg c.ops)
    (r : (configSystem n E V).Run) {j k : ℕ} (hjk : j ≤ k)
    (hj : Safely Config.exec pre post (r.state j).cfg (r.state j).todo) :
    Safely Config.exec pre post (r.state k).cfg (r.state k).todo := by
  refine r.rel_of_le r.meets_true (R := fun s s' => Safely Config.exec pre post s.cfg s.todo →
    Safely Config.exec pre post s'.cfg s'.todo) (fun _ => id) ?_ ?_ hjk hj
  · exact fun _ _ _ h₁ h₂ h => h₂ (h₁ h)
  · intro i a _ _ hstep ih
    generalize r.state (i + 1) = s' at hstep ⊢
    generalize r.state i = s at hstep ih
    cases move_of_step hstep with
    | command c h =>
        rw [h] at ih
        exact hops c s.cfg ih
    | tester o rest cfg h hexec =>
        rw [h] at ih
        exact ih.2 cfg hexec
    | call req => exact ih
    | run c b l h => exact ih
    | save q state h => exact ih

end Moves

/-! ## The run of the network -/

/-- What a step of the tester does on the network. -/
def Config.netAction (cfg : Config n E) : Op n E → Option (Labrpc.Action E (Fin n))
  | .attach peer i j =>
      if cfg.connected peer then (cfg.endnames i).map fun names => .enable (names j) true else none
  | .detach i j => (cfg.endnames i).map fun names => .enable (names j) false
  | .deleteServer i => some (.deleteServer i)
  | .makeEnd i j => (cfg.endnames i).map fun names => .makeEnd (names j)
  | .connectEnd i j => (cfg.endnames i).map fun names => .connect (names j) (some j)
  | .makeServer _ => some (.addService cfg.servers "Raft" raftMethods)
  | .addServer i => some (.addServer i cfg.srv)
  | .reliable yes => some (.reliable yes)
  | .longReordering yes => some (.longReordering yes)
  | _ => none

/-- What a step does on the network. -/
def State.labAction (s : State n E V) : Action n E V → Option (Labrpc.Action E (Fin n))
  | .tester => s.todo.head?.bind s.cfg.netAction
  | .call req => some (.call req)
  | .run c a => some (.run c a)
  | _ => none

section Network

variable [DecidableEq E] {s s' : State n E V} {a : Action n E V}

/-- A step of the tester is one on the network, or none. -/
theorem lab_of_exec {o : Op n E} {cfg : Config n E} (h : s.cfg.exec o = some cfg) :
    match s.cfg.netAction o with
    | none => cfg.net = s.cfg.net ∧ s.serve o = s.objects
    | some b => s.lab.step b = some ⟨cfg.net, s.serve o, s.calls⟩ := by
  cases exec_of_some h with
  | attached peer i j names hpeer hnames =>
      simp only [Config.netAction, if_pos hpeer, hnames, Option.map_some]
      rfl
  | notAttached peer i j hpeer =>
      simp only [Config.netAction, hpeer]
      exact ⟨trivial, rfl⟩
  | detached i j names hnames =>
      simp only [Config.netAction, hnames, Option.map_some]
      rfl
  | notDetached i j hnames =>
      simp only [Config.netAction, hnames, Option.map_none]
      exact ⟨trivial, rfl⟩
  | makeEnd i j names hnames hnew =>
      simp only [Config.netAction, hnames, Option.map_some, Labrpc.State.step, State.lab,
        Network.makeEnd, hnew]
      rfl
  | connectEnd i j names hnames =>
      simp only [Config.netAction, hnames, Option.map_some]
      rfl
  | deleteServer i => rfl
  | makeServer i => rfl
  | addServer i => rfl
  | reliable yes => rfl
  | longReordering yes => rfl
  | _ => exact ⟨rfl, rfl⟩

theorem lab_of_step (h : s.step a = some s') :
    match s.labAction a with
    | none => s'.lab = s.lab
    | some b => s.lab.step b = some s'.lab := by
  cases move_of_step h with
  | command c h => rfl
  | tester o rest cfg htodo hexec =>
      simp only [State.labAction, htodo, List.head?_cons, Option.bind_some]
      have hlab := lab_of_exec hexec
      cases hb : s.cfg.netAction o with
      | none =>
          simp only [hb] at hlab ⊢
          simp only [State.lab, hlab.1, hlab.2]
      | some b =>
          simp only [hb] at hlab ⊢
          exact hlab
  | call req => rfl
  | run c b l hl =>
      obtain ⟨call, -, hl'⟩ := Option.bind_eq_some_iff.mp hl
      obtain ⟨call', -, hl'⟩ := Option.bind_eq_some_iff.mp hl'
      obtain ⟨objects, -, hl'⟩ := Option.bind_eq_some_iff.mp hl'
      obtain rfl := Option.some.inj hl'
      exact hl
  | save q state hq => rfl

/-- The network as a part of the test. -/
def labPart : (configSystem n E V).Projection (labrpcSystem E (Fin n)) where
  state := State.lab
  act := State.labAction
  init := rfl
  idle hstep hnone := by
    have h := lab_of_step hstep
    simp only [hnone] at h
    exact h
  taken hstep hsome := by
    have h := lab_of_step hstep
    simp only [hsome] at h
    exact h

/-- A run of the tester is a run of the network. -/
def labRun (r : (configSystem n E V).Run) : (labrpcSystem E (Fin n)).Run :=
  labPart.run r

/-- A section of a call is one of the system. -/
theorem act_of_labRun {r : (configSystem n E V).Run} {k c : ℕ} {b : CallAction}
    (h : (labRun r).act k = some (.run c b)) : r.act k = some (.run c b) := by
  obtain ⟨a, ha, hb⟩ := Option.bind_eq_some_iff.mp h
  rw [ha]
  cases a with
  | command c => cases hb
  | tester =>
      obtain ⟨o, -, ho⟩ := Option.bind_eq_some_iff.mp hb
      cases o with
      | attach peer i j =>
          by_cases hpeer : (r.state k).cfg.connected peer = true
          · simp only [Config.netAction, if_pos hpeer] at ho
            obtain ⟨names, -, hcontra⟩ := Option.map_eq_some_iff.mp ho
            cases hcontra
          · simp [Config.netAction, hpeer] at ho
      | detach i j =>
          obtain ⟨names, -, hcontra⟩ := Option.map_eq_some_iff.mp ho
          cases hcontra
      | makeEnd i j =>
          obtain ⟨names, -, hcontra⟩ := Option.map_eq_some_iff.mp ho
          cases hcontra
      | connectEnd i j =>
          obtain ⟨names, -, hcontra⟩ := Option.map_eq_some_iff.mp ho
          cases hcontra
      | _ => cases ho
  | call req => cases hb
  | run c' b' =>
      cases hb
      rfl
  | save q state => cases hb

end Network

/-! ## Where the servers save -/

/-- When a step may be taken: the `Persister` of a server is superseded only while the server is
not registered, and the server that is registered hosts the instance that saves there. -/
def Config.Safe (cfg : Config n E) : Op n E → Prop
  | .copySaved i | .renewSaved i | .makeSaved i => cfg.net.servers i = none
  | .addServer i => ∃ server q, cfg.srv = some server ∧ cfg.hosts server = some q ∧
      cfg.saved i = some q
  | _ => True

/-- Addresses are given out once, and a registered server hosts an instance that saves into the
`Persister` of the server. -/
structure Config.Valid (cfg : Config n E) : Prop where
  saved : ∀ i q, cfg.saved i = some q → q < cfg.persisters
  srv : ∀ server, cfg.srv = some server → server < cfg.servers
  registered : ∀ i server, cfg.net.servers i = some server →
    server < cfg.servers ∧ ∃ q, cfg.hosts server = some q ∧ cfg.saved i = some q

section Safe

variable [DecidableEq E] {cfg cfg' : Config n E}

omit [DecidableEq E] in
/-- A step that keeps the addresses and the servers of the network. -/
theorem Config.Valid.frame (h : cfg.Valid) (hservers : cfg'.net.servers = cfg.net.servers)
    (hsaved : cfg'.saved = cfg.saved) (hpersisters : cfg'.persisters = cfg.persisters)
    (hmade : cfg'.servers = cfg.servers) (hhosts : cfg'.hosts = cfg.hosts)
    (hsrv : cfg'.srv = cfg.srv) : cfg'.Valid where
  saved := by
    rw [hsaved, hpersisters]
    exact h.saved
  srv := by
    rw [hsrv, hmade]
    exact h.srv
  registered := by
    rw [hservers, hmade, hhosts, hsaved]
    exact h.registered

omit [DecidableEq E] in
/-- A server that is not registered gets a fresh `Persister`. -/
theorem Config.Valid.supersede (h : cfg.Valid) {i : Fin n} (hnone : cfg.net.servers i = none) :
    Config.Valid { cfg with
      saved := Function.update cfg.saved i (some cfg.persisters)
      persisters := cfg.persisters + 1 } where
  saved i' q hq := by
    dsimp only at hq ⊢
    rcases eq_or_ne i' i with rfl | hne
    · rw [Function.update_self] at hq
      cases hq
      exact Nat.lt_succ_self _
    · rw [Function.update_of_ne hne] at hq
      exact (h.saved i' q hq).trans (Nat.lt_succ_self _)
  srv := h.srv
  registered i' server hserver := by
    have hne : i' ≠ i := by
      rintro rfl
      rw [hnone] at hserver
      cases hserver
    dsimp only
    rw [Function.update_of_ne hne]
    exact h.registered i' server hserver

/-- A step at the right time keeps the configuration valid. -/
theorem Config.Valid.exec (h : cfg.Valid) {o : Op n E} (hsafe : cfg.Safe o)
    (hexec : cfg.exec o = some cfg') : cfg'.Valid := by
  cases exec_of_some hexec with
  | notAttached => exact h
  | notDetached => exact h
  | notCopied => exact h
  | notRenewed => exact h
  | deleteServer i =>
      refine ⟨h.saved, h.srv, fun i' server hserver => h.registered i' server ?_⟩
      change Function.update cfg.net.servers i none i' = some server at hserver
      rcases eq_or_ne i' i with rfl | hne
      · rw [Function.update_self] at hserver
        cases hserver
      · rwa [Function.update_of_ne hne] at hserver
  | copied i q hsaved => exact h.supersede hsafe
  | renewed i q hsaved => exact h.supersede hsafe
  | makeSaved i => exact h.supersede hsafe
  | makeServer i =>
      refine ⟨h.saved, ?_, ?_⟩
      · rintro server ⟨⟩
        exact Nat.lt_succ_self _
      · intro i' server hserver
        obtain ⟨hlt, q, hq, hsaved⟩ := h.registered i' server hserver
        refine ⟨hlt.trans (Nat.lt_succ_self _), q, ?_, hsaved⟩
        dsimp only
        rw [Function.update_of_ne hlt.ne, hq]
  | addServer i =>
      refine ⟨h.saved, h.srv, fun i' server hserver => ?_⟩
      obtain ⟨made, q, hsrv, hhosts, hsaved⟩ := hsafe
      change Function.update cfg.net.servers i cfg.srv i' = some server at hserver
      rcases eq_or_ne i' i with rfl | hne
      · rw [Function.update_self, hsrv] at hserver
        cases hserver
        exact ⟨h.srv _ hsrv, q, hhosts, hsaved⟩
      · rw [Function.update_of_ne hne] at hserver
        exact h.registered i' server hserver
  | _ => exact h.frame rfl rfl rfl rfl rfl rfl

/-- The steps that have nothing to do with servers and `Persister`s. -/
def Op.quiet : Op n E → Bool
  | .deleteServer _ | .copySaved _ | .renewSaved _ | .makeSaved _ | .makeServer _ | .addServer _ =>
      false
  | _ => true

theorem servers_of_exec {o : Op n E} (hexec : cfg.exec o = some cfg') {i : Fin n}
    (hne : ∀ j, o ≠ .addServer j) (hnone : cfg.net.servers i = none) :
    cfg'.net.servers i = none := by
  cases exec_of_some hexec with
  | deleteServer j =>
      show Function.update cfg.net.servers j none i = none
      rcases eq_or_ne i j with rfl | hij
      · exact Function.update_self ..
      · rwa [Function.update_of_ne hij]
  | addServer j => exact absurd rfl (hne j)
  | _ => exact hnone

/-- Quiet steps may be taken at any time. -/
theorem safely_quiet {l : List (Op n E)} (hl : ∀ o ∈ l, o.quiet = true) {i : Fin n} {p : Prop}
    (hcfg : p → cfg.net.servers i = none) :
    Safely Config.exec Config.Safe (fun c => p → c.net.servers i = none) cfg l := by
  refine safely_of_forall hcfg fun o ho c hc => ?_
  have hquiet := hl o ho
  refine ⟨?_, fun c' hexec hp => servers_of_exec hexec ?_ (hc hp)⟩
  · cases o with
    | copySaved | renewSaved | makeSaved | addServer => cases hquiet
    | _ => trivial
  · rintro j rfl
    cases hquiet

omit [DecidableEq E] in
theorem quiet_of_mem_disconnect {i : Fin n} {o : Op n E} (ho : o ∈ disconnect i) :
    o.quiet = true := by
  simp only [disconnect, List.mem_cons, List.mem_append, List.mem_map] at ho
  obtain rfl | ⟨j, -, rfl⟩ | ⟨j, -, rfl⟩ := ho
  · rfl
  · rfl
  · rfl

/-- `crash1` removes the server first. -/
theorem safely_crash1 (i : Fin n) (cfg : Config n E) :
    Safely Config.exec Config.Safe (fun c => c.net.servers i = none) cfg (crash1 i) := by
  rw [crash1, safely_append]
  refine (safely_quiet (fun o => quiet_of_mem_disconnect) (i := i) False.elim).mono fun c _ => ?_
  refine ⟨trivial, fun c₁ h₁ => ?_⟩
  have hnone₁ : c₁.net.servers i = none := by
    obtain rfl := Option.some.inj h₁
    exact Function.update_self ..
  refine ⟨hnone₁, fun c₂ h₂ => ?_⟩
  have hnone₂ : c₂.net.servers i = none := servers_of_exec h₂ nofun hnone₁
  refine ⟨trivial, fun c₃ h₃ => ?_⟩
  have hnone₃ : c₃.net.servers i = none := servers_of_exec h₃ nofun hnone₂
  exact ⟨hnone₃, fun c₄ h₄ => servers_of_exec h₄ nofun hnone₃⟩

/-- `start1` registers the server last, with the instance that has been given the `Persister`. -/
theorem safely_start1 (i : Fin n) (names : Fin n → E) (cfg : Config n E) :
    Safely Config.exec Config.Safe (fun _ => True) cfg (start1 i names) := by
  rw [start1, safely_append]
  refine (safely_crash1 i cfg).mono fun c hc => ?_
  refine ⟨trivial, fun c₁ h₁ => ?_⟩
  have hnone₁ : c₁.net.servers i = none := servers_of_exec h₁ nofun hc
  rw [safely_append]
  have hquiet : ∀ o ∈ (List.finRange n).flatMap
      (fun j => [Op.makeEnd i j, Op.connectEnd i j] : Fin n → List (Op n E)), o.quiet = true := by
    intro o ho
    obtain ⟨j, -, ho⟩ := List.mem_flatMap.mp ho
    rcases List.mem_cons.mp ho with rfl | ho
    · rfl
    · rw [List.mem_singleton.mp ho]
      rfl
  refine (safely_quiet hquiet (i := i) (fun _ : True => hnone₁)).mono fun c₂ hnone₂ => ?_
  refine ⟨hnone₂ trivial, fun c₃ h₃ => ⟨trivial, fun c₄ h₄ => ⟨trivial, fun c₅ h₅ => ⟨?_, ?_⟩⟩⟩⟩
  · -- the three steps before leave the server with the instance that was made
    obtain rfl := Option.some.inj h₃
    obtain ⟨q, hq, rfl⟩ := Option.map_eq_some_iff.mp h₄
    obtain rfl := Option.some.inj h₅
    refine ⟨c₂.servers, q, rfl, ?_, hq⟩
    dsimp only
    rw [Function.update_self, Function.update_self]
  · exact fun _ _ => trivial

theorem safely_ops (c : Command n E) (cfg : Config n E) :
    Safely Config.exec Config.Safe (fun _ => True) cfg c.ops := by
  cases c with
  | connect i =>
      refine (safely_quiet (fun o ho => ?_) (i := i) False.elim).mono fun _ _ => trivial
      simp only [Command.ops, RaftTest.connect, List.mem_cons, List.mem_append, List.mem_map] at ho
      obtain rfl | ⟨j, -, rfl⟩ | ⟨j, -, rfl⟩ := ho
      · rfl
      · rfl
      · rfl
  | disconnect i =>
      exact (safely_quiet (fun o => quiet_of_mem_disconnect) (i := i) False.elim).mono
        fun _ _ => trivial
  | crash1 i => exact (safely_crash1 i cfg).mono fun _ _ => trivial
  | start1 i names => exact safely_start1 i names cfg
  | setunreliable unrel => exact ⟨trivial, fun _ _ => trivial⟩
  | setlongreordering longrel => exact ⟨trivial, fun _ _ => trivial⟩

omit [DecidableEq E] in
theorem Config.valid_init : (Config.init : Config n E).Valid where
  saved := nofun
  srv := nofun
  registered := nofun

theorem valid_run (r : (configSystem n E V).Run) (k : ℕ) : (r.state k).cfg.Valid := by
  have hrun : ∀ k, (r.state k).cfg.Valid ∧
      Safely Config.exec Config.Safe (fun _ => True) (r.state k).cfg (r.state k).todo := by
    refine r.invariant r.meets_true (I := fun s => s.cfg.Valid ∧
      Safely Config.exec Config.Safe (fun _ => True) s.cfg s.todo) ⟨Config.valid_init, trivial⟩ ?_
    intro s a s' ih _ hstep
    cases move_of_step hstep with
    | command c h => exact ⟨ih.1, safely_ops c s.cfg⟩
    | tester o rest cfg h hexec =>
        rw [h] at ih
        exact ⟨ih.1.exec ih.2.1 hexec, ih.2.2 cfg hexec⟩
    | call req => exact ih
    | run c b l h => exact ih
    | save q state h => exact ih
  exact (hrun k).1

/-- A server hosts one instance for ever. -/
theorem hosts_of_le (r : (configSystem n E V).Run) {j k : ℕ} (hjk : j ≤ k) {server : ℕ}
    (hlt : server < (r.state j).cfg.servers) :
    (r.state k).cfg.hosts server = (r.state j).cfg.hosts server := by
  have hrel := r.rel_of_le r.meets_true (R := fun s s' => s.cfg.servers ≤ s'.cfg.servers ∧
    ∀ server < s.cfg.servers, s'.cfg.hosts server = s.cfg.hosts server)
    (fun s => ⟨le_rfl, fun _ _ => rfl⟩) ?_ ?_ hjk
  · exact hrel.2 server hlt
  · rintro s₁ s₂ s₃ ⟨hle₁, hhosts₁⟩ ⟨hle₂, hhosts₂⟩
    refine ⟨hle₁.trans hle₂, fun server hlt => ?_⟩
    rw [hhosts₂ server (hlt.trans_le hle₁), hhosts₁ server hlt]
  · intro i a _ _ hstep
    generalize r.state (i + 1) = s' at hstep ⊢
    cases move_of_step hstep with
    | tester o rest cfg htodo hexec =>
        cases exec_of_some hexec with
        | makeServer i' =>
            refine ⟨Nat.le_succ _, fun server hlt => ?_⟩
            dsimp only
            rw [Function.update_of_ne hlt.ne]
        | _ => exact ⟨le_rfl, fun _ _ => rfl⟩
    | _ => exact ⟨le_rfl, fun _ _ => rfl⟩

end Safe

/-! ## What has been saved -/

/-- What was held is still held, or something newer. -/
def Below [LE V] : Option V → Option V → Prop
  | none, _ => True
  | some _, none => False
  | some v, some v' => v ≤ v'

instance decidableBelow [LE V] [DecidableLE V] : (v v' : Option V) → Decidable (Below v v')
  | none, _ => .isTrue trivial
  | some _, none => .isFalse id
  | some v, some v' => inferInstanceAs (Decidable (v ≤ v'))

section Below

variable [Preorder V]

theorem Below.refl (v : Option V) : Below v v := by
  cases v with
  | none => trivial
  | some v => exact le_rfl

theorem Below.trans {v₁ v₂ v₃ : Option V} (h₁ : Below v₁ v₂) (h₂ : Below v₂ v₃) :
    Below v₁ v₃ := by
  cases v₁ with
  | none => trivial
  | some v₁ =>
      cases v₂ with
      | none => exact h₁.elim
      | some v₂ =>
          cases v₃ with
          | none => exact h₂.elim
          | some v₃ => exact le_trans (show v₁ ≤ v₂ from h₁) h₂

end Below

namespace State

/-- The state in the `Persister` of server `i`, which the next instance will be given. -/
def persisted (s : State n E V) (i : Fin n) : Option V :=
  (s.cfg.saved i).bind fun q => (s.store q).readRaftState

/-- An instance saves its state with all that it has saved before. -/
def NoRollback [LE V] (s : State n E V) : Action n E V → Prop
  | .save q state => Below (s.store q).raftstate (some state)
  | _ => True

instance decidableNoRollback [LE V] [DecidableLE V] (s : State n E V) :
    (a : Action n E V) → Decidable (s.NoRollback a)
  | .save q state => decidableBelow (s.store q).raftstate (some state)
  | .command _ | .tester | .call _ | .run _ _ => .isTrue trivial

/-- Nothing has been written yet where the next `Persister` will be. -/
def Fresh (s : State n E V) : Prop :=
  ∀ q, s.cfg.persisters ≤ q → (s.store q).raftstate = none

/-- In every `Persister` and for every server, something newer is held. -/
def Grows [LE V] (s s' : State n E V) : Prop :=
  (∀ q, Below (s.store q).raftstate (s'.store q).raftstate) ∧
    ∀ i, Below (s.persisted i) (s'.persisted i)

end State

section Grows

variable [DecidableEq E] [Preorder V] {s s' : State n E V} {a : Action n E V}

omit [DecidableEq E] in
theorem State.Grows.refl (s : State n E V) : s.Grows s :=
  ⟨fun _ => .refl _, fun _ => .refl _⟩

omit [DecidableEq E] in
theorem State.Grows.trans {s₁ s₂ s₃ : State n E V} (h₁ : s₁.Grows s₂) (h₂ : s₂.Grows s₃) :
    s₁.Grows s₃ :=
  ⟨fun q => (h₁.1 q).trans (h₂.1 q), fun i => (h₁.2 i).trans (h₂.2 i)⟩

omit [DecidableEq E] in
/-- A server gets a fresh `Persister` with the state of its old one. -/
theorem State.grows_supersede (hvalid : s.cfg.Valid) (hfresh : s.Fresh) {i : Fin n}
    {ps : Persister V} (hps : ps.raftstate = s.persisted i)
    (hsaved : s'.cfg.saved = Function.update s.cfg.saved i (some s.cfg.persisters))
    (hpersisters : s'.cfg.persisters = s.cfg.persisters + 1)
    (hstore : s'.store = Function.update s.store s.cfg.persisters ps) :
    s.Grows s' ∧ s'.Fresh := by
  refine ⟨⟨fun q => ?_, fun i' => ?_⟩, fun q hq => ?_⟩
  · rcases eq_or_ne q s.cfg.persisters with rfl | hne
    · rw [hfresh _ le_rfl]
      trivial
    · rw [hstore, Function.update_of_ne hne]
      exact .refl _
  · rcases eq_or_ne i' i with rfl | hne
    · have hnew : s'.persisted i' = s.persisted i' := by
        rw [persisted, hsaved, Function.update_self, Option.bind_some, hstore, Function.update_self]
        exact hps
      rw [hnew]
      exact .refl _
    · have hsame : s'.persisted i' = s.persisted i' := by
        rw [persisted, persisted, hsaved, Function.update_of_ne hne, hstore]
        cases hq : s.cfg.saved i' with
        | none => rfl
        | some q => rw [Option.bind_some, Option.bind_some,
            Function.update_of_ne (hvalid.saved i' q hq).ne]
      rw [hsame]
      exact .refl _
  · rw [hpersisters] at hq
    rw [hstore, Function.update_of_ne (by omega)]
    exact hfresh q (by omega)

omit [Preorder V] in
/-- A step of the tester leaves the `Persister`s alone, or gives one server a fresh one with the
state of its old one. -/
theorem store_of_exec {o : Op n E} {cfg : Config n E} (hexec : s.cfg.exec o = some cfg) :
    (cfg.saved = s.cfg.saved ∧ cfg.persisters = s.cfg.persisters ∧
        s.cfg.store s.store o = s.store) ∨
      ∃ i ps, ps.raftstate = s.persisted i ∧
        cfg.saved = Function.update s.cfg.saved i (some s.cfg.persisters) ∧
        cfg.persisters = s.cfg.persisters + 1 ∧
        s.cfg.store s.store o = Function.update s.store s.cfg.persisters ps := by
  cases exec_of_some hexec with
  | notCopied i hsaved => exact .inl ⟨rfl, rfl, by rw [Config.store, hsaved]⟩
  | notRenewed i hsaved => exact .inl ⟨rfl, rfl, by rw [Config.store, hsaved]⟩
  | copied i q hsaved =>
      refine .inr ⟨i, (s.store q).copy, ?_, rfl, rfl, by rw [Config.store, hsaved]⟩
      rw [State.persisted, hsaved]
      rfl
  | renewed i q hsaved =>
      refine .inr ⟨i, Persister.makePersister.saveRaftState (s.store q).readRaftState, ?_, rfl, rfl,
        by rw [Config.store, hsaved]⟩
      rw [State.persisted, hsaved]
      rfl
  | makeSaved i =>
      cases hsaved : s.cfg.saved i with
      | none =>
          refine .inr ⟨i, .makePersister, ?_, rfl, rfl, by rw [Config.store, hsaved]⟩
          rw [State.persisted, hsaved]
          rfl
      | some q =>
          refine .inr ⟨i, (s.store q).copy, ?_, rfl, rfl, by rw [Config.store, hsaved]⟩
          rw [State.persisted, hsaved]
          rfl
  | _ => exact .inl ⟨rfl, rfl, rfl⟩

/-- Nothing that has been saved is lost in a step. -/
theorem State.grows_of_step (hvalid : s.cfg.Valid) (hfresh : s.Fresh) (hok : s.NoRollback a)
    (hstep : s.step a = some s') : s.Grows s' ∧ s'.Fresh := by
  cases move_of_step hstep with
  | command c h => exact ⟨.refl s, hfresh⟩
  | tester o rest cfg htodo hexec =>
      rcases store_of_exec hexec with
        ⟨hsaved, hpersisters, hstore⟩ | ⟨i, ps, hps, hsaved, hnext, hstore⟩
      · refine ⟨⟨fun q => ?_, fun i => ?_⟩, fun q hq => ?_⟩
        · dsimp only
          rw [hstore]
          exact .refl _
        · dsimp only [persisted]
          rw [hstore, hsaved]
          exact .refl _
        · dsimp only at hq ⊢
          rw [hstore]
          exact hfresh q (hpersisters ▸ hq)
      · exact grows_supersede hvalid hfresh hps hsaved hnext hstore
  | call req => exact ⟨.refl s, hfresh⟩
  | run c b l h => exact ⟨.refl s, hfresh⟩
  | save q state hq =>
      have hheld : ∀ q', Below (s.store q').raftstate
          (Function.update s.store q ((s.store q).saveRaftState (some state)) q').raftstate := by
        intro q'
        rcases eq_or_ne q' q with rfl | hne
        · rw [Function.update_self]
          exact hok
        · rw [Function.update_of_ne hne]
          exact .refl _
      refine ⟨⟨hheld, fun i => ?_⟩, fun q' hq' => ?_⟩
      · dsimp only [persisted]
        cases s.cfg.saved i with
        | none => trivial
        | some q' => exact hheld q'
      · dsimp only at hq' ⊢
        rw [Function.update_of_ne (by omega)]
        exact hfresh q' hq'

variable {r : (configSystem n E V).Run}

theorem fresh_run (hr : r.Meets State.NoRollback) (k : ℕ) : (r.state k).Fresh := by
  induction k with
  | zero =>
      rw [r.state_zero]
      exact fun _ _ => rfl
  | succ k ih =>
      rcases ha : r.act k with _ | a
      · rw [r.idle k ha]
        exact ih
      · exact (State.grows_of_step (valid_run r k) ih (hr k a ha) (r.taken k a ha)).2

/-- Nothing that has been saved is ever lost. -/
theorem grows_of_le (hr : r.Meets State.NoRollback) {j k : ℕ} (hjk : j ≤ k) :
    (r.state j).Grows (r.state k) := by
  refine r.rel_of_le hr (R := State.Grows) State.Grows.refl (fun _ _ _ => State.Grows.trans) ?_ hjk
  intro i a _ hok hstep
  exact (State.grows_of_step (valid_run r i) (fresh_run hr i) hok hstep).1

end Grows

/-- **What a call has been told is not lost.**  In every run of the tester, with any crashes and
restarts, any changes and faults of the network, and with old instances that go on: when a caller
has got a reply with `ok`, then a server ran the handler to completion, at the moment `j`, for
the instance that it hosts; and what this instance had saved by then, in its `Persister` number
`q`, is in the `Persister` of server number `i` from now on, whichever instance is running or
will be started with it. -/
theorem acknowledged_survives [DecidableEq E] [Preorder V] (r : (configSystem n E V).Run)
    (hsaves : r.Meets State.NoRollback) (c k : ℕ) (call : CallState E (Fin n))
    (hcall : (r.state k).calls[c]? = some call) (m : ReplyMsg) (hm : m ∈ call.replies)
    (hok : m.ok = true) :
    ∃ (i : Fin n) (server q j : ℕ), j < k ∧ r.act j = some (.run c (.finish m.reply)) ∧
      (∃ old, (r.state j).calls[c]? = some old ∧ old.dispatch = .running server) ∧
      (r.state k).cfg.hosts server = some q ∧
      ∀ l ≥ k, Below ((r.state j).store q).raftstate ((r.state l).persisted i) := by
  have hvouched := (past_run (labRun r) k c call hcall).replied m hm hok
  obtain ⟨i, server, l, -, hcompleted, hlk, -, hserver⟩ := hvouched
  obtain ⟨-, j, -, -, ⟨hact, old, hold, hrunning⟩, hjl⟩ := hcompleted
  obtain ⟨hlt, q, hhosts, hsaved⟩ := (valid_run r l).registered i server hserver
  refine ⟨i, server, q, j, hjl.trans hlk, act_of_labRun hact, ⟨old, hold, hrunning⟩, ?_, ?_⟩
  · rw [hosts_of_le r hlk.le hlt, hhosts]
  · intro l' hl'
    -- the server is still registered at the moment `l`, so that its instance saves there
    have hheld : ((r.state l).store q).raftstate = (r.state l).persisted i := by
      rw [State.persisted, hsaved]
      rfl
    have hthen := (grows_of_le hsaves hjl.le).1 q
    rw [hheld] at hthen
    exact hthen.trans ((grows_of_le hsaves (hlk.le.trans hl')).2 i)

/-- The test calls a function and waits for it. -/
def performed (c : Command n E) : List (Action n E V) :=
  .command c :: List.replicate c.ops.length .tester

/-- A server answers a call, is crashed and started again while its old instance goes on. -/
def answeredThenRestarted : List (Action 2 ℕ ℕ) :=
  List.flatten
    [performed (.start1 0 fun j => j), performed (.start1 1 fun j => 2 + j),
      performed (.connect 0), performed (.connect 1),
      [.call ⟨1, "Raft.AppendEntries"⟩, .run 0 .read, .run 0 (.start false), .run 0 .dispatch,
        .save 1 7, .run 0 (.finish [42]), .run 0 .receive, .run 0 .recheck,
        .run 0 (.answer false false), .run 0 .send, .command (.start1 1 fun j => 4 + j)],
      List.replicate 9 .tester, [.save 1 8], List.replicate 9 .tester]

theorem noRollback_answeredThenRestarted :
    ((configSystem 2 ℕ ℕ).ofList answeredThenRestarted).Meets State.NoRollback :=
  TransitionSystem.meets_ofList (by decide +kernel)

theorem acknowledged_survives_answeredThenRestarted :
    ∃ (i : Fin 2) (server q j : ℕ), j < 60 ∧
      ((configSystem 2 ℕ ℕ).ofList answeredThenRestarted).act j
        = some (.run 0 (.finish [42])) ∧
      (∃ old, (((configSystem 2 ℕ ℕ).ofList answeredThenRestarted).state j).calls[0]? = some old ∧
        old.dispatch = .running server) ∧
      (((configSystem 2 ℕ ℕ).ofList answeredThenRestarted).state 60).cfg.hosts server = some q ∧
      ∀ l ≥ 60, Below
        ((((configSystem 2 ℕ ℕ).ofList answeredThenRestarted).state j).store q).raftstate
        ((((configSystem 2 ℕ ℕ).ofList answeredThenRestarted).state l).persisted i) :=
  acknowledged_survives ((configSystem 2 ℕ ℕ).ofList answeredThenRestarted)
    noRollback_answeredThenRestarted 0 60
    ⟨⟨1, "Raft.AppendEntries"⟩, .done, .delivered, false, [⟨true, [42]⟩]⟩ (by decide +kernel)
    ⟨true, [42]⟩ (by decide) rfl

end RaftTest

end Mit6824
