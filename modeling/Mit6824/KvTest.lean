/-
# The linearizability test of the key/value service

`kvraft/test_test.go`, `GenericTestLinearizability`: every client calls its Clerk again
and again and notes what it asked for, what it got, and the time on a common clock
before and after the call; in the end `CheckOperationsTimeout` checks the notes.

* A client reads the clock, calls its Clerk, reads the clock again and appends its note
  in separate steps, with any steps of the other clients, of the Clerks and of the
  servers in between.  So the notes are in no particular order;
* a client number stands for one run of the function literal, with the Clerk that
  `run_client` makes for it;
* the clock never goes back, but it may stand still.  The one thing that the test needs
  of it is that it moves on between the first reading and the call (`State.Timely`);
* `TestInv` is what holds along a run: the notes are about the calls that have
  returned, and what returned before a call by the times did so in the history of the
  service.
-/
import Mit6824.KvReplicated
import Mit6824.LinTimeout

namespace Mit6824

open ObjectHistory

/-! ## What the clients hear of a step -/

namespace KvService

variable {n : ℕ}

/-- The requests that the loops of the Clerks work on. -/
def requests (c : KvService n) (client : ℕ) : Option (KvInput × ℕ) :=
  (c.clerks client).loop.map fun loop => (loop.input, loop.requestId)

theorem requests_setClerk (c : KvService n) (client : ℕ) (ck : Clerk n) :
    (c.setClerk client ck).requests =
      Function.update c.requests client (ck.loop.map fun loop => (loop.input, loop.requestId)) := by
  funext client'
  by_cases hc : client' = client
  · subst hc
    simp only [requests, setClerk, Function.update_self]
  · simp only [requests, setClerk, Function.update_of_ne hc]

/-- A step begins an operation, ends one, or is not heard by any client. -/
inductive Heard (c : KvService n) : KvAction n → KvService n → Prop where
  | call (client : ℕ) (input : KvInput) (hidle : (c.clerks client).loop = none) :
      Heard c (.invoke client input) (c.invoked client input)
  | ret (client m : ℕ) (input : KvInput) (requestId : ℕ) (output : Option String)
      (hrequest : c.requests client = some (input, requestId)) :
      Heard c (.callReturns client m) (c.returned client requestId output)
  | silent (a : KvAction n) (c' : KvService n) (hhistory : c'.history = c.history)
      (hrequests : c'.requests = c.requests) : Heard c a c'

variable {c c' : KvService n} {a : KvAction n}

/-- A Clerk that goes on with its request is not heard. -/
theorem Heard.of_setClerk {client : ℕ} {ck : Clerk n}
    (hrequest : (ck.loop.map fun loop => (loop.input, loop.requestId)) = c.requests client)
    (hhistory : c'.history = c.history) (hclerks : c'.clerks = (c.setClerk client ck).clerks) :
    Heard c a c' := by
  refine .silent a c' hhistory ?_
  have hsame : c'.requests = (c.setClerk client ck).requests := by
    funext client'
    rw [requests, requests, hclerks]
  rw [hsame, requests_setClerk, hrequest, Function.update_eq_self]

/-- Only the Clerks are heard. -/
theorem step_heard (h : c.step a = some c') : Heard c a c' := by
  cases step_kvMove h with
  | invoke client input hidle => exact .call client input hidle
  | call client input requestId hloop =>
      refine .of_setClerk ?_ rfl rfl
      rw [requests, hloop]
      rfl
  | fail client input requestId m hloop =>
      refine .of_setClerk ?_ rfl rfl
      rw [requests, hloop]
      rfl
  | retry client k input requestId m hloop =>
      refine .of_setClerk ?_ rfl rfl
      rw [requests, hloop]
      rfl
  | finish client k input requestId m reply hloop =>
      refine .ret client k input requestId reply.output ?_
      rw [requests, hloop]
      rfl
  | _ => exact .silent _ _ rfl rfl

end KvService

namespace KvStack

variable {n : ℕ} {c c' : KvStack n} {a : KvStackAction n}

/-- The clients hear the Clerks and nothing else. -/
theorem step_heard (hstep : c.step a = some c') :
    (∃ b, a = .service b ∧ c.service.Heard b c'.service) ∨
      c'.service.history = c.service.history ∧ c'.service.requests = c.service.requests := by
  cases step_stackMove hstep with
  | service b service hlocal hservice => exact .inl ⟨b, rfl, KvService.step_heard hservice⟩
  | raft => exact .inr ⟨rfl, rfl⟩
  | startRead => exact .inr ⟨rfl, rfl⟩
  | startRefuse => exact .inr ⟨rfl, rfl⟩
  | startAppend => exact .inr ⟨rfl, rfl⟩
  | applySend => exact .inr ⟨rfl, rfl⟩

end KvStack

/-! ## The test -/

namespace KvTest

/-- What a client writes into `inp`. -/
def inp : KvInput → Linearizability.KvInput
  | .append key nv => ⟨2, key, nv⟩
  | .put key nv => ⟨1, key, nv⟩
  | .get key => ⟨0, key, ""⟩

/-- What a client writes into `out`, which only a `Get` sets. -/
def out : Option String → Linearizability.KvOutput
  | some v => ⟨v⟩
  | none => ⟨""⟩

/-- Where the goroutine of a client stands: at the head of its loop or behind it; with
`start` read; in the call of its Clerk; returned from it; with `end` read, so that `op` is
made but not appended. -/
inductive Client where
  | idle
  | started (start : ℤ)
  | calling (start : ℤ) (input : KvInput)
  | returned (start : ℤ) (input : KvInput) (output : Option String)
  | ended (op : Linearizability.KvOperation)
  deriving DecidableEq

/-- The reading of a client that is about to call its Clerk. -/
def Client.start? : Client → Option ℤ
  | .started start => some start
  | _ => none

/-- A client hears the events of its own Clerk. -/
def Client.hear : Client → KvEvent → Option Client
  | .started start, .call _ input => some (.calling start input)
  | .calling start input, .ret _ output => some (.returned start input output)
  | _, _ => none

theorem Client.hear_call {x y : Client} {id : ℕ × ℕ} {input : KvInput}
    (h : x.hear (.call id input) = some y) :
    ∃ start, x = .started start ∧ y = .calling start input := by
  cases x with
  | started start => exact ⟨start, rfl, (Option.some.inj h).symm⟩
  | idle => cases h
  | calling => cases h
  | returned => cases h
  | ended => cases h

theorem Client.hear_ret {x y : Client} {id : ℕ × ℕ} {output : Option String}
    (h : x.hear (.ret id output) = some y) :
    ∃ start input, x = .calling start input ∧ y = .returned start input output := by
  cases x with
  | calling start input => exact ⟨start, input, rfl, (Option.some.inj h).symm⟩
  | idle => cases h
  | started => cases h
  | returned => cases h
  | ended => cases h

/-- The service, the clock, the clients and the slice `operations`. -/
structure State (n : ℕ) where
  stack : KvStack n
  /-- `time.Since(begin)`. -/
  now : ℤ
  clients : ℕ → Client
  operations : List Linearizability.KvOperation

/-- The steps of the test. -/
inductive Action (n : ℕ) where
  /-- The clock moves on. -/
  | pass (ns : ℕ)
  | readStart (cli : ℕ)
  /-- A step of the service; a Clerk is called only by its client. -/
  | stack (a : KvStackAction n)
  | readEnd (cli : ℕ)
  | append (cli : ℕ)

variable {n : ℕ}

/-- A service that has just been started, at time 0, with idle clients. -/
def State.init (n : ℕ) : State n :=
  ⟨KvStack.init n, 0, fun _ => .idle, []⟩

/-- The test with client `cli` at another place. -/
def State.setClient (c : State n) (cli : ℕ) (x : Client) : State n :=
  { c with clients := Function.update c.clients cli x }

/-- One step of the test; `none` when the action is not enabled. -/
def State.step (c : State n) : Action n → Option (State n)
  | .pass ns => some { c with now := c.now + ns }
  | .readStart cli =>
      match c.clients cli with
      | .idle => some (c.setClient cli (.started c.now))
      | _ => none
  | .stack a => do
      let stack ← c.stack.step a
      match stack.service.history.drop c.stack.service.history.length with
      | [] => some { c with stack := stack }
      | e :: _ => ((c.clients e.id.1).hear e).map fun x =>
          { c.setClient e.id.1 x with stack := stack }
  | .readEnd cli =>
      match c.clients cli with
      | .returned start input output =>
          some (c.setClient cli (.ended ⟨inp input, start, out output, c.now⟩))
      | _ => none
  | .append cli =>
      match c.clients cli with
      | .ended op => some { c.setClient cli .idle with operations := c.operations ++ [op] }
      | _ => none

/-- The test on a service with `n + 1` servers as a transition system. -/
def testSystem (n : ℕ) : TransitionSystem (State n) (Action n) :=
  ⟨State.init n, State.step⟩

/-- The step that the service takes. -/
def Action.stack? : Action n → Option (KvStackAction n)
  | .stack a => some a
  | _ => none

/-- A step of the Clerks, the network or the handlers. -/
def service (a : KvAction n) : Action n :=
  .stack (.service a)

/-- An internal step of Raft. -/
def raft (a : Mit6824.Action (n + 1) Op) : Action n :=
  .stack (.raft a)

/-- The step of Raft, if there is one, is sound. -/
def State.Sound (c : State n) (a : Action n) : Prop :=
  ∀ b ∈ a.stack?, c.stack.SoundStep b

instance (c : State n) (a : Action n) : Decidable (c.Sound a) :=
  inferInstanceAs (Decidable (∀ b ∈ a.stack?, c.stack.SoundStep b))

/-- The client that calls its Clerk in this step. -/
def Action.caller? : Action n → Option ℕ
  | .stack (.service (.invoke cli _)) => some cli
  | _ => none

/-- The clock does not stand still between the reading of `start` and the call. -/
def State.Timely (c : State n) (a : Action n) : Prop :=
  ∀ cli ∈ a.caller?, ∀ start ∈ (c.clients cli).start?, start < c.now

instance (c : State n) (a : Action n) : Decidable (c.Timely a) :=
  inferInstanceAs
    (Decidable (∀ cli ∈ a.caller?, ∀ start ∈ (c.clients cli).start?, start < c.now))

/-! ## What one step can do -/

/-- The branches of the steps, with the tests that lead into them. -/
inductive TestMove (c : State n) : Action n → State n → Prop where
  | pass (ns : ℕ) : TestMove c (.pass ns) { c with now := c.now + ns }
  | readStart (cli : ℕ) (hclient : c.clients cli = .idle) :
      TestMove c (.readStart cli) (c.setClient cli (.started c.now))
  | silent (a : KvStackAction n) (stack : KvStack n)
      (hhistory : stack.service.history = c.stack.service.history)
      (hrequests : stack.service.requests = c.stack.service.requests) :
      TestMove c (.stack a) { c with stack := stack }
  | call (cli : ℕ) (input : KvInput) (start : ℤ) (stack : KvStack n)
      (hclient : c.clients cli = .started start)
      (hidle : (c.stack.service.clerks cli).loop = none)
      (hservice : stack.service = c.stack.service.invoked cli input) :
      TestMove c (.stack (.service (.invoke cli input)))
        { c.setClient cli (.calling start input) with stack := stack }
  | ret (cli m : ℕ) (input input' : KvInput) (requestId : ℕ) (output : Option String) (start : ℤ)
      (stack : KvStack n) (hclient : c.clients cli = .calling start input)
      (hrequest : c.stack.service.requests cli = some (input', requestId))
      (hservice : stack.service = c.stack.service.returned cli requestId output) :
      TestMove c (.stack (.service (.callReturns cli m)))
        { c.setClient cli (.returned start input output) with stack := stack }
  | readEnd (cli : ℕ) (start : ℤ) (input : KvInput) (output : Option String)
      (hclient : c.clients cli = .returned start input output) :
      TestMove c (.readEnd cli) (c.setClient cli (.ended ⟨inp input, start, out output, c.now⟩))
  | append (cli : ℕ) (op : Linearizability.KvOperation) (hclient : c.clients cli = .ended op) :
      TestMove c (.append cli)
        { c.setClient cli .idle with operations := c.operations ++ [op] }

variable {c c' : State n} {a : Action n}

/-- Every step is a move. -/
theorem testMove_of_step (h : c.step a = some c') : TestMove c a c' := by
  cases a with
  | pass ns =>
      obtain rfl := Option.some.inj h
      exact .pass ns
  | readStart cli =>
      dsimp only [State.step] at h
      split at h
      · rename_i hclient
        obtain rfl := Option.some.inj h
        exact .readStart cli hclient
      · cases h
  | stack a =>
      obtain ⟨stack, hstep, hnext⟩ := Option.bind_eq_some_iff.mp h
      rcases KvStack.step_heard hstep with ⟨b, rfl, hheard⟩ | ⟨hhistory, hrequests⟩
      · generalize hservice : stack.service = service at hheard
        cases hheard with
        | call cli input hidle =>
            have hdrop : stack.service.history.drop c.stack.service.history.length =
                [.call (cli, (c.stack.service.clerks cli).lastRequestId + 1) input] := by
              rw [hservice]
              exact List.drop_left
            rw [hdrop] at hnext
            obtain ⟨x, hx, rfl⟩ := Option.map_eq_some_iff.mp hnext
            obtain ⟨start, hclient, rfl⟩ := Client.hear_call hx
            exact .call cli input start stack hclient hidle hservice
        | ret cli m input requestId output hrequest =>
            have hdrop : stack.service.history.drop c.stack.service.history.length =
                [.ret (cli, requestId) output] := by
              rw [hservice]
              exact List.drop_left
            rw [hdrop] at hnext
            obtain ⟨x, hx, rfl⟩ := Option.map_eq_some_iff.mp hnext
            obtain ⟨start, input', hclient, rfl⟩ := Client.hear_ret hx
            exact .ret cli m input' input requestId output start stack hclient hrequest hservice
        | silent _ _ hhistory hrequests =>
            rw [← hservice] at hhistory hrequests
            rw [hhistory, List.drop_length] at hnext
            obtain rfl := Option.some.inj hnext
            exact .silent _ stack hhistory hrequests
      · rw [hhistory, List.drop_length] at hnext
        obtain rfl := Option.some.inj hnext
        exact .silent a stack hhistory hrequests
  | readEnd cli =>
      dsimp only [State.step] at h
      split at h
      · rename_i start input output hclient
        obtain rfl := Option.some.inj h
        exact .readEnd cli start input output hclient
      · cases h
  | append cli =>
      dsimp only [State.step] at h
      split at h
      · rename_i op hclient
        obtain rfl := Option.some.inj h
        exact .append cli op hclient
      · cases h

/-- The service takes its step. -/
theorem stack_of_step {b : KvStackAction n} (h : c.step a = some c') (hb : a.stack? = some b) :
    c.stack.step b = some c'.stack := by
  cases a with
  | stack a =>
      obtain rfl := Option.some.inj hb
      obtain ⟨stack, hstep, hnext⟩ := Option.bind_eq_some_iff.mp h
      rw [hstep]
      split at hnext
      · obtain rfl := Option.some.inj hnext
        rfl
      · obtain ⟨x, -, rfl⟩ := Option.map_eq_some_iff.mp hnext
        rfl
  | pass ns => cases hb
  | readStart cli => cases hb
  | readEnd cli => cases hb
  | append cli => cases hb

/-- The service stays as it is when it takes no step. -/
theorem stack_eq_of_step (h : c.step a = some c') (ha : a.stack? = none) :
    c'.stack = c.stack := by
  cases testMove_of_step h with
  | pass ns => rfl
  | readStart cli hclient => rfl
  | silent a stack hhistory hrequests => cases ha
  | call cli input start stack hclient hidle hservice => cases ha
  | ret cli m input input' requestId output start stack hclient hrequest hservice => cases ha
  | readEnd cli start input output hclient => rfl
  | append cli op hclient => rfl

/-- The service as a part of the test. -/
def stackPart : (testSystem n).Projection (kvStackSystem n) where
  state := State.stack
  act _ := Action.stack?
  init := rfl
  idle := stack_eq_of_step
  taken := stack_of_step

/-- The run of the service below. -/
def stackRun (r : (testSystem n).Run) : (kvStackSystem n).Run :=
  stackPart.run r

theorem meets_stackRun {r : (testSystem n).Run} (hok : r.Meets State.Sound) :
    (stackRun r).Meets KvStack.SoundStep :=
  stackPart.meets hok fun _ _ b h hb => h b hb

/-! ## The notes -/

/-- An operation with the times that its client has read. -/
abbrev Note := Span (ℕ × ℕ) KvInput (Option String) ℤ

/-- The `Operation` that the client appends. -/
def Note.op (a : Note) : Linearizability.KvOperation :=
  ⟨inp a.input, a.call, out a.output, a.ret⟩

section Notes

variable {h : List KvEvent} {start start' : ℕ × ℕ → ℤ} {now now' : ℤ} {a : Note}

/-- A note about an operation that has returned; `start` has the first readings of all
operations that have been called. -/
structure Sharp (h : List KvEvent) (start : ℕ × ℕ → ℤ) (now : ℤ) (a : Note) : Prop where
  call_mem : .call a.id a.input ∈ h
  ret_mem : .ret a.id a.output ∈ h
  call_eq : a.call = start a.id
  lt : a.call < a.ret
  ret_le : a.ret ≤ now
  precedes : ∀ {b x}, .call b x ∈ h → a.ret ≤ start b → Precedes h a.id b

theorem Sharp.later (ha : Sharp h start now a) (hle : now ≤ now') : Sharp h start now' a :=
  { ha with ret_le := ha.ret_le.trans hle }

/-- The next event: what is called from now on comes after every operation noted. -/
theorem Sharp.snoc (ha : Sharp h start now a) (e : KvEvent)
    (hstart : ∀ {b x}, .call b x ∈ h → start' b = start b) : Sharp (h ++ [e]) start' now a where
  call_mem := List.mem_append_left _ ha.call_mem
  ret_mem := List.mem_append_left _ ha.ret_mem
  call_eq := by rw [hstart ha.call_mem, ha.call_eq]
  lt := ha.lt
  ret_le := ha.ret_le
  precedes := by
    intro b x hb hle
    rcases List.mem_append.mp hb with hold | hnew
    · rw [hstart hold] at hle
      exact (ha.precedes hold hle).append [e]
    · obtain rfl := List.mem_singleton.mp hnew
      exact precedes_call x ha.ret_mem

end Notes

/-! ## What holds along a run -/

section Invariant

variable {h : List KvEvent} {start start' : ℕ × ℕ → ℤ} {now now' : ℤ} {notes : List Note}
  {request : Option (KvInput × ℕ)} {cli : ℕ}

/-- The call of a client that has not been noted, if there is one, has number `p`. -/
def Unnoted (h : List KvEvent) (notes : List Note) (cli : ℕ) (p : Option ℕ) : Prop :=
  ∀ r, ((∃ x, .call (cli, r) x ∈ h) ∧ (cli, r) ∉ notes.map Span.id) ↔ p = some r

/-- What is known of a client, by where it stands. -/
def Client.Ok (h : List KvEvent) (start : ℕ × ℕ → ℤ) (now : ℤ) (notes : List Note)
    (request : Option (KvInput × ℕ)) (cli : ℕ) : Client → Prop
  | .idle => request = none ∧ Unnoted h notes cli none
  | .started _ => request = none ∧ Unnoted h notes cli none
  | .calling t x => ∃ r, request = some (x, r) ∧ Unnoted h notes cli (some r) ∧
      .call (cli, r) x ∈ h ∧ start (cli, r) = t
  | .returned t x y => ∃ r, request = none ∧ Unnoted h notes cli (some r) ∧
      .call (cli, r) x ∈ h ∧ start (cli, r) = t ∧ .ret (cli, r) y ∈ h
  | .ended op => ∃ a : Note, request = none ∧ Unnoted h notes cli (some a.id.2) ∧
      a.id.1 = cli ∧ Sharp h start now a ∧ op = a.op

/-- The invariant of the test. -/
structure TestInv (c : State n) (start : ℕ × ℕ → ℤ) (notes : List Note) : Prop where
  operations : c.operations = notes.map Note.op
  nodup : (notes.map Span.id).Nodup
  sharp : ∀ a ∈ notes, Sharp c.stack.service.history start c.now a
  called : ∀ {id x}, .call id x ∈ c.stack.service.history → start id < c.now
  clients : ∀ cli, (c.clients cli).Ok c.stack.service.history start c.now notes
    (c.stack.service.requests cli) cli

theorem testInv_init : TestInv (State.init n) (fun _ => 0) [] where
  operations := rfl
  nodup := List.nodup_nil
  sharp := fun a ha => absurd ha List.not_mem_nil
  called := fun hx => absurd hx List.not_mem_nil
  clients := by
    intro cli
    refine ⟨rfl, fun r => ?_⟩
    simp [State.init, KvStack.init, KvService.init]

/-- Only the time goes on. -/
theorem Client.Ok.later {x : Client} (hx : x.Ok h start now notes request cli)
    (hle : now ≤ now') : x.Ok h start now' notes request cli := by
  cases x with
  | ended op =>
      obtain ⟨a, hrequest, hopen, hcli, ha, hop⟩ := hx
      exact ⟨a, hrequest, hopen, hcli, ha.later hle, hop⟩
  | idle => exact hx
  | started t => exact hx
  | calling t x => exact hx
  | returned t x y => exact hx

/-- An event of another client changes nothing for this one. -/
theorem Unnoted.snoc {p : Option ℕ} (hp : Unnoted h notes cli p) {e : KvEvent}
    (hne : ∀ r x, e ≠ .call (cli, r) x) : Unnoted (h ++ [e]) notes cli p := by
  intro r
  rw [← hp r]
  have hmem : ∀ x, .call (cli, r) x ∈ h ++ [e] ↔ .call (cli, r) x ∈ h := by
    intro x
    rw [List.mem_append, List.mem_singleton]
    exact or_iff_left (hne r x).symm
  simp only [hmem]

theorem Client.Ok.snoc {x : Client} (hx : x.Ok h start now notes request cli) {e : KvEvent}
    (hne : ∀ r x, e ≠ .call (cli, r) x)
    (hstart : ∀ {b x}, .call b x ∈ h → start' b = start b) :
    x.Ok (h ++ [e]) start' now notes request cli := by
  cases x with
  | idle => exact ⟨hx.1, hx.2.snoc hne⟩
  | started t => exact ⟨hx.1, hx.2.snoc hne⟩
  | calling t x =>
      obtain ⟨r, hrequest, hopen, hcall, ht⟩ := hx
      refine ⟨r, hrequest, hopen.snoc hne, List.mem_append_left _ hcall, ?_⟩
      rw [hstart hcall, ht]
  | returned t x y =>
      obtain ⟨r, hrequest, hopen, hcall, ht, hret⟩ := hx
      refine ⟨r, hrequest, hopen.snoc hne, List.mem_append_left _ hcall, ?_,
        List.mem_append_left _ hret⟩
      rw [hstart hcall, ht]
  | ended op =>
      obtain ⟨a, hrequest, hopen, hcli, ha, hop⟩ := hx
      exact ⟨a, hrequest, hopen.snoc hne, hcli, ha.snoc e hstart, hop⟩

/-- A note of another client changes nothing for this one. -/
theorem Unnoted.note {p : Option ℕ} (hp : Unnoted h notes cli p) {a : Note} (ha : a.id.1 ≠ cli) :
    Unnoted h (notes ++ [a]) cli p := by
  intro r
  rw [← hp r, List.map_append, List.mem_append, List.map_singleton, List.mem_singleton]
  have hne : (cli, r) ≠ a.id := by
    intro heq
    exact ha (congrArg Prod.fst heq).symm
  simp only [hne, or_false]

theorem Client.Ok.note {x : Client} (hx : x.Ok h start now notes request cli) {a : Note}
    (ha : a.id.1 ≠ cli) : x.Ok h start now (notes ++ [a]) request cli := by
  cases x with
  | idle => exact ⟨hx.1, hx.2.note ha⟩
  | started t => exact ⟨hx.1, hx.2.note ha⟩
  | calling t x =>
      obtain ⟨r, hrequest, hopen, hrest⟩ := hx
      exact ⟨r, hrequest, hopen.note ha, hrest⟩
  | returned t x y =>
      obtain ⟨r, hrequest, hopen, hrest⟩ := hx
      exact ⟨r, hrequest, hopen.note ha, hrest⟩
  | ended op =>
      obtain ⟨b, hrequest, hopen, hrest⟩ := hx
      exact ⟨b, hrequest, hopen.note ha, hrest⟩

variable {c c' : State n} {a : Action n}

/-- A client moves, and nothing else. -/
theorem TestInv.setClient (hi : TestInv c start notes) {cli : ℕ} {x : Client}
    (hx : x.Ok c.stack.service.history start c.now notes (c.stack.service.requests cli) cli) :
    TestInv (c.setClient cli x) start notes where
  operations := hi.operations
  nodup := hi.nodup
  sharp := hi.sharp
  called := hi.called
  clients := by
    refine (Function.forall_update_iff c.clients fun cli' x => x.Ok c.stack.service.history start
      c.now notes (c.stack.service.requests cli') cli').mpr ?_
    exact ⟨hx, fun cli' _ => hi.clients cli'⟩

/-- A client calls its Clerk, for the first time with this number. -/
theorem TestInv.call (hi : TestInv c start notes) {cli : ℕ} {input : KvInput} {t : ℤ}
    {stack : KvStack n} (hclient : c.clients cli = .started t) (htimely : t < c.now)
    (hfresh : ∀ x, .call (cli, (c.stack.service.clerks cli).lastRequestId + 1) x ∉
      c.stack.service.history)
    (hservice : stack.service = c.stack.service.invoked cli input) :
    ∃ start', TestInv { c.setClient cli (.calling t input) with stack := stack } start' notes := by
  set r := (c.stack.service.clerks cli).lastRequestId + 1 with hr
  have hstart : ∀ {b x}, .call b x ∈ c.stack.service.history →
      Function.update start (cli, r) t b = start b := by
    intro b x hb
    refine Function.update_of_ne ?_ t start
    rintro rfl
    exact hfresh x hb
  have hhistory : stack.service.history = c.stack.service.history ++ [.call (cli, r) input] := by
    rw [hservice]
    rfl
  have hrequests : stack.service.requests =
      Function.update c.stack.service.requests cli (some (input, r)) := by
    rw [hservice]
    exact KvService.requests_setClerk c.stack.service cli _
  refine ⟨Function.update start (cli, r) t, hi.operations, hi.nodup, ?_, ?_, ?_⟩
  · intro a ha
    show Sharp stack.service.history _ _ a
    rw [hhistory]
    exact (hi.sharp a ha).snoc _ hstart
  · intro id x hx
    replace hx : .call id x ∈ stack.service.history := hx
    rw [hhistory] at hx
    rcases List.mem_append.mp hx with hold | hnew
    · rw [hstart hold]
      exact hi.called hold
    · cases List.mem_singleton.mp hnew
      rw [Function.update_self]
      exact htimely
  · refine (Function.forall_update_iff c.clients fun cli' x => x.Ok stack.service.history
      (Function.update start (cli, r) t) c.now notes (stack.service.requests cli') cli').mpr ?_
    rw [hhistory, hrequests]
    constructor
    · have hidle := hi.clients cli
      rw [hclient] at hidle
      refine ⟨r, Function.update_self .., ?_, by simp, Function.update_self ..⟩
      intro r'
      by_cases hrr : r' = r
      · subst hrr
        refine iff_of_true ⟨⟨input, by simp⟩, ?_⟩ rfl
        intro hnoted
        obtain ⟨a, ha, hid⟩ := List.mem_map.mp hnoted
        exact hfresh a.input (hid ▸ (hi.sharp a ha).call_mem)
      · refine iff_of_false ?_ (by simpa using Ne.symm hrr)
        rintro ⟨⟨x, hx⟩, hnot⟩
        rcases List.mem_append.mp hx with hold | hnew
        · cases (hidle.2 r').mp ⟨⟨x, hold⟩, hnot⟩
        · cases List.mem_singleton.mp hnew
          exact hrr rfl
    · intro cli' hne
      rw [Function.update_of_ne hne]
      refine (hi.clients cli').snoc ?_ hstart
      intro r' x heq
      cases heq
      exact hne rfl

/-- A Clerk returns to its client. -/
theorem TestInv.ret (hi : TestInv c start notes) {cli requestId : ℕ} {input input' : KvInput}
    {output : Option String} {t : ℤ} {stack : KvStack n}
    (hclient : c.clients cli = .calling t input)
    (hrequest : c.stack.service.requests cli = some (input', requestId))
    (hservice : stack.service = c.stack.service.returned cli requestId output) :
    TestInv { c.setClient cli (.returned t input output) with stack := stack } start notes := by
  have hhistory : stack.service.history =
      c.stack.service.history ++ [.ret (cli, requestId) output] := by
    rw [hservice]
    rfl
  have hrequests : stack.service.requests = Function.update c.stack.service.requests cli none := by
    rw [hservice]
    exact KvService.requests_setClerk c.stack.service cli _
  refine ⟨hi.operations, hi.nodup, ?_, ?_, ?_⟩
  · intro a ha
    show Sharp stack.service.history _ _ a
    rw [hhistory]
    exact (hi.sharp a ha).snoc _ fun _ => rfl
  · intro id x hx
    replace hx : .call id x ∈ stack.service.history := hx
    rw [hhistory] at hx
    rcases List.mem_append.mp hx with hold | hnew
    · exact hi.called hold
    · cases List.mem_singleton.mp hnew
  · refine (Function.forall_update_iff c.clients fun cli' x => x.Ok stack.service.history start
      c.now notes (stack.service.requests cli') cli').mpr ?_
    rw [hhistory, hrequests]
    have hno : ∀ cli' r x, (.ret (cli, requestId) output : KvEvent) ≠ .call (cli', r) x := by
      intro cli' r x heq
      cases heq
    constructor
    · have hcalling := hi.clients cli
      rw [hclient] at hcalling
      obtain ⟨r, hr, hopen, hcall, ht⟩ := hcalling
      rw [hrequest] at hr
      obtain ⟨rfl, rfl⟩ := Prod.mk.inj (Option.some.inj hr)
      exact ⟨requestId, Function.update_self .., hopen.snoc (hno cli),
        List.mem_append_left _ hcall, ht, by simp⟩
    · intro cli' hne
      rw [Function.update_of_ne hne]
      exact (hi.clients cli').snoc (hno cli') fun _ => rfl

/-- A client reads the clock again: everything that has been called was so before. -/
theorem TestInv.readEnd (hi : TestInv c start notes) {cli : ℕ} {t : ℤ} {input : KvInput}
    {output : Option String} (hclient : c.clients cli = .returned t input output) :
    TestInv (c.setClient cli (.ended ⟨inp input, t, out output, c.now⟩)) start notes := by
  have hreturned := hi.clients cli
  rw [hclient] at hreturned
  obtain ⟨r, hrequest, hopen, hcall, ht, hret⟩ := hreturned
  refine hi.setClient ⟨⟨(cli, r), input, output, t, c.now⟩, hrequest, hopen, rfl, ?_, rfl⟩
  refine ⟨hcall, hret, ht.symm, ht ▸ hi.called hcall, le_rfl, ?_⟩
  intro b x hb hle
  exact absurd (hi.called hb) (not_lt.mpr hle)

/-- A client appends its note. -/
theorem TestInv.append (hi : TestInv c start notes) {cli : ℕ} {op : Linearizability.KvOperation}
    (hclient : c.clients cli = .ended op) :
    ∃ notes', TestInv { c.setClient cli .idle with operations := c.operations ++ [op] } start
      notes' := by
  have hended := hi.clients cli
  rw [hclient] at hended
  obtain ⟨a, hrequest, hopen, rfl, hsharp, rfl⟩ := hended
  have hnot : a.id ∉ notes.map Span.id := ((hopen a.id.2).mpr rfl).2
  refine ⟨notes ++ [a], ?_, ?_, ?_, hi.called, ?_⟩
  · rw [List.map_append, ← hi.operations]
    rfl
  · rw [List.map_append, List.map_singleton, List.nodup_append]
    refine ⟨hi.nodup, List.nodup_singleton _, ?_⟩
    intro id hid id' hid' heq
    rw [List.mem_singleton.mp hid'] at heq
    exact hnot (heq ▸ hid)
  · intro b hb
    rcases List.mem_append.mp hb with hold | hnew
    · exact hi.sharp b hold
    · rw [List.mem_singleton.mp hnew]
      exact hsharp
  · refine (Function.forall_update_iff c.clients fun cli' x => x.Ok c.stack.service.history start
      c.now (notes ++ [a]) (c.stack.service.requests cli') cli').mpr ?_
    constructor
    · refine ⟨hrequest, fun r => iff_of_false ?_ (by simp)⟩
      rintro ⟨hx, hnoted⟩
      rw [List.map_append, List.mem_append, not_or] at hnoted
      -- the call that was open has now been noted
      have hr := (hopen r).mp ⟨hx, hnoted.1⟩
      refine hnoted.2 ?_
      rw [← Option.some.inj hr]
      simp
    · intro cli' hne
      exact (hi.clients cli').note hne.symm

/-- One step keeps the invariant. -/
theorem TestInv.step (hi : TestInv c start notes) (htimely : c.Timely a)
    (hclerks : ∀ client, ClerkOk client (c.stack.service.clerks client) c.stack.service.calls
      c.stack.service.history)
    (hstep : c.step a = some c') : ∃ start' notes', TestInv c' start' notes' := by
  cases testMove_of_step hstep with
  | pass ns =>
      have hle : c.now ≤ c.now + ns := by omega
      refine ⟨start, notes, hi.operations, hi.nodup, ?_, ?_, ?_⟩
      · exact fun a ha => (hi.sharp a ha).later hle
      · exact fun hx => (hi.called hx).trans_le hle
      · exact fun cli => (hi.clients cli).later hle
  | readStart cli hclient =>
      have hidle := hi.clients cli
      rw [hclient] at hidle
      exact ⟨start, notes, hi.setClient hidle⟩
  | silent a stack hhistory hrequests =>
      refine ⟨start, notes, hi.operations, hi.nodup, ?_, ?_, ?_⟩
      · intro a ha
        show Sharp stack.service.history _ _ a
        rw [hhistory]
        exact hi.sharp a ha
      · intro id x hx
        replace hx : .call id x ∈ stack.service.history := hx
        rw [hhistory] at hx
        exact hi.called hx
      · intro cli
        show Client.Ok stack.service.history _ _ _ (stack.service.requests cli) _ _
        rw [hhistory, hrequests]
        exact hi.clients cli
  | call cli input t stack hclient hidle hservice =>
      have hlt : t < c.now := htimely cli rfl t (by rw [hclient]; rfl)
      obtain ⟨start', hi'⟩ := hi.call hclient hlt (fun x => (hclerks cli).fresh hidle) hservice
      exact ⟨start', notes, hi'⟩
  | ret cli m input input' requestId output t stack hclient hrequest hservice =>
      exact ⟨start, notes, hi.ret hclient hrequest hservice⟩
  | readEnd cli t input output hclient => exact ⟨start, notes, hi.readEnd hclient⟩
  | append cli op hclient =>
      obtain ⟨notes', hi'⟩ := hi.append hclient
      exact ⟨start, notes', hi'⟩

theorem testInv_run (r : (testSystem n).Run) (hok : r.Meets State.Sound)
    (htimely : r.Meets State.Timely) (k : ℕ) :
    ∃ start notes, TestInv (r.state k) start notes := by
  induction k with
  | zero =>
      rw [r.state_zero]
      exact ⟨_, [], testInv_init⟩
  | succ k ih =>
      obtain ⟨start, notes, hi⟩ := ih
      rcases ha : r.act k with _ | a
      · rw [r.idle k ha]
        exact ⟨start, notes, hi⟩
      · obtain ⟨pool, agreed, g, hstack⟩ := KvStack.stackInv_run (stackRun r) (meets_stackRun hok) k
        exact hi.step (htimely k a ha) hstack.kv.clerks (r.taken k a ha)

end Invariant

/-! ## The check at the end -/

/-- What the object of the service does, in the terms of the checker. -/
theorem kvMapSpec_step {m m' : String → String} {x : KvInput} {y : Option String}
    (h : kvSpec.step m x y = some m') :
    Linearizability.kvMapSpec.step m (.input (inp x)) (.output (out y)) = some m' := by
  cases x with
  | get key =>
      cases y with
      | none => cases h
      | some v => exact h
  | put key value =>
      cases y with
      | none => exact h
      | some v => cases h
  | append key value =>
      cases y with
      | none => exact h
      | some v => cases h

/-- When no client is under way any more, the notes are about the whole history. -/
theorem TestInv.noted {c : State n} {start : ℕ × ℕ → ℤ} {notes : List Note}
    (hi : TestInv c start notes) (hdone : ∀ e ∈ c.stack.service.history, c.clients e.id.1 = .idle) :
    Noted c.stack.service.history notes where
  nodup := hi.nodup
  call_mem := fun a ha => (hi.sharp a ha).call_mem
  ret_mem := fun a ha => (hi.sharp a ha).ret_mem
  complete := by
    intro id x hx
    by_contra hnot
    have hidle := hi.clients id.1
    rw [show c.clients id.1 = .idle from hdone _ hx] at hidle
    cases (hidle.2 id.2).mp ⟨⟨x, hx⟩, hnot⟩
  precedes := by
    intro a ha b hb hle
    rw [(hi.sharp b hb).call_eq] at hle
    exact (hi.sharp a ha).precedes (hi.sharp b hb).call_mem hle

section Check

open Linearizability Grouping

/-- At the end of a run the operations can be put into an order that the store accepts. -/
theorem orderable_operations (r : (testSystem n).Run) (hok : r.Meets State.Sound)
    (htimely : r.Meets State.Timely) {k : ℕ}
    (hdone : ∀ e ∈ (r.state k).stack.service.history, (r.state k).clients e.id.1 = .idle) :
    let ops := (r.state k).operations.map KvOperation.toOperation
    (∀ op ∈ ops, op.call < op.ret) ∧
      Orderable kvMapSpec Linearizability.Operation.io (fun a b => a.ret ≤ b.call) ops
        kvMapSpec.init := by
  intro ops
  obtain ⟨start, notes, hi⟩ := testInv_run r hok htimely k
  obtain ⟨pool, agreed, g, hstack⟩ := KvStack.stackInv_run (stackRun r) (meets_stackRun hok) k
  have hops : ops = notes.map fun a => (Note.op a).toOperation := by
    show (r.state k).operations.map _ = _
    rw [hi.operations, List.map_map]
    rfl
  rw [hops]
  constructor
  · intro op hop
    obtain ⟨a, ha, rfl⟩ := List.mem_map.mp hop
    exact (hi.sharp a ha).lt
  · obtain ⟨order, hlin⟩ := hstack.kv.leveling.linearizable
    exact (hlin.orderable (hi.noted hdone) hstack.kv.history.call_unique).map
      (f := fun x => KvValue.input (inp x)) (g := fun y => KvValue.output (out y)) kvMapSpec_step
      (fun _ => rfl) (fun _ _ hle => hle)

/-- **The service passes its linearizability test.**  Take a run of the test in which Raft
elects, starts and commits soundly and the clock moves on between the first reading and the
call, with any losses, crashes and interleavings, up to a moment when every client that has
called its Clerk is back at the head of its loop.  Then `CheckOperationsTimeout` does not
return `false` on the operations noted, whatever the order of the map, of the entries with
equal times and of the verdicts, and whenever its time is over; and given the time it returns
`true`. -/
theorem linearizability_test_passes (r : (testSystem n).Run) (hok : r.Meets State.Sound)
    (htimely : r.Meets State.Timely) {k : ℕ}
    (hdone : ∀ e ∈ (r.state k).stack.service.history, (r.state k).clients e.id.1 = .idle)
    (ord : RangeOrder String) (so : Sorting KvValue) (timeout : ℤ) :
    let ops := (r.state k).operations.map KvOperation.toOperation
    (∀ arrivals fuel,
      checkOperationsTimeout (kvModel ord) so ops timeout arrivals fuel ≠ some false) ∧
    (ops ≠ [] → ∃ n, ∀ fuel ≥ n, ∀ (order : List ℕ) (late : List Arrival),
      order.Perm (List.range (operationParts (kvModel ord) so ops).length) →
        checkOperationsTimeout (kvModel ord) so ops timeout (order.map .result ++ late) fuel =
          some true) := by
  intro ops
  obtain ⟨hlt, horder⟩ := orderable_operations r hok htimely hdone
  obtain ⟨hsafe, hlive⟩ := checkOperationsTimeout_of_accepts (accepts_kvParts ord so hlt horder)
    timeout
  exact ⟨hsafe, fun hne => hlive (operationParts_kvModel_ne_nil hne)⟩

/-- The server elected in the run below. -/
def leader : Fin 3 := 0

/-- A `Put` of client `7` and a `Get` of client `8` that overlap; the `Put` is noted last. -/
def putAndGet : (testSystem 2).Run :=
  (testSystem 2).ofList
    [raft (.electionTimeout leader), raft (.deliver 0), raft (.deliver 2), .readStart 7, .pass 1,
      service (.invoke 7 (.put "k" "a")), service (.call 7), service (.request 0),
      .stack (.startRead 0), .stack (.startAppend leader 0), service (.register 0),
      .readStart 8, .pass 2, service (.invoke 8 (.get "k")), service (.call 8),
      service (.request 1), .stack (.startRead 1), .stack (.startAppend leader 0),
      service (.register 1), raft (.sendHeartbeat leader 0), raft (.deliver 3),
      raft (.deliver 4), .stack (.applySend leader 0), service (.notify leader 0),
      service (.receive 0), service (.unregister 0), raft (.applyStore leader 0),
      .stack (.applySend leader 0), service (.notify leader 0), service (.receive 1),
      service (.unregister 1), service (.read 1), service (.callReturns 8 1), .readEnd 8,
      .append 8, .pass 1, service (.callReturns 7 0), .readEnd 7, .append 7]

/-- The check accepts the operations of that run, also when its time is over right after the
verdict. -/
theorem linearizability_test_passes_putAndGet :
    putAndGet.Meets State.Sound ∧ putAndGet.Meets State.Timely ∧
      (∀ e ∈ (putAndGet.state 39).stack.service.history,
        (putAndGet.state 39).clients e.id.1 = .idle) ∧
      (putAndGet.state 39).operations =
        [⟨⟨0, "k", ""⟩, 1, ⟨"a"⟩, 3⟩, ⟨⟨1, "k", "a"⟩, 0, ⟨""⟩, 4⟩] ∧
      ∃ n, ∀ fuel ≥ n, checkOperationsTimeout (kvModel ⟨id, List.Perm.refl⟩) byTime
        ((putAndGet.state 39).operations.map KvOperation.toOperation) 1000000000
        [.result 0, .timeout] fuel = some true := by
  have hok : putAndGet.Meets State.Sound := TransitionSystem.meets_ofList (by decide +kernel)
  have htimely : putAndGet.Meets State.Timely := TransitionSystem.meets_ofList (by decide +kernel)
  have hdone : ∀ e ∈ (putAndGet.state 39).stack.service.history,
      (putAndGet.state 39).clients e.id.1 = .idle := by decide +kernel
  refine ⟨hok, htimely, hdone, by decide +kernel, ?_⟩
  obtain ⟨n, hn⟩ := (linearizability_test_passes putAndGet hok htimely hdone
    ⟨id, List.Perm.refl⟩ byTime 1000000000).2 (by decide +kernel)
  exact ⟨n, fun fuel hle => hn fuel hle [0] [.timeout] (by decide +kernel)⟩

end Check

end KvTest

end Mit6824
