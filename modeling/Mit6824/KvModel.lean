/-
# The key/value model of the checker

`linearizability/models.go`: `KvModel` describes the value of one key, and its
`Partition` splits a history by key, so that every part can be checked on its own.

* `kvModel`, with the order in which Go visits the map of `Partition` as a
  parameter;
* `kvMapSpec`: the object that a history is about, a map from keys to strings.  It
  is one `KvModel` for each key (`kvMapSpec_eq_keyed`);
* `kvModel_partition_exact`: the parts are the operations of the single keys, and
  a history is linearizable exactly when its parts are.
-/
import Mit6824.Grouping
import Mit6824.LinOperations

namespace Mit6824.Linearizability

open ObjectHistory Grouping

/-! ## The model -/

/-- `KvInput`: what a client asks for. -/
structure KvInput where
  /-- 0 is a get, 1 a put, anything else an append. -/
  op : UInt8
  key : String
  value : String
  deriving DecidableEq, Repr

/-- `KvOutput`: the answer, which only a get looks at. -/
structure KvOutput where
  value : String
  deriving DecidableEq, Repr

/-- The `interface{}` values of a history. -/
inductive KvValue where
  | nil
  | input (inp : KvInput)
  | output (out : KvOutput)
  deriving DecidableEq, Inhabited, Repr

/-- An operation on the key/value store. -/
structure KvOperation where
  input : KvInput
  call : ℤ
  output : KvOutput
  ret : ℤ
  deriving DecidableEq, Repr

/-- As an operation of any object. -/
def KvOperation.toOperation (op : KvOperation) : Operation KvValue :=
  ⟨.input op.input, op.call, .output op.output, op.ret⟩

/-- `v.(KvInput).Key`; the type assertion fails on other values, which a history of the store
does not have. -/
def KvValue.key : KvValue → String
  | .input inp => inp.key
  | _ => ""

/-- The function `Partition` of `KvModel`. -/
def kvPartition (ord : RangeOrder String) (history : List (Operation KvValue)) :
    List (List (Operation KvValue)) :=
  let m := group (fun v : Operation KvValue => v.input.key) id ∅ history
  (ord.visit m.keys).map fun k => (m.lookup k).getD []

/-- The function `Step` of `KvModel`, which knows the value of one key. -/
def kvStep (st : String) (input output : KvValue) : Bool × String :=
  match input, output with
  | .input inp, .output out =>
      if inp.op = 0 then (out.value == st, st)
      else if inp.op = 1 then (true, inp.value)
      else (true, st ++ inp.value)
  | _, _ => (false, st)

/-- `KvModel()`: the part of one key is checked against a string. -/
def kvModel (ord : RangeOrder String) : UserModel String KvValue where
  partition := some (kvPartition ord)
  partitionEvent := none
  init := ""
  step := kvStep
  equal := some shallowEqual

/-! ## The whole store -/

/-- A map from keys to strings: a get answers with the current value, a put replaces it and an
append adds to it. -/
def kvMapSpec : SeqSpec (String → String) KvValue KvValue where
  init := fun _ => ""
  step m input output :=
    match input, output with
    | .input inp, .output out =>
        if inp.op = 0 then (if out.value = m inp.key then some m else none)
        else if inp.op = 1 then some (Function.update m inp.key inp.value)
        else some (Function.update m inp.key (m inp.key ++ inp.value))
    | _, _ => none

/-- The map is one value for each key. -/
theorem kvMapSpec_eq_keyed (ord : RangeOrder String) :
    kvMapSpec = (fillDefault (kvModel ord)).spec.keyed KvValue.key := by
  have hstep : kvMapSpec.step = ((fillDefault (kvModel ord)).spec.keyed KvValue.key).step := by
    funext m x y
    cases x with
    | nil => rfl
    | output out => rfl
    | input inp =>
        cases y with
        | nil => rfl
        | input inp' => rfl
        | output out =>
            show _ = Option.map _ (if (kvStep (m inp.key) (.input inp) (.output out)).1 = true
              then some (kvStep (m inp.key) (.input inp) (.output out)).2 else none)
            by_cases h0 : inp.op = 0
            · by_cases hval : out.value = m inp.key
              · simp [kvMapSpec, kvStep, KvValue.key, h0, hval]
              · simp [kvMapSpec, kvStep, h0, hval]
            · by_cases h1 : inp.op = 1
              · simp [kvMapSpec, kvStep, KvValue.key, h1]
              · simp [kvMapSpec, kvStep, KvValue.key, h0, h1]
  exact congrArg (SeqSpec.mk fun _ => "") hstep

/-! ## The parts -/

/-- What `Partition` returns. -/
theorem kvPartition_eq (ord : RangeOrder String) (history : List (Operation KvValue)) :
    ∃ keys : List String, keys.Nodup ∧ (∀ k, k ∈ keys ↔ ∃ op ∈ history, op.input.key = k) ∧
      kvPartition ord history = keys.map fun k => history.filter fun op => op.input.key = k := by
  let m := group (fun v : Operation KvValue => v.input.key) id ∅ history
  refine ⟨ord.visit m.keys, (ord.perm _).nodup_iff.mpr m.keys_nodup, ?_, ?_⟩
  · intro k
    rw [(ord.perm _).mem_iff, ← AList.mem_keys, mem_group]
    simp
  · refine List.map_congr_left ?_
    intro k _
    rw [lookup_group]
    simp

/-- Together the parts are the history. -/
theorem flatten_kvPartition_perm (ord : RangeOrder String) (history : List (Operation KvValue)) :
    (kvPartition ord history).flatten.Perm history := by
  obtain ⟨keys, hnd, hkeys, hparts⟩ := kvPartition_eq ord history
  rw [hparts]
  exact flatten_filter_perm hnd fun op hop => (hkeys _).mpr ⟨op, hop, rfl⟩

/-- A history of the store is linearizable when its parts are. -/
theorem timedLinearizable_kvMapSpec_iff (ord : RangeOrder String)
    {history : List (Operation KvValue)} (hle : ∀ op ∈ history, op.call ≤ op.ret) :
    TimedLinearizable kvMapSpec history ↔
      ∀ part ∈ kvPartition ord history,
        TimedLinearizable (fillDefault (kvModel ord)).spec part := by
  obtain ⟨keys, -, hkeys, hparts⟩ := kvPartition_eq ord history
  have hoccurs : ∀ op ∈ history, op.input.key ∈ keys := fun op hop =>
    (hkeys _).mpr ⟨op, hop, rfl⟩
  rw [TimedLinearizable, kvMapSpec_eq_keyed ord, orderable_keyed_iff_of_mem hle hoccurs,
    hparts, List.forall_mem_map]
  exact Iff.rfl

/-- **Partitioning by key is exact.**  The parts are the operations of the keys that occur,
each key once and with all its operations, so that together they are the history; and the
history is linearizable as operations on a map exactly when every part is linearizable as
operations on one value. -/
theorem kvModel_partition_exact (ord : RangeOrder String) (history : List KvOperation)
    (hle : ∀ op ∈ history, op.call ≤ op.ret) :
    let ops := history.map KvOperation.toOperation
    let parts := (fillDefault (kvModel ord)).partition ops
    parts.flatten.Perm ops ∧
      (∃ keys : List String, keys.Nodup ∧ (∀ k, k ∈ keys ↔ ∃ op ∈ history, op.input.key = k) ∧
        parts = keys.map fun k =>
          (history.filter fun op => op.input.key = k).map KvOperation.toOperation) ∧
      (TimedLinearizable kvMapSpec ops ↔
        ∀ part ∈ parts, TimedLinearizable (fillDefault (kvModel ord)).spec part) := by
  intro ops parts
  obtain ⟨keys, hnd, hkeys, hparts⟩ := kvPartition_eq ord ops
  have hmem : ∀ k, k ∈ keys ↔ ∃ op ∈ history, op.input.key = k := by
    intro k
    rw [hkeys]
    constructor
    · rintro ⟨op, hop, hk⟩
      obtain ⟨op', hop', rfl⟩ := List.mem_map.mp hop
      exact ⟨op', hop', hk⟩
    · rintro ⟨op, hop, hk⟩
      exact ⟨op.toOperation, List.mem_map_of_mem hop, hk⟩
  have hfilter : ∀ k, (ops.filter fun op => op.input.key = k) =
      (history.filter fun op => op.input.key = k).map KvOperation.toOperation := by
    intro k
    rw [List.filter_map]
    rfl
  refine ⟨flatten_kvPartition_perm ord ops, ⟨keys, hnd, hmem, ?_⟩, ?_⟩
  · rw [show parts = _ from hparts]
    exact List.map_congr_left fun k _ => hfilter k
  · refine timedLinearizable_kvMapSpec_iff ord ?_
    intro op hop
    obtain ⟨op', hop', rfl⟩ := List.mem_map.mp hop
    exact hle op' hop'

/-- A put that overlaps a get of another key, and a later get that sees the put. -/
def twoKeys : List KvOperation :=
  [⟨⟨1, "x", "1"⟩, 0, ⟨""⟩, 3⟩, ⟨⟨0, "y", ""⟩, 1, ⟨""⟩, 2⟩, ⟨⟨0, "x", ""⟩, 4, ⟨"1"⟩, 5⟩]

theorem kvModel_partition_exact_twoKeys :
    (∀ op ∈ twoKeys, op.call ≤ op.ret) ∧
      (TimedLinearizable kvMapSpec (twoKeys.map KvOperation.toOperation) ↔
        ∀ part ∈ (fillDefault (kvModel ⟨List.reverse, List.reverse_perm⟩)).partition
            (twoKeys.map KvOperation.toOperation),
          TimedLinearizable (fillDefault (kvModel ⟨List.reverse, List.reverse_perm⟩)).spec part) :=
  ⟨by decide, (kvModel_partition_exact ⟨List.reverse, List.reverse_perm⟩ twoKeys
    (by decide)).2.2⟩

end Mit6824.Linearizability
