/-
# Checking timed histories

`CheckOperations` of `linearizability.go`: a history is a list of operations, each
with the times of its call and of its return.  It is partitioned, the entries of
every part are sorted by time, linked and searched by a goroutine of its own, and
a loop collects the verdicts.

The order in which `sort.Sort` leaves entries of the same time is not specified,
so the sort is any function that permutes its argument and sorts it (`Sorting`).
`CheckOperations` then decides linearizability of every history with given times
exactly when no operation returns at the instant at which an operation is called
(`checkOperations_decides_iff`):

* when no return meets a call, the sorted entries are a complete history and
  their order is the order of the times (`makeEntries_complete`,
  `returnsBefore_makeEntries`), whatever the sort does with the other ties;
* when a return meets the call of another operation, a sort may put the return
  first, and two overlapping operations become ordered;
* when an operation returns at the instant of its own call, a sort may put its
  return before its call.  Such a call is never taken out of the list, and the
  verdict is never `true` (`checkSingle_ne_true_of_orphan`).
-/
import Mit6824.LinOrphan
import Mit6824.LinSearch
import Mit6824.Locality
import Mathlib.Data.List.Permutation
import Mathlib.Data.List.Sort

namespace Mit6824.Linearizability

open LinkedList ObjectHistory

variable {σ V : Type}

/-! ## Histories, models and the entry points -/

/-- An operation with the times of its call and of its return. -/
structure Operation (V : Type) where
  input : V
  call : ℤ
  output : V
  ret : ℤ
  deriving DecidableEq, Inhabited, Repr

/-- `EventKind`. -/
inductive EventKind where
  | callEvent
  | returnEvent
  deriving DecidableEq, Repr

/-- A call or a return in a history that is a list of events. -/
structure Event (V : Type) where
  kind : EventKind
  value : V
  id : ℕ
  deriving DecidableEq, Repr

/-- `Model` as its users fill it in; three of its functions may be nil. -/
structure UserModel (σ V : Type) where
  partition : Option (List (Operation V) → List (List (Operation V)))
  partitionEvent : Option (List (Event V) → List (List (Event V)))
  init : σ
  step : σ → V → V → Bool × σ
  equal : Option (σ → σ → Bool)

/-- A model without nil functions. -/
structure FilledModel (σ V : Type) extends Model σ V where
  partition : List (Operation V) → List (List (Operation V))
  partitionEvent : List (Event V) → List (List (Event V))

/-- One part, the whole history. -/
def noPartition (history : List (Operation V)) : List (List (Operation V)) :=
  [history]

/-- One part, the whole history. -/
def noPartitionEvent (history : List (Event V)) : List (List (Event V)) :=
  [history]

/-- States are compared with `==`. -/
def shallowEqual [BEq σ] (state1 state2 : σ) : Bool :=
  state1 == state2

/-- The functions that are nil get their defaults. -/
def fillDefault [BEq σ] (model : UserModel σ V) : FilledModel σ V where
  init := model.init
  step := model.step
  equal := model.equal.getD shallowEqual
  partition := model.partition.getD noPartition
  partitionEvent := model.partitionEvent.getD noPartitionEvent

/-- `shallowEqual` respects every model. -/
theorem congruent_of_equal_none [BEq σ] [LawfulBEq σ] {model : UserModel σ V}
    (h : model.equal = none) : (fillDefault model).Congruent := by
  have hequal : ∀ s t, (fillDefault model).equal s t = true ↔ s = t := by
    intro s t
    rw [fillDefault, h]
    exact beq_iff_eq
  constructor
  · constructor
    · intro s
      exact (hequal s s).mpr rfl
    · intro s t hst
      rw [hequal] at hst ⊢
      exact hst.symm
    · intro s t u hst htu
      rw [hequal] at hst htu ⊢
      exact hst.trans htu
  · intro s t x y hst
    rw [(hequal s t).mp hst]
  · intro s t x y hst _
    rw [(hequal s t).mp hst]
    exact (hequal _ _).mpr rfl

/-- What is known of `sort.Sort(byTime(entries))`. -/
structure Sorting (V : Type) where
  sort : List (Entry V) → List (Entry V)
  perm : ∀ l, (sort l).Perm l
  sorted : ∀ l, (sort l).Pairwise fun a b => ¬ b.time < a.time

/-- The loop of `makeEntries`. -/
def listEntries : ℕ → List (Operation V) → List (Entry V)
  | _, [] => []
  | id, elem :: history =>
      ⟨.callEntry, elem.input, id, elem.call⟩ :: ⟨.returnEntry, elem.output, id, elem.ret⟩ ::
        listEntries (id + 1) history

/-- A call and a return for each operation, sorted by their times. -/
def makeEntries (so : Sorting V) (history : List (Operation V)) : List (Entry V) :=
  so.sort (listEntries 0 history)

/-- What the `select` of the collecting loop receives: the verdict of a part, or the
end of the time. -/
inductive Arrival where
  | result (part : ℕ)
  | timeout
  deriving DecidableEq, Repr

/-- The collecting loop; `verdict kill part` is what the goroutine of a part delivers when
it has read `kill`.  It blocks when nothing arrives any more. -/
def collect (verdict : ℤ → ℕ → Option Bool) (parts : ℕ) (timeout : ℤ) (ok : Bool) (kill : ℤ)
    (count : ℕ) : List Arrival → Option Bool
  | [] => none
  | .timeout :: _ => if 0 < timeout then some ok else none
  | .result part :: rest => do
      let result ← verdict kill part
      let ok := ok && result
      -- `kill` is set on the way out, when nothing is received any more
      if !ok then some ok
      else if count + 1 ≥ parts then some ok
      else collect verdict parts timeout ok kill (count + 1) rest

/-- `CheckOperationsTimeout`, where `arrivals` is what the collecting loop receives. -/
def checkOperationsTimeout [BEq σ] [Inhabited V] (model : UserModel σ V) (so : Sorting V)
    (history : List (Operation V)) (timeout : ℤ) (arrivals : List Arrival) (fuel : ℕ) :
    Option Bool :=
  let model := fillDefault model
  let partitions := model.partition history
  let verdict := fun kill part => (partitions[part]?).bind fun subhistory =>
    let l := makeLinkedEntries (makeEntries so subhistory)
    checkSingle model.toModel l.1 l.2 (fun _ => kill) fuel
  collect verdict partitions.length timeout true 0 0 arrivals

/-- `CheckOperations`, when the goroutines deliver their verdicts in the order `parts`. -/
def checkOperations [BEq σ] [Inhabited V] (model : UserModel σ V) (so : Sorting V)
    (history : List (Operation V)) (parts : List ℕ) (fuel : ℕ) : Option Bool :=
  checkOperationsTimeout model so history 0 (parts.map .result) fuel

/-! ## Linearizability of timed histories -/

/-- The input and the output. -/
def Operation.io (op : Operation V) : V × V :=
  (op.input, op.output)

/-- The times of the call and of the return. -/
def Operation.times (op : Operation V) : ℤ × ℤ :=
  (op.call, op.ret)

/-- The operations have an order that puts an operation behind those that returned before
its call and that the object accepts. -/
def TimedLinearizable (S : SeqSpec σ V V) (history : List (Operation V)) : Prop :=
  Orderable S Operation.io (fun a b => a.ret < b.call) history S.init

/-- `CheckOperations` returns one verdict, for every listing of the operations and every
order of the verdicts of the parts, and it is the right one. -/
def Decides [BEq σ] [Inhabited V] (model : UserModel σ V) (so : Sorting V)
    (history : List (Operation V)) : Prop :=
  ∃ ok, (ok = true ↔ TimedLinearizable (fillDefault model).spec history) ∧
    ∀ history', history'.Perm history → ∃ n, ∀ fuel ≥ n, ∀ parts : List ℕ,
      parts.Perm (List.range ((fillDefault model).partition history').length) →
        checkOperations model so history' parts fuel = some ok

/-! ## The entries of a history -/

/-- The entry of the call of an operation. -/
def Operation.callEntry (op : Operation V) (id : ℕ) : Entry V :=
  ⟨.callEntry, op.input, id, op.call⟩

/-- The entry of the return of an operation. -/
def Operation.returnEntry (op : Operation V) (id : ℕ) : Entry V :=
  ⟨.returnEntry, op.output, id, op.ret⟩

theorem mem_listEntries {n : ℕ} {history : List (Operation V)} {e : Entry V} :
    e ∈ listEntries n history ↔ ∃ (i : ℕ) (op : Operation V), history[i]? = some op ∧
      (e = op.callEntry (n + i) ∨ e = op.returnEntry (n + i)) := by
  induction history generalizing n with
  | nil => simp [listEntries]
  | cons elem history ih =>
      have htail := ih (n := n + 1)
      rw [listEntries, List.mem_cons, List.mem_cons, htail]
      constructor
      · rintro (rfl | rfl | ⟨i, op, hi, he⟩)
        · exact ⟨0, elem, rfl, .inl rfl⟩
        · exact ⟨0, elem, rfl, .inr rfl⟩
        · refine ⟨i + 1, op, hi, ?_⟩
          rw [show n + (i + 1) = n + 1 + i by omega]
          exact he
      · rintro ⟨i, op, hi, he⟩
        cases i with
        | zero =>
            obtain rfl : elem = op := Option.some.inj hi
            rcases he with rfl | rfl
            · exact .inl rfl
            · exact .inr (.inl rfl)
        | succ i =>
            refine .inr (.inr ⟨i, op, hi, ?_⟩)
            rw [show n + 1 + i = n + (i + 1) by omega]
            exact he

/-- Every entry stands once. -/
theorem nodup_listEntries (n : ℕ) (history : List (Operation V)) :
    (listEntries n history).Nodup := by
  induction history generalizing n with
  | nil => exact List.nodup_nil
  | cons elem history ih =>
      -- the identities of the others are larger
      have hid : ∀ e ∈ listEntries (n + 1) history, e.id ≠ n := by
        intro e he
        obtain ⟨j, op, -, rfl | rfl⟩ := mem_listEntries.mp he
        · exact (show n < n + 1 + j by omega).ne'
        · exact (show n < n + 1 + j by omega).ne'
      rw [listEntries, List.nodup_cons, List.nodup_cons, List.mem_cons]
      refine ⟨?_, ?_, ih (n + 1)⟩
      · rintro (heq | hin)
        · cases congrArg Entry.kind heq
        · exact hid _ hin rfl
      · intro hin
        exact hid _ hin rfl

/-- The two entries of an operation. -/
theorem filter_listEntries {n i : ℕ} {history : List (Operation V)} {op : Operation V}
    (hi : history[i]? = some op) :
    (listEntries n history).filter (fun e => e.id = n + i) =
      [op.callEntry (n + i), op.returnEntry (n + i)] := by
  induction history generalizing n i with
  | nil => cases hi
  | cons elem history ih =>
      rw [listEntries]
      cases i with
      | zero =>
          obtain rfl : elem = op := Option.some.inj hi
          rw [List.filter_cons_of_pos (by simp), List.filter_cons_of_pos (by simp)]
          -- the identities of the others are larger
          have hrest : (listEntries (n + 1) history).filter (fun e => e.id = n + 0) = [] := by
            rw [List.filter_eq_nil_iff]
            intro e he hid
            obtain ⟨j, op', -, rfl | rfl⟩ := mem_listEntries.mp he
            · have : n + 1 + j = n + 0 := of_decide_eq_true hid
              omega
            · have : n + 1 + j = n + 0 := of_decide_eq_true hid
              omega
          rw [hrest]
          rfl
      | succ i =>
          have hih := ih (n := n + 1) hi
          rw [List.filter_cons_of_neg (by simp), List.filter_cons_of_neg (by simp)]
          rw [show n + (i + 1) = n + 1 + i by omega]
          exact hih

section Entries

variable {so : Sorting V} {history : List (Operation V)}

theorem mem_makeEntries {e : Entry V} :
    e ∈ makeEntries so history ↔ ∃ (i : ℕ) (op : Operation V), history[i]? = some op ∧
      (e = op.callEntry i ∨ e = op.returnEntry i) := by
  rw [makeEntries, (so.perm _).mem_iff, mem_listEntries]
  simp only [Nat.zero_add]

/-- The sort may exchange the two entries of an operation only when their times are the
same. -/
theorem filter_makeEntries {i : ℕ} {op : Operation V} (hi : history[i]? = some op)
    (hlt : op.call < op.ret) :
    (makeEntries so history).filter (fun e => e.id = i) = [op.callEntry i, op.returnEntry i] := by
  have hperm : ((makeEntries so history).filter fun e => e.id = i).Perm
      [op.callEntry i, op.returnEntry i] := by
    have hlist := filter_listEntries (n := 0) hi
    rw [Nat.zero_add] at hlist
    rw [← hlist]
    exact (so.perm _).filter _
  have hsorted := (so.sorted (listEntries 0 history)).filter fun e => e.id = i
  rcases List.perm_pair.mp hperm with heq | heq
  · exact heq
  · exfalso
    rw [makeEntries] at heq
    rw [heq, List.pairwise_pair] at hsorted
    exact hsorted hlt

/-- The sorted entries are a complete history. -/
theorem makeEntries_complete (so : Sorting V) (hlt : ∀ op ∈ history, op.call < op.ret) :
    Complete (makeEntries so history) history.length := by
  constructor
  · intro e he
    obtain ⟨i, op, hi, rfl | rfl⟩ := mem_makeEntries.mp he
    · exact (List.getElem?_eq_some_iff.mp hi).1
    · exact (List.getElem?_eq_some_iff.mp hi).1
  · intro i hi
    have hop := List.getElem?_eq_getElem hi
    rw [filter_makeEntries hop (hlt _ (List.mem_of_getElem? hop))]
    rfl

/-- The entry of a call is where its kind and identity say. -/
theorem eq_callEntry {i : ℕ} {op : Operation V} {e : Entry V} (hi : history[i]? = some op)
    (he : e ∈ makeEntries so history) (hkind : e.kind = .callEntry) (hid : e.id = i) :
    e = op.callEntry i := by
  obtain ⟨j, op', hj, rfl | rfl⟩ := mem_makeEntries.mp he
  · obtain rfl : j = i := hid
    rw [Option.some.inj (hj.symm.trans hi)]
  · cases hkind

theorem eq_returnEntry {i : ℕ} {op : Operation V} {e : Entry V} (hi : history[i]? = some op)
    (he : e ∈ makeEntries so history) (hkind : e.kind = .returnEntry) (hid : e.id = i) :
    e = op.returnEntry i := by
  obtain ⟨j, op', hj, rfl | rfl⟩ := mem_makeEntries.mp he
  · cases hkind
  · obtain rfl : j = i := hid
    rw [Option.some.inj (hj.symm.trans hi)]

theorem valueOf_of_unique [Inhabited V] {entries : List (Entry V)} {e : Entry V}
    {kind : EntryKind} {i : ℕ} (he : e ∈ entries) (hkind : e.kind = kind) (hid : e.id = i)
    (honly : ∀ e' ∈ entries, e'.kind = kind → e'.id = i → e' = e) :
    valueOf entries kind i = e.value := by
  rcases hf : entries.find? (fun e => e.kind = kind ∧ e.id = i) with _ | e'
  · have hno := List.find?_eq_none.mp hf e he
    simp [hkind, hid] at hno
  · have hsat : e'.kind = kind ∧ e'.id = i := by simpa using List.find?_some hf
    rw [valueOf, hf, ← honly e' (List.mem_of_find?_eq_some hf) hsat.1 hsat.2]
    rfl

theorem operation_makeEntries [Inhabited V] {i : ℕ} {op : Operation V}
    (hi : history[i]? = some op) : operation (makeEntries so history) i = op.io := by
  have hcall : valueOf (makeEntries so history) .callEntry i = op.input :=
    valueOf_of_unique (mem_makeEntries.mpr ⟨i, op, hi, .inl rfl⟩) rfl rfl
      fun e' => eq_callEntry hi
  have hret : valueOf (makeEntries so history) .returnEntry i = op.output :=
    valueOf_of_unique (mem_makeEntries.mpr ⟨i, op, hi, .inr rfl⟩) rfl rfl
      fun e' => eq_returnEntry hi
  rw [operation, hcall, hret]
  rfl

/-- An entry of a return in front of that of a call is not later. -/
theorem le_of_returnsBefore {i j : ℕ} {a b : Operation V} (hi : history[i]? = some a)
    (hj : history[j]? = some b) (h : ReturnsBefore (makeEntries so history) i j) :
    a.ret ≤ b.call := by
  have hsorted : (makeEntries so history).Pairwise fun e e' => ¬ e'.time < e.time :=
    so.sorted _
  obtain ⟨pre, r, post, heq, hrk, hri, c, hc, hck, hcj⟩ := h
  have hr : r ∈ makeEntries so history := by
    rw [heq]
    simp
  have hc' : c ∈ makeEntries so history := by
    rw [heq]
    simp [hc]
  obtain rfl := eq_returnEntry hi hr hrk hri
  obtain rfl := eq_callEntry hj hc' hck hcj
  rw [heq, List.pairwise_append, List.pairwise_cons] at hsorted
  exact not_lt.mp (hsorted.2.1.1 _ hc)

/-- When no return meets a call, the order of the entries is the order of the times. -/
theorem returnsBefore_makeEntries (hne : ∀ a ∈ history, ∀ b ∈ history, a.ret ≠ b.call)
    {i j : ℕ} {a b : Operation V} (hi : history[i]? = some a) (hj : history[j]? = some b) :
    ReturnsBefore (makeEntries so history) i j ↔ a.ret < b.call := by
  constructor
  · intro h
    exact lt_of_le_of_ne (le_of_returnsBefore hi hj h)
      (hne a (List.mem_of_getElem? hi) b (List.mem_of_getElem? hj))
  · intro hlt
    have hr : a.returnEntry i ∈ makeEntries so history :=
      mem_makeEntries.mpr ⟨i, a, hi, .inr rfl⟩
    have hc : b.callEntry j ∈ makeEntries so history :=
      mem_makeEntries.mpr ⟨j, b, hj, .inl rfl⟩
    obtain ⟨pre, post, heq⟩ := List.append_of_mem hr
    refine ⟨pre, a.returnEntry i, post, heq, rfl, rfl, b.callEntry j, ?_, rfl, rfl⟩
    rw [heq, List.mem_append, List.mem_cons] at hc
    rcases hc with hpre | heq' | hpost
    · -- an entry in front of the return is not later
      have hsorted : (makeEntries so history).Pairwise fun e e' => ¬ e'.time < e.time :=
        so.sorted _
      rw [heq, List.pairwise_append] at hsorted
      exact absurd hlt (hsorted.2.2 _ hpre _ List.mem_cons_self)
    · cases congrArg Entry.kind heq'
    · exact hpost

theorem getElem?_eq_getD [Inhabited V] {i : ℕ} (hi : i < history.length) :
    history[i]? = some (history.getD i default) := by
  rw [List.getD_eq_getElem?_getD, List.getElem?_eq_getElem hi]
  rfl

/-- A history is made of what stands at its positions. -/
theorem map_getD_range [Inhabited V] (history : List (Operation V)) :
    (List.range history.length).map (fun i => history.getD i default) = history := by
  refine List.ext_getElem (by simp) ?_
  intro i hi hi'
  rw [List.getElem_map, List.getElem_range]
  exact Option.some.inj ((getElem?_eq_getD hi').symm.trans (List.getElem?_eq_getElem hi'))

/-- The search finds an order in which a return and a call at the same instant are taken to
be in this order. -/
theorem arrangeable_makeEntries_of_le [Inhabited V] {S : SeqSpec σ V V} {s : σ}
    (h : Orderable S Operation.io (fun a b => a.ret ≤ b.call) history s) :
    Arrangeable S (operation (makeEntries so history)) (ReturnsBefore (makeEntries so history))
      (Finset.range history.length) s := by
  rw [← map_getD_range history] at h
  refine arrangeable_of_orderable ?_ ?_ h
  · intro i hi
    exact operation_makeEntries (getElem?_eq_getD hi)
  · intro i hi j hj
    exact le_of_returnsBefore (getElem?_eq_getD hi) (getElem?_eq_getD hj)

/-- The search looks for an order of the operations. -/
theorem arrangeable_makeEntries_iff [Inhabited V] {S : SeqSpec σ V V} {s : σ}
    (hne : ∀ a ∈ history, ∀ b ∈ history, a.ret ≠ b.call) :
    Arrangeable S (operation (makeEntries so history)) (ReturnsBefore (makeEntries so history))
        (Finset.range history.length) s ↔
      Orderable S Operation.io (fun a b => a.ret < b.call) history s := by
  rw [arrangeable_iff_orderable (f := fun i => history.getD i default), map_getD_range]
  · intro i hi
    exact operation_makeEntries (getElem?_eq_getD hi)
  · intro i hi j hj
    exact returnsBefore_makeEntries hne (getElem?_eq_getD hi) (getElem?_eq_getD hj)

end Entries

/-! ## When no return meets a call -/

section NoPartition

variable [BEq σ] [Inhabited V] {model : UserModel σ V} {so : Sorting V}
  {history : List (Operation V)}

/-- With one part there is one verdict to wait for. -/
theorem checkOperations_of_noPartition (hpart : (fillDefault model).partition = noPartition)
    {parts : List ℕ}
    (hparts : parts.Perm (List.range ((fillDefault model).partition history).length)) (fuel : ℕ) :
    checkOperations model so history parts fuel =
      checkSingle (fillDefault model).toModel (makeLinkedEntries (makeEntries so history)).1
        (makeLinkedEntries (makeEntries so history)).2 (fun _ => 0) fuel := by
  rw [hpart] at hparts
  obtain rfl : parts = [0] := List.perm_singleton.mp hparts
  simp only [checkOperations, checkOperationsTimeout, hpart, noPartition, List.map_cons,
    List.map_nil, collect, List.length_singleton, List.getElem?_cons_zero, Option.bind_some,
    Option.bind_eq_bind, Bool.true_and]
  rcases checkSingle (fillDefault model).toModel (makeLinkedEntries (makeEntries so history)).1
    (makeLinkedEntries (makeEntries so history)).2 (fun _ => 0) fuel with _ | _ | _
  · rfl
  · rfl
  · rfl

/-- The search of a complete part ends with the right verdict. -/
theorem exists_verdict (so : Sorting V) (hcong : (fillDefault model).Congruent)
    (hlt : ∀ op ∈ history, op.call < op.ret) :
    ∃ ok n, (∀ fuel ≥ n, checkSingle (fillDefault model).toModel
        (makeLinkedEntries (makeEntries so history)).1
        (makeLinkedEntries (makeEntries so history)).2 (fun _ => 0) fuel = some ok) ∧
      (ok = true ↔ Arrangeable (fillDefault model).spec (operation (makeEntries so history))
        (ReturnsBefore (makeEntries so history)) (Finset.range history.length)
        (fillDefault model).init) :=
  checkSingle_decides hcong (makeEntries_complete so hlt)

/-- Without a return that meets a call, the verdict is right. -/
theorem decides_of_ne (hpart : (fillDefault model).partition = noPartition)
    (hcong : (fillDefault model).Congruent) (hle : ∀ op ∈ history, op.call ≤ op.ret)
    (hne : ∀ a ∈ history, ∀ b ∈ history, a.ret ≠ b.call) : Decides model so history := by
  -- the verdict for one listing of the operations
  have hverdict : ∀ history', history'.Perm history → ∃ ok n,
      (∀ fuel ≥ n, ∀ parts : List ℕ,
        parts.Perm (List.range ((fillDefault model).partition history').length) →
          checkOperations model so history' parts fuel = some ok) ∧
      (ok = true ↔ TimedLinearizable (fillDefault model).spec history) := by
    intro history' hperm
    have hne' : ∀ a ∈ history', ∀ b ∈ history', a.ret ≠ b.call := fun a ha b hb =>
      hne a (hperm.mem_iff.mp ha) b (hperm.mem_iff.mp hb)
    have hlt : ∀ op ∈ history', op.call < op.ret := fun op hop =>
      lt_of_le_of_ne (hle op (hperm.mem_iff.mp hop)) (hne' op hop op hop).symm
    obtain ⟨ok, n, hn, hok⟩ := exists_verdict so hcong hlt
    refine ⟨ok, n, ?_, ?_⟩
    · intro fuel hfuel parts hparts
      rw [checkOperations_of_noPartition hpart hparts, hn fuel hfuel]
    · rw [hok, arrangeable_makeEntries_iff hne']
      exact ⟨fun h => h.perm hperm, fun h => h.perm hperm.symm⟩
  obtain ⟨ok, -, -, hok⟩ := hverdict history (List.Perm.refl history)
  refine ⟨ok, hok, ?_⟩
  intro history' hperm
  obtain ⟨ok', n, hn, hok'⟩ := hverdict history' hperm
  obtain rfl : ok' = ok := Bool.eq_iff_iff.mpr (hok'.trans hok.symm)
  exact ⟨n, hn⟩

end NoPartition

/-! ## Two ways to sort -/

/-- Insertion sort by a key that refines the time. -/
def Sorting.byKey {K : Type} [LinearOrder K] (key : Entry V → K)
    (hkey : ∀ a b, key a ≤ key b → a.time ≤ b.time) : Sorting V where
  sort := List.insertionSort fun a b => key a ≤ key b
  perm := List.perm_insertionSort _
  sorted l := by
    have : Std.Total fun a b : Entry V => key a ≤ key b := ⟨fun a b => le_total _ _⟩
    have : IsTrans (Entry V) fun a b => key a ≤ key b := ⟨fun _ _ _ => le_trans⟩
    exact (List.pairwise_insertionSort _ l).imp fun h => not_lt.mpr (hkey _ _ h)

theorem Sorting.pairwise_byKey {K : Type} [LinearOrder K] {key : Entry V → K}
    {hkey : ∀ a b, key a ≤ key b → a.time ≤ b.time} (l : List (Entry V)) :
    ((Sorting.byKey key hkey).sort l).Pairwise fun a b => key a ≤ key b := by
  have : Std.Total fun a b : Entry V => key a ≤ key b := ⟨fun a b => le_total _ _⟩
  have : IsTrans (Entry V) fun a b => key a ≤ key b := ⟨fun _ _ _ => le_trans⟩
  exact List.pairwise_insertionSort _ l

/-- Insertion sort by time, what `sort.Sort` does with short slices: entries of the same time
keep their order. -/
def byTime : Sorting V :=
  .byKey Entry.time fun _ _ h => h

/-- The time, then returns before calls. -/
def timeAndKind (e : Entry V) : ℤ ×ₗ ℕ :=
  toLex (e.time, if e.kind = .returnEntry then 0 else 1)

/-- Returns before calls of the same instant. -/
def returnsFirst : Sorting V :=
  .byKey timeAndKind fun a b h => by
    rcases Prod.Lex.le_iff.mp h with hlt | heq
    · exact le_of_lt hlt
    · exact le_of_eq heq.1

/-- A return stands before a call of the same instant. -/
theorem returnsBefore_returnsFirst {history : List (Operation V)} {i j : ℕ} {a b : Operation V}
    (hi : history[i]? = some a) (hj : history[j]? = some b) (heq : a.ret = b.call) :
    ReturnsBefore (makeEntries returnsFirst history) i j := by
  have hr : a.returnEntry i ∈ makeEntries returnsFirst history :=
    mem_makeEntries.mpr ⟨i, a, hi, .inr rfl⟩
  have hc : b.callEntry j ∈ makeEntries returnsFirst history :=
    mem_makeEntries.mpr ⟨j, b, hj, .inl rfl⟩
  obtain ⟨pre, post, hsplit⟩ := List.append_of_mem hr
  refine ⟨pre, a.returnEntry i, post, hsplit, rfl, rfl, b.callEntry j, ?_, rfl, rfl⟩
  rw [hsplit, List.mem_append, List.mem_cons] at hc
  rcases hc with hpre | heq' | hpost
  · have hsorted : (makeEntries returnsFirst history).Pairwise fun e e' =>
        timeAndKind e ≤ timeAndKind e' := Sorting.pairwise_byKey _
    rw [hsplit, List.pairwise_append] at hsorted
    rcases Prod.Lex.le_iff.mp (hsorted.2.2 _ hpre _ List.mem_cons_self) with hlt | hkind
    · exact absurd hlt (not_lt.mpr heq.le)
    · have : (1 : ℕ) ≤ 0 := hkind.2
      omega
  · cases congrArg Entry.kind heq'
  · exact hpost

/-! ## When a return meets a call -/

/-- A model of numbered operations that accepts operation `a` only behind operation `b`. -/
def afterModel (a b : ℕ) : UserModel Bool ℕ where
  partition := none
  partitionEvent := none
  init := false
  step s x _ := (x != a || s, s || x == b)
  equal := none

/-- The operations with the given times, numbered. -/
def numbered (times : List (ℤ × ℤ)) : List (Operation ℕ) :=
  times.mapIdx fun i t => ⟨i, t.1, 0, t.2⟩

section AfterModel

variable {a b : ℕ} {ops : List (Operation ℕ)} {s : Bool}

theorem afterModel_step (s : Bool) (x y : ℕ) (h : x ≠ a ∨ s = true) :
    (fillDefault (afterModel a b)).spec.step s x y = some (s || x == b) := by
  refine if_pos ?_
  show (x != a || s) = true
  rcases h with hne | hs
  · rw [bne_iff_ne.mpr hne, Bool.true_or]
  · rw [hs, Bool.or_true]

/-- The operation with the earliest call, among those that satisfy `p`, can be taken out. -/
theorem exists_perm_min_call (p : Operation ℕ → Bool) (h : ∃ op ∈ ops, p op = true) :
    ∃ x rest, ops.Perm (x :: rest) ∧ p x = true ∧ ∀ c ∈ rest, p c = true → x.call ≤ c.call := by
  obtain ⟨op, hop, hp⟩ := h
  obtain ⟨x, hx, hmin⟩ := exists_min_ret Operation.call
    (List.ne_nil_of_mem (List.mem_filter.mpr ⟨hop, hp⟩))
  obtain ⟨hx, hpx⟩ := List.mem_filter.mp hx
  obtain ⟨l₁, l₂, rfl⟩ := List.append_of_mem hx
  refine ⟨x, l₁ ++ l₂, List.perm_middle, hpx, ?_⟩
  intro c hc hpc
  refine hmin c (List.mem_filter.mpr ⟨?_, hpc⟩)
  exact List.perm_middle.mem_iff.mpr (List.mem_cons_of_mem x hc)

/-- When `b` is done, or `a` is not there, the operations can be ordered by their calls. -/
theorem orderable_by_call (hle : ∀ op ∈ ops, op.call ≤ op.ret)
    (h : ∀ op ∈ ops, op.input ≠ a ∨ s = true) :
    Orderable (fillDefault (afterModel a b)).spec Operation.io (fun a b => a.ret < b.call) ops
      s := by
  induction hn : ops.length generalizing ops s with
  | zero =>
      rw [List.length_eq_zero_iff.mp hn]
      exact orderable_nil
  | succ n ih =>
      obtain ⟨op, hop⟩ := List.exists_mem_of_length_pos (l := ops) (by omega)
      obtain ⟨x, rest, hperm, -, hmin⟩ := exists_perm_min_call (fun _ => true) ⟨op, hop, rfl⟩
      have hmem : ∀ c ∈ x :: rest, c ∈ ops := fun c hc => hperm.mem_iff.mpr hc
      have hlen := hperm.length_eq
      rw [List.length_cons] at hlen
      refine (Orderable.cons ?_ (afterModel_step _ _ _ (h x (hmem x List.mem_cons_self)))
        (ih (fun c hc => hle c (hmem c (List.mem_cons_of_mem x hc))) ?_ (by omega))).perm hperm.symm
      · intro c hc hlt
        have := hle c (hmem c (List.mem_cons_of_mem x hc))
        have := hmin c hc rfl
        omega
      · intro c hc
        rcases h c (hmem c (List.mem_cons_of_mem x hc)) with hne | hs
        · exact .inl hne
        · exact .inr (by simp [hs])

/-- Operation `a`, which returns when `b` is called, can be put behind `b`. -/
theorem orderable_after {T : ℤ} (hab : b ≠ a) (hle : ∀ op ∈ ops, op.call ≤ op.ret)
    (ha : ∀ op ∈ ops, op.input = a → op.ret = T) (hb : ∃ op ∈ ops, op.input = b ∧ op.call = T) :
    Orderable (fillDefault (afterModel a b)).spec Operation.io (fun a b => a.ret < b.call) ops
      false := by
  induction hn : ops.length generalizing ops with
  | zero =>
      rw [List.length_eq_zero_iff.mp hn]
      exact orderable_nil
  | succ n ih =>
      obtain ⟨opb, hopb, hinput, hcall⟩ := hb
      obtain ⟨x, rest, hperm, hxa, hmin⟩ := exists_perm_min_call (fun op => op.input ≠ a)
        ⟨opb, hopb, by simpa [hinput] using hab⟩
      have hxa : x.input ≠ a := by simpa using hxa
      have hmem : ∀ c ∈ x :: rest, c ∈ ops := fun c hc => hperm.mem_iff.mpr hc
      have hle' : ∀ c ∈ rest, c.call ≤ c.ret :=
        fun c hc => hle c (hmem c (List.mem_cons_of_mem x hc))
      have hlen := hperm.length_eq
      rw [List.length_cons] at hlen
      -- `x` is called no later than `b`
      have hxT : x.call ≤ T := by
        rcases List.mem_cons.mp (hperm.mem_iff.mp hopb) with rfl | hin
        · exact hcall.le
        · rw [← hcall]
          exact hmin opb hin (by simpa [hinput] using hab)
      have hfirst : ∀ c ∈ rest, ¬ c.ret < x.call := by
        intro c hc hlt
        by_cases hca : c.input = a
        · have := ha c (hmem c (List.mem_cons_of_mem x hc)) hca
          omega
        · have := hmin c hc (by simpa using hca)
          have := hle' c hc
          omega
      refine Orderable.perm (Orderable.cons hfirst (afterModel_step _ _ _ (.inl hxa)) ?_) hperm.symm
      by_cases hxb : x.input = b
      · refine orderable_by_call hle' ?_
        intro c _
        exact .inr (by simp [Operation.io, hxb])
      · have hstate : (false || x.io.1 == b) = false := by simp [Operation.io, hxb]
        rw [hstate]
        refine ih hle' (fun c hc => ha c (hmem c (List.mem_cons_of_mem x hc))) ?_ (by omega)
        refine ⟨opb, ?_, hinput, hcall⟩
        rcases List.mem_cons.mp (hperm.mem_iff.mp hopb) with rfl | hin
        · exact absurd hinput hxb
        · exact hin

/-- Nothing but `b` changes the state. -/
theorem run_afterModel_false {l : List (ℕ × ℕ)} (hl : ∀ xy ∈ l, xy.1 ≠ b) {s' : Bool}
    (h : (fillDefault (afterModel a b)).spec.run false l = some s') : s' = false := by
  induction l with
  | nil => exact (Option.some.inj h).symm
  | cons xy l ih =>
      obtain ⟨x, y⟩ := xy
      rw [SeqSpec.run_cons] at h
      obtain ⟨t, ht, hrun⟩ := Option.bind_eq_some_iff.mp h
      have hstep : (x != a || false) = true := by
        by_contra hno
        rw [show (fillDefault (afterModel a b)).spec.step false x y = none from if_neg hno] at ht
        cases ht
      rw [afterModel_step false x y (.inl (by simpa using hstep))] at ht
      have hxb : (false || x == b) = false := by
        simpa using hl (x, y) List.mem_cons_self
      rw [hxb] at ht
      obtain rfl := Option.some.inj ht
      exact ih (fun xy hxy => hl xy (List.mem_cons_of_mem _ hxy)) hrun

/-- An order that keeps `a` before `b` is not accepted. -/
theorem not_arrangeable_after {op : ℕ → ℕ × ℕ} {prec : ℕ → ℕ → Prop} {n : ℕ} (ha : a < n)
    (hb : b < n) (hab : b ≠ a) (hop : ∀ i < n, (op i).1 = i) (hprec : prec a b) :
    ¬ Arrangeable (fillDefault (afterModel a b)).spec op prec (Finset.range n) false := by
  rintro ⟨order, hnd, hmem, htime, hlegal⟩
  have hin : a ∈ order := (hmem a).mpr (Finset.mem_range.mpr ha)
  obtain ⟨l₁, l₂, rfl⟩ := List.append_of_mem hin
  rw [List.pairwise_append] at htime
  -- `b` does not stand before `a`
  have hfront : b ∉ l₁ := fun h => htime.2.2 b h a List.mem_cons_self hprec
  rw [List.map_append, SeqSpec.run_append, Option.isSome_bind] at hlegal
  rcases hrun : (fillDefault (afterModel a b)).spec.run false (l₁.map op) with _ | s'
  · rw [hrun] at hlegal
    cases hlegal
  · have hs' : s' = false := by
      refine run_afterModel_false ?_ hrun
      intro xy hxy
      obtain ⟨i, hi, rfl⟩ := List.mem_map.mp hxy
      have hlt : i < n := Finset.mem_range.mp ((hmem i).mp (List.mem_append_left _ hi))
      rw [hop i hlt]
      rintro rfl
      exact hfront hi
    subst hs'
    have hstep : (fillDefault (afterModel a b)).spec.step false (op a).1 (op a).2 = none := by
      refine if_neg ?_
      show ¬ ((op a).1 != a || false) = true
      rw [hop a ha]
      simp
    rw [hrun, List.map_cons] at hlegal
    simp only [Option.any_some, SeqSpec.run, hstep, Option.bind_none] at hlegal
    cases hlegal

end AfterModel

section Necessity

variable {times : List (ℤ × ℤ)} {i j : ℕ} {t u : ℤ × ℤ}

theorem getElem?_numbered (hi : times[i]? = some t) :
    (numbered times)[i]? = some ⟨i, t.1, 0, t.2⟩ := by
  rw [numbered, List.getElem?_mapIdx, hi]
  rfl

theorem mem_numbered {op : Operation ℕ} (h : op ∈ numbered times) :
    ∃ (i : ℕ) (t : ℤ × ℤ), times[i]? = some t ∧ op = ⟨i, t.1, 0, t.2⟩ := by
  obtain ⟨i, hi⟩ := List.mem_iff_getElem?.mp h
  rw [numbered, List.getElem?_mapIdx] at hi
  obtain ⟨t, ht, rfl⟩ := Option.map_eq_some_iff.mp hi
  exact ⟨i, t, ht, rfl⟩

theorem map_times_numbered (times : List (ℤ × ℤ)) :
    (numbered times).map Operation.times = times := by
  refine List.ext_getElem? ?_
  intro i
  rw [List.getElem?_map, numbered, List.getElem?_mapIdx]
  rcases times[i]? with _ | t
  · rfl
  · rfl

/-- An operation that returns when it is called may lose its return. -/
theorem not_decides_of_instant (hle : ∀ t ∈ times, t.1 ≤ t.2) (hi : times[i]? = some t)
    (heq : t.2 = t.1) :
    ¬ Decides (afterModel times.length 0) returnsFirst (numbered times) := by
  rintro ⟨ok, hok, hrun⟩
  -- every operation is accepted
  have hlin : TimedLinearizable (fillDefault (afterModel times.length 0)).spec
      (numbered times) := by
    refine orderable_by_call ?_ ?_
    · intro op hop
      obtain ⟨j, u, hj, rfl⟩ := mem_numbered hop
      exact hle u (List.mem_of_getElem? hj)
    · intro op hop
      obtain ⟨j, u, hj, rfl⟩ := mem_numbered hop
      exact .inl (List.getElem?_eq_some_iff.mp hj).1.ne
  obtain rfl : ok = true := hok.mpr hlin
  obtain ⟨n, hn⟩ := hrun _ (List.Perm.refl _)
  have hparts : [0].Perm (List.range
      ((fillDefault (afterModel times.length 0)).partition (numbered times)).length) :=
    List.Perm.refl _
  have hverdict := hn n le_rfl [0] hparts
  rw [checkOperations_of_noPartition rfl hparts] at hverdict
  -- but the call of operation `i` has no return behind it
  have hop := getElem?_numbered hi
  obtain ⟨pre, r, post, hsplit, hrk, hri, c, hc, hck, hci⟩ :=
    returnsBefore_returnsFirst hop hop heq
  obtain ⟨mid, rest, rfl⟩ := List.append_of_mem hc
  have hsuf : c :: rest <:+ makeEntries returnsFirst (numbered times) :=
    ⟨pre ++ r :: mid, by rw [hsplit]; simp⟩
  refine checkSingle_ne_true_of_orphan _ hsuf hck ?_ _ _ hverdict
  intro r' hr' hrk' hri'
  have hr'in : r' ∈ makeEntries returnsFirst (numbered times) := by rw [hsplit]; simp [hr']
  have hrin : r ∈ makeEntries returnsFirst (numbered times) := by rw [hsplit]; simp
  rw [hci] at hri'
  obtain rfl : r' = r :=
    (eq_returnEntry hop hr'in hrk' hri').trans (eq_returnEntry hop hrin hrk hri).symm
  have hnd : (makeEntries returnsFirst (numbered times)).Nodup :=
    (returnsFirst.perm _).nodup_iff.mpr (nodup_listEntries 0 _)
  rw [hsplit, List.nodup_append, List.nodup_cons] at hnd
  exact hnd.2.1.1 (by simp [hr'])

/-- An operation that returns when another one is called may be put before it. -/
theorem not_decides_of_meets (hlt : ∀ t ∈ times, t.1 < t.2) (hi : times[i]? = some t)
    (hj : times[j]? = some u) (heq : t.2 = u.1) :
    ¬ Decides (afterModel i j) returnsFirst (numbered times) := by
  have hne : j ≠ i := by
    rintro rfl
    obtain rfl : t = u := Option.some.inj (hi.symm.trans hj)
    exact (hlt t (List.mem_of_getElem? hi)).ne heq.symm
  have hlt' : ∀ op ∈ numbered times, op.call < op.ret := by
    intro op hop
    obtain ⟨k, v, hk, rfl⟩ := mem_numbered hop
    exact hlt v (List.mem_of_getElem? hk)
  rintro ⟨ok, hok, hrun⟩
  have hlin : TimedLinearizable (fillDefault (afterModel i j)).spec (numbered times) := by
    refine orderable_after (T := u.1) hne (fun op hop => (hlt' op hop).le) ?_ ?_
    · intro op hop hinput
      obtain ⟨k, v, hk, rfl⟩ := mem_numbered hop
      obtain rfl : k = i := hinput
      rw [← heq, Option.some.inj (hk.symm.trans hi)]
    · exact ⟨_, List.mem_of_getElem? (getElem?_numbered hj), rfl, rfl⟩
  obtain rfl : ok = true := hok.mpr hlin
  -- the search only sees orders with `i` before `j`
  obtain ⟨n, hn⟩ := hrun _ (List.Perm.refl _)
  have hcong : (fillDefault (afterModel i j)).Congruent := congruent_of_equal_none rfl
  obtain ⟨ok', n', hn', hok'⟩ := exists_verdict returnsFirst hcong hlt'
  have hparts : [0].Perm (List.range
      ((fillDefault (afterModel i j)).partition (numbered times)).length) :=
    List.Perm.refl _
  have hverdict := hn (max n n') (le_max_left ..) [0] hparts
  rw [checkOperations_of_noPartition rfl hparts, hn' _ (le_max_right ..)] at hverdict
  have hlen : (numbered times).length = times.length := List.length_mapIdx
  refine not_arrangeable_after ?_ ?_ hne ?_
    (returnsBefore_returnsFirst (getElem?_numbered hi) (getElem?_numbered hj) heq)
    (hok'.mp (Option.some.inj hverdict))
  · rw [hlen]
    exact (List.getElem?_eq_some_iff.mp hi).1
  · rw [hlen]
    exact (List.getElem?_eq_some_iff.mp hj).1
  · intro k hk
    rw [hlen] at hk
    rw [operation_makeEntries (getElem?_numbered (List.getElem?_eq_getElem hk))]
    rfl

end Necessity

/-- **When `CheckOperations` decides linearizability.**  Take operations with given times.
Whatever the model (one that is not partitioned, with an `Equal` that `Step` respects), the
inputs and outputs, and the order in which the sort leaves entries of the same time, the
verdict is the right one, and the same for every listing of the operations, exactly when no
operation returns at the instant at which an operation is called. -/
theorem checkOperations_decides_iff (times : List (ℤ × ℤ))
    (hle : ∀ t ∈ times, t.1 ≤ t.2) :
    (∀ (σ V : Type) [BEq σ] [Inhabited V] (model : UserModel σ V) (so : Sorting V)
      (history : List (Operation V)), (fillDefault model).partition = noPartition →
        (fillDefault model).Congruent → history.map Operation.times = times →
          Decides model so history) ↔
      ∀ t ∈ times, ∀ u ∈ times, t.2 ≠ u.1 := by
  constructor
  · intro hall
    have hnumbered : ∀ a b, Decides (afterModel a b) returnsFirst (numbered times) := fun a b =>
      hall Bool ℕ (afterModel a b) returnsFirst (numbered times) rfl (congruent_of_equal_none rfl)
        (map_times_numbered times)
    have hlt : ∀ t ∈ times, t.1 < t.2 := by
      intro t ht
      obtain ⟨i, hi⟩ := List.mem_iff_getElem?.mp ht
      refine lt_of_le_of_ne (hle t ht) ?_
      intro heq
      exact not_decides_of_instant hle hi heq.symm (hnumbered _ _)
    intro t ht u hu heq
    obtain ⟨i, hi⟩ := List.mem_iff_getElem?.mp ht
    obtain ⟨j, hj⟩ := List.mem_iff_getElem?.mp hu
    exact not_decides_of_meets hlt hi hj heq (hnumbered i j)
  · rintro hmeet σ V _ _ model so history hpart hcong rfl
    refine decides_of_ne hpart hcong ?_ ?_
    · intro op hop
      exact hle _ (List.mem_map_of_mem hop)
    · intro a ha b hb
      exact hmeet _ (List.mem_map_of_mem ha) _ (List.mem_map_of_mem hb)

theorem checkOperations_decides_iff_overlap :
    (∀ t ∈ [((0 : ℤ), (5 : ℤ)), (1, 6)], t.1 ≤ t.2) ∧
      ((∀ (σ V : Type) [BEq σ] [Inhabited V] (model : UserModel σ V) (so : Sorting V)
        (history : List (Operation V)), (fillDefault model).partition = noPartition →
          (fillDefault model).Congruent → history.map Operation.times = [(0, 5), (1, 6)] →
            Decides model so history) ↔
        ∀ t ∈ [((0 : ℤ), (5 : ℤ)), (1, 6)], ∀ u ∈ [((0 : ℤ), (5 : ℤ)), (1, 6)], t.2 ≠ u.1) :=
  ⟨by decide, checkOperations_decides_iff [(0, 5), (1, 6)] (by decide)⟩

/-- The register as its users would write it. -/
def registerModel : UserModel ℕ (Option ℕ) where
  partition := none
  partitionEvent := none
  init := register.init
  step := register.step
  equal := none

/-- A read of 1 that returns at the instant at which the write of 1 is called. -/
def meeting : List (Operation (Option ℕ)) :=
  [⟨none, 0, some 1, 5⟩, ⟨some 1, 5, none, 6⟩]

/-- The two operations overlap, and the read can follow the write; but when the read is
listed first its return is sorted before the call of the write, and the verdict is `false`. -/
theorem checkOperations_decides_fails :
    (fillDefault registerModel).partition = noPartition ∧
      (fillDefault registerModel).Congruent ∧ (∀ op ∈ meeting, op.call ≤ op.ret) ∧
      TimedLinearizable (fillDefault registerModel).spec meeting ∧
      (∀ fuel ≥ 12, checkOperations registerModel byTime meeting [0] fuel = some false) ∧
      (∀ fuel ≥ 12, checkOperations registerModel byTime meeting.reverse [0] fuel = some true) ∧
      ¬ Decides registerModel byTime meeting := by
  have hlin : TimedLinearizable (fillDefault registerModel).spec meeting :=
    ⟨meeting.reverse, List.reverse_perm _, by decide, by decide⟩
  have hparts : ∀ history, [0].Perm
      (List.range ((fillDefault registerModel).partition history).length) := fun _ =>
    List.Perm.refl _
  have hverdict : ∀ history ok, checkOperations registerModel byTime history [0] 12 = some ok →
      ∀ fuel ≥ 12, checkOperations registerModel byTime history [0] fuel = some ok := by
    intro history ok h fuel hfuel
    rw [checkOperations_of_noPartition rfl (hparts history)] at h ⊢
    exact checkSingle_mono hfuel h
  have hfalse : ∀ fuel ≥ 12, checkOperations registerModel byTime meeting [0] fuel = some false :=
    hverdict _ _ (by decide)
  refine ⟨rfl, congruent_of_equal_none rfl, by decide, hlin, hfalse,
    hverdict _ _ (by decide), ?_⟩
  rintro ⟨ok, hok, hrun⟩
  obtain rfl : ok = true := hok.mpr hlin
  obtain ⟨n, hn⟩ := hrun _ (List.Perm.refl _)
  have := hn (max n 12) (le_max_left ..) [0] (hparts meeting)
  rw [hfalse _ (le_max_right ..)] at this
  cases this

end Mit6824.Linearizability
