/-
# Checking lists of events

`CheckEvents` of `linearizability.go`: a history is the list of its call and return
events in the order in which they happened.  `renumber` gives the operations the
identities `0`, `1`, … in the order in which they occur, and from then on the path is
that of `CheckOperations`, with `PartitionEvent` in place of `Partition`.

* `verdicts_combined_iff`: the collecting loop of both entry points returns the
  conjunction of the verdicts, in every order of their arrival, when there is at least
  one part.  `KvModel` makes no part of the empty history (`emptyHistory_not_combined`).
* `renumber_spec`: what `renumber` does to the identities.  The events of a timed
  history, with any identities, are renumbered into a complete history, and the search
  decides whether the timed history is linearizable (`exists_verdict_events`).
* `entryPoints_agree_iff_one_key`: `KvModel` describes one key and has no
  `PartitionEvent`, so `CheckEvents` takes the operations of all keys for operations on
  one key.  The two entry points agree when there is only one, and only then.
-/
import Mit6824.KvModel

namespace Mit6824.Linearizability

open LinkedList ObjectHistory

variable {σ V : Type}

/-! ## The entry point -/

/-- The loop of `renumber`: `m` has the identities given so far, and `id` is the next one. -/
def renumberFrom (m : ℕ → Option ℕ) (id : ℕ) : List (Event V) → List (Event V)
  | [] => []
  | v :: events =>
      match m v.id with
      | some r => ⟨v.kind, v.value, r⟩ :: renumberFrom m id events
      | none =>
          ⟨v.kind, v.value, id⟩ :: renumberFrom (Function.update m v.id (some id)) (id + 1) events

/-- Number the operations of a part in the order in which they are met. -/
def renumber (events : List (Event V)) : List (Event V) :=
  renumberFrom (fun _ => none) 0 events

/-- Entries without times, in the order of the events. -/
def convertEntries (events : List (Event V)) : List (Entry V) :=
  events.map fun elem =>
    ⟨if elem.kind = .returnEvent then .returnEntry else .callEntry, elem.value, elem.id, -1⟩

/-- `CheckEventsTimeout`, where `arrivals` is what the collecting loop receives. -/
def checkEventsTimeout [BEq σ] [Inhabited V] (model : UserModel σ V) (history : List (Event V))
    (timeout : ℤ) (arrivals : List Arrival) (fuel : ℕ) : Option Bool :=
  let model := fillDefault model
  let partitions := model.partitionEvent history
  let verdict := fun kill part => (partitions[part]?).bind fun subhistory =>
    let l := makeLinkedEntries (convertEntries (renumber subhistory))
    checkSingle model.toModel l.1 l.2 (fun _ => kill) fuel
  collect verdict partitions.length timeout true 0 0 arrivals

/-- `CheckEvents`, when the goroutines deliver their verdicts in the order `parts`. -/
def checkEvents [BEq σ] [Inhabited V] (model : UserModel σ V) (history : List (Event V))
    (parts : List ℕ) (fuel : ℕ) : Option Bool :=
  checkEventsTimeout model history 0 (parts.map .result) fuel

/-! ## The collecting loop -/

section Collect

variable {parts : ℕ}

/-- The verdicts that are still to come decide; what arrives after them does not matter. -/
theorem collect_eq_all {verdict : ℤ → ℕ → Option Bool} {v : ℕ → Bool} {order : List ℕ}
    {count : ℕ} {timeout : ℤ} (hv : ∀ p ∈ order, verdict 0 p = some (v p))
    (hlen : count + order.length = parts) (hne : order ≠ []) (late : List Arrival) :
    collect verdict parts timeout true 0 count (order.map .result ++ late) =
      some (order.all v) := by
  induction order generalizing count with
  | nil => exact absurd rfl hne
  | cons p order ih =>
      rw [List.length_cons] at hlen
      rw [List.map_cons, List.cons_append, collect, hv p List.mem_cons_self, List.all_cons]
      cases hp : v p with
      | false => simp
      | true =>
          simp only [Option.bind_eq_bind, Option.bind_some, Bool.true_and, Bool.not_true,
            Bool.false_eq_true, if_false]
          rcases eq_or_ne order [] with rfl | hrest
          · exact if_pos (by rw [List.length_nil] at hlen; omega)
          · have hpos := List.length_pos_of_ne_nil hrest
            rw [if_neg (by omega)]
            exact ih (fun q hq => hv q (List.mem_cons_of_mem p hq)) (by omega) hrest

/-- The first verdict must arrive. -/
theorem exists_verdict_of_collect {verdict : ℤ → ℕ → Option Bool} {p : ℕ} {arrivals : List Arrival}
    {ok : Bool} (h : collect verdict parts 0 true 0 0 (.result p :: arrivals) = some ok) :
    ∃ result, verdict 0 p = some result := by
  rw [collect] at h
  obtain ⟨result, hresult, -⟩ := Option.bind_eq_some_iff.mp h
  exact ⟨result, hresult⟩

/-- The loop finishes with the conjunction of the verdicts, whatever the order in which they
arrive, exactly when there is a verdict to wait for and every search delivers one. -/
theorem collect_finishes_iff (verdict : ℕ → ℤ → ℕ → Option Bool) (parts : ℕ)
    (hmono : ∀ {fuel fuel' p ok}, fuel ≤ fuel' → verdict fuel 0 p = some ok →
      verdict fuel' 0 p = some ok) :
    (0 < parts ∧ ∀ p < parts, ∃ ok n, ∀ fuel ≥ n, verdict fuel 0 p = some ok) ↔
      ∀ order : List ℕ, order.Perm (List.range parts) → ∃ ok n,
        (∀ fuel ≥ n, collect (verdict fuel) parts 0 true 0 0 (order.map .result) = some ok) ∧
        (ok = true ↔ ∀ p < parts, ∃ n, ∀ fuel ≥ n, verdict fuel 0 p = some true) := by
  constructor
  · rintro ⟨hpos, hall⟩ order hperm
    choose! v n hv using hall
    -- fuel for the longest of the searches
    have hfuel : ∀ p < parts, ∀ fuel ≥ (Finset.range parts).sup n, verdict fuel 0 p = some (v p) :=
      fun p hp fuel hle => hv p hp fuel
        (le_trans (Finset.le_sup (Finset.mem_range.mpr hp)) hle)
    have hmem : ∀ p ∈ order, p < parts := fun p hp => List.mem_range.mp (hperm.mem_iff.mp hp)
    have hlen : order.length = parts := by rw [hperm.length_eq, List.length_range]
    refine ⟨order.all v, (Finset.range parts).sup n, fun fuel hle => ?_, ?_⟩
    · rw [← List.append_nil (order.map Arrival.result)]
      exact collect_eq_all (fun p hp => hfuel p (hmem p hp) fuel hle) (by omega)
        (List.ne_nil_of_length_pos (by omega)) []
    · rw [List.all_eq_true]
      constructor
      · intro htrue p hp
        have hvp := htrue p (hperm.mem_iff.mpr (List.mem_range.mpr hp))
        exact ⟨_, fun fuel hle => by rw [hfuel p hp fuel hle, hvp]⟩
      · intro htrue p hp
        obtain ⟨n', hn'⟩ := htrue p (hmem p hp)
        have h1 := hn' (max n' ((Finset.range parts).sup n)) (le_max_left ..)
        rw [hfuel p (hmem p hp) _ (le_max_right ..)] at h1
        exact Option.some.inj h1
  · intro h
    refine ⟨?_, fun p hp => ?_⟩
    · -- without a part the loop waits for ever
      by_contra hzero
      obtain rfl : parts = 0 := by omega
      obtain ⟨ok, n, hn, -⟩ := h [] (List.Perm.refl _)
      cases hn n le_rfl
    · -- let this part be the first one to deliver
      have hperm := (List.perm_cons_erase (List.mem_range.mpr hp)).symm
      obtain ⟨ok, n, hn, -⟩ := h _ hperm
      obtain ⟨result, hresult⟩ := exists_verdict_of_collect (hn n le_rfl)
      exact ⟨result, n, fun fuel hle => hmono hle hresult⟩

end Collect

/-- What `checkSingle` returns for a list of entries as long as nobody sets the kill flag. -/
def search [Inhabited V] (model : Model σ V) (entries : List (Entry V)) (fuel : ℕ) : Option Bool :=
  checkSingle model (makeLinkedEntries entries).1 (makeLinkedEntries entries).2 (fun _ => 0) fuel

/-- The search of a list of entries comes to an end. -/
def Delivers [Inhabited V] (model : Model σ V) (entries : List (Entry V)) : Prop :=
  ∃ ok n, ∀ fuel ≥ n, search model entries fuel = some ok

/-- The search of a list of entries ends with the verdict `true`. -/
def Accepts [Inhabited V] (model : Model σ V) (entries : List (Entry V)) : Prop :=
  ∃ n, ∀ fuel ≥ n, search model entries fuel = some true

/-- In every order in which the verdicts of the parts arrive, the collecting loop finishes,
with `true` exactly when all parts are accepted. -/
def Combines [Inhabited V] (model : Model σ V) (parts : List (List (Entry V)))
    (check : List ℕ → ℕ → Option Bool) : Prop :=
  ∀ order : List ℕ, order.Perm (List.range parts.length) →
    ∃ ok n, (∀ fuel ≥ n, check order fuel = some ok) ∧
      (ok = true ↔ ∀ part ∈ parts, Accepts model part)

/-- What the goroutine of part `p` delivers when it has read `kill`. -/
def partVerdict [Inhabited V] (model : Model σ V) (parts : List (List (Entry V))) (fuel : ℕ)
    (kill : ℤ) (p : ℕ) : Option Bool :=
  (parts[p]?).bind fun entries => checkSingle model (makeLinkedEntries entries).1
    (makeLinkedEntries entries).2 (fun _ => kill) fuel

section Parts

variable [Inhabited V] {model : Model σ V} {parts : List (List (Entry V))}

theorem partVerdict_eq_search {p : ℕ} (hp : p < parts.length) (fuel : ℕ) :
    partVerdict model parts fuel 0 p = search model parts[p] fuel := by
  rw [partVerdict, List.getElem?_eq_getElem hp]
  rfl

theorem partVerdict_mono {fuel fuel' p : ℕ} {kill : ℤ} {ok : Bool} (hle : fuel ≤ fuel')
    (h : partVerdict model parts fuel kill p = some ok) :
    partVerdict model parts fuel' kill p = some ok := by
  obtain ⟨entries, hp, hok⟩ := Option.bind_eq_some_iff.mp h
  rw [partVerdict, hp]
  exact checkSingle_mono hle hok

/-- What both entry points do with the entries of their parts. -/
theorem combines_iff {check : List ℕ → ℕ → Option Bool}
    (hcheck : ∀ order fuel, check order fuel =
      collect (partVerdict model parts fuel) parts.length 0 true 0 0 (order.map .result)) :
    Combines model parts check ↔ parts ≠ [] ∧ ∀ part ∈ parts, Delivers model part := by
  have hdeliver : (∀ part ∈ parts, Delivers model part) ↔
      ∀ p < parts.length, ∃ ok n, ∀ fuel ≥ n, partVerdict model parts fuel 0 p = some ok := by
    rw [List.forall_mem_iff_forall_getElem]
    exact forall₂_congr fun p hp => by simp only [Delivers, partVerdict_eq_search hp]
  have haccept : (∀ part ∈ parts, Accepts model part) ↔
      ∀ p < parts.length, ∃ n, ∀ fuel ≥ n, partVerdict model parts fuel 0 p = some true := by
    rw [List.forall_mem_iff_forall_getElem]
    exact forall₂_congr fun p hp => by simp only [Accepts, partVerdict_eq_search hp]
  rw [hdeliver, ← List.length_pos_iff, collect_finishes_iff (partVerdict model parts) parts.length
    partVerdict_mono]
  simp only [Combines, hcheck, haccept]

/-- The entries of a part are made from its subhistory. -/
theorem partVerdict_map {H : Type} (entriesOf : H → List (Entry V)) (hs : List H) (fuel : ℕ) :
    partVerdict model (hs.map entriesOf) fuel = fun kill p => (hs[p]?).bind fun subhistory =>
      checkSingle model (makeLinkedEntries (entriesOf subhistory)).1
        (makeLinkedEntries (entriesOf subhistory)).2 (fun _ => kill) fuel := by
  funext kill p
  rw [partVerdict, List.getElem?_map, Option.bind_map]
  rfl

end Parts

section EntryPoints

variable [BEq σ]

/-- The entries that `CheckOperations` searches, part by part. -/
def operationParts (model : UserModel σ V) (so : Sorting V) (history : List (Operation V)) :
    List (List (Entry V)) :=
  ((fillDefault model).partition history).map (makeEntries so)

/-- The entries that `CheckEvents` searches, part by part. -/
def eventParts (model : UserModel σ V) (history : List (Event V)) : List (List (Entry V)) :=
  ((fillDefault model).partitionEvent history).map fun subhistory =>
    convertEntries (renumber subhistory)

variable [Inhabited V]

theorem checkOperationsTimeout_eq_collect (model : UserModel σ V) (so : Sorting V)
    (history : List (Operation V)) (timeout : ℤ) (arrivals : List Arrival) (fuel : ℕ) :
    checkOperationsTimeout model so history timeout arrivals fuel =
      collect (partVerdict (fillDefault model).toModel (operationParts model so history) fuel)
        (operationParts model so history).length timeout true 0 0 arrivals := by
  rw [operationParts, partVerdict_map, List.length_map]
  rfl

theorem combines_operations_iff (model : UserModel σ V) (so : Sorting V)
    (history : List (Operation V)) :
    Combines (fillDefault model).toModel (operationParts model so history)
        (checkOperations model so history) ↔
      operationParts model so history ≠ [] ∧
        ∀ part ∈ operationParts model so history, Delivers (fillDefault model).toModel part :=
  combines_iff fun order => checkOperationsTimeout_eq_collect model so history 0 (order.map .result)

theorem checkEvents_eq_collect (model : UserModel σ V) (history : List (Event V))
    (order : List ℕ) (fuel : ℕ) :
    checkEvents model history order fuel =
      collect (partVerdict (fillDefault model).toModel (eventParts model history) fuel)
        (eventParts model history).length 0 true 0 0 (order.map .result) := by
  rw [eventParts, partVerdict_map, List.length_map]
  rfl

/-- **The verdicts of the parts are combined correctly, in every order of their arrival,
exactly when there is a part and the search of every part comes to an end.**  This is so for
both entry points, every model and every history. -/
theorem verdicts_combined_iff (model : UserModel σ V) (so : Sorting V) :
    (∀ history : List (Operation V),
      Combines (fillDefault model).toModel (operationParts model so history)
          (checkOperations model so history) ↔
        (fillDefault model).partition history ≠ [] ∧
          ∀ part ∈ operationParts model so history, Delivers (fillDefault model).toModel part) ∧
    ∀ history : List (Event V),
      Combines (fillDefault model).toModel (eventParts model history)
          (checkEvents model history) ↔
        (fillDefault model).partitionEvent history ≠ [] ∧
          ∀ part ∈ eventParts model history, Delivers (fillDefault model).toModel part := by
  constructor
  · intro history
    rw [combines_operations_iff, operationParts, ne_eq, List.map_eq_nil_iff]
  · intro history
    rw [combines_iff (checkEvents_eq_collect model history), eventParts, ne_eq,
      List.map_eq_nil_iff]

end EntryPoints

theorem operationParts_kvModel_nil (ord : RangeOrder String) (so : Sorting KvValue) :
    operationParts (kvModel ord) so [] = [] := by
  have hvisit : ord.visit [] = [] := (ord.perm []).eq_nil
  show ((ord.visit []).map _).map (makeEntries so) = []
  rw [hvisit, List.map_nil, List.map_nil]

/-- `KvModel` makes no part of the empty history: the loop waits for a verdict that nobody
sends, although no part is rejected. -/
theorem emptyHistory_not_combined :
    let model := kvModel ⟨id, List.Perm.refl⟩
    operationParts model byTime [] = [] ∧
      (∀ order fuel, order.Perm (List.range (operationParts model byTime []).length) →
        checkOperations model byTime [] order fuel = none) ∧
      ¬ Combines (fillDefault model).toModel (operationParts model byTime [])
        (checkOperations model byTime []) := by
  intro model
  have hparts : operationParts model byTime [] = [] := operationParts_kvModel_nil _ _
  have hblocks : ∀ order fuel, order.Perm (List.range (operationParts model byTime []).length) →
      checkOperations model byTime [] order fuel = none := by
    intro order fuel hperm
    rw [hparts] at hperm
    rw [hperm.eq_nil]
    rfl
  refine ⟨hparts, hblocks, ?_⟩
  intro hcomb
  obtain ⟨ok, n, hn, -⟩ := hcomb _ (List.Perm.refl _)
  have hsome := hn n le_rfl
  rw [hblocks _ _ (List.Perm.refl _)] at hsome
  cases hsome

/-! ## What renumbering does -/

/-- The identities that have been given are `0` to `id - 1`, each to one old identity of
`seen`. -/
structure Numbering (m : ℕ → Option ℕ) (id : ℕ) (seen : Set ℕ) : Prop where
  dom : ∀ x, x ∈ seen ↔ ∃ r, m x = some r
  bound : ∀ x r, m x = some r → r < id
  inj : ∀ x y r, m x = some r → m y = some r → x = y
  onto : ∀ r < id, ∃ x, m x = some r

theorem numbering_empty : Numbering (fun _ => none) 0 ∅ :=
  ⟨by simp, by simp, by simp, fun r hr => absurd hr (Nat.not_lt_zero r)⟩

/-- One more identity. -/
theorem Numbering.update {m : ℕ → Option ℕ} {id x : ℕ} {seen : Set ℕ} (h : Numbering m id seen)
    (hx : m x = none) :
    Numbering (Function.update m x (some id)) (id + 1) (insert x seen) := by
  have hself : Function.update m x (some id) x = some id := Function.update_self ..
  have hother : ∀ {y}, y ≠ x → Function.update m x (some id) y = m y := fun hy =>
    Function.update_of_ne hy ..
  have hcases : ∀ y r, Function.update m x (some id) y = some r →
      (y = x ∧ r = id) ∨ (y ≠ x ∧ m y = some r) := by
    intro y r hy
    rcases eq_or_ne y x with rfl | hne
    · rw [hself] at hy
      exact .inl ⟨rfl, (Option.some.inj hy).symm⟩
    · rw [hother hne] at hy
      exact .inr ⟨hne, hy⟩
  refine ⟨fun y => ?_, fun y r hy => ?_, fun y z r hy hz => ?_, fun r hr => ?_⟩
  · rcases eq_or_ne y x with rfl | hne
    · rw [hself]
      exact ⟨fun _ => ⟨id, rfl⟩, fun _ => Set.mem_insert y seen⟩
    · rw [hother hne, Set.mem_insert_iff, ← h.dom y]
      exact ⟨fun hy => hy.resolve_left hne, .inr⟩
  · rcases hcases y r hy with ⟨-, rfl⟩ | ⟨-, hold⟩
    · exact Nat.lt_succ_self r
    · exact (h.bound y r hold).trans (Nat.lt_succ_self id)
  · -- the new number is larger than the old ones
    rcases hcases y r hy with ⟨rfl, rfl⟩ | ⟨-, hy'⟩
    · rcases hcases z r hz with ⟨rfl, -⟩ | ⟨-, hz'⟩
      · rfl
      · exact absurd (h.bound z r hz') (lt_irrefl r)
    · rcases hcases z r hz with ⟨-, rfl⟩ | ⟨-, hz'⟩
      · exact absurd (h.bound y r hy') (lt_irrefl r)
      · exact h.inj y z r hy' hz'
  · rcases Nat.lt_succ_iff_lt_or_eq.mp hr with hlt | rfl
    · obtain ⟨y, hy⟩ := h.onto r hlt
      have hne : y ≠ x := by
        rintro rfl
        rw [hx] at hy
        cases hy
      exact ⟨y, by rw [hother hne, hy]⟩
    · exact ⟨x, hself⟩

/-- An event under a new identity. -/
def Event.relabel (f : ℕ → ℕ) (v : Event V) : Event V :=
  ⟨v.kind, v.value, f v.id⟩

/-- The loop extends the table, and every event gets the number of its identity in it. -/
theorem renumberFrom_spec {m : ℕ → Option ℕ} {id : ℕ} {seen : Set ℕ} (events : List (Event V))
    (h : Numbering m id seen) :
    ∃ (m' : ℕ → Option ℕ) (d : ℕ),
      Numbering m' d (seen ∪ {x | ∃ v ∈ events, v.id = x}) ∧
      (∀ x r, m x = some r → m' x = some r) ∧
      ∀ rest, renumberFrom m id (events ++ rest) =
        events.map (Event.relabel fun x => (m' x).getD 0) ++ renumberFrom m' d rest := by
  induction events generalizing m id seen with
  | nil => exact ⟨m, id, by simpa using h, fun x r hx => hx, fun rest => rfl⟩
  | cons v events ih =>
      have hset : ∀ seen' : Set ℕ, seen' = insert v.id seen →
          seen' ∪ {x | ∃ w ∈ events, w.id = x} = seen ∪ {x | ∃ w ∈ v :: events, w.id = x} := by
        rintro seen' rfl
        ext x
        simp only [Set.mem_union, Set.mem_insert_iff, Set.mem_ofPred_eq, List.mem_cons,
          exists_eq_or_imp]
        tauto
      rcases hv : m v.id with _ | r
      · obtain ⟨m', d, hnum, hext, heq⟩ := ih (h.update hv)
        rw [hset _ rfl] at hnum
        refine ⟨m', d, hnum, fun x r hx => hext x r ?_, fun rest => ?_⟩
        · rw [Function.update_of_ne (by rintro rfl; rw [hv] at hx; cases hx), hx]
        · have hself : m' v.id = some id := hext v.id id (Function.update_self ..)
          rw [List.cons_append, renumberFrom, hv, List.map_cons, List.cons_append, ← heq,
            Event.relabel, hself]
          rfl
      · obtain ⟨m', d, hnum, hext, heq⟩ := ih h
        have hold : insert v.id seen = seen := Set.insert_eq_of_mem ((h.dom v.id).mpr ⟨r, hv⟩)
        rw [hset _ hold.symm] at hnum
        refine ⟨m', d, hnum, hext, fun rest => ?_⟩
        rw [List.cons_append, renumberFrom, hv, List.map_cons, List.cons_append, ← heq,
          Event.relabel, hext v.id r hv]
        rfl

/-- **`renumber` renames the identities** one to one to `0`, …, `d - 1`. -/
theorem renumber_spec (events : List (Event V)) :
    ∃ (f : ℕ → ℕ) (d : ℕ), renumber events = events.map (Event.relabel f) ∧
      (∀ v ∈ events, f v.id < d) ∧
      (∀ v ∈ events, ∀ w ∈ events, f v.id = f w.id → v.id = w.id) ∧
      ∀ i < d, ∃ v ∈ events, f v.id = i := by
  obtain ⟨m, d, hnum, -, hrest⟩ := renumberFrom_spec events numbering_empty
  have heq := hrest []
  rw [List.append_nil, renumberFrom, List.append_nil] at heq
  rw [Set.empty_union] at hnum
  have hget : ∀ v ∈ events, m v.id = some ((m v.id).getD 0) := by
    intro v hv
    obtain ⟨r, hr⟩ := (hnum.dom v.id).mp ⟨v, hv, rfl⟩
    rw [hr]
    rfl
  refine ⟨fun x => (m x).getD 0, d, heq, fun v hv => hnum.bound _ _ (hget v hv),
    fun v hv w hw hvw => hnum.inj _ _ _ (hget v hv) ?_, fun i hi => ?_⟩
  · rw [hget w hw]
    exact congrArg some hvw.symm
  · obtain ⟨x, hx⟩ := hnum.onto i hi
    obtain ⟨v, hv, rfl⟩ := (hnum.dom x).mpr ⟨i, hx⟩
    exact ⟨v, hv, by simp only [hx, Option.getD_some]⟩

/-! ## Histories under other identities -/

/-- An entry under a new identity, without its time. -/
def Entry.rename (f : ℕ → ℕ) (e : Entry V) : Entry V :=
  ⟨e.kind, e.value, f e.id, -1⟩

section Rename

variable {entries : List (Entry V)} {n d : ℕ} {f : ℕ → ℕ}

theorem mem_rename_id_iff (hc : Complete entries n) (hf : Set.InjOn f (Finset.range n))
    {e : Entry V} (he : e ∈ entries) {i : ℕ} (hi : i < n) :
    (Entry.rename f e).id = f i ↔ e.id = i :=
  ⟨fun h => hf (Finset.mem_coe.mpr (Finset.mem_range.mpr (hc.id_lt e he)))
    (Finset.mem_coe.mpr (Finset.mem_range.mpr hi)) h, fun h => congrArg f h⟩

/-- New identities `0`, …, `d - 1`. -/
theorem Complete.rename (hc : Complete entries n) (hf : Set.InjOn f (Finset.range n))
    (hd : (Finset.range n).image f = Finset.range d) :
    Complete (entries.map (Entry.rename f)) d := by
  constructor
  · intro e' he'
    obtain ⟨e, he, rfl⟩ := List.mem_map.mp he'
    rw [← Finset.mem_range, ← hd]
    exact Finset.mem_image_of_mem f (Finset.mem_range.mpr (hc.id_lt e he))
  · intro j hj
    rw [← Finset.mem_range, ← hd] at hj
    obtain ⟨i, hi, rfl⟩ := Finset.mem_image.mp hj
    rw [Finset.mem_range] at hi
    rw [List.filter_map, List.map_map, ← hc.paired i hi]
    have hfilter : entries.filter ((fun e => decide (e.id = f i)) ∘ Entry.rename f) =
        entries.filter fun e => e.id = i :=
      List.filter_congr fun e he => decide_eq_decide.mpr (mem_rename_id_iff hc hf he hi)
    rw [hfilter]
    rfl

theorem operation_rename [Inhabited V] (hc : Complete entries n)
    (hf : Set.InjOn f (Finset.range n)) {i : ℕ} (hi : i < n) :
    operation (entries.map (Entry.rename f)) (f i) = operation entries i := by
  have hvalue : ∀ kind, valueOf (entries.map (Entry.rename f)) kind (f i) =
      valueOf entries kind i := by
    intro kind
    have hfind : entries.find? ((fun e => decide (e.kind = kind ∧ e.id = f i)) ∘ Entry.rename f) =
        entries.find? fun e => e.kind = kind ∧ e.id = i :=
      List.find?_congr fun e he => decide_eq_decide.mpr
        (and_congr_right fun _ => mem_rename_id_iff hc hf he hi)
    rw [valueOf, List.find?_map, hfind, Option.map_map]
    rfl
  rw [operation, hvalue, hvalue]
  rfl

theorem returnsBefore_rename (hc : Complete entries n) (hf : Set.InjOn f (Finset.range n))
    {i j : ℕ} (hi : i < n) (hj : j < n) :
    ReturnsBefore (entries.map (Entry.rename f)) (f i) (f j) ↔ ReturnsBefore entries i j := by
  constructor
  · rintro ⟨pre, r, post, heq, hrk, hri, c, hcin, hck, hcj⟩
    obtain ⟨pre', rest, rfl, -, hrest⟩ := List.map_eq_append_iff.mp heq
    obtain ⟨r', post', rfl, rfl, rfl⟩ := List.map_eq_cons_iff.mp hrest
    obtain ⟨c', hc', rfl⟩ := List.mem_map.mp hcin
    exact ⟨pre', r', post', rfl, hrk, (mem_rename_id_iff hc hf (by simp) hi).mp hri, c', hc', hck,
      (mem_rename_id_iff hc hf (by simp [hc']) hj).mp hcj⟩
  · rintro ⟨pre, r, post, heq, hrk, hri, c, hcin, hck, hcj⟩
    refine ⟨pre.map (Entry.rename f), Entry.rename f r, post.map (Entry.rename f), ?_, hrk,
      congrArg f hri, Entry.rename f c, List.mem_map_of_mem hcin, hck, congrArg f hcj⟩
    rw [heq, List.map_append, List.map_cons]

end Rename

/-! ## The events of a timed history -/

/-- The event of an entry; operation `i` has the identity `ids i`. -/
def Entry.toEvent (ids : ℕ → ℕ) (e : Entry V) : Event V :=
  ⟨if e.kind = .returnEntry then .returnEvent else .callEvent, e.value, ids e.id⟩

/-- The calls and the returns of the operations in time order. -/
def eventsOf (so : Sorting V) (ids : ℕ → ℕ) (history : List (Operation V)) : List (Event V) :=
  (makeEntries so history).map (Entry.toEvent ids)

/-- An event becomes the entry that it was. -/
theorem convertEntries_toEvent (f ids : ℕ → ℕ) (entries : List (Entry V)) :
    convertEntries ((entries.map (Entry.toEvent ids)).map (Event.relabel f)) =
      entries.map (Entry.rename (f ∘ ids)) := by
  rw [convertEntries, List.map_map, List.map_map]
  refine List.map_congr_left fun e _ => ?_
  rcases e with ⟨kind, value, id, time⟩
  cases kind with
  | callEntry => rfl
  | returnEntry => rfl

section Events

variable {ids : ℕ → ℕ} {history : List (Operation V)}

/-- What `CheckEvents` searches: the entries of `CheckOperations` under other identities. -/
theorem renumber_eventsOf (so : Sorting V) (hids : Set.InjOn ids (Finset.range history.length)) :
    ∃ (f : ℕ → ℕ) (d : ℕ), Set.InjOn f (Finset.range history.length) ∧
      (Finset.range history.length).image f = Finset.range d ∧
      convertEntries (renumber (eventsOf so ids history)) =
        (makeEntries so history).map (Entry.rename f) := by
  obtain ⟨g, d, heq, hbound, hinj, honto⟩ := renumber_spec (eventsOf so ids history)
  -- every operation has an event, its call
  have hevent : ∀ i < history.length, ∃ v ∈ eventsOf so ids history, v.id = ids i := by
    intro i hi
    have hmem : history[i].callEntry i ∈ makeEntries so history :=
      mem_makeEntries.mpr ⟨i, history[i], List.getElem?_eq_getElem hi, .inl rfl⟩
    exact ⟨_, List.mem_map_of_mem hmem, rfl⟩
  refine ⟨g ∘ ids, d, ?_, ?_, ?_⟩
  · intro i hi j hj hij
    obtain ⟨v, hv, hvi⟩ := hevent i (Finset.mem_range.mp hi)
    obtain ⟨w, hw, hwj⟩ := hevent j (Finset.mem_range.mp hj)
    refine hids hi hj ?_
    rw [← hvi, ← hwj]
    exact hinj v hv w hw (by rw [hvi, hwj]; exact hij)
  · ext r
    rw [Finset.mem_image, Finset.mem_range]
    constructor
    · rintro ⟨i, hi, rfl⟩
      obtain ⟨v, hv, hvi⟩ := hevent i (Finset.mem_range.mp hi)
      rw [Function.comp_apply, ← hvi]
      exact hbound v hv
    · intro hr
      obtain ⟨v, hv, rfl⟩ := honto r hr
      obtain ⟨e, he, rfl⟩ := List.mem_map.mp hv
      obtain ⟨i, op, hi, he'⟩ := mem_makeEntries.mp he
      have hlt := (List.getElem?_eq_some_iff.mp hi).1
      refine ⟨i, Finset.mem_range.mpr hlt, ?_⟩
      rcases he' with rfl | rfl
      · rfl
      · rfl
  · rw [heq, eventsOf, convertEntries_toEvent]

/-- The search of the events ends, and its verdict says whether the timed history is
linearizable. -/
theorem exists_verdict_events [BEq σ] [Inhabited V] {model : UserModel σ V} (so : Sorting V)
    (hcong : (fillDefault model).Congruent) (hlt : ∀ op ∈ history, op.call < op.ret)
    (hne : ∀ a ∈ history, ∀ b ∈ history, a.ret ≠ b.call)
    (hids : Set.InjOn ids (Finset.range history.length)) :
    ∃ ok n, (∀ fuel ≥ n, search (fillDefault model).toModel
        (convertEntries (renumber (eventsOf so ids history))) fuel = some ok) ∧
      (ok = true ↔ TimedLinearizable (fillDefault model).spec history) := by
  obtain ⟨f, d, hf, hd, heq⟩ := renumber_eventsOf so hids
  have hc := makeEntries_complete so hlt
  have harr : Arrangeable (fillDefault model).spec
      (operation ((makeEntries so history).map (Entry.rename f)))
      (ReturnsBefore ((makeEntries so history).map (Entry.rename f))) (Finset.range d)
      (fillDefault model).init ↔ TimedLinearizable (fillDefault model).spec history := by
    rw [← hd, arrangeable_image_iff hf
      (fun i hi => operation_rename hc hf (Finset.mem_range.mp hi))
      (fun i hi j hj => returnsBefore_rename hc hf (Finset.mem_range.mp hi)
        (Finset.mem_range.mp hj)), arrangeable_makeEntries_iff hne]
    rfl
  obtain ⟨ok, n, hn, hok⟩ := checkSingle_decides hcong (Complete.rename hc hf hd)
  rw [heq]
  exact ⟨ok, n, hn, hok.trans harr⟩

end Events

/-! ## The verdicts -/

/-- A search that ends with the right verdict. -/
theorem accepts_iff_of_verdict [Inhabited V] {model : Model σ V} {entries : List (Entry V)}
    {P : Prop} (h : ∃ ok n, (∀ fuel ≥ n, search model entries fuel = some ok) ∧ (ok = true ↔ P)) :
    Delivers model entries ∧ (Accepts model entries ↔ P) := by
  obtain ⟨ok, n, hn, hok⟩ := h
  refine ⟨⟨ok, n, hn⟩, ?_⟩
  rw [← hok]
  constructor
  · rintro ⟨n', hn'⟩
    have htrue := hn' (max n n') (le_max_right ..)
    rw [hn _ (le_max_left ..)] at htrue
    exact Option.some.inj htrue
  · rintro rfl
    exact ⟨n, hn⟩

section Verdicts

variable [BEq σ] [Inhabited V] {model : UserModel σ V} {so : Sorting V}
  {history : List (Operation V)} {order : List ℕ}

/-- `CheckOperations` says whether all parts are linearizable. -/
theorem checkOperations_verdict (hcong : (fillDefault model).Congruent)
    (hparts : (fillDefault model).partition history ≠ [])
    (hlt : ∀ part ∈ (fillDefault model).partition history, ∀ op ∈ part, op.call < op.ret)
    (hne : ∀ part ∈ (fillDefault model).partition history, ∀ a ∈ part, ∀ b ∈ part, a.ret ≠ b.call)
    (horder : order.Perm (List.range (operationParts model so history).length)) :
    ∃ ok n, (∀ fuel ≥ n, checkOperations model so history order fuel = some ok) ∧
      (ok = true ↔ ∀ part ∈ (fillDefault model).partition history,
        TimedLinearizable (fillDefault model).spec part) := by
  have hpart : ∀ part ∈ (fillDefault model).partition history,
      Delivers (fillDefault model).toModel (makeEntries so part) ∧
        (Accepts (fillDefault model).toModel (makeEntries so part) ↔
          TimedLinearizable (fillDefault model).spec part) := by
    intro part hin
    obtain ⟨ok, n, hn, hok⟩ := exists_verdict so hcong (hlt part hin)
    exact accepts_iff_of_verdict
      ⟨ok, n, hn, hok.trans (arrangeable_makeEntries_iff (hne part hin))⟩
  have hcomb := (combines_operations_iff model so history).mpr
    ⟨List.map_eq_nil_iff.not.mpr hparts, List.forall_mem_map.mpr fun part hin => (hpart part hin).1⟩
  obtain ⟨ok, n, hn, hok⟩ := hcomb order horder
  refine ⟨ok, n, hn, hok.trans ?_⟩
  rw [operationParts, List.forall_mem_map]
  exact forall₂_congr fun part hin => (hpart part hin).2

/-- Without `PartitionEvent`, `CheckEvents` says whether the history is linearizable. -/
theorem checkEvents_verdict (hpart : (fillDefault model).partitionEvent = noPartitionEvent)
    (hcong : (fillDefault model).Congruent) (hlt : ∀ op ∈ history, op.call < op.ret)
    (hne : ∀ a ∈ history, ∀ b ∈ history, a.ret ≠ b.call) {ids : ℕ → ℕ}
    (hids : Set.InjOn ids (Finset.range history.length))
    (horder : order.Perm (List.range (eventParts model (eventsOf so ids history)).length)) :
    ∃ ok n, (∀ fuel ≥ n, checkEvents model (eventsOf so ids history) order fuel = some ok) ∧
      (ok = true ↔ TimedLinearizable (fillDefault model).spec history) := by
  obtain ⟨hdeliver, haccept⟩ :=
    accepts_iff_of_verdict (exists_verdict_events so hcong hlt hne hids)
  have hparts : eventParts model (eventsOf so ids history) =
      [convertEntries (renumber (eventsOf so ids history))] := by
    rw [eventParts, hpart]
    rfl
  have hcomb := (combines_iff (checkEvents_eq_collect model (eventsOf so ids history))).mpr
    (by rw [hparts]; exact ⟨List.cons_ne_nil _ _, List.forall_mem_singleton.mpr hdeliver⟩)
  obtain ⟨ok, n, hn, hok⟩ := hcomb order horder
  rw [hparts, List.forall_mem_singleton] at hok
  exact ⟨ok, n, hn, hok.trans haccept⟩

end Verdicts

/-! ## Histories of the key/value store -/

theorem kvModel_congruent (ord : RangeOrder String) : (fillDefault (kvModel ord)).Congruent := by
  -- `KvModel` names the function that is the default
  have hdefault : (fillDefault { kvModel ord with equal := none }).Congruent :=
    congruent_of_equal_none rfl
  exact hdefault

/-- The times of all calls and returns. -/
def timestamps (history : List KvOperation) : List ℤ :=
  history.flatMap fun op => [op.call, op.ret]

/-- Every call is before its return, and no two of these instants are the same. -/
structure WellTimed (history : List KvOperation) : Prop where
  lt : ∀ op ∈ history, op.call < op.ret
  distinct : (timestamps history).Nodup

/-- For every order in which the verdicts arrive, the two entry points return the same one. -/
def EntryPointsAgree (history : List KvOperation) : Prop :=
  ∀ (ord : RangeOrder String) (so so' : Sorting KvValue) (ids : ℕ → ℕ),
    Set.InjOn ids (Finset.range history.length) →
    let ops := history.map KvOperation.toOperation
    let events := eventsOf so' ids ops
    ∀ order order' : List ℕ,
      order.Perm (List.range (operationParts (kvModel ord) so ops).length) →
      order'.Perm (List.range (eventParts (kvModel ord) events).length) →
      ∃ ok n, ∀ fuel ≥ n, checkOperations (kvModel ord) so ops order fuel = some ok ∧
        checkEvents (kvModel ord) events order' fuel = some ok

section KvHistories

variable {history : List KvOperation}

/-- In well-timed histories no return meets a call. -/
theorem WellTimed.ret_ne_call (h : WellTimed history) {a b : KvOperation} (ha : a ∈ history)
    (hb : b ∈ history) : a.ret ≠ b.call := by
  rcases eq_or_ne a b with rfl | hne
  · exact (h.lt a ha).ne'
  · have hsymm :
        Std.Symm (Function.onFun List.Disjoint fun op : KvOperation => [op.call, op.ret]) :=
      ⟨fun _ _ hxy => hxy.symm⟩
    have hdisj := (List.nodup_flatMap.mp h.distinct).2.forall ha hb hne
    intro heq
    exact hdisj (show a.ret ∈ [a.call, a.ret] by simp) (show a.ret ∈ [b.call, b.ret] by simp [heq])

/-- `CheckOperations` returns whether the history of the store is linearizable. -/
theorem checkOperations_kvModel (hne : history ≠ []) (h : WellTimed history)
    {ord : RangeOrder String} {so : Sorting KvValue} {order : List ℕ}
    (horder : order.Perm (List.range
      (operationParts (kvModel ord) so (history.map KvOperation.toOperation)).length)) :
    ∃ ok n, (∀ fuel ≥ n, checkOperations (kvModel ord) so (history.map KvOperation.toOperation)
        order fuel = some ok) ∧
      (ok = true ↔ TimedLinearizable kvMapSpec (history.map KvOperation.toOperation)) := by
  have hperm := flatten_kvPartition_perm ord (history.map KvOperation.toOperation)
  -- the operations of the parts are those of the history
  have hmem : ∀ part ∈ kvPartition ord (history.map KvOperation.toOperation), ∀ op ∈ part,
      ∃ op' ∈ history, op'.toOperation = op := fun part hpart op hop =>
    List.mem_map.mp (hperm.mem_iff.mp (List.mem_flatten.mpr ⟨part, hpart, hop⟩))
  have hparts : kvPartition ord (history.map KvOperation.toOperation) ≠ [] := by
    intro hnil
    rw [hnil, List.flatten_nil] at hperm
    exact hne (List.map_eq_nil_iff.mp hperm.symm.eq_nil)
  rw [timedLinearizable_kvMapSpec_iff ord]
  · refine checkOperations_verdict (kvModel_congruent ord) hparts ?_ ?_ horder
    · intro part hpart op hop
      obtain ⟨op', hop', rfl⟩ := hmem part hpart op hop
      exact h.lt op' hop'
    · intro part hpart a ha b hb
      obtain ⟨a', ha', rfl⟩ := hmem part hpart a ha
      obtain ⟨b', hb', rfl⟩ := hmem part hpart b hb
      exact h.ret_ne_call ha' hb'
  · intro op hop
    obtain ⟨op', hop', rfl⟩ := List.mem_map.mp hop
    exact (h.lt op' hop').le

/-- `CheckEvents` returns whether the history would be linearizable on one key. -/
theorem checkEvents_kvModel (h : WellTimed history) {ord : RangeOrder String}
    {so : Sorting KvValue} {ids : ℕ → ℕ} (hids : Set.InjOn ids (Finset.range history.length))
    {order : List ℕ} (horder : order.Perm (List.range
      (eventParts (kvModel ord)
        (eventsOf so ids (history.map KvOperation.toOperation))).length)) :
    ∃ ok n, (∀ fuel ≥ n, checkEvents (kvModel ord)
        (eventsOf so ids (history.map KvOperation.toOperation)) order fuel = some ok) ∧
      (ok = true ↔ TimedLinearizable (fillDefault (kvModel ord)).spec
        (history.map KvOperation.toOperation)) := by
  refine checkEvents_verdict rfl (kvModel_congruent ord) ?_ ?_ ?_ horder
  · intro op hop
    obtain ⟨op', hop', rfl⟩ := List.mem_map.mp hop
    exact h.lt op' hop'
  · intro a ha b hb
    obtain ⟨a', ha', rfl⟩ := List.mem_map.mp ha
    obtain ⟨b', hb', rfl⟩ := List.mem_map.mp hb
    exact h.ret_ne_call ha' hb'
  · rw [List.length_map]
    exact hids

theorem entryPointsAgree_iff (hne : history ≠ []) (h : WellTimed history) :
    EntryPointsAgree history ↔ ∀ ord : RangeOrder String,
      (TimedLinearizable kvMapSpec (history.map KvOperation.toOperation) ↔
        TimedLinearizable (fillDefault (kvModel ord)).spec
          (history.map KvOperation.toOperation)) := by
  constructor
  · intro hagree ord
    have hids : Set.InjOn id (Finset.range history.length : Set ℕ) := Function.injective_id.injOn
    obtain ⟨ok, n, hn⟩ := hagree ord byTime byTime id hids _ _ (List.Perm.refl _) (List.Perm.refl _)
    obtain ⟨ok₁, n₁, hn₁, hok₁⟩ := checkOperations_kvModel hne h (List.Perm.refl _)
    obtain ⟨ok₂, n₂, hn₂, hok₂⟩ := checkEvents_kvModel h hids (List.Perm.refl _)
    -- with enough fuel for both, the verdicts can be compared
    obtain ⟨h₁, h₂⟩ := hn (max n (max n₁ n₂)) (le_max_left ..)
    rw [hn₁ _ (by omega)] at h₁
    rw [hn₂ _ (by omega)] at h₂
    rw [← hok₁, ← hok₂, Option.some.inj h₁, Option.some.inj h₂]
  · intro hiff ord so so' ids hids ops events order order' horder horder'
    obtain ⟨ok₁, n₁, hn₁, hok₁⟩ := checkOperations_kvModel hne h horder
    obtain ⟨ok₂, n₂, hn₂, hok₂⟩ := checkEvents_kvModel h hids horder'
    obtain rfl : ok₁ = ok₂ := Bool.eq_iff_iff.mpr (hok₁.trans ((hiff ord).trans hok₂.symm))
    exact ⟨ok₁, max n₁ n₂, fun fuel hle => ⟨hn₁ fuel (by omega), hn₂ fuel (by omega)⟩⟩

/-- With one key, the store is its value. -/
theorem timedLinearizable_iff_of_one_key (ord : RangeOrder String) {k : String}
    (hk : ∀ op ∈ history, op.input.key = k) (hle : ∀ op ∈ history, op.call ≤ op.ret) :
    TimedLinearizable kvMapSpec (history.map KvOperation.toOperation) ↔
      TimedLinearizable (fillDefault (kvModel ord)).spec
        (history.map KvOperation.toOperation) := by
  have hkey : ∀ op ∈ history.map KvOperation.toOperation, op.io.1.key = k :=
    List.forall_mem_map.mpr hk
  have hle' : ∀ op ∈ history.map KvOperation.toOperation, op.call ≤ op.ret :=
    List.forall_mem_map.mpr hle
  have hin : ∀ op ∈ history.map KvOperation.toOperation, op.io.1.key ∈ [k] := fun op hop =>
    List.mem_singleton.mpr (hkey op hop)
  have hall : (history.map KvOperation.toOperation).filter (fun op => op.io.1.key = k) =
      history.map KvOperation.toOperation :=
    List.filter_eq_self.mpr fun op hop => decide_eq_true (hkey op hop)
  rw [TimedLinearizable, kvMapSpec_eq_keyed ord, orderable_keyed_iff_of_mem hle' hin,
    List.forall_mem_singleton, hall]
  exact Iff.rfl

end KvHistories

/-! ## Two keys -/

/-- Operation `i`, on key `k`: a get of `b` that sees nothing, or a put to another key. -/
def putOrGet (b : String) (i : ℕ) (k : String) : KvOperation :=
  ⟨if k = b then ⟨0, k, ""⟩ else ⟨1, k, "1"⟩, 2 * i, ⟨""⟩, 2 * i + 1⟩

/-- One operation after the other, on the given keys. -/
def putsAndGets (b : String) (keys : List String) : List KvOperation :=
  keys.mapIdx (putOrGet b)

section PutsAndGets

variable {b : String} {keys : List String}

theorem mem_putsAndGets {op : KvOperation} (h : op ∈ putsAndGets b keys) :
    ∃ i k, op = putOrGet b i k := by
  obtain ⟨i, hi, rfl⟩ := List.mem_mapIdx.mp h
  exact ⟨i, keys[i], rfl⟩

theorem getElem?_putsAndGets {i : ℕ} {k : String} (h : keys[i]? = some k) :
    putOrGet b i k ∈ putsAndGets b keys := by
  obtain ⟨hi, rfl⟩ := List.getElem?_eq_some_iff.mp h
  exact List.mem_mapIdx.mpr ⟨i, hi, rfl⟩

theorem putOrGet_key (i : ℕ) (k : String) : (putOrGet b i k).input.key = k := by
  by_cases hk : k = b
  · simp [putOrGet, hk]
  · simp [putOrGet, hk]

theorem keys_putsAndGets : (putsAndGets b keys).map (fun op => op.input.key) = keys := by
  apply List.ext_getElem
  · simp [putsAndGets]
  · intro i hi hi'
    rw [List.getElem_map]
    simp only [putsAndGets, List.getElem_mapIdx, putOrGet_key]

theorem putsAndGets_wellTimed : WellTimed (putsAndGets b keys) := by
  constructor
  · intro op hop
    obtain ⟨i, k, rfl⟩ := mem_putsAndGets hop
    exact lt_add_one (2 * (i : ℤ))
  · apply List.nodup_flatMap.mpr
    constructor
    · intro op hop
      obtain ⟨i, k, rfl⟩ := mem_putsAndGets hop
      simp [putOrGet]
    · rw [List.pairwise_iff_getElem]
      intro i j hi hj hij t ht ht'
      simp only [putsAndGets, List.getElem_mapIdx, putOrGet, List.mem_cons, List.not_mem_nil,
        or_false] at ht ht'
      omega

/-- On the store the operations can happen in the order in which they are called. -/
theorem putsAndGets_linearizable :
    TimedLinearizable kvMapSpec ((putsAndGets b keys).map KvOperation.toOperation) := by
  refine ⟨_, List.Perm.refl _, ?_, ?_⟩
  · rw [List.pairwise_map, List.pairwise_iff_getElem]
    intro i j hi hj hij
    simp only [putsAndGets, List.getElem_mapIdx, putOrGet, KvOperation.toOperation]
    omega
  · -- no operation changes what the gets read
    refine kvMapSpec.run_isSome_of_invariant (P := fun m => m b = "") ?_ rfl
    intro xy hxy m hm
    obtain ⟨op, hop, rfl⟩ := List.mem_map.mp hxy
    obtain ⟨op', hop', rfl⟩ := List.mem_map.mp hop
    obtain ⟨i, k, rfl⟩ := mem_putsAndGets hop'
    by_cases hk : k = b
    · exact ⟨m, by simp [kvMapSpec, putOrGet, KvOperation.toOperation, Operation.io, hk, hm], hm⟩
    · refine ⟨Function.update m k "1",
        by simp [kvMapSpec, putOrGet, KvOperation.toOperation, Operation.io, hk], ?_⟩
      rw [Function.update_of_ne (Ne.symm hk), hm]

theorem step_put (ord : RangeOrder String) (i : ℕ) {k : String} (hk : k ≠ b) (s : String) :
    (fillDefault (kvModel ord)).spec.step s (putOrGet b i k).toOperation.io.1
      (putOrGet b i k).toOperation.io.2 = some "1" := by
  simp [putOrGet, hk, KvOperation.toOperation, Operation.io, fillDefault, kvModel, kvStep,
    Model.spec]

theorem step_get (ord : RangeOrder String) (i : ℕ) (s : String) :
    (fillDefault (kvModel ord)).spec.step s (putOrGet b i b).toOperation.io.1
      (putOrGet b i b).toOperation.io.2 = if s = "" then some s else none := by
  by_cases hs : s = ""
  · simp [putOrGet, KvOperation.toOperation, Operation.io, fillDefault, kvModel, kvStep,
      Model.spec, hs]
  · simp [putOrGet, KvOperation.toOperation, Operation.io, fillDefault, kvModel, kvStep,
      Model.spec, hs, Ne.symm hs]

/-- On one value a get after a put cannot see nothing. -/
theorem putsAndGets_not_linearizable (ord : RangeOrder String) {a : String} (hab : a ≠ b)
    (hb : b ∈ keys) :
    ¬ TimedLinearizable (fillDefault (kvModel ord)).spec
      ((putsAndGets b (a :: keys)).map KvOperation.toOperation) := by
  rintro ⟨order, hperm, htime, hlegal⟩
  obtain ⟨i, hi⟩ := List.mem_iff_getElem?.mp hb
  have hget : (putOrGet b (i + 1) b).toOperation ∈ order :=
    hperm.mem_iff.mpr (List.mem_map_of_mem (getElem?_putsAndGets hi))
  have hput : (putOrGet b 0 a).toOperation ∈ order :=
    hperm.mem_iff.mpr (List.mem_map_of_mem (getElem?_putsAndGets rfl))
  have hkeep : ∀ op ∈ order, ∀ s s', s = "1" →
      (fillDefault (kvModel ord)).spec.step s op.io.1 op.io.2 = some s' → s' = "1" := by
    intro op hop s s' hs hstep
    obtain ⟨op', hop', rfl⟩ := List.mem_map.mp (hperm.mem_iff.mp hop)
    obtain ⟨j, k, rfl⟩ := mem_putsAndGets hop'
    by_cases hk : k = b
    · subst hk
      rw [step_get, hs, if_neg (by decide)] at hstep
      cases hstep
    · rw [step_put ord j hk] at hstep
      exact (Option.some.inj hstep).symm
  -- the put stands before the get
  obtain ⟨pre, post, rfl⟩ := List.append_of_mem hget
  have hbefore : (putOrGet b 0 a).toOperation ∈ pre := by
    rcases List.mem_append.mp hput with hin | hin
    · exact hin
    · rcases List.mem_cons.mp hin with heq | hpost
      · have hcall := congrArg Operation.call heq
        simp only [KvOperation.toOperation, putOrGet] at hcall
        omega
      · have hlate := (List.pairwise_cons.mp (List.pairwise_append.mp htime).2.1).1 _ hpost
        simp only [KvOperation.toOperation, putOrGet] at hlate
        omega
  obtain ⟨u, v, rfl⟩ := List.append_of_mem hbefore
  -- from the put on the value is `"1"`
  obtain ⟨t, ht⟩ := Option.isSome_iff_exists.mp hlegal
  rw [List.map_append, SeqSpec.run_append] at ht
  obtain ⟨s, hs, hrest⟩ := Option.bind_eq_some_iff.mp ht
  rw [List.map_append, SeqSpec.run_append] at hs
  obtain ⟨s₀, -, hs⟩ := Option.bind_eq_some_iff.mp hs
  rw [List.map_cons, SeqSpec.run_cons, step_put ord 0 hab, Option.bind_some] at hs
  have hone : s = "1" := by
    refine SeqSpec.run_invariant _ (P := fun s => s = "1") ?_ rfl hs
    intro xy hxy
    obtain ⟨op, hop, rfl⟩ := List.mem_map.mp hxy
    exact hkeep op (by simp [hop])
  rw [List.map_cons, SeqSpec.run_cons, step_get, hone, if_neg (by decide)] at hrest
  cases hrest

theorem putsAndGets_disagree {a : String} (hab : a ≠ b) (hb : b ∈ keys) :
    ¬ EntryPointsAgree (putsAndGets b (a :: keys)) := by
  intro hagree
  rw [entryPointsAgree_iff (by simp [putsAndGets]) putsAndGets_wellTimed] at hagree
  exact putsAndGets_not_linearizable ⟨id, List.Perm.refl⟩ hab hb
    ((hagree _).mp putsAndGets_linearizable)

end PutsAndGets

/-- **`CheckEvents` and `CheckOperations` agree on all histories with the given keys exactly
when there is only one key.**  `KvModel` has a `Partition` and no `PartitionEvent`. -/
theorem entryPoints_agree_iff_one_key (keys : List String) :
    (∀ history : List KvOperation, history ≠ [] →
        history.map (fun op => op.input.key) = keys → WellTimed history →
          EntryPointsAgree history) ↔
      ∀ k ∈ keys, ∀ k' ∈ keys, k = k' := by
  constructor
  · intro h
    cases keys with
    | nil => exact fun k hk => absurd hk List.not_mem_nil
    | cons a keys =>
        -- a key that is not the first one would do
        have hall : ∀ b ∈ keys, b = a := by
          intro b hb
          by_contra hne
          exact putsAndGets_disagree (Ne.symm hne) hb (h (putsAndGets b (a :: keys))
            (by simp [putsAndGets]) keys_putsAndGets putsAndGets_wellTimed)
        have hfirst : ∀ k ∈ a :: keys, k = a := List.forall_mem_cons.mpr ⟨rfl, hall⟩
        exact fun k hk k' hk' => (hfirst k hk).trans (hfirst k' hk').symm
  · intro hone history hne hkeys hwt
    obtain ⟨op, hop⟩ := List.exists_mem_of_ne_nil history hne
    have hmem : ∀ op ∈ history, op.input.key ∈ keys := fun op hop =>
      hkeys ▸ List.mem_map_of_mem hop
    rw [entryPointsAgree_iff hne hwt]
    intro ord
    apply timedLinearizable_iff_of_one_key ord
    · exact fun op' hop' => hone _ (hmem op' hop') _ (hmem op hop)
    · exact fun op' hop' => (hwt.lt op' hop').le

/-- A put to `x` and, when it has returned, a get of `y`. -/
def putXGetY : List KvOperation :=
  [⟨⟨1, "x", "1"⟩, 0, ⟨""⟩, 1⟩, ⟨⟨0, "y", ""⟩, 2, ⟨""⟩, 3⟩]

/-- The history is linearizable, and `CheckEvents` rejects it. -/
theorem entryPoints_disagree :
    let ord : RangeOrder String := ⟨id, List.Perm.refl⟩
    let ops := putXGetY.map KvOperation.toOperation
    putXGetY ≠ [] ∧ (∀ op ∈ putXGetY, op.call < op.ret) ∧ (timestamps putXGetY).Nodup ∧
      checkOperations (kvModel ord) byTime ops [0, 1] 20 = some true ∧
      checkEvents (kvModel ord) (eventsOf byTime id ops) [0] 20 = some false ∧
      ¬ EntryPointsAgree putXGetY := by
  refine ⟨by decide, by decide, by decide, ?_, ?_, ?_⟩
  · decide
  · decide
  · have heq : putXGetY = putsAndGets "y" ["x", "y"] := by decide
    rw [heq]
    exact putsAndGets_disagree (by decide) (List.mem_singleton_self _)

end Mit6824.Linearizability
