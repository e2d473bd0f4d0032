/-
# The check for lower-case field names

`labgob` warns about the fields that `encoding/gob` leaves out, those whose name does not
start with an upper-case letter.  `checkType` walks over a type and all types that it is made
of, where types may refer to each other in circles.

* `checkType`: the recursion of the source, with the table `checked` that stops it;
* `checkType_spec`: the recursion ends as soon as the fuel exceeds the number of types that
  are not in the table, and it is a walk in the sense of `Traversal.Walks`;
* `checkTypes_complain_once`: any number of calls complain once about each such field of
  each struct that can be reached.
-/
import Mathlib.Algebra.Order.BigOperators.Group.Finset
import Mathlib.Data.Fintype.Card
import Mit6824.GoRunes
import Mit6824.Traversal

namespace Mit6824.Labgob

open GoString Traversal

/-! ## Types -/

/-- `reflect.StructField`. -/
structure Field (T : Type*) where
  name : GoString
  type : T

/-- `reflect.Kind`, together with the types that a type of this kind is made of. -/
inductive Kind (T : Type*)
  | struct (fields : List (Field T))
  | slice (elem : T)
  | array (elem : T)
  | ptr (elem : T)
  | map (key elem : T)
  | other

/-- What `reflect` tells about the types `T`. -/
structure Types (T : Type*) where
  kind : T → Kind T
  name : T → GoString

variable {T : Type*}

/-- The fields of a struct; other types have none. -/
def Types.fields (types : Types T) (t : T) : List (Field T) :=
  match types.kind t with
  | .struct fields => fields
  | _ => []

/-- The types that a type is made of, in the order of the visits. -/
def Types.parts (types : Types T) (t : T) : List T :=
  match types.kind t with
  | .struct fields => fields.map Field.type
  | .slice elem | .array elem | .ptr elem => [elem]
  | .map key elem => [elem, key]
  | .other => []

open Classical in
/-- The types that some types are made of, directly or not. -/
noncomputable def Types.reachable [Fintype T] (types : Types T) (ts : List T) : Finset T :=
  Finset.univ.filter fun t => ∃ root ∈ ts, Reaches types.parts root t

/-- The types that are reachable from some roots through their parts. -/
theorem Types.mem_reachable [Fintype T] (types : Types T) (ts : List T) (t : T) :
    t ∈ types.reachable ts ↔ ∃ root ∈ ts, Reaches types.parts root t := by
  simp [reachable]

/-- The name starts with an upper-case letter. -/
def StartsUpper (unicode : Unicode) (name : GoString) : Prop :=
  ∃ c rest, name = String.utf8EncodeChar c ++ rest ∧ unicode.isUpper c = true

/-- The test of the source: the first character of a name is a capital letter. -/
theorem isUpper_decodeRune (unicode : Unicode) (name : GoString) :
    unicode.isUpper (decodeRune name).1 = true ↔ StartsUpper unicode name := by
  constructor
  · intro hupper
    -- The character that stands for no character is not upper case.
    by_cases hname : name = []
    · rw [hname, decodeRune, if_pos rfl, unicode.isUpper_runeError] at hupper
      contradiction
    rcases decodeRune_cases hname with ⟨c, rest, heq, hdecode⟩ | hdecode
    · rw [hdecode] at hupper
      exact ⟨c, rest, heq, hupper⟩
    · rw [hdecode, unicode.isUpper_runeError] at hupper
      contradiction
  · rintro ⟨c, rest, rfl, hupper⟩
    rw [decodeRune_append]
    exact hupper

instance decidableStartsUpper (unicode : Unicode) (name : GoString) :
    Decidable (StartsUpper unicode name) :=
  decidable_of_iff _ (isUpper_decodeRune unicode name)

/-! ## The source -/

/-- The variables `checked` and `errorCount`, and the lines printed so far. -/
structure State (T : Type*) where
  checked : Finset T
  errorCount : ℕ
  printed : List GoString

/-- The line about a lower-case field. -/
def complaint (types : Types T) (t : T) (f : Field T) : GoString :=
  lit "labgob error: lower-case field " ++ f.name ++ lit " of " ++ types.name t ++
    lit " in RPC or persist/snapshot will break your Raft\n"

/-- The check of one name in the loop over the fields. -/
def checkName (unicode : Unicode) (types : Types T) (t : T) (f : Field T) (s : State T) :
    State T :=
  if unicode.isUpper (decodeRune f.name).1 = false then
    { s with
      errorCount := s.errorCount + 1
      printed := s.printed ++ [complaint types t f] }
  else s

/-- The switch of `checkType` over the kind of a type, where `visit` is the recursive call. -/
def checkParts (unicode : Unicode) (types : Types T) (visit : T → State T → Option (State T))
    (t : T) (s : State T) : Option (State T) :=
  match types.kind t with
  | .struct fields =>
      fields.foldlM (fun s f => visit f.type (checkName unicode types t f s)) s
  | .slice elem | .array elem | .ptr elem => visit elem s
  | .map key elem => do
      let s ← visit elem s
      visit key s
  | .other => some s

/-- `checkType`, for at most `fuel` nested calls. -/
def checkType [DecidableEq T] (unicode : Unicode) (types : Types T) :
    ℕ → T → State T → Option (State T)
  | 0, _, _ => none
  | fuel + 1, t, s =>
      -- Only complain once, and avoid recursion.
      if t ∈ s.checked then some s
      else
        checkParts unicode types (checkType unicode types fuel) t
          { s with checked := insert t s.checked }

/-- Calls of `checkType` one after the other. -/
def checkTypes [DecidableEq T] (unicode : Unicode) (types : Types T) (fuel : ℕ)
    (ts : List T) (s : State T) : Option (State T) :=
  ts.foldlM (fun s t => checkType unicode types fuel t s) s

/-! ## What is counted -/

section

variable (unicode : Unicode) (types : Types T)

/-- The fields that `gob` would leave out. -/
def lowerFields (fields : List (Field T)) : List (Field T) :=
  fields.filter fun f => ¬ StartsUpper unicode f.name

/-- The number of complaints about some fields of a type, and the lines themselves. -/
def charge (t : T) (fields : List (Field T)) : ℕ × Multiset GoString :=
  let complaints := (lowerFields unicode fields).map (complaint types t)
  (complaints.length, (complaints : Multiset GoString))

/-- The number of complaints so far, and the lines themselves. -/
def State.charged (s : State T) : ℕ × Multiset GoString :=
  (s.errorCount, (s.printed : Multiset GoString))

/-- The warnings of a structure are those of its fields, one by one. -/
theorem charge_cons (t : T) (f : Field T) (fields : List (Field T)) :
    charge unicode types t (f :: fields) =
      charge unicode types t [f] + charge unicode types t fields := by
  by_cases hupper : StartsUpper unicode f.name
  · simp [charge, lowerFields, hupper]
  · simp [charge, lowerFields, hupper, Nat.add_comm]

/-- Checking a field adds its warning. -/
theorem charged_checkName (t : T) (f : Field T) (s : State T) :
    (checkName unicode types t f s).charged = s.charged + charge unicode types t [f] := by
  by_cases hupper : StartsUpper unicode f.name
  · rw [checkName, if_neg (by simp [(isUpper_decodeRune unicode f.name).2 hupper])]
    simp [charge, lowerFields, hupper]
  · rw [checkName, if_pos (by simpa using mt (isUpper_decodeRune unicode f.name).1 hupper)]
    simp [State.charged, charge, lowerFields, hupper, ← Multiset.coe_add]

@[simp] theorem checked_checkName (t : T) (f : Field T) (s : State T) :
    (checkName unicode types t f s).checked = s.checked := by
  unfold checkName
  split <;> rfl

/-! ## The walk -/

/-- A part of the program is a walk from `roots`, and complains about `own` on behalf of
a type that was entered before. -/
def Checks (s : State T) (roots : List T) (own : ℕ × Multiset GoString) (s' : State T) : Prop :=
  Walks types.parts (fun t => charge unicode types t (types.fields t)) s.checked s.charged
    roots own s'.checked s'.charged

variable [Fintype T] [DecidableEq T]

/-- Where at most `n` types are not in the table, more than `n` units of fuel are enough for
the program, and the result does not depend on them. -/
def Ends (n : ℕ) (program : ℕ → State T → Option (State T)) (roots : List T)
    (own : ℕ × Multiset GoString) : Prop :=
  ∀ s : State T, s.checkedᶜ.card ≤ n →
    ∃ s', (∀ fuel, n < fuel → program fuel s = some s') ∧ Checks unicode types s roots own s'

variable {unicode types}

/-- Doing nothing ends at once. -/
theorem Ends.skip (n : ℕ) : Ends unicode types n (fun _ s => some s) [] 0 := by
  intro s _
  refine ⟨s, fun _ _ => rfl, .nil s.checked, ?_⟩
  rw [add_zero]

/-- Two checks, one after the other. -/
theorem Ends.bind {n : ℕ} {p q : ℕ → State T → Option (State T)} {roots₁ roots₂ : List T}
    {own₁ own₂ : ℕ × Multiset GoString} (hp : Ends unicode types n p roots₁ own₁)
    (hq : Ends unicode types n q roots₂ own₂) :
    Ends unicode types n (fun fuel s => p fuel s >>= q fuel) (roots₁ ++ roots₂)
      (own₁ + own₂) := by
  intro s hcard
  obtain ⟨s₁, hp, hwalk₁⟩ := hp s hcard
  -- The table only grows.
  have hcard₁ : s₁.checkedᶜ.card ≤ n :=
    (Finset.card_le_card (Finset.compl_subset_compl.2 hwalk₁.marks.subset)).trans hcard
  obtain ⟨s₂, hq, hwalk₂⟩ := hq s₁ hcard₁
  refine ⟨s₂, ?_, hwalk₁.append hwalk₂⟩
  intro fuel hfuel
  show (p fuel s >>= q fuel) = some s₂
  rw [hp fuel hfuel]
  exact hq fuel hfuel

theorem ends_checkName (n : ℕ) (t : T) (f : Field T) :
    Ends unicode types n (fun _ s => some (checkName unicode types t f s)) []
      (charge unicode types t [f]) := by
  intro s _
  refine ⟨checkName unicode types t f s, fun _ _ => rfl, ?_⟩
  rw [Checks, checked_checkName, charged_checkName]
  exact Walks.own s.checked s.charged (charge unicode types t [f])

/-- The loop over the fields of a struct. -/
theorem ends_fields {n : ℕ} {visit : ℕ → T → State T → Option (State T)}
    (hvisit : ∀ t, Ends unicode types n (fun fuel => visit fuel t) [t] 0) (t : T)
    (fields : List (Field T)) :
    Ends unicode types n
      (fun fuel s => fields.foldlM
        (fun s f => visit fuel f.type (checkName unicode types t f s)) s)
      (fields.map Field.type) (charge unicode types t fields) := by
  induction fields with
  | nil => exact Ends.skip n
  | cons f fields ih =>
    have hends := ((ends_checkName n t f).bind (hvisit f.type)).bind ih
    rw [add_zero, ← charge_cons] at hends
    exact hends

/-- The parts of a type are checked when each of them is. -/
theorem ends_checkParts {n : ℕ} {visit : ℕ → T → State T → Option (State T)}
    (hvisit : ∀ t, Ends unicode types n (fun fuel => visit fuel t) [t] 0) (t : T) :
    Ends unicode types n (fun fuel => checkParts unicode types (visit fuel) t) (types.parts t)
      (charge unicode types t (types.fields t)) := by
  unfold checkParts Types.parts Types.fields
  cases types.kind t with
  | struct fields => exact ends_fields hvisit t fields
  | slice elem | array elem | ptr elem => exact hvisit elem
  | map key elem => exact (hvisit elem).bind (hvisit key)
  | other => exact Ends.skip n

omit [Fintype T] in
/-- A type in the table is not entered again. -/
theorem checkType_of_mem (n : ℕ) {t : T} {s : State T} (hmem : t ∈ s.checked) :
    ∃ s', (∀ fuel, n < fuel → checkType unicode types fuel t s = some s') ∧
      Checks unicode types s [t] 0 s' := by
  refine ⟨s, ?_, Walks.marked hmem⟩
  rintro (_ | fuel) hfuel
  · omega
  · rw [checkType, if_pos hmem]

/-- The induction is on the number of types that are not in the table: the recursive calls
are made after one more type has been entered. -/
theorem checkType_spec (n : ℕ) (t : T) :
    Ends unicode types n (fun fuel => checkType unicode types fuel t) [t] 0 := by
  induction n generalizing t with
  | zero =>
    intro s hcard
    have hmem : t ∈ s.checked := by
      rw [Nat.le_zero, Finset.card_eq_zero, Finset.compl_eq_empty_iff] at hcard
      rw [hcard]
      exact Finset.mem_univ t
    exact checkType_of_mem 0 hmem
  | succ n ih =>
    intro s hcard
    by_cases hmem : t ∈ s.checked
    · exact checkType_of_mem (n + 1) hmem
    · have hlt : (insert t s.checked)ᶜ.card < s.checkedᶜ.card :=
        Finset.card_lt_card (Finset.compl_ssubset_compl.2 (Finset.ssubset_insert hmem))
      obtain ⟨s', hrun, hwalk⟩ :=
        ends_checkParts ih t { s with checked := insert t s.checked } (by simp only; omega)
      refine ⟨s', ?_, Walks.visit hmem hwalk⟩
      rintro (_ | fuel) hfuel
      · omega
      · show checkType unicode types (fuel + 1) t s = some s'
        rw [checkType, if_neg hmem]
        exact hrun fuel (by omega)

variable (unicode types) in
/-- A list of types is checked to its end, with every type in it and everything below. -/
theorem ends_checkTypes (n : ℕ) (ts : List T) :
    Ends unicode types n (fun fuel => checkTypes unicode types fuel ts) ts 0 := by
  induction ts with
  | nil => exact Ends.skip n
  | cons t ts ih =>
    have hends := (checkType_spec n t).bind ih
    rw [add_zero] at hends
    exact hends

end

/-- **The check complains once about each field.**  Any sequence of calls of `checkType`
ends, and it has then raised `errorCount` by one for each field of a reachable struct whose
name does not start with an upper-case letter, and has printed one line about each. -/
theorem checkTypes_complain_once [Fintype T] [DecidableEq T] (unicode : Unicode)
    (types : Types T) (ts : List T) (errorCount : ℕ) (printed : List GoString) :
    ∃ s', (∀ fuel, Fintype.card T < fuel →
        checkTypes unicode types fuel ts ⟨∅, errorCount, printed⟩ = some s') ∧
      s'.errorCount = errorCount +
        ∑ t ∈ types.reachable ts, (lowerFields unicode (types.fields t)).length ∧
      (s'.printed : Multiset GoString) = (printed : Multiset GoString) +
        ∑ t ∈ types.reachable ts,
          ((lowerFields unicode (types.fields t)).map (complaint types t) :
            Multiset GoString) := by
  obtain ⟨s', hrun, hwalk⟩ := ends_checkTypes unicode types (Fintype.card T) ts
    ⟨∅, errorCount, printed⟩ (Finset.card_le_univ _)
  have hchecked : s'.checked = types.reachable ts := by
    ext t
    rw [hwalk.marks.mem_iff, Types.mem_reachable]
  have htotal := hwalk.total_eq
  rw [hchecked] at htotal
  refine ⟨s', hrun, ?_, ?_⟩
  · have hcount := congrArg Prod.fst htotal
    simpa [State.charged, charge, Prod.fst_sum] using hcount
  · have hprinted := congrArg Prod.snd htotal
    simpa [State.charged, charge, Prod.snd_sum] using hprinted

/-- The types of `type node struct { Value int; next *node }`. -/
inductive NodeType
  | node
  | nodePtr
  | int
  deriving DecidableEq, Repr

/-- The type `node` of a list whose field `next` is not exported. -/
def nodeTypes : Types NodeType where
  kind
    | .node => .struct [⟨lit "Value", .int⟩, ⟨lit "next", .nodePtr⟩]
    | .nodePtr => .ptr .node
    | .int => .other
  name
    | .node => lit "node"
    | .nodePtr => lit ""
    | .int => lit "int"

example : (checkTypes asciiTables nodeTypes 4 [.nodePtr, .node, .nodePtr] ⟨∅, 0, []⟩).map
    State.errorCount = some 1 := by decide

end Mit6824.Labgob
