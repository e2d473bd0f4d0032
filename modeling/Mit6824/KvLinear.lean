/-
# The key/value service is linearizable

A write takes effect at the first copy of its request in the agreed sequence, and
a `Get` behind the position that its server had reached when it read `kv.db`.
So level `p` of the linearization has the write whose first copy stands at index
`p`, if there is one, and then the `Get` calls that were answered behind it.

The real-time order goes up the levels because an answer is given for a position
that has been agreed on, and the operations of later calls are added behind it
(`AnswersInv.order`).
-/
import Mit6824.KvInvariant

namespace Mit6824

open ObjectHistory

/-- An operation of the history with its answer. -/
abbrev KvOperation := Operation (ℕ × ℕ) KvInput (Option String)

/-- What a client asked for to make this operation. -/
def Op.input (op : Op) : KvInput :=
  match op.name with
  | .get => .get op.key
  | .put => .put op.key op.value
  | .append => .append op.key op.value

theorem args_op_input (input : KvInput) (client r : ℕ) :
    (input.args client r).op.input = input := by
  cases input <;> rfl

/-- A key/value map as the object sees it: an absent key reads as the empty string. -/
def Db.view (db : Db) (key : String) : String :=
  (db key).getD ""

theorem Op.answer_get {op : Op} (h : op.name = .get) (db : Db) :
    op.answer db = some (db.view op.key) := by
  unfold Op.answer
  rw [h]
  rfl

theorem Op.answer_write {op : Op} (h : op.name ≠ .get) (db : Db) : op.answer db = none := by
  unfold Op.answer
  split
  · contradiction
  · rfl

section Levels

variable {history : List KvEvent} {agreed : List Op} {g : ℕ × ℕ → ℕ} {p : ℕ}

/-- The call of a known operation. -/
theorem Known.mem_call {op : Op} (h : Known history op) : .call op.request op.input ∈ history := by
  obtain ⟨client, r, input, hmem, rfl⟩ := h
  rw [args_op_request, args_op_input]
  exact hmem

/-! ## The levels -/

/-- The write whose first copy stands at index `p`. -/
def writeAt (agreed : List Op) (p : ℕ) : List KvOperation :=
  match agreed[p]? with
  | some op => if FirstCopy agreed p op ∧ op.name ≠ .get then [⟨op.request, op.input, none⟩] else []
  | none => []

theorem mem_writeAt {x : KvOperation} : x ∈ writeAt agreed p ↔
    ∃ op, FirstCopy agreed p op ∧ op.name ≠ .get ∧ x = ⟨op.request, op.input, none⟩ := by
  unfold writeAt
  constructor
  · intro hx
    split at hx
    · split_ifs at hx with hfirst
      · exact ⟨_, hfirst.1, hfirst.2, List.mem_singleton.mp hx⟩
      · cases hx
    · cases hx
  · rintro ⟨op, hfirst, hname, rfl⟩
    rw [hfirst.1]
    dsimp only
    rw [if_pos ⟨hfirst, hname⟩]
    exact List.mem_singleton_self _

/-- The answered `Get` that an event of the history ends, when its position is `p`. -/
def getOf (agreed : List Op) (g : ℕ × ℕ → ℕ) (p : ℕ) : KvEvent → Option KvOperation
  | .ret id (some value) =>
      if g id = p then
        (agreed.find? fun op => op.request = id).map fun op => ⟨id, op.input, some value⟩
      else none
  | _ => none

/-- The `Get` calls answered behind index `p`. -/
def getsAt (agreed : List Op) (g : ℕ × ℕ → ℕ) (history : List KvEvent) (p : ℕ) :
    List KvOperation :=
  history.filterMap (getOf agreed g (p + 1))

theorem getOf_some {e : KvEvent} {x : KvOperation} (h : getOf agreed g p e = some x) :
    ∃ op ∈ agreed, ∃ value, e = .ret op.request (some value) ∧ g op.request = p ∧
      x = ⟨op.request, op.input, some value⟩ := by
  unfold getOf at h
  split at h
  · rename_i id value
    split_ifs at h with hg
    obtain ⟨op, hfind, rfl⟩ := Option.map_eq_some_iff.mp h
    have hreq : op.request = id := by simpa using List.find?_some hfind
    subst hreq
    exact ⟨op, List.mem_of_find?_eq_some hfind, value, rfl, hg, rfl⟩
  · cases h

/-- The operations of one level are different: a level has at most one write, and the
history at most one return for each call. -/
theorem nodup_getsAt (h : HistoryOk history) :
    ((getsAt agreed g history p).map Operation.id).Nodup := by
  refine h.ret_nodup.sublist ?_
  unfold getsAt
  clear h
  induction history with
  | nil => exact List.Sublist.refl _
  | cons e history ih =>
      rcases hget : getOf agreed g (p + 1) e with _ | x
      · rw [List.filterMap_cons_none hget]
        cases hid : e.retId with
        | none =>
            rw [List.filterMap_cons_none hid]
            exact ih
        | some id =>
            rw [List.filterMap_cons_some hid]
            exact ih.cons _
      · obtain ⟨op, -, value, rfl, -, rfl⟩ := getOf_some hget
        have hid : Event.retId (.ret op.request (some value) : KvEvent) = some op.request := rfl
        rw [List.filterMap_cons_some hget, List.filterMap_cons_some hid, List.map_cons]
        exact ih.cons_cons _

end Levels

namespace KvService

variable {n : ℕ} {c : KvService n} {g : ℕ × ℕ → ℕ} {p q : ℕ} {x : KvOperation}

/-- Level `p`: the write at index `p`, and the `Get` calls answered behind it. -/
def level (c : KvService n) (g : ℕ × ℕ → ℕ) (p : ℕ) : List KvOperation :=
  writeAt c.agreed p ++ getsAt c.agreed g c.history p

/-- The state of the object below level `p`. -/
def levelState (c : KvService n) (p : ℕ) : String → String :=
  (kvState (c.agreed.take p)).view

/-- An answered operation of the history, as the agreed sequence has it. -/
theorem KvInv.answered_op (hi : KvInv c g) {op : Op} {y : Option String} (hop : op ∈ c.agreed)
    (hret : .ret op.request y ∈ c.history) : Answered c.agreed op y (g op.request) := by
  obtain ⟨op', hknown, hreq, hans⟩ := hi.answers.answer hret
  obtain rfl := hi.eq_of_request hknown (hi.ops.agreed op hop) hreq
  exact hans

/-- A `Get` on level `p` was answered at the position behind index `p`. -/
theorem KvInv.mem_getsAt (hi : KvInv c g) (hx : x ∈ getsAt c.agreed g c.history p) :
    ∃ op ∈ c.agreed, op.name = .get ∧ g op.request = p + 1 ∧
      .ret op.request x.output ∈ c.history ∧
      x = ⟨op.request, op.input, op.answer (kvState (c.agreed.take (p + 1)))⟩ := by
  obtain ⟨e, he, hgetOf⟩ := List.mem_filterMap.mp hx
  obtain ⟨op, hop, value, rfl, hg, rfl⟩ := getOf_some hgetOf
  have hans := (hi.answered_op hop he).answer
  have hname : op.name = .get := by
    -- only a `Get` is answered with a value
    by_contra hname
    rw [op.answer_write hname] at hans
    cases hans
  rw [hg] at hans
  exact ⟨op, hop, hname, hg, he, by rw [hans]⟩

/-- What stands on a level: an operation of the agreed sequence; a write whose first copy
is there, or a `Get` that was answered there. -/
theorem KvInv.mem_level (hi : KvInv c g) (hx : x ∈ c.level g p) :
    ∃ op ∈ c.agreed, x.id = op.request ∧ x.input = op.input ∧
      ((FirstCopy c.agreed p op ∧ op.name ≠ .get) ∨
        (op.name = .get ∧ g op.request = p + 1 ∧ .ret op.request x.output ∈ c.history)) := by
  rcases List.mem_append.mp hx with hwrite | hget
  · obtain ⟨op, hfirst, hname, rfl⟩ := mem_writeAt.mp hwrite
    exact ⟨op, List.mem_of_getElem? hfirst.1, rfl, rfl, .inl ⟨hfirst, hname⟩⟩
  · obtain ⟨op, hop, hname, hg, hret, hx⟩ := hi.mem_getsAt hget
    exact ⟨op, hop, by rw [hx], by rw [hx], .inr ⟨hname, hg, hret⟩⟩

/-- The level of an operation that has been answered is below its position. -/
theorem KvInv.level_lt (hi : KvInv c g) (hx : x ∈ c.level g p) {y : Option String}
    (hret : .ret x.id y ∈ c.history) : p < g x.id := by
  obtain ⟨op, hop, hid, -, hcases⟩ := hi.mem_level hx
  rw [hid] at hret ⊢
  rcases hcases with ⟨hfirst, -⟩ | ⟨-, hg, -⟩
  · exact (hi.answered_op hop hret).first_lt hfirst rfl
  · omega

/-- A copy of an operation stands at its level or below. -/
theorem KvInv.exists_copy (hi : KvInv c g) (hx : x ∈ c.level g p) :
    ∃ j ≤ p, ∃ op, c.agreed[j]? = some op ∧ op.request = x.id := by
  obtain ⟨op, hop, hid, -, hcases⟩ := hi.mem_level hx
  rcases hcases with ⟨hfirst, -⟩ | ⟨-, hg, hret⟩
  · exact ⟨p, le_rfl, op, hfirst.1, hid.symm⟩
  · obtain ⟨o, ho, hreq⟩ := (hi.answered_op hop hret).copy
    obtain ⟨j, hj⟩ := List.mem_iff_getElem?.mp ho
    have hjp : j < g op.request := by
      obtain ⟨hlt, -⟩ := List.getElem?_eq_some_iff.mp hj
      rw [List.length_take] at hlt
      omega
    rw [List.getElem?_take_of_lt hjp] at hj
    exact ⟨j, by omega, o, hj, hreq.trans hid.symm⟩

/-- **Real time goes up the levels.** -/
theorem KvInv.realTime (hi : KvInv c g) {a b : KvOperation} (ha : a ∈ c.level g p)
    (hb : b ∈ c.level g q) (hab : Precedes c.history a.id b.id) : p < q := by
  obtain ⟨y, hy⟩ := hab.mem_ret
  have hlt := hi.level_lt ha hy
  obtain ⟨j, hjq, op, hop, hreq⟩ := hi.exists_copy hb
  have hle := hi.answers.order hab hop hreq
  omega

/-- An operation is on one level. -/
theorem KvInv.level_eq (hi : KvInv c g) {a b : KvOperation} (ha : a ∈ c.level g p)
    (hb : b ∈ c.level g q) (hab : a.id = b.id) : p = q := by
  obtain ⟨op, hop, hid, -, hcases⟩ := hi.mem_level ha
  obtain ⟨op', hop', hid', -, hcases'⟩ := hi.mem_level hb
  have hreq : op.request = op'.request := by rw [← hid, ← hid', hab]
  obtain rfl := hi.eq_of_request (hi.ops.agreed op hop) (hi.ops.agreed op' hop') hreq
  rcases hcases with ⟨hfirst, hname⟩ | ⟨hname, hg, -⟩
  · rcases hcases' with ⟨hfirst', -⟩ | ⟨hname', -, -⟩
    · exact hfirst.index_eq hfirst' rfl
    · exact absurd hname' hname
  · rcases hcases' with ⟨-, hname'⟩ | ⟨-, hg', -⟩
    · exact absurd hname hname'
    · omega

/-- The operations of a level are different. -/
theorem KvInv.nodup_level (hi : KvInv c g) : ((c.level g p).map Operation.id).Nodup := by
  unfold level
  rw [List.map_append]
  refine List.Nodup.append ?_ (nodup_getsAt hi.history) ?_
  · unfold writeAt
    split
    · split_ifs
      · exact List.nodup_singleton _
      · exact List.nodup_nil
    · exact List.nodup_nil
  · intro id hwrite hget
    obtain ⟨a, ha, rfl⟩ := List.mem_map.mp hwrite
    obtain ⟨b, hb, hab⟩ := List.mem_map.mp hget
    obtain ⟨op, hfirst, hname, rfl⟩ := mem_writeAt.mp ha
    obtain ⟨op', hop', hname', -, -, rfl⟩ := hi.mem_getsAt hb
    -- an operation is a write or a `Get`, not both
    have heq := hi.eq_of_request (hi.ops.agreed op' hop')
      (hi.ops.agreed op (List.mem_of_getElem? hfirst.1)) hab
    exact hname (heq ▸ hname')

/-! ## The object accepts the levels -/

/-- The object executes a write. -/
theorem step_write {op : Op} (db : Db) (hname : op.name ≠ .get) :
    kvSpec.step db.view op.input none = some (execOp db op).view := by
  have hview : ∀ value, Db.view (Function.update db op.key (some value))
      = Function.update db.view op.key value := by
    intro value
    funext key
    unfold Db.view
    by_cases hkey : key = op.key
    · rw [hkey, Function.update_self, Function.update_self]
      rfl
    · rw [Function.update_of_ne hkey, Function.update_of_ne hkey]
  unfold Op.input execOp
  cases hop : op.name with
  | get => exact absurd hop hname
  | put => exact congrArg some (hview _).symm
  | append => exact congrArg some (hview _).symm

/-- `Get` calls that all read the same state. -/
theorem run_gets {m : String → String} {l : List KvOperation}
    (h : ∀ x ∈ l, ∃ key, x.input = .get key ∧ x.output = some (m key)) :
    kvSpec.run m (l.map Operation.io) = some m := by
  induction l with
  | nil => rfl
  | cons x l ih =>
      obtain ⟨key, hinput, houtput⟩ := h x List.mem_cons_self
      have hstep : kvSpec.step m x.input x.output = some m := by
        rw [hinput, houtput]
        show (if m key = m key then some m else none) = some m
        rw [if_pos rfl]
      rw [List.map_cons]
      show (kvSpec.step m x.input x.output).bind _ = some m
      rw [hstep]
      exact ih fun y hy => h y (List.mem_cons_of_mem _ hy)

/-- The write of a level leads to the state above it. -/
theorem run_writeAt {agreed : List Op} (hp : p < agreed.length) :
    kvSpec.run (kvState (agreed.take p)).view ((writeAt agreed p).map Operation.io)
      = some (kvState (agreed.take (p + 1))).view := by
  have hop : agreed[p]? = some agreed[p] := List.getElem?_eq_getElem hp
  have htake : agreed.take (p + 1) = agreed.take p ++ [agreed[p]] := by
    rw [List.take_add_one, hop]
    rfl
  rw [htake]
  unfold writeAt
  rw [hop]
  dsimp only
  by_cases hcopy : ∃ o ∈ agreed.take p, o.request = agreed[p].request
  · -- a later copy changes nothing and is no write
    rw [if_neg, kvState_old hcopy]
    · rfl
    · rintro ⟨⟨-, hfirst⟩, -⟩
      obtain ⟨o, ho, hreq⟩ := hcopy
      exact hfirst o ho hreq
  · have hfresh : ∀ o ∈ agreed.take p, o.request ≠ agreed[p].request :=
      fun o ho hreq => hcopy ⟨o, ho, hreq⟩
    rw [kvState_new hfresh]
    by_cases hname : agreed[p].name = .get
    · -- the first copy of a `Get` changes nothing
      rw [if_neg (fun h => h.2 hname)]
      unfold execOp
      rw [hname]
      rfl
    · rw [if_pos ⟨⟨hop, hfresh⟩, hname⟩]
      show (kvSpec.step _ _ _).bind _ = _
      rw [step_write _ hname]
      rfl

/-- **The object accepts every level.** -/
theorem KvInv.run_level (hi : KvInv c g) (hp : p < c.agreed.length) :
    kvSpec.run (c.levelState p) ((c.level g p).map Operation.io) = some (c.levelState (p + 1)) := by
  unfold level levelState
  rw [List.map_append, kvSpec.run_append, run_writeAt hp]
  refine run_gets fun x hx => ?_
  obtain ⟨op, -, hname, -, -, rfl⟩ := hi.mem_getsAt hx
  refine ⟨op.key, ?_, ?_⟩
  · unfold Op.input
    rw [hname]
  · exact op.answer_get hname _

/-- The operation of a request is found in the agreed sequence. -/
theorem KvInv.find_agreed (hi : KvInv c g) {op : Op} (hop : op ∈ c.agreed) :
    (c.agreed.find? fun o => o.request = op.request) = some op := by
  rcases hfind : c.agreed.find? (fun o => o.request = op.request) with _ | o
  · have hnot := List.find?_eq_none.mp hfind op hop
    simp at hnot
  · have hreq : o.request = op.request := by simpa using List.find?_some hfind
    rw [hfind, hi.eq_of_request (hi.ops.agreed o (List.mem_of_find?_eq_some hfind))
      (hi.ops.agreed op hop) hreq]

/-- Every answer of the history stands on a level. -/
theorem KvInv.returned_level (hi : KvInv c g) {id : ℕ × ℕ} {y : Option String}
    (hret : .ret id y ∈ c.history) :
    ∃ p < c.agreed.length, ∃ x ∈ c.level g p, x.id = id ∧ x.output = y := by
  obtain ⟨op₀, hknown, rfl, hans₀⟩ := hi.answers.answer hret
  obtain ⟨op, htake, hreq⟩ := hans₀.copy
  have hop : op ∈ c.agreed := List.mem_of_mem_take htake
  obtain rfl := hi.eq_of_request (hi.ops.agreed op hop) hknown hreq
  clear hreq hans₀
  have hans := hi.answered_op hop hret
  obtain ⟨k, hk⟩ := List.mem_iff_getElem?.mp hop
  by_cases hname : op.name = .get
  · -- a `Get` stands below its position, which is not `0` because a copy is before it
    have hpos : 0 < g op.request := by
      by_contra hzero
      rw [Nat.eq_zero_of_not_pos hzero] at htake
      cases htake
    have hle := hans.le
    obtain ⟨value, rfl⟩ : ∃ value, y = some value :=
      ⟨_, hans.answer.trans (op.answer_get hname _)⟩
    refine ⟨g op.request - 1, by omega, ⟨op.request, op.input, some value⟩, ?_, rfl, rfl⟩
    refine List.mem_append_right _ (List.mem_filterMap.mpr ⟨_, hret, ?_⟩)
    show (if g op.request = g op.request - 1 + 1 then _ else none) = _
    rw [if_pos (by omega)]
    rw [hi.find_agreed hop]
    rfl
  · -- a write stands at its first copy
    obtain ⟨i, -, o, hfirst, hreq'⟩ := exists_firstCopy hk
    obtain rfl := hi.eq_of_request (hi.ops.agreed o (List.mem_of_getElem? hfirst.1)) hknown hreq'
    refine ⟨i, hfirst.lt_length, ⟨o.request, o.input, none⟩, ?_, rfl, ?_⟩
    · exact List.mem_append_left _ (mem_writeAt.mpr ⟨o, hfirst, hname, rfl⟩)
    · rw [hans.answer, o.answer_write hname]

/-- **The levels of the agreed sequence explain the history.** -/
def KvInv.leveling (hi : KvInv c g) : Leveling kvSpec c.history where
  height := c.agreed.length
  level := c.level g
  state := c.levelState
  state_zero := rfl
  legal := fun _ hp => hi.run_level hp
  called := by
    intro p x _ hx
    obtain ⟨op, hop, hid, hinput, -⟩ := hi.mem_level hx
    rw [hid, hinput]
    exact (hi.ops.agreed op hop).mem_call
  returned := hi.returned_level
  nodup := fun _ _ => hi.nodup_level
  disjoint := fun _ _ ha hb hab => hi.level_eq ha hb hab
  realTime := fun _ _ ha hb hab => hi.realTime ha hb hab

end KvService

/-! ## Every history of the service -/

/-- **The key/value service is linearizable over an ideal Raft.**  In every run of the
service, with any Clerks, lost, delayed and repeated requests and replies, timeouts,
leader changes and restarts, the history of the Clerks' `Get`, `Put` and `Append`
calls at any moment is linearizable with respect to a map from keys to strings. -/
theorem kvLinearizable {n : ℕ} (r : (kvSystem n).Run) (k : ℕ) :
    Linearizable kvSpec (r.state k).history := by
  have hinv : ∃ g, (r.state k).KvInv g := by
    refine r.invariant r.meets_true (I := fun c => ∃ g, c.KvInv g) ?_ ?_ k
    · exact ⟨fun _ => 0, KvService.kvInv_init n _⟩
    · rintro c a c' ⟨g, hi⟩ - hstep
      exact hi.step hstep
  obtain ⟨g, hi⟩ := hinv
  exact hi.leveling.linearizable

-- A `Put` whose first reply is lost, so that its retry puts a second copy into the agreed
-- sequence, and then a `Get` on a server that has restarted.
example : (((kvSystem 1).ofList
    [.invoke 7 (.put "k" "a"), .call 7, .request 0, .start 0 1 true, .register 0, .agree 0,
      .apply 0 0, .notify 0 0, .receive 0, .unregister 0, .callFails 7, .call 7, .request 1,
      .start 1 2 true, .agree 0, .register 1, .restart 0, .apply 1 0, .apply 1 0, .notify 1 0,
      .receive 1, .unregister 1, .callReturns 7 1, .invoke 7 (.get "k"), .call 7, .callFails 7,
      .call 7, .request 3, .start 2 3 true, .register 2, .agree 0, .apply 0 1, .apply 0 1,
      .apply 0 1, .notify 0 1, .receive 2, .unregister 2, .read 2, .callReturns 7 2]).state
        40).history
    = [.call (7, 1) (.put "k" "a"), .ret (7, 1) none, .call (7, 2) (.get "k"),
        .ret (7, 2) (some "a")] := by
  decide +kernel

end Mit6824
