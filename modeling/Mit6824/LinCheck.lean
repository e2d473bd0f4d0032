/-
# The linearizability checker

`linearizability.go`: the entries of a history become a doubly linked list of
nodes, each call pointing to its return, and `checkSingle` looks for an order of
the operations by a depth-first walk over this list.  It takes the next call that
the model accepts out of the list, together with its return (`lift`), and starts
again at the head; when it meets a return it puts the call taken out last back
(`unlift`) and goes on behind it.  A memo table keeps the pairs of operations
done and state reached that have been tried.

Nodes live in a memory, a pointer is an address and `none` is the nil pointer.
Reading through a nil pointer, or a word of the bitset that is not there, is a
fault and gives `none`.  The loops of the source take a bound on the number of
their rounds; `none` also stands for a bound that was too small.

* `makeLinkedEntries`, `lift`, `unlift`, `cacheContains`, `iterate`, `checkSingle`;
* `lift_spec`: what `lift` leaves, and that `unlift` undoes it;
* `lift_unlift_nested`: the same for calls taken out one after the other and put back in the
  opposite order.
-/
import Mit6824.Bitset
import Mit6824.LinkedList

namespace Mit6824

open LinkedList

variable {σ V : Type}

/-! ## Entries and nodes -/

/-- `entryKind`: the `kind` of an entry, which is a Boolean in the source. -/
inductive EntryKind where
  | callEntry
  | returnEntry
  deriving DecidableEq, Repr

/-- A call or a return of the operation `id`, with its input or output. -/
structure Entry (V : Type) where
  kind : EntryKind
  value : V
  id : ℕ
  time : ℤ
  deriving DecidableEq, Repr

/-- What a node holds besides its two links; `matchNode` is the return of a call. -/
structure NodeData (V : Type) where
  value : V
  matchNode : Option ℕ
  id : ℕ

/-- The nodes by their addresses. -/
abbrev Nodes (V : Type) := Heap (NodeData V)

/-- The nodes allocated so far have the addresses below `size`. -/
structure Memory (V : Type) where
  nodes : Nodes V
  size : ℕ

/-- A new node without links. -/
def Memory.alloc (mem : Memory V) (data : NodeData V) : Memory V × ℕ :=
  (⟨Function.update mem.nodes mem.size ⟨data, none, none⟩, mem.size + 1⟩, mem.size)

/-- Link node `n` in front of `mark`; without a mark nothing is done. -/
def insertBefore (nodes : Nodes V) (n : ℕ) (mark : Option ℕ) : Nodes V :=
  match mark with
  | none => nodes
  | some mark =>
      let beforeMark := (nodes mark).prev
      let nodes := setPrev nodes mark (some n)
      let nodes := setNext nodes n (some mark)
      match beforeMark with
      | none => nodes
      | some beforeMark => setNext (setPrev nodes n (some beforeMark)) beforeMark (some n)

/-- The number of nodes from `n` on, when it is below the bound. -/
def length (nodes : Nodes V) : ℕ → Option ℕ → Option ℕ
  | 0, _ => none
  | _ + 1, none => some 0
  | fuel + 1, some n => (length nodes fuel (nodes n).next).map (· + 1)

/-- The variables of the loop of `makeLinkedEntries`. -/
structure Linking (V : Type) where
  mem : Memory V
  root : Option ℕ
  matchNode : ℕ → Option ℕ

/-- One round of the loop. -/
def linkEntry (elem : Entry V) (s : Linking V) : Linking V :=
  match elem.kind with
  | .returnEntry =>
      let (mem, entry) := s.mem.alloc ⟨elem.value, none, elem.id⟩
      { mem := { mem with nodes := insertBefore mem.nodes entry s.root }
        root := some entry
        matchNode := Function.update s.matchNode elem.id (some entry) }
  | .callEntry =>
      let (mem, entry) := s.mem.alloc ⟨elem.value, s.matchNode elem.id, elem.id⟩
      { mem := { mem with nodes := insertBefore mem.nodes entry s.root }
        root := some entry
        matchNode := s.matchNode }

/-- Nothing linked yet. -/
def Linking.start [Inhabited V] : Linking V where
  mem := ⟨fun _ => ⟨⟨default, none, 0⟩, none, none⟩, 0⟩
  root := none
  matchNode := fun _ => none

/-- The loop runs from the last entry to the first. -/
def linkEntries [Inhabited V] (entries : List (Entry V)) : Linking V :=
  entries.foldr linkEntry Linking.start

/-- Build the list of the entries, each call with a pointer to its return. -/
def makeLinkedEntries [Inhabited V] (entries : List (Entry V)) : Memory V × Option ℕ :=
  ((linkEntries entries).mem, (linkEntries entries).root)

/-! ## The search -/

/-- The model that a history is checked against, as far as `checkSingle` reads it. -/
structure Model (σ V : Type) where
  init : σ
  step : σ → V → V → Bool × σ
  equal : σ → σ → Bool

/-- A state that the search has met, with the operations linearized before it. -/
structure CacheEntry (σ : Type) where
  linearized : Bitset
  state : σ

/-- Look an entry up in the bucket of its hash. -/
def cacheContains (model : Model σ V) (cache : BitVec 64 → List (CacheEntry σ))
    (entry : CacheEntry σ) : Bool :=
  (cache entry.linearized.hash).any fun elem =>
    entry.linearized.equals elem.linearized && model.equal entry.state elem.state

/-- An element of the stack: a call that has been linearized, and the state before it. -/
structure CallsEntry (σ : Type) where
  entry : ℕ
  state : σ

/-- Take a call and its return out of the list. -/
def lift (nodes : Nodes V) (entry : ℕ) : Option (Nodes V) := do
  let prev ← (nodes entry).prev
  let nodes := setNext nodes prev (nodes entry).next
  let next ← (nodes entry).next
  let nodes := setPrev nodes next (nodes entry).prev
  let matching ← (nodes entry).val.matchNode
  let prev ← (nodes matching).prev
  let nodes := setNext nodes prev (nodes matching).next
  match (nodes matching).next with
  | none => some nodes
  | some next => some (setPrev nodes next (nodes matching).prev)

/-- Put a call and its return back. -/
def unlift (nodes : Nodes V) (entry : ℕ) : Option (Nodes V) := do
  let matching ← (nodes entry).val.matchNode
  let prev ← (nodes matching).prev
  let nodes := setNext nodes prev (some matching)
  let nodes := match (nodes matching).next with
    | none => nodes
    | some next => setPrev nodes next (some matching)
  let prev ← (nodes entry).prev
  let nodes := setNext nodes prev (some entry)
  let next ← (nodes entry).next
  some (setPrev nodes next (some entry))

/-- The variables of the loop of `checkSingle`; the last call taken out is the first
of `calls`. -/
structure Search (σ V : Type) where
  nodes : Nodes V
  state : σ
  linearized : Bitset
  cache : BitVec 64 → List (CacheEntry σ)
  calls : List (CallsEntry σ)
  entry : Option ℕ

/-- How a round of the loop ends. -/
inductive Round (σ V : Type) where
  | continue (s : Search σ V)
  | return (ok : Bool)

/-- One round of the loop, after the test of `kill`. -/
def iterate (model : Model σ V) (headEntry : ℕ) (s : Search σ V) : Option (Round σ V) := do
  let entry ← s.entry
  match (s.nodes entry).val.matchNode with
  | some matching =>
      -- the next call, with its return
      let (ok, newState) :=
        model.step s.state (s.nodes entry).val.value (s.nodes matching).val.value
      if ok then
        let newLinearized ← s.linearized.clone.set (s.nodes entry).val.id
        let newCacheEntry : CacheEntry σ := ⟨newLinearized, newState⟩
        if !cacheContains model s.cache newCacheEntry then
          let hash := newLinearized.hash
          let linearized ← s.linearized.set (s.nodes entry).val.id
          let nodes ← lift s.nodes entry
          some (.continue
            { nodes := nodes
              state := newState
              linearized := linearized
              cache := Function.update s.cache hash (s.cache hash ++ [newCacheEntry])
              calls := ⟨entry, s.state⟩ :: s.calls
              entry := (nodes headEntry).next })
        else
          some (.continue { s with entry := (s.nodes entry).next })
      else
        some (.continue { s with entry := (s.nodes entry).next })
  | none =>
      -- a return: its call has to be taken out before
      match s.calls with
      | [] => some (.return false)
      | callsTop :: calls => do
          let linearized ← s.linearized.clear (s.nodes callsTop.entry).val.id
          let nodes ← unlift s.nodes callsTop.entry
          some (.continue
            { nodes := nodes
              state := callsTop.state
              linearized := linearized
              cache := s.cache
              calls := calls
              entry := (nodes callsTop.entry).next })

/-- The loop; `kill i` is what round `i` reads from the flag. -/
def loop (model : Model σ V) (headEntry : ℕ) (kill : ℕ → ℤ) : ℕ → Search σ V → Option Bool
  | 0, _ => none
  | fuel + 1, s =>
      match (s.nodes headEntry).next with
      | none => some true
      | some _ =>
          if kill 0 ≠ 0 then some false
          else
            match iterate model headEntry s with
            | none => none
            | some (.return ok) => some ok
            | some (.continue s) => loop model headEntry (fun i => kill (i + 1)) fuel s

/-- The search of one part, with a head in front of its list; `none` when the fuel is used up or
the program panics. -/
def checkSingle [Inhabited V] (model : Model σ V) (mem : Memory V) (subhistory : Option ℕ)
    (kill : ℕ → ℤ) (fuel : ℕ) : Option Bool := do
  let l ← length mem.nodes fuel subhistory
  let n := l / 2
  let (mem, headEntry) := mem.alloc ⟨default, none, 2 ^ 64 - 1⟩
  loop model headEntry kill fuel
    { nodes := insertBefore mem.nodes headEntry subhistory
      state := model.init
      linearized := newBitset n
      cache := fun _ => []
      calls := []
      entry := subhistory }

/-! ## Taking a call out and putting it back -/

/-- `lift` is the removal of the call followed by the removal of its return. -/
theorem lift_eq_unlink {nodes : Nodes V} {entry matching next : ℕ}
    (hmatch : (nodes entry).val.matchNode = some matching)
    (hnext : (nodes entry).next = some next) :
    lift nodes entry = (unlink nodes entry).bind fun nodes => unlink nodes matching := by
  unfold lift
  rw [unlink]
  rcases hprev : (nodes entry).prev with _ | prev
  · rfl
  · -- the first write does not change the link forward of the call
    have hkept : (setNext nodes prev (nodes entry).next entry).next = some next := by
      rcases eq_or_ne entry prev with rfl | hne
      · rw [setNext_next_self, hnext]
      · rw [setNext_next_of_ne _ hne, hnext]
    simp only [Option.bind_eq_bind, Option.bind_some, hkept, setPrev_val, setNext_val, hmatch]
    rfl

/-- `unlift` puts the return back and then the call. -/
theorem unlift_eq_relink {nodes nodes' : Nodes V} {entry matching next : ℕ}
    (hmatch : (nodes entry).val.matchNode = some matching)
    (hrelink : relink nodes matching = some nodes') (hnext : (nodes' entry).next = some next) :
    unlift nodes entry = relink nodes' entry := by
  unfold unlift
  rw [hmatch, relink]
  rw [relink] at hrelink
  rcases hprev : (nodes matching).prev with _ | prev
  · rw [hprev] at hrelink
    cases hrelink
  · rw [hprev, Option.bind_some] at hrelink
    simp only [Option.bind_eq_bind, Option.bind_some, hprev]
    have hnodes : (match (setNext nodes prev (some matching) matching).next with
        | none => setNext nodes prev (some matching)
        | some next => setPrev (setNext nodes prev (some matching)) next (some matching))
        = nodes' := by
      dsimp only at hrelink
      rcases hlast : (setNext nodes prev (some matching) matching).next with _ | next'
      · rw [hlast] at hrelink
        exact Option.some.inj hrelink
      · rw [hlast] at hrelink
        exact Option.some.inj hrelink
    rw [hnodes]
    refine congrArg (Option.bind (nodes' entry).prev) (funext fun prev => ?_)
    have hsome : ∃ next, (setNext nodes' prev (some entry) entry).next = some next := by
      rcases eq_or_ne entry prev with rfl | hne
      · exact ⟨_, setNext_next_self _ _ _⟩
      · exact ⟨next, by rw [setNext_next_of_ne _ hne, hnext]⟩
    obtain ⟨next', hnext'⟩ := hsome
    rw [hnext']
    rfl

/-- **`lift` and `unlift`.**  A call is taken out of the list together with its
return, the other nodes stay in their order, and `unlift` restores every link. -/
theorem lift_spec {nodes : Nodes V} {a entry matching : ℕ} {l₁ l₂ l₃ : List ℕ}
    (hc : Chain nodes a (l₁ ++ entry :: (l₂ ++ matching :: l₃)))
    (hnd : (a :: (l₁ ++ entry :: (l₂ ++ matching :: l₃))).Nodup)
    (hmatch : (nodes entry).val.matchNode = some matching) :
    ∃ nodes', lift nodes entry = some nodes' ∧ Chain nodes' a (l₁ ++ (l₂ ++ l₃)) ∧
      (∀ q, (nodes' q).val = (nodes q).val) ∧ unlift nodes' entry = some nodes := by
  obtain ⟨next, hnext⟩ : ∃ next, (nodes entry).next = some next := by
    rw [hc.tail.next_eq]
    cases l₂ with
    | nil => exact ⟨matching, rfl⟩
    | cons b l₂ => exact ⟨b, rfl⟩
  obtain ⟨nodes₁, hunlink₁, hc₁, hval₁, hkept₁, hrelink₁⟩ := hc.unlink hnd
  -- the chain without the call, split at the return
  have hassoc : l₁ ++ (l₂ ++ matching :: l₃) = (l₁ ++ l₂) ++ matching :: l₃ :=
    (List.append_assoc l₁ l₂ _).symm
  have hnd₁ : (a :: (l₁ ++ (l₂ ++ matching :: l₃))).Nodup := by
    refine hnd.sublist (List.Sublist.cons_cons a ?_)
    exact List.Sublist.append_left (List.sublist_cons_self _ _) _
  rw [hassoc] at hc₁ hnd₁
  obtain ⟨nodes₂, hunlink₂, hc₂, hval₂, -, hrelink₂⟩ := hc₁.unlink hnd₁
  refine ⟨nodes₂, ?_, ?_, ?_, ?_⟩
  · rw [lift_eq_unlink hmatch hnext, hunlink₁, Option.bind_some, hunlink₂]
  · rw [← List.append_assoc]
    exact hc₂
  · intro q
    rw [hval₂, hval₁]
  · rw [← hrelink₁]
    refine unlift_eq_relink ?_ hrelink₂ (hkept₁.trans hnext)
    rw [hval₂, hval₁, hmatch]

/-! ## Calls taken out one after the other -/

/-- The call `entry` is in the list after the head `a`, and its return is later in it. -/
def InList (nodes : Nodes V) (a entry : ℕ) : Prop :=
  ∃ matching l₁ l₂ l₃, (nodes entry).val.matchNode = some matching ∧
    Chain nodes a (l₁ ++ entry :: (l₂ ++ matching :: l₃))

/-- Each call is still in the list, together with its return, when the calls before it have been
taken out. -/
def InListInTurn (nodes : Nodes V) (a : ℕ) : List ℕ → Prop
  | [] => True
  | entry :: entries => InList nodes a entry ∧
      ∀ nodes', lift nodes entry = some nodes' → InListInTurn nodes' a entries

/-- A call and its return are two nodes, and neither is one of the others. -/
theorem lifted_notMem {entry matching : ℕ} {l₁ l₂ l₃ : List ℕ}
    (hnd : (l₁ ++ entry :: (l₂ ++ matching :: l₃)).Nodup) :
    entry ≠ matching ∧ entry ∉ l₁ ++ (l₂ ++ l₃) ∧ matching ∉ l₁ ++ (l₂ ++ l₃) := by
  obtain ⟨hentry, hnd⟩ := List.nodup_cons.mp (List.nodup_middle.mp hnd)
  rw [← List.append_assoc, List.nodup_middle, List.nodup_cons, List.append_assoc] at hnd
  simp only [List.mem_append, List.mem_cons, not_or] at hentry ⊢
  refine ⟨hentry.2.2.1, ⟨hentry.1, hentry.2.1, hentry.2.2.2⟩, ?_⟩
  simpa using hnd.1

/-- What stays of a list without a call and its return and without the nodes `r`. -/
theorem filter_lifted {entry matching : ℕ} {l₁ l₂ l₃ r s : List ℕ}
    (hnd : (l₁ ++ entry :: (l₂ ++ matching :: l₃)).Nodup)
    (hs : ∀ q, q ∈ s ↔ q = entry ∨ q = matching ∨ q ∈ r) :
    (l₁ ++ entry :: (l₂ ++ matching :: l₃)).filter (· ∉ s) =
      (l₁ ++ (l₂ ++ l₃)).filter (· ∉ r) := by
  obtain ⟨-, hentry, hmatching⟩ := lifted_notMem hnd
  have hrest : (l₁ ++ (l₂ ++ l₃)).filter (· ∉ r) = (l₁ ++ (l₂ ++ l₃)).filter (· ∉ s) := by
    apply List.filter_congr
    intro q hq
    have hqe : q ≠ entry := by
      rintro rfl
      exact hentry hq
    have hqm : q ≠ matching := by
      rintro rfl
      exact hmatching hq
    rw [decide_eq_decide, hs, or_iff_right hqe, or_iff_right hqm]
  rw [hrest]
  simp [List.filter_append, hs]

/-- **`lift` and `unlift` are inverse on any nesting.**  The calls and their returns are `2 k`
nodes of the list.  When the calls have been taken out one after the other, the list is the
old one without exactly these nodes, with consistent links; and putting the calls back, the
last one first, restores every link. -/
theorem lift_unlift_nested {nodes : Nodes V} {a : ℕ} {l : List ℕ} (hc : Chain nodes a l)
    (hnd : (a :: l).Nodup) {entries : List ℕ} (hin : InListInTurn nodes a entries) :
    ∃ nodes' matchings, entries.foldlM lift nodes = some nodes' ∧
      entries.map (fun entry => (nodes entry).val.matchNode) = matchings.map some ∧
      (entries ++ matchings).Nodup ∧ entries ++ matchings ⊆ l ∧
      Chain nodes' a (l.filter (· ∉ entries ++ matchings)) ∧
      (∀ q, (nodes' q).val = (nodes q).val) ∧
      entries.reverse.foldlM unlift nodes' = some nodes := by
  induction entries generalizing nodes l with
  | nil =>
      refine ⟨nodes, [], rfl, rfl, List.nodup_nil, List.nil_subset l, ?_, fun _ => rfl, rfl⟩
      rw [List.filter_eq_self.mpr (by simp)]
      exact hc
  | cons entry entries ih =>
      obtain ⟨⟨matching, l₁, l₂, l₃, hmatch, hsplit⟩, hrest⟩ := hin
      obtain rfl := hc.unique hsplit
      obtain ⟨nodes₁, hlift, hc₁, hval₁, hunlift⟩ := lift_spec hc hnd hmatch
      have hsub : (l₁ ++ (l₂ ++ l₃)).Sublist (l₁ ++ entry :: (l₂ ++ matching :: l₃)) :=
        (((List.sublist_cons_self matching l₃).append_left l₂).cons entry).append_left l₁
      obtain ⟨nodes₂, matchings, hlifts, hmatchings, hnodup, hmem, hc₂, hval₂, hunlifts⟩ :=
        ih hc₁ (hnd.sublist (hsub.cons_cons a)) (hrest nodes₁ hlift)
      refine ⟨nodes₂, matching :: matchings, ?_, ?_, ?_, ?_, ?_, ?_, ?_⟩
      · rw [List.foldlM_cons, hlift]
        exact hlifts
      · rw [List.map_cons, hmatch, List.map_cons, ← hmatchings]
        refine congrArg _ (List.map_congr_left ?_)
        intro e _
        rw [hval₁]
      · -- the other nodes are among those that stayed
        obtain ⟨hne, hentry, hmatching⟩ := lifted_notMem (List.nodup_cons.mp hnd).2
        rw [List.cons_append, List.nodup_cons, List.nodup_middle, List.nodup_cons]
        refine ⟨?_, fun hq => hmatching (hmem hq), hnodup⟩
        intro hq
        rcases List.mem_cons.mp (List.perm_middle.mem_iff.mp hq) with heq | hq
        · exact hne heq
        · exact hentry (hmem hq)
      · intro q hq
        rcases List.mem_cons.mp hq with rfl | hq
        · simp
        rcases List.mem_cons.mp (List.perm_middle.mem_iff.mp hq) with rfl | hq
        · simp
        · exact hsub.subset (hmem hq)
      · rw [filter_lifted (List.nodup_cons.mp hnd).2 (r := entries ++ matchings)]
        · exact hc₂
        · intro q
          rw [List.cons_append, List.mem_cons, List.perm_middle.mem_iff, List.mem_cons]
      · intro q
        rw [hval₂, hval₁]
      · rw [List.reverse_cons, List.foldlM_append, hunlifts, Option.bind_eq_bind, Option.bind_some,
          List.foldlM_cons, hunlift]
        rfl

/-- The list of two overlapping operations: the head at 0, the calls at 1 and 2, the return of
the first call at 3 and that of the second one at 4. -/
def overlapping : Nodes Unit
  | 0 => ⟨⟨(), none, 2 ^ 64 - 1⟩, some 1, none⟩
  | 1 => ⟨⟨(), some 3, 0⟩, some 2, some 0⟩
  | 2 => ⟨⟨(), some 4, 1⟩, some 3, some 1⟩
  | 3 => ⟨⟨(), none, 0⟩, some 4, some 2⟩
  | 4 => ⟨⟨(), none, 1⟩, none, some 3⟩
  | _ => ⟨⟨(), none, 0⟩, none, none⟩

theorem overlapping_inListInTurn : InListInTurn overlapping 0 [1, 2] := by
  refine ⟨⟨3, [], [2], [4], rfl, rfl, rfl, rfl, rfl, rfl, rfl, rfl, rfl, rfl⟩, ?_⟩
  intro nodes hlift
  cases hlift
  -- the second call now follows the head, and its return follows it
  refine ⟨⟨4, [], [], [], rfl, rfl, rfl, rfl, rfl, rfl⟩, ?_⟩
  intro nodes' _
  trivial

theorem lift_unlift_nested_overlapping :
    ∃ nodes, [1, 2].foldlM lift overlapping = some nodes ∧ Chain nodes 0 [] ∧
      [2, 1].foldlM unlift nodes = some overlapping := by
  have hlist : Chain overlapping 0 [1, 2, 3, 4] := ⟨rfl, rfl, rfl, rfl, rfl, rfl, rfl, rfl, rfl⟩
  obtain ⟨nodes, matchings, hlift, hmatchings, -, -, hc, -, hunlift⟩ :=
    lift_unlift_nested hlist (by decide) overlapping_inListInTurn
  obtain rfl : matchings = [3, 4] := List.map_injective_iff.mpr (Option.some_injective ℕ)
    hmatchings.symm
  exact ⟨nodes, hlift, hc, hunlift⟩

/-! ## More rounds -/

theorem length_mono {nodes : Nodes V} {fuel fuel' : ℕ} (hle : fuel ≤ fuel') {n : Option ℕ} {l : ℕ}
    (h : length nodes fuel n = some l) : length nodes fuel' n = some l := by
  induction fuel generalizing fuel' n l with
  | zero => cases h
  | succ fuel ih =>
      obtain ⟨fuel', rfl⟩ : ∃ m, fuel' = m + 1 := ⟨fuel' - 1, by omega⟩
      cases n with
      | none => exact h
      | some n =>
          obtain ⟨l', hl', rfl⟩ := Option.map_eq_some_iff.mp h
          rw [length, ih (by omega) hl']
          rfl

theorem loop_mono {model : Model σ V} {headEntry : ℕ} {kill : ℕ → ℤ} {fuel fuel' : ℕ}
    (hle : fuel ≤ fuel') {s : Search σ V} {ok : Bool}
    (h : loop model headEntry kill fuel s = some ok) :
    loop model headEntry kill fuel' s = some ok := by
  induction fuel generalizing fuel' kill s with
  | zero => cases h
  | succ fuel ih =>
      obtain ⟨fuel', rfl⟩ : ∃ m, fuel' = m + 1 := ⟨fuel' - 1, by omega⟩
      rw [loop] at h ⊢
      rcases hnext : (s.nodes headEntry).next with _ | next
      · rw [hnext] at h
        exact h
      · rw [hnext] at h
        dsimp only at h ⊢
        by_cases hkill : kill 0 ≠ 0
        · rw [if_pos hkill] at h ⊢
          exact h
        · rw [if_neg hkill] at h ⊢
          rcases hround : iterate model headEntry s with _ | s' | ok'
          · rw [hround] at h
            cases h
          · rw [hround] at h
            exact ih (by omega) h
          · rw [hround] at h
            exact h

/-- A verdict stays when the bound on the rounds grows. -/
theorem checkSingle_mono [Inhabited V] {model : Model σ V} {mem : Memory V}
    {subhistory : Option ℕ} {kill : ℕ → ℤ} {fuel fuel' : ℕ} (hle : fuel ≤ fuel') {ok : Bool}
    (h : checkSingle model mem subhistory kill fuel = some ok) :
    checkSingle model mem subhistory kill fuel' = some ok := by
  obtain ⟨l, hl, hloop⟩ := Option.bind_eq_some_iff.mp h
  unfold checkSingle
  rw [length_mono hle hl]
  exact loop_mono hle hloop

end Mit6824
