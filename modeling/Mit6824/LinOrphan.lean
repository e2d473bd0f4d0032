/-
# A call whose return does not follow it

The list of nodes may hold a call without a return behind it: then its node has no
`match`, `checkSingle` takes it for a return, and it is never taken out.  Addresses
decrease along the list, and no link ever leads from one side of such a node to the
other (`Guards`), so the list is never empty and the verdict is never `true`
(`checkSingle_ne_true_of_orphan`).
-/
import Mit6824.LinLayout

namespace Mit6824

open LinkedList

variable {σ V : Type}

/-! ## Links across a node -/

/-- The links from one side of the node `o` lead to that side or to `o` itself. -/
structure Guards (o head : ℕ) (nodes : Nodes V) : Prop where
  next : ∀ x, o < x → x ≤ head → ∃ y, o ≤ y ∧ (nodes x).next = some y
  prev : ∀ x, x < o → ∀ y, (nodes x).prev = some y → y ≤ o

namespace Guards

variable {o head e p n : ℕ} {nodes : Nodes V}

theorem setNext (h : Guards o head nodes) {x : Option ℕ}
    (hx : o < p → p ≤ head → ∃ y, o ≤ y ∧ x = some y) :
    Guards o head (setNext nodes p x) := by
  constructor
  · intro q hq hle
    rcases eq_or_ne q p with rfl | hne
    · obtain ⟨y, hy, rfl⟩ := hx hq hle
      exact ⟨y, hy, setNext_next_self ..⟩
    · rw [setNext_next_of_ne _ hne]
      exact h.next q hq hle
  · intro q hq y hy
    rw [setNext_prev] at hy
    exact h.prev q hq y hy

theorem setPrev (h : Guards o head nodes) {x : Option ℕ}
    (hx : p < o → ∀ y, x = some y → y ≤ o) : Guards o head (setPrev nodes p x) := by
  constructor
  · intro q hq hle
    rw [setPrev_next]
    exact h.next q hq hle
  · intro q hq y hy
    rcases eq_or_ne q p with rfl | hne
    · rw [setPrev_prev_self] at hy
      exact hx hq y hy
    · rw [setPrev_prev_of_ne _ hne] at hy
      exact h.prev q hq y hy

/-- The node before `e` is linked to the node behind it. -/
theorem skipNext (h : Guards o head nodes) (he : e ≠ o) (hle : e ≤ head)
    (hp : (nodes e).prev = some p) : Guards o head (LinkedList.setNext nodes p (nodes e).next) := by
  refine h.setNext ?_
  intro hop _
  rcases Nat.lt_or_gt_of_ne he with hlt | hgt
  · have := h.prev e hlt p hp
    omega
  · exact h.next e hgt hle

/-- The node behind `e` is linked to the node before it. -/
theorem skipPrev (h : Guards o head nodes) (he : e ≠ o) (hle : e ≤ head)
    (hn : (nodes e).next = some n) : Guards o head (LinkedList.setPrev nodes n (nodes e).prev) := by
  refine h.setPrev ?_
  intro hno y hy
  rcases Nat.lt_or_gt_of_ne he with hlt | hgt
  · exact h.prev e hlt y hy
  · obtain ⟨y, hy, hny⟩ := h.next e hgt hle
    obtain rfl : n = y := Option.some.inj (hn.symm.trans hny)
    omega

/-- The node before `e` is linked to `e` again. -/
theorem backNext (h : Guards o head nodes) (hp : (nodes e).prev = some p) :
    Guards o head (LinkedList.setNext nodes p (some e)) := by
  refine h.setNext ?_
  intro hop _
  rcases Nat.lt_or_ge e o with hlt | hge
  · have := h.prev e hlt p hp
    omega
  · exact ⟨e, hge, rfl⟩

/-- The node behind `e` is linked to `e` again. -/
theorem backPrev (h : Guards o head nodes) (hle : e ≤ head) (hn : (nodes e).next = some n) :
    Guards o head (LinkedList.setPrev nodes n (some e)) := by
  refine h.setPrev ?_
  intro hno y hy
  obtain rfl : e = y := Option.some.inj hy
  by_contra hgt
  obtain ⟨y, hy, hny⟩ := h.next e (by omega) hle
  obtain rfl : n = y := Option.some.inj (hn.symm.trans hny)
  omega

end Guards

/-! ## The search keeps them -/

/-- The node `o` has no match and is nobody's match. -/
def Unmatched (o head : ℕ) (nodes : Nodes V) : Prop :=
  ∀ x q, (nodes x).val.matchNode = some q → x ≠ o ∧ x ≤ head ∧ q ≠ o ∧ q ≤ head

theorem Unmatched.of_val {o head : ℕ} {nodes nodes' : Nodes V} (h : Unmatched o head nodes)
    (hval : ∀ x, (nodes' x).val = (nodes x).val) : Unmatched o head nodes' := by
  intro x q hx
  rw [hval] at hx
  exact h x q hx

theorem Guards.lift {o head entry : ℕ} {nodes nodes' : Nodes V} (h : Guards o head nodes)
    (hu : Unmatched o head nodes) (hlift : lift nodes entry = some nodes') :
    Guards o head nodes' ∧ ∀ x, (nodes' x).val = (nodes x).val := by
  unfold Mit6824.lift at hlift
  simp only [Option.bind_eq_bind, Option.bind_eq_some_iff] at hlift
  obtain ⟨prev, hprev, next, hnext, matching, hmatch, prev', hprev', hlast⟩ := hlift
  simp only [setPrev_val, setNext_val] at hmatch
  obtain ⟨he, hle, hq, hqle⟩ := hu entry matching hmatch
  have h₁ := h.skipNext he hle hprev
  have h₂ := h₁.skipPrev he hle hnext
  have h₃ := h₂.skipNext hq hqle hprev'
  rcases hn : (LinkedList.setNext _ prev' _ matching).next with _ | next'
  · rw [hn] at hlast
    obtain rfl := Option.some.inj hlast
    exact ⟨h₃, fun x => by simp⟩
  · rw [hn] at hlast
    obtain rfl := Option.some.inj hlast
    exact ⟨h₃.skipPrev hq hqle hn, fun x => by simp⟩

theorem Guards.unlift {o head entry : ℕ} {nodes nodes' : Nodes V} (h : Guards o head nodes)
    (hu : Unmatched o head nodes) (hunlift : unlift nodes entry = some nodes') :
    Guards o head nodes' ∧ ∀ x, (nodes' x).val = (nodes x).val := by
  unfold Mit6824.unlift at hunlift
  simp only [Option.bind_eq_bind, Option.bind_eq_some_iff] at hunlift
  obtain ⟨matching, hmatch, prev, hprev, prev', hprev', next', hnext', hlast⟩ := hunlift
  obtain ⟨he, hle, hq, hqle⟩ := hu entry matching hmatch
  obtain rfl := Option.some.inj hlast
  have h₁ := h.backNext hprev
  rcases hn : (LinkedList.setNext nodes prev (some matching) matching).next with _ | next
  · rw [hn] at hprev' hnext'
    exact ⟨(h₁.backNext hprev').backPrev hle hnext', fun x => by simp⟩
  · rw [hn] at hprev' hnext'
    have h₂ := h₁.backPrev hqle hn
    exact ⟨(h₂.backNext hprev').backPrev hle hnext', fun x => by simp⟩

/-- What a round does with the links: it keeps them, or it takes a call out, or it puts
one back; and the only verdict it gives is `false`. -/
theorem iterate_cases {model : Model σ V} {head : ℕ} {s : Search σ V} {r : Round σ V}
    (h : iterate model head s = some r) :
    r = .return false ∨ ∃ s', r = .continue s' ∧
      (s'.nodes = s.nodes ∨ (∃ entry, lift s.nodes entry = some s'.nodes) ∨
        ∃ entry, unlift s.nodes entry = some s'.nodes) := by
  unfold iterate at h
  obtain ⟨entry, -, h⟩ := Option.bind_eq_some_iff.mp h
  rcases hm : (s.nodes entry).val.matchNode with _ | matching
  · rw [hm] at h
    rcases hcalls : s.calls with _ | ⟨callsTop, calls⟩
    · rw [hcalls] at h
      exact .inl (Option.some.inj h).symm
    · rw [hcalls] at h
      obtain ⟨linearized, -, h⟩ := Option.bind_eq_some_iff.mp h
      obtain ⟨nodes, hnodes, h⟩ := Option.bind_eq_some_iff.mp h
      exact .inr ⟨_, (Option.some.inj h).symm, .inr (.inr ⟨_, hnodes⟩)⟩
  · rw [hm] at h
    dsimp only at h
    split at h
    · obtain ⟨newLinearized, -, h⟩ := Option.bind_eq_some_iff.mp h
      split at h
      · obtain ⟨linearized, -, h⟩ := Option.bind_eq_some_iff.mp h
        obtain ⟨nodes, hnodes, h⟩ := Option.bind_eq_some_iff.mp h
        exact .inr ⟨_, (Option.some.inj h).symm, .inr (.inl ⟨_, hnodes⟩)⟩
      · exact .inr ⟨_, (Option.some.inj h).symm, .inl rfl⟩
    · exact .inr ⟨_, (Option.some.inj h).symm, .inl rfl⟩

/-- The loop never finds the list empty. -/
theorem loop_ne_true {model : Model σ V} {o head : ℕ} (ho : o < head) (kill : ℕ → ℤ) (fuel : ℕ)
    {s : Search σ V} (h : Guards o head s.nodes) (hu : Unmatched o head s.nodes) :
    loop model head kill fuel s ≠ some true := by
  induction fuel generalizing s kill with
  | zero => nofun
  | succ fuel ih =>
      intro hloop
      obtain ⟨y, -, hy⟩ := h.next head ho le_rfl
      rw [loop, hy] at hloop
      dsimp only at hloop
      split at hloop
      · cases hloop
      · rcases hit : iterate model head s with _ | r
        · rw [hit] at hloop
          cases hloop
        · rw [hit] at hloop
          rcases iterate_cases hit with rfl | ⟨s', rfl, hnodes | ⟨entry, hlift⟩ | ⟨entry, hunlift⟩⟩
          · cases hloop
          · exact ih _ (by rw [hnodes]; exact h) (by rw [hnodes]; exact hu) hloop
          · obtain ⟨h', hval⟩ := h.lift hu hlift
            exact ih _ h' (hu.of_val hval) hloop
          · obtain ⟨h', hval⟩ := h.unlift hu hunlift
            exact ih _ h' (hu.of_val hval) hloop

/-! ## The list of the entries -/

/-- The links of a chain of decreasing addresses. -/
theorem links_of_chain {nodes : Nodes V} {n : ℕ} (hc : Chain nodes n (addresses n)) :
    (∀ x, x < n → (nodes (x + 1)).next = some x) ∧ ∀ x, x < n → (nodes x).prev = some (x + 1) := by
  induction n with
  | zero => exact ⟨nofun, nofun⟩
  | succ n ih =>
      rw [addresses_succ] at hc
      obtain ⟨hnext, hprev, hc⟩ := hc
      obtain ⟨hnexts, hprevs⟩ := ih hc
      constructor
      · intro x hx
        rcases Nat.lt_succ_iff_lt_or_eq.mp hx with hlt | rfl
        · exact hnexts x hlt
        · exact hnext
      · intro x hx
        rcases Nat.lt_succ_iff_lt_or_eq.mp hx with hlt | rfl
        · exact hprevs x hlt
        · exact hprev

/-- Every node guards the list of the entries. -/
theorem Guards.of_chain {nodes : Nodes V} {n o : ℕ} (hc : Chain nodes n (addresses n))
    (ho : o < n) : Guards o n nodes := by
  obtain ⟨hnext, hprev⟩ := links_of_chain hc
  constructor
  · intro x hx hle
    obtain ⟨y, rfl⟩ : ∃ y, x = y + 1 := ⟨x - 1, by omega⟩
    exact ⟨y, by omega, hnext y (by omega)⟩
  · intro x hx y hy
    have : x + 1 = y := Option.some.inj ((hprev x (by omega)).symm.trans hy)
    omega

/-- The match of a call is a return. -/
theorem entryAt_of_firstReturn {l : List (Entry V)} {i q : ℕ} (h : firstReturn l i = some q) :
    EntryAt l .returnEntry i q := by
  induction l with
  | nil => cases h
  | cons e l ih =>
      rw [firstReturn] at h
      split at h
      · next hret => exact ⟨e, l, List.suffix_rfl, hret.1, hret.2, Option.some.inj h⟩
      · obtain ⟨e', t, hsuf, hkind, hid, hlen⟩ := ih h
        exact ⟨e', t, hsuf.trans (List.suffix_cons e l), hkind, hid, hlen⟩

/-- There is one entry at an address. -/
theorem EntryAt.kind_eq {l : List (Entry V)} {kind kind' : EntryKind} {i i' p : ℕ}
    (h : EntryAt l kind i p) (h' : EntryAt l kind' i' p) : kind = kind' := by
  obtain ⟨e, t, hsuf, rfl, -, hlen⟩ := h
  obtain ⟨e', t', hsuf', rfl, -, hlen'⟩ := h'
  have heq : e :: t = e' :: t' :=
    (List.suffix_of_suffix_length_le hsuf hsuf' (by simp [hlen, hlen'])).eq_of_length
      (by simp [hlen, hlen'])
  rw [(List.cons.inj heq).1]

/-- Nodes that are not allocated have no match. -/
theorem linkEntries_matchNode_of_le [Inhabited V] {l : List (Entry V)} {p : ℕ}
    (hp : l.length ≤ p) : ((linkEntries l).mem.nodes p).val.matchNode = none := by
  induction l with
  | nil => rfl
  | cons e l ih =>
      have hl := linkEntries_linked l
      rw [List.length_cons] at hp
      obtain ⟨-, -, hnodes⟩ := linkEntry_mem e (linkEntries l)
      obtain ⟨-, -, -, hold⟩ := chain_insertBefore_alloc hl.root (addresses_nodup l.length)
        (fun p hp => by rw [hl.size]; exact mem_addresses.mp hp) hl.first hl.chain hnodes
      have hne : p ≠ (linkEntries l).mem.size := by
        rw [hl.size]
        omega
      rw [show linkEntries (e :: l) = linkEntry e (linkEntries l) from rfl, hold p hne]
      exact ih (by omega)

/-- The node of a call without a return behind it is unmatched. -/
theorem unmatched_linkEntries [Inhabited V] {entries t : List (Entry V)} {e : Entry V}
    (hsuf : e :: t <:+ entries) (hcall : e.kind = .callEntry)
    (hno : ∀ r ∈ t, r.kind = .returnEntry → r.id ≠ e.id) {x q : ℕ}
    (hx : ((linkEntries entries).mem.nodes x).val.matchNode = some q) :
    x ≠ t.length ∧ x ≤ entries.length ∧ q ≠ t.length ∧ q ≤ entries.length := by
  have hl := linkEntries_linked entries
  have hxlt : x < entries.length := by
    by_contra hge
    rw [linkEntries_matchNode_of_le (by omega)] at hx
    cases hx
  -- the entry of the node `x`
  obtain ⟨e', t', hsuf', hlen'⟩ : ∃ e' t', e' :: t' <:+ entries ∧ t'.length = x := by
    rcases hdrop : entries.drop (entries.length - (x + 1)) with _ | ⟨e', t'⟩
    · have := congrArg List.length hdrop
      rw [List.length_drop, List.length_nil] at this
      omega
    · refine ⟨e', t', ?_, ?_⟩
      · rw [← hdrop]
        exact List.drop_suffix ..
      · have := congrArg List.length hdrop
        rw [List.length_drop, List.length_cons] at this
        omega
  rw [← hlen', hl.val hsuf', nodeOf] at hx
  dsimp only at hx
  split at hx
  · cases hx
  · obtain ⟨r, u, hru, hrk, hri, hrlen⟩ := entryAt_of_firstReturn hx
    have hrtail : r :: u <:+ entries := hru.trans ((List.suffix_cons e' t').trans hsuf')
    refine ⟨?_, hxlt.le, ?_, ?_⟩
    · intro heq
      -- then the return of the call follows it
      have hsame : e' :: t' = e :: t :=
        (List.suffix_of_suffix_length_le hsuf' hsuf (by simp [hlen', heq])).eq_of_length
          (by simp [hlen', heq])
      obtain ⟨rfl, rfl⟩ := List.cons.inj hsame
      exact hno r (hru.mem List.mem_cons_self) hrk hri
    · intro heq
      have hret : EntryAt entries .returnEntry r.id q := ⟨r, u, hrtail, hrk, rfl, hrlen⟩
      have hcall' : EntryAt entries .callEntry e.id q := ⟨e, t, hsuf, hcall, rfl, heq.symm⟩
      cases hret.kind_eq hcall'
    · have := hrtail.length_le
      rw [List.length_cons] at this
      omega

/-- **A call without its return is never linearized.**  The verdict of the search is not
`true` when a call has no return behind it. -/
theorem checkSingle_ne_true_of_orphan [Inhabited V] (model : Model σ V)
    {entries t : List (Entry V)} {e : Entry V} (hsuf : e :: t <:+ entries)
    (hcall : e.kind = .callEntry) (hno : ∀ r ∈ t, r.kind = .returnEntry → r.id ≠ e.id)
    (kill : ℕ → ℤ) (fuel : ℕ) :
    checkSingle model (makeLinkedEntries entries).1 (makeLinkedEntries entries).2 kill fuel
      ≠ some true := by
  have hl := linkEntries_linked entries
  have hlt : t.length < entries.length := hsuf.length_le
  intro htrue
  obtain ⟨l, -, hloop⟩ := Option.bind_eq_some_iff.mp htrue
  obtain ⟨hchain, -, hnew, hval⟩ := chain_insertBefore_alloc hl.root (addresses_nodup _)
    (fun p hp => by rw [hl.size]; exact mem_addresses.mp hp) hl.first hl.chain rfl
  refine loop_ne_true (o := t.length) ?_ kill fuel ?_ ?_ hloop
  · exact hl.size.symm ▸ hlt
  · have hlt' : t.length < (linkEntries entries).mem.size := by rw [hl.size]; exact hlt
    rw [← hl.size] at hchain
    exact Guards.of_chain hchain hlt'
  · intro x q hx
    show x ≠ t.length ∧ x ≤ (linkEntries entries).mem.size ∧ q ≠ t.length ∧
      q ≤ (linkEntries entries).mem.size
    rcases eq_or_ne x (linkEntries entries).mem.size with rfl | hne
    · -- the head has no match
      cases hx.symm.trans (congrArg NodeData.matchNode hnew)
    · have hold := congrArg NodeData.matchNode (hval x hne)
      rw [hl.size]
      exact unmatched_linkEntries hsuf hcall hno (hold.symm.trans hx)

end Mit6824
