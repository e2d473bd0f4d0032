/-
# The linked list of a complete history

`makeLinkedEntries` builds the list from the last entry to the first, so the node
of an entry has as address the number of entries after it: nodes stand in the
list in decreasing order of their addresses.  When every operation has exactly
one call and then exactly one return, each call points to the return of the same
operation.

* `linkEntries_linked`: what the loop has built, for any list of entries;
* `Complete`, `operation`, `ReturnsBefore`: histories of complete operations;
* `Layout`, `Complete.layout`: the nodes that such a history becomes.
-/
import Mit6824.LinCheck
import Mathlib.Algebra.BigOperators.Group.Finset.Basic
import Mathlib.Algebra.Order.BigOperators.Group.Finset

namespace Mit6824

open LinkedList

variable {V : Type}

/-! ## What the loop builds -/

/-- The addresses of the nodes, in the order of the list. -/
def addresses (n : ℕ) : List ℕ :=
  (List.range n).reverse

theorem addresses_succ (n : ℕ) : addresses (n + 1) = n :: addresses n := by
  unfold addresses
  rw [List.range_succ, List.reverse_append]
  rfl

theorem mem_addresses {n p : ℕ} : p ∈ addresses n ↔ p < n := by
  unfold addresses
  rw [List.mem_reverse, List.mem_range]

/-- Addresses decrease along the list. -/
theorem addresses_pairwise (n : ℕ) : (addresses n).Pairwise (· > ·) := by
  unfold addresses
  rw [List.pairwise_reverse]
  exact List.pairwise_lt_range

/-- The address of the first return of operation `i`. -/
def firstReturn : List (Entry V) → ℕ → Option ℕ
  | [], _ => none
  | e :: l, i => if e.kind = .returnEntry ∧ e.id = i then some l.length else firstReturn l i

/-- What the node of the entry `e` holds when the entries `l` follow. -/
def nodeOf (e : Entry V) (l : List (Entry V)) : NodeData V where
  value := e.value
  matchNode := if e.kind = .returnEntry then none else firstReturn l e.id
  id := e.id

/-- A new node is put in front of a list. -/
theorem chain_insertBefore_alloc {mem : Memory V} {root : Option ℕ} {l : List ℕ}
    (hroot : root = l.head?) (hnd : l.Nodup) (hlt : ∀ p ∈ l, p < mem.size)
    (hfirst : ∀ p, root = some p → (mem.nodes p).prev = none)
    (hchain : ∀ p, root = some p → Chain mem.nodes p l.tail)
    {data : NodeData V} {nodes : Nodes V}
    (hnodes : nodes = insertBefore (mem.alloc data).1.nodes mem.size root) :
    Chain nodes mem.size l ∧ (nodes mem.size).prev = none ∧ (nodes mem.size).val = data ∧
      ∀ p, p ≠ mem.size → (nodes p).val = (mem.nodes p).val := by
  have hnew : (mem.alloc data).1.nodes mem.size = ⟨data, none, none⟩ := Function.update_self ..
  have hold : ∀ p, p ≠ mem.size → (mem.alloc data).1.nodes p = mem.nodes p :=
    fun p hp => Function.update_of_ne hp ..
  cases l with
  | nil =>
      rw [hroot] at hnodes
      subst hnodes
      refine ⟨?_, ?_, ?_, ?_⟩
      · show ((mem.alloc data).1.nodes mem.size).next = none
        rw [hnew]
      · show ((mem.alloc data).1.nodes mem.size).prev = none
        rw [hnew]
      · show ((mem.alloc data).1.nodes mem.size).val = data
        rw [hnew]
      · intro p hp
        show ((mem.alloc data).1.nodes p).val = _
        rw [hold p hp]
  | cons m l =>
      have hm : m ≠ mem.size := (hlt m List.mem_cons_self).ne
      -- the first node has nothing before it, so two links are written
      have hwrite : nodes =
          setNext (setPrev (mem.alloc data).1.nodes m (some mem.size)) mem.size (some m) := by
        rw [hnodes, hroot, List.head?_cons]
        simp only [insertBefore]
        rw [hold m hm, hfirst m hroot]
      subst hwrite
      refine ⟨⟨setNext_next_self .., ?_, (hchain m hroot).congr ?_ ?_⟩, ?_, ?_, ?_⟩
      · rw [setNext_prev, setPrev_prev_self]
      · intro p hp
        have hne : p ≠ mem.size := (hlt p hp).ne
        rw [setNext_next_of_ne _ hne, setPrev_next, hold p hne]
      · intro p hp
        have hne : p ≠ mem.size := (hlt p (List.mem_cons_of_mem _ hp)).ne
        have hpm : p ≠ m := by
          rintro rfl
          exact (List.nodup_cons.mp hnd).1 hp
        rw [setNext_prev, setPrev_prev_of_ne _ hpm, hold p hne]
      · rw [setNext_prev, setPrev_prev_of_ne _ hm.symm, hnew]
      · rw [setNext_val, setPrev_val, hnew]
      · intro p hp
        rw [setNext_val, setPrev_val, hold p hp]

theorem addresses_nodup (n : ℕ) : (addresses n).Nodup :=
  (addresses_pairwise n).imp fun h => (ne_of_gt h)

/-- What has been built when the entries `l` have been linked. -/
structure Linked (l : List (Entry V)) (s : Linking V) : Prop where
  size : s.mem.size = l.length
  root : s.root = (addresses l.length).head?
  first : ∀ p, s.root = some p → (s.mem.nodes p).prev = none
  chain : ∀ p, s.root = some p → Chain s.mem.nodes p (addresses l.length).tail
  val : ∀ {e t}, e :: t <:+ l → (s.mem.nodes t.length).val = nodeOf e t
  matchNode : s.matchNode = firstReturn l

/-- Both kinds of entries are linked in the same way. -/
theorem linkEntry_mem (e : Entry V) (s : Linking V) :
    (linkEntry e s).mem.size = s.mem.size + 1 ∧ (linkEntry e s).root = some s.mem.size ∧
      (linkEntry e s).mem.nodes = insertBefore
        (s.mem.alloc ⟨e.value, if e.kind = .returnEntry then none else s.matchNode e.id,
          e.id⟩).1.nodes s.mem.size s.root := by
  unfold linkEntry
  cases e.kind with
  | callEntry => exact ⟨rfl, rfl, rfl⟩
  | returnEntry => exact ⟨rfl, rfl, rfl⟩

theorem linkEntry_matchNode {e : Entry V} {l : List (Entry V)} {s : Linking V}
    (h : Linked l s) : (linkEntry e s).matchNode = firstReturn (e :: l) := by
  unfold linkEntry
  funext i
  rcases hk : e.kind with _ | _
  · show s.matchNode i = _
    rw [h.matchNode, firstReturn, if_neg]
    rintro ⟨hkind, -⟩
    rw [hk] at hkind
    cases hkind
  · show Function.update s.matchNode e.id (some s.mem.size) i = _
    rw [firstReturn, hk, h.matchNode, h.size]
    rcases eq_or_ne i e.id with rfl | hi
    · rw [Function.update_self, if_pos ⟨rfl, rfl⟩]
    · rw [Function.update_of_ne hi, if_neg (fun hcon => hi hcon.2.symm)]

/-- One round of the loop. -/
theorem Linked.linkEntry {l : List (Entry V)} {s : Linking V} (h : Linked l s) (e : Entry V) :
    Linked (e :: l) (linkEntry e s) := by
  obtain ⟨hsize, hroot, hnodes⟩ := linkEntry_mem e s
  obtain ⟨hchain, hprev, hval, hold⟩ := chain_insertBefore_alloc h.root
    (addresses_nodup l.length) (fun p hp => by rw [h.size]; exact mem_addresses.mp hp)
    h.first h.chain hnodes
  have hcons : addresses (e :: l).length = l.length :: addresses l.length :=
    addresses_succ l.length
  refine ⟨?_, ?_, ?_, ?_, ?_, linkEntry_matchNode h⟩
  · rw [hsize, h.size, List.length_cons]
  · rw [hroot, h.size, hcons]
    rfl
  · intro p hp
    obtain rfl : s.mem.size = p := Option.some.inj (hroot.symm.trans hp)
    exact hprev
  · intro p hp
    obtain rfl : s.mem.size = p := Option.some.inj (hroot.symm.trans hp)
    rw [hcons]
    exact hchain
  · intro e' t hsuffix
    rcases List.suffix_cons_iff.mp hsuffix with heq | htail
    · obtain ⟨rfl, rfl⟩ := List.cons.inj heq
      rw [← h.size, hval, h.matchNode]
      rfl
    · have hlt : t.length < l.length := htail.length_le
      rw [hold _ (by rw [h.size]; exact hlt.ne)]
      exact h.val htail

/-- **The list of the entries.** -/
theorem linkEntries_linked [Inhabited V] (l : List (Entry V)) : Linked l (linkEntries l) := by
  induction l with
  | nil =>
      refine ⟨rfl, rfl, ?_, ?_, ?_, rfl⟩
      · intro p hp
        cases hp
      · intro p hp
        cases hp
      · intro e t hsuffix
        cases List.suffix_nil.mp hsuffix
  | cons e l ih => exact ih.linkEntry e

/-! ## Complete histories -/

/-- The operations are `0, …, k - 1`, and each of them has exactly one call, followed
later by exactly one return. -/
structure Complete (entries : List (Entry V)) (k : ℕ) : Prop where
  id_lt : ∀ e ∈ entries, e.id < k
  paired : ∀ i < k,
    (entries.filter fun e => e.id = i).map Entry.kind = [.callEntry, .returnEntry]

/-- The value of the first entry of kind `kind` with identity `i`. -/
def valueOf [Inhabited V] (entries : List (Entry V)) (kind : EntryKind) (i : ℕ) : V :=
  ((entries.find? fun e => e.kind = kind ∧ e.id = i).map Entry.value).getD default

/-- The input and the output of operation `i`. -/
def operation [Inhabited V] (entries : List (Entry V)) (i : ℕ) : V × V :=
  (valueOf entries .callEntry i, valueOf entries .returnEntry i)

/-- The return of operation `a` is before the call of operation `b`. -/
def ReturnsBefore (entries : List (Entry V)) (a b : ℕ) : Prop :=
  ∃ pre r post, entries = pre ++ r :: post ∧ r.kind = .returnEntry ∧ r.id = a ∧
    ∃ c ∈ post, c.kind = .callEntry ∧ c.id = b

/-- The node at address `p` is an entry of kind `kind` with identity `i`. -/
def EntryAt (entries : List (Entry V)) (kind : EntryKind) (i p : ℕ) : Prop :=
  ∃ e t, e :: t <:+ entries ∧ e.kind = kind ∧ e.id = i ∧ t.length = p

/-- Real time is the order of the addresses. -/
theorem returnsBefore_iff {entries : List (Entry V)} {a b : ℕ} :
    ReturnsBefore entries a b ↔
      ∃ p q, EntryAt entries .callEntry b p ∧ EntryAt entries .returnEntry a q ∧ p < q := by
  constructor
  · rintro ⟨pre, r, post, rfl, hrk, hri, c, hc, hck, hci⟩
    obtain ⟨u, t, rfl⟩ := List.append_of_mem hc
    refine ⟨t.length, (u ++ c :: t).length, ⟨c, t, ?_, hck, hci, rfl⟩,
      ⟨r, u ++ c :: t, List.suffix_append .., hrk, hri, rfl⟩, ?_⟩
    · exact ⟨pre ++ r :: u, by simp⟩
    · rw [List.length_append, List.length_cons]
      omega
  · rintro ⟨p, q, ⟨c, t, hct, hck, hci, rfl⟩, ⟨r, u, hru, hrk, hri, rfl⟩, hlt⟩
    obtain ⟨pre, hpre⟩ := hru
    refine ⟨pre, r, u, hpre.symm, hrk, hri, c, ?_, hck, hci⟩
    -- the shorter of two ends of the history is an end of the longer one
    have hsuffix : c :: t <:+ u :=
      List.suffix_of_suffix_length_le hct
        ((List.suffix_cons r u).trans ⟨pre, hpre⟩) hlt
    exact hsuffix.mem List.mem_cons_self

theorem firstReturn_append {mid l : List (Entry V)} {i : ℕ} (hmid : ∀ e ∈ mid, e.id ≠ i) :
    firstReturn (mid ++ l) i = firstReturn l i := by
  induction mid with
  | nil => rfl
  | cons e mid ih =>
      rw [List.cons_append, firstReturn, if_neg]
      · exact ih fun e' he' => hmid e' (List.mem_cons_of_mem _ he')
      · rintro ⟨-, hid⟩
        exact hmid e List.mem_cons_self hid

theorem valueOf_append [Inhabited V] {pre post : List (Entry V)} {e : Entry V} {kind : EntryKind}
    {i : ℕ} (hkind : e.kind = kind) (hid : e.id = i)
    (hpre : ∀ e' ∈ pre, e'.kind = kind → e'.id ≠ i) :
    valueOf (pre ++ e :: post) kind i = e.value := by
  have hfind : (pre ++ e :: post).find? (fun e' => e'.kind = kind ∧ e'.id = i) = some e := by
    rw [List.find?_eq_some_iff_append]
    refine ⟨by simp [hkind, hid], pre, post, rfl, ?_⟩
    intro e' he'
    simpa [imp_iff_not_or] using hpre e' he'
  rw [valueOf, hfind]
  rfl

/-- Where an end of a list may start. -/
theorem suffix_append_cons {α : Type*} {e x : α} {t l₁ l₂ : List α}
    (h : e :: t <:+ l₁ ++ x :: l₂) : e ∈ l₁ ∨ (e = x ∧ t = l₂) ∨ e :: t <:+ l₂ := by
  induction l₁ with
  | nil =>
      rcases List.suffix_cons_iff.mp h with heq | htail
      · exact .inr (.inl (List.cons.inj heq))
      · exact .inr (.inr htail)
  | cons y l₁ ih =>
      rcases List.suffix_cons_iff.mp h with heq | htail
      · rw [(List.cons.inj heq).1]
        exact .inl List.mem_cons_self
      · exact (ih htail).imp (List.mem_cons_of_mem y) id

/-- Operation `i` has its call at address `p`, its return at address `q` and no other
entries. -/
structure OperationAt [Inhabited V] (entries : List (Entry V)) (i p q : ℕ) : Prop where
  lt : q < p
  lt_length : p < entries.length
  call : EntryAt entries .callEntry i p
  ret : EntryAt entries .returnEntry i q
  call_eq : ∀ p', EntryAt entries .callEntry i p' → p' = p
  ret_eq : ∀ q', EntryAt entries .returnEntry i q' → q' = q
  data_call : ((linkEntries entries).mem.nodes p).val = ⟨(operation entries i).1, some q, i⟩
  data_ret : ((linkEntries entries).mem.nodes q).val = ⟨(operation entries i).2, none, i⟩

namespace Complete

variable {entries : List (Entry V)} {k : ℕ}

/-- The entries of an operation in the history. -/
theorem split (hc : Complete entries k) {i : ℕ} (hi : i < k) :
    ∃ pre c mid r post, entries = pre ++ c :: (mid ++ r :: post) ∧
      (c.kind = .callEntry ∧ c.id = i) ∧ (r.kind = .returnEntry ∧ r.id = i) ∧
      (∀ e ∈ pre, e.id ≠ i) ∧ (∀ e ∈ mid, e.id ≠ i) ∧ ∀ e ∈ post, e.id ≠ i := by
  have hpaired := hc.paired i hi
  obtain ⟨c, rest, hfilter, hck, hrest⟩ := List.map_eq_cons_iff.mp hpaired
  obtain ⟨r, rest', rfl, hrk, hnil⟩ := List.map_eq_cons_iff.mp hrest
  obtain rfl := List.map_eq_nil_iff.mp hnil
  obtain ⟨pre, l, rfl, hpre, hci, hfilter⟩ := List.filter_eq_cons_iff.mp hfilter
  obtain ⟨mid, post, rfl, hmid, hri, hfilter⟩ := List.filter_eq_cons_iff.mp hfilter
  refine ⟨pre, c, mid, r, post, rfl, ⟨hck, by simpa using hci⟩, ⟨hrk, by simpa using hri⟩,
    ?_, ?_, ?_⟩
  · intro e he
    simpa using hpre e he
  · intro e he
    simpa using hmid e he
  · intro e he
    simpa using List.filter_eq_nil_iff.mp hfilter e he

/-- There are two entries for each operation. -/
theorem length_eq (hc : Complete entries k) : entries.length = 2 * k := by
  have hcount : ∀ i ∈ Finset.range k, (entries.map Entry.id : Multiset ℕ).count i = 2 := by
    intro i hi
    have hlen := congrArg List.length (hc.paired i (Finset.mem_range.mp hi))
    rw [List.length_map] at hlen
    rw [Multiset.coe_count, List.count_eq_countP, List.countP_map, List.countP_eq_length_filter]
    exact hlen
  have hids : ∀ i ∈ (entries.map Entry.id : Multiset ℕ), i ∈ Finset.range k := by
    intro i hi
    obtain ⟨e, he, rfl⟩ := List.mem_map.mp (Multiset.mem_coe.mp hi)
    exact Finset.mem_range.mpr (hc.id_lt e he)
  have hsum := Multiset.sum_count_eq_card hids
  rw [Finset.sum_congr rfl hcount, Finset.sum_const, Finset.card_range] at hsum
  simpa [mul_comm] using hsum.symm

/-- An operation has no other entries than its call and its return. -/
theorem exists_operationAt [Inhabited V] (hc : Complete entries k) {i : ℕ} (hi : i < k) :
    ∃ p q, OperationAt entries i p q := by
  obtain ⟨pre, c, mid, r, post, heq, ⟨hck, hci⟩, ⟨hrk, hri⟩, hpre, hmid, hpost⟩ := hc.split hi
  have hcall : c :: (mid ++ r :: post) <:+ entries := ⟨pre, heq.symm⟩
  have hret : r :: post <:+ entries := by
    refine ⟨pre ++ c :: mid, ?_⟩
    rw [heq]
    simp
  have hinput : (operation entries i).1 = c.value := by
    rw [operation, heq]
    exact valueOf_append hck hci fun e he _ => hpre e he
  have houtput : (operation entries i).2 = r.value := by
    rw [operation, heq,
      show pre ++ c :: (mid ++ r :: post) = (pre ++ c :: mid) ++ r :: post by simp]
    refine valueOf_append hrk hri ?_
    intro e he hkind
    rcases List.mem_append.mp he with he | he
    · exact hpre e he
    · rcases List.mem_cons.mp he with rfl | he
      · rw [hck] at hkind
        cases hkind
      · exact hmid e he
  -- an entry of operation `i` is one of the two
  have honly : ∀ {e t}, e :: t <:+ entries → e.id = i →
      (e = c ∧ t = mid ++ r :: post) ∨ (e = r ∧ t = post) := by
    intro e t hsuffix hid
    rw [heq] at hsuffix
    rcases suffix_append_cons hsuffix with hmem | hit | htail
    · exact absurd hid (hpre e hmem)
    · exact .inl hit
    · rcases suffix_append_cons htail with hmem | hit | htail
      · exact absurd hid (hmid e hmem)
      · exact .inr hit
      · exact absurd hid (hpost e (htail.mem List.mem_cons_self))
  refine ⟨(mid ++ r :: post).length, post.length, ?_, ?_, ⟨c, _, hcall, hck, hci, rfl⟩,
    ⟨r, _, hret, hrk, hri, rfl⟩, ?_, ?_, ?_, ?_⟩
  · rw [List.length_append, List.length_cons]
    omega
  · exact hcall.length_le
  · rintro p' ⟨e, t, hsuffix, hkind, hid, rfl⟩
    rcases honly hsuffix hid with ⟨-, rfl⟩ | ⟨rfl, -⟩
    · rfl
    · rw [hrk] at hkind
      cases hkind
  · rintro q' ⟨e, t, hsuffix, hkind, hid, rfl⟩
    rcases honly hsuffix hid with ⟨rfl, -⟩ | ⟨-, rfl⟩
    · rw [hck] at hkind
      cases hkind
    · rfl
  · rw [(linkEntries_linked entries).val hcall, nodeOf, hck, hci, if_neg (by decide),
      firstReturn_append hmid, firstReturn, if_pos ⟨hrk, hri⟩, hinput]
  · rw [(linkEntries_linked entries).val hret, nodeOf, hrk, hri, if_pos rfl, houtput]

/-- Every address is the node of an entry. -/
theorem entryAt_of_lt (hc : Complete entries k) {p : ℕ} (hp : p < 2 * k) :
    ∃ kind, ∃ i < k, EntryAt entries kind i p := by
  rw [← hc.length_eq] at hp
  have hlt : entries.length - 1 - p < entries.length := by omega
  have hsuffix := List.drop_suffix (entries.length - 1 - p) entries
  rw [List.drop_eq_getElem_cons hlt] at hsuffix
  refine ⟨_, _, hc.id_lt _ (hsuffix.mem List.mem_cons_self), _, _, hsuffix, rfl, rfl, ?_⟩
  rw [List.length_drop]
  omega

end Complete

/-- The nodes of a history of `k` complete operations: operation `i` has its call at
`call i` and its return at `ret i`, and what comes earlier has the greater address. -/
structure Layout (data : ℕ → NodeData V) (k : ℕ) (op : ℕ → V × V) (prec : ℕ → ℕ → Prop) where
  call : ℕ → ℕ
  ret : ℕ → ℕ
  ret_lt : ∀ {i}, i < k → ret i < call i
  call_lt : ∀ {i}, i < k → call i < 2 * k
  node : ∀ {p}, p < 2 * k → ∃ i < k, p = call i ∨ p = ret i
  data_call : ∀ {i}, i < k → data (call i) = ⟨(op i).1, some (ret i), i⟩
  data_ret : ∀ {i}, i < k → data (ret i) = ⟨(op i).2, none, i⟩
  prec_iff : ∀ {a b}, a < k → b < k → (prec a b ↔ call b < ret a)

/-- **The nodes of a complete history.** -/
theorem Complete.layout [Inhabited V] {entries : List (Entry V)} {k : ℕ}
    (hc : Complete entries k) :
    Nonempty (Layout (fun p => ((linkEntries entries).mem.nodes p).val) k (operation entries)
      (ReturnsBefore entries)) := by
  have hex : ∀ i, ∃ p q, i < k → OperationAt entries i p q := by
    intro i
    by_cases hi : i < k
    · obtain ⟨p, q, h⟩ := hc.exists_operationAt hi
      exact ⟨p, q, fun _ => h⟩
    · exact ⟨0, 0, fun hi' => absurd hi' hi⟩
  choose call ret h using hex
  refine ⟨⟨call, ret, ?_, ?_, ?_, ?_, ?_, ?_⟩⟩
  · intro i hi
    exact (h i hi).lt
  · intro i hi
    rw [← hc.length_eq]
    exact (h i hi).lt_length
  · intro p hp
    obtain ⟨kind, i, hi, hat⟩ := hc.entryAt_of_lt hp
    cases kind with
    | callEntry => exact ⟨i, hi, .inl ((h i hi).call_eq p hat)⟩
    | returnEntry => exact ⟨i, hi, .inr ((h i hi).ret_eq p hat)⟩
  · intro i hi
    exact (h i hi).data_call
  · intro i hi
    exact (h i hi).data_ret
  · intro a b ha hb
    rw [returnsBefore_iff]
    constructor
    · rintro ⟨p, q, hp, hq, hlt⟩
      rw [(h b hb).call_eq p hp, (h a ha).ret_eq q hq] at hlt
      exact hlt
    · intro hlt
      exact ⟨_, _, (h b hb).call, (h a ha).ret, hlt⟩

end Mit6824
