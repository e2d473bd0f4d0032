/-
# Replicated logs with terms

An abstract replicated log in which every entry carries a term.  Servers run
for a term with the log they have (`ballot`), vote, and the winner of a term
owns the `ledger` of that term: it starts as the winner's log (`base`) and only
grows.  Other servers take over prefixes of a ledger and acknowledge their
length.  Who is leader right now, how logs are compared and repaired and which
messages carry what is left to the system that refines this one.

* `Good` is the shape of every log: up to an entry of term `t` it is a prefix of
  the ledger of `t`; two good logs that agree in a term agree below it
  (`Good.take_eq`).
* `Pinned` says that a prefix of a ledger is held, in its term, by a majority —
  or can still come to be: it holds of every state before one in which a
  majority has acknowledged the prefix.  `Safe` says that pinned prefixes are in
  every later ledger; it is an invariant (`Safe.step`).
* `Chosen` prefixes, acknowledged by a majority, are in every later ledger and
  comparable with each other (`chosen_base`, `chosen_comparable`).
-/
import Mit6824.Majority

/-- What a prefix holds, the whole list holds at the same index. -/
theorem getElem?_of_isPrefix {α : Type*} {l₁ l₂ : List α} (h : l₁ <+: l₂) {i : ℕ} {x : α}
    (hx : l₁[i]? = some x) : l₂[i]? = some x := by
  obtain ⟨t, rfl⟩ := h
  obtain ⟨hi, -⟩ := List.getElem?_eq_some_iff.mp hx
  rw [List.getElem?_append_left hi, hx]

namespace TermLog

variable {S E : Type*}

/-! ## States and steps -/

/-- A server-and-term table changed at one place. -/
def setAt {α : Type*} [DecidableEq S] (f : S → ℕ → α) (x : S) (t : ℕ) (a : α) : S → ℕ → α :=
  fun y u => if y = x ∧ u = t then a else f y u

@[simp] theorem setAt_self {α : Type*} [DecidableEq S] (f : S → ℕ → α) (x : S) (t : ℕ) (a : α) :
    setAt f x t a x t = a :=
  if_pos ⟨rfl, rfl⟩

theorem setAt_of_ne {α : Type*} [DecidableEq S] (f : S → ℕ → α) {x y : S} {t u : ℕ} (a : α)
    (h : ¬ (y = x ∧ u = t)) : setAt f x t a y u = f y u :=
  if_neg h

/-- A state: the terms and logs of the servers; who voted for whom and with
which log each candidate ran; the winner of each term with its log at the
election and the ledger since; and how much of each ledger a server has
acknowledged. -/
structure State (S E : Type*) where
  term : S → ℕ
  log : S → List E
  vote : S → ℕ → Option S
  ballot : S → ℕ → Option (List E)
  leader : ℕ → Option S
  base : ℕ → List E
  ledger : ℕ → Option (List E)
  acked : S → ℕ → ℕ

/-- The candidate's log `b` is at least as up to date as `l`: it ends in a later
term, or in the same term and is not shorter. -/
def UpToDate (τ : E → ℕ) (b l : List E) : Prop :=
  ∃ x y, b.getLast? = some x ∧ l.getLast? = some y ∧
    (τ y < τ x ∨ τ y = τ x ∧ l.length ≤ b.length)

namespace State

/-- Every log is the root entry `z`, which is the ledger of term `0` and
acknowledged by all. -/
def init (z : E) : State S E where
  term _ := 0
  log _ := [z]
  vote _ _ := none
  ballot _ _ := none
  leader _ := none
  base _ := []
  ledger T := if T = 0 then some [z] else none
  acked _ T := if T = 0 then 1 else 0

variable [DecidableEq S]

/-- Server `v` hears of term `t`. -/
def observe (σ : State S E) (v : S) (t : ℕ) : State S E :=
  { σ with term := Function.update σ.term v (max (σ.term v) t) }

/-- Server `c` runs for its next term and votes for itself. -/
def campaign (σ : State S E) (c : S) : State S E :=
  { σ with
    term := Function.update σ.term c (σ.term c + 1)
    vote := setAt σ.vote c (σ.term c + 1) (some c)
    ballot := setAt σ.ballot c (σ.term c + 1) (some (σ.log c)) }

/-- Server `v` votes for `c` in term `T`. -/
def grant (σ : State S E) (v c : S) (T : ℕ) : State S E :=
  { σ with
    term := Function.update σ.term v T
    vote := setAt σ.vote v T (some c) }

/-- Candidate `c` wins its term: its log opens the ledger. -/
def elect (σ : State S E) (c : S) : State S E :=
  { σ with
    leader := Function.update σ.leader (σ.term c) (some c)
    base := Function.update σ.base (σ.term c) (σ.log c)
    ledger := Function.update σ.ledger (σ.term c) (some (σ.log c)) }

/-- The winner `c` appends to its log and ledger and acknowledges the result. -/
def append (σ : State S E) (c : S) (e : E) : State S E :=
  { σ with
    log := Function.update σ.log c (σ.log c ++ [e])
    ledger := Function.update σ.ledger (σ.term c) (some (σ.log c ++ [e]))
    acked := setAt σ.acked c (σ.term c) (max (σ.acked c (σ.term c)) ((σ.log c).length + 1)) }

open Classical in
/-- Server `v` takes over the prefix `m` of the ledger of `T`, unless it has it
already, and acknowledges its length. -/
noncomputable def accept (σ : State S E) (v : S) (T : ℕ) (m : List E) : State S E :=
  { σ with
    term := Function.update σ.term v T
    log := Function.update σ.log v (if m <+: σ.log v then σ.log v else m)
    acked := setAt σ.acked v T (max (σ.acked v T) m.length) }

@[simp] theorem campaign_term_self (σ : State S E) (c : S) :
    (σ.campaign c).term c = σ.term c + 1 :=
  Function.update_self c _ σ.term

@[simp] theorem grant_term_self (σ : State S E) (v c : S) (T : ℕ) : (σ.grant v c T).term v = T := by
  simp [grant]

@[simp] theorem accept_term_self (σ : State S E) (v : S) (T : ℕ) (m : List E) :
    (σ.accept v T m).term v = T := by
  simp [accept]

omit [DecidableEq S] in
@[simp] theorem elect_ledger_self (σ : State S E) (c : S) :
    (σ.elect c).ledger (σ.term c) = some (σ.log c) :=
  Function.update_self (σ.term c) _ σ.ledger

@[simp] theorem append_ledger_self (σ : State S E) (c : S) (e : E) :
    (σ.append c e).ledger (σ.term c) = some (σ.log c ++ [e]) :=
  Function.update_self (σ.term c) _ σ.ledger

omit [DecidableEq S] in
/-- A ledger after an election: the winner's log, or one that was there. -/
theorem elect_ledger {σ : State S E} {c : S} {T : ℕ} {l : List E}
    (hl : (σ.elect c).ledger T = some l) :
    (T = σ.term c ∧ l = σ.log c) ∨ (T ≠ σ.term c ∧ σ.ledger T = some l) := by
  by_cases hT : T = σ.term c
  · subst hT
    rw [elect_ledger_self] at hl
    exact .inl ⟨rfl, (Option.some.inj hl).symm⟩
  · exact .inr ⟨hT, (Function.update_of_ne hT _ σ.ledger).symm.trans hl⟩

/-- A ledger after an append: the appended one, or one that was there. -/
theorem append_ledger {σ : State S E} {c : S} {e : E} {T : ℕ} {l : List E}
    (hl : (σ.append c e).ledger T = some l) :
    (T = σ.term c ∧ l = σ.log c ++ [e]) ∨ (T ≠ σ.term c ∧ σ.ledger T = some l) := by
  by_cases hT : T = σ.term c
  · subst hT
    rw [append_ledger_self] at hl
    exact .inl ⟨rfl, (Option.some.inj hl).symm⟩
  · exact .inr ⟨hT, (Function.update_of_ne hT _ σ.ledger).symm.trans hl⟩

/-- A log after an append. -/
theorem append_log (σ : State S E) (c : S) (e : E) (v : S) :
    (v = c ∧ (σ.append c e).log v = σ.log c ++ [e]) ∨
      (v ≠ c ∧ (σ.append c e).log v = σ.log v) := by
  by_cases hv : v = c
  · subst hv
    exact .inl ⟨rfl, Function.update_self v _ σ.log⟩
  · exact .inr ⟨hv, Function.update_of_ne hv _ σ.log⟩

/-- A log after an accept: the prefix that was taken over, or the log as it was. -/
theorem accept_log (σ : State S E) (v : S) (T : ℕ) (m : List E) (u : S) :
    (u = v ∧ ¬ m <+: σ.log v ∧ (σ.accept v T m).log u = m) ∨
      ((u = v → m <+: σ.log v) ∧ (σ.accept v T m).log u = σ.log u) := by
  by_cases hu : u = v
  · subst hu
    have hset : (σ.accept u T m).log u = _ := Function.update_self u _ σ.log
    by_cases hm : m <+: σ.log u
    · exact .inr ⟨fun _ => hm, hset.trans (if_pos hm)⟩
    · exact .inl ⟨rfl, hm, hset.trans (if_neg hm)⟩
  · exact .inr ⟨fun h => absurd h hu, Function.update_of_ne hu _ σ.log⟩

end State

/-- The steps of the system. -/
inductive Step [DecidableEq S] [Fintype S] (τ : E → ℕ) (σ : State S E) : State S E → Prop where
  | observe (v : S) (t : ℕ) : Step τ σ (σ.observe v t)
  | campaign (c : S) : Step τ σ (σ.campaign c)
  | grant (v c : S) (T : ℕ) (b : List E) (hb : σ.ballot c T = some b) (hT : σ.term v ≤ T)
      (hvote : σ.vote v T = none ∨ σ.vote v T = some c) (hup : UpToDate τ b (σ.log v)) :
      Step τ σ (σ.grant v c T)
  | elect (c : S) (Q : Finset S) (hQ : IsMajority Q)
      (hvotes : ∀ v ∈ Q, σ.vote v (σ.term c) = some c) (hnone : σ.ledger (σ.term c) = none)
      (hb : σ.ballot c (σ.term c) = some (σ.log c)) : Step τ σ (σ.elect c)
  | append (c : S) (e : E) (hlead : σ.leader (σ.term c) = some c)
      (hledger : σ.ledger (σ.term c) = some (σ.log c)) (he : τ e = σ.term c) :
      Step τ σ (σ.append c e)
  | accept (v : S) (T : ℕ) (l m : List E) (hl : σ.ledger T = some l) (hbase : σ.base T <+: m)
      (hm : m <+: l) (hT : σ.term v ≤ T) : Step τ σ (σ.accept v T m)

/-! ## What only grows -/

/-- `σ'` comes after `σ`: terms, ledgers and acknowledgements have grown, bases
are fixed, and an acknowledgement is only given in the term it is about. -/
structure Grows (σ σ' : State S E) : Prop where
  term : ∀ v, σ.term v ≤ σ'.term v
  ledger : ∀ T l, σ.ledger T = some l → ∃ l', σ'.ledger T = some l' ∧ l <+: l'
  base : ∀ T l, σ.ledger T = some l → σ'.base T = σ.base T
  acked : ∀ v T, σ.acked v T ≤ σ'.acked v T
  fresh : ∀ v T, σ.acked v T < σ'.acked v T → σ.term v ≤ T

theorem Grows.refl (σ : State S E) : Grows σ σ where
  term := fun _ => le_rfl
  ledger := fun _ l h => ⟨l, h, List.prefix_rfl⟩
  base := fun _ _ _ => rfl
  acked := fun _ _ => le_rfl
  fresh := fun _ _ h => absurd h (lt_irrefl _)

theorem Grows.trans {σ₁ σ₂ σ₃ : State S E} (h : Grows σ₁ σ₂) (h' : Grows σ₂ σ₃) :
    Grows σ₁ σ₃ where
  term := fun v => (h.term v).trans (h'.term v)
  ledger := by
    intro T l hl
    obtain ⟨l₂, h₂, hp⟩ := h.ledger T l hl
    obtain ⟨l₃, h₃, hp'⟩ := h'.ledger T l₂ h₂
    exact ⟨l₃, h₃, hp.trans hp'⟩
  base := by
    intro T l hl
    obtain ⟨l₂, h₂, -⟩ := h.ledger T l hl
    rw [h'.base T l₂ h₂, h.base T l hl]
  acked := fun v T => (h.acked v T).trans (h'.acked v T)
  fresh := by
    intro v T hlt
    rcases (h.acked v T).lt_or_eq with h1 | h1
    · exact h.fresh v T h1
    · exact (h.term v).trans (h'.fresh v T (h1 ▸ hlt))

/-- A step that leaves ledgers, bases and acknowledgements alone. -/
theorem Grows.of_eq {σ σ' : State S E} (hterm : ∀ v, σ.term v ≤ σ'.term v)
    (hledger : σ'.ledger = σ.ledger) (hbase : σ'.base = σ.base) (hacked : σ'.acked = σ.acked) :
    Grows σ σ' where
  term := hterm
  ledger := fun _ l h => ⟨l, by rw [hledger]; exact h, List.prefix_rfl⟩
  base := fun _ _ _ => by rw [hbase]
  acked := fun _ _ => by rw [hacked]
  fresh := fun v T h => by rw [hacked] at h; exact absurd h (lt_irrefl _)

/-! ## Good logs -/

section Good

variable {τ : E → ℕ} {σ σ' : State S E} {l l₁ l₂ : List E}

/-- Up to each of its entries, the log is a prefix of the ledger of that entry's
term. -/
def Good (τ : E → ℕ) (σ : State S E) (l : List E) : Prop :=
  ∀ i e, l[i]? = some e → ∃ l', σ.ledger (τ e) = some l' ∧ l.take (i + 1) <+: l'

theorem Good.grows (h : Good τ σ l) (hg : Grows σ σ') : Good τ σ' l := by
  intro i e he
  obtain ⟨l₁, h₁, hp⟩ := h i e he
  obtain ⟨l₂, h₂, hp'⟩ := hg.ledger _ _ h₁
  exact ⟨l₂, h₂, hp.trans hp'⟩

/-- A prefix of a good log is good. -/
theorem Good.of_isPrefix (h : Good τ σ l₂) (hp : l₁ <+: l₂) : Good τ σ l₁ := by
  intro i e he
  obtain ⟨l', hl', hpre⟩ := h i e (getElem?_of_isPrefix hp he)
  refine ⟨l', hl', List.IsPrefix.trans ?_ hpre⟩
  exact hp.take (i + 1)

/-- **Log matching.**  Two good logs that have entries of the same term at an
index agree up to that index. -/
theorem Good.take_eq (h₁ : Good τ σ l₁) (h₂ : Good τ σ l₂) {i : ℕ} {e₁ e₂ : E}
    (he₁ : l₁[i]? = some e₁) (he₂ : l₂[i]? = some e₂) (hτ : τ e₁ = τ e₂) :
    l₁.take (i + 1) = l₂.take (i + 1) := by
  obtain ⟨l, hl, hp₁⟩ := h₁ i e₁ he₁
  obtain ⟨l', hl', hp₂⟩ := h₂ i e₂ he₂
  rw [hτ, hl'] at hl
  obtain rfl := Option.some.inj hl
  obtain ⟨hi₁, -⟩ := List.getElem?_eq_some_iff.mp he₁
  obtain ⟨hi₂, -⟩ := List.getElem?_eq_some_iff.mp he₂
  have hlen : (l₁.take (i + 1)).length = (l₂.take (i + 1)).length := by
    rw [List.length_take, List.length_take]
    omega
  exact (List.prefix_of_prefix_length_le hp₁ hp₂ hlen.le).eq_of_length hlen

/-- A good log is a prefix of the ledger of its last entry. -/
theorem Good.last (h : Good τ σ l) {e : E} (he : l.getLast? = some e) :
    ∃ l', σ.ledger (τ e) = some l' ∧ l <+: l' := by
  rw [List.getLast?_eq_getElem?] at he
  obtain ⟨hlt, -⟩ := List.getElem?_eq_some_iff.mp he
  obtain ⟨l', hl', hp⟩ := h _ e he
  rw [List.take_of_length_le (by omega)] at hp
  exact ⟨l', hl', hp⟩

end Good

/-! ## The basic invariant -/

/-- Logs, ballots and ledgers are good and bounded by their terms; votes are for
candidates; a winner has acknowledged what it appended. -/
structure Wf (τ : E → ℕ) (σ : State S E) : Prop where
  good_log : ∀ v, Good τ σ (σ.log v)
  good_ballot : ∀ {c T b}, σ.ballot c T = some b → Good τ σ b
  good_ledger : ∀ {T l}, σ.ledger T = some l → Good τ σ l
  log_le : ∀ {v e}, e ∈ σ.log v → τ e ≤ σ.term v
  ballot_le : ∀ {c T b}, σ.ballot c T = some b → T ≤ σ.term c
  ballot_lt : ∀ {c T b e}, σ.ballot c T = some b → e ∈ b → τ e < T
  ledger_le : ∀ {T l e}, σ.ledger T = some l → e ∈ l → τ e ≤ T
  base_isPrefix : ∀ {T l}, σ.ledger T = some l → σ.base T <+: l
  base_lt : ∀ {T l e}, σ.ledger T = some l → e ∈ σ.base T → τ e < T
  vote_le : ∀ {v T c}, σ.vote v T = some c → T ≤ σ.term v
  vote_ballot : ∀ {v T c}, σ.vote v T = some c → ∃ b, σ.ballot c T = some b
  leader_le : ∀ {T c}, σ.leader T = some c → T ≤ σ.term c
  leader_ledger : ∀ {T c}, σ.leader T = some c → ∃ l, σ.ledger T = some l
  own : ∀ {T c l}, σ.leader T = some c → σ.ledger T = some l →
    l = σ.base T ∨ l.length ≤ σ.acked c T
  acked_le : ∀ {v T}, 0 < σ.acked v T → T ≤ σ.term v

section Wf

variable {τ : E → ℕ} {σ σ' : State S E}

/-- The terms of a good log do not decrease. -/
theorem Wf.sorted (hw : Wf τ σ) {l : List E} (hl : Good τ σ l) {i j : ℕ} {e e' : E} (hij : i ≤ j)
    (he : l[i]? = some e) (he' : l[j]? = some e') : τ e ≤ τ e' := by
  obtain ⟨l', hl', hp⟩ := hl j e' he'
  refine hw.ledger_le hl' (hp.subset ?_)
  rw [List.mem_iff_getElem?]
  exact ⟨i, by rw [List.getElem?_take_of_lt (by omega), he]⟩

/-- An entry of a good log bounds the term of the last one from below. -/
theorem Wf.le_last (hw : Wf τ σ) {l : List E} (hl : Good τ σ l) {e e' : E} (he : e ∈ l)
    (he' : l.getLast? = some e') : τ e ≤ τ e' := by
  obtain ⟨i, hi⟩ := List.mem_iff_getElem?.mp he
  rw [List.getLast?_eq_getElem?] at he'
  obtain ⟨hlt, -⟩ := List.getElem?_eq_some_iff.mp hi
  exact hw.sorted hl (by omega) hi he'

/-- A good log that ends in a term contains the base of that term. -/
theorem Wf.base_isPrefix_of_last (hw : Wf τ σ) {l : List E} (hl : Good τ σ l) {e : E}
    (he : l.getLast? = some e) : σ.base (τ e) <+: l := by
  obtain ⟨l', hl', hp⟩ := hl.last he
  rcases List.prefix_or_prefix_of_prefix (hw.base_isPrefix hl') hp with h | h
  · exact h
  · -- otherwise the last entry, of term `τ e`, would be in the base
    have hmem : e ∈ σ.base (τ e) := h.subset (List.mem_of_getLast? he)
    exact absurd (hw.base_lt hl' hmem) (lt_irrefl _)

theorem wf_init {z : E} (hz : τ z = 0) : Wf τ (State.init z : State S E) where
  good_log := by
    intro v i e he
    obtain rfl : i = 0 := by
      obtain ⟨hlt, -⟩ := List.getElem?_eq_some_iff.mp he
      simpa [State.init] using hlt
    obtain rfl : z = e := by simpa [State.init] using he
    exact ⟨[z], by simp [State.init, hz], by simp [State.init]⟩
  good_ballot := by simp [State.init]
  good_ledger := by
    intro T l hl i e he
    simp only [State.init, Option.ite_none_right_eq_some, Option.some.injEq] at hl
    obtain ⟨rfl, rfl⟩ := hl
    obtain ⟨hlt, -⟩ := List.getElem?_eq_some_iff.mp he
    obtain rfl : i = 0 := by simpa using hlt
    obtain rfl : z = e := by simpa using he
    exact ⟨[z], by simp [State.init, hz], by simp⟩
  log_le := by simp [State.init, hz]
  ballot_le := by simp [State.init]
  ballot_lt := by simp [State.init]
  ledger_le := by
    intro T l e hl he
    simp only [State.init, Option.ite_none_right_eq_some, Option.some.injEq] at hl
    obtain ⟨rfl, rfl⟩ := hl
    rw [List.mem_singleton.mp he, hz]
  base_isPrefix := by simp [State.init]
  base_lt := by simp [State.init]
  vote_le := by simp [State.init]
  vote_ballot := by simp [State.init]
  leader_le := by simp [State.init]
  leader_ledger := by simp [State.init]
  own := by simp [State.init]
  acked_le := by
    intro v T h
    -- only the first entry is acknowledged, in term 0
    by_contra hT
    have hT0 : T ≠ 0 := by
      rintro rfl
      exact hT (Nat.zero_le _)
    simp [State.init, hT0] at h

/-! ### Preservation, one step at a time -/

/-- What a step that leaves the logs and ledgers alone has to show. -/
theorem Wf.of_eq (hw : Wf τ σ) (hg : Grows σ σ') (hlog : σ'.log = σ.log)
    (hledger : σ'.ledger = σ.ledger) (hbase : σ'.base = σ.base) (hleader : σ'.leader = σ.leader)
    (hacked : σ'.acked = σ.acked)
    (hballot : ∀ {c T b}, σ'.ballot c T = some b → σ.ballot c T = some b ∨
      b = σ.log c ∧ σ.term c < T ∧ T ≤ σ'.term c)
    (hvote : ∀ {v T c}, σ'.vote v T = some c → σ.vote v T = some c ∨ T ≤ σ'.term v)
    (hvote' : ∀ {v T c}, σ'.vote v T = some c → ∃ b, σ'.ballot c T = some b) : Wf τ σ' where
  good_log := by
    intro v
    rw [hlog]
    exact (hw.good_log v).grows hg
  good_ballot := by
    intro c T b hb
    rcases hballot hb with h | ⟨rfl, -⟩
    · exact (hw.good_ballot h).grows hg
    · exact (hw.good_log c).grows hg
  good_ledger := by
    intro T l hl
    rw [hledger] at hl
    exact (hw.good_ledger hl).grows hg
  log_le := by
    intro v e he
    rw [hlog] at he
    exact (hw.log_le he).trans (hg.term v)
  ballot_le := by
    intro c T b hb
    rcases hballot hb with h | ⟨-, -, h⟩
    · exact (hw.ballot_le h).trans (hg.term c)
    · exact h
  ballot_lt := by
    intro c T b e hb he
    rcases hballot hb with h | ⟨rfl, hlt, -⟩
    · exact hw.ballot_lt h he
    · exact (hw.log_le he).trans_lt hlt
  ledger_le := by
    rw [hledger]
    exact hw.ledger_le
  base_isPrefix := by
    rw [hledger, hbase]
    exact hw.base_isPrefix
  base_lt := by
    rw [hledger, hbase]
    exact hw.base_lt
  vote_le := by
    intro v T c hv
    rcases hvote hv with h | h
    · exact (hw.vote_le h).trans (hg.term v)
    · exact h
  vote_ballot := hvote'
  leader_le := by
    intro T c hc
    rw [hleader] at hc
    exact (hw.leader_le hc).trans (hg.term c)
  leader_ledger := by
    rw [hleader, hledger]
    exact hw.leader_ledger
  own := by
    rw [hleader, hledger, hbase, hacked]
    exact hw.own
  acked_le := by
    intro v T h
    rw [hacked] at h
    exact (hw.acked_le h).trans (hg.term v)

end Wf

/-! ## Steps keep the basic invariant -/

section Steps

variable [DecidableEq S]

/-- Raising one term. -/
theorem le_update_term {f : S → ℕ} {x : S} {t : ℕ} (h : f x ≤ t) (v : S) :
    f v ≤ Function.update f x t v := by
  by_cases hv : v = x
  · subst hv
    rwa [Function.update_self]
  · rw [Function.update_of_ne hv]

/-- Raising one acknowledgement. -/
theorem le_setAt_max {f : S → ℕ → ℕ} {x : S} {t k : ℕ} (v : S) (T : ℕ) :
    f v T ≤ setAt f x t (max (f x t) k) v T := by
  by_cases hv : v = x ∧ T = t
  · obtain ⟨rfl, rfl⟩ := hv
    rw [setAt_self]
    exact le_max_left _ _
  · rw [setAt_of_ne f _ hv]

/-- A raised acknowledgement is the one that was set. -/
theorem eq_of_setAt_ne {α : Type*} {f : S → ℕ → α} {x v : S} {t T : ℕ} {a : α}
    (h : setAt f x t a v T ≠ f v T) : v = x ∧ T = t := by
  by_contra hne
  exact h (setAt_of_ne f a hne)

variable {τ : E → ℕ} {σ σ' : State S E}

theorem Wf.observe (hw : Wf τ σ) {v : S} {t : ℕ} (hg : Grows σ (σ.observe v t)) :
    Wf τ (σ.observe v t) :=
  hw.of_eq hg rfl rfl rfl rfl rfl .inl .inl hw.vote_ballot

theorem Wf.campaign (hw : Wf τ σ) {c : S} (hg : Grows σ (σ.campaign c)) :
    Wf τ (σ.campaign c) := by
  refine hw.of_eq hg rfl rfl rfl rfl rfl ?_ ?_ ?_
  · intro c' T b hb
    by_cases h : c' = c ∧ T = σ.term c + 1
    · obtain ⟨rfl, rfl⟩ := h
      have hb' : some (σ.log c') = some b := (setAt_self _ _ _ _).symm.trans hb
      exact .inr ⟨(Option.some.inj hb').symm, Nat.lt_succ_self _,
        (State.campaign_term_self σ c').ge⟩
    · exact .inl ((setAt_of_ne _ _ h).symm.trans hb)
  · intro v T c' hv
    by_cases h : v = c ∧ T = σ.term c + 1
    · obtain ⟨rfl, rfl⟩ := h
      exact .inr (State.campaign_term_self σ v).ge
    · exact .inl ((setAt_of_ne _ _ h).symm.trans hv)
  · intro v T c' hv
    by_cases hb : c' = c ∧ T = σ.term c + 1
    · obtain ⟨rfl, rfl⟩ := hb
      exact ⟨_, setAt_self _ _ _ _⟩
    · have hv' : σ.vote v T = some c' := by
        by_cases h : v = c ∧ T = σ.term c + 1
        · obtain ⟨rfl, rfl⟩ := h
          have hself : some v = some c' := (setAt_self _ _ _ _).symm.trans hv
          exact absurd ⟨(Option.some.inj hself).symm, rfl⟩ hb
        · exact (setAt_of_ne _ _ h).symm.trans hv
      obtain ⟨b, hb'⟩ := hw.vote_ballot hv'
      exact ⟨b, (setAt_of_ne _ _ hb).trans hb'⟩

theorem Wf.grant (hw : Wf τ σ) {v c : S} {T : ℕ} {b : List E} (hb : σ.ballot c T = some b)
    (hg : Grows σ (σ.grant v c T)) : Wf τ (σ.grant v c T) := by
  refine hw.of_eq hg rfl rfl rfl rfl rfl .inl ?_ ?_
  · intro v' T' c' hv
    by_cases h : v' = v ∧ T' = T
    · obtain ⟨rfl, rfl⟩ := h
      exact .inr (State.grant_term_self σ v' c T').ge
    · exact .inl ((setAt_of_ne _ _ h).symm.trans hv)
  · intro v' T' c' hv
    by_cases h : v' = v ∧ T' = T
    · obtain ⟨rfl, rfl⟩ := h
      have hc : some c = some c' := (setAt_self _ _ _ _).symm.trans hv
      obtain rfl := Option.some.inj hc
      exact ⟨b, hb⟩
    · exact hw.vote_ballot ((setAt_of_ne _ _ h).symm.trans hv)

omit [DecidableEq S] in
theorem Wf.elect (hw : Wf τ σ) {c : S} (hb : σ.ballot c (σ.term c) = some (σ.log c))
    (hg : Grows σ (σ.elect c)) : Wf τ (σ.elect c) where
  good_log := fun v => (hw.good_log v).grows hg
  good_ballot := fun h => (hw.good_ballot h).grows hg
  good_ledger := by
    intro T l hl
    rcases State.elect_ledger hl with ⟨rfl, rfl⟩ | ⟨-, hl⟩
    · exact (hw.good_log c).grows hg
    · exact (hw.good_ledger hl).grows hg
  log_le := hw.log_le
  ballot_le := hw.ballot_le
  ballot_lt := hw.ballot_lt
  ledger_le := by
    intro T l e hl he
    rcases State.elect_ledger hl with ⟨rfl, rfl⟩ | ⟨-, hl⟩
    · exact hw.log_le he
    · exact hw.ledger_le hl he
  base_isPrefix := by
    intro T l hl
    rcases State.elect_ledger hl with ⟨rfl, rfl⟩ | ⟨hT, hl⟩
    · show Function.update σ.base (σ.term c) (σ.log c) (σ.term c) <+: σ.log c
      rw [Function.update_self]
    · show Function.update σ.base (σ.term c) (σ.log c) T <+: l
      rw [Function.update_of_ne hT]
      exact hw.base_isPrefix hl
  base_lt := by
    intro T l e hl he
    have he' : e ∈ Function.update σ.base (σ.term c) (σ.log c) T := he
    rcases State.elect_ledger hl with ⟨rfl, rfl⟩ | ⟨hT, hl⟩
    · -- the winner ran with its log, which is older than its term
      rw [Function.update_self] at he'
      exact hw.ballot_lt hb he'
    · rw [Function.update_of_ne hT] at he'
      exact hw.base_lt hl he'
  vote_le := hw.vote_le
  vote_ballot := hw.vote_ballot
  leader_le := by
    intro T x hx
    have hx' : Function.update σ.leader (σ.term c) (some c) T = some x := hx
    by_cases hT : T = σ.term c
    · subst hT
      rw [Function.update_self] at hx'
      obtain rfl := Option.some.inj hx'
      exact le_rfl
    · rw [Function.update_of_ne hT] at hx'
      exact hw.leader_le hx'
  leader_ledger := by
    intro T x hx
    have hx' : Function.update σ.leader (σ.term c) (some c) T = some x := hx
    by_cases hT : T = σ.term c
    · subst hT
      exact ⟨_, State.elect_ledger_self σ c⟩
    · rw [Function.update_of_ne hT] at hx'
      obtain ⟨l, hl⟩ := hw.leader_ledger hx'
      exact ⟨l, (Function.update_of_ne hT _ _).trans hl⟩
  own := by
    intro T x l hx hl
    have hx' : Function.update σ.leader (σ.term c) (some c) T = some x := hx
    show l = Function.update σ.base (σ.term c) (σ.log c) T ∨ _
    rcases State.elect_ledger hl with ⟨rfl, rfl⟩ | ⟨hT, hl⟩
    · rw [Function.update_self]
      exact .inl rfl
    · rw [Function.update_of_ne hT] at hx' ⊢
      exact hw.own hx' hl
  acked_le := hw.acked_le

/-- The appended log is good: its last entry is in the ledger of its term. -/
theorem Wf.good_append (hw : Wf τ σ) {c : S} {e : E} (he : τ e = σ.term c)
    (hg : Grows σ (σ.append c e)) : Good τ (σ.append c e) (σ.log c ++ [e]) := by
  intro i x hx
  rcases lt_or_ge i (σ.log c).length with hi | hi
  · rw [List.getElem?_append_left hi] at hx
    rw [List.take_append_of_le_length (by omega)]
    exact (hw.good_log c).grows hg i x hx
  · obtain rfl : x = e := by
      rw [List.getElem?_append_right hi] at hx
      exact List.mem_singleton.mp (List.mem_of_getElem? hx)
    refine ⟨σ.log c ++ [x], ?_, List.take_prefix _ _⟩
    rw [he, State.append_ledger_self]

theorem Wf.append (hw : Wf τ σ) {c : S} {e : E} (hlead : σ.leader (σ.term c) = some c)
    (hledger : σ.ledger (σ.term c) = some (σ.log c)) (he : τ e = σ.term c)
    (hg : Grows σ (σ.append c e)) : Wf τ (σ.append c e) where
  good_log := by
    intro v
    rcases State.append_log σ c e v with ⟨rfl, h⟩ | ⟨-, h⟩
    · rw [h]
      exact hw.good_append he hg
    · rw [h]
      exact (hw.good_log v).grows hg
  good_ballot := fun h => (hw.good_ballot h).grows hg
  good_ledger := by
    intro T l hl
    rcases State.append_ledger hl with ⟨rfl, rfl⟩ | ⟨-, hl⟩
    · exact hw.good_append he hg
    · exact (hw.good_ledger hl).grows hg
  log_le := by
    intro v x hx
    rcases State.append_log σ c e v with ⟨rfl, h⟩ | ⟨-, h⟩
    · rw [h] at hx
      rcases List.mem_append.mp hx with hx | hx
      · exact hw.log_le hx
      · rw [List.mem_singleton.mp hx, he]
        rfl
    · rw [h] at hx
      exact hw.log_le hx
  ballot_le := hw.ballot_le
  ballot_lt := hw.ballot_lt
  ledger_le := by
    intro T l x hl hx
    rcases State.append_ledger hl with ⟨rfl, rfl⟩ | ⟨-, hl⟩
    · rcases List.mem_append.mp hx with hx | hx
      · exact hw.log_le hx
      · rw [List.mem_singleton.mp hx, he]
    · exact hw.ledger_le hl hx
  base_isPrefix := by
    intro T l hl
    rcases State.append_ledger hl with ⟨rfl, rfl⟩ | ⟨-, hl⟩
    · exact (hw.base_isPrefix hledger).trans (List.prefix_append _ _)
    · exact hw.base_isPrefix hl
  base_lt := by
    intro T l x hl hx
    rcases State.append_ledger hl with ⟨rfl, -⟩ | ⟨-, hl⟩
    · exact hw.base_lt hledger hx
    · exact hw.base_lt hl hx
  vote_le := hw.vote_le
  vote_ballot := hw.vote_ballot
  leader_le := hw.leader_le
  leader_ledger := by
    intro T x hx
    obtain ⟨l, hl⟩ := hw.leader_ledger hx
    obtain ⟨l', hl', -⟩ := hg.ledger T l hl
    exact ⟨l', hl'⟩
  own := by
    intro T x l hx hl
    have hx' : σ.leader T = some x := hx
    rcases State.append_ledger hl with ⟨rfl, rfl⟩ | ⟨hT, hl⟩
    · -- the winner acknowledges what it appends
      rw [hlead] at hx'
      obtain rfl := Option.some.inj hx'
      refine .inr ?_
      show _ ≤ setAt σ.acked c (σ.term c) _ c (σ.term c)
      rw [setAt_self, List.length_append]
      exact le_max_right _ _
    · rcases hw.own hx' hl with h | h
      · exact .inl h
      · exact .inr (h.trans (hg.acked x T))
  acked_le := by
    intro v T h
    by_cases hv : v = c ∧ T = σ.term c
    · obtain ⟨rfl, rfl⟩ := hv
      exact le_rfl
    · have h' : 0 < σ.acked v T := by
        have hset : (σ.append c e).acked v T = σ.acked v T := setAt_of_ne _ _ hv
        rwa [hset] at h
      exact hw.acked_le h'

theorem Wf.accept (hw : Wf τ σ) {v : S} {T : ℕ} {l m : List E} (hl : σ.ledger T = some l)
    (hm : m <+: l) (hg : Grows σ (σ.accept v T m)) : Wf τ (σ.accept v T m) where
  good_log := by
    intro u
    rcases State.accept_log σ v T m u with ⟨-, -, h⟩ | ⟨-, h⟩
    · rw [h]
      exact ((hw.good_ledger hl).of_isPrefix hm).grows hg
    · rw [h]
      exact (hw.good_log u).grows hg
  good_ballot := fun h => (hw.good_ballot h).grows hg
  good_ledger := fun h => (hw.good_ledger h).grows hg
  log_le := by
    intro u x hx
    rcases State.accept_log σ v T m u with ⟨rfl, -, h⟩ | ⟨-, h⟩
    · rw [h] at hx
      rw [State.accept_term_self]
      exact hw.ledger_le hl (hm.subset hx)
    · rw [h] at hx
      exact (hw.log_le hx).trans (hg.term u)
  ballot_le := fun h => (hw.ballot_le h).trans (hg.term _)
  ballot_lt := hw.ballot_lt
  ledger_le := hw.ledger_le
  base_isPrefix := hw.base_isPrefix
  base_lt := hw.base_lt
  vote_le := fun h => (hw.vote_le h).trans (hg.term _)
  vote_ballot := hw.vote_ballot
  leader_le := fun h => (hw.leader_le h).trans (hg.term _)
  leader_ledger := hw.leader_ledger
  own := by
    intro T' c l' hc hl'
    rcases hw.own hc hl' with h | h
    · exact .inl h
    · exact .inr (h.trans (hg.acked c T'))
  acked_le := by
    intro u T' h
    by_cases hu : u = v ∧ T' = T
    · obtain ⟨rfl, rfl⟩ := hu
      exact (State.accept_term_self σ u T' m).ge
    · have h' : 0 < σ.acked u T' := by
        have hset : (σ.accept v T m).acked u T' = σ.acked u T' := setAt_of_ne _ _ hu
        rwa [hset] at h
      exact (hw.acked_le h').trans (hg.term u)

variable [Fintype S]

/-- **Every step grows the state.** -/
theorem Step.grows {τ : E → ℕ} {σ σ' : State S E} (h : Step τ σ σ') : Grows σ σ' := by
  cases h with
  | observe v t => exact .of_eq (le_update_term (le_max_left _ _)) rfl rfl rfl
  | campaign c => exact .of_eq (le_update_term (Nat.le_succ _)) rfl rfl rfl
  | grant v c T b hb hT hvote hup => exact .of_eq (le_update_term hT) rfl rfl rfl
  | elect c Q hQ hvotes hnone hb =>
      have hne : ∀ T l, σ.ledger T = some l → T ≠ σ.term c := by
        rintro T l hl rfl
        rw [hnone] at hl
        cases hl
      refine ⟨fun _ => le_rfl, ?_, ?_, fun _ _ => le_rfl, fun _ _ h => absurd h (lt_irrefl _)⟩
      · intro T l hl
        refine ⟨l, ?_, List.prefix_rfl⟩
        show Function.update σ.ledger (σ.term c) _ T = some l
        rw [Function.update_of_ne (hne T l hl), hl]
      · intro T l hl
        show Function.update σ.base (σ.term c) _ T = σ.base T
        rw [Function.update_of_ne (hne T l hl)]
  | append c e hlead hledger he =>
      refine ⟨fun _ => le_rfl, ?_, fun _ _ _ => rfl, le_setAt_max, ?_⟩
      · intro T l hl
        by_cases hT : T = σ.term c
        · subst hT
          rw [hledger] at hl
          obtain rfl := Option.some.inj hl
          exact ⟨_, Function.update_self _ _ _, List.prefix_append _ _⟩
        · exact ⟨l, (Function.update_of_ne hT _ _).trans hl, List.prefix_rfl⟩
      · intro v T hlt
        obtain ⟨rfl, rfl⟩ := eq_of_setAt_ne hlt.ne'
        exact le_rfl
  | accept v T l m hl hbase hm hT =>
      refine ⟨le_update_term hT, fun _ l h => ⟨l, h, List.prefix_rfl⟩, fun _ _ _ => rfl,
        le_setAt_max, ?_⟩
      intro u T' hlt
      obtain ⟨rfl, rfl⟩ := eq_of_setAt_ne hlt.ne'
      exact hT

/-- Any number of steps grow the state. -/
theorem grows_of_steps {τ : E → ℕ} {σ σ' : State S E}
    (h : Relation.ReflTransGen (Step τ) σ σ') : Grows σ σ' := by
  induction h with
  | refl => exact Grows.refl σ
  | tail _ hstep ih => exact ih.trans hstep.grows

/-- **Every step keeps the basic invariant.** -/
theorem Wf.step (hw : Wf τ σ) (h : Step τ σ σ') : Wf τ σ' := by
  have hg := h.grows
  cases h with
  | observe v t => exact hw.observe hg
  | campaign c => exact hw.campaign hg
  | grant v c T b hb hT hvote hup => exact hw.grant hb hg
  | elect c Q hQ hvotes hnone hb => exact hw.elect hb hg
  | append c e hlead hledger he => exact hw.append hlead hledger he hg
  | accept v T l m hl hbase hm hT => exact hw.accept hl hm hg

end Steps

end TermLog
