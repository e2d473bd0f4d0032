/-
# Replicated logs with terms: what a majority has acknowledged stays

The completeness argument for `TermLog`.  A prefix `p` of the ledger of term
`T`, whose last entry is of term `T`, is *pinned* by a majority `Q` when every
member of `Q` has acknowledged it in `T` or has not yet left `T`.  Being pinned
goes backwards along steps, so a prefix that a majority acknowledges in the end
was pinned all along, and the induction over the steps can use it from the
start: the members that have acknowledged keep it in their logs, their later
votes go to candidates that have it, and so the winners of later terms have it.

`Stored` is the part of it that needs no majority: what a member has acknowledged
in its own term is in its log.
-/
import Mit6824.TermLog

namespace TermLog

variable {S E : Type*} {τ : E → ℕ} {σ σ' : State S E} {Q : Finset S} {T : ℕ} {p : List E}

/-- The prefix `p` ends in term `T` and fits the ledger of `T`, and every member
of `Q` has acknowledged it or may still do so. -/
structure Pinned (τ : E → ℕ) (σ : State S E) (Q : Finset S) (T : ℕ) (p : List E) : Prop where
  last : ∃ e, p.getLast? = some e ∧ τ e = T
  comparable : ∀ {l}, σ.ledger T = some l → p <+: l ∨ l <+: p
  held : ∀ {v}, v ∈ Q → p.length ≤ σ.acked v T ∨ σ.term v ≤ T

/-- What becomes of a pinned prefix: it is in the log of every member that has
acknowledged it, in the base of every later term, and in the ballot of every
candidate that a member has voted for in a later term. -/
structure Kept (σ : State S E) (Q : Finset S) (T : ℕ) (p : List E) : Prop where
  log : ∀ {v}, v ∈ Q → p.length ≤ σ.acked v T → p <+: σ.log v
  base : ∀ {T' l}, T < T' → σ.ledger T' = some l → p <+: σ.base T'
  ballot : ∀ {v T' c b}, v ∈ Q → T < T' → σ.vote v T' = some c → σ.ballot c T' = some b → p <+: b

/-- Pinned prefixes are kept. -/
def Safe [Fintype S] (τ : E → ℕ) (σ : State S E) : Prop :=
  ∀ Q T p, IsMajority Q → Pinned τ σ Q T p → Kept σ Q T p

/-! ## Pinned prefixes go backwards -/

/-- A prefix pinned later was pinned before. -/
theorem Pinned.of_grows (h : Pinned τ σ' Q T p) (hg : Grows σ σ') : Pinned τ σ Q T p where
  last := h.last
  comparable := by
    intro l hl
    obtain ⟨l', hl', hp⟩ := hg.ledger T l hl
    rcases h.comparable hl' with h1 | h1
    · exact List.prefix_or_prefix_of_prefix h1 hp
    · exact .inr (hp.trans h1)
  held := by
    intro v hv
    rcases h.held hv with h1 | h1
    · by_cases hlt : σ.acked v T < σ'.acked v T
      · exact .inr (hg.fresh v T hlt)
      · exact .inl (h1.trans (not_lt.mp hlt))
    · exact .inr ((hg.term v).trans h1)

/-- A member of `Q` that has left the term has acknowledged. -/
theorem Pinned.acked_of_lt (h : Pinned τ σ Q T p) {v : S} (hv : v ∈ Q) (hlt : T < σ.term v) :
    p.length ≤ σ.acked v T :=
  (h.held hv).resolve_right (not_le.mpr hlt)

/-- A pinned prefix that is not longer than a part of the ledger is in it. -/
theorem Pinned.prefix_of_length_le (h : Pinned τ σ Q T p) {l m : List E}
    (hl : σ.ledger T = some l) (hm : m <+: l) (hlen : p.length ≤ m.length) : p <+: m := by
  have hpl : p <+: l := by
    rcases h.comparable hl with h1 | h1
    · exact h1
    · rw [h1.eq_of_length_le (hlen.trans hm.length_le)]
  exact List.prefix_of_prefix_length_le hpl hm hlen

/-- A pinned prefix that is longer than a part of the ledger extends it. -/
theorem Pinned.prefix_of_length_lt (h : Pinned τ σ Q T p) {l m : List E}
    (hl : σ.ledger T = some l) (hm : m <+: l) (hlen : m.length ≤ p.length) : m <+: p := by
  rcases h.comparable hl with h1 | h1
  · exact List.prefix_of_prefix_length_le hm h1 hlen
  · exact hm.trans h1

/-! ## The up-to-date test keeps a pinned prefix -/

/-- A good log that ends after term `T` has the base of a later term, and with
it every prefix kept since `T`. -/
theorem Kept.of_last (hk : Kept σ Q T p) (hw : Wf τ σ) {b : List E} (hb : Good τ σ b) {x : E}
    (hx : b.getLast? = some x) (hlt : T < τ x) : p <+: b := by
  obtain ⟨l', hl', -⟩ := hb.last hx
  exact (hk.base hlt hl').trans (hw.base_isPrefix_of_last hb hx)

/-- **A candidate at least as up to date as a log with `p` has `p`.** -/
theorem Kept.of_upToDate (hk : Kept σ Q T p) (hp : Pinned τ σ Q T p) (hw : Wf τ σ)
    {b l : List E} (hb : Good τ σ b) (hl : Good τ σ l) (hup : UpToDate τ b l) (hpl : p <+: l) :
    p <+: b := by
  obtain ⟨x, y, hx, hy, hcmp⟩ := hup
  obtain ⟨e, he, rfl⟩ := hp.last
  have hle : τ e ≤ τ y := hw.le_last hl (hpl.subset (List.mem_of_getLast? he)) hy
  rcases hcmp with hlt | ⟨heq, hlen⟩
  · exact hk.of_last hw hb hx (hle.trans_lt hlt)
  · rcases hle.lt_or_eq with hlt | hle
    · exact hk.of_last hw hb hx (heq ▸ hlt)
    · -- both logs end in the term of `p`, so they are prefixes of one ledger
      obtain ⟨l', hl', hbl⟩ := hb.last hx
      rw [← heq, ← hle] at hl'
      exact hp.prefix_of_length_le hl' hbl (hpl.length_le.trans hlen)

/-! ## Every step keeps what is pinned -/

theorem Kept.of_eq (hk : Kept σ Q T p) (hlog : σ'.log = σ.log) (hledger : σ'.ledger = σ.ledger)
    (hbase : σ'.base = σ.base) (hacked : σ'.acked = σ.acked)
    (hballot : ∀ {v T' c b}, v ∈ Q → T < T' → σ'.vote v T' = some c → σ'.ballot c T' = some b →
      p <+: b) : Kept σ' Q T p where
  log := by
    rw [hlog, hacked]
    exact hk.log
  base := by
    rw [hledger, hbase]
    exact hk.base
  ballot := hballot

variable [DecidableEq S]

theorem Kept.campaign (hk : Kept σ Q T p) (hw : Wf τ σ) {c : S}
    (hp' : Pinned τ (σ.campaign c) Q T p) : Kept (σ.campaign c) Q T p := by
  refine hk.of_eq rfl rfl rfl rfl ?_
  intro v T' c' b hv hT hvote hballot
  by_cases hnew : c' = c ∧ T' = σ.term c + 1
  · obtain ⟨rfl, rfl⟩ := hnew
    have hb : some (σ.log c') = some b := (setAt_self _ _ _ _).symm.trans hballot
    obtain rfl := Option.some.inj hb
    -- nobody but the candidate itself has voted for this ballot
    by_cases hself : v = c'
    · subst hself
      exact hk.log hv (hp'.acked_of_lt hv (by rw [State.campaign_term_self]; exact hT))
    · have hvote' : σ.vote v (σ.term c' + 1) = some c' :=
        (setAt_of_ne _ _ (fun h => hself h.1)).symm.trans hvote
      obtain ⟨b', hb'⟩ := hw.vote_ballot hvote'
      exact absurd (hw.ballot_le hb') (by omega)
  · have hballot' : σ.ballot c' T' = some b := (setAt_of_ne _ _ hnew).symm.trans hballot
    by_cases hself : v = c ∧ T' = σ.term c + 1
    · obtain ⟨rfl, rfl⟩ := hself
      have hc : some v = some c' := (setAt_self _ _ _ _).symm.trans hvote
      exact absurd ⟨(Option.some.inj hc).symm, rfl⟩ hnew
    · exact hk.ballot hv hT ((setAt_of_ne _ _ hself).symm.trans hvote) hballot'

theorem Kept.grant (hk : Kept σ Q T p) (hw : Wf τ σ) (hp : Pinned τ σ Q T p) {v c : S} {U : ℕ}
    {b : List E} (hb : σ.ballot c U = some b) (hup : UpToDate τ b (σ.log v))
    (hp' : Pinned τ (σ.grant v c U) Q T p) : Kept (σ.grant v c U) Q T p := by
  refine hk.of_eq rfl rfl rfl rfl ?_
  intro v' T' c' b' hv hT hvote hballot
  by_cases hnew : v' = v ∧ T' = U
  · obtain ⟨rfl, rfl⟩ := hnew
    have hc : some c = some c' := (setAt_self _ _ _ _).symm.trans hvote
    obtain rfl := Option.some.inj hc
    have hb' : σ.ballot c T' = some b' := hballot
    rw [hb] at hb'
    obtain rfl := Option.some.inj hb'
    -- a voter of `Q` that is past `T` has acknowledged `p`, so its log has it
    have hacked : p.length ≤ σ.acked v' T :=
      hp'.acked_of_lt hv (by rw [State.grant_term_self]; exact hT)
    exact hk.of_upToDate hp hw (hw.good_ballot hb) (hw.good_log v') hup (hk.log hv hacked)
  · exact hk.ballot hv hT ((setAt_of_ne _ _ hnew).symm.trans hvote) hballot

omit [DecidableEq S] in
theorem Kept.elect [Fintype S] (hk : Kept σ Q T p) (hQ : IsMajority Q) {c : S} {V : Finset S}
    (hV : IsMajority V) (hvotes : ∀ v ∈ V, σ.vote v (σ.term c) = some c)
    (hb : σ.ballot c (σ.term c) = some (σ.log c)) : Kept (σ.elect c) Q T p where
  log := hk.log
  base := by
    intro T' l hT hl
    rcases State.elect_ledger hl with ⟨rfl, rfl⟩ | ⟨hne, hl⟩
    · -- a voter of the winner is a member of `Q`
      obtain ⟨v, hvQ, hvV⟩ := hQ.inter hV
      show p <+: Function.update σ.base (σ.term c) (σ.log c) (σ.term c)
      rw [Function.update_self]
      exact hk.ballot hvQ hT (hvotes v hvV) hb
    · show p <+: Function.update σ.base (σ.term c) (σ.log c) T'
      rw [Function.update_of_ne hne]
      exact hk.base hT hl
  ballot := hk.ballot

theorem Kept.append (hk : Kept σ Q T p) {c : S} {e : E}
    (hledger : σ.ledger (σ.term c) = some (σ.log c))
    (hp' : Pinned τ (σ.append c e) Q T p) : Kept (σ.append c e) Q T p where
  log := by
    intro v hv hlen
    rcases State.append_log σ c e v with ⟨rfl, h⟩ | ⟨hne, h⟩
    · rw [h]
      by_cases hold : p.length ≤ σ.acked v T
      · exact (hk.log hv hold).trans (List.prefix_append _ _)
      · -- this append acknowledges `p`, so `T` is the term of the leader
        have hlen' : p.length ≤ setAt σ.acked v (σ.term v) _ v T := hlen
        have hne : setAt σ.acked v (σ.term v)
            (max (σ.acked v (σ.term v)) ((σ.log v).length + 1)) v T ≠ σ.acked v T := by
          intro heq
          rw [heq] at hlen'
          exact hold hlen'
        obtain ⟨-, rfl⟩ := eq_of_setAt_ne hne
        rw [setAt_self] at hlen'
        refine hp'.prefix_of_length_le (State.append_ledger_self σ v e) List.prefix_rfl ?_
        rw [List.length_append, List.length_singleton]
        omega
    · rw [h]
      have hacked : (σ.append c e).acked v T = σ.acked v T :=
        setAt_of_ne _ _ (fun h => hne h.1)
      rw [hacked] at hlen
      exact hk.log hv hlen
  base := by
    intro T' l hT hl
    rcases State.append_ledger hl with ⟨rfl, rfl⟩ | ⟨-, hl⟩
    · exact hk.base hT hledger
    · exact hk.base hT hl
  ballot := hk.ballot

theorem Kept.accept (hk : Kept σ Q T p) (hw : Wf τ σ) (hp : Pinned τ σ Q T p) {v : S} {U : ℕ}
    {l m : List E} (hl : σ.ledger U = some l) (hbase : σ.base U <+: m) (hm : m <+: l)
    (hU : σ.term v ≤ U) : Kept (σ.accept v U m) Q T p where
  log := by
    intro u hu hlen
    -- an acknowledgement given by this very step covers `p`
    have hcover : p.length ≤ σ.acked u T ∨ (u = v ∧ T = U ∧ p.length ≤ m.length) := by
      by_cases hset : u = v ∧ T = U
      · obtain ⟨rfl, rfl⟩ := hset
        have hlen' : p.length ≤ setAt σ.acked u T (max (σ.acked u T) m.length) u T := hlen
        rw [setAt_self] at hlen'
        rcases le_max_iff.mp hlen' with h | h
        · exact .inl h
        · exact .inr ⟨rfl, rfl, h⟩
      · have heq : (σ.accept v U m).acked u T = σ.acked u T := setAt_of_ne _ _ hset
        rw [heq] at hlen
        exact .inl hlen
    rcases State.accept_log σ v U m u with ⟨rfl, hnot, h⟩ | ⟨hmlog, h⟩
    · rw [h]
      rcases hcover with hacked | ⟨-, rfl, hle⟩
      · have hlog := hk.log hu hacked
        have hpos : 0 < p.length := by
          obtain ⟨e, he, -⟩ := hp.last
          exact List.length_pos_of_mem (List.mem_of_getLast? he)
        have hTU : T ≤ U := (hw.acked_le (hpos.trans_le hacked)).trans hU
        rcases hTU.lt_or_eq with hlt | rfl
        · -- the request is of a later term, whose base has `p`
          exact (hk.base hlt hl).trans hbase
        · rcases le_total p.length m.length with hle | hle
          · exact hp.prefix_of_length_le hl hm hle
          · exact absurd ((hp.prefix_of_length_lt hl hm hle).trans hlog) hnot
      · exact hp.prefix_of_length_le hl hm hle
    · rw [h]
      rcases hcover with hacked | ⟨rfl, rfl, hle⟩
      · exact hk.log hu hacked
      · exact (hp.prefix_of_length_le hl hm hle).trans (hmlog rfl)
  base := hk.base
  ballot := hk.ballot

variable [Fintype S]

/-- **Every step keeps pinned prefixes safe.** -/
theorem Safe.step (hs : Safe τ σ) (hw : Wf τ σ) (h : Step τ σ σ') : Safe τ σ' := by
  intro Q T p hQ hp'
  have hp := hp'.of_grows h.grows
  have hk := hs Q T p hQ hp
  cases h with
  | observe v t => exact hk.of_eq rfl rfl rfl rfl hk.ballot
  | campaign c => exact hk.campaign hw hp'
  | grant v c U b hb hU hvote hup => exact hk.grant hw hp hb hup hp'
  | elect c V hV hvotes hnone hb => exact hk.elect hQ hV hvotes hb
  | append c e hlead hledger he => exact hk.append hledger hp'
  | accept v U l m hl hbase hm hU => exact hk.accept hw hp hl hbase hm hU

omit [DecidableEq S] in
theorem safe_init {z : E} : Safe τ (State.init z : State S E) := by
  intro Q T p hQ hp
  refine ⟨?_, ?_, ?_⟩
  · intro v hv hlen
    obtain ⟨e, he, -⟩ := hp.last
    have hpos : 0 < p.length := List.length_pos_of_mem (List.mem_of_getLast? he)
    have hT : T = 0 := by
      by_contra hT
      have hzero : (State.init z : State S E).acked v T = 0 := if_neg hT
      omega
    subst hT
    have hlen1 : p.length ≤ [z].length := hlen
    exact hp.prefix_of_length_le rfl List.prefix_rfl hlen1
  · intro T' l hT hl
    have hT' : T' ≠ 0 := by omega
    simp [State.init, hT'] at hl
  · intro v T' c b _ _ hv
    simp [State.init] at hv

/-! ## Chosen prefixes -/

/-- A majority has acknowledged the prefix `p` of the ledger of `T`, and `p` ends
in an entry of term `T`. -/
def Chosen (τ : E → ℕ) (σ : State S E) (T : ℕ) (p : List E) : Prop :=
  ∃ (Q : Finset S) (l : List E), IsMajority Q ∧ σ.ledger T = some l ∧ p <+: l ∧
    (∃ e, p.getLast? = some e ∧ τ e = T) ∧ ∀ v ∈ Q, p.length ≤ σ.acked v T

omit [DecidableEq S] in
/-- Chosen once, chosen for good. -/
theorem Chosen.grows (h : Chosen τ σ T p) (hg : Grows σ σ') : Chosen τ σ' T p := by
  obtain ⟨Q, l, hQ, hl, hp, hlast, hacked⟩ := h
  obtain ⟨l', hl', hll'⟩ := hg.ledger T l hl
  exact ⟨Q, l', hQ, hl', hp.trans hll', hlast, fun v hv => (hacked v hv).trans (hg.acked v T)⟩

omit [DecidableEq S] in
/-- **Later terms start with what is chosen.** -/
theorem chosen_base (hs : Safe τ σ) (h : Chosen τ σ T p) {T' : ℕ} {l' : List E} (hT : T < T')
    (hl' : σ.ledger T' = some l') : p <+: σ.base T' := by
  obtain ⟨Q, l, hQ, hl, hp, hlast, hacked⟩ := h
  have hpin : Pinned τ σ Q T p := by
    refine ⟨hlast, ?_, fun hv => .inl (hacked _ hv)⟩
    intro l₁ hl₁
    rw [hl] at hl₁
    obtain rfl := Option.some.inj hl₁
    exact .inl hp
  exact (hs Q T p hQ hpin).base hT hl'

omit [DecidableEq S] in
/-- Chosen prefixes of an earlier term are in the ledger of a later one. -/
theorem chosen_ledger (hs : Safe τ σ) (hw : Wf τ σ) (h : Chosen τ σ T p) {T' : ℕ}
    {l' : List E} (hT : T ≤ T') (hl' : σ.ledger T' = some l') : p <+: l' := by
  rcases hT.lt_or_eq with hlt | rfl
  · exact (chosen_base hs h hlt hl').trans (hw.base_isPrefix hl')
  · obtain ⟨Q, l, hQ, hl, hp, -⟩ := h
    rw [hl'] at hl
    obtain rfl := Option.some.inj hl
    exact hp

omit [DecidableEq S] in
/-- **Chosen prefixes are comparable.** -/
theorem chosen_comparable (hs : Safe τ σ) (hw : Wf τ σ) {T' : ℕ} {p' : List E}
    (h : Chosen τ σ T p) (h' : Chosen τ σ T' p') : p <+: p' ∨ p' <+: p := by
  have key : ∀ {T T' : ℕ} {p p' : List E}, T ≤ T' → Chosen τ σ T p → Chosen τ σ T' p' →
      p <+: p' ∨ p' <+: p := by
    intro T T' p p' hT h h'
    obtain ⟨Q, l, hQ, hl, hp, -⟩ := h'
    exact List.prefix_or_prefix_of_prefix (chosen_ledger hs hw h hT hl) hp
  rcases le_total T T' with hT | hT
  · exact key hT h h'
  · exact (key hT h' h).symm

omit [DecidableEq S] in
/-- The root entry is chosen from the start. -/
theorem chosen_init [Nonempty S] {z : E} (hz : τ z = 0) :
    Chosen τ (State.init z : State S E) 0 [z] := by
  refine ⟨Finset.univ, [z], ?_, rfl, List.prefix_rfl, ⟨z, rfl, hz⟩, fun _ _ => le_rfl⟩
  have hpos : 0 < Fintype.card S := Fintype.card_pos
  unfold IsMajority
  rw [Finset.card_univ]
  omega

/-! ## What is acknowledged is stored -/

/-- An acknowledgement in term `T` is of a prefix of the ledger of `T`, which the
server has in its log as long as it stays in that term. -/
def Stored (σ : State S E) : Prop :=
  ∀ v T, 0 < σ.acked v T → ∃ p l, σ.ledger T = some l ∧ p <+: l ∧ p.length = σ.acked v T ∧
    (σ.term v = T → p <+: σ.log v)

omit [DecidableEq S] [Fintype S] in
theorem stored_init {z : E} : Stored (State.init z : State S E) := by
  intro v T h
  have hT : T = 0 := by
    by_contra hT
    simp [State.init, hT] at h
  subst hT
  exact ⟨[z], [z], rfl, List.prefix_rfl, rfl, fun _ => List.prefix_rfl⟩

omit [DecidableEq S] [Fintype S] in
/-- Steps that leave logs and acknowledgements alone. -/
theorem Stored.of_eq (h : Stored σ) (hw : Wf τ σ) (hg : Grows σ σ') (hlog : σ'.log = σ.log)
    (hacked : σ'.acked = σ.acked) : Stored σ' := by
  intro v T hpos
  rw [hacked] at hpos ⊢
  obtain ⟨p, l, hl, hp, hlen, hstored⟩ := h v T hpos
  obtain ⟨l', hl', hll'⟩ := hg.ledger T l hl
  refine ⟨p, l', hl', hp.trans hll', hlen, fun hT => ?_⟩
  rw [hlog]
  exact hstored (le_antisymm ((hg.term v).trans hT.le) (hw.acked_le hpos))

omit [Fintype S] in
theorem Stored.append (h : Stored σ) {c : S} {e : E} (hg : Grows σ (σ.append c e))
    (hledger : σ.ledger (σ.term c) = some (σ.log c)) : Stored (σ.append c e) := by
  intro v T hpos
  by_cases hv : v = c ∧ T = σ.term c
  · obtain ⟨rfl, rfl⟩ := hv
    have hle : σ.acked v (σ.term v) ≤ (σ.log v).length := by
      rcases Nat.eq_zero_or_pos (σ.acked v (σ.term v)) with hzero | hpos'
      · omega
      · obtain ⟨p, l, hl, hp, hlen, -⟩ := h v _ hpos'
        rw [hledger] at hl
        obtain rfl := Option.some.inj hl
        have := hp.length_le
        omega
    refine ⟨σ.log v ++ [e], _, State.append_ledger_self σ v e, List.prefix_rfl, ?_, fun _ => ?_⟩
    · show _ = setAt σ.acked v (σ.term v) _ v (σ.term v)
      rw [setAt_self, List.length_append, List.length_singleton]
      omega
    · show _ <+: Function.update σ.log v _ v
      rw [Function.update_self]
  · have hacked : (σ.append c e).acked v T = σ.acked v T := setAt_of_ne _ _ hv
    rw [hacked] at hpos ⊢
    obtain ⟨p, l, hl, hp, hlen, hstored⟩ := h v T hpos
    obtain ⟨l', hl', hll'⟩ := hg.ledger T l hl
    refine ⟨p, l', hl', hp.trans hll', hlen, fun hT => ?_⟩
    rcases State.append_log σ c e v with ⟨rfl, -⟩ | ⟨-, hlog⟩
    · exact absurd ⟨rfl, hT.symm⟩ hv
    · rw [hlog]
      exact hstored hT

omit [Fintype S] in
theorem Stored.accept (h : Stored σ) (hw : Wf τ σ) {v : S} {U : ℕ} {l m : List E}
    (hl : σ.ledger U = some l) (hm : m <+: l) (hU : σ.term v ≤ U) : Stored (σ.accept v U m) := by
  intro u T hpos
  by_cases hu : u = v ∧ T = U
  · obtain ⟨rfl, rfl⟩ := hu
    have hself : (σ.accept u T m).acked u T = max (σ.acked u T) m.length := setAt_self _ _ _ _
    rw [hself] at hpos ⊢
    rcases Nat.lt_or_ge m.length (σ.acked u T) with hlt | hge
    · -- more is acknowledged already: the log has it, and `m` as well
      obtain ⟨p, l', hl', hp, hlen, hstored⟩ := h u T (by omega)
      rw [hl] at hl'
      obtain rfl := Option.some.inj hl'
      have hplog := hstored (le_antisymm hU (hw.acked_le (by omega)))
      have hmp : m <+: p := List.prefix_of_prefix_length_le hm hp (by omega)
      refine ⟨p, l, hl, hp, by omega, fun _ => ?_⟩
      rcases State.accept_log σ u T m u with ⟨-, hnot, -⟩ | ⟨-, hlog⟩
      · exact absurd (hmp.trans hplog) hnot
      · rw [hlog]
        exact hplog
    · refine ⟨m, l, hl, hm, by omega, fun _ => ?_⟩
      rcases State.accept_log σ u T m u with ⟨-, -, hlog⟩ | ⟨hsub, hlog⟩
      · rw [hlog]
      · rw [hlog]
        exact hsub rfl
  · have hacked : (σ.accept v U m).acked u T = σ.acked u T := setAt_of_ne _ _ hu
    rw [hacked] at hpos ⊢
    obtain ⟨p, l', hl', hp, hlen, hstored⟩ := h u T hpos
    refine ⟨p, l', hl', hp, hlen, fun hT => ?_⟩
    by_cases huv : u = v
    · subst huv
      rw [State.accept_term_self] at hT
      exact absurd ⟨rfl, hT.symm⟩ hu
    · have hterm : (σ.accept v U m).term u = σ.term u := Function.update_of_ne huv _ _
      have hlog : (σ.accept v U m).log u = σ.log u := Function.update_of_ne huv _ _
      rw [hlog]
      exact hstored (hterm.symm.trans hT)

/-- Every step keeps what is acknowledged in the logs. -/
theorem Stored.step (h : Stored σ) (hw : Wf τ σ) (hstep : Step τ σ σ') : Stored σ' := by
  have hg := hstep.grows
  cases hstep with
  | observe v t => exact h.of_eq hw hg rfl rfl
  | campaign c => exact h.of_eq hw hg rfl rfl
  | grant v c T b hb hT hvote hup => exact h.of_eq hw hg rfl rfl
  | elect c Q hQ hvotes hnone hb => exact h.of_eq hw hg rfl rfl
  | append c e hlead hledger he => exact h.append hg hledger
  | accept v T l m hl hbase hm hT => exact h.accept hw hl hm hT

omit [DecidableEq S] [Fintype S] in
/-- **Two logs agree on what one server has acknowledged to the other's ledger.** -/
theorem Stored.agree (h : Stored σ) (hw : Wf τ σ) {v : S} {l : List E} {i : ℕ}
    (hl : σ.ledger T = some l) (hterm : σ.term v ≤ T) (hi : i < σ.acked v T) :
    ∃ e, l[i]? = some e ∧ (σ.log v)[i]? = some e := by
  obtain ⟨p, l', hl', hp, hlen, hstored⟩ := h v T (by omega)
  rw [hl] at hl'
  obtain rfl := Option.some.inj hl'
  have hplog := hstored (le_antisymm hterm (hw.acked_le (by omega)))
  have hget : p[i]? = some (p.get ⟨i, by omega⟩) := by
    rw [List.getElem?_eq_getElem (by omega)]
    rfl
  exact ⟨_, getElem?_of_isPrefix hp hget, getElem?_of_isPrefix hplog hget⟩

end TermLog
