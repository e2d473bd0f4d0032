/-
# Renumbering events

`renumber` of `linearizability.go` as a renaming of identities: it does not depend on
what the identities are, only on where the same one occurs again.

* `renumber_first`: an identity that has not occurred before gets as its number how many
  identities have occurred;
* `renumber_relabel`: events that differ by a one-to-one renaming are renumbered alike;
* `two_mul_card_identities`: events that come in pairs have half as many identities, so
  the numbers fit in the bitset that `checkSingle` makes for the operations;
* `renumber_canonical`: all of this.
-/
import Mit6824.LinEvents

namespace Mit6824.Linearizability

variable {V : Type}

/-- The identities that occur in a list of events. -/
def identities (events : List (Event V)) : Finset ℕ :=
  (events.map Event.id).toFinset

theorem mem_identities {events : List (Event V)} {x : ℕ} :
    x ∈ identities events ↔ ∃ v ∈ events, v.id = x := by
  rw [identities, List.mem_toFinset, List.mem_map]

theorem identities_relabel (g : ℕ → ℕ) (events : List (Event V)) :
    identities (events.map (Event.relabel g)) = (identities events).image g := by
  ext x
  simp only [Finset.mem_image, mem_identities, List.mem_map]
  constructor
  · rintro ⟨_, ⟨v, hv, rfl⟩, rfl⟩
    exact ⟨v.id, ⟨v, hv, rfl⟩, rfl⟩
  · rintro ⟨_, ⟨v, hv, rfl⟩, rfl⟩
    exact ⟨_, ⟨v, hv, rfl⟩, rfl⟩

/-! ## How many numbers there are -/

/-- A renaming to `0`, …, `d - 1` says how many identities there are. -/
theorem card_of_image_eq_range {f : ℕ → ℕ} {d : ℕ} {S : Finset ℕ} (hf : Set.InjOn f S)
    (himage : S.image f = Finset.range d) : d = S.card := by
  rw [← Finset.card_image_of_injOn hf, himage, Finset.card_range]

/-- The table of numbers has as many entries as identities have occurred. -/
theorem Numbering.eq_card {m : ℕ → Option ℕ} {d : ℕ} {S : Finset ℕ} (h : Numbering m d S) :
    d = S.card := by
  have hget : ∀ x ∈ S, m x = some ((m x).getD 0) := by
    intro x hx
    obtain ⟨r, hr⟩ := (h.dom x).mp hx
    rw [hr]
    rfl
  apply card_of_image_eq_range (f := fun x => (m x).getD 0)
  · intro x hx y hy hxy
    have hyx : m y = some ((m x).getD 0) := (hget y hy).trans (congrArg some hxy.symm)
    exact h.inj x y _ (hget x hx) hyx
  · ext r
    rw [Finset.mem_image, Finset.mem_range]
    constructor
    · rintro ⟨x, hx, rfl⟩
      exact h.bound x _ (hget x hx)
    · intro hr
      obtain ⟨x, hx⟩ := h.onto r hr
      refine ⟨x, (h.dom x).mpr ⟨r, hx⟩, ?_⟩
      rw [hx]
      rfl

/-- `renumber` renames the identities one to one to the numbers below their number. -/
theorem renumber_eq_relabel (events : List (Event V)) :
    ∃ f : ℕ → ℕ, renumber events = events.map (Event.relabel f) ∧
      Set.InjOn f (identities events) ∧
      (identities events).image f = Finset.range (identities events).card := by
  obtain ⟨f, d, heq, hbound, hinj, honto⟩ := renumber_spec events
  have hinjOn : Set.InjOn f (identities events) := by
    intro x hx y hy hxy
    obtain ⟨v, hv, rfl⟩ := mem_identities.mp hx
    obtain ⟨w, hw, rfl⟩ := mem_identities.mp hy
    exact hinj v hv w hw hxy
  have himage : (identities events).image f = Finset.range d := by
    ext r
    rw [Finset.mem_image, Finset.mem_range]
    constructor
    · rintro ⟨x, hx, rfl⟩
      obtain ⟨v, hv, rfl⟩ := mem_identities.mp hx
      exact hbound v hv
    · intro hr
      obtain ⟨v, hv, rfl⟩ := honto r hr
      exact ⟨v.id, mem_identities.mpr ⟨v, hv, rfl⟩, rfl⟩
  refine ⟨f, heq, hinjOn, ?_⟩
  rw [himage, ← card_of_image_eq_range hinjOn himage]

/-! ## The order of first appearance -/

/-- An identity that occurs for the first time gets the next number. -/
theorem renumber_first {pre post : List (Event V)} {v : Event V} (hv : v.id ∉ identities pre) :
    (renumber (pre ++ v :: post))[pre.length]? = some ⟨v.kind, v.value, (identities pre).card⟩ := by
  obtain ⟨m, d, hnum, -, hrest⟩ := renumberFrom_spec pre numbering_empty
  have hseen : (∅ ∪ {x | ∃ w ∈ pre, w.id = x} : Set ℕ) = identities pre := by
    ext x
    rw [Set.empty_union, Set.mem_ofPred_eq, Finset.mem_coe, mem_identities]
  rw [hseen] at hnum
  have hnew : m v.id = none := by
    rw [Option.eq_none_iff_forall_not_mem]
    intro r hr
    exact hv ((hnum.dom v.id).mpr ⟨r, hr⟩)
  rw [renumber, hrest, List.getElem?_append_right (by rw [List.length_map]), List.length_map,
    Nat.sub_self, renumberFrom, hnew, ← hnum.eq_card]
  rfl

/-! ## Other identities -/

/-- Two runs of the loop whose tables agree on what is to come. -/
theorem renumberFrom_relabel {g : ℕ → ℕ} {events : List (Event V)}
    (hg : Set.InjOn g (identities events)) {m m' : ℕ → Option ℕ}
    (hm : ∀ x ∈ identities events, m' (g x) = m x) (id : ℕ) :
    renumberFrom m' id (events.map (Event.relabel g)) = renumberFrom m id events := by
  induction events generalizing m m' id with
  | nil => rfl
  | cons v events ih =>
      have hv : v.id ∈ identities (v :: events) := mem_identities.mpr ⟨v, List.mem_cons_self, rfl⟩
      have hsub : ∀ x ∈ identities events, x ∈ identities (v :: events) := by
        intro x hx
        obtain ⟨w, hw, rfl⟩ := mem_identities.mp hx
        exact mem_identities.mpr ⟨w, List.mem_cons_of_mem v hw, rfl⟩
      have hg' : Set.InjOn g (identities events) := fun x hx y hy => hg (hsub x hx) (hsub y hy)
      have hkey : m' (Event.relabel g v).id = m v.id := hm v.id hv
      rw [List.map_cons, renumberFrom, renumberFrom, hkey]
      cases m v.id with
      | some r => exact congrArg _ (ih hg' (fun x hx => hm x (hsub x hx)) id)
      | none =>
          refine congrArg _ (ih hg' ?_ (id + 1))
          intro x hx
          by_cases hxv : x = v.id
          · rw [hxv, Function.update_self]
            exact Function.update_self ..
          · have hgx : g x ≠ g v.id := fun heq => hxv (hg (hsub x hx) hv heq)
            rw [Function.update_of_ne hxv, ← hm x (hsub x hx)]
            exact Function.update_of_ne hgx ..

/-- Events that differ by a one-to-one renaming are renumbered alike. -/
theorem renumber_relabel {g : ℕ → ℕ} {events : List (Event V)}
    (hg : Set.InjOn g (identities events)) :
    renumber (events.map (Event.relabel g)) = renumber events :=
  renumberFrom_relabel hg (fun _ _ => rfl) 0

/-! ## Pairs of events -/

/-- Every operation has two events. -/
theorem two_mul_card_identities {events : List (Event V)}
    (hpairs : ∀ v ∈ events, (events.map Event.id).count v.id = 2) :
    2 * (identities events).card = events.length := by
  have hcount : ∀ x ∈ identities events, (events.map Event.id).count x = 2 := by
    intro x hx
    obtain ⟨v, hv, rfl⟩ := mem_identities.mp hx
    exact hpairs v hv
  calc
    2 * (identities events).card = (identities events).card * 2 := Nat.mul_comm _ _
    _ = ∑ x ∈ identities events, (events.map Event.id).count x :=
      (Finset.sum_const_nat hcount).symm
    _ = events.length := by
      rw [identities, List.sum_toFinset_count_eq_length, List.length_map]

/-- **`renumber` is a canonical renaming.**  It keeps the order, the kinds and the values of the
events; two events get the same number just when they had the same identity; the numbers are
those below the number of identities, in the order in which these appear first.  So renumbering
again changes nothing, and neither does a one-to-one renaming before.  When every identity
occurs twice, the numbers are below half the number of events and the bitset of `checkSingle`
has a place for each. -/
theorem renumber_canonical (events : List (Event V)) :
    (renumber events).map Event.kind = events.map Event.kind ∧
    (renumber events).map Event.value = events.map Event.value ∧
    (∀ (i j : ℕ) (v w v' w' : Event V), events[i]? = some v → events[j]? = some w →
      (renumber events)[i]? = some v' → (renumber events)[j]? = some w' →
      (v'.id = w'.id ↔ v.id = w.id)) ∧
    identities (renumber events) = Finset.range (identities events).card ∧
    (∀ pre v post, events = pre ++ v :: post → v.id ∉ identities pre →
      (renumber events)[pre.length]?.map Event.id = some (identities pre).card) ∧
    renumber (renumber events) = renumber events ∧
    (∀ g, Set.InjOn g (identities events) →
      renumber (events.map (Event.relabel g)) = renumber events) ∧
    ((∀ v ∈ events, (events.map Event.id).count v.id = 2) → ∀ v ∈ renumber events,
      v.id < events.length / 2 ∧ ∃ b, (newBitset (events.length / 2)).set v.id = some b) := by
  obtain ⟨f, heq, hinj, himage⟩ := renumber_eq_relabel events
  have hids : identities (renumber events) = Finset.range (identities events).card := by
    rw [heq, identities_relabel, himage]
  refine ⟨?_, ?_, ?_, hids, ?_, ?_, fun g => renumber_relabel, ?_⟩
  · rw [heq, List.map_map]
    rfl
  · rw [heq, List.map_map]
    rfl
  · intro i j v w v' w' hv hw hv' hw'
    rw [heq, List.getElem?_map, hv] at hv'
    rw [heq, List.getElem?_map, hw] at hw'
    cases hv'
    cases hw'
    apply hinj.eq_iff
    · exact mem_identities.mpr ⟨v, List.mem_of_getElem? hv, rfl⟩
    · exact mem_identities.mpr ⟨w, List.mem_of_getElem? hw, rfl⟩
  · rintro pre v post rfl hv
    rw [renumber_first hv]
    rfl
  · rw [heq]
    exact (renumber_relabel hinj).trans heq
  · intro hpairs v hv
    have hlt : v.id < (identities events).card := by
      rw [← Finset.mem_range, ← hids]
      exact mem_identities.mpr ⟨v, hv, rfl⟩
    have htwo := two_mul_card_identities hpairs
    have hhalf : v.id < events.length / 2 := by omega
    obtain ⟨b, hb, -⟩ := (Bitset.represents_newBitset (events.length / 2)).set hhalf
    exact ⟨hhalf, b, hb⟩

-- events with sparse identities
example : (renumber [⟨.callEvent, (), 7⟩, ⟨.callEvent, (), 3⟩, ⟨.returnEvent, (), 7⟩,
    ⟨.returnEvent, (), 3⟩]).map Event.id = [0, 1, 0, 1] := by decide

end Mit6824.Linearizability
