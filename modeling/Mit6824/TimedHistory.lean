/-
# Histories noted down with times

An observer of an object does not see the order of all calls and returns: for every
operation it notes a time before the call and a time after the return.

* `Span` is such a note, and `Noted` says that a list of notes is about all of a
  history, with times that are sharp enough to tell what has returned before what is
  called;
* `IsLinearization.orderable` turns a linearization of the history into an order of
  the notes;
* `Orderable.map` carries an order over to other names for the inputs and the outputs.
-/
import Mit6824.Locality

namespace ObjectHistory

/-! ## From a history to its notes -/

section Notes

variable {I σ ι ο T : Type*}

/-- An operation with times that enclose it. -/
structure Span (I ι ο T : Type*) where
  id : I
  input : ι
  output : ο
  call : T
  ret : T

/-- The operation without the times. -/
def Span.operation (a : Span I ι ο T) : Operation I ι ο :=
  ⟨a.id, a.input, a.output⟩

/-- The call and the answer. -/
def Span.io (a : Span I ι ο T) : ι × ο :=
  (a.input, a.output)

/-- The notes are about all operations of the history, one about each, and what returned
before a call by the times did so in the history. -/
structure Noted [LE T] (h : List (Event I ι ο)) (spans : List (Span I ι ο T)) : Prop where
  nodup : (spans.map Span.id).Nodup
  call_mem : ∀ a ∈ spans, .call a.id a.input ∈ h
  ret_mem : ∀ a ∈ spans, .ret a.id a.output ∈ h
  complete : ∀ {id x}, .call id x ∈ h → id ∈ spans.map Span.id
  precedes : ∀ a ∈ spans, ∀ b ∈ spans, a.ret ≤ b.call → Precedes h a.id b.id

variable {S : SeqSpec σ ι ο} {h : List (Event I ι ο)} {order : List (Operation I ι ο)}

/-- One operation of a linearization has a given identity. -/
theorem IsLinearization.eq_of_id (hlin : IsLinearization S h order) {op op' : Operation I ι ο}
    (hop : op ∈ order) (hop' : op' ∈ order) (hid : op.id = op'.id) : op = op' :=
  List.inj_on_of_nodup_map hlin.nodup hop hop' hid

variable [LE T] {spans : List (Span I ι ο T)}

/-- A linearization of the history has the operations that the notes are about. -/
theorem IsLinearization.perm_operations (hlin : IsLinearization S h order)
    (hnoted : Noted h spans)
    (hcall : ∀ {id x x'}, .call id x ∈ h → .call id x' ∈ h → x = x') :
    order.Perm (spans.map Span.operation) := by
  have hnd : order.Nodup := hlin.nodup.of_map
  have hids : ((spans.map Span.operation).map Operation.id).Nodup := by
    rw [List.map_map]
    exact hnoted.nodup
  rw [List.perm_ext_iff_of_nodup hnd hids.of_map]
  -- the answer of an operation of the order is the one that was noted
  have hsame : ∀ op ∈ order, ∀ a ∈ spans, a.id = op.id → op = a.operation := by
    intro op hop a ha hid
    obtain ⟨op', hop', hid', hout⟩ := hlin.returned (hnoted.ret_mem a ha)
    obtain rfl := hlin.eq_of_id hop' hop (hid'.trans hid)
    have hin : op'.input = a.input := by
      refine hcall (hlin.called op' hop) ?_
      rw [hid']
      exact hnoted.call_mem a ha
    obtain ⟨id, input, output⟩ := op'
    simp only at hid' hin hout
    rw [hid', hin, hout]
    rfl
  intro op
  constructor
  · intro hop
    obtain ⟨a, ha, hid⟩ := List.mem_map.mp (hnoted.complete (hlin.called op hop))
    exact List.mem_map.mpr ⟨a, ha, (hsame op hop a ha hid).symm⟩
  · intro hop
    obtain ⟨a, ha, rfl⟩ := List.mem_map.mp hop
    obtain ⟨op, hop, hid, -⟩ := hlin.returned (hnoted.ret_mem a ha)
    rw [← hsame op hop a ha hid.symm]
    exact hop

/-- **The notes of a linearizable history can be ordered.** -/
theorem IsLinearization.orderable (hlin : IsLinearization S h order) (hnoted : Noted h spans)
    (hcall : ∀ {id x x'}, .call id x ∈ h → .call id x' ∈ h → x = x') :
    Orderable S Span.io (fun a b => a.ret ≤ b.call) spans S.init := by
  obtain ⟨l, hperm, rfl⟩ := exists_perm_of_perm_map (hlin.perm_operations hnoted hcall)
  refine ⟨l, hperm, ?_, ?_⟩
  · have htime := hlin.realTime
    rw [List.pairwise_map] at htime
    refine htime.imp_of_mem ?_
    intro a b ha hb hno hle
    exact hno (hnoted.precedes b (hperm.mem_iff.mp hb) a (hperm.mem_iff.mp ha) hle)
  · have hlegal := hlin.legal
    rw [List.map_map] at hlegal
    exact hlegal

end Notes

/-! ## Orders in other terms -/

section Change

variable {α β σ ι ο ι' ο' : Type*} {S : SeqSpec σ ι ο} {S' : SeqSpec σ ι' ο'} {io : α → ι × ο}
  {prec : α → α → Prop} {ops : List α} {s : σ}

/-- An accepted sequence is accepted under other names. -/
theorem run_map {f : ι → ι'} {g : ο → ο'} {s' : σ}
    (hstep : ∀ {s x y s'}, S.step s x y = some s' → S'.step s (f x) (g y) = some s')
    {l : List (ι × ο)} (h : S.run s l = some s') : S'.run s (l.map (Prod.map f g)) = some s' := by
  induction l generalizing s with
  | nil => exact h
  | cons xy l ih =>
      obtain ⟨x, y⟩ := xy
      rw [SeqSpec.run_cons] at h
      obtain ⟨t, ht, hrest⟩ := Option.bind_eq_some_iff.mp h
      rw [List.map_cons, Prod.map_apply, SeqSpec.run_cons, hstep ht]
      exact ih hrest

/-- An order under other names, with no more pairs to keep. -/
theorem Orderable.map (h : Orderable S io prec ops s) {f : ι → ι'} {g : ο → ο'}
    (hstep : ∀ {s x y s'}, S.step s x y = some s' → S'.step s (f x) (g y) = some s')
    {rename : α → β} {io' : β → ι' × ο'} {prec' : β → β → Prop}
    (hio : ∀ a, io' (rename a) = Prod.map f g (io a))
    (hprec : ∀ a b, prec' (rename a) (rename b) → prec a b) :
    Orderable S' io' prec' (ops.map rename) s := by
  obtain ⟨order, hperm, htime, hlegal⟩ := h
  refine ⟨order.map rename, hperm.map rename, ?_, ?_⟩
  · rw [List.pairwise_map]
    exact htime.imp fun hno hprec' => hno (hprec _ _ hprec')
  · obtain ⟨s', hs'⟩ := Option.isSome_iff_exists.mp hlegal
    have hrun := run_map hstep hs'
    have hmap : (order.map rename).map io' = (order.map io).map (Prod.map f g) := by
      rw [List.map_map, List.map_map]
      exact List.map_congr_left fun a _ => hio a
    rw [hmap, hrun]
    rfl

end Change

end ObjectHistory
