/-
# Who can reach whom in a test

`connect`, `disconnect`, `crash1` and `start1` switch the ends of the servers on and off, one
`Enable` after the other, and `start1` gives a server new ends "so that old crashed instance's
ClientEnds can't send".  The names of the ends are random; a name that has been used before ends
the program, so that no assumption on them is needed.

* `Config.Linked`: the ends of the servers, and which of them are enabled, when no function of
  the tester is running; `partition_enforced`: a request gets through exactly between servers
  that are connected;
* `Config.Only`: whose an end can still be, also of no server any more; `superseded_isolated`:
  an instance that has been replaced is never heard again.
-/
import Mit6824.RaftConfig

namespace Mit6824.RaftTest

open Labrpc Straightline

variable {n : ℕ} {E V : Type}

/-! ## Ends and connections -/

/-- End `j` of server `i` is called `e`. -/
def Config.Named (cfg : Config n E) (i j : Fin n) (e : E) : Prop :=
  ∃ names, cfg.endnames i = some names ∧ names j = e

instance Config.decidableNamed [DecidableEq E] (cfg : Config n E) (i j : Fin n) (e : E) :
    Decidable (cfg.Named i j e) :=
  decidable_of_iff ((cfg.endnames i).map (fun names => names j) = some e) Option.map_eq_some_iff

/-- The ends of the servers exist, have different names, and lead to their servers. -/
structure Config.Wired (cfg : Config n E) : Prop where
  made : ∀ {i j e}, cfg.Named i j e → cfg.net.ends e = true
  distinct : ∀ {i j i' j' e}, cfg.Named i j e → cfg.Named i' j' e → i = i' ∧ j = j'
  link : ∀ {i j e}, cfg.Named i j e → cfg.net.connections e = some j

/-- What holds of the ends when no function of the tester is running: those between servers that
are connected are enabled, and no others. -/
structure Config.Linked (cfg : Config n E) : Prop extends cfg.Wired where
  enabled : ∀ e, cfg.net.enabled e = true ↔
    ∃ i j, cfg.Named i j e ∧ cfg.connected i = true ∧ cfg.connected j = true

/-- The configurations agree on the ends of the servers and on who is connected; the ends that are
enabled may differ. -/
structure Config.SameEnds (cfg cfg' : Config n E) : Prop where
  endnames : cfg'.endnames = cfg.endnames
  connected : cfg'.connected = cfg.connected
  ends : cfg'.net.ends = cfg.net.ends
  connections : cfg'.net.connections = cfg.net.connections

namespace Config

variable {cfg cfg' cfg'' : Config n E}

theorem named_iff {i j : Fin n} {names : Fin n → E} (hnames : cfg.endnames i = some names) {e : E} :
    cfg.Named i j e ↔ names j = e := by
  constructor
  · rintro ⟨names', hnames', he⟩
    rw [hnames] at hnames'
    rwa [Option.some.inj hnames']
  · exact fun he => ⟨names, hnames, he⟩

theorem not_named {i j : Fin n} (hnames : cfg.endnames i = none) {e : E} : ¬ cfg.Named i j e := by
  rintro ⟨names, hnames', -⟩
  rw [hnames] at hnames'
  cases hnames'

theorem SameEnds.refl (cfg : Config n E) : cfg.SameEnds cfg :=
  ⟨rfl, rfl, rfl, rfl⟩

theorem SameEnds.trans (h : cfg.SameEnds cfg') (h' : cfg'.SameEnds cfg'') : cfg.SameEnds cfg'' :=
  ⟨h'.endnames.trans h.endnames, h'.connected.trans h.connected, h'.ends.trans h.ends,
    h'.connections.trans h.connections⟩

theorem SameEnds.named (h : cfg.SameEnds cfg') {i j : Fin n} {e : E} :
    cfg'.Named i j e ↔ cfg.Named i j e := by
  rw [Named, Named, h.endnames]

/-- The wires are those of the names, the ends and the connections. -/
theorem Wired.congr (h : cfg.Wired) (hendnames : cfg'.endnames = cfg.endnames)
    (hends : cfg'.net.ends = cfg.net.ends)
    (hconnections : cfg'.net.connections = cfg.net.connections) : cfg'.Wired := by
  have hnamed : ∀ {i j e}, cfg'.Named i j e → cfg.Named i j e := by
    intro i j e he
    rwa [Named, hendnames] at he
  refine ⟨fun he => ?_, fun he he' => h.distinct (hnamed he) (hnamed he'), fun he => ?_⟩
  · rw [hends]
    exact h.made (hnamed he)
  · rw [hconnections]
    exact h.link (hnamed he)

theorem Linked.congr (h : cfg.Linked) (hsame : cfg.SameEnds cfg')
    (henabled : cfg'.net.enabled = cfg.net.enabled) : cfg'.Linked where
  toWired := h.toWired.congr hsame.endnames hsame.ends hsame.connections
  enabled e := by
    rw [henabled, h.enabled]
    simp only [hsame.named, hsame.connected]

end Config

section Loops

variable [DecidableEq E] {pre : Config n E → Op n E → Prop} {cfg cfg' : Config n E}

/-- A step that enables an end. -/
def Op.attaches : Op n E → Bool
  | .attach _ _ _ => true
  | _ => false

/-- A condition on the steps that only forbids to enable an end, and not as long as the ends have
the names that they have now. -/
def Lenient (pre : Config n E → Op n E → Prop) (cfg : Config n E) : Prop :=
  ∀ c o, (c.endnames = cfg.endnames ∨ o.attaches = false) → pre c o

omit [DecidableEq E] in
theorem Lenient.congr (h : Lenient pre cfg) (hendnames : cfg'.endnames = cfg.endnames) :
    Lenient pre cfg' := by
  intro c o hc
  rw [hendnames] at hc
  exact h c o hc

theorem enable_eq_true {rn : Network E (Fin n)} {e e' : E} {yes : Bool} :
    (rn.enable e yes).enabled e' = true ↔
      (e = e' ∧ yes = true) ∨ (e ≠ e' ∧ rn.enabled e' = true) := by
  rcases eq_or_ne e e' with rfl | hne
  · simp [Network.enable]
  · simp [Network.enable, hne, hne.symm]

/-- The ends that a loop of `connect` has enabled, towards servers that are connected. -/
def Attached (cfg : Config n E) (a b : Fin n → Fin n) (done : List (Fin n)) (c : Config n E) :
    Prop :=
  cfg.SameEnds c ∧ ∀ e, c.net.enabled e = true ↔
    cfg.net.enabled e = true ∨ ∃ j ∈ done, cfg.connected j = true ∧ cfg.Named (a j) (b j) e

theorem safely_attach (a b : Fin n → Fin n) (hpre : Lenient pre cfg) :
    Safely Config.exec pre (Attached cfg a b (List.finRange n)) cfg
      ((List.finRange n).map fun j => .attach j (a j) (b j)) := by
  refine safely_map (I := Attached cfg a b) (List.finRange n) ?_ ⟨.refl cfg, by simp⟩
  rintro done j c ⟨hsame, henabled⟩
  refine ⟨hpre c _ (.inl hsame.endnames), fun c' hexec => ?_⟩
  cases exec_of_some hexec with
  | attached _ _ _ names hpeer hnames =>
      refine ⟨⟨hsame.endnames, hsame.connected, hsame.ends, hsame.connections⟩, fun e => ?_⟩
      rw [hsame.connected] at hpeer
      rw [hsame.endnames] at hnames
      dsimp only
      rw [enable_eq_true, henabled]
      simp only [List.mem_append, List.mem_singleton, or_and_right, exists_or, exists_eq_left,
        Config.named_iff hnames, hpeer, true_and, and_true]
      by_cases he : names (b j) = e
      · simp only [he, true_or, or_true]
      · simp only [he, ne_eq, not_false_eq_true, true_and, false_or, or_false]
  | notAttached _ _ _ hpeer =>
      refine ⟨hsame, fun e => ?_⟩
      rw [hsame.connected] at hpeer
      rw [henabled]
      simp only [List.mem_append, List.mem_singleton, or_and_right, exists_or, exists_eq_left,
        hpeer, Bool.false_eq_true, false_and, or_false]

/-- The ends that a loop of `disconnect` has disabled. -/
def Detached (cfg : Config n E) (a b : Fin n → Fin n) (done : List (Fin n)) (c : Config n E) :
    Prop :=
  cfg.SameEnds c ∧ ∀ e, c.net.enabled e = true ↔
    cfg.net.enabled e = true ∧ ∀ j ∈ done, ¬ cfg.Named (a j) (b j) e

theorem safely_detach (a b : Fin n → Fin n) (hpre : Lenient pre cfg) :
    Safely Config.exec pre (Detached cfg a b (List.finRange n)) cfg
      ((List.finRange n).map fun j => .detach (a j) (b j)) := by
  refine safely_map (I := Detached cfg a b) (List.finRange n) ?_ ⟨.refl cfg, by simp⟩
  rintro done j c ⟨hsame, henabled⟩
  refine ⟨hpre c _ (.inr rfl), fun c' hexec => ?_⟩
  cases exec_of_some hexec with
  | detached _ _ names hnames =>
      refine ⟨⟨hsame.endnames, hsame.connected, hsame.ends, hsame.connections⟩, fun e => ?_⟩
      rw [hsame.endnames] at hnames
      dsimp only
      rw [enable_eq_true, henabled]
      simp only [List.mem_append, List.mem_singleton, or_imp, forall_and, forall_eq,
        Config.named_iff hnames, Bool.false_eq_true, and_false, false_or, ne_eq]
      tauto
  | notDetached _ _ hnames =>
      refine ⟨hsame, fun e => ?_⟩
      rw [hsame.endnames] at hnames
      rw [henabled]
      simp only [List.mem_append, List.mem_singleton, or_imp, forall_and, forall_eq,
        Config.not_named hnames, not_false_eq_true, and_true]

end Loops

/-! ## The functions of the tester -/

section Functions

variable [DecidableEq E] {pre : Config n E → Op n E → Prop} {cfg cfg' : Config n E}

/-- The steps that do not touch the ends. -/
def Op.offEnds : Op n E → Bool
  | .setConnected _ _ | .attach _ _ _ | .detach _ _ | .setEndnames _ _ | .makeEnd _ _
  | .connectEnd _ _ => false
  | _ => true

omit [DecidableEq E] in
theorem attaches_of_offEnds {o : Op n E} (ho : o.offEnds = true) : o.attaches = false := by
  cases o with
  | attach => cases ho
  | _ => rfl

theorem sameEnds_of_exec {o : Op n E} (ho : o.offEnds = true) (hexec : cfg.exec o = some cfg') :
    cfg.SameEnds cfg' ∧ cfg'.net.enabled = cfg.net.enabled := by
  cases exec_of_some hexec with
  | setConnected | attached | notAttached | detached | notDetached | setEndnames | makeEnd
  | connectEnd => cases ho
  | _ => exact ⟨⟨rfl, rfl, rfl, rfl⟩, rfl⟩

/-- Steps that do not touch the ends keep what is said about them. -/
theorem safely_offEnds {l : List (Op n E)} (hpre : Lenient pre cfg)
    (hl : ∀ o ∈ l, o.offEnds = true) {I : Config n E → Prop}
    (hI : ∀ c c', I c → c.SameEnds c' → c'.net.enabled = c.net.enabled → I c') (hcfg : I cfg) :
    Safely Config.exec pre I cfg l := by
  refine safely_of_forall hcfg fun o ho c hc =>
    ⟨hpre c o (.inr (attaches_of_offEnds (hl o ho))), fun c' hexec => ?_⟩
  obtain ⟨hsame, henabled⟩ := sameEnds_of_exec (hl o ho) hexec
  exact hI c c' hc hsame henabled

omit [DecidableEq E] in
/-- The ends between connected servers, when server `i` joins them. -/
theorem Config.Linked.joined (h : cfg.Linked) (i : Fin n) (e : E) :
    (∃ i' j, cfg.Named i' j e ∧ Function.update cfg.connected i true i' = true ∧
        Function.update cfg.connected i true j = true) ↔
      (cfg.net.enabled e = true ∨
        ∃ j, Function.update cfg.connected i true j = true ∧ cfg.Named i j e) ∨
        ∃ j, Function.update cfg.connected i true j = true ∧ cfg.Named j i e := by
  have hjoin : ∀ {j}, cfg.connected j = true → Function.update cfg.connected i true j = true := by
    intro j hj
    rcases eq_or_ne j i with rfl | hne
    · exact Function.update_self ..
    · rwa [Function.update_of_ne hne]
  constructor
  · rintro ⟨i', j, hnamed, hi', hj⟩
    rcases eq_or_ne i' i with rfl | hi
    · exact .inl (.inr ⟨j, hj, hnamed⟩)
    · rcases eq_or_ne j i with rfl | hne
      · exact .inr ⟨i', hi', hnamed⟩
      · rw [Function.update_of_ne hi] at hi'
        rw [Function.update_of_ne hne] at hj
        exact .inl (.inl ((h.enabled e).mpr ⟨i', j, hnamed, hi', hj⟩))
  · rintro ((henabled | ⟨j, hj, hnamed⟩) | ⟨j, hj, hnamed⟩)
    · obtain ⟨i', j, hnamed, hi', hj⟩ := (h.enabled e).mp henabled
      exact ⟨i', j, hnamed, hjoin hi', hjoin hj⟩
    · exact ⟨i, j, hnamed, Function.update_self .., hj⟩
    · exact ⟨j, i, hnamed, hj, Function.update_self ..⟩

omit [DecidableEq E] in
/-- The ends between connected servers, when server `i` leaves them. -/
theorem Config.Linked.left (h : cfg.Linked) (i : Fin n) (e : E) :
    (∃ i' j, cfg.Named i' j e ∧ Function.update cfg.connected i false i' = true ∧
        Function.update cfg.connected i false j = true) ↔
      (cfg.net.enabled e = true ∧ ∀ j, ¬ cfg.Named i j e) ∧ ∀ j, ¬ cfg.Named j i e := by
  have hleft : ∀ {j}, Function.update cfg.connected i false j = true →
      j ≠ i ∧ cfg.connected j = true := by
    intro j hj
    rcases eq_or_ne j i with rfl | hne
    · rw [Function.update_self] at hj
      cases hj
    · rw [Function.update_of_ne hne] at hj
      exact ⟨hne, hj⟩
  constructor
  · rintro ⟨i', j, hnamed, hi', hj⟩
    obtain ⟨hi, hi'⟩ := hleft hi'
    obtain ⟨hne, hj⟩ := hleft hj
    refine ⟨⟨(h.enabled e).mpr ⟨i', j, hnamed, hi', hj⟩, fun j' h' => ?_⟩, fun j' h' => ?_⟩
    · exact hi (h.distinct hnamed h').1
    · exact hne (h.distinct hnamed h').2
  · rintro ⟨⟨henabled, hout⟩, hin⟩
    obtain ⟨i', j, hnamed, hi', hj⟩ := (h.enabled e).mp henabled
    have hi : i' ≠ i := by
      rintro rfl
      exact hout j hnamed
    have hne : j ≠ i := by
      rintro rfl
      exact hin i' hnamed
    exact ⟨i', j, hnamed, by rwa [Function.update_of_ne hi], by rwa [Function.update_of_ne hne]⟩

/-- After `connect` the ends from and to server `i` are enabled, towards connected servers. -/
theorem safely_connect (h : cfg.Linked) (hpre : Lenient pre cfg) (i : Fin n) :
    Safely Config.exec pre (fun c => c.Linked ∧ c.endnames = cfg.endnames ∧
      c.net.ends = cfg.net.ends) cfg (connect i) := by
  refine ⟨hpre cfg _ (.inr rfl), fun c₁ h₁ => ?_⟩
  obtain rfl := Option.some.inj h₁
  rw [safely_append]
  have hpre₁ : Lenient pre { cfg with connected := Function.update cfg.connected i true } := hpre
  refine (safely_attach (fun _ => i) id hpre₁).mono fun c₂ h₂ => ?_
  refine (safely_attach id (fun _ => i) (hpre.congr h₂.1.endnames)).mono fun c₃ h₃ => ?_
  have hsame := h₂.1.trans h₃.1
  refine ⟨⟨h.toWired.congr hsame.endnames hsame.ends hsame.connections, fun e => ?_⟩,
    hsame.endnames, hsame.ends⟩
  rw [h₃.2 e, h₂.2 e]
  simp only [List.mem_finRange, true_and, h₂.1.named, h₂.1.connected, hsame.named, hsame.connected]
  exact (h.joined i e).symm

/-- After `disconnect` the ends from and to server `i` are disabled. -/
theorem safely_disconnect (h : cfg.Linked) (hpre : Lenient pre cfg) (i : Fin n) :
    Safely Config.exec pre (fun c => (c.Linked ∧ c.endnames = cfg.endnames ∧
      c.net.ends = cfg.net.ends) ∧ c.connected i = false) cfg (disconnect i) := by
  refine ⟨hpre cfg _ (.inr rfl), fun c₁ h₁ => ?_⟩
  obtain rfl := Option.some.inj h₁
  rw [safely_append]
  have hpre₁ : Lenient pre { cfg with connected := Function.update cfg.connected i false } := hpre
  refine (safely_detach (fun _ => i) id hpre₁).mono fun c₂ h₂ => ?_
  refine (safely_detach id (fun _ => i) (hpre.congr h₂.1.endnames)).mono fun c₃ h₃ => ?_
  have hsame := h₂.1.trans h₃.1
  refine ⟨⟨⟨h.toWired.congr hsame.endnames hsame.ends hsame.connections, fun e => ?_⟩,
    hsame.endnames, hsame.ends⟩, ?_⟩
  · rw [h₃.2 e, h₂.2 e]
    simp only [List.mem_finRange, forall_const, h₂.1.named, hsame.named, hsame.connected]
    exact (h.left i e).symm
  · rw [hsame.connected]
    exact Function.update_self ..

/-- `crash1` disconnects the server. -/
theorem safely_crash1_linked (h : cfg.Linked) (hpre : Lenient pre cfg) (i : Fin n) :
    Safely Config.exec pre (fun c => (c.Linked ∧ c.endnames = cfg.endnames ∧
      c.net.ends = cfg.net.ends) ∧ c.connected i = false) cfg (crash1 i) := by
  rw [crash1, safely_append]
  refine (safely_disconnect h hpre i).mono fun c hc => ?_
  refine safely_offEnds (hpre.congr hc.1.2.1) ?_ ?_ hc
  · intro o ho
    simp only [List.mem_cons, List.not_mem_nil, or_false] at ho
    obtain rfl | rfl | rfl | rfl := ho <;> rfl
  · rintro c c' ⟨⟨hlinked, hendnames, hends⟩, hi⟩ hsame henabled
    exact ⟨⟨hlinked.congr hsame henabled, hsame.endnames.trans hendnames, hsame.ends.trans hends⟩,
      by rw [hsame.connected, hi]⟩

/-! ## New ends -/

/-- The ends that the loop of `start1` has made for server `i`. -/
structure NewEnds (cfg : Config n E) (i : Fin n) (names : Fin n → E) (done : List (Fin n))
    (c : Config n E) : Prop where
  endnames : c.endnames = Function.update cfg.endnames i (some names)
  connected : c.connected = cfg.connected
  fresh : ∀ j ∈ done, cfg.net.ends (names j) = false
  made : ∀ j ∈ done, c.net.ends (names j) = true ∧ c.net.connections (names j) = some j
  distinct : ∀ j ∈ done, ∀ j' ∈ done, names j = names j' → j = j'
  old : ∀ e, cfg.net.ends e = true →
    c.net.ends e = true ∧ c.net.connections e = cfg.net.connections e
  enabled : ∀ e, c.net.enabled e = true ↔ cfg.net.enabled e = true

omit [DecidableEq E] in
/-- An end that is enabled exists. -/
theorem Config.Linked.ends_of_enabled (h : cfg.Linked) {e : E} (he : cfg.net.enabled e = true) :
    cfg.net.ends e = true := by
  obtain ⟨i, j, hnamed, -⟩ := (h.enabled e).mp he
  exact h.made hnamed

/-- One round of the loop: a name that exists already would end the program. -/
theorem safely_newEnd (h : cfg.Linked) (hpre : Lenient pre cfg) {i : Fin n} {names : Fin n → E}
    {done : List (Fin n)} {c : Config n E} (hc : NewEnds cfg i names done c) (j : Fin n) :
    Safely Config.exec pre (NewEnds cfg i names (done ++ [j])) c
      [.makeEnd i j, .connectEnd i j] := by
  refine ⟨hpre c _ (.inr rfl), fun c₁ h₁ => ⟨hpre c₁ _ (.inr rfl), fun c₂ h₂ => ?_⟩⟩
  have hnames : c.endnames i = some names := by
    rw [hc.endnames, Function.update_self]
  cases exec_of_some h₁ with
  | makeEnd _ _ names₁ hnames₁ hnew =>
  obtain rfl : names₁ = names := Option.some.inj (hnames₁.symm.trans hnames)
  cases exec_of_some h₂ with
  | connectEnd _ _ names₂ hnames₂ =>
  obtain rfl : names₂ = names₁ := Option.some.inj (hnames₂.symm.trans hnames)
  have hfresh : cfg.net.ends (names₂ j) = false := by
    by_contra hends
    rw [(hc.old _ (Bool.not_eq_false _ ▸ hends)).1] at hnew
    cases hnew
  have hne : ∀ j' ∈ done, names₂ j' ≠ names₂ j := by
    intro j' hj' heq
    rw [← heq, (hc.made j' hj').1] at hnew
    cases hnew
  have hold : ∀ e, cfg.net.ends e = true → names₂ j ≠ e := by
    rintro e he rfl
    rw [hfresh] at he
    cases he
  refine ⟨hc.endnames, hc.connected, ?_, ?_, ?_, ?_, ?_⟩
  · intro j' hj'
    rcases List.mem_append.mp hj' with hdone | hlast
    · exact hc.fresh j' hdone
    · rw [List.mem_singleton.mp hlast]
      exact hfresh
  · intro j' hj'
    dsimp only [Network.connect]
    rcases List.mem_append.mp hj' with hdone | hlast
    · rw [Function.update_of_ne (hne j' hdone), Function.update_of_ne (hne j' hdone),
        Function.update_of_ne (hne j' hdone)]
      exact hc.made j' hdone
    · rw [List.mem_singleton.mp hlast, Function.update_self, Function.update_self]
      exact ⟨rfl, rfl⟩
  · intro j₁ hj₁ j₂ hj₂ heq
    rcases List.mem_append.mp hj₁ with hdone₁ | hlast₁
    · rcases List.mem_append.mp hj₂ with hdone₂ | hlast₂
      · exact hc.distinct j₁ hdone₁ j₂ hdone₂ heq
      · rw [List.mem_singleton.mp hlast₂] at heq
        exact absurd heq (hne j₁ hdone₁)
    · rw [List.mem_singleton.mp hlast₁] at heq ⊢
      rcases List.mem_append.mp hj₂ with hdone₂ | hlast₂
      · exact absurd heq.symm (hne j₂ hdone₂)
      · exact (List.mem_singleton.mp hlast₂).symm
  · intro e he
    dsimp only [Network.connect]
    rw [Function.update_of_ne (hold e he).symm, Function.update_of_ne (hold e he).symm,
      Function.update_of_ne (hold e he).symm]
    exact hc.old e he
  · intro e
    dsimp only [Network.connect]
    rcases eq_or_ne e (names₂ j) with rfl | hne'
    · rw [Function.update_self]
      refine ⟨nofun, fun he => ?_⟩
      exact absurd rfl (hold _ (h.ends_of_enabled he))
    · rw [Function.update_of_ne hne']
      exact hc.enabled e

omit [DecidableEq E] in
/-- All ends of the server have been made. -/
theorem Config.Linked.newEnds (h : cfg.Linked) {i : Fin n} (hi : cfg.connected i = false)
    {names : Fin n → E} (hc : NewEnds cfg i names (List.finRange n) cfg') : cfg'.Linked := by
  -- an end has a new name or an old one
  have hcases : ∀ {i' j e}, cfg'.Named i' j e →
      (i' = i ∧ names j = e) ∨ (i' ≠ i ∧ cfg.Named i' j e) := by
    rintro i' j e ⟨names', hnames', he⟩
    rw [hc.endnames] at hnames'
    rcases eq_or_ne i' i with rfl | hne
    · rw [Function.update_self] at hnames'
      rw [← Option.some.inj hnames'] at he
      exact .inl ⟨rfl, he⟩
    · rw [Function.update_of_ne hne] at hnames'
      exact .inr ⟨hne, names', hnames', he⟩
  have hfresh : ∀ {i' j j' e}, names j = e → ¬ cfg.Named i' j' e := by
    rintro i' j j' e rfl hnamed
    have hends := h.made hnamed
    rw [hc.fresh j (List.mem_finRange j)] at hends
    cases hends
  refine ⟨⟨?_, ?_, ?_⟩, fun e => ?_⟩
  · intro i' j e hnamed
    rcases hcases hnamed with ⟨-, rfl⟩ | ⟨-, hnamed⟩
    · exact (hc.made j (List.mem_finRange j)).1
    · exact (hc.old e (h.made hnamed)).1
  · intro i₁ j₁ i₂ j₂ e h₁ h₂
    rcases hcases h₁ with ⟨rfl, he₁⟩ | ⟨-, h₁⟩
    · rcases hcases h₂ with ⟨rfl, he₂⟩ | ⟨-, h₂⟩
      · exact ⟨rfl, hc.distinct j₁ (List.mem_finRange j₁) j₂ (List.mem_finRange j₂)
          (he₁.trans he₂.symm)⟩
      · exact absurd h₂ (hfresh he₁)
    · rcases hcases h₂ with ⟨rfl, he₂⟩ | ⟨-, h₂⟩
      · exact absurd h₁ (hfresh he₂)
      · exact h.distinct h₁ h₂
  · intro i' j e hnamed
    rcases hcases hnamed with ⟨-, rfl⟩ | ⟨-, hnamed⟩
    · exact (hc.made j (List.mem_finRange j)).2
    · rw [(hc.old e (h.made hnamed)).2]
      exact h.link hnamed
  · rw [hc.enabled e, h.enabled e, hc.connected]
    constructor
    · rintro ⟨i', j, ⟨names', hnames', he⟩, hi', hj⟩
      have hne : i' ≠ i := by
        rintro rfl
        rw [hi] at hi'
        cases hi'
      refine ⟨i', j, ⟨names', ?_, he⟩, hi', hj⟩
      rw [hc.endnames, Function.update_of_ne hne, hnames']
    · rintro ⟨i', j, hnamed, hi', hj⟩
      rcases hcases hnamed with ⟨rfl, -⟩ | ⟨-, hnamed⟩
      · rw [hi] at hi'
        cases hi'
      · exact ⟨i', j, hnamed, hi', hj⟩

/-- `start1` gives server `i` ends that did not exist before. -/
theorem safely_start1_linked (h : cfg.Linked) (hpre : Lenient pre cfg) (i : Fin n)
    (names : Fin n → E) :
    Safely Config.exec pre (fun c => c.Linked ∧
      c.endnames = Function.update cfg.endnames i (some names) ∧
      (∀ e, cfg.net.ends e = true → c.net.ends e = true) ∧
      ∀ j, cfg.net.ends (names j) = false) cfg (start1 i names) := by
  rw [start1, safely_append]
  refine (safely_crash1_linked h hpre i).mono fun c₁ h₁ => ?_
  obtain ⟨⟨hlinked, hendnames, hends⟩, hi⟩ := h₁
  have hpre₁ := hpre.congr hendnames
  refine ⟨hpre₁ c₁ _ (.inr rfl), fun c₂ h₂ => ?_⟩
  obtain rfl := Option.some.inj h₂
  rw [safely_append]
  have hstart : NewEnds c₁ i names [] { c₁ with
      endnames := Function.update c₁.endnames i (some names) } :=
    ⟨rfl, rfl, fun _ hj => absurd hj List.not_mem_nil, fun _ hj => absurd hj List.not_mem_nil,
      fun _ hj => absurd hj List.not_mem_nil, fun _ he => ⟨he, rfl⟩, fun _ => Iff.rfl⟩
  refine (safely_flatMap (I := NewEnds c₁ i names) (List.finRange n)
    (fun done j c hc => safely_newEnd hlinked hpre₁ hc j) hstart).mono fun c₃ h₃ => ?_
  have hlinked₃ := hlinked.newEnds hi h₃
  refine safely_of_forall ⟨hlinked₃, ?_, fun e he => (h₃.old e (hends ▸ he)).1, fun j => ?_⟩ ?_
  · rw [h₃.endnames, hendnames]
  · rw [← hends]
    exact h₃.fresh j (List.mem_finRange j)
  · rintro o ho c ⟨hc, hnames, hold, hfresh⟩
    have hoff : o.offEnds = true := by
      simp only [List.mem_cons, List.not_mem_nil, or_false] at ho
      obtain rfl | rfl | rfl | rfl := ho <;> rfl
    refine ⟨hpre c o (.inr (attaches_of_offEnds hoff)), fun c' hexec => ?_⟩
    obtain ⟨hsame, henabled⟩ := sameEnds_of_exec hoff hexec
    refine ⟨hc.congr hsame henabled, hsame.endnames.trans hnames, fun e he => ?_, hfresh⟩
    rw [hsame.ends]
    exact hold e he

/-! ## Whole runs -/

/-- End `e` exists, and if a server has it, then as the end `P`. -/
def Config.Only (e : E) (P : Fin n → Fin n → Prop) (cfg : Config n E) : Prop :=
  cfg.net.ends e = true ∧ ∀ i j, cfg.Named i j e → P i j

/-- The tester enables `e` only as the end `P`. -/
def EnablesOnly (e : E) (P : Fin n → Fin n → Prop) (cfg : Config n E) : Op n E → Prop
  | .attach _ i j => cfg.Named i j e → P i j
  | _ => True

omit [DecidableEq E] in
theorem Config.Only.lenient {e : E} {P : Fin n → Fin n → Prop} (h : cfg.Only e P) :
    Lenient (EnablesOnly e P) cfg := by
  rintro c o (hendnames | ho)
  · cases o with
    | attach peer i j =>
        intro hnamed
        rw [Config.Named, hendnames] at hnamed
        exact h.2 i j hnamed
    | _ => trivial
  · cases o with
    | attach => cases ho
    | _ => trivial

omit [DecidableEq E] in
theorem Config.Only.congr {e : E} {P : Fin n → Fin n → Prop} (h : cfg.Only e P)
    (hendnames : cfg'.endnames = cfg.endnames) (hends : cfg'.net.ends = cfg.net.ends) :
    cfg'.Only e P := by
  refine ⟨by rw [hends, h.1], fun i j hnamed => h.2 i j ?_⟩
  rwa [Config.Named, hendnames] at hnamed

/-- Every function of the tester keeps the ends linked. -/
theorem safely_ops_linked (c : Command n E) (cfg : Config n E) (h : cfg.Linked) :
    Safely Config.exec (fun _ _ => True) Config.Linked cfg c.ops := by
  have hpre : Lenient (fun _ _ => True) cfg := fun _ _ _ => trivial
  have hoff : ∀ o : Op n E, o.offEnds = true →
      Safely Config.exec (fun _ _ => True) Config.Linked cfg [o] := by
    intro o ho
    refine safely_offEnds hpre ?_ (fun c c' => Config.Linked.congr) h
    intro o' ho'
    rwa [List.mem_singleton.mp ho']
  cases c with
  | connect i => exact (safely_connect h hpre i).mono fun _ hc => hc.1
  | disconnect i => exact (safely_disconnect h hpre i).mono fun _ hc => hc.1.1
  | crash1 i => exact (safely_crash1_linked h hpre i).mono fun _ hc => hc.1.1
  | start1 i names => exact (safely_start1_linked h hpre i names).mono fun _ hc => hc.1
  | setunreliable unrel => exact hoff _ rfl
  | setlongreordering longrel => exact hoff _ rfl

/-- No function of the tester gives an end to another server, or as another end. -/
theorem safely_ops_only {e : E} {P : Fin n → Fin n → Prop} (c : Command n E) (cfg : Config n E)
    (h : cfg.Linked ∧ cfg.Only e P) :
    Safely Config.exec (EnablesOnly e P) (fun c => c.Linked ∧ c.Only e P) cfg c.ops := by
  obtain ⟨hlinked, honly⟩ := h
  have hpre := honly.lenient
  have hoff : ∀ o : Op n E, o.offEnds = true →
      Safely Config.exec (EnablesOnly e P) (fun c => c.Linked ∧ c.Only e P) cfg [o] := by
    intro o ho
    refine safely_offEnds hpre ?_ ?_ ⟨hlinked, honly⟩
    · intro o' ho'
      rwa [List.mem_singleton.mp ho']
    · rintro c c' ⟨hc, hconly⟩ hsame henabled
      exact ⟨hc.congr hsame henabled, hconly.congr hsame.endnames hsame.ends⟩
  cases c with
  | connect i =>
      refine (safely_connect hlinked hpre i).mono fun c hc => ?_
      exact ⟨hc.1, honly.congr hc.2.1 hc.2.2⟩
  | disconnect i =>
      refine (safely_disconnect hlinked hpre i).mono fun c hc => ?_
      exact ⟨hc.1.1, honly.congr hc.1.2.1 hc.1.2.2⟩
  | crash1 i =>
      refine (safely_crash1_linked hlinked hpre i).mono fun c hc => ?_
      exact ⟨hc.1.1, honly.congr hc.1.2.1 hc.1.2.2⟩
  | start1 i names =>
      refine (safely_start1_linked hlinked hpre i names).mono fun c hc => ?_
      obtain ⟨hc, hendnames, hends, hfresh⟩ := hc
      refine ⟨hc, hends e honly.1, fun i' j hnamed => ?_⟩
      obtain ⟨names', hnames', he⟩ := hnamed
      rw [hendnames] at hnames'
      rcases eq_or_ne i' i with rfl | hne
      · -- the new names did not exist before
        rw [Function.update_self] at hnames'
        have hnew := hfresh j
        rw [Option.some.inj hnames', he, honly.1] at hnew
        cases hnew
      · rw [Function.update_of_ne hne] at hnames'
        exact honly.2 i' j ⟨names', hnames', he⟩
  | setunreliable unrel => exact hoff _ rfl
  | setlongreordering longrel => exact hoff _ rfl

omit [DecidableEq E] in
theorem Config.linked_init : (Config.init : Config n E).Linked where
  made hnamed := absurd hnamed (not_named rfl)
  distinct hnamed := absurd hnamed (not_named rfl)
  link hnamed := absurd hnamed (not_named rfl)
  enabled _ := ⟨nofun, fun ⟨_, _, hnamed, _⟩ => absurd hnamed (not_named rfl)⟩

variable {r : (configSystem n E V).Run}

/-- The ends are linked whenever no function of the tester is running. -/
theorem linked_of_idle {k : ℕ} (hidle : (r.state k).todo = []) : (r.state k).cfg.Linked := by
  have hzero : Safely Config.exec (fun _ _ => True) Config.Linked (r.state 0).cfg
      (r.state 0).todo := by
    rw [r.state_zero]
    exact Config.linked_init
  have hk := safely_of_le safely_ops_linked r (Nat.zero_le k) hzero
  rw [hidle] at hk
  exact hk

end Functions

section Requests

variable [DecidableEq E] {r : (configSystem n E V).Run} {c k : ℕ}

/-- `ProcessReq` looks up the end of its request. -/
theorem read_of_act (hread : r.act k = some (.run c .read)) :
    ∃ call call', (r.state k).calls[c]? = some call ∧ (r.state (k + 1)).calls[c]? = some call' ∧
      call'.process = CallState.lookup ((r.state k).cfg.net.readEndnameInfo call.req.endname) := by
  obtain ⟨l, hl, hnext⟩ := Option.map_eq_some_iff.mp (r.taken k _ hread)
  obtain ⟨call, hcall, hl⟩ := Option.bind_eq_some_iff.mp hl
  obtain ⟨call', hstep, hl⟩ := Option.bind_eq_some_iff.mp hl
  obtain ⟨objects, -, hl⟩ := Option.bind_eq_some_iff.mp hl
  obtain rfl := Option.some.inj hl
  refine ⟨call, call', hcall, ?_, ?_⟩
  · rw [← hnext]
    exact List.getElem?_set_self (List.getElem?_eq_some_iff.mp hcall).1
  · cases hp : call.process with
    | accepted =>
        simp only [CallState.step, hp, Option.some.injEq] at hstep
        rw [← hstep]
        rfl
    | _ => simp [CallState.step, hp] at hstep

/-- Once an end belongs to no server, it is disabled for ever. -/
theorem disabled_of_gone {e : E} (hidle : (r.state k).todo = [])
    (hgone : (r.state k).cfg.Only e fun _ _ => False) {l : ℕ} (hkl : k ≤ l) :
    (r.state l).cfg.net.enabled e = false := by
  have hsafe : ∀ l ≥ k, Safely Config.exec (EnablesOnly e fun _ _ => False)
      (fun c => c.Linked ∧ c.Only e fun _ _ => False) (r.state l).cfg (r.state l).todo := by
    intro l hl
    refine safely_of_le safely_ops_only r hl ?_
    rw [hidle]
    exact ⟨linked_of_idle hidle, hgone⟩
  induction l, hkl using Nat.le_induction with
  | base =>
      rw [Bool.eq_false_iff]
      intro he
      obtain ⟨i, j, hnamed, -⟩ := ((linked_of_idle hidle).enabled e).mp he
      exact hgone.2 i j hnamed
  | succ l hkl ih =>
      have hl := hsafe l hkl
      rcases ha : r.act l with _ | a
      · rw [r.idle l ha]
        exact ih
      · have hstep := r.taken l a ha
        generalize r.state (l + 1) = s' at hstep ⊢
        generalize r.state l = s at hstep ih hl
        cases move_of_step hstep with
        | tester o rest cfg htodo hexec =>
            rw [htodo] at hl
            dsimp only
            cases exec_of_some hexec with
            | attached peer i j names hpeer hnames =>
                -- the only step that enables an end
                rw [Bool.eq_false_iff]
                intro he
                rcases enable_eq_true.mp he with ⟨he, -⟩ | ⟨-, he⟩
                · exact hl.1 ⟨names, hnames, he⟩
                · rw [ih] at he
                  cases he
            | detached i j names hnames =>
                rw [Bool.eq_false_iff]
                intro he
                rcases enable_eq_true.mp he with ⟨-, hfalse⟩ | ⟨-, he⟩
                · cases hfalse
                · rw [ih] at he
                  cases he
            | makeEnd i j names hnames hnew =>
                dsimp only
                rcases eq_or_ne e (names j) with rfl | hne
                · exact Function.update_self ..
                · rw [Function.update_of_ne hne]
                  exact ih
            | _ => exact ih
        | _ => exact ih

end Requests

/-- **The tester cuts the network where it says so.**  In every run, at a moment when no function
of the tester is running and call `c` looks up its end: the request gets through exactly when the
end belongs to a server that is connected and leads to one that is connected and running; and then
it goes to the instance that saves into the `Persister` of that server. -/
theorem partition_enforced [DecidableEq E] (r : (configSystem n E V).Run) (c k : ℕ)
    (hidle : (r.state k).todo = []) (hread : r.act k = some (.run c .read)) :
    ∃ call call', (r.state k).calls[c]? = some call ∧ (r.state (k + 1)).calls[c]? = some call' ∧
      ((∃ t, call'.process = .delaying t) ↔ ∃ i j server,
        (r.state k).cfg.Named i j call.req.endname ∧ (r.state k).cfg.connected i = true ∧
          (r.state k).cfg.connected j = true ∧ (r.state k).cfg.net.servers j = some server) ∧
      ∀ t, call'.process = .delaying t → ∃ i q,
        (r.state k).cfg.Named i t.servername call.req.endname ∧
          (r.state k).cfg.hosts t.server = some q ∧
          (r.state k).cfg.saved t.servername = some q := by
  obtain ⟨call, call', hcall, hcall', hlookup⟩ := read_of_act hread
  have hlinked := linked_of_idle hidle
  refine ⟨call, call', hcall, hcall', ?_, fun t ht => ?_⟩
  · rw [hlookup]
    constructor
    · rintro ⟨t, ht⟩
      obtain ⟨henabled, hconn, hserver, -⟩ := lookup_eq_delaying.mp ht
      obtain ⟨i, j, hnamed, hi, hj⟩ := (hlinked.enabled _).mp henabled
      obtain rfl : j = t.servername := Option.some.inj ((hlinked.link hnamed).symm.trans hconn)
      exact ⟨i, t.servername, t.server, hnamed, hi, hj, hserver⟩
    · rintro ⟨i, j, server, hnamed, hi, hj, hserver⟩
      exact ⟨⟨j, server, _, _⟩, lookup_eq_delaying.mpr
        ⟨(hlinked.enabled _).mpr ⟨i, j, hnamed, hi, hj⟩, hlinked.link hnamed, hserver, rfl, rfl⟩⟩
  · rw [hlookup] at ht
    obtain ⟨henabled, hconn, hserver, -⟩ := lookup_eq_delaying.mp ht
    obtain ⟨i, j, hnamed, -⟩ := (hlinked.enabled _).mp henabled
    obtain rfl : j = t.servername := Option.some.inj ((hlinked.link hnamed).symm.trans hconn)
    obtain ⟨-, q, hhosts, hsaved⟩ := (valid_run r k).registered t.servername t.server hserver
    exact ⟨i, q, hnamed, hhosts, hsaved⟩

theorem partition_enforced_answeredThenRestarted :
    let r := (configSystem 2 ℕ ℕ).ofList answeredThenRestarted
    (r.state 51).todo = [] ∧ r.act 51 = some (.run 0 .read) ∧
      ∃ call call', (r.state 51).calls[0]? = some call ∧ (r.state 52).calls[0]? = some call' ∧
        ((∃ t, call'.process = .delaying t) ↔ ∃ i j server,
          (r.state 51).cfg.Named i j call.req.endname ∧ (r.state 51).cfg.connected i = true ∧
            (r.state 51).cfg.connected j = true ∧ (r.state 51).cfg.net.servers j = some server) ∧
        ∀ t, call'.process = .delaying t → ∃ i q,
          (r.state 51).cfg.Named i t.servername call.req.endname ∧
            (r.state 51).cfg.hosts t.server = some q ∧
            (r.state 51).cfg.saved t.servername = some q := by
  intro r
  have hidle : (r.state 51).todo = [] := List.isEmpty_iff.mp (by decide)
  have hread : r.act 51 = some (.run 0 .read) := by decide
  exact ⟨hidle, hread, partition_enforced r 0 51 hidle hread⟩

/-- **An instance that has been replaced is not heard any more.**  In every run: let `e` be an end
of server `i` at a moment `j` and not any more at a later moment `k`, when no function of the
tester is running at either.  From `k` on no request on `e` gets through, and whatever a caller on
`e` is told with `ok`, the network had confirmed it before `k`. -/
theorem superseded_isolated [DecidableEq E] (r : (configSystem n E V).Run) (j k : ℕ) (hjk : j ≤ k)
    (hj : (r.state j).todo = []) (hk : (r.state k).todo = []) (i i' : Fin n) (e : E)
    (hold : (r.state j).cfg.Named i i' e) (hnew : ¬ (r.state k).cfg.Named i i' e) :
    ∀ l ≥ k, ∀ (c : ℕ) (call : CallState E (Fin n)), (r.state l).calls[c]? = some call →
      call.req.endname = e →
      (r.act l = some (.run c .read) → ∃ call', (r.state (l + 1)).calls[c]? = some call' ∧
        call'.process = .delayed .failure) ∧
      ∀ m ∈ call.replies, m.ok = true → Vouched (labRun r) c k e m.reply := by
  -- nobody else can have got the end in between
  have honly : (r.state k).cfg.Linked ∧ (r.state k).cfg.Only e fun a b => a = i ∧ b = i' := by
    have hlinked := linked_of_idle hj
    have hthen := safely_of_le safely_ops_only r hjk (by
      rw [hj]
      exact ⟨hlinked, hlinked.made hold, fun _ _ hnamed => hlinked.distinct hnamed hold⟩)
    rwa [hk] at hthen
  have hgone : (r.state k).cfg.Only e fun _ _ => False := by
    refine ⟨honly.2.1, fun a b hnamed => hnew ?_⟩
    obtain ⟨rfl, rfl⟩ := honly.2.2 a b hnamed
    exact hnamed
  have hdisabled : ∀ l ≥ k, (r.state l).cfg.net.enabled e = false :=
    fun l hl => disabled_of_gone hk hgone hl
  intro l hl c call hcall hend
  refine ⟨fun hread => ?_, fun m hm hok => ?_⟩
  · obtain ⟨old, call', hold', hcall', hlookup⟩ := read_of_act hread
    obtain rfl : old = call := Option.some.inj (hold'.symm.trans hcall)
    refine ⟨call', hcall', ?_⟩
    rcases lookup_cases ((r.state l).cfg.net.readEndnameInfo old.req.endname) with
      hfail | ⟨t, hfound⟩
    · rw [hlookup, hfail]
    · obtain ⟨henabled, -⟩ := lookup_eq_delaying.mp hfound
      rw [hend, hdisabled l hl] at henabled
      cases henabled
  · obtain ⟨servername, server, l', hfinds, hdone, -, henabled, hserver⟩ :=
      (past_run (labRun r) l c call hcall).replied m hm hok
    rw [hend] at hfinds henabled
    refine ⟨servername, server, l', hfinds, hdone, ?_, henabled, hserver⟩
    by_contra hlate
    have hoff := hdisabled l' (not_lt.mp hlate)
    change (r.state l').cfg.net.enabled e = true at henabled
    rw [hoff] at henabled
    cases henabled

/-- The old instance of server 1 sends a request after it has been replaced. -/
def lateRequest : List (Action 2 ℕ ℕ) :=
  answeredThenRestarted ++ [.call ⟨2, "Raft.RequestVote"⟩, .run 1 .read, .run 1 .fire]

theorem superseded_isolated_lateRequest :
    let r := (configSystem 2 ℕ ℕ).ofList lateRequest
    (r.state 50).cfg.Named 1 0 2 ∧ ¬ (r.state 80).cfg.Named 1 0 2 ∧
      ∃ call', (r.state 82).calls[1]? = some call' ∧ call'.process = .delayed .failure := by
  intro r
  have hold : (r.state 50).cfg.Named 1 0 2 := by decide +kernel
  have hnew : ¬ (r.state 80).cfg.Named 1 0 2 := by decide +kernel
  refine ⟨hold, hnew, ?_⟩
  exact (superseded_isolated r 50 80 (by decide) (List.isEmpty_iff.mp (by decide +kernel))
    (List.isEmpty_iff.mp (by decide +kernel)) 1 0 2 hold hnew 81 (by decide) 1
    (.new ⟨2, "Raft.RequestVote"⟩) (by decide +kernel) rfl).1 (by decide +kernel)

end Mit6824.RaftTest
