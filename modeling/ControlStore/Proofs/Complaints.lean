import ControlStore.Proofs.Checked

/-! # Computations that stop at the first complaint

`Reports x complaints P` describes a computation by everything there is to complain about: it fails
with the first of the complaints, and without any it has a result for which `P` holds.  The
complaints themselves are listed without any early exit (`along` checks every item of a list against
those before it), so the order of the checks can be read off the list.  Composed computations report
the complaints of their parts one after the other (`Reports.bind`, `Reports.mapM`,
`Reports.foldlM`). -/

namespace ControlStore

variable {ε α β σ : Type}

/-- The complaints about the items of `rest`, each checked against the items before it. -/
def along (check : List α → α → List ε) : (earlier rest : List α) → List ε
  | _, [] => []
  | earlier, a :: rest => check earlier a ++ along check (earlier ++ [a]) rest

/-- If the check of an item asks for a key that no earlier item has and for something about the item
alone, there are no complaints exactly if the keys are distinct and every item is as it must be. -/
theorem along_eq_nil_iff {κ : Type} {check : List α → α → List ε} {key : α → κ} {Q : α → Prop}
    (hcheck : ∀ earlier a, check earlier a = [] ↔ (∀ b ∈ earlier, key b ≠ key a) ∧ Q a)
    (l : List α) : along check [] l = [] ↔ (l.map key).Nodup ∧ ∀ a ∈ l, Q a := by
  have general : ∀ earlier, along check earlier l = [] ↔
      (∀ a ∈ l, (∀ b ∈ earlier, key b ≠ key a) ∧ Q a) ∧ (l.map key).Nodup := by
    induction l with
    | nil => simp [along]
    | cons a l ih =>
        intro earlier
        simp only [along, List.append_eq_nil_iff, hcheck, ih, List.forall_mem_append,
          List.forall_mem_singleton, List.forall_mem_cons, List.map_cons, List.nodup_cons, List.mem_map]
        grind
  rw [general]
  simp [and_comm]

/-- The computation fails with the first of the complaints; without any it has a result for which
`P` holds. -/
def Reports (x : Except ε α) (complaints : List ε) (P : α → Prop) : Prop :=
  match x with
  | .ok a => complaints = [] ∧ P a
  | .error e => complaints.head? = some e

namespace Reports

variable {x : Except ε α} {f : α → Except ε β} {es es' : List ε} {P : α → Prop} {Q : β → Prop}

theorem ok {a : α} (h : P a) : Reports (.ok a : Except ε α) [] P := ⟨rfl, h⟩

theorem error (e : ε) (es : List ε) : Reports (.error e : Except ε α) (e :: es) P := rfl

theorem bind (hx : Reports x es P) (hf : ∀ a, P a → Reports (f a) es' Q) :
    Reports (x >>= f) (es ++ es') Q := by
  cases x with
  | error e =>
      obtain ⟨rest, rfl⟩ := List.head?_eq_some_iff.mp hx
      exact error e (rest ++ es')
  | ok a =>
      obtain ⟨rfl, ha⟩ := hx
      exact hf a ha

/-- A last step that cannot fail. -/
theorem map (hx : Reports x es P) {g : α → β} (hg : ∀ a, P a → Q (g a)) :
    Reports (x >>= fun a => .ok (g a)) es Q := by
  rw [← List.append_nil es]
  exact hx.bind fun a ha => ok (hg a ha)

theorem mapM {f : α → Except ε β} {complaints : α → List ε} {R : α → β → Prop} {l : List α}
    (h : ∀ a ∈ l, Reports (f a) (complaints a) (R a)) :
    Reports (l.mapM f) (l.flatMap complaints) (List.Forall₂ R l) := by
  induction l with
  | nil => exact ok .nil
  | cons a l ih =>
      obtain ⟨ha, hl⟩ := List.forall_mem_cons.mp h
      rw [List.mapM_cons, List.flatMap_cons]
      exact ha.bind fun b hb => (ih hl).map fun bs hbs => .cons hb hbs

/-- What holds of a state and the items it came from is handed on from item to item. -/
theorem foldlM {f : σ → α → Except ε σ} {check : List α → α → List ε} {I : List α → σ → Prop}
    (hstep : ∀ earlier a s, I earlier s → Reports (f s a) (check earlier a) (I (earlier ++ [a])))
    {earlier : List α} {s : σ} (hs : I earlier s) (l : List α) :
    Reports (l.foldlM f s) (along check earlier l) (I (earlier ++ l)) := by
  induction l generalizing earlier s with
  | nil => exact ok (by rwa [List.append_nil])
  | cons a l ih =>
      rw [List.foldlM_cons, along]
      refine (hstep earlier a s hs).bind fun s' hs' => ?_
      have hrest := ih hs'
      rwa [List.append_assoc] at hrest

theorem of_eq_ok (h : Reports x es P) {a : α} (hx : x = .ok a) : es = [] ∧ P a := by
  rw [hx] at h
  exact h

theorem exists_ok (h : Reports x [] P) : ∃ a, x = .ok a ∧ P a := by
  cases x with
  | error e => cases h
  | ok a => exact ⟨a, rfl, h.2⟩

theorem eq_error {e : ε} (h : Reports x (e :: es) P) : x = .error e := by
  cases x with
  | error e' => exact congrArg Except.error (Option.some.inj h).symm
  | ok a => exact absurd h.1 (List.cons_ne_nil e es)

end Reports

end ControlStore
