import ControlStore.Width
import Mathlib.Algebra.Ring.Nat
import Mathlib.Data.List.Forall2

/-! # When composed checked computations succeed

A computation made of several parts succeeds exactly if its parts do.  For a list of parts that are
independent of each other (`mapM`, `forM`) this is a statement about every part; for a run that
hands a state on (`foldlM`) it is one about its first step and the run from there. -/

namespace ControlStore

variable {ε α β σ : Type}

@[simp] theorem pure_eq_ok (a : α) : (pure a : Except ε α) = .ok a := rfl

@[simp] theorem ok_bind (a : α) (f : α → Except ε β) : (Except.ok a >>= f) = f a := rfl

@[simp] theorem error_bind (e : ε) (f : α → Except ε β) : (Except.error e >>= f) = .error e := rfl

theorem bind_eq_ok_iff {x : Except ε α} {f : α → Except ε β} {b : β} :
    (x >>= f) = .ok b ↔ ∃ a, x = .ok a ∧ f a = .ok b := by
  cases x with
  | error e => simp
  | ok a => simp

theorem eq_ok_of_toOption {x : Except ε α} {a : α} (h : x.toOption = some a) : x = .ok a := by
  cases x with
  | error e => cases h
  | ok b => exact congrArg Except.ok (Option.some.inj h)

/-! ### Lists of independent parts -/

theorem mapM_eq_ok_map {f : α → Except ε β} {g : α → β} {l : List α}
    (h : ∀ a ∈ l, f a = .ok (g a)) : l.mapM f = .ok (l.map g) := by
  induction l with
  | nil => rfl
  | cons a l ih =>
      rw [List.mapM_cons, h a List.mem_cons_self, ih fun b hb => h b (List.mem_cons_of_mem a hb)]
      rfl

theorem mapM_ok {f : α → Except ε β} {P : β → Prop} {l : List α}
    (h : ∀ a ∈ l, ∃ b, f a = .ok b ∧ P b) : ∃ r, l.mapM f = .ok r ∧ ∀ b ∈ r, P b := by
  induction l with
  | nil => exact ⟨[], rfl, by simp⟩
  | cons a l ih =>
      obtain ⟨b, hb, hPb⟩ := h a List.mem_cons_self
      obtain ⟨r, hr, hPr⟩ := ih fun a' ha' => h a' (List.mem_cons_of_mem a ha')
      refine ⟨b :: r, ?_, List.forall_mem_cons.mpr ⟨hPb, hPr⟩⟩
      rw [List.mapM_cons, hb, ok_bind, hr]
      rfl

theorem mapM_eq_ok_iff {f : α → Except ε β} {l : List α} {r : List β} :
    l.mapM f = .ok r ↔ List.Forall₂ (fun a b => f a = .ok b) l r := by
  induction l generalizing r with
  | nil => simp [eq_comm]
  | cons a l ih =>
      rw [List.mapM_cons, bind_eq_ok_iff, List.forall₂_cons_left_iff]
      constructor
      · rintro ⟨b, hb, hl⟩
        obtain ⟨r', hr', hr⟩ := bind_eq_ok_iff.mp hl
        cases hr
        exact ⟨b, r', hb, ih.mp hr', rfl⟩
      · rintro ⟨b, r', hb, hr', rfl⟩
        exact ⟨b, hb, bind_eq_ok_iff.mpr ⟨r', ih.mpr hr', rfl⟩⟩

theorem exists_of_mem_mapM {f : α → Except ε β} {l : List α} {r : List β} (h : l.mapM f = .ok r) {b : β}
    (hb : b ∈ r) : ∃ a ∈ l, f a = .ok b := by
  induction mapM_eq_ok_iff.mp h with
  | nil => cases hb
  | cons hab hl ih =>
      rcases List.mem_cons.mp hb with rfl | hb
      · exact ⟨_, List.mem_cons_self, hab⟩
      · obtain ⟨a, ha, hfa⟩ := ih (mapM_eq_ok_iff.mpr hl) hb
        exact ⟨a, List.mem_cons_of_mem _ ha, hfa⟩

theorem map_eq_of_mapM {γ : Type} {f : α → Except ε β} {l : List α} {r : List β} (h : l.mapM f = .ok r)
    {p : β → γ} {g : α → γ} (hpg : ∀ a ∈ l, ∀ b, f a = .ok b → p b = g a) : r.map p = l.map g := by
  induction mapM_eq_ok_iff.mp h with
  | nil => rfl
  | cons hab hl ih =>
      rw [List.map_cons, List.map_cons, hpg _ List.mem_cons_self _ hab,
        ih (mapM_eq_ok_iff.mpr hl) fun a ha => hpg a (List.mem_cons_of_mem _ ha)]

theorem exists_getElem?_of_forall₂ {R : α → β → Prop} {l : List α} {r : List β} (h : List.Forall₂ R l r)
    {i : Nat} {a : α} (ha : l[i]? = some a) : ∃ b, r[i]? = some b ∧ R a b := by
  induction h generalizing i with
  | nil => cases ha
  | @cons a' b l r hab _ ih =>
      cases i with
      | zero =>
          obtain rfl := Option.some.inj ha
          exact ⟨b, rfl, hab⟩
      | succ i => exact ih ha

theorem exists_mem_iff_of_forall₂ {R : α → β → Prop} {P : α → Prop} {Q : β → Prop} {l : List α} {r : List β}
    (h : List.Forall₂ R l r) (hPQ : ∀ a ∈ l, ∀ b, R a b → (P a ↔ Q b)) :
    (∃ a ∈ l, P a) ↔ ∃ b ∈ r, Q b := by
  induction h with
  | nil => simp
  | cons hab _ ih =>
      have hrest := ih fun a ha => hPQ a (List.mem_cons_of_mem _ ha)
      simp only [List.mem_cons, exists_eq_or_imp, hPQ _ List.mem_cons_self _ hab, hrest]

theorem forM_eq_ok_iff {f : α → Except ε Unit} {l : List α} :
    l.forM f = .ok () ↔ ∀ a ∈ l, f a = .ok () := by
  induction l with
  | nil => simp
  | cons a l ih =>
      rw [List.forM_eq_forM, List.forM_cons, bind_eq_ok_iff, List.forall_mem_cons, ← ih]
      constructor
      · rintro ⟨⟨⟩, ha, hl⟩
        exact ⟨ha, hl⟩
      · rintro ⟨ha, hl⟩
        exact ⟨(), ha, hl⟩

/-! ### Runs -/

theorem foldlM_cons_eq_ok_iff {f : σ → α → Except ε σ} {a : α} {l : List α} {s s' : σ} :
    (a :: l).foldlM f s = .ok s' ↔ ∃ s₁, f s a = .ok s₁ ∧ l.foldlM f s₁ = .ok s' := by
  rw [List.foldlM_cons, bind_eq_ok_iff]

/-- A sum of widths is taken if it stays below the limit. -/
theorem Width.sum_eq_ok {ws : List Nat} (h : ws.sum < Width.limit) : Width.sum ws = .ok ws.sum := by
  have general : ∀ (ws : List Nat) (a : Nat), a + ws.sum < Width.limit →
      ws.foldlM Width.add a = .ok (a + ws.sum) := by
    intro ws
    induction ws with
    | nil => intro a _; rfl
    | cons w ws ih =>
        intro a h
        rw [List.sum_cons] at h ⊢
        rw [List.foldlM_cons, Width.add_eq_ok_iff.mpr ⟨rfl, by omega⟩, ok_bind, ih (a + w) (by omega)]
        congr 1
        omega
  unfold Width.sum
  rw [general ws 0 (by omega), Nat.zero_add]

end ControlStore
