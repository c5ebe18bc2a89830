import ControlStore.Collections
import Mathlib.Data.List.Forall2

/-! # Sorted lists and pairs of positions

Sorting by insertion lists the same elements in order, whenever "not before" is transitive and any
two elements compare; the pairs of a list are those of an earlier with a later element. -/

namespace ControlStore

variable {α : Type}

theorem insertBy_perm (before : α → α → Bool) (a : α) (l : List α) :
    (insertBy before a l).Perm (a :: l) := by
  induction l with
  | nil => exact List.Perm.refl _
  | cons b l ih =>
      rw [insertBy]
      split
      · exact (ih.cons b).trans (List.Perm.swap a b l)
      · exact List.Perm.refl _

theorem sortBy_perm (before : α → α → Bool) (l : List α) : (sortBy before l).Perm l := by
  induction l with
  | nil => exact List.Perm.refl _
  | cons a l ih => exact (insertBy_perm before a _).trans (ih.cons a)

theorem mem_sortBy {before : α → α → Bool} {l : List α} {a : α} : a ∈ sortBy before l ↔ a ∈ l :=
  (sortBy_perm before l).mem_iff

/-- Sorting orders the elements by every relation that the comparison decides. -/
theorem pairwise_sortBy {before : α → α → Bool} {le : α → α → Prop}
    (trans : ∀ a b c, le a b → le b c → le a c) (yes : ∀ a b, before a b = true → le a b)
    (no : ∀ a b, before a b = false → le b a) (l : List α) : (sortBy before l).Pairwise le := by
  have insert : ∀ (a : α) (l : List α), l.Pairwise le → (insertBy before a l).Pairwise le := by
    intro a l
    induction l with
    | nil => intro _; exact List.pairwise_singleton _ _
    | cons b l ih =>
        intro h
        obtain ⟨hb, hl⟩ := List.pairwise_cons.mp h
        rw [insertBy]
        split
        · next hba =>
          refine List.pairwise_cons.mpr ⟨fun c hc => ?_, ih hl⟩
          rcases List.mem_cons.mp ((insertBy_perm before a l).mem_iff.mp hc) with rfl | hc
          · exact yes b c hba
          · exact hb c hc
        · next hba =>
          have hab : le a b := no b a (Bool.eq_false_iff.mpr hba)
          refine List.pairwise_cons.mpr ⟨fun c hc => ?_, h⟩
          rcases List.mem_cons.mp hc with rfl | hc
          · exact hab
          · exact trans a b c hab (hb c hc)
  induction l with
  | nil => exact List.Pairwise.nil
  | cons a l ih => exact insert a _ ih

/-- The order in which elements are listed does not matter if no two of them tie. -/
theorem sortBy_eq_of_perm {before : α → α → Bool} {le : α → α → Prop}
    (trans : ∀ a b c, le a b → le b c → le a c) (yes : ∀ a b, before a b = true → le a b)
    (no : ∀ a b, before a b = false → le b a) {l l' : List α} (h : l.Perm l')
    (antisymm : ∀ a ∈ l, ∀ b ∈ l, le a b → le b a → a = b) : sortBy before l = sortBy before l' := by
  refine List.Perm.eq_of_pairwise (fun a b ha hb => ?_) (pairwise_sortBy trans yes no l)
    (pairwise_sortBy trans yes no l') ((sortBy_perm before l).trans (h.trans (sortBy_perm before l').symm))
  exact antisymm a (mem_sortBy.mp ha) b (h.mem_iff.mpr (mem_sortBy.mp hb))

/-! ### Elements that compare alike -/

section
variable {before : α → α → Bool} {R : α → α → Prop}
  (hbefore : ∀ a a' b b', R a a' → R b b' → before a b = before a' b')
include hbefore

theorem forall₂_insertBy {a a' : α} (ha : R a a') {l l' : List α} (h : List.Forall₂ R l l') :
    List.Forall₂ R (insertBy before a l) (insertBy before a' l') := by
  induction h with
  | nil => exact .cons ha .nil
  | cons hb hrest ih =>
      unfold insertBy
      rw [hbefore _ _ _ _ hb ha]
      split
      · exact .cons hb ih
      · exact .cons ha (.cons hb hrest)

/-- Lists whose elements compare alike are sorted alike. -/
theorem forall₂_sortBy {l l' : List α} (h : List.Forall₂ R l l') :
    List.Forall₂ R (sortBy before l) (sortBy before l') := by
  induction h with
  | nil => exact .nil
  | cons ha _ ih => exact forall₂_insertBy hbefore ha ih

end

/-! ### Pairs -/

theorem pairsOf_map {β : Type} (f : α → β) (l : List α) :
    pairsOf (l.map f) = (pairsOf l).map fun e => (f e.1, f e.2) := by
  induction l with
  | nil => rfl
  | cons a l ih => simp [pairsOf, ih]

theorem mem_pairsOf {R : α → α → Prop} {l : List α} (h : l.Pairwise R) {p : α × α}
    (hp : p ∈ pairsOf l) : p.1 ∈ l ∧ p.2 ∈ l ∧ R p.1 p.2 := by
  induction l with
  | nil => cases hp
  | cons a l ih =>
      obtain ⟨ha, hl⟩ := List.pairwise_cons.mp h
      rw [pairsOf, List.mem_append] at hp
      rcases hp with hp | hp
      · obtain ⟨b, hb, rfl⟩ := List.mem_map.mp hp
        exact ⟨List.mem_cons_self, List.mem_cons_of_mem a hb, ha b hb⟩
      · obtain ⟨h1, h2, h3⟩ := ih hl hp
        exact ⟨List.mem_cons_of_mem a h1, List.mem_cons_of_mem a h2, h3⟩

/-- The pairs of a list that ascends strictly are those of a smaller with a larger element. -/
theorem mem_pairsOf_of_lt {rank : α → Nat} {l : List α} (h : l.Pairwise fun a b => rank a < rank b)
    {a b : α} (ha : a ∈ l) (hb : b ∈ l) (hab : rank a < rank b) : (a, b) ∈ pairsOf l := by
  induction l with
  | nil => cases ha
  | cons c l ih =>
      obtain ⟨hc, hl⟩ := List.pairwise_cons.mp h
      rw [pairsOf, List.mem_append]
      rcases List.mem_cons.mp hb with rfl | hbl
      · rcases List.mem_cons.mp ha with rfl | hal
        · exact absurd hab (Nat.lt_irrefl _)
        · exact absurd hab (Nat.lt_asymm (hc a hal))
      · rcases List.mem_cons.mp ha with rfl | hal
        · exact .inl (List.mem_map_of_mem hbl)
        · exact .inr (ih hl hal hbl)

theorem pairsOf_nodup {l : List α} (h : l.Nodup) : (pairsOf l).Nodup := by
  induction l with
  | nil => exact List.nodup_nil
  | cons a l ih =>
      obtain ⟨ha, hl⟩ := List.nodup_cons.mp h
      rw [pairsOf, List.nodup_append]
      refine ⟨?_, ih hl, ?_⟩
      · exact List.pairwise_map.mpr (hl.imp fun hne heq => hne (Prod.mk.inj heq).2)
      · rintro p hp q hq rfl
        obtain ⟨b, -, rfl⟩ := List.mem_map.mp hp
        exact ha (mem_pairsOf (R := fun _ _ => True) (List.pairwise_of_forall fun _ _ => trivial) hq).1

end ControlStore
