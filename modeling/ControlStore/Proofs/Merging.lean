import ControlStore.Symbol.Merging
import ControlStore.Proofs.Sorted
import ControlStore.Proofs.Tables
import Mathlib.Logic.Relation

/-! # What merging does to the groups

One merge (`Slots.Merges`) replaces two groups, each with more than one symbol, by the group that
numbers the contents of their targets together; it saves a selector bit and stays within the bound.
Whatever one merge keeps holds after any chain of merges (`Slots.kept_of_reaches`): every group numbers
the contents of its targets and every target is in exactly one group (`Slots.Sound`), and the selectors
never get wider in total (`selectorBits_le`).

Which merges are accepted depends only on the set of candidates, not on the order in which they are
listed (`MergeState.Scores.accepted_eq`), and no slot is used twice. -/

namespace ControlStore

open SymbolTable

namespace Slots

/-- Slot `i` holds the group `g`. -/
def Holds (slots : Slots) (i : Nat) (g : SymbolTable) : Prop := slots[i]? = some (some g)

/-- The selector bits of all groups. -/
def selectorBits (slots : Slots) : Nat := (slots.map fun g => (g.map SymbolTable.width).getD 0).sum

/-- The number of groups. -/
def live (slots : Slots) : Nat := (slots.map fun g => if g.isSome then 1 else 0).sum

/-- The slots after the groups in slots `i` and `j` became the one group `g`. -/
def join (slots : Slots) (i j : Nat) (g : SymbolTable) : Slots := (slots.set j none).set i (some g)

variable {neutral : SignalId → Content} {steps : List (SignalId → Content)} {bound : Nat}

/-- One merge of two groups. -/
inductive Merges (neutral : SignalId → Content) (steps : List (SignalId → Content)) (bound : Nat)
    (slots : Slots) : Slots → Prop
  | merge {i j : Nat} {g₀ g₁ : SymbolTable} (hij : i < j) (h₀ : slots.Holds i g₀)
      (h₁ : slots.Holds j g₁) (hc₀ : 1 < g₀.count) (hc₁ : 1 < g₁.count)
      (saves : (ofContents (g₀.targets ++ g₁.targets) neutral steps).width < g₀.width + g₁.width)
      (fits : (ofContents (g₀.targets ++ g₁.targets) neutral steps).width ≤ bound) :
      Merges neutral steps bound slots
        (slots.join i j (ofContents (g₀.targets ++ g₁.targets) neutral steps))

/-- Every group numbers the contents of its targets, and every target is in exactly one group. -/
structure Sound (neutral : SignalId → Content) (steps : List (SignalId → Content))
    (targets : List SignalId) (slots : Slots) : Prop where
  numbers : ∀ i g, slots.Holds i g → g.Numbers neutral steps
  nodup : ∀ i g, slots.Holds i g → g.targets.Nodup
  apart : ∀ i j g₀ g₁, slots.Holds i g₀ → slots.Holds j g₁ → i ≠ j → ∀ t ∈ g₀.targets, t ∉ g₁.targets
  covers : ∀ t, t ∈ targets ↔ ∃ i g, slots.Holds i g ∧ t ∈ g.targets

theorem Holds.unique {slots : Slots} {i : Nat} {g g' : SymbolTable} (h : slots.Holds i g)
    (h' : slots.Holds i g') : g = g' := by
  simpa [Holds] using h.symm.trans h'

/-! ### One merge -/

theorem holds_join {slots : Slots} {i j : Nat} {g₀ g₁ g : SymbolTable} (hij : i ≠ j)
    (h₀ : slots.Holds i g₀) (h₁ : slots.Holds j g₁) {k : Nat} {g' : SymbolTable} :
    (slots.join i j g).Holds k g' ↔ (k = i ∧ g' = g) ∨ (k ≠ i ∧ k ≠ j ∧ slots.Holds k g') := by
  have hi : i < slots.length := (List.getElem?_eq_some_iff.mp h₀).1
  have hj : j < slots.length := (List.getElem?_eq_some_iff.mp h₁).1
  unfold Holds join
  rw [List.getElem?_set, List.getElem?_set, List.length_set]
  by_cases hki : k = i
  · subst hki
    simp [hi, eq_comm]
  · by_cases hkj : k = j
    · subst hkj
      simp [hj, Ne.symm hki, hki]
    · simp [Ne.symm hki, Ne.symm hkj, hki, hkj]

/-- Replacing an entry of a sum. -/
theorem sum_set {l : List Nat} {i x : Nat} (h : l[i]? = some x) (y : Nat) :
    (l.set i y).sum + x = l.sum + y := by
  induction l generalizing i with
  | nil => simp at h
  | cons a l ih =>
      cases i with
      | zero =>
          obtain rfl : a = x := by simpa using h
          simp only [List.set_cons_zero, List.sum_cons]
          omega
      | succ i =>
          have := ih (by simpa using h)
          simp only [List.set_cons_succ, List.sum_cons]
          omega

/-- What a join changes in a sum over all slots. -/
theorem sum_join (weight : Option SymbolTable → Nat) {slots : Slots} {i j : Nat} {g₀ g₁ g : SymbolTable}
    (hij : i ≠ j) (h₀ : slots.Holds i g₀) (h₁ : slots.Holds j g₁) :
    ((slots.join i j g).map weight).sum + (weight (some g₀) + weight (some g₁)) =
      (slots.map weight).sum + (weight (some g) + weight none) := by
  unfold join
  rw [List.map_set, List.map_set]
  have hw₁ : (slots.map weight)[j]? = some (weight (some g₁)) := by rw [List.getElem?_map, h₁]; rfl
  have hw₀ : ((slots.map weight).set j (weight none))[i]? = some (weight (some g₀)) := by
    rw [List.getElem?_set_ne (Ne.symm hij), List.getElem?_map, h₀]; rfl
  have e₁ := sum_set hw₁ (weight none)
  have e₀ := sum_set hw₀ (weight (some g))
  omega

theorem selectorBits_join {slots : Slots} {i j : Nat} {g₀ g₁ g : SymbolTable} (hij : i ≠ j)
    (h₀ : slots.Holds i g₀) (h₁ : slots.Holds j g₁) :
    (slots.join i j g).selectorBits + (g₀.width + g₁.width) = slots.selectorBits + g.width :=
  sum_join (fun g => (g.map SymbolTable.width).getD 0) hij h₀ h₁

theorem Merges.selectorBits_lt {slots slots' : Slots} (h : Merges neutral steps bound slots slots') :
    slots'.selectorBits < slots.selectorBits := by
  cases h with
  | @merge i j g₀ g₁ hij h₀ h₁ _ _ saves _ =>
      have := selectorBits_join (g := ofContents (g₀.targets ++ g₁.targets) neutral steps)
        (Nat.ne_of_lt hij) h₀ h₁
      omega

theorem Merges.live_eq {slots slots' : Slots} (h : Merges neutral steps bound slots slots') :
    slots'.live + 1 = slots.live := by
  cases h with
  | @merge i j g₀ g₁ hij h₀ h₁ _ _ _ _ =>
      have hsum := sum_join (g := ofContents (g₀.targets ++ g₁.targets) neutral steps)
        (fun g => if g.isSome then 1 else 0) (Nat.ne_of_lt hij) h₀ h₁
      simp only [Option.isSome_some, Option.isSome_none, if_true, Bool.false_eq_true, if_false] at hsum
      unfold live
      omega

section
variable {slots : Slots} {i j : Nat} {g₀ g₁ : SymbolTable} (h₀ : slots.Holds i g₀) (h₁ : slots.Holds j g₁)
include h₀ h₁

/-- Two joined groups meet no other group. -/
theorem Sound.apart_joined {targets : List SignalId} (hs : slots.Sound neutral steps targets) {k : Nat}
    {g : SymbolTable} (hg : slots.Holds k g) (hki : k ≠ i) (hkj : k ≠ j) :
    ∀ t ∈ g₀.targets ++ g₁.targets, t ∉ g.targets := by
  intro t ht
  rcases List.mem_append.mp ht with ht | ht
  · exact hs.apart i k g₀ g h₀ hg hki.symm t ht
  · exact hs.apart j k g₁ g h₁ hg hkj.symm t ht

/-- Joining two groups keeps the targets that are in some group. -/
theorem exists_holds_join_iff (hij : i ≠ j) {g : SymbolTable}
    (hg : g.targets = g₀.targets ++ g₁.targets) (t : SignalId) :
    (∃ k g', (slots.join i j g).Holds k g' ∧ t ∈ g'.targets) ↔
      ∃ k g', slots.Holds k g' ∧ t ∈ g'.targets := by
  constructor
  · rintro ⟨k, g', hg', ht⟩
    rcases (holds_join hij h₀ h₁).mp hg' with ⟨-, rfl⟩ | ⟨-, -, hold⟩
    · rw [hg] at ht
      rcases List.mem_append.mp ht with ht | ht
      · exact ⟨i, g₀, h₀, ht⟩
      · exact ⟨j, g₁, h₁, ht⟩
    · exact ⟨k, g', hold, ht⟩
  · rintro ⟨k, g', hold, ht⟩
    by_cases hk : k = i ∨ k = j
    · refine ⟨i, g, (holds_join hij h₀ h₁).mpr (.inl ⟨rfl, rfl⟩), ?_⟩
      rw [hg]
      rcases hk with rfl | rfl
      · obtain rfl := hold.unique h₀
        exact List.mem_append_left _ ht
      · obtain rfl := hold.unique h₁
        exact List.mem_append_right _ ht
    · rw [not_or] at hk
      exact ⟨k, g', (holds_join hij h₀ h₁).mpr (.inr ⟨hk.1, hk.2, hold⟩), ht⟩

end

theorem Merges.sound {targets : List SignalId} {slots slots' : Slots}
    (h : Merges neutral steps bound slots slots') (hs : slots.Sound neutral steps targets) :
    slots'.Sound neutral steps targets := by
  cases h with
  | @merge i j g₀ g₁ hij h₀ h₁ _ _ _ _ =>
      have hne := Nat.ne_of_lt hij
      have hdisj := hs.apart i j g₀ g₁ h₀ h₁ hne
      refine ⟨?_, ?_, ?_, fun t => (hs.covers t).trans (exists_holds_join_iff h₀ h₁ hne rfl t).symm⟩
      · intro k g hg
        rcases (holds_join hne h₀ h₁).mp hg with ⟨-, rfl⟩ | ⟨-, -, hg⟩
        · exact numbers_ofContents _ neutral steps
        · exact hs.numbers k g hg
      · intro k g hg
        rcases (holds_join hne h₀ h₁).mp hg with ⟨-, rfl⟩ | ⟨-, -, hg⟩
        · exact List.nodup_append.mpr ⟨hs.nodup i g₀ h₀, hs.nodup j g₁ h₁,
            fun a ha b hb hab => hdisj a ha (hab ▸ hb)⟩
        · exact hs.nodup k g hg
      · intro k l g g' hg hg' hkl t ht
        rcases (holds_join hne h₀ h₁).mp hg with ⟨rfl, rfl⟩ | ⟨hki, hkj, hold⟩
        · rcases (holds_join hne h₀ h₁).mp hg' with ⟨rfl, -⟩ | ⟨hli, hlj, hold'⟩
          · exact absurd rfl hkl
          · exact hs.apart_joined h₀ h₁ hold' hli hlj t ht
        · rcases (holds_join hne h₀ h₁).mp hg' with ⟨-, rfl⟩ | ⟨-, -, hold'⟩
          · exact fun ht' => hs.apart_joined h₀ h₁ hold hki hkj t ht' ht
          · exact hs.apart k l g g' hold hold' hkl t ht

/-! ### Chains of merges -/

/-- What one merge keeps holds after any chain of merges. -/
theorem kept_of_reaches {kept : Slots → Prop}
    (hstep : ∀ slots slots', Merges neutral steps bound slots slots' → kept slots → kept slots')
    {slots slots' : Slots} (h : Relation.ReflTransGen (Merges neutral steps bound) slots slots')
    (hs : kept slots) : kept slots' := by
  induction h with
  | refl => exact hs
  | tail _ hmerges ih => exact hstep _ _ hmerges ih

theorem sound_of_reaches {targets : List SignalId} {slots slots' : Slots}
    (h : Relation.ReflTransGen (Merges neutral steps bound) slots slots')
    (hs : slots.Sound neutral steps targets) : slots'.Sound neutral steps targets :=
  kept_of_reaches (fun _ _ hmerges => hmerges.sound) h hs

theorem selectorBits_le {slots slots' : Slots}
    (h : Relation.ReflTransGen (Merges neutral steps bound) slots slots') :
    slots'.selectorBits ≤ slots.selectorBits := by
  induction h with
  | refl => exact Nat.le_refl _
  | tail _ hstep ih => exact Nat.le_trans (Nat.le_of_lt hstep.selectorBits_lt) ih

/-! ### The slots before the first merge -/

variable {targets : List SignalId}

/-- The slots before the first merge: every target has a group of its own. -/
def single (neutral : SignalId → Content) (steps : List (SignalId → Content))
    (targets : List SignalId) : Slots :=
  targets.map fun t => some (ofContents [t] neutral steps)

theorem holds_single_iff {i : Nat} {g : SymbolTable} : (single neutral steps targets).Holds i g ↔
    ∃ t, targets[i]? = some t ∧ g = ofContents [t] neutral steps := by
  unfold Holds single
  rw [List.getElem?_map, Option.map_eq_some_iff]
  simp only [Option.some_inj, eq_comm]

theorem live_single : (single neutral steps targets).live = targets.length := by
  unfold live single
  rw [List.map_map]
  simp [Function.comp_def, List.map_const']

theorem sound_single (h : targets.Nodup) : (single neutral steps targets).Sound neutral steps targets := by
  refine ⟨?_, ?_, ?_, ?_⟩
  · intro i g hg
    obtain ⟨t, -, rfl⟩ := holds_single_iff.mp hg
    exact numbers_ofContents [t] neutral steps
  · intro i g hg
    obtain ⟨t, -, rfl⟩ := holds_single_iff.mp hg
    exact List.pairwise_singleton _ _
  · intro i j g₀ g₁ hg₀ hg₁ hij t ht ht'
    obtain ⟨t₀, ht₀, rfl⟩ := holds_single_iff.mp hg₀
    obtain ⟨t₁, ht₁, rfl⟩ := holds_single_iff.mp hg₁
    obtain rfl : t = t₀ := List.mem_singleton.mp ht
    obtain rfl : t = t₁ := List.mem_singleton.mp ht'
    have hi : i < targets.length := (List.getElem?_eq_some_iff.mp ht₀).1
    exact hij ((List.getElem?_inj hi h).mp (ht₀.trans ht₁.symm))
  · intro t
    rw [List.mem_iff_getElem?]
    constructor
    · rintro ⟨i, hi⟩
      exact ⟨i, _, holds_single_iff.mpr ⟨t, hi, rfl⟩, List.mem_singleton.mpr rfl⟩
    · rintro ⟨i, g, hg, ht⟩
      obtain ⟨t', ht', rfl⟩ := holds_single_iff.mp hg
      obtain rfl : t = t' := List.mem_singleton.mp ht
      exact ⟨i, ht'⟩

end Slots

/-! ### Candidates -/

namespace MergeState

open Slots

variable {neutral : SignalId → Content} {steps : List (SignalId → Content)} {bound : Nat}
  {targets : List SignalId} {slots : Slots}

/-- A candidate was scored on the groups that its slots hold. -/
def Scored (slots : Slots) (p : ScoredPair) : Prop :=
  p.first < p.second ∧ ∃ g₀ g₁, slots.Holds p.first g₀ ∧ slots.Holds p.second g₁ ∧
    1 < g₀.count ∧ 1 < g₁.count ∧ MergeCandidate.ofGroups g₀ g₁ = .ok p.candidate

/-- The candidates of all pairs of groups that can be merged, each once. -/
structure Scores (slots : Slots) (l : List ScoredPair) : Prop where
  mem_iff : ∀ p, p ∈ l ↔ Scored slots p
  nodup : l.Nodup

/-- The groups in two slots have one candidate. -/
theorem Scored.eq_of_pair {p q : ScoredPair} (hp : Scored slots p) (hq : Scored slots q)
    (h : p.pair = q.pair) : p = q := by
  obtain ⟨i, j, c⟩ := p
  obtain ⟨i', j', c'⟩ := q
  cases h
  obtain ⟨-, g₀, g₁, h₀, h₁, -, -, hc⟩ := hp
  obtain ⟨-, g₀', g₁', h₀', h₁', -, -, hc'⟩ := hq
  obtain rfl := h₀.unique h₀'
  obtain rfl := h₁.unique h₁'
  obtain rfl : c = c' := Except.ok.inj (hc.symm.trans hc')
  rfl

/-- A candidate stays valid as long as its slots hold the same groups. -/
theorem Scored.of_getElem?_eq {slots' : Slots} {p : ScoredPair} (hp : Scored slots p)
    (hfirst : slots'[p.first]? = slots[p.first]?) (hsecond : slots'[p.second]? = slots[p.second]?) :
    Scored slots' p := by
  obtain ⟨hlt, g₀, g₁, h₀, h₁, hrest⟩ := hp
  exact ⟨hlt, g₀, g₁, hfirst.trans h₀, hsecond.trans h₁, hrest⟩

theorem mergeable_entry_iff {group : Option SymbolTable} {slot : Nat} {e : Nat × SymbolTable} :
    (group.bind fun table => if 1 < table.count then some (slot, table) else none) = some e ↔
      group = some e.2 ∧ slot = e.1 ∧ 1 < e.2.count := by
  obtain ⟨i, g⟩ := e
  cases group with
  | none => simp
  | some table =>
      rw [Option.bind_some, Option.ite_none_right_eq_some, Option.some_inj, Option.some_inj, Prod.mk.injEq]
      constructor
      · rintro ⟨hcount, rfl, rfl⟩
        exact ⟨rfl, rfl, hcount⟩
      · rintro ⟨rfl, rfl, hcount⟩
        exact ⟨hcount, rfl, rfl⟩

theorem mem_mergeable {e : Nat × SymbolTable} :
    e ∈ mergeable slots ↔ slots.Holds e.1 e.2 ∧ 1 < e.2.count := by
  unfold mergeable Holds
  rw [List.mem_filterMap]
  constructor
  · rintro ⟨⟨group, slot⟩, hmem, h⟩
    obtain ⟨rfl, rfl, hcount⟩ := mergeable_entry_iff.mp h
    exact ⟨List.mem_zipIdx_iff_getElem?.mp hmem, hcount⟩
  · rintro ⟨hslot, hcount⟩
    exact ⟨(some e.2, e.1), List.mem_zipIdx_iff_getElem?.mpr hslot,
      mergeable_entry_iff.mpr ⟨rfl, rfl, hcount⟩⟩

theorem mergeable_ascending : (mergeable slots).Pairwise fun a b => a.1 < b.1 := by
  have hidx : slots.zipIdx.Pairwise fun a b => a.2 < b.2 := by
    rw [List.pairwise_iff_getElem]
    intro i j hi hj hij
    simpa using hij
  unfold mergeable
  rw [List.pairwise_filterMap]
  refine hidx.imp ?_
  rintro ⟨group, i⟩ ⟨group', j⟩ hij e he e' he'
  obtain ⟨-, rfl, -⟩ := mergeable_entry_iff.mp he
  obtain ⟨-, rfl, -⟩ := mergeable_entry_iff.mp he'
  exact hij

theorem mergeable_nodup : (mergeable slots).Nodup :=
  mergeable_ascending.imp fun hlt heq => Nat.ne_of_lt hlt (congrArg Prod.fst heq)

/-- The candidate of two groups that number the same contents. -/
def candidateOf (neutral : SignalId → Content) (steps : List (SignalId → Content))
    (e : (Nat × SymbolTable) × (Nat × SymbolTable)) : ScoredPair :=
  let joint := MergeCandidate.jointOf e.1.2 e.2.2 neutral steps
  ⟨e.1.1, e.2.1, joint, e.1.2.width + e.2.2.width - joint.width⟩

section
variable (hs : slots.Sound neutral steps targets)
include hs

theorem ofGroups_candidateOf {e : (Nat × SymbolTable) × (Nat × SymbolTable)}
    (he : e ∈ pairsOf (mergeable slots)) :
    MergeCandidate.ofGroups e.1.2 e.2.2 = .ok (candidateOf neutral steps e).candidate := by
  obtain ⟨ha, hb, -⟩ := mem_pairsOf mergeable_ascending he
  obtain ⟨h₀, hc₀⟩ := mem_mergeable.mp ha
  obtain ⟨h₁, hc₁⟩ := mem_mergeable.mp hb
  exact MergeCandidate.ofGroups_ok (hs.numbers _ _ h₀) (hs.numbers _ _ h₁) hc₀ hc₁

theorem scorePair_eq_ok {e : (Nat × SymbolTable) × (Nat × SymbolTable)}
    (he : e ∈ pairsOf (mergeable slots)) : scorePair e.1 e.2 = .ok (candidateOf neutral steps e) := by
  unfold scorePair
  rw [ofGroups_candidateOf hs he]
  rfl

/-- The candidates of all pairs of groups that can be merged. -/
theorem scores_candidateOf : Scores slots ((pairsOf (mergeable slots)).map (candidateOf neutral steps)) := by
  have hvalid : ∀ e ∈ pairsOf (mergeable slots), Scored slots (candidateOf neutral steps e) := by
    intro e he
    obtain ⟨ha, hb, hlt⟩ := mem_pairsOf mergeable_ascending he
    obtain ⟨h₀, hc₀⟩ := mem_mergeable.mp ha
    obtain ⟨h₁, hc₁⟩ := mem_mergeable.mp hb
    exact ⟨hlt, e.1.2, e.2.2, h₀, h₁, hc₀, hc₁, ofGroups_candidateOf hs he⟩
  refine ⟨fun p => ?_, ?_⟩
  · rw [List.mem_map]
    constructor
    · rintro ⟨e, he, rfl⟩
      exact hvalid e he
    · intro hp
      obtain ⟨hlt, g₀, g₁, h₀, h₁, hc₀, hc₁, -⟩ := id hp
      have he : ((p.first, g₀), (p.second, g₁)) ∈ pairsOf (mergeable slots) :=
        mem_pairsOf_of_lt mergeable_ascending (mem_mergeable.mpr ⟨h₀, hc₀⟩) (mem_mergeable.mpr ⟨h₁, hc₁⟩) hlt
      exact ⟨_, he, (hvalid _ he).eq_of_pair hp rfl⟩
  · refine List.pairwise_map.mpr ((pairsOf_nodup mergeable_nodup).imp_of_mem fun {e e'} he he' hne heq => ?_)
    obtain ⟨ha, hb, -⟩ := mem_pairsOf mergeable_ascending he
    obtain ⟨ha', hb', -⟩ := mem_pairsOf mergeable_ascending he'
    have hfirst : e.1.1 = e'.1.1 := congrArg ScoredPair.first heq
    have hsecond : e.2.1 = e'.2.1 := congrArg ScoredPair.second heq
    refine hne (Prod.ext (Prod.ext hfirst ?_) (Prod.ext hsecond ?_))
    · exact (mem_mergeable.mp ha).1.unique (hfirst ▸ (mem_mergeable.mp ha').1)
    · exact (mem_mergeable.mp hb).1.unique (hsecond ▸ (mem_mergeable.mp hb').1)

end

/-! ### Accepted merges -/

theorem touches_eq_false_iff {used : List Nat} {p : ScoredPair} :
    p.touches used = false ↔ p.first ∉ used ∧ p.second ∉ used := by
  simp [ScoredPair.touches]

theorem touches_mono {used used' : List Nat} (hsub : used ⊆ used') {p : ScoredPair}
    (h : p.touches used = true) : p.touches used' = true := by
  simp only [ScoredPair.touches, Bool.or_eq_true, List.contains_iff_mem] at h ⊢
  exact h.imp (@hsub _) (@hsub _)

theorem slotsOf_cons (p : ScoredPair) (pairs : List (Nat × Nat)) :
    slotsOf (p.pair :: pairs) = p.first :: p.second :: slotsOf pairs := rfl

theorem mem_slotsOf {pairs : List (Nat × Nat)} {k : Nat} :
    k ∈ slotsOf pairs ↔ ∃ pair ∈ pairs, k = pair.1 ∨ k = pair.2 := by
  simp [slotsOf, List.mem_flatMap]

theorem mem_accept {used : List Nat} {l : List ScoredPair} {pair : Nat × Nat}
    (h : pair ∈ accept used l) : ∃ p ∈ l, p.pair = pair ∧ p.touches used = false := by
  induction l generalizing used with
  | nil => cases h
  | cons q l ih =>
      rw [accept] at h
      split at h
      · obtain ⟨p, hp, hpair, huse⟩ := ih h
        exact ⟨p, List.mem_cons_of_mem q hp, hpair, huse⟩
      · next hq =>
        rcases List.mem_cons.mp h with rfl | h
        · exact ⟨q, List.mem_cons_self, rfl, Bool.eq_false_iff.mpr hq⟩
        · obtain ⟨p, hp, hpair, huse⟩ := ih h
          refine ⟨p, List.mem_cons_of_mem q hp, hpair, ?_⟩
          rw [touches_eq_false_iff] at huse ⊢
          simp only [List.mem_cons, not_or] at huse
          exact ⟨huse.1.2.2, huse.2.2.2⟩

/-- Every slot is used once. -/
theorem slotsOf_accept_nodup (used : List Nat) {l : List ScoredPair} (hl : ∀ p ∈ l, p.first ≠ p.second) :
    (slotsOf (accept used l)).Nodup := by
  induction l generalizing used with
  | nil => exact List.nodup_nil
  | cons p l ih =>
      obtain ⟨hp, hl⟩ := List.forall_mem_cons.mp hl
      rw [accept]
      split
      · exact ih used hl
      · have hfree : ∀ k ∈ slotsOf (accept (p.first :: p.second :: used) l), k ≠ p.first ∧ k ≠ p.second := by
          intro k hk
          obtain ⟨pair, hpair, hk⟩ := mem_slotsOf.mp hk
          obtain ⟨q, -, rfl, huse⟩ := mem_accept hpair
          rw [touches_eq_false_iff] at huse
          simp only [List.mem_cons, not_or] at huse
          rcases hk with rfl | rfl
          · exact ⟨huse.1.1, huse.1.2.1⟩
          · exact ⟨huse.2.1, huse.2.2.1⟩
        rw [slotsOf_cons, List.nodup_cons, List.nodup_cons, List.mem_cons, not_or]
        exact ⟨⟨hp, fun hk => (hfree _ hk).1 rfl⟩, fun hk => (hfree _ hk).2 rfl, ih _ hl⟩

/-- A candidate that is not accepted touches a used slot. -/
theorem touches_accept (used : List Nat) {l : List ScoredPair} {p : ScoredPair} (hp : p ∈ l) :
    p.touches (slotsOf (accept used l) ++ used) = true := by
  induction l generalizing used with
  | nil => cases hp
  | cons q l ih =>
      rw [accept]
      split
      · next hq =>
        rcases List.mem_cons.mp hp with rfl | hp
        · exact touches_mono (List.subset_append_right _ _) hq
        · exact ih used hp
      · rcases List.mem_cons.mp hp with rfl | hp
        · simp [slotsOf_cons, ScoredPair.touches]
        · refine touches_mono ?_ (ih (q.first :: q.second :: used) hp)
          rw [slotsOf_cons]
          grind

theorem touches_accepted {l : List ScoredPair} {p : ScoredPair} (hp : p ∈ l)
    (had : p.admissible bound = true) : p.touches (slotsOf (accepted bound l)) = true := by
  have hsorted : p ∈ sortBy ScoredPair.better (l.filter (ScoredPair.admissible bound)) :=
    mem_sortBy.mpr (List.mem_filter.mpr ⟨hp, had⟩)
  have htouches := touches_accept [] hsorted
  rwa [List.append_nil] at htouches

theorem mem_accepted {l : List ScoredPair} {pair : Nat × Nat} (h : pair ∈ accepted bound l) :
    ∃ p ∈ l, p.pair = pair ∧ p.admissible bound = true := by
  obtain ⟨p, hp, hpair, -⟩ := mem_accept h
  obtain ⟨hmem, had⟩ := List.mem_filter.mp (mem_sortBy.mp hp)
  exact ⟨p, hmem, hpair, had⟩

theorem Scores.slotsOf_accepted_nodup {l : List ScoredPair} (hl : Scores slots l) (bound : Nat) :
    (slotsOf (accepted bound l)).Nodup := by
  refine slotsOf_accept_nodup [] fun p hp => Nat.ne_of_lt ?_
  exact ((hl.mem_iff p).mp (List.mem_filter.mp (mem_sortBy.mp hp)).1).1

/-- `a` is ranked before `b`, or ties with it. -/
def RankedBefore (a b : ScoredPair) : Prop :=
  b.candidate.score < a.candidate.score ∨ a.candidate.score = b.candidate.score ∧
    (a.first < b.first ∨ a.first = b.first ∧ a.second ≤ b.second)

theorem rankedBefore_of_better {a b : ScoredPair} (h : a.better b = true) : RankedBefore a b := by
  simp only [ScoredPair.better, Bool.or_eq_true, Bool.and_eq_true, decide_eq_true_eq, beq_iff_eq] at h
  unfold RankedBefore
  omega

theorem rankedBefore_of_not_better {a b : ScoredPair} (h : a.better b = false) : RankedBefore b a := by
  simp only [ScoredPair.better, Bool.or_eq_false_iff, Bool.and_eq_false_iff, decide_eq_false_iff_not,
    beq_eq_false_iff_ne] at h
  unfold RankedBefore
  omega

theorem rankedBefore_trans (a b c : ScoredPair) (hab : RankedBefore a b) (hbc : RankedBefore b c) :
    RankedBefore a c := by
  unfold RankedBefore at hab hbc ⊢
  omega

/-- Which merges are accepted does not depend on the order in which the candidates are listed: two
candidates tie only if they are for the same slots. -/
theorem Scores.accepted_eq {l l' : List ScoredPair} (hl : Scores slots l) (hl' : Scores slots l') :
    accepted bound l = accepted bound l' := by
  have hperm : l.Perm l' := (List.perm_ext_iff_of_nodup hl.nodup hl'.nodup).mpr fun p =>
    (hl.mem_iff p).trans (hl'.mem_iff p).symm
  have hantisymm : ∀ a ∈ l.filter (ScoredPair.admissible bound), ∀ b ∈ l.filter (ScoredPair.admissible bound),
      RankedBefore a b → RankedBefore b a → a = b := by
    intro a ha b hb hab hba
    have hslots : a.first = b.first ∧ a.second = b.second := by
      unfold RankedBefore at hab hba
      omega
    exact ((hl.mem_iff a).mp (List.mem_filter.mp ha).1).eq_of_pair
      ((hl.mem_iff b).mp (List.mem_filter.mp hb).1) (Prod.ext hslots.1 hslots.2)
  unfold accepted
  rw [sortBy_eq_of_perm rankedBefore_trans (fun _ _ => rankedBefore_of_better)
    (fun _ _ => rankedBefore_of_not_better) (hperm.filter _) hantisymm]

end MergeState

end ControlStore
