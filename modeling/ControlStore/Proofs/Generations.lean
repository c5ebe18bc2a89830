import ControlStore.Proofs.Merging

/-! # Merging without a record

The plain procedure scores all pairs anew in every generation, and merges the groups of the accepted
pairs.  It says which groups are left, and after how many generations (`Slots.Generations`), without any
record of candidates.  From sound slots every generation succeeds (`Slots.generation_ok`), and it always
comes to an end by a chain of merges (`Slots.exists_generations`). -/

namespace ControlStore

open SymbolTable

namespace Slots

open MergeState Relation

variable {neutral : SignalId → Content} {steps : List (SignalId → Content)} {bound : Nat}
  {targets : List SignalId} {slots : Slots}

/-- Scores every pair of groups that can be merged. -/
def scores (slots : Slots) : Checked (List ScoredPair) :=
  (pairsOf (mergeable slots)).mapM fun (a, b) => scorePair a b

/-- The group in a slot. -/
def group (slots : Slots) (slot : Nat) : Checked SymbolTable := do
  require (← fetch slots slot) .deadGroup

/-- Merges the groups in two slots. -/
def mergeAt (slots : Slots) (pair : Nat × Nat) : Checked Slots := do
  let g₀ ← slots.group pair.1
  let g₁ ← slots.group pair.2
  let candidate ← MergeCandidate.ofGroups g₀ g₁
  return slots.join pair.1 pair.2 (← candidate.realize g₀ g₁)

/-- The slots after one generation, or `none` if no merge is left to accept. -/
def generation (bound : Nat) (slots : Slots) : Checked (Option Slots) := do
  match accepted bound (← slots.scores) with
  | [] => return none
  | pairs => return some (← pairs.foldlM mergeAt slots)

/-- Merging ends after `n` generations with the slots `slots'`. -/
inductive Generations (bound : Nat) : Slots → Nat → Slots → Prop
  | stop {slots : Slots} (h : slots.generation bound = .ok none) : Generations bound slots 0 slots
  | next {slots slots₁ slots' : Slots} {n : Nat} (h : slots.generation bound = .ok (some slots₁))
      (rest : Generations bound slots₁ n slots') : Generations bound slots (n + 1) slots'

/-- There is one outcome. -/
theorem Generations.unique {slots' slots'' : Slots} {n n' : Nat} (h : Generations bound slots n slots')
    (h' : Generations bound slots n' slots'') : n = n' ∧ slots' = slots'' := by
  induction h generalizing n' with
  | stop h =>
      cases h' with
      | stop _ => exact ⟨rfl, rfl⟩
      | next h₁ _ => cases h.symm.trans h₁
  | next h _ ih =>
      cases h' with
      | stop h₁ => cases h.symm.trans h₁
      | next h₁ rest =>
          cases h.symm.trans h₁
          obtain ⟨rfl, rfl⟩ := ih rest
          exact ⟨rfl, rfl⟩

theorem group_eq_ok {i : Nat} {g : SymbolTable} (h : slots.Holds i g) : slots.group i = .ok g := by
  unfold group
  rw [fetch_eq_ok_iff.mpr h]
  rfl

/-- The targets of the groups. -/
def members (slots : Slots) : List (Option (List SignalId)) := slots.map (Option.map SymbolTable.targets)

/-- The targets of the group in a slot, none if the slot is empty. -/
def membersAt (members : List (Option (List SignalId))) (slot : Nat) : List SignalId :=
  members[slot]?.join.getD []

/-- The targets of the groups after the groups in two slots were joined. -/
def joinMembers (members : List (Option (List SignalId))) (pair : Nat × Nat) :
    List (Option (List SignalId)) :=
  (members.set pair.2 none).set pair.1 (some (membersAt members pair.1 ++ membersAt members pair.2))

theorem members_join {i j : Nat} {g₀ g₁ g : SymbolTable} (h₀ : slots.Holds i g₀) (h₁ : slots.Holds j g₁)
    (hg : g.targets = g₀.targets ++ g₁.targets) :
    (slots.join i j g).members = joinMembers slots.members (i, j) := by
  have hat : ∀ {k : Nat} {g' : SymbolTable}, slots.Holds k g' → membersAt slots.members k = g'.targets := by
    intro k g' h
    unfold membersAt members
    rw [List.getElem?_map, h]
    rfl
  unfold joinMembers
  rw [hat h₀, hat h₁, ← hg]
  unfold members join
  rw [List.map_set, List.map_set]
  rfl

theorem getElem?_join {i j k : Nat} {g : SymbolTable} (hi : k ≠ i) (hj : k ≠ j) :
    (slots.join i j g)[k]? = slots[k]? := by
  unfold join
  rw [List.getElem?_set_ne (Ne.symm hi), List.getElem?_set_ne (Ne.symm hj)]

/-- A merge does not touch the candidates of later pairs. -/
theorem scored_join {p q : ScoredPair} {pairs : List (Nat × Nat)} (hsep : (slotsOf (p.pair :: pairs)).Nodup)
    (hmem : q.pair ∈ pairs) (hq : Scored slots q) (g : SymbolTable) :
    Scored (slots.join p.first p.second g) q := by
  rw [slotsOf_cons, List.nodup_cons, List.nodup_cons, List.mem_cons, not_or] at hsep
  have hframe : ∀ k, k = q.first ∨ k = q.second → (slots.join p.first p.second g)[k]? = slots[k]? := by
    intro k hk
    have hk : k ∈ slotsOf pairs := mem_slotsOf.mpr ⟨q.pair, hmem, hk⟩
    exact getElem?_join (fun h => hsep.1.2 (h ▸ hk)) (fun h => hsep.2.1 (h ▸ hk))
  exact hq.of_getElem?_eq (hframe _ (.inl rfl)) (hframe _ (.inr rfl))

section
variable (hs : slots.Sound neutral steps targets)
include hs

theorem scores_eq_ok : slots.scores = .ok ((pairsOf (mergeable slots)).map (candidateOf neutral steps)) :=
  mapM_eq_ok_map fun _ he => scorePair_eq_ok hs he

/-- The merge of a candidate saves the bits of its score, and stays within the bound if the candidate is
admissible. -/
theorem merges_of_scored {p : ScoredPair} (hp : Scored slots p) (had : p.admissible bound = true) :
    ∃ g₀ g₁, slots.Holds p.first g₀ ∧ slots.Holds p.second g₁ ∧
      MergeCandidate.ofGroups g₀ g₁ = .ok p.candidate ∧
      p.candidate.realize g₀ g₁ = .ok (ofContents (g₀.targets ++ g₁.targets) neutral steps) ∧
      (ofContents (g₀.targets ++ g₁.targets) neutral steps).width = p.candidate.width ∧
      p.candidate.score + p.candidate.width = g₀.width + g₁.width ∧
      Merges neutral steps bound slots
        (slots.join p.first p.second (ofContents (g₀.targets ++ g₁.targets) neutral steps)) := by
  obtain ⟨hlt, g₀, g₁, h₀, h₁, hc₀, hc₁, hscored⟩ := hp
  have hn₀ := hs.numbers _ g₀ h₀
  have hn₁ := hs.numbers _ g₁ h₁
  obtain ⟨hjoint, hwidth, hscore⟩ := MergeCandidate.ofGroups_spec hn₀ hn₁ hc₀ hc₁ hscored
  have hreal := MergeCandidate.realize_ok hn₀ hn₁ hjoint (hs.apart _ _ g₀ g₁ h₀ h₁ (Nat.ne_of_lt hlt))
  unfold ScoredPair.admissible at had
  rw [Bool.and_eq_true, decide_eq_true_iff, decide_eq_true_iff] at had
  exact ⟨g₀, g₁, h₀, h₁, hscored, hreal, hwidth, hscore,
    .merge hlt h₀ h₁ hc₀ hc₁ (by omega) (by omega)⟩

theorem mergeAt_ok {p : ScoredPair} (hp : Scored slots p) (had : p.admissible bound = true) :
    ∃ g, slots.mergeAt p.pair = .ok (slots.join p.first p.second g) ∧
      Merges neutral steps bound slots (slots.join p.first p.second g) ∧
      (slots.join p.first p.second g).selectorBits + p.candidate.score = slots.selectorBits ∧
      (slots.join p.first p.second g).members = joinMembers slots.members p.pair := by
  obtain ⟨g₀, g₁, h₀, h₁, hscored, hreal, hwidth, hscore, hmerges⟩ := merges_of_scored hs hp had
  have hbits := selectorBits_join (g := ofContents (g₀.targets ++ g₁.targets) neutral steps)
    (Nat.ne_of_lt hp.1) h₀ h₁
  refine ⟨_, ?_, hmerges, by omega, members_join h₀ h₁ rfl⟩
  have hg₀ : slots.group p.pair.1 = .ok g₀ := group_eq_ok h₀
  have hg₁ : slots.group p.pair.2 = .ok g₁ := group_eq_ok h₁
  unfold mergeAt
  rw [hg₀, ok_bind, hg₁, ok_bind, hscored, ok_bind, hreal]
  rfl

end

/-- What merging the pairs `pairs` one after the other does to the slots. -/
structure Joins (neutral : SignalId → Content) (steps : List (SignalId → Content)) (bound : Nat)
    (pairs : List (Nat × Nat)) (slots slots' : Slots) : Prop where
  reaches : ReflTransGen (Merges neutral steps bound) slots slots'
  progress : pairs ≠ [] → TransGen (Merges neutral steps bound) slots slots'
  frame : ∀ k ∉ slotsOf pairs, slots'[k]? = slots[k]?
  members : slots'.members = pairs.foldl joinMembers slots.members

/-- The accepted merges are carried out one after the other. -/
theorem foldlM_mergeAt {pairs : List (Nat × Nat)} {slots : Slots} (hs : slots.Sound neutral steps targets)
    (hsep : (slotsOf pairs).Nodup)
    (hpairs : ∀ pair ∈ pairs, ∃ p, p.pair = pair ∧ Scored slots p ∧ p.admissible bound = true) :
    ∃ slots', pairs.foldlM mergeAt slots = .ok slots' ∧ Joins neutral steps bound pairs slots slots' := by
  induction pairs generalizing slots with
  | nil => exact ⟨slots, rfl, .refl, fun h => absurd rfl h, fun _ _ => rfl, rfl⟩
  | cons pair pairs ih =>
      obtain ⟨⟨p, rfl, hp, had⟩, hrest⟩ := List.forall_mem_cons.mp hpairs
      obtain ⟨g, hmerge, hmerges, -, hmembers⟩ := mergeAt_ok hs hp had
      have hrest' : ∀ pair ∈ pairs, ∃ q, q.pair = pair ∧ Scored (slots.join p.first p.second g) q ∧
          q.admissible bound = true := by
        intro pair hpair
        obtain ⟨q, rfl, hq, hadq⟩ := hrest pair hpair
        exact ⟨q, rfl, scored_join hsep hpair hq g, hadq⟩
      have hsep' : (slotsOf pairs).Nodup := hsep.of_cons.of_cons
      obtain ⟨slots', hfold, h⟩ := ih (hmerges.sound hs) hsep' hrest'
      refine ⟨slots', ?_, .head hmerges h.reaches, fun _ => .head' hmerges h.reaches, fun k hk => ?_, ?_⟩
      · rw [List.foldlM_cons, hmerge, ok_bind, hfold]
      · rw [slotsOf_cons, List.mem_cons, List.mem_cons, not_or, not_or] at hk
        rw [h.frame k hk.2.2, getElem?_join hk.1 hk.2.1]
      · rw [h.members, hmembers, List.foldl_cons]

/-- The pairs that a generation merges. -/
def due (neutral : SignalId → Content) (steps : List (SignalId → Content)) (bound : Nat) (slots : Slots) :
    List (Nat × Nat) :=
  accepted bound ((pairsOf (mergeable slots)).map (candidateOf neutral steps))

/-- A generation of the plain procedure succeeds.  There is nothing to merge, or it merges all pairs
that are due. -/
theorem generation_ok (hs : slots.Sound neutral steps targets) (bound : Nat) :
    (slots.due neutral steps bound = [] ∧ slots.generation bound = .ok none) ∨
      ∃ slots', slots.due neutral steps bound ≠ [] ∧ slots.generation bound = .ok (some slots') ∧
        Joins neutral steps bound (slots.due neutral steps bound) slots slots' := by
  have hscores := scores_candidateOf hs
  have hpairs : ∀ pair ∈ slots.due neutral steps bound,
      ∃ p, p.pair = pair ∧ Scored slots p ∧ p.admissible bound = true := by
    intro pair hpair
    obtain ⟨p, hp, hpair, had⟩ := mem_accepted hpair
    exact ⟨p, hpair, (hscores.mem_iff p).mp hp, had⟩
  obtain ⟨slots', hfold, hjoins⟩ := foldlM_mergeAt hs (hscores.slotsOf_accepted_nodup bound) hpairs
  unfold generation
  rw [scores_eq_ok hs, ok_bind]
  unfold due
  split
  · next hnil => exact .inl ⟨hnil, rfl⟩
  · next hne =>
    rw [hfold]
    exact .inr ⟨slots', hne, rfl, hjoins⟩

theorem live_lt_of_transGen {slots slots' : Slots} (h : TransGen (Merges neutral steps bound) slots slots') :
    slots'.live < slots.live := by
  induction h with
  | single hstep => exact Nat.lt_of_succ_le (Nat.le_of_eq hstep.live_eq)
  | tail _ hstep ih =>
      have := hstep.live_eq
      omega

/-- The plain procedure ends, by a chain of merges, after no more generations than there are groups. -/
theorem exists_generations (bound : Nat) {slots : Slots} (hs : slots.Sound neutral steps targets) :
    ∃ n slots', Generations bound slots n slots' ∧ n ≤ slots.live ∧
      ReflTransGen (Merges neutral steps bound) slots slots' := by
  rcases generation_ok hs bound with ⟨-, hstop⟩ | ⟨slots₁, hdue, hnext, hjoins⟩
  · exact ⟨0, slots, .stop hstop, Nat.zero_le _, .refl⟩
  · have hlt := live_lt_of_transGen (hjoins.progress hdue)
    obtain ⟨n, slots', hrest, hle, hreach⟩ := exists_generations bound (sound_of_reaches hjoins.reaches hs)
    exact ⟨n + 1, slots', .next hnext hrest, by omega, hjoins.reaches.trans hreach⟩
termination_by slots.live

end Slots

end ControlStore
