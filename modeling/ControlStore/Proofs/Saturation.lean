import ControlStore.Proofs.Records

/-! # What greedy merging saves, and where it stops

A generation lowers the selector bits of the groups by the sum of the scores of the merges it accepts
(`Slots.selectorBits_foldlM_mergeAt`), and each of them saves a bit.  So the bits and the groups that are
left pay for the generations so far, one step at a time (`MergeState.spends_of_step`) and over a whole run
(`MergeState.spends_of_reaches`).

Merges are accepted from the top of the ranking, so a merge that is refused shares a slot with a better one
that is accepted (`MergeState.exists_chosen`).  If none is accepted, none is admissible: merging ends in a
state in which no two groups can share a selector with a saving (`MergeState.saturated_of_step`). -/

namespace ControlStore

open SymbolTable Slots Relation

namespace Slots

open MergeState

variable {neutral : SignalId → Content} {steps : List (SignalId → Content)} {bound : Nat}
  {targets : List SignalId}

/-- Accepted merges save the sum of their scores. -/
theorem selectorBits_foldlM_mergeAt {chosen : List ScoredPair} {slots slots' : Slots}
    (hs : slots.Sound neutral steps targets) (hsep : (slotsOf (chosen.map ScoredPair.pair)).Nodup)
    (hchosen : ∀ p ∈ chosen, Scored slots p ∧ p.admissible bound = true)
    (h : (chosen.map ScoredPair.pair).foldlM mergeAt slots = .ok slots') :
    slots'.selectorBits + (chosen.map fun p => p.candidate.score).sum = slots.selectorBits := by
  induction chosen generalizing slots with
  | nil =>
      cases h
      rfl
  | cons p chosen ih =>
      obtain ⟨⟨hp, had⟩, hrest⟩ := List.forall_mem_cons.mp hchosen
      obtain ⟨g, hmerge, hmerges, hsaved, -⟩ := mergeAt_ok hs hp had
      obtain ⟨slots₁, hfirst, hfold⟩ := foldlM_cons_eq_ok_iff.mp h
      obtain rfl := Except.ok.inj (hmerge.symm.trans hfirst)
      have hrest' : ∀ q ∈ chosen, Scored (slots.join p.first p.second g) q ∧ q.admissible bound = true := by
        intro q hq
        obtain ⟨hscored, hadq⟩ := hrest q hq
        exact ⟨scored_join hsep (List.mem_map_of_mem hq) hscored g, hadq⟩
      have := ih (hmerges.sound hs) hsep.of_cons.of_cons hrest' hfold
      rw [List.map_cons, List.sum_cons]
      omega

theorem foldlM_due {slots slots' : Slots} (hs : slots.Sound neutral steps targets)
    (h : slots.generation bound = .ok (some slots')) :
    slots.due neutral steps bound ≠ [] ∧ (slots.due neutral steps bound).foldlM mergeAt slots = .ok slots' := by
  unfold generation at h
  rw [scores_eq_ok hs, ok_bind] at h
  unfold due
  split at h
  · cases h
  · next hne =>
    obtain ⟨slots₁, hfold, heq⟩ := bind_eq_ok_iff.mp h
    cases heq
    exact ⟨hne, hfold⟩

theorem live_pos {slots : Slots} {i : Nat} {g : SymbolTable} (h : slots.Holds i g) : 0 < slots.live :=
  List.sum_pos_iff_exists_pos_nat.mpr
    ⟨1, List.mem_map.mpr ⟨some g, List.mem_of_getElem? h, rfl⟩, Nat.one_pos⟩

/-- No two groups that can be merged have a joint encoding that saves a bit and fits the bound. -/
def Saturated (bound : Nat) (slots : Slots) : Prop :=
  ∀ i j g₀ g₁, i ≠ j → slots.Holds i g₀ → slots.Holds j g₁ → 1 < g₀.count → 1 < g₁.count →
    ∃ c, MergeCandidate.ofGroups g₀ g₁ = .ok c ∧ ¬ (c.width < g₀.width + g₁.width ∧ c.width ≤ bound)

end Slots

namespace MergeState

variable {neutral : SignalId → Content} {steps : List (SignalId → Content)} {bound : Nat}
  {targets : List SignalId} {s t next : MergeState}

/-! ### Accepted and refused merges -/

/-- `p` comes before `q` in the order of the ranking. -/
def Precedes (p q : ScoredPair) : Prop :=
  q.candidate.score < p.candidate.score ∨ p.candidate.score = q.candidate.score ∧
    (p.first < q.first ∨ p.first = q.first ∧ p.second < q.second)

/-- Some slot belongs to both pairs. -/
def SharesSlot (p q : ScoredPair) : Prop :=
  p.first = q.first ∨ p.first = q.second ∨ p.second = q.first ∨ p.second = q.second

theorem RankedBefore.precedes {p q : ScoredPair} (h : RankedBefore p q) (hne : p.pair ≠ q.pair) :
    Precedes p q := by
  have hslots : ¬ (p.first = q.first ∧ p.second = q.second) := fun h => hne (Prod.ext h.1 h.2)
  unfold RankedBefore at h
  unfold Precedes
  omega

theorem touches_cons_cons {p q : ScoredPair} {used : List Nat}
    (h : p.touches (q.first :: q.second :: used) = true) : p.touches used = true ∨ SharesSlot q p := by
  simp only [ScoredPair.touches, Bool.or_eq_true, List.contains_iff_mem, List.mem_cons] at h ⊢
  unfold SharesSlot
  grind

/-- What is accepted from a ranked list, and why the rest is refused. -/
theorem exists_chosen {l : List ScoredPair} (hsorted : l.Pairwise RankedBefore) (used : List Nat) :
    ∃ chosen : List ScoredPair, chosen ⊆ l ∧ chosen.map ScoredPair.pair = accept used l ∧
      ∀ p ∈ l, p ∈ chosen ∨ p.touches used = true ∨ ∃ q ∈ chosen, RankedBefore q p ∧ SharesSlot q p := by
  induction l generalizing used with
  | nil => exact ⟨[], List.Subset.refl _, rfl, fun p hp => nomatch hp⟩
  | cons q l ih =>
      obtain ⟨hq, hsorted⟩ := List.pairwise_cons.mp hsorted
      rw [accept]
      split
      · next hused =>
        obtain ⟨chosen, hsub, hpairs, hrest⟩ := ih hsorted used
        refine ⟨chosen, List.subset_cons_of_subset q hsub, hpairs, ?_⟩
        exact List.forall_mem_cons.mpr ⟨.inr (.inl hused), hrest⟩
      · obtain ⟨chosen, hsub, hpairs, hrest⟩ := ih hsorted (q.first :: q.second :: used)
        refine ⟨q :: chosen, List.cons_subset_cons q hsub, by rw [List.map_cons, hpairs], ?_⟩
        refine List.forall_mem_cons.mpr ⟨.inl List.mem_cons_self, fun p hp => ?_⟩
        rcases hrest p hp with hmem | htouches | ⟨q', hq', hbefore⟩
        · exact .inl (List.mem_cons_of_mem q hmem)
        · refine .inr ((touches_cons_cons htouches).imp_right fun hshares => ?_)
          exact ⟨q, List.mem_cons_self, hq p hp, hshares⟩
        · exact .inr (.inr ⟨q', List.mem_cons_of_mem q hq', hbefore⟩)

/-- The generation that starts with `s` scores the candidates `record`, and merges `chosen` of them.  An
admissible candidate is refused only if it shares a slot with a better one that is merged.  What the
selectors save is the sum of the scores. -/
structure Chooses (bound : Nat) (s : MergeState) (record chosen : List ScoredPair) : Prop where
  complete : s.scoreAll = .ok record
  candidates : ∀ p, p ∈ record ↔ Scored s.slots p
  accepts : chosen.map ScoredPair.pair = accepted bound record
  admissible : ∀ p ∈ chosen, p ∈ record ∧ 0 < p.candidate.score ∧ p.candidate.width ≤ bound
  refuses : ∀ p ∈ record, 0 < p.candidate.score → p.candidate.width ≤ bound → p ∉ chosen →
    ∃ q ∈ chosen, Precedes q p ∧ SharesSlot q p
  saves : ∀ next, s.step bound = .ok (some next) → next.generation = s.generation + 1 ∧
    next.slots.selectorBits + (chosen.map fun p => p.candidate.score).sum = s.slots.selectorBits ∧
    1 ≤ (chosen.map fun p => p.candidate.score).sum

theorem admissible_iff {p : ScoredPair} :
    p.admissible bound = true ↔ 0 < p.candidate.score ∧ p.candidate.width ≤ bound := by
  simp [ScoredPair.admissible]

theorem generation_of_step (hs : s.slots.Sound neutral steps targets) (hr : s.Recorded bound)
    (h : s.step bound = .ok (some next)) : s.slots.generation bound = .ok (some next.slots) := by
  obtain ⟨o, hstep, hplain, -⟩ := step_ok hs hr
  cases hstep.symm.trans h
  exact hplain

theorem exists_chooses (hs : s.slots.Sound neutral steps targets) (hr : s.Recorded bound) :
    ∃ record chosen, Chooses bound s record chosen := by
  obtain ⟨record, hscore, hrecord⟩ := scoreAll_ok hs hr
  have hranked : (sortBy ScoredPair.better (record.filter (ScoredPair.admissible bound))).Pairwise RankedBefore :=
    pairwise_sortBy rankedBefore_trans (fun _ _ => rankedBefore_of_better)
      (fun _ _ => rankedBefore_of_not_better) _
  obtain ⟨chosen, hsub, hpairs, hrest⟩ := exists_chosen hranked []
  have hchosen : ∀ p ∈ chosen, p ∈ record ∧ p.admissible bound = true := fun p hp =>
    List.mem_filter.mp (mem_sortBy.mp (hsub hp))
  have hscored : ∀ p ∈ chosen, Scored s.slots p ∧ p.admissible bound = true := fun p hp =>
    (hchosen p hp).imp_left (hrecord.mem_iff p).mp
  have hdue : chosen.map ScoredPair.pair = s.slots.due neutral steps bound :=
    hpairs.trans (hrecord.accepted_eq (scores_candidateOf hs))
  refine ⟨record, chosen, hscore, hrecord.mem_iff, hpairs, fun p hp => ?_, fun p hp hscore hwidth hno => ?_,
    fun next hnext => ?_⟩
  · exact (hchosen p hp).imp_right admissible_iff.mp
  · have hfilter := List.mem_filter.mpr ⟨hp, admissible_iff.mpr ⟨hscore, hwidth⟩⟩
    rcases hrest p (mem_sortBy.mpr hfilter) with hmem | htouches | ⟨q, hq, hbefore, hshares⟩
    · exact absurd hmem hno
    · cases htouches
    · refine ⟨q, hq, hbefore.precedes fun hpair => hno ?_, hshares⟩
      rwa [← (hscored q hq).1.eq_of_pair ((hrecord.mem_iff p).mp hp) hpair]
  · obtain ⟨hne, hfold⟩ := foldlM_due hs (generation_of_step hs hr hnext)
    rw [← hdue] at hne hfold
    have hsep : (slotsOf (chosen.map ScoredPair.pair)).Nodup := hpairs ▸ hrecord.slotsOf_accepted_nodup bound
    refine ⟨(advances_of_step hs hr hnext).generation, selectorBits_foldlM_mergeAt hs hsep hscored hfold, ?_⟩
    obtain ⟨p, hp⟩ := List.exists_mem_of_ne_nil chosen fun h => hne (h ▸ rfl)
    have hpos := (admissible_iff.mp (hchosen p hp).2).1
    exact List.sum_pos_iff_exists_pos_nat.mpr ⟨_, List.mem_map_of_mem hp, hpos⟩

/-! ### What the generations cost -/

theorem spends_of_step (hs : s.slots.Sound neutral steps targets) (hr : s.Recorded bound)
    (h : s.step bound = .ok (some next)) : next.generation = s.generation + 1 ∧
      next.slots.selectorBits < s.slots.selectorBits ∧ next.slots.live < s.slots.live := by
  obtain ⟨record, chosen, hchooses⟩ := exists_chooses hs hr
  obtain ⟨hgeneration, hbits, hsum⟩ := hchooses.saves next h
  refine ⟨hgeneration, by omega, ?_⟩
  have hplain := generation_of_step hs hr h
  rcases generation_ok hs bound with ⟨-, hstop⟩ | ⟨slots', hdue, hnext, hjoins⟩
  · cases hplain.symm.trans hstop
  · cases hplain.symm.trans hnext
    exact live_lt_of_transGen (hjoins.progress hdue)

/-- Every generation costs a selector bit and a group. -/
theorem spends_of_reaches (hs : s.slots.Sound neutral steps targets) (hr : s.Recorded bound)
    (h : Reaches bound s t) :
    t.generation + t.slots.selectorBits ≤ s.generation + s.slots.selectorBits ∧
      t.generation + t.slots.live ≤ s.generation + s.slots.live := by
  induction h with
  | refl => exact ⟨Nat.le_refl _, Nat.le_refl _⟩
  | tail hreach hstep ih =>
      obtain ⟨hs', hr'⟩ := sound_recorded_of_reaches hs hr hreach
      have := spends_of_step hs' hr' hstep
      omega

/-! ### The end -/

theorem exists_candidate (hs : s.slots.Sound neutral steps targets) {i j : Nat} {g₀ g₁ : SymbolTable}
    (h₀ : s.slots.Holds i g₀) (h₁ : s.slots.Holds j g₁) (hc₀ : 1 < g₀.count) (hc₁ : 1 < g₁.count) :
    ∃ c, MergeCandidate.ofGroups g₀ g₁ = .ok c ∧
      (ofContents (g₀.targets ++ g₁.targets) neutral steps).width = c.width ∧
      c.score + c.width = g₀.width + g₁.width := by
  have hn₀ := hs.numbers i g₀ h₀
  have hn₁ := hs.numbers j g₁ h₁
  have hok := MergeCandidate.ofGroups_ok hn₀ hn₁ hc₀ hc₁
  exact ⟨_, hok, (MergeCandidate.ofGroups_spec hn₀ hn₁ hc₀ hc₁ hok).2⟩

theorem due_of_step (hs : s.slots.Sound neutral steps targets) (hr : s.Recorded bound)
    (h : s.step bound = .ok none) : s.slots.due neutral steps bound = [] := by
  obtain ⟨o, hstep, hplain, -⟩ := step_ok hs hr
  cases hstep.symm.trans h
  rcases generation_ok hs bound with ⟨hnil, -⟩ | ⟨slots', -, hnext, -⟩
  · exact hnil
  · cases hplain.symm.trans hnext

theorem saturated_of_step (hs : s.slots.Sound neutral steps targets) (hr : s.Recorded bound)
    (h : s.step bound = .ok none) : s.slots.Saturated bound := by
  have hnone := due_of_step hs hr h
  have hordered : ∀ i j g₀ g₁, i < j → s.slots.Holds i g₀ → s.slots.Holds j g₁ → 1 < g₀.count →
      1 < g₁.count → ¬ ((ofContents (g₀.targets ++ g₁.targets) neutral steps).width < g₀.width + g₁.width ∧
        (ofContents (g₀.targets ++ g₁.targets) neutral steps).width ≤ bound) := by
    rintro i j g₀ g₁ hij h₀ h₁ hc₀ hc₁ ⟨hsaves, hfits⟩
    obtain ⟨c, hok, hwidth, hscore⟩ := exists_candidate hs h₀ h₁ hc₀ hc₁
    have hscored : Scored s.slots ⟨i, j, c⟩ := ⟨hij, g₀, g₁, h₀, h₁, hc₀, hc₁, hok⟩
    have hadmissible : ScoredPair.admissible bound ⟨i, j, c⟩ = true :=
      admissible_iff.mpr ⟨by dsimp only; omega, by dsimp only; omega⟩
    have htouches := touches_accepted (((scores_candidateOf hs).mem_iff _).mpr hscored) hadmissible
    unfold due at hnone
    rw [hnone] at htouches
    cases htouches
  intro i j g₀ g₁ hij h₀ h₁ hc₀ hc₁
  obtain ⟨c, hok, hwidth, -⟩ := exists_candidate hs h₀ h₁ hc₀ hc₁
  refine ⟨c, hok, ?_⟩
  rw [← hwidth]
  rcases Nat.lt_or_gt_of_ne hij with hlt | hgt
  · exact hordered i j g₀ g₁ hlt h₀ h₁ hc₀ hc₁
  · have hswap : (ofContents (g₁.targets ++ g₀.targets) neutral steps).width ≤
        (ofContents (g₀.targets ++ g₁.targets) neutral steps).width :=
      width_le_of_subset fun t ht => List.mem_append.mpr (List.mem_append.mp ht).symm
    have := hordered j i g₁ g₀ hgt h₁ h₀ hc₁ hc₀
    omega

/-- Greedy merging ends in a saturated state.  Each generation saves what the accepted merges score, so at
least a bit, and refuses an admissible merge for a better one only.  There are no more generations than
bits saved, and fewer than groups. -/
theorem greedy_merging_saturates {fs : List TargetFlows} {length : Nat}
    (hlength : ∀ f ∈ fs, f.flows.length = length) (hnd : (fs.map TargetFlows.target).Nodup) (bound : Nat) :
    ∃ s, mergeGroups bound (fs.map TargetFlows.table) = .ok s ∧
      Reaches bound (start (fs.map TargetFlows.table)) s ∧ s.step bound = .ok none ∧
      (∀ t, Reaches bound (start (fs.map TargetFlows.table)) t →
        ∃ record chosen, Chooses bound t record chosen) ∧
      s.generation + s.slots.selectorBits ≤ ((fs.map TargetFlows.table).map SymbolTable.width).sum ∧
      (fs ≠ [] → s.generation < fs.length) ∧
      s.slots.Saturated bound := by
  have htables := TargetFlows.map_table hnd hlength
  have hs := sound_start htables hnd
  have hr : (start (fs.map TargetFlows.table)).Recorded bound := recorded_start _
  obtain ⟨s, hrun, -, -, hreach, hend⟩ := mergeGroups_ok _ _ bound hnd htables
  obtain ⟨hs', hr'⟩ := sound_recorded_of_reaches hs hr hreach
  obtain ⟨hbits, hlive⟩ := spends_of_reaches hs hr hreach
  refine ⟨s, hrun, hreach, hend, fun t ht => ?_, ?_, fun hne => ?_, saturated_of_step hs' hr' hend⟩
  · obtain ⟨hst, hrt⟩ := sound_recorded_of_reaches hs hr ht
    exact exists_chooses hst hrt
  · have hstart : (start (fs.map TargetFlows.table)).slots.selectorBits =
        ((fs.map TargetFlows.table).map SymbolTable.width).sum := by
      unfold start selectorBits
      rw [List.map_map]
      rfl
    rw [← hstart]
    exact Nat.le_trans hbits (Nat.le_of_eq (Nat.zero_add _))
  · obtain ⟨f, hf⟩ := List.exists_mem_of_ne_nil fs hne
    obtain ⟨i, g, hg, -⟩ := (hs'.covers f.target).mp (List.mem_map_of_mem hf)
    have hpos := live_pos hg
    rw [live_start htables, List.length_map] at hlive
    have hzero : (start (fs.map TargetFlows.table)).generation = 0 := rfl
    omega

theorem greedy_merging_saturates_partners :
    ∃ s, mergeGroups 4 (partners.map TargetFlows.table) = .ok s ∧
      Reaches 4 (start (partners.map TargetFlows.table)) s ∧ s.step 4 = .ok none ∧
      (∀ t, Reaches 4 (start (partners.map TargetFlows.table)) t →
        ∃ record chosen, Chooses 4 t record chosen) ∧
      s.generation + s.slots.selectorBits ≤ ((partners.map TargetFlows.table).map SymbolTable.width).sum ∧
      (partners ≠ [] → s.generation < partners.length) ∧
      s.slots.Saturated 4 :=
  @greedy_merging_saturates partners 3 (by decide) (by decide) 4

end MergeState

end ControlStore
