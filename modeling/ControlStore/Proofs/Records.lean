import ControlStore.Proofs.Generations
import ControlStore.Proofs.MergeTrees

/-! # Candidates on record

Between two generations the candidates of untouched pairs stay on record.  This is safe because of what
`MergeState.Recorded` says: a candidate on record was scored on the groups that its slots still hold, so
the completed record is the list of all candidates (`MergeState.scoreAll_ok`), whatever its order.  A
generation then does to the groups what the plain procedure does (`MergeState.step_ok`), and so does a
whole run (`MergeState.run_of_generations`).

A candidate that stays on record is never admissible, since it would have been accepted otherwise.  So
the merges of a generation are realized on the groups that were scored in the same generation
(`MergeState.exists_realizesScored`). -/

namespace ControlStore

open SymbolTable Slots Relation

namespace MergeState

variable {neutral : SignalId → Content} {steps : List (SignalId → Content)} {bound : Nat}
  {targets : List SignalId} {s : MergeState}

/-- Every candidate on record was scored on the groups that its slots hold, none is listed twice, and
none is admissible: it would have been accepted before, or its slots would have been used. -/
structure Recorded (bound : Nat) (s : MergeState) : Prop where
  scored : ∀ p ∈ s.scored, Scored s.slots p
  nodup : s.scored.Nodup
  idle : ∀ p ∈ s.scored, p.admissible bound = false

theorem isFor_iff {p : ScoredPair} {pair : Nat × Nat} : p.isFor pair = true ↔ p.pair = pair := by
  obtain ⟨i, j⟩ := pair
  simp [ScoredPair.isFor, ScoredPair.pair]

/-! ### Completing the record -/

/-- A valid record is completed to the candidates of all pairs. -/
theorem scoreAll_ok (hs : s.slots.Sound neutral steps targets) (hr : s.Recorded bound) :
    ∃ l, s.scoreAll = .ok l ∧ Scores s.slots l := by
  have hall := scores_candidateOf hs
  let unscored := (pairsOf (mergeable s.slots)).filter fun e =>
    !s.scored.any (ScoredPair.isFor (e.1.1, e.2.1))
  have hmap : unscored.mapM (fun e => scorePair e.1 e.2) = .ok (unscored.map (candidateOf neutral steps)) :=
    mapM_eq_ok_map fun e he => scorePair_eq_ok hs (List.mem_filter.mp he).1
  refine ⟨s.scored ++ unscored.map (candidateOf neutral steps), ?_, fun p => ?_, ?_⟩
  · unfold scoreAll
    show (unscored.mapM (fun e => scorePair e.1 e.2) >>= _) = _
    rw [hmap]
    rfl
  · rw [List.mem_append]
    constructor
    · rintro (hp | hp)
      · exact hr.scored p hp
      · exact (hall.mem_iff p).mp (List.map_subset _ (List.filter_subset_self _) hp)
    · intro hp
      obtain ⟨e, he, rfl⟩ := List.mem_map.mp ((hall.mem_iff p).mpr hp)
      cases hany : s.scored.any (ScoredPair.isFor (e.1.1, e.2.1)) with
      | false => exact .inr (List.mem_map_of_mem (List.mem_filter.mpr ⟨he, by rw [hany]; rfl⟩))
      | true =>
          obtain ⟨q, hq, hfor⟩ := List.any_eq_true.mp hany
          obtain rfl := (hr.scored q hq).eq_of_pair hp (isFor_iff.mp hfor)
          exact .inl hq
  · refine List.nodup_append.mpr ⟨hr.nodup, hall.nodup.sublist (List.filter_sublist.map _), ?_⟩
    rintro p hp q hq rfl
    obtain ⟨e, he, rfl⟩ := List.mem_map.mp hq
    have hany := (List.mem_filter.mp he).2
    rw [Bool.not_eq_true', List.any_eq_false] at hany
    exact hany _ hp (isFor_iff.mpr rfl)

theorem Scores.pair_nodup {slots : Slots} {l : List ScoredPair} (hl : Scores slots l) :
    (l.map ScoredPair.pair).Nodup :=
  List.pairwise_map.mpr (hl.nodup.imp_of_mem fun hp hq hne heq =>
    hne (((hl.mem_iff _).mp hp).eq_of_pair ((hl.mem_iff _).mp hq) heq))

theorem slotsOf_append (before after : List (Nat × Nat)) :
    slotsOf (before ++ after) = slotsOf before ++ slotsOf after := List.flatMap_append

/-! ### One accepted merge -/

theorem withdraw_eq_ok {l : List ScoredPair} (hnd : (l.map ScoredPair.pair).Nodup) {p : ScoredPair}
    (hp : p ∈ l) : withdraw l p.pair = .ok (p.candidate, l.filter fun q => !q.isFor p.pair) := by
  have hfind : l.find? (ScoredPair.isFor p.pair) = some p := by
    have hsome : (l.find? (ScoredPair.isFor p.pair)).isSome :=
      List.find?_isSome.mpr ⟨p, hp, isFor_iff.mpr rfl⟩
    obtain ⟨q, hq⟩ := Option.isSome_iff_exists.mp hsome
    rw [hq, List.inj_on_of_nodup_map hnd (List.mem_of_find?_eq_some hq) hp
      (isFor_iff.mp (List.find?_some hq))]
  unfold withdraw
  rw [hfind]
  rfl

theorem take_eq_ok {slots : Slots} {i : Nat} {g : SymbolTable} (h : slots.Holds i g) :
    take slots i = .ok (some g, slots.set i none) := by
  unfold take
  rw [fetch_eq_ok_iff.mpr h]
  rfl

/-- A merge whose candidate is on record and was scored on the groups in its slots is the plain
merge of these groups. -/
theorem mergePair_ok (hs : s.slots.Sound neutral steps targets)
    (hnd : (s.scored.map ScoredPair.pair).Nodup) {p : ScoredPair} (hp : p ∈ s.scored)
    (hscored : Scored s.slots p) (had : p.admissible bound = true) :
    ∃ t, mergePair s p.pair = .ok t ∧ s.slots.mergeAt p.pair = .ok t.slots ∧
      t.scored = s.scored.filter fun q => !q.isFor p.pair := by
  obtain ⟨g₀, g₁, h₀, h₁, hgroups, hreal, -⟩ := merges_of_scored hs hscored had
  have hne : p.first ≠ p.second := Nat.ne_of_lt hscored.1
  have htake₀ : take s.slots p.pair.1 = .ok (some g₀, s.slots.set p.first none) := take_eq_ok h₀
  have htake₁ : take (s.slots.set p.first none) p.pair.2 =
      .ok (some g₁, (s.slots.set p.first none).set p.second none) :=
    take_eq_ok ((List.getElem?_set_ne hne).trans h₁)
  have hjoin : ∀ g, ((s.slots.set p.first none).set p.second none).set p.pair.1 (some g) =
      s.slots.join p.first p.second g := by
    intro g
    unfold join
    rw [List.set_comm _ _ hne]
    exact List.set_set _
  have hmerge : mergePair s p.pair =
      .ok ⟨s.slots.join p.first p.second (ofContents (g₀.targets ++ g₁.targets) neutral steps),
        s.scored.filter fun q => !q.isFor p.pair, s.generation,
        s.notices ++ [.merging s.generation p.first p.second g₀.width g₁.width p.candidate.width]⟩ := by
    unfold mergePair
    simp only [withdraw_eq_ok hnd hp, htake₀, htake₁, hreal, ok_bind, hjoin]
    rfl
  have hg₀ : s.slots.group p.pair.1 = .ok g₀ := group_eq_ok h₀
  have hg₁ : s.slots.group p.pair.2 = .ok g₁ := group_eq_ok h₁
  refine ⟨_, hmerge, ?_, rfl⟩
  unfold mergeAt
  simp only [hg₀, hg₁, hgroups, hreal, ok_bind]
  rfl

/-! ### One generation -/

/-- The accepted merges are the plain ones as long as their candidates are on record and were scored
on the groups in their slots.  The pairs that are left share no slot with the merged one, so their
candidates stay valid, and the record loses only those of the accepted merges. -/
theorem foldlM_mergePair {pairs : List (Nat × Nat)} {s : MergeState}
    (hs : s.slots.Sound neutral steps targets) (hnd : (s.scored.map ScoredPair.pair).Nodup)
    (hsep : (slotsOf pairs).Nodup)
    (hpairs : ∀ pair ∈ pairs, ∃ p ∈ s.scored, p.pair = pair ∧ Scored s.slots p ∧ p.admissible bound = true) :
    ∃ t, pairs.foldlM mergePair s = .ok t ∧ pairs.foldlM mergeAt s.slots = .ok t.slots ∧
      t.scored.Sublist s.scored ∧ ∀ p ∈ s.scored, p.pair ∉ pairs → p ∈ t.scored := by
  induction pairs generalizing s with
  | nil => exact ⟨s, rfl, rfl, List.Sublist.refl _, fun p hp _ => hp⟩
  | cons pair pairs ih =>
      obtain ⟨⟨p, hp, rfl, hscored, had⟩, hrest⟩ := List.forall_mem_cons.mp hpairs
      obtain ⟨t₁, hmerge, hplain, hrecord⟩ := mergePair_ok hs hnd hp hscored had
      obtain ⟨g, hjoin, hmerges, -⟩ := mergeAt_ok hs hscored had
      obtain hslots : t₁.slots = s.slots.join p.first p.second g := Except.ok.inj (hplain.symm.trans hjoin)
      have hsub : t₁.scored.Sublist s.scored := hrecord ▸ List.filter_sublist
      have hkept : ∀ q ∈ s.scored, q.pair ≠ p.pair → q ∈ t₁.scored := by
        intro q hq hne
        rw [hrecord, List.mem_filter, Bool.not_eq_true', Bool.eq_false_iff, Ne, isFor_iff]
        exact ⟨hq, hne⟩
      have hfresh : p.pair ∉ pairs := fun hmem =>
        (List.nodup_cons.mp hsep).1 (List.mem_cons_of_mem _ (mem_slotsOf.mpr ⟨_, hmem, .inl rfl⟩))
      have hrest₁ : ∀ pair ∈ pairs, ∃ q ∈ t₁.scored, q.pair = pair ∧ Scored t₁.slots q ∧
          q.admissible bound = true := by
        intro pair hpair
        obtain ⟨q, hq, rfl, hscoredq, hadq⟩ := hrest pair hpair
        refine ⟨q, hkept q hq fun h => hfresh (h ▸ hpair), rfl, ?_, hadq⟩
        rw [hslots]
        exact scored_join hsep hpair hscoredq g
      have hsep₁ : (slotsOf pairs).Nodup := hsep.of_cons.of_cons
      obtain ⟨t, hfold, hfold', hsub', hkept'⟩ := ih (hslots ▸ hmerges.sound hs)
        (hnd.sublist (hsub.map _)) hsep₁ hrest₁
      refine ⟨t, ?_, ?_, hsub'.trans hsub, fun q hq hne => ?_⟩
      · rw [List.foldlM_cons, hmerge, ok_bind, hfold]
      · rw [List.foldlM_cons, hplain, ok_bind, hfold']
      · rw [List.mem_cons, not_or] at hne
        exact hkept' q (hkept q hq hne.1) hne.2

/-- What the accepted merges `pairs` of a generation do to the state. -/
structure Merged (neutral : SignalId → Content) (steps : List (SignalId → Content)) (bound : Nat)
    (pairs : List (Nat × Nat)) (s t : MergeState) : Prop where
  plain : pairs.foldlM mergeAt s.slots = .ok t.slots
  joins : Joins neutral steps bound pairs s.slots t.slots
  sublist : t.scored.Sublist s.scored
  kept : ∀ p ∈ s.scored, p.pair ∉ pairs → p ∈ t.scored

/-- The accepted merges are carried out in order, up to any of them. -/
theorem exists_merged {record : List ScoredPair} (hs : s.slots.Sound neutral steps targets)
    (hrecord : Scores s.slots record) {before after : List (Nat × Nat)}
    (hsplit : accepted bound record = before ++ after) :
    ∃ t, before.foldlM mergePair { s with scored := record } = .ok t ∧
      Merged neutral steps bound before { s with scored := record } t := by
  have hpairs : ∀ pair ∈ before, ∃ p ∈ record, p.pair = pair ∧ Scored s.slots p ∧
      p.admissible bound = true := by
    intro pair hpair
    obtain ⟨p, hp, hpair, had⟩ := mem_accepted (hsplit ▸ List.mem_append_left after hpair)
    exact ⟨p, hp, hpair, (hrecord.mem_iff p).mp hp, had⟩
  have hsep : (slotsOf before).Nodup := by
    have hall := hrecord.slotsOf_accepted_nodup bound
    rw [hsplit, slotsOf_append] at hall
    exact hall.of_append_left
  obtain ⟨t, hfold, hplain, hsub, hkept⟩ :=
    foldlM_mergePair (s := { s with scored := record }) hs hrecord.pair_nodup hsep hpairs
  obtain ⟨slots', hplain', hjoins⟩ := foldlM_mergeAt hs hsep fun pair hpair =>
    (hpairs pair hpair).imp fun _ => And.right
  cases hplain.symm.trans hplain'
  exact ⟨t, hfold, hplain, hjoins, hsub, hkept⟩

/-- What a generation that merges something keeps. -/
structure Advances (neutral : SignalId → Content) (steps : List (SignalId → Content))
    (bound : Nat) (targets : List SignalId) (s next : MergeState) : Prop where
  sound : next.slots.Sound neutral steps targets
  recorded : next.Recorded bound
  generation : next.generation = s.generation + 1

theorem Merged.advances {record : List ScoredPair} {t : MergeState}
    (hs : s.slots.Sound neutral steps targets) (hrecord : Scores s.slots record)
    (hm : Merged neutral steps bound (accepted bound record) { s with scored := record } t) :
    Advances neutral steps bound targets s { t with
      scored := t.scored.filter fun p => !p.touches (slotsOf (accepted bound record))
      generation := s.generation + 1 } := by
  refine ⟨sound_of_reaches hm.joins.reaches hs, ⟨fun p hp => ?_, ?_, fun p hp => ?_⟩, rfl⟩
  · obtain ⟨hp, hfree⟩ := List.mem_filter.mp hp
    rw [Bool.not_eq_true', touches_eq_false_iff] at hfree
    have hscored := (hrecord.mem_iff p).mp (hm.sublist.subset hp)
    exact hscored.of_getElem?_eq (hm.joins.frame _ hfree.1) (hm.joins.frame _ hfree.2)
  · exact (hrecord.nodup.sublist hm.sublist).sublist List.filter_sublist
  · obtain ⟨hp, hfree⟩ := List.mem_filter.mp hp
    rw [Bool.not_eq_true'] at hfree
    refine Bool.eq_false_iff.mpr fun had => Bool.eq_false_iff.mp hfree ?_
    exact touches_accepted (hm.sublist.subset hp) had

/-- A generation from a valid record succeeds and does to the groups what the plain procedure does. -/
theorem step_ok (hs : s.slots.Sound neutral steps targets) (hr : s.Recorded bound) :
    ∃ o, s.step bound = .ok o ∧ s.slots.generation bound = .ok (o.map MergeState.slots) ∧
      ∀ next, o = some next → Advances neutral steps bound targets s next := by
  obtain ⟨record, hscore, hrecord⟩ := scoreAll_ok hs hr
  obtain ⟨t, hfold, hm⟩ := exists_merged hs hrecord (List.append_nil (accepted bound record)).symm
  have hplain := hm.plain
  have hadv := hm.advances hs hrecord
  unfold step Slots.generation
  rw [hscore, ok_bind, scores_eq_ok hs, ok_bind, ← hrecord.accepted_eq (scores_candidateOf hs)]
  cases hpairs : accepted bound record with
  | nil => exact ⟨none, rfl, rfl, fun _ h => nomatch h⟩
  | cons pair pairs =>
      rw [hpairs] at hfold hplain hadv
      dsimp only at hplain ⊢
      rw [hfold, ok_bind, hplain, ok_bind]
      refine ⟨_, rfl, rfl, ?_⟩
      rintro next ⟨⟩
      exact hadv

/-! ### Runs -/

/-- `t` comes some generations after `s`. -/
def Reaches (bound : Nat) : MergeState → MergeState → Prop :=
  ReflTransGen fun s t => s.step bound = .ok (some t)

theorem advances_of_step (hs : s.slots.Sound neutral steps targets) (hr : s.Recorded bound)
    {next : MergeState} (h : s.step bound = .ok (some next)) : Advances neutral steps bound targets s next := by
  obtain ⟨o, hstep, -, hadv⟩ := step_ok hs hr
  exact hadv next (Except.ok.inj (hstep.symm.trans h))

theorem sound_recorded_of_reaches {t : MergeState} (hs : s.slots.Sound neutral steps targets)
    (hr : s.Recorded bound) (h : Reaches bound s t) :
    t.slots.Sound neutral steps targets ∧ t.Recorded bound := by
  induction h with
  | refl => exact ⟨hs, hr⟩
  | tail _ hstep ih =>
      have hadv := advances_of_step ih.1 ih.2 hstep
      exact ⟨hadv.sound, hadv.recorded⟩

/-- A run follows the plain procedure from generation to generation, to its end. -/
theorem run_of_generations {n fuel : Nat} {slots' : Slots} (hs : s.slots.Sound neutral steps targets)
    (hr : s.Recorded bound) (h : Generations bound s.slots n slots') (hfuel : n ≤ fuel) :
    ∃ t, run bound fuel s = .ok t ∧ t.slots = slots' ∧ t.generation = s.generation + n ∧
      Reaches bound s t ∧ t.step bound = .ok none := by
  induction n generalizing s fuel with
  | zero =>
      obtain ⟨o, hstep, hplain, -⟩ := step_ok hs hr
      cases h with
      | stop hstop =>
          obtain rfl : o = none := by simpa using hplain.symm.trans hstop
          refine ⟨s, ?_, rfl, rfl, .refl, hstep⟩
          cases fuel with
          | zero => rfl
          | succ fuel =>
              rw [run, hstep]
              rfl
  | succ n ih =>
      obtain ⟨o, hstep, hplain, hadv⟩ := step_ok hs hr
      cases h with
      | next hnext rest =>
          obtain ⟨next, rfl, rfl⟩ : ∃ next, o = some next ∧ next.slots = _ := by
            simpa using hplain.symm.trans hnext
          obtain ⟨fuel, rfl⟩ := Nat.exists_eq_add_of_lt hfuel
          have hnext := hadv next rfl
          obtain ⟨t, hrun, hslots, hgeneration, hreach, hend⟩ := ih hnext.sound hnext.recorded rest
            (Nat.le_add_right n fuel)
          refine ⟨t, ?_, hslots, ?_, .head hstep hreach, hend⟩
          · rw [run, hstep]
            exact hrun
          · rw [hgeneration, hnext.generation]
            omega

theorem recorded_start (tables : List SymbolTable) : (start tables).Recorded bound :=
  ⟨fun _ h => (nomatch h), List.nodup_nil, fun _ h => (nomatch h)⟩

section
variable {tables : List SymbolTable} (htables : tables = targets.map fun t => ofContents [t] neutral steps)
include htables

theorem slots_start : (start tables).slots = single neutral steps targets := by
  show tables.map some = _
  rw [htables, List.map_map]
  rfl

theorem sound_start (h : targets.Nodup) : (start tables).slots.Sound neutral steps targets := by
  rw [slots_start htables]
  exact sound_single h

theorem live_start : (start tables).slots.live = tables.length := by
  rw [slots_start htables, live_single, htables, List.length_map]

end

/-- Merging comes to the end of the plain procedure. -/
theorem mergeGroups_ok (neutral : SignalId → Content) (steps : List (SignalId → Content)) (bound : Nat)
    {targets : List SignalId} (h : targets.Nodup) {tables : List SymbolTable}
    (htables : tables = targets.map fun t => ofContents [t] neutral steps) :
    ∃ s, mergeGroups bound tables = .ok s ∧ Generations bound (tables.map some) s.generation s.slots ∧
      ReflTransGen (Merges neutral steps bound) (tables.map some) s.slots ∧
      Reaches bound (start tables) s ∧ s.step bound = .ok none := by
  have hs := sound_start htables h
  obtain ⟨n, slots', hgen, hle, hreach⟩ := exists_generations bound hs
  have hfuel : n ≤ tables.length := live_start htables ▸ hle
  obtain ⟨s, hrun, rfl, hgeneration, hsteps, hend⟩ := run_of_generations hs (recorded_start tables) hgen hfuel
  obtain rfl : s.generation = n := hgeneration.trans (Nat.zero_add n)
  exact ⟨s, hrun, hgen, hreach, hsteps, hend⟩

end MergeState

/-- Merging succeeds, and it is a chain of merges. -/
theorem Slots.mergeGroups_reaches (neutral : SignalId → Content) (steps : List (SignalId → Content))
    (bound : Nat) {targets : List SignalId} (h : targets.Nodup) :
    ∃ s, mergeGroups bound (targets.map fun t => ofContents [t] neutral steps) = .ok s ∧
      ReflTransGen (Merges neutral steps bound) (single neutral steps targets) s.slots := by
  obtain ⟨s, hrun, -, hreach, -, -⟩ := MergeState.mergeGroups_ok neutral steps bound h rfl
  rw [List.map_map] at hreach
  exact ⟨s, hrun, hreach⟩

/-! ### What a merge is realized on -/

namespace MergeState

variable {neutral : SignalId → Content} {steps : List (SignalId → Content)} {bound : Nat}
  {targets : List SignalId} {s : MergeState}

/-- The candidate `p` comes on record in the generation that starts with `s`, for the groups `g₀` and
`g₁` in its slots, and in the course of it, from `t`, is realized on the same groups. -/
structure RealizedOn (s : MergeState) (record : List ScoredPair) (t : MergeState) (p : ScoredPair)
    (g₀ g₁ : SymbolTable) : Prop where
  unrecorded : ∀ q ∈ s.scored, q.pair ≠ p.pair
  recorded : p ∈ record
  first_scored : s.slots.Holds p.first g₀
  second_scored : s.slots.Holds p.second g₁
  scored : MergeCandidate.ofGroups g₀ g₁ = .ok p.candidate
  withdrawn : ∃ rest, withdraw t.scored p.pair = .ok (p.candidate, rest)
  first_realized : t.slots.Holds p.first g₀
  second_realized : t.slots.Holds p.second g₁
  realized : ∃ merged, p.candidate.realize g₀ g₁ = .ok merged

/-- The merges of the generation that starts with `s` use every slot at most once, and each of them
is realized on the groups that its candidate was scored on. -/
structure RealizesScored (bound : Nat) (s : MergeState) (record : List ScoredPair) : Prop where
  complete : s.scoreAll = .ok record
  once : (slotsOf (accepted bound record)).Nodup
  realizes : ∀ before pair after, accepted bound record = before ++ pair :: after →
    ∃ t, before.foldlM mergePair { s with scored := record } = .ok t ∧
      ∃ p g₀ g₁, p.pair = pair ∧ RealizedOn s record t p g₀ g₁

theorem exists_realizesScored (hs : s.slots.Sound neutral steps targets) (hr : s.Recorded bound) :
    ∃ record, RealizesScored bound s record := by
  obtain ⟨record, hscore, hrecord⟩ := scoreAll_ok hs hr
  refine ⟨record, hscore, hrecord.slotsOf_accepted_nodup bound, fun before pair after hsplit => ?_⟩
  obtain ⟨t, hfold, hm⟩ := exists_merged hs hrecord hsplit
  have hmem : pair ∈ accepted bound record := hsplit ▸ List.mem_append_right before List.mem_cons_self
  obtain ⟨p, hp, rfl, had⟩ := mem_accepted hmem
  have hscored := (hrecord.mem_iff p).mp hp
  obtain ⟨g₀, g₁, h₀, h₁, hgroups, hreal, -⟩ := merges_of_scored hs hscored had
  have hfree : p.first ∉ slotsOf before ∧ p.second ∉ slotsOf before := by
    have hsep := hrecord.slotsOf_accepted_nodup bound
    rw [hsplit, slotsOf_append, List.nodup_append'] at hsep
    exact ⟨fun hk => hsep.2.2 hk List.mem_cons_self,
      fun hk => hsep.2.2 hk (List.mem_cons_of_mem _ List.mem_cons_self)⟩
  have hkept : p ∈ t.scored := hm.kept p hp fun hmem => hfree.1 (mem_slotsOf.mpr ⟨_, hmem, .inl rfl⟩)
  refine ⟨t, hfold, p, g₀, g₁, rfl, ?_, hp, h₀, h₁, hgroups, ?_, ?_, ?_, _, hreal⟩
  · intro q hq hpair
    obtain rfl := (hr.scored q hq).eq_of_pair hscored hpair
    exact Bool.eq_false_iff.mp (hr.idle q hq) had
  · exact ⟨_, withdraw_eq_ok (hrecord.pair_nodup.sublist (hm.sublist.map _)) hkept⟩
  · exact (hm.joins.frame _ hfree.1).trans h₀
  · exact (hm.joins.frame _ hfree.2).trans h₁

/-- Keeping candidates on record makes no difference: the groups, their slots and the number of
generations are those of the plain procedure, which scores all pairs anew every time. -/
theorem record_transparent {fs : List TargetFlows} {length : Nat}
    (hlength : ∀ f ∈ fs, f.flows.length = length) (hnd : (fs.map TargetFlows.target).Nodup) (bound : Nat) :
    ∃ s, mergeGroups bound (fs.map TargetFlows.table) = .ok s ∧
      (∀ n slots, Generations bound ((fs.map TargetFlows.table).map some) n slots ↔
        n = s.generation ∧ slots = s.slots) ∧
      Reaches bound (start (fs.map TargetFlows.table)) s ∧ s.step bound = .ok none ∧
      ∀ t, Reaches bound (start (fs.map TargetFlows.table)) t → ∃ record, RealizesScored bound t record := by
  let neutral := TargetFlows.holding fs TargetFlows.neutral
  let steps := TargetFlows.stepsHolding fs length
  have htables : fs.map TargetFlows.table =
      (fs.map TargetFlows.target).map fun t => ofContents [t] neutral steps := by
    rw [List.map_map]
    exact List.map_congr_left fun f hf => TargetFlows.numbers_table hnd hlength hf
  obtain ⟨s, hrun, hgen, -, hreach, hend⟩ := mergeGroups_ok neutral steps bound hnd htables
  refine ⟨s, hrun, fun n slots => ⟨fun h => h.unique hgen, ?_⟩, hreach, hend, fun t ht => ?_⟩
  · rintro ⟨rfl, rfl⟩
    exact hgen
  · have hs : (start (fs.map TargetFlows.table)).slots.Sound neutral steps (fs.map TargetFlows.target) := by
      show Sound neutral steps _ ((fs.map TargetFlows.table).map some)
      rw [htables, List.map_map]
      exact sound_single hnd
    obtain ⟨hs, hr⟩ := sound_recorded_of_reaches hs (recorded_start _) ht
    exact exists_realizesScored hs hr

/-- Five targets.  The first and the last two change together, the others at other times. -/
def partners : List TargetFlows :=
  [MergeTree.first, MergeTree.second, MergeTree.third,
    { MergeTree.first with target := 3 }, { MergeTree.first with target := 4 }]

example : (mergeGroups 4 (partners.map TargetFlows.table)).toOption.map
    (fun s => (s.generation, s.scored.map ScoredPair.pair)) = some (2, [(1, 2)]) := by decide +kernel

theorem record_transparent_partners :
    ∃ s, mergeGroups 4 (partners.map TargetFlows.table) = .ok s ∧
      (∀ n slots, Generations 4 ((partners.map TargetFlows.table).map some) n slots ↔
        n = s.generation ∧ slots = s.slots) ∧
      Reaches 4 (start (partners.map TargetFlows.table)) s ∧ s.step 4 = .ok none ∧
      ∀ t, Reaches 4 (start (partners.map TargetFlows.table)) t → ∃ record, RealizesScored 4 t record :=
  @record_transparent partners 3 (by decide) (by decide) 4

end MergeState

end ControlStore
