import ControlStore.Symbol.Joint
import ControlStore.Proofs.Interning
import ControlStore.Proofs.Maps
import ControlStore.Proofs.Widths

/-! # Symbol tables by contents

A table *numbers* what its targets hold together (`SymbolTable.Numbers`) if its symbols are the
indices under which the contents of its targets are interned, first those in the neutral flow and
then those in every step.  Every target starts with such a table (`forTarget_eq_ofContents`), and
merging two such tables over different targets gives the one over all of them (`MergeCandidate.realize_ok`), so the
tables of a design never take another form. -/

namespace ControlStore

open NatMap (tabulate)

namespace SymbolTable

/-- The table of the targets `ts` whose contents are given for the neutral flow and for every
step. -/
def ofContents (ts : List SignalId) (neutral : SignalId → Content)
    (steps : List (SignalId → Content)) : SymbolTable :=
  let joint := (Interned.empty.intern (tabulate neutral ts)).2.internAll
    (steps.map fun c => tabulate c ts)
  ⟨ts, joint.1, joint.2, Interned.size_internAll_pos (Interned.size_intern_empty_pos _) _⟩

/-- The symbols of a table number what its targets hold in the neutral flow and in every step. -/
def Numbers (g : SymbolTable) (neutral : SignalId → Content) (steps : List (SignalId → Content)) :
    Prop :=
  g = ofContents g.targets neutral steps

/-- The symbol of the contents `c` in a table that has them. -/
def codeOf (g : SymbolTable) (c : SignalId → Content) : Nat :=
  g.table.values.idxOf (tabulate c g.targets)

variable {neutral : SignalId → Content} {steps : List (SignalId → Content)} {g : SymbolTable}

theorem numbers_ofContents (ts : List SignalId) (neutral : SignalId → Content)
    (steps : List (SignalId → Content)) : (ofContents ts neutral steps).Numbers neutral steps := rfl

@[simp] theorem width_eq (g : SymbolTable) : g.width = selectorWidth g.count := widthOfCount_eq g.size_pos

theorem width_eq_of_count_eq {g g' : SymbolTable} (h : g.count = g'.count) : g.width = g'.width := by
  rw [width_eq, width_eq, h]

/-- The parts of a table make the table. -/
theorem ofParts_eq (g : SymbolTable) : ofParts g.targets g.symbols g.table = .ok g := dif_pos g.size_pos

theorem ofFlows_eq_ofContents (t : SignalId) (flows : List Flow)
    (h : flows.map (fun flow => Content.of flow (neutral t)) = steps.map fun c => c t) :
    ofFlows t (neutral t) flows = .ok (ofContents [t] neutral steps) := by
  have hcontents : flows.map (fun flow => NatMap.single t (Content.of flow (neutral t))) =
      steps.map fun c => tabulate c [t] := by
    have := congrArg (List.map fun c => NatMap.single t c) h
    rwa [List.map_map, List.map_map] at this
  unfold ofFlows
  simp only [hcontents]
  rfl

theorem forTarget_eq_ofContents (t : SignalId) (flows : List Flow)
    (h : flows.map (fun flow => Content.of flow (neutral t)) = steps.map fun c => c t) :
    forTarget t (neutral t) flows = ofContents [t] neutral steps :=
  Checked.get_eq (ofFlows_eq_ofContents t flows h) _

theorem symbols_ofContents (ts : List SignalId) (neutral : SignalId → Content) (steps : List (SignalId → Content)) :
    (ofContents ts neutral steps).symbols = steps.map fun c =>
      (Interned.ofValues ((neutral :: steps).map fun c => tabulate c ts)).positionOf (tabulate c ts) := by
  unfold ofContents
  simp only [Interned.internAll_first, List.map_map]
  rfl

theorem table_ofContents (ts : List SignalId) (neutral : SignalId → Content) (steps : List (SignalId → Content)) :
    (ofContents ts neutral steps).table = .ofValues ((neutral :: steps).map fun c => tabulate c ts) := by
  unfold ofContents
  simp only [Interned.internAll_first]
  rfl

/-! ### The symbols of a table that numbers contents -/

section
variable (h : g.Numbers neutral steps)
include h

theorem Numbers.table_eq : g.table = .ofValues ((neutral :: steps).map fun c => tabulate c g.targets) :=
  (congrArg table h).trans (table_ofContents g.targets neutral steps)

theorem Numbers.mem_values_iff {v : Contents} :
    v ∈ g.table.values ↔ ∃ c ∈ neutral :: steps, v = tabulate c g.targets := by
  rw [h.table_eq, Interned.mem_values_ofValues, List.mem_map]
  simp only [eq_comm]

theorem Numbers.values_nodup : g.table.values.Nodup := by
  rw [h.table_eq]
  exact Interned.values_ofValues_nodup _

/-- A symbol is found for contents exactly if it stands for them. -/
theorem Numbers.symbolOf?_eq_some_iff {v : Contents} {symbol : Nat} :
    g.symbolOf? v = some symbol ↔ g.table.values[symbol]? = some v := by
  unfold symbolOf?
  rw [h.table_eq]
  exact Interned.index?_ofValues_eq_some_iff

theorem Numbers.values_zero : g.table.values[0]? = some (tabulate neutral g.targets) := by
  rw [h.table_eq]
  exact Interned.head_values_ofValues _ _

theorem Numbers.count_pos : 0 < g.count := (List.getElem?_eq_some_iff.mp h.values_zero).1

theorem Numbers.symbols_eq : g.symbols = steps.map g.codeOf := by
  unfold codeOf
  rw [h.table_eq]
  exact (congrArg symbols h).trans (symbols_ofContents g.targets neutral steps)

theorem Numbers.values_codeOf {c : SignalId → Content} (hc : c ∈ neutral :: steps) :
    g.table.values[g.codeOf c]? = some (tabulate c g.targets) := by
  have hlt := List.idxOf_lt_length_iff.mpr (h.mem_values_iff.mpr ⟨c, hc, rfl⟩)
  rw [List.getElem?_eq_some_iff]
  exact ⟨hlt, List.getElem_idxOf hlt⟩

theorem Numbers.codeOf_lt {c : SignalId → Content} (hc : c ∈ neutral :: steps) :
    g.codeOf c < g.count :=
  (List.getElem?_eq_some_iff.mp (h.values_codeOf hc)).1

theorem Numbers.codeOf_neutral : g.codeOf neutral = 0 := by
  have hc := h.values_codeOf List.mem_cons_self
  rw [← h.values_zero] at hc
  exact (List.getElem?_inj (h.codeOf_lt List.mem_cons_self) h.values_nodup).mp hc

/-- Symbol zero stands for the neutral contents and for no other. -/
theorem Numbers.codeOf_eq_zero_iff {c : SignalId → Content} (hc : c ∈ neutral :: steps) :
    g.codeOf c = 0 ↔ ∀ t ∈ g.targets, c t = neutral t := by
  constructor
  · intro hzero
    have hvalue := h.values_codeOf hc
    rw [hzero, h.values_zero, Option.some_inj, NatMap.tabulate_eq_iff] at hvalue
    exact fun t ht => (hvalue t ht).symm
  · intro hsame
    have hcode : g.codeOf c = g.codeOf neutral := by
      unfold codeOf
      rw [NatMap.tabulate_congr hsame]
    rw [hcode, h.codeOf_neutral]

theorem Numbers.symbol_eq {step : Nat} {c : SignalId → Content} (hc : steps[step]? = some c) :
    g.symbol step = .ok (g.codeOf c) := by
  unfold symbol
  rw [fetch_eq_ok_iff, h.symbols_eq, List.getElem?_map, hc]
  rfl

theorem Numbers.contents_codeOf {c : SignalId → Content} (hc : c ∈ neutral :: steps) :
    g.contents (g.codeOf c) = .ok (tabulate c g.targets) :=
  fetch_eq_ok_iff.mpr (h.values_codeOf hc)

theorem Numbers.contents_zero : g.contents 0 = .ok (tabulate neutral g.targets) :=
  fetch_eq_ok_iff.mpr h.values_zero

/-- Every symbol stands for the contents in the neutral flow or in some step. -/
theorem Numbers.exists_code {symbol : Nat} (hlt : symbol < g.count) :
    ∃ c ∈ neutral :: steps, g.codeOf c = symbol := by
  obtain ⟨c, hc, hv⟩ := h.mem_values_iff.mp (List.getElem_mem hlt)
  refine ⟨c, hc, ?_⟩
  unfold codeOf
  rw [← hv]
  exact h.values_nodup.idxOf_getElem symbol hlt

end

/-- A symbol fits its selector. -/
theorem lt_two_pow_width {symbol : Nat} (h : symbol < g.count) : symbol < 2 ^ g.width := by
  rw [width_eq]
  exact Nat.lt_of_lt_of_le h (le_two_pow_selectorWidth g.count)

/-- More targets have no fewer symbols: what the targets `ts` hold can be read off what the targets `us` hold. -/
theorem count_le_of_subset {ts us : List SignalId} (h : ts ⊆ us) :
    (ofContents ts neutral steps).count ≤ (ofContents us neutral steps).count := by
  let restrict : Contents → Contents := fun v => tabulate (fun t => (v.get? t).getD .lane) ts
  have hrestrict : ∀ c, restrict (tabulate c us) = tabulate c ts := by
    intro c
    refine NatMap.tabulate_congr fun t ht => ?_
    rw [NatMap.get?_tabulate, if_pos (h ht)]
    rfl
  have hsub : (ofContents ts neutral steps).table.values ⊆
      (ofContents us neutral steps).table.values.map restrict := by
    intro v hv
    obtain ⟨c, hc, rfl⟩ := (numbers_ofContents ts neutral steps).mem_values_iff.mp hv
    refine List.mem_map.mpr ⟨tabulate c us, ?_, hrestrict c⟩
    exact (numbers_ofContents us neutral steps).mem_values_iff.mpr ⟨c, hc, rfl⟩
  have hle := (numbers_ofContents ts neutral steps).values_nodup.length_le_of_subset hsub
  rwa [List.length_map] at hle

theorem width_le_of_subset {ts us : List SignalId} (h : ts ⊆ us) :
    (ofContents ts neutral steps).width ≤ (ofContents us neutral steps).width := by
  rw [width_eq, width_eq]
  exact selectorWidth_mono (count_le_of_subset h)

end SymbolTable

/-! ### Merging two tables -/

theorem JointEncoding.width_eq (j : JointEncoding) : j.width = selectorWidth j.pairs.size :=
  widthOfCount_eq j.size_pos

namespace MergeCandidate

theorem width_eq (c : MergeCandidate) : c.width = selectorWidth c.count := c.joint.width_eq

open SymbolTable

/-- The symbols of the contents `c` in two tables. -/
def pairOf (g₀ g₁ : SymbolTable) (c : SignalId → Content) : Nat × Nat := (g₀.codeOf c, g₁.codeOf c)

/-- What a pair of symbols stands for: the contents of its two parts together. -/
def unionOf (g₀ g₁ : SymbolTable) (p : Nat × Nat) : Contents :=
  (g₀.table.values.getD p.1 .empty).overlay (g₁.table.values.getD p.2 .empty)

variable {g₀ g₁ : SymbolTable}

theorem contents_eq_getD {g : SymbolTable} {symbol : Nat} (h : symbol < g.count) :
    g.contents symbol = .ok (g.table.values.getD symbol .empty) := by
  refine fetch_eq_ok_iff.mpr ?_
  rw [List.getD_eq_getElem?_getD, List.getElem?_eq_getElem h, Option.getD_some]

/-- A pair whose union is new gets the next symbol. -/
theorem internPair_of_fresh {done : List (Nat × Nat)} {p : Nat × Nat}
    (hp : p.1 < g₀.count ∧ p.2 < g₁.count) (hnd : ((done ++ [p]).map (unionOf g₀ g₁)).Nodup) :
    internPair g₀ g₁ (.ofValues (done.map (unionOf g₀ g₁))) (done.length, p) =
      .ok (.ofValues ((done ++ [p]).map (unionOf g₀ g₁))) := by
  have hintern : (Interned.ofValues (done.map (unionOf g₀ g₁))).intern (unionOf g₀ g₁ p) =
      (done.length, .ofValues ((done ++ [p]).map (unionOf g₀ g₁))) := by
    rw [List.map_append, List.map_singleton] at hnd ⊢
    rw [Interned.intern_ofValues_of_nodup hnd, List.length_map]
  unfold internPair
  simp only [contents_eq_getD hp.1, contents_eq_getD hp.2, ok_bind]
  rw [show (g₀.table.values.getD p.1 .empty).overlay (g₁.table.values.getD p.2 .empty) =
    unionOf g₀ g₁ p from rfl, hintern]
  simp [ensure]

/-- Interning the unions of distinct pairs one after the other gives each pair its position: at every point the
pairs of `done` are interned and those of `rest` are next. -/
theorem foldlM_internPair {pairs : Interned (Nat × Nat)}
    (hps : ∀ p ∈ pairs.values, p.1 < g₀.count ∧ p.2 < g₁.count)
    (hnd : (pairs.values.map (unionOf g₀ g₁)).Nodup) :
    pairs.indexed.foldlM (internPair g₀ g₁) .empty = .ok (.ofValues (pairs.values.map (unionOf g₀ g₁))) := by
  have general : ∀ rest done : List (Nat × Nat), (∀ p ∈ rest, p.1 < g₀.count ∧ p.2 < g₁.count) →
      ((done ++ rest).map (unionOf g₀ g₁)).Nodup →
      ((rest.zipIdx done.length).map fun (v, i) => (i, v)).foldlM (internPair g₀ g₁)
        (.ofValues (done.map (unionOf g₀ g₁))) = .ok (.ofValues ((done ++ rest).map (unionOf g₀ g₁))) := by
    intro rest
    induction rest with
    | nil => intro done _ _; simp
    | cons p rest ih =>
        intro done hval hnd
        have hlen : (done ++ [p]).length = done.length + 1 := by simp
        have hassoc : (done ++ [p]) ++ rest = done ++ p :: rest := by simp
        rw [← hassoc] at hnd ⊢
        have hfirst : ((done ++ [p]).map (unionOf g₀ g₁)).Nodup := by
          rw [List.map_append] at hnd
          exact (List.nodup_append.mp hnd).1
        rw [List.zipIdx_cons, List.map_cons, List.foldlM_cons,
          internPair_of_fresh (hval p List.mem_cons_self) hfirst, ok_bind, ← hlen,
          ih (done ++ [p]) (fun q hq => hval q (List.mem_cons_of_mem p hq)) hnd]
  exact general pairs.values [] hps hnd

section
variable {neutral : SignalId → Content} {steps : List (SignalId → Content)}
  (h₀ : g₀.Numbers neutral steps) (h₁ : g₁.Numbers neutral steps)
include h₀ h₁

theorem unionOf_pairOf {c : SignalId → Content} (hc : c ∈ neutral :: steps) :
    unionOf g₀ g₁ (pairOf g₀ g₁ c) = tabulate c (g₀.targets ++ g₁.targets) := by
  unfold unionOf pairOf
  rw [List.getD_eq_getElem?_getD, List.getD_eq_getElem?_getD, h₀.values_codeOf hc,
    h₁.values_codeOf hc, Option.getD_some, Option.getD_some, NatMap.tabulate_overlay]

/-- Pairs of symbols stand for the same contents only if they are the same. -/
theorem unionOf_inj {p q : Nat × Nat} (hp : p ∈ (neutral :: steps).map (pairOf g₀ g₁))
    (hq : q ∈ (neutral :: steps).map (pairOf g₀ g₁)) (h : unionOf g₀ g₁ p = unionOf g₀ g₁ q) :
    p = q := by
  obtain ⟨c, hc, rfl⟩ := List.mem_map.mp hp
  obtain ⟨d, hd, rfl⟩ := List.mem_map.mp hq
  rw [unionOf_pairOf h₀ h₁ hc, unionOf_pairOf h₀ h₁ hd, NatMap.tabulate_eq_iff] at h
  have e₀ : tabulate c g₀.targets = tabulate d g₀.targets :=
    NatMap.tabulate_congr fun t ht => h t (List.mem_append_left _ ht)
  have e₁ : tabulate c g₁.targets = tabulate d g₁.targets :=
    NatMap.tabulate_congr fun t ht => h t (List.mem_append_right _ ht)
  unfold pairOf codeOf
  rw [e₀, e₁]

end

/-- The joint symbols of two tables: the pairs of their symbols, interned. -/
def jointOf (g₀ g₁ : SymbolTable) (neutral : SignalId → Content)
    (steps : List (SignalId → Content)) : JointEncoding :=
  let joint := (Interned.empty.intern (pairOf g₀ g₁ neutral)).2.internAll (steps.map (pairOf g₀ g₁))
  ⟨joint.1, joint.2, Interned.size_internAll_pos (Interned.size_intern_empty_pos _) _⟩

section
variable {neutral : SignalId → Content} {steps : List (SignalId → Content)}

theorem symbols_jointOf (g₀ g₁ : SymbolTable) (neutral : SignalId → Content) (steps : List (SignalId → Content)) :
    (jointOf g₀ g₁ neutral steps).symbols = steps.map fun c =>
      (Interned.ofValues ((neutral :: steps).map (pairOf g₀ g₁))).positionOf (pairOf g₀ g₁ c) := by
  unfold jointOf
  simp only [Interned.internAll_first, List.map_map]
  rfl

theorem pairs_jointOf (g₀ g₁ : SymbolTable) (neutral : SignalId → Content) (steps : List (SignalId → Content)) :
    (jointOf g₀ g₁ neutral steps).pairs = .ofValues ((neutral :: steps).map (pairOf g₀ g₁)) := by
  unfold jointOf
  simp only [Interned.internAll_first]
  rfl

theorem mem_pairs_jointOf {p : Nat × Nat} : p ∈ (jointOf g₀ g₁ neutral steps).pairs.values ↔
    p ∈ (neutral :: steps).map (pairOf g₀ g₁) := by
  rw [pairs_jointOf, Interned.mem_values_ofValues]

theorem pairs_jointOf_nodup : (jointOf g₀ g₁ neutral steps).pairs.values.Nodup := by
  rw [pairs_jointOf]
  exact Interned.values_ofValues_nodup _

/-- A check of a step passes if the merged contents hold what the step gives the targets. -/
theorem checkStep_ok {g : SymbolTable} (h : g.Numbers neutral steps) {step symbol : Nat}
    {c : SignalId → Content} (hc : steps[step]? = some c) {merged : Contents}
    (hsub : ∀ t ∈ g.targets, merged.get? t = some (c t)) : checkStep step symbol merged g = .ok () := by
  unfold checkStep
  rw [h.symbol_eq hc, ok_bind, h.contents_codeOf (List.mem_cons_of_mem _ (List.mem_of_getElem? hc)),
    ok_bind, forM_eq_ok_iff]
  rintro ⟨t, content⟩ hmem
  have hget := NatMap.mem_entries_iff.mp hmem
  rw [NatMap.get?_tabulate] at hget
  split at hget
  · next ht =>
    rw [ensure_eq_ok_iff, decide_eq_true_iff, hsub t ht]
    exact hget
  · cases hget

variable (h₀ : g₀.Numbers neutral steps) (h₁ : g₁.Numbers neutral steps)
include h₀ h₁

theorem encodeTogether_eq :
    encodeTogether g₀.symbols g₁.symbols = .ok (jointOf g₀ g₁ neutral steps) := by
  have hzero : pairOf g₀ g₁ neutral = (0, 0) := by
    unfold pairOf
    rw [h₀.codeOf_neutral, h₁.codeOf_neutral]
  have hlength : ensure ((steps.map g₀.codeOf).length = (steps.map g₁.codeOf).length) .sequenceLengths = .ok () := by
    simp [ensure]
  unfold encodeTogether jointOf
  simp only [h₀.symbols_eq, h₁.symbols_eq, hlength, ok_bind, List.zip_map', hzero]
  rfl

theorem pairs_lt {p : Nat × Nat} (hp : p ∈ (jointOf g₀ g₁ neutral steps).pairs.values) :
    p.1 < g₀.count ∧ p.2 < g₁.count := by
  obtain ⟨c, hc, rfl⟩ := List.mem_map.mp (mem_pairs_jointOf.mp hp)
  exact ⟨h₀.codeOf_lt hc, h₁.codeOf_lt hc⟩

/-- There are at most as many joint symbols as pairs of symbols. -/
theorem size_jointOf_le : (jointOf g₀ g₁ neutral steps).pairs.size ≤ g₀.count * g₁.count := by
  let all := (List.range g₀.count).flatMap fun i => (List.range g₁.count).map fun j => (i, j)
  have hsub : (jointOf g₀ g₁ neutral steps).pairs.values ⊆ all := by
    intro p hp
    obtain ⟨hp₀, hp₁⟩ := pairs_lt h₀ h₁ hp
    refine List.mem_flatMap.mpr ⟨p.1, List.mem_range.mpr hp₀, ?_⟩
    exact List.mem_map.mpr ⟨p.2, List.mem_range.mpr hp₁, rfl⟩
  have hlen : all.length = g₀.count * g₁.count := by
    simp [all, List.map_const']
  rw [← hlen]
  exact pairs_jointOf_nodup.length_le_of_subset hsub

theorem width_jointOf_le : (jointOf g₀ g₁ neutral steps).width ≤ g₀.width + g₁.width := by
  rw [JointEncoding.width_eq, SymbolTable.width_eq, SymbolTable.width_eq]
  exact Nat.le_trans (selectorWidth_mono (size_jointOf_le h₀ h₁)) (selectorWidth_mul_le _ _)

/-- What the targets of both tables hold is the union of the pair. -/
theorem map_tabulate_append : (neutral :: steps).map (fun c => tabulate c (g₀.targets ++ g₁.targets)) =
    ((neutral :: steps).map (pairOf g₀ g₁)).map (unionOf g₀ g₁) := by
  rw [List.map_map]
  exact List.map_congr_left fun c hc => (unionOf_pairOf h₀ h₁ hc).symm

/-- The table over the targets of both numbers the unions of the pairs. -/
theorem table_ofContents_append : (ofContents (g₀.targets ++ g₁.targets) neutral steps).table =
    .ofValues ((jointOf g₀ g₁ neutral steps).pairs.values.map (unionOf g₀ g₁)) := by
  rw [table_ofContents, pairs_jointOf, map_tabulate_append h₀ h₁,
    ← Interned.values_ofValues_map fun p hp q hq => unionOf_inj h₀ h₁ hp hq, Interned.ofValues_values]

theorem symbols_ofContents_append : (ofContents (g₀.targets ++ g₁.targets) neutral steps).symbols =
    (jointOf g₀ g₁ neutral steps).symbols := by
  rw [symbols_ofContents, symbols_jointOf, map_tabulate_append h₀ h₁]
  refine List.map_congr_left fun c hc => ?_
  have hmem : c ∈ neutral :: steps := List.mem_cons_of_mem _ hc
  rw [← unionOf_pairOf h₀ h₁ hmem]
  exact Interned.positionOf_map (fun p hp q hq => unionOf_inj h₀ h₁ hp hq) (List.mem_map_of_mem hmem)

theorem values_ofContents_append : (ofContents (g₀.targets ++ g₁.targets) neutral steps).table.values =
    (jointOf g₀ g₁ neutral steps).pairs.values.map (unionOf g₀ g₁) := by
  rw [table_ofContents_append h₀ h₁]
  apply Interned.values_ofValues_of_nodup
  refine List.Nodup.map_on (fun p hp q hq => ?_) pairs_jointOf_nodup
  exact unionOf_inj h₀ h₁ (mem_pairs_jointOf.mp hp) (mem_pairs_jointOf.mp hq)

theorem size_jointOf : (jointOf g₀ g₁ neutral steps).pairs.size =
    (ofContents (g₀.targets ++ g₁.targets) neutral steps).count := by
  unfold SymbolTable.count Interned.size
  rw [values_ofContents_append h₀ h₁, List.length_map]

theorem ofGroups_ok (hg₀ : 1 < g₀.count) (hg₁ : 1 < g₁.count) :
    ofGroups g₀ g₁ = .ok ⟨jointOf g₀ g₁ neutral steps,
      g₀.width + g₁.width - (jointOf g₀ g₁ neutral steps).width⟩ := by
  have hcounts : ensure (1 < g₀.count && 1 < g₁.count) .singleSymbol = .ok () := by simp [ensure, hg₀, hg₁]
  have hwidth : ensure ((jointOf g₀ g₁ neutral steps).width ≤ g₀.width + g₁.width) .mergedTooWide = .ok () :=
    ensure_eq_ok_iff.mpr (decide_eq_true (width_jointOf_le h₀ h₁))
  unfold ofGroups
  simp only [hcounts, ok_bind, encodeTogether_eq h₀ h₁, hwidth, pure_eq_ok]

/-- The candidate of two groups has the width of the merged group, and its score is what the merge
saves. -/
theorem ofGroups_spec {c : MergeCandidate} (hg₀ : 1 < g₀.count) (hg₁ : 1 < g₁.count)
    (hc : ofGroups g₀ g₁ = .ok c) :
    c.joint = jointOf g₀ g₁ neutral steps ∧
      (ofContents (g₀.targets ++ g₁.targets) neutral steps).width = c.width ∧
      c.score + c.width = g₀.width + g₁.width := by
  rw [ofGroups_ok h₀ h₁ hg₀ hg₁] at hc
  obtain rfl := Except.ok.inj hc
  refine ⟨rfl, ?_, Nat.sub_add_cancel (width_jointOf_le h₀ h₁)⟩
  rw [SymbolTable.width_eq, ← size_jointOf h₀ h₁]
  exact (JointEncoding.width_eq _).symm

/-- The joint table passes the check against both tables in every step. -/
theorem forM_checkStep_ok : (ofContents (g₀.targets ++ g₁.targets) neutral steps).symbols.zipIdx.forM
    (fun (symbol, step) => do
      let contents ← (ofContents (g₀.targets ++ g₁.targets) neutral steps).contents symbol
      [g₀, g₁].forM (checkStep step symbol contents)) = .ok () := by
  have hnum := numbers_ofContents (g₀.targets ++ g₁.targets) neutral steps
  rw [forM_eq_ok_iff]
  rintro ⟨symbol, step⟩ hmem
  have hsym := List.mem_zipIdx_iff_getElem?.mp hmem
  rw [hnum.symbols_eq, List.getElem?_map, Option.map_eq_some_iff] at hsym
  obtain ⟨c, hstep, rfl⟩ := hsym
  show (_ >>= _) = _
  rw [hnum.contents_codeOf (List.mem_cons_of_mem _ (List.mem_of_getElem? hstep)), ok_bind,
    forM_eq_ok_iff]
  have hboth : ∀ t ∈ g₀.targets ++ g₁.targets,
      (tabulate c (g₀.targets ++ g₁.targets)).get? t = some (c t) := by
    intro t ht
    rw [NatMap.get?_tabulate, if_pos ht]
  intro g hg
  rw [List.mem_cons, List.mem_singleton] at hg
  rcases hg with rfl | rfl
  · exact checkStep_ok h₀ hstep fun t ht => hboth t (List.mem_append_left _ ht)
  · exact checkStep_ok h₁ hstep fun t ht => hboth t (List.mem_append_right _ ht)

theorem realize_ok {c : MergeCandidate} (hc : c.joint = jointOf g₀ g₁ neutral steps)
    (hdisj : ∀ t ∈ g₀.targets, t ∉ g₁.targets) :
    c.realize g₀ g₁ = .ok (ofContents (g₀.targets ++ g₁.targets) neutral steps) := by
  have hparts : ofParts (g₀.targets ++ g₁.targets) (jointOf g₀ g₁ neutral steps).symbols
      (.ofValues ((jointOf g₀ g₁ neutral steps).pairs.values.map (unionOf g₀ g₁))) =
      .ok (ofContents (g₀.targets ++ g₁.targets) neutral steps) := by
    rw [← symbols_ofContents_append h₀ h₁, ← table_ofContents_append h₀ h₁]
    exact ofParts_eq _
  have hnd : ((jointOf g₀ g₁ neutral steps).pairs.values.map (unionOf g₀ g₁)).Nodup := by
    have := (numbers_ofContents (g₀.targets ++ g₁.targets) neutral steps).values_nodup
    rwa [values_ofContents_append h₀ h₁] at this
  have htable : (jointOf g₀ g₁ neutral steps).pairs.indexed.foldlM (internPair g₀ g₁) .empty =
      .ok (.ofValues ((jointOf g₀ g₁ neutral steps).pairs.values.map (unionOf g₀ g₁))) :=
    foldlM_internPair (fun p hp => pairs_lt h₀ h₁ hp) hnd
  have hcheck := forM_checkStep_ok h₀ h₁
  have hens : ensure (g₀.targets.all fun t => !g₁.targets.contains t) .commonTargets = .ok () := by
    rw [ensure_eq_ok_iff, List.all_eq_true]
    intro t ht
    simpa using hdisj t ht
  unfold realize
  rw [hens, ok_bind, hc, htable, ok_bind, hparts, ok_bind]
  show (List.forM _ _ >>= _) = _
  rw [hcheck]
  rfl

end

end MergeCandidate

end ControlStore
