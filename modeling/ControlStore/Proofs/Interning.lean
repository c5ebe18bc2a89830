import ControlStore.Collections
import ControlStore.Proofs.Checked
import Mathlib.Data.List.Induction
import Mathlib.Data.List.Nodup

/-! # Interned values

A table that values were interned into is determined by them (`Interned.ofValues`): it lists each of them
once, in order of first occurrence, and finds each at its position.  Interning one more value leads from the
table of some values to the table of these and the new one (`intern_ofValues`), so the index of a value is its
position in the finished table (`internAll_ofValues`), and the two directions of a table stay inverse to each
other (`internAll_inverse`).  Renaming values by a function that keeps them apart does not change their
positions (`positionOf_map`), which is what makes the symbols of a merged table those of its
pairs. -/

namespace ControlStore.Interned

variable {α β : Type}

theorem mem_indexed_iff {t : Interned α} {i : Nat} {v : α} :
    (i, v) ∈ t.indexed ↔ t.values[i]? = some v := by
  unfold indexed
  rw [List.mem_map]
  constructor
  · rintro ⟨⟨v, i⟩, hmem, heq⟩
    cases heq
    exact List.mem_zipIdx_iff_getElem?.mp hmem
  · intro hget
    exact ⟨(v, i), List.mem_zipIdx_iff_getElem?.mpr hget, rfl⟩

theorem map_fst_indexed (t : Interned α) : t.indexed.map Prod.fst = List.range t.size := by
  unfold indexed
  rw [List.map_map]
  exact (List.zipIdx_map_snd 0 t.values).trans List.range_eq_range'.symm

theorem map_snd_indexed (t : Interned α) : t.indexed.map Prod.snd = t.values := by
  unfold indexed
  rw [List.map_map]
  exact List.zipIdx_map_fst 0 t.values

variable [DecidableEq α] [DecidableEq β]

/-! ### First occurrences -/

theorem eraseDups_concat (l : List α) (v : α) :
    (l ++ [v]).eraseDups = if v ∈ l then l.eraseDups else l.eraseDups ++ [v] := by
  rw [List.eraseDups_append, List.removeAll]
  split
  · next hv => simp [hv]
  · next hv =>
    simp only [List.filter_singleton, List.elem_eq_mem, hv, decide_false, Bool.not_false, cond_true]
    rfl

theorem nodup_eraseDups (l : List α) : l.eraseDups.Nodup := by
  induction l using List.reverseRecOn with
  | nil => exact List.nodup_nil
  | append_singleton l v ih =>
      rw [eraseDups_concat]
      split
      · exact ih
      · next hv =>
        refine List.nodup_append.mpr ⟨ih, List.nodup_singleton v, ?_⟩
        rintro a ha b hb rfl
        rw [List.mem_singleton] at hb
        exact hv (hb ▸ List.mem_eraseDups.mp ha)

theorem eraseDups_of_nodup {l : List α} (h : l.Nodup) : l.eraseDups = l := by
  induction l using List.reverseRecOn with
  | nil => rfl
  | append_singleton l v ih =>
      obtain ⟨hl, -, hapart⟩ := List.nodup_append.mp h
      rw [eraseDups_concat, if_neg fun hv => hapart v hv v List.mem_cons_self rfl, ih hl]

/-- A renaming that keeps values apart commutes with leaving out repetitions. -/
theorem eraseDups_map {f : α → β} {l : List α} (hf : ∀ v ∈ l, ∀ w ∈ l, f v = f w → v = w) :
    (l.map f).eraseDups = l.eraseDups.map f := by
  induction l using List.reverseRecOn with
  | nil => rfl
  | append_singleton l v ih =>
      have hmem : f v ∈ l.map f ↔ v ∈ l := by
        rw [List.mem_map]
        constructor
        · rintro ⟨w, hw, heq⟩
          exact hf w (by simp [hw]) v (by simp) heq ▸ hw
        · exact fun hv => ⟨v, hv, rfl⟩
      rw [List.map_append, List.map_singleton, eraseDups_concat, eraseDups_concat,
        ih fun a ha b hb => hf a (by simp [ha]) b (by simp [hb])]
      simp only [hmem]
      split
      · rfl
      · rw [List.map_append, List.map_singleton]

/-- A renaming that keeps `v` apart from the other values keeps its position. -/
theorem idxOf_map {f : α → β} {l : List α} {v : α} (hf : ∀ w ∈ l, f w = f v → w = v) :
    (l.map f).idxOf (f v) = l.idxOf v := by
  induction l with
  | nil => rfl
  | cons a l ih =>
      have hbeq : (f a == f v) = (a == v) := by
        apply Bool.eq_iff_iff.mpr
        rw [beq_iff_eq, beq_iff_eq]
        exact ⟨hf a List.mem_cons_self, fun h => h ▸ rfl⟩
      rw [List.map_cons, List.idxOf_cons, List.idxOf_cons, hbeq,
        ih fun w hw => hf w (List.mem_cons_of_mem a hw)]

theorem lookup_zipIdx (l : List α) (v : α) (start : Nat) :
    (l.zipIdx start).lookup v = if v ∈ l then some (start + l.idxOf v) else none := by
  induction l generalizing start with
  | nil => rfl
  | cons a l ih =>
      rw [List.zipIdx_cons, List.lookup_cons, ih, List.idxOf_cons]
      by_cases ha : v = a
      · simp [ha]
      · rw [beq_eq_false_iff_ne.mpr ha, beq_eq_false_iff_ne.mpr (Ne.symm ha)]
        by_cases hv : v ∈ l
        · simp only [hv, List.mem_cons, or_true, if_true, cond_false]
          congr 1
          omega
        · simp [hv, ha]

/-! ### The table of a list of values -/

/-- The table that `vs` were interned into. -/
def ofValues (vs : List α) : Interned α := ⟨vs.eraseDups, vs.eraseDups.zipIdx⟩

/-- The position of `v` among the values of the table. -/
def positionOf (t : Interned α) (v : α) : Nat := t.values.idxOf v

theorem ofValues_nil : (ofValues [] : Interned α) = empty := rfl

theorem ofValues_values (vs : List α) : ofValues (ofValues vs).values = ofValues vs := by
  unfold ofValues
  rw [eraseDups_of_nodup (nodup_eraseDups vs)]

theorem mem_values_ofValues {vs : List α} {v : α} : v ∈ (ofValues vs).values ↔ v ∈ vs := List.mem_eraseDups

theorem values_ofValues_nodup (vs : List α) : (ofValues vs).values.Nodup := nodup_eraseDups vs

theorem values_ofValues_of_nodup {vs : List α} (h : vs.Nodup) : (ofValues vs).values = vs :=
  eraseDups_of_nodup h

theorem head_values_ofValues (v : α) (vs : List α) : (ofValues (v :: vs)).values[0]? = some v := by
  show (v :: vs).eraseDups[0]? = some v
  rw [List.eraseDups_cons]
  rfl

/-- Later values do not change the position of an earlier one. -/
theorem positionOf_append {vs : List α} {v : α} (hv : v ∈ vs) (more : List α) :
    (ofValues (vs ++ more)).positionOf v = (ofValues vs).positionOf v := by
  show (vs ++ more).eraseDups.idxOf v = vs.eraseDups.idxOf v
  rw [List.eraseDups_append, List.idxOf_append, if_pos (List.mem_eraseDups.mpr hv)]

section
variable {f : α → β} {vs : List α} (hf : ∀ v ∈ vs, ∀ w ∈ vs, f v = f w → v = w)
include hf

theorem values_ofValues_map : (ofValues (vs.map f)).values = (ofValues vs).values.map f := eraseDups_map hf

theorem positionOf_map {v : α} (hv : v ∈ vs) :
    (ofValues (vs.map f)).positionOf (f v) = (ofValues vs).positionOf v := by
  unfold positionOf
  rw [values_ofValues_map hf]
  exact idxOf_map fun w hw => hf w (mem_values_ofValues.mp hw) v hv

end

theorem index?_ofValues (vs : List α) (v : α) :
    (ofValues vs).index? v = if v ∈ vs then some ((ofValues vs).positionOf v) else none := by
  show vs.eraseDups.zipIdx.lookup v = _
  rw [lookup_zipIdx, Nat.zero_add]
  simp only [List.mem_eraseDups]
  rfl

/-- In a table of values, a value is found at an index exactly if it stands there. -/
theorem index?_ofValues_eq_some_iff {vs : List α} {v : α} {i : Nat} :
    (ofValues vs).index? v = some i ↔ (ofValues vs).values[i]? = some v := by
  rw [index?_ofValues, List.getElem?_eq_some_iff]
  constructor
  · intro hi
    split at hi
    · next hv =>
      cases hi
      have hlt := List.idxOf_lt_length_iff.mpr (mem_values_ofValues.mpr hv)
      exact ⟨hlt, List.getElem_idxOf hlt⟩
    · cases hi
  · rintro ⟨hi, rfl⟩
    rw [if_pos (mem_values_ofValues.mp (List.getElem_mem hi))]
    exact congrArg some ((values_ofValues_nodup vs).idxOf_getElem i hi)

/-- One more value extends both directions of a table alike, unless it is there already. -/
theorem intern_ofValues (vs : List α) (v : α) :
    (ofValues vs).intern v = ((ofValues (vs ++ [v])).positionOf v, ofValues (vs ++ [v])) := by
  unfold intern
  rw [index?_ofValues]
  unfold positionOf ofValues
  rw [eraseDups_concat]
  by_cases hv : v ∈ vs
  · simp only [hv, if_true]
  · have hnew : v ∉ vs.eraseDups := fun hmem => hv (List.mem_eraseDups.mp hmem)
    simp only [hv, if_false, size, List.zipIdx_append, List.idxOf_append, hnew]
    simp

theorem intern_ofValues_of_mem {vs : List α} {v : α} (hv : v ∈ vs) :
    (ofValues vs).intern v = ((ofValues vs).positionOf v, ofValues vs) := by
  unfold intern
  rw [index?_ofValues, if_pos hv]

/-- A value that is not there yet gets the next index. -/
theorem intern_ofValues_of_nodup {vs : List α} {v : α} (h : (vs ++ [v]).Nodup) :
    (ofValues vs).intern v = (vs.length, ofValues (vs ++ [v])) := by
  have hnew : v ∉ vs := fun hv => (List.nodup_append.mp h).2.2 v hv v List.mem_cons_self rfl
  rw [intern_ofValues, positionOf, values_ofValues_of_nodup h, List.idxOf_append, if_neg hnew]
  simp

/-! ### Sequences of values -/

theorem internAll_cons (t : Interned α) (v : α) (vs : List α) :
    t.internAll (v :: vs) =
      ((t.intern v).1 :: ((t.intern v).2.internAll vs).1, ((t.intern v).2.internAll vs).2) := rfl

/-- The index of every value is its position in the finished table. -/
theorem internAll_ofValues (us vs : List α) :
    (ofValues us).internAll vs = (vs.map (ofValues (us ++ vs)).positionOf, ofValues (us ++ vs)) := by
  induction vs generalizing us with
  | nil => rw [List.append_nil]; rfl
  | cons v vs ih =>
      have hfirst : (ofValues (us ++ [v])).positionOf v = (ofValues (us ++ [v] ++ vs)).positionOf v :=
        (positionOf_append (by simp) vs).symm
      rw [internAll_cons, intern_ofValues, ih, hfirst, List.map_cons, List.append_assoc, List.singleton_append]

/-- The first value of a table, and then others. -/
theorem internAll_first (v : α) (vs : List α) : (empty.intern v).2.internAll vs =
    (vs.map (ofValues (v :: vs)).positionOf, ofValues (v :: vs)) := by
  rw [← ofValues_nil, intern_ofValues, internAll_ofValues]
  rfl

/-- When values are interned, each is given its position in the finished table.  There the indices run from
zero up, the values are listed once each in order of first occurrence, a value is found at an index exactly if
it stands there, and interning one of the values again gives its position and changes nothing. -/
theorem internAll_inverse (vs : List α) : ∃ t : Interned α,
    empty.internAll vs = (vs.map vs.eraseDups.idxOf, t) ∧
      t.indexed.map Prod.fst = List.range t.size ∧ t.indexed.map Prod.snd = vs.eraseDups ∧
      (∀ v k, t.index? v = some k ↔ k < t.size ∧ t.fetch k = .ok v) ∧
      ∀ v ∈ vs, t.intern v = (vs.eraseDups.idxOf v, t) := by
  refine ⟨ofValues vs, internAll_ofValues [] vs, map_fst_indexed _, map_snd_indexed _, fun v k => ?_,
    fun v hv => intern_ofValues_of_mem hv⟩
  rw [index?_ofValues_eq_some_iff, fetch, fetch_eq_ok_iff]
  exact (and_iff_right_of_imp fun hget => (List.getElem?_eq_some_iff.mp hget).1).symm

end ControlStore.Interned
