import ControlStore.Design.Basic
import ControlStore.Proofs.Matrices
import ControlStore.Proofs.Sorted
import Mathlib.Data.List.Induction
import Mathlib.Data.List.Pairwise

/-! # Lanes that share bits

`Packing.Packs` is what placing one target after the other keeps: the groups lie one behind the
other, each as wide as its widest member, the lanes of a group start at its offset, and no two of its
members conflict.  Since wider targets are placed first, a target that joins a group never sticks out
of it (`Packs.put`), so two lanes that do not start together do not meet (`Packs.together_or_apart`).
In a word without bound every target can be placed (`freely`); a word of 32 bits holds the lanes
exactly if their width fits it (`ofLiterals_eq`).
For a matrix this gives a lane of the declared width to exactly the targets that carry a literal
stored verbatim (`FlowMatrix.exists_packing`). -/

namespace ControlStore

open NatMap (tabulate)

/-! ### The widest member of a group -/

namespace LaneGroup

variable {width : SignalId → Nat} {g : LaneGroup} {t u : SignalId}

/-- The width of the widest member. -/
def widest (width : SignalId → Nat) (g : LaneGroup) : Nat := (g.members.map width).max?.getD 0

/-- A member that is no wider than another one does not make a group wider. -/
theorem widest_append (hu : u ∈ g.members) (hle : width t ≤ width u) :
    widest width ⟨g.offset, g.members ++ [t]⟩ = widest width g := by
  unfold widest
  cases hmax : (g.members.map width).max? with
  | none =>
      have hnil := List.max?_eq_none_iff.mp hmax
      simp [List.map_eq_nil_iff.mp hnil] at hu
  | some w =>
      obtain ⟨hw, hbound⟩ := List.max?_eq_some_iff.mp hmax
      have hsome : ((g.members ++ [t]).map width).max? = some w := by
        rw [List.max?_eq_some_iff, List.map_append]
        refine ⟨List.mem_append_left _ hw, fun b hb => ?_⟩
        rcases List.mem_append.mp hb with hb | hb
        · exact hbound b hb
        · obtain rfl : b = width t := by simpa using hb
          exact Nat.le_trans hle (hbound _ (List.mem_map_of_mem hu))
      rw [hsome]

end LaneGroup

namespace Packing

/-- A group that starts at `offset` has the member `t`. -/
def StartsAt (groups : List LaneGroup) (t : SignalId) (offset : Nat) : Prop :=
  ∃ g ∈ groups, t ∈ g.members ∧ g.offset = offset

/-- The lanes of the targets in the groups, each `width t` bits wide. -/
structure Packs (conflict : SignalId → SignalId → Bool) (width : SignalId → Nat) (p : Packing) :
    Prop where
  lane_iff : ∀ t l, p.lanes.get? t = some l ↔ StartsAt p.groups t l.offset ∧ l.width = width t
  inhabited : ∀ g ∈ p.groups, ∃ t, t ∈ g.members
  compatible : ∀ g ∈ p.groups, g.members.Pairwise fun a b => conflict a b = false
  ordered : p.groups.Pairwise fun g h => ∀ t ∈ g.members, g.offset + width t ≤ h.offset
  within : ∀ g ∈ p.groups, ∀ t ∈ g.members, g.offset + width t ≤ p.width
  once : (p.groups.flatMap LaneGroup.members).Nodup
  filled : p.width = (p.groups.map (LaneGroup.widest width)).sum

variable {conflict : SignalId → SignalId → Bool} {width : SignalId → Nat} {p : Packing}
  {t : SignalId}

theorem packs_empty (conflict : SignalId → SignalId → Bool) (width : SignalId → Nat) :
    Packs conflict width empty where
  lane_iff t l := by simp [empty, StartsAt]
  inhabited g hg := absurd hg List.not_mem_nil
  compatible g hg := absurd hg List.not_mem_nil
  ordered := List.Pairwise.nil
  within g hg := absurd hg List.not_mem_nil
  once := List.nodup_nil
  filled := rfl

theorem Packs.get?_of_mem (hp : Packs conflict width p) {g : LaneGroup} (hg : g ∈ p.groups)
    (ht : t ∈ g.members) : p.lanes.get? t = some ⟨g.offset, width t⟩ :=
  (hp.lane_iff t _).mpr ⟨⟨g, hg, ht, rfl⟩, rfl⟩

/-! ### Placing one target -/

/-- Some member of the group conflicts with the target. -/
def Refuses (conflict : SignalId → SignalId → Bool) (t : SignalId) (g : LaneGroup) : Prop :=
  ∃ u ∈ g.members, conflict u t = true

theorem all_compatible_iff {g : LaneGroup} :
    (g.members.all fun member => !conflict member t) = true ↔ ∀ u ∈ g.members, conflict u t = false := by
  simp

theorem refuses_of_not_all {g : LaneGroup} (h : ¬ (g.members.all fun member => !conflict member t) = true) :
    Refuses conflict t g := by
  simpa [Refuses] using h

/-- A target joins the first group that does not refuse it, and leaves the others alone. -/
theorem join?_eq_some {groups groups' : List LaneGroup} {offset : Nat}
    (h : join? conflict t groups = some (offset, groups')) :
    ∃ before g after, groups = before ++ g :: after ∧ (∀ h ∈ before, Refuses conflict t h) ∧
      (∀ u ∈ g.members, conflict u t = false) ∧ offset = g.offset ∧
      groups' = before ++ ⟨g.offset, g.members ++ [t]⟩ :: after := by
  induction groups generalizing offset groups' with
  | nil => cases h
  | cons g groups ih =>
      rw [join?] at h
      split at h
      · next hall =>
        cases h
        exact ⟨[], g, groups, rfl, List.forall_mem_nil _, all_compatible_iff.mp hall, rfl, rfl⟩
      · next hall =>
        obtain ⟨⟨o, rest⟩, hrest, heq⟩ := Option.map_eq_some_iff.mp h
        cases heq
        obtain ⟨before, g', after, rfl, hrefuse, hcompat, rfl, rfl⟩ := ih hrest
        exact ⟨g :: before, g', after, rfl,
          List.forall_mem_cons.mpr ⟨refuses_of_not_all hall, hrefuse⟩, hcompat, rfl, rfl⟩

/-- A target that joins no group is refused by all. -/
theorem refuses_of_join?_eq_none {groups : List LaneGroup} (h : join? conflict t groups = none) :
    ∀ g ∈ groups, Refuses conflict t g := by
  induction groups with
  | nil => exact List.forall_mem_nil _
  | cons g groups ih =>
      rw [join?] at h
      split at h
      · cases h
      · next hall =>
        exact List.forall_mem_cons.mpr ⟨refuses_of_not_all hall, ih (Option.map_eq_none_iff.mp h)⟩

theorem startsAt_join {before after : List LaneGroup} {g : LaneGroup} {u : SignalId} {offset : Nat} :
    StartsAt (before ++ ⟨g.offset, g.members ++ [t]⟩ :: after) u offset ↔
      StartsAt (before ++ g :: after) u offset ∨ (u = t ∧ g.offset = offset) := by
  unfold StartsAt
  simp only [List.mem_append, List.mem_cons, List.not_mem_nil, or_false, or_and_right, exists_or,
    exists_eq_left]
  grind

theorem startsAt_open {groups : List LaneGroup} {start : Nat} {u : SignalId} {offset : Nat} :
    StartsAt (groups ++ [⟨start, [t]⟩]) u offset ↔
      StartsAt groups u offset ∨ (u = t ∧ start = offset) := by
  unfold StartsAt
  simp only [List.mem_append, List.mem_singleton, or_and_right, exists_or, exists_eq_left]

/-- Only the joined group changes. -/
theorem mem_or_eq_of_mem_join {before after : List LaneGroup} {g g' h : LaneGroup}
    (hh : h ∈ before ++ g' :: after) : h ∈ before ++ g :: after ∨ h = g' := by
  rcases List.mem_append.mp hh with hh | hh
  · exact .inl (List.mem_append_left _ hh)
  · rcases List.mem_cons.mp hh with rfl | hh
    · exact .inr rfl
    · exact .inl (List.mem_append_right _ (List.mem_cons_of_mem _ hh))

theorem members_join_perm (before after : List LaneGroup) (g : LaneGroup) (t : SignalId) :
    ((before ++ ⟨g.offset, g.members ++ [t]⟩ :: after).flatMap LaneGroup.members).Perm
      (t :: (before ++ g :: after).flatMap LaneGroup.members) := by
  simp only [List.flatMap_append, List.flatMap_cons, List.append_assoc, List.singleton_append]
  rw [← List.append_assoc, ← List.append_assoc]
  exact List.perm_middle

/-- A fresh target gets the one lane that it was given; the lanes of others stay. -/
theorem get?_insert_iff {groups groups' : List LaneGroup} {lanes : NatMap Lane} {start : Nat}
    (h : ∀ u l, lanes.get? u = some l ↔ StartsAt groups u l.offset ∧ l.width = width u)
    (hfresh : ∀ g ∈ groups, t ∉ g.members)
    (hgroups : ∀ u offset, StartsAt groups' u offset ↔ StartsAt groups u offset ∨ (u = t ∧ start = offset))
    (u : SignalId) (l : Lane) : (lanes.insert t ⟨start, width t⟩).get? u = some l ↔
      StartsAt groups' u l.offset ∧ l.width = width u := by
  rw [NatMap.get?_insert, hgroups]
  by_cases hu : u = t
  · subst hu
    have hno : ¬ StartsAt groups u l.offset := fun ⟨g, hg, hmem, _⟩ => hfresh g hg hmem
    obtain ⟨offset, w⟩ := l
    simp [hno, eq_comm]
  · simp [hu, h]

theorem Packs.join (hp : Packs conflict width p) {before after : List LaneGroup} {g : LaneGroup}
    (hgroups : p.groups = before ++ g :: after) (hcompat : ∀ u ∈ g.members, conflict u t = false)
    (hfresh : ∀ h ∈ p.groups, t ∉ h.members)
    (hwide : ∀ h ∈ p.groups, ∀ u ∈ h.members, width t ≤ width u) :
    Packs conflict width
      ⟨before ++ ⟨g.offset, g.members ++ [t]⟩ :: after, p.lanes.insert t ⟨g.offset, width t⟩, p.width⟩ := by
  have hg : g ∈ p.groups := by
    rw [hgroups]
    exact List.mem_append_right _ List.mem_cons_self
  have hsplit : ∀ h, h ∈ before ++ (⟨g.offset, g.members ++ [t]⟩ :: after : List LaneGroup) →
      h ∈ p.groups ∨ h = ⟨g.offset, g.members ++ [t]⟩ := fun h hh => hgroups ▸ mem_or_eq_of_mem_join hh
  have hcovered : ∀ {stop : Nat}, (∀ u ∈ g.members, g.offset + width u ≤ stop) →
      ∀ u ∈ g.members ++ [t], g.offset + width u ≤ stop := by
    intro stop hstop u hu
    rcases List.mem_append.mp hu with hu | hu
    · exact hstop u hu
    · obtain rfl := List.mem_singleton.mp hu
      obtain ⟨v, hv⟩ := hp.inhabited g hg
      have := hstop v hv
      have := hwide g hg v hv
      omega
  refine ⟨get?_insert_iff hp.lane_iff hfresh fun u offset => hgroups ▸ startsAt_join, ?_, ?_, ?_, ?_, ?_, ?_⟩
  · intro h hh
    rcases hsplit h hh with hh | rfl
    · exact hp.inhabited h hh
    · exact ⟨t, List.mem_append_right _ (List.mem_singleton.mpr rfl)⟩
  · intro h hh
    rcases hsplit h hh with hh | rfl
    · exact hp.compatible h hh
    · refine List.pairwise_append.mpr ⟨hp.compatible g hg, List.pairwise_singleton _ _, ?_⟩
      intro a ha b hb
      exact List.mem_singleton.mp hb ▸ hcompat a ha
  · have hord := hp.ordered
    rw [hgroups] at hord
    simp only [List.pairwise_append, List.pairwise_cons] at hord ⊢
    obtain ⟨hbefore, ⟨hgafter, hafter⟩, hcross⟩ := hord
    refine ⟨hbefore, ⟨fun h hh => hcovered (hgafter h hh), hafter⟩, fun h hh h' hh' => ?_⟩
    rcases List.mem_cons.mp hh' with rfl | hh'
    · exact hcross h hh g List.mem_cons_self
    · exact hcross h hh h' (List.mem_cons_of_mem _ hh')
  · intro h hh
    rcases hsplit h hh with hh | rfl
    · exact hp.within h hh
    · exact hcovered (hp.within g hg)
  · have hperm := members_join_perm before after g t
    rw [← hgroups] at hperm
    refine hperm.nodup_iff.mpr (List.nodup_cons.mpr ⟨fun ht => ?_, hp.once⟩)
    obtain ⟨h, hh, ht⟩ := List.mem_flatMap.mp ht
    exact hfresh h hh ht
  · obtain ⟨u, hu⟩ := hp.inhabited g hg
    have hfilled := hp.filled
    simp only [hgroups, List.map_append, List.map_cons] at hfilled ⊢
    rw [LaneGroup.widest_append hu (hwide g hg u hu)]
    exact hfilled

theorem Packs.open (hp : Packs conflict width p) (hfresh : ∀ h ∈ p.groups, t ∉ h.members) :
    Packs conflict width
      ⟨p.groups ++ [⟨p.width, [t]⟩], p.lanes.insert t ⟨p.width, width t⟩, p.width + width t⟩ := by
  have hsplit : ∀ h, h ∈ p.groups ++ [(⟨p.width, [t]⟩ : LaneGroup)] → h ∈ p.groups ∨ h = ⟨p.width, [t]⟩ :=
    fun h hh => (List.mem_append.mp hh).imp_right List.mem_singleton.mp
  refine ⟨get?_insert_iff hp.lane_iff hfresh fun u offset => startsAt_open, ?_, ?_, ?_, ?_, ?_, ?_⟩
  · intro h hh
    rcases hsplit h hh with hh | rfl
    · exact hp.inhabited h hh
    · exact ⟨t, List.mem_singleton.mpr rfl⟩
  · intro h hh
    rcases hsplit h hh with hh | rfl
    · exact hp.compatible h hh
    · exact List.pairwise_singleton _ _
  · refine List.pairwise_append.mpr ⟨hp.ordered, List.pairwise_singleton _ _, fun h hh h' hh' => ?_⟩
    obtain rfl := List.mem_singleton.mp hh'
    exact hp.within h hh
  · intro h hh u hu
    rcases hsplit h hh with hh | rfl
    · exact Nat.le_trans (hp.within h hh u hu) (Nat.le_add_right _ _)
    · obtain rfl := List.mem_singleton.mp hu
      exact Nat.le_refl _
  · rw [List.flatMap_append, List.nodup_append]
    refine ⟨hp.once, by simp, fun u hu v hv huv => ?_⟩
    obtain ⟨h, hh, hu⟩ := List.mem_flatMap.mp hu
    obtain rfl : v = t := by simpa using hv
    exact hfresh h hh (huv ▸ hu)
  · simp [hp.filled, LaneGroup.widest]

/-- Assigns a lane to one more target, in a word without bound. -/
def put (conflict : SignalId → SignalId → Bool) (p : Packing) (entry : SignalId × Nat) : Packing :=
  match join? conflict entry.1 p.groups with
  | some (offset, groups) => { p with groups, lanes := p.lanes.insert entry.1 ⟨offset, entry.2⟩ }
  | none => ⟨p.groups ++ [⟨p.width, [entry.1]⟩], p.lanes.insert entry.1 ⟨p.width, entry.2⟩, p.width + entry.2⟩

/-- A target joins a group that does not refuse it, after groups that do, or opens a group of its own
if all refuse it. -/
theorem put_cases (conflict : SignalId → SignalId → Bool) (p : Packing) (t : SignalId) (w : Nat) :
    (∃ before g after, p.groups = before ++ g :: after ∧ (∀ h ∈ before, Refuses conflict t h) ∧
      (∀ u ∈ g.members, conflict u t = false) ∧ put conflict p (t, w) =
        ⟨before ++ ⟨g.offset, g.members ++ [t]⟩ :: after, p.lanes.insert t ⟨g.offset, w⟩, p.width⟩) ∨
    ((∀ g ∈ p.groups, Refuses conflict t g) ∧ put conflict p (t, w) =
      ⟨p.groups ++ [⟨p.width, [t]⟩], p.lanes.insert t ⟨p.width, w⟩, p.width + w⟩) := by
  unfold put
  split
  · next offset groups hjoin =>
    obtain ⟨before, g, after, hgroups, hrefuse, hcompat, rfl, rfl⟩ := join?_eq_some hjoin
    exact .inl ⟨before, g, after, hgroups, hrefuse, hcompat, rfl⟩
  · next hjoin => exact .inr ⟨refuses_of_join?_eq_none hjoin, rfl⟩

theorem exists_get?_put (conflict : SignalId → SignalId → Bool) (p : Packing) (e : SignalId × Nat) :
    ∃ l, ∀ u, (put conflict p e).lanes.get? u = if u = e.1 then some l else p.lanes.get? u := by
  unfold put
  split
  · exact ⟨_, fun u => NatMap.get?_insert _ _ _ _⟩
  · exact ⟨_, fun u => NatMap.get?_insert _ _ _ _⟩

theorem width_put_le (conflict : SignalId → SignalId → Bool) (p : Packing) (e : SignalId × Nat) :
    p.width ≤ (put conflict p e).width ∧ (put conflict p e).width ≤ p.width + e.2 := by
  unfold put
  split
  · exact ⟨Nat.le_refl _, Nat.le_add_right _ _⟩
  · exact ⟨Nat.le_add_right _ _, Nat.le_refl _⟩

/-- Placing a target fails exactly if the word gets too wide. -/
theorem place_eq_put {p : Packing} (h : p.width < Width.limit) (e : SignalId × Nat) :
    place conflict p e = if (put conflict p e).width < Width.limit then .ok (put conflict p e)
      else .error .sumTooLarge := by
  obtain ⟨t, w⟩ := e
  unfold place put
  dsimp only
  cases join? conflict t p.groups with
  | some joined => exact (if_pos h).symm
  | none =>
      by_cases hsum : p.width + w < Width.limit
      · simp [Width.add, hsum]
      · simp [Width.add, hsum]

/-- The order in which targets are placed: wider ones first, those of one width as declared. -/
def Precedes (width : SignalId → Nat) (a b : Nat) : Prop :=
  width b < width a ∨ (width a = width b ∧ a < b)

section
variable {a b : SignalId} (h : Precedes width a b)
include h

theorem Precedes.width_le : width b ≤ width a := by
  unfold Precedes at h
  omega

theorem Precedes.ne : a ≠ b := by
  rintro rfl
  unfold Precedes at h
  omega

end

/-- A target that comes after all placed ones gets a lane as wide as the target. -/
theorem Packs.put (hp : Packs conflict width p)
    (hplaced : ∀ u l, p.lanes.get? u = some l → Precedes width u t) :
    Packs conflict width (put conflict p (t, width t)) := by
  have hbefore : ∀ g ∈ p.groups, ∀ u ∈ g.members, Precedes width u t :=
    fun g hg u hu => hplaced u _ (hp.get?_of_mem hg hu)
  have hfresh : ∀ g ∈ p.groups, t ∉ g.members := fun g hg ht => (hbefore g hg t ht).ne rfl
  rcases put_cases conflict p t (width t) with ⟨before, g, after, hgroups, -, hcompat, hput⟩ | ⟨-, hput⟩
  · rw [hput]
    exact hp.join hgroups hcompat hfresh fun h hh u hu => (hbefore h hh u hu).width_le
  · rw [hput]
    exact hp.open hfresh

/-- A placed target precedes those that it preceded. -/
theorem precedes_put {ts : List SignalId} (hfirst : ∀ u ∈ ts, Precedes width t u)
    (hplaced : ∀ s ∈ ts, ∀ u l, p.lanes.get? u = some l → Precedes width u s) :
    ∀ s ∈ ts, ∀ u l, (Packing.put conflict p (t, width t)).lanes.get? u = some l → Precedes width u s := by
  obtain ⟨l, hget⟩ := exists_get?_put conflict p (t, width t)
  intro s hs u k hu
  rw [hget] at hu
  split at hu
  · next hut => exact hut ▸ hfirst s hs
  · exact hplaced s hs u k hu

/-! ### Placing all targets -/

theorem width_le_foldl_put (conflict : SignalId → SignalId → Bool) (es : List (SignalId × Nat)) (p : Packing) :
    p.width ≤ (es.foldl (put conflict) p).width ∧
      (es.foldl (put conflict) p).width ≤ p.width + (es.map Prod.snd).sum := by
  induction es generalizing p with
  | nil => simp
  | cons e es ih =>
      have hstep := width_put_le conflict p e
      have hrest := ih (put conflict p e)
      simp only [List.foldl_cons, List.map_cons, List.sum_cons]
      omega

/-- Targets are placed in a bounded word exactly if the word that holds them all is not too wide:
once it is, it stays so. -/
theorem foldlM_place_eq (es : List (SignalId × Nat)) {p : Packing} (h : p.width < Width.limit) :
    es.foldlM (place conflict) p =
      if (es.foldl (put conflict) p).width < Width.limit then .ok (es.foldl (put conflict) p)
      else .error .sumTooLarge := by
  induction es generalizing p with
  | nil => exact (if_pos h).symm
  | cons e es ih =>
      rw [List.foldlM_cons, List.foldl_cons, place_eq_put h]
      by_cases hput : (put conflict p e).width < Width.limit
      · rw [if_pos hput, ok_bind, ih hput]
      · have hmore := (width_le_foldl_put conflict es (put conflict p e)).1
        rw [if_neg hput, error_bind, if_neg (by omega)]

/-- Targets placed in their order all get a lane. -/
theorem Packs.foldl_put {ts : List SignalId} {p : Packing} (hp : Packs conflict width p)
    (hts : ts.Pairwise (Precedes width))
    (hplaced : ∀ t ∈ ts, ∀ u l, p.lanes.get? u = some l → Precedes width u t) :
    Packs conflict width ((ts.map fun t => (t, width t)).foldl (Packing.put conflict) p) ∧
      ∀ u, (((ts.map fun t => (t, width t)).foldl (Packing.put conflict) p).lanes.get? u).isSome ↔
        (p.lanes.get? u).isSome ∨ u ∈ ts := by
  induction ts generalizing p with
  | nil => exact ⟨hp, by simp⟩
  | cons t ts ih =>
      obtain ⟨ht, hrest⟩ := List.forall_mem_cons.mp hplaced
      obtain ⟨hfirst, hts⟩ := List.pairwise_cons.mp hts
      obtain ⟨l, hget⟩ := exists_get?_put conflict p (t, width t)
      obtain ⟨hp', hlanes⟩ := ih (hp.put ht) hts (precedes_put hfirst hrest)
      refine ⟨hp', fun u => ?_⟩
      rw [List.map_cons, List.foldl_cons, hlanes, hget, List.mem_cons]
      by_cases hu : u = t <;> simp [hu]

/-! ### Two lanes -/

section
variable (hp : Packs conflict width p) {t t' : SignalId} {l l' : Lane}
include hp

theorem Packs.width_eq (h : p.lanes.get? t = some l) : l.width = width t := ((hp.lane_iff t l).mp h).2

theorem Packs.stop_le (h : p.lanes.get? t = some l) : l.offset + l.width ≤ p.width := by
  obtain ⟨⟨g, hg, ht, hoffset⟩, hwidth⟩ := (hp.lane_iff t l).mp h
  rw [← hoffset, hwidth]
  exact hp.within g hg t ht

/-- Two targets have lanes that start together and do not conflict, or lanes that do not meet. -/
theorem Packs.together_or_apart (hsymm : ∀ a b, conflict a b = conflict b a)
    (h : p.lanes.get? t = some l) (h' : p.lanes.get? t' = some l') (hne : t ≠ t') :
    (l.offset = l'.offset ∧ conflict t t' = false) ∨
      l.offset + l.width ≤ l'.offset ∨ l'.offset + l'.width ≤ l.offset := by
  obtain ⟨⟨g, hg, ht, hoffset⟩, hwidth⟩ := (hp.lane_iff t l).mp h
  obtain ⟨⟨g', hg', ht', hoffset'⟩, hwidth'⟩ := (hp.lane_iff t' l').mp h'
  rw [← hoffset, ← hoffset', hwidth, hwidth']
  by_cases hgg : g = g'
  · subst hgg
    have : Std.Symm fun a b => conflict a b = false := ⟨fun a b hab => (hsymm b a).trans hab⟩
    exact .inl ⟨rfl, (hp.compatible g hg).forall ht ht' hne⟩
  · let Behind (g h : LaneGroup) : Prop := ∀ t ∈ g.members, g.offset + width t ≤ h.offset
    have : Std.Symm fun g h => Behind g h ∨ Behind h g := ⟨fun _ _ h => h.symm⟩
    have hord : p.groups.Pairwise fun g h => Behind g h ∨ Behind h g := hp.ordered.imp .inl
    rcases hord.forall hg hg' hgg with h | h
    · exact .inr (.inl (h t ht))
    · exact .inr (.inr (h t' ht'))

end

end Packing

/-! ### The lanes of literals -/

theorem conflict_comm (flows : List (NatMap Bits)) (a b : SignalId) :
    conflict flows a b = conflict flows b a := by
  unfold conflict
  congr 1
  funext literals
  cases literals.get? a <;> cases literals.get? b <;> simp [eq_comm]

/-- Targets that do not conflict hold the same literal whenever both hold one. -/
theorem eq_of_conflict_eq_false {flows : List (NatMap Bits)} {a b : SignalId} {literals : NatMap Bits}
    {x y : Bits} (h : conflict flows a b = false) (hmem : literals ∈ flows)
    (hx : literals.get? a = some x) (hy : literals.get? b = some y) : x = y := by
  unfold conflict at h
  have := List.any_eq_false.mp h literals hmem
  simpa [hx, hy] using this

/-- The last literal that the flows give a target. -/
def lastLiteral? (flows : List (NatMap Bits)) (t : SignalId) : Option Bits :=
  flows.reverse.findSome? fun literals => literals.get? t

theorem get?_laneWidths (flows : List (NatMap Bits)) (t : SignalId) :
    (laneWidths flows).get? t = (lastLiteral? flows t).map Bits.width := by
  induction flows using List.reverseRecOn with
  | nil => rfl
  | append_singleton flows literals ih =>
      unfold laneWidths lastLiteral? at ih ⊢
      rw [List.foldl_append, List.foldl_cons, List.foldl_nil, NatMap.get?_overlay, NatMap.get?_map, ih,
        List.reverse_append, List.reverse_singleton, List.singleton_append, List.findSome?_cons]
      cases literals.get? t <;> simp

theorem isSome_lastLiteral? {flows : List (NatMap Bits)} {t : SignalId} :
    (lastLiteral? flows t).isSome ↔ ∃ literals ∈ flows, (literals.get? t).isSome := by
  simp [lastLiteral?, List.findSome?_isSome_iff]

theorem exists_of_lastLiteral? {flows : List (NatMap Bits)} {t : SignalId} {b : Bits}
    (h : lastLiteral? flows t = some b) : ∃ literals ∈ flows, literals.get? t = some b := by
  obtain ⟨literals, hmem, hb⟩ := List.exists_of_findSome?_eq_some h
  exact ⟨literals, List.mem_reverse.mp hmem, hb⟩

namespace Packing

/-- The lanes for the literals of the given flows, in a word without bound. -/
def freely (flows : List (NatMap Bits)) : Packing :=
  (sortBy widerFirst (laneWidths flows).entries).foldl (put (conflict flows)) empty

/-- A bounded word holds the lanes exactly if they fit it. -/
theorem ofLiterals_eq (flows : List (NatMap Bits)) :
    ofLiterals flows = if (freely flows).width < Width.limit then .ok (freely flows)
      else .error .sumTooLarge :=
  foldlM_place_eq _ (Nat.two_pow_pos 32)

theorem ofLiterals_eq_ok_iff {flows : List (NatMap Bits)} {p : Packing} :
    ofLiterals flows = .ok p ↔ freely flows = p ∧ p.width < Width.limit := by
  rw [ofLiterals_eq]
  constructor
  · intro h
    split at h
    · next hlt => exact Except.ok.inj h ▸ ⟨rfl, hlt⟩
    · cases h
  · rintro ⟨rfl, hlt⟩
    exact if_pos hlt

theorem widerFirst_iff {a b : Nat × Nat} :
    widerFirst a b = true ↔ b.2 < a.2 ∨ (a.2 = b.2 ∧ a.1 < b.1) := by
  simp [widerFirst]

/-- Sorted by width, the entries of a table of widths are those of its keys, each before those it
precedes. -/
theorem sortBy_widerFirst (width : SignalId → Nat) {ts : List SignalId} (hts : ts.Pairwise (· < ·)) :
    ∃ us : List SignalId, sortBy widerFirst (tabulate width ts).entries = us.map (fun t => (t, width t)) ∧
      us.Perm ts ∧ us.Pairwise (Precedes width) := by
  have hperm := sortBy_perm widerFirst (tabulate width ts).entries
  have hdesc : (sortBy widerFirst (tabulate width ts).entries).Pairwise
      fun (a b : Nat × Nat) => b.2 < a.2 ∨ (a.2 = b.2 ∧ a.1 ≤ b.1) := by
    apply pairwise_sortBy
    · intro a b c hab hbc
      omega
    · intro a b h
      rw [widerFirst_iff] at h
      omega
    · intro a b h
      rw [← Bool.not_eq_true, widerFirst_iff] at h
      omega
  rw [NatMap.entries_tabulate hts] at hperm hdesc ⊢
  generalize sortBy widerFirst (ts.map fun t => (t, width t)) = l at hperm hdesc ⊢
  have hwidth : ∀ e ∈ l, (e.1, width e.1) = e := by
    intro e he
    obtain ⟨t, -, rfl⟩ := List.mem_map.mp (hperm.mem_iff.mp he)
    rfl
  have hkeys : (l.map Prod.fst).Perm ts := by
    have := hperm.map Prod.fst
    rwa [List.map_map, show (Prod.fst ∘ fun t => (t, width t)) = id from rfl, List.map_id] at this
  refine ⟨l.map Prod.fst, ?_, hkeys, ?_⟩
  · rw [List.map_map]
    exact ((List.map_congr_left hwidth).trans (List.map_id l)).symm
  · have hne : l.Pairwise fun (a b : Nat × Nat) => a.1 ≠ b.1 :=
      List.pairwise_map.mp (hkeys.nodup_iff.mpr (hts.imp Nat.ne_of_lt))
    rw [List.pairwise_map]
    refine (hdesc.and hne).imp_of_mem fun {a b} ha hb ⟨hab, hne⟩ => ?_
    rw [← hwidth a ha, ← hwidth b hb] at hab
    unfold Precedes
    omega

/-- Exactly the targets that have a recorded width get a lane. -/
theorem freely_packs {flows : List (NatMap Bits)} {width : SignalId → Nat} {ts : List SignalId}
    (hts : ts.Pairwise (· < ·)) (hwidths : laneWidths flows = tabulate width ts) :
    Packs (conflict flows) width (freely flows) ∧ (∀ t, ((freely flows).lanes.get? t).isSome ↔ t ∈ ts) ∧
      (freely flows).width ≤ (ts.map width).sum := by
  obtain ⟨us, hsort, hperm, hsorted⟩ := sortBy_widerFirst width hts
  have hsum : (us.map width).sum = (ts.map width).sum := (hperm.map width).sum_nat
  obtain ⟨hp, hlanes⟩ := (packs_empty (conflict flows) width).foldl_put
    hsorted (fun _ _ _ _ h => nomatch h)
  have hle := (width_le_foldl_put (conflict flows) (us.map fun t => (t, width t)) empty).2
  unfold freely
  rw [hwidths, hsort]
  refine ⟨hp, fun t => ?_, ?_⟩
  · rw [hlanes, hperm.mem_iff]
    simp [Packing.empty]
  · rw [← hsum]
    simpa [Packing.empty, Function.comp_def] using hle

/-- Exactly the targets that have a recorded width get a lane, in at most as many bits as they have
together. -/
theorem ofLiterals_ok {flows : List (NatMap Bits)} {width : SignalId → Nat} {ts : List SignalId}
    (hts : ts.Pairwise (· < ·)) (hwidths : laneWidths flows = tabulate width ts)
    (hfit : (ts.map width).sum < Width.limit) :
    ∃ p, ofLiterals flows = .ok p ∧ Packs (conflict flows) width p ∧
      (∀ t, (p.lanes.get? t).isSome ↔ t ∈ ts) ∧ p.width ≤ (ts.map width).sum := by
  have hpacks := freely_packs hts hwidths
  have hlt := Nat.lt_of_le_of_lt hpacks.2.2 hfit
  exact ⟨freely flows, ofLiterals_eq_ok_iff.mpr ⟨rfl, hlt⟩, hpacks⟩

end Packing

/-! ### Packers -/

namespace Packer

open StepFlow

/-- A fresh packer collects the literals of the flows in turn. -/
theorem foldlM_add (flows : List StepFlow) (done : List (NatMap Bits)) :
    flows.foldlM add ⟨done, none⟩ = .ok ⟨done ++ flows.map rawLiterals, none⟩ := by
  induction flows generalizing done with
  | nil => simp
  | cons f flows ih =>
      have hstep : add ⟨done, none⟩ f = .ok ⟨done ++ [rawLiterals f], none⟩ := rfl
      rw [List.foldlM_cons, hstep, ok_bind, ih]
      simp

/-- The lanes of a packer that was filled before are those of the collected literals. -/
theorem pack_eq_ok_iff {flows : List (NatMap Bits)} {packing : Packing} {packed : Packer} :
    pack ⟨flows, none⟩ = .ok (packing, packed) ↔
      Packing.ofLiterals flows = .ok packing ∧ packed = ⟨flows, some packing⟩ := by
  unfold pack
  rw [bind_eq_ok_iff]
  constructor
  · rintro ⟨_, hpack, hpacked⟩
    cases hpacked
    exact ⟨hpack, rfl⟩
  · rintro ⟨hpack, rfl⟩
    exact ⟨packing, hpack, rfl⟩

section
variable {p : Packer} {packing : Packing} (h : p.packing = some packing)
include h

theorem packed_eq_ok : p.packed = .ok packing := require_eq_ok_iff.mpr h

theorem width_eq_ok : p.width = .ok packing.width := by
  unfold width
  rw [packed_eq_ok h]
  rfl

theorem lane?_eq_ok (t : SignalId) : p.lane? t = .ok (packing.lanes.get? t) := by
  unfold lane?
  rw [packed_eq_ok h]
  rfl

theorem lane_eq (t : SignalId) : p.lane t = require (packing.lanes.get? t) (.noLane t) := by
  unfold lane
  rw [lane?_eq_ok h, ok_bind]

end

end Packer

/-! ### The lanes of a matrix -/

/-- The literals stored verbatim in the neutral flow and in every merged step. -/
def Design.literals (m : FlowMatrix) : List (NatMap Bits) := (packedFlows m).map StepFlow.rawLiterals

theorem Design.foldlM_packedFlows (m : FlowMatrix) :
    (packedFlows m).foldlM Packer.add .empty = .ok ⟨literals m, none⟩ := Packer.foldlM_add (packedFlows m) []

namespace FlowMatrix

open StepFlow Packing

variable {m : FlowMatrix}

theorem mem_literals_iff {literals : NatMap Bits} : literals ∈ Design.literals m ↔
    literals = rawLiterals m.neutral ∨
      ∃ f ∈ m.steps, literals = rawLiterals (integrate m.neutral f) := by
  unfold Design.literals Design.packedFlows mergedFlows
  simp [eq_comm]

theorem mem_literals_of_flow {step : Nat} {own : StepFlow} (h : m.flow step = .ok own) :
    rawLiterals (integrate m.neutral own) ∈ Design.literals m :=
  mem_literals_iff.mpr (.inr ⟨own, mem_steps_of_flow h, rfl⟩)

theorem any_literals (m : FlowMatrix) (t : SignalId) :
    (Design.literals m).any (fun literals => (literals.get? t).isSome) = m.carriesRaw t := by
  rw [Bool.eq_iff_iff, carriesRaw_iff, List.any_eq_true]
  simp only [Option.isSome_iff_exists]
  constructor
  · rintro ⟨literals, hmem, b, hb⟩
    rcases mem_literals_iff.mp hmem with rfl | ⟨f, hf, rfl⟩
    · exact ⟨m.neutral, List.mem_cons_self, b, get?_rawLiterals_eq_some_iff.mp hb⟩
    · rw [get?_rawLiterals_eq_some_iff, lookup_integrate] at hb
      split at hb
      · exact ⟨m.neutral, List.mem_cons_self, b, hb⟩
      · exact ⟨f, List.mem_cons_of_mem _ hf, b, hb⟩
  · rintro ⟨f, hf, b, hb⟩
    rcases List.mem_cons.mp hf with rfl | hf
    · exact ⟨_, mem_literals_iff.mpr (.inl rfl), b, get?_rawLiterals_eq_some_iff.mpr hb⟩
    · refine ⟨_, mem_literals_iff.mpr (.inr ⟨f, hf, rfl⟩), b, get?_rawLiterals_eq_some_iff.mpr ?_⟩
      rw [lookup_integrate, hb, if_neg Flow.noConfusion]

theorem width_of_mem_literals (hv : m.validate = .ok ()) {literals : NatMap Bits}
    (hmem : literals ∈ Design.literals m) {t : SignalId} {b : Bits} (hb : literals.get? t = some b) :
    b.width = m.widthOf t := by
  obtain ⟨hneutral, hsteps⟩ := validate_eq_ok_iff.mp hv
  rcases mem_literals_iff.mp hmem with rfl | ⟨f, hf, rfl⟩
  · exact hneutral.width_raw (get?_rawLiterals_eq_some_iff.mp hb)
  · rw [get?_rawLiterals_eq_some_iff, lookup_integrate] at hb
    split at hb
    · exact hneutral.width_raw hb
    · exact (hsteps f hf).width_raw hb

theorem laneWidths_literals (hv : m.validate = .ok ()) :
    laneWidths (Design.literals m) = tabulate m.widthOf (m.targets.filter m.carriesRaw) := by
  apply NatMap.ext_get?
  intro t
  have hraw : (lastLiteral? (Design.literals m) t).isSome ↔ m.carriesRaw t = true := by
    rw [isSome_lastLiteral?, ← any_literals, List.any_eq_true]
  rw [get?_laneWidths, NatMap.get?_tabulate]
  cases hlast : lastLiteral? (Design.literals m) t with
  | none =>
      rw [hlast] at hraw
      have hno : t ∉ m.targets.filter m.carriesRaw := fun hmem =>
        Bool.false_ne_true (hraw.mpr (List.mem_filter.mp hmem).2)
      rw [if_neg hno]
      rfl
  | some b =>
      have h := hraw.mp (by rw [hlast]; rfl)
      obtain ⟨literals, hmem, hb⟩ := exists_of_lastLiteral? hlast
      rw [if_pos (List.mem_filter.mpr ⟨mem_targets_of_carriesRaw h, h⟩),
        ← width_of_mem_literals hv hmem hb]
      rfl

/-- Exactly the targets that carry a literal stored verbatim get a lane, in at most as many bits as
they have together. -/
theorem exists_packing (hv : m.validate = .ok ()) (hfit : m.laneBits < Width.limit) :
    ∃ p, Packing.ofLiterals (Design.literals m) = .ok p ∧
      Packs (conflict (Design.literals m)) m.widthOf p ∧
      (∀ t, (p.lanes.get? t).isSome ↔ m.carriesRaw t = true) ∧ p.width ≤ m.laneBits := by
  have hasc : (m.targets.filter m.carriesRaw).Pairwise (· < ·) := m.targets_ascending.filter _
  obtain ⟨p, hpack, hp, hlanes, hle⟩ := ofLiterals_ok hasc (laneWidths_literals hv) hfit
  refine ⟨p, hpack, hp, fun t => ?_, hle⟩
  rw [hlanes, List.mem_filter]
  exact ⟨fun h => h.2, fun h => ⟨mem_targets_of_carriesRaw h, h⟩⟩

end FlowMatrix

end ControlStore
