import ControlStore.Proofs.Lanes

/-! # Lanes of arbitrary flows

A packer takes any flows, whether or not the literals of a target have one width.  As long as the
recorded widths together fit a word, packing succeeds and is safe (`Packing.Safe`): a lane is given to
exactly the targets with a literal stored verbatim, lanes that do not start together have no bit in
common, and neither have the lanes of two targets to which one flow gives different literals.  The
value word holds the widest members of all groups, one behind the other (`Packing.exists_safe`). -/

namespace ControlStore

open StepFlow

namespace Lane

/-- The bit belongs to the lane. -/
def Covers (l : Lane) (bit : Nat) : Prop := l.offset ≤ bit ∧ bit < l.offset + l.width

/-- The lanes have no bit in common. -/
def Disjoint (l k : Lane) : Prop := ∀ bit, l.Covers bit → ¬ k.Covers bit

theorem disjoint_of_le {l k : Lane} (h : l.offset + l.width ≤ k.offset ∨ k.offset + k.width ≤ l.offset) :
    l.Disjoint k := by
  intro bit hl hk
  unfold Covers at hl hk
  omega

end Lane

namespace Packing

/-- The width of the lane of a target. -/
def laneWidth (p : Packing) (t : SignalId) : Nat := ((p.lanes.get? t).map Lane.width).getD 0

/-- The lanes hold the literals of every flow at once, in groups one behind the other. -/
structure Safe (flows : List StepFlow) (p : Packing) : Prop where
  lane_iff : ∀ t, (p.lanes.get? t).isSome ↔ ∃ f ∈ flows, ∃ b, lookup f t = .raw b
  lane_width : ∀ t l, p.lanes.get? t = some l →
    (lastLiteral? (flows.map rawLiterals) t).map Bits.width = some l.width
  within : ∀ t l, p.lanes.get? t = some l → l.offset + l.width ≤ p.width
  together_or_disjoint : ∀ t u l k, p.lanes.get? t = some l → p.lanes.get? u = some k →
    l.offset = k.offset ∨ l.Disjoint k
  conflicting_disjoint : ∀ f ∈ flows, ∀ t u x y, lookup f t = .raw x → lookup f u = .raw y →
    x.value ≠ y.value ∨ x.width ≠ y.width →
      ∃ l k, p.lanes.get? t = some l ∧ p.lanes.get? u = some k ∧ l.Disjoint k
  members_perm : (p.groups.flatMap LaneGroup.members).Perm p.lanes.keys
  member_offset : ∀ g ∈ p.groups, ∀ t ∈ g.members, ∃ l, p.lanes.get? t = some l ∧ l.offset = g.offset
  width_eq : p.width = (p.groups.map (LaneGroup.widest p.laneWidth)).sum

section
variable {conflict : SignalId → SignalId → Bool} {width : SignalId → Nat} {p : Packing}
  (hp : Packs conflict width p)
include hp

theorem Packs.members_perm : (p.groups.flatMap LaneGroup.members).Perm p.lanes.keys := by
  apply (List.perm_ext_iff_of_nodup hp.once p.lanes.keys_nodup).mpr
  intro t
  rw [List.mem_flatMap, NatMap.mem_keys_iff, Option.isSome_iff_exists]
  constructor
  · rintro ⟨g, hg, ht⟩
    exact ⟨_, hp.get?_of_mem hg ht⟩
  · rintro ⟨l, hl⟩
    obtain ⟨⟨g, hg, ht, -⟩, -⟩ := (hp.lane_iff t l).mp hl
    exact ⟨g, hg, ht⟩

/-- The value word holds the widest members of the groups. -/
theorem Packs.width_eq_sum : p.width = (p.groups.map (LaneGroup.widest p.laneWidth)).sum := by
  rw [hp.filled]
  congr 1
  apply List.map_congr_left
  intro g hg
  have hwidth : g.members.map width = g.members.map p.laneWidth := by
    apply List.map_congr_left
    intro t ht
    simp [laneWidth, hp.get?_of_mem hg ht]
  unfold LaneGroup.widest
  rw [hwidth]

theorem Packs.together_or_disjoint (hcomm : ∀ a b, conflict a b = conflict b a) {t u : SignalId}
    {l k : Lane} (hl : p.lanes.get? t = some l) (hk : p.lanes.get? u = some k) :
    l.offset = k.offset ∨ l.Disjoint k := by
  by_cases htu : t = u
  · subst htu
    obtain rfl : l = k := Option.some.inj (hl.symm.trans hk)
    exact .inl rfl
  · rcases hp.together_or_apart hcomm hl hk htu with ⟨hoffset, -⟩ | hapart
    · exact .inl hoffset
    · exact .inr (Lane.disjoint_of_le hapart)

end

/-! ### The lanes of flows -/

/-- Two targets that hold different literals at the same time have no bit in common. -/
theorem Packs.disjoint_of_ne {flows : List (NatMap Bits)} {width : SignalId → Nat} {p : Packing}
    (hp : Packs (conflict flows) width p) {literals : NatMap Bits} (hflow : literals ∈ flows)
    {t u : SignalId} {x y : Bits} (ht : literals.get? t = some x) (hu : literals.get? u = some y)
    (hne : x ≠ y) {l k : Lane} (hl : p.lanes.get? t = some l) (hk : p.lanes.get? u = some k) :
    l.Disjoint k := by
  have htu : t ≠ u := by
    rintro rfl
    exact hne (Option.some.inj (ht.symm.trans hu))
  rcases hp.together_or_apart (conflict_comm _) hl hk htu with ⟨-, hcompat⟩ | hapart
  · exact absurd (eq_of_conflict_eq_false hcompat hflow ht hu) hne
  · exact Lane.disjoint_of_le hapart

theorem exists_mem_rawLiterals_iff {flows : List StepFlow} {t : SignalId} :
    (∃ literals ∈ flows.map rawLiterals, (literals.get? t).isSome) ↔
      ∃ f ∈ flows, ∃ b, lookup f t = .raw b := by
  simp [Option.isSome_iff_exists, get?_rawLiterals_eq_some_iff]

/-- Packing succeeds and is safe if the recorded widths together fit a word. -/
theorem exists_safe {flows : List StepFlow}
    (hfit : (laneWidths (flows.map rawLiterals)).values.sum < Width.limit) :
    ∃ p, ofLiterals (flows.map rawLiterals) = .ok p ∧ p.Safe flows ∧
      p.width ≤ (laneWidths (flows.map rawLiterals)).values.sum := by
  have hvalues := NatMap.values_eq_map_keys (laneWidths (flows.map rawLiterals)) 0
  rw [hvalues] at hfit ⊢
  obtain ⟨p, hpack, hp, hlanes, hle⟩ := ofLiterals_ok (NatMap.keys_ascending _)
    (NatMap.tabulate_keys (laneWidths (flows.map rawLiterals)) 0).symm hfit
  have hlane : ∀ t, (p.lanes.get? t).isSome ↔ ∃ f ∈ flows, ∃ b, lookup f t = .raw b := by
    intro t
    rw [hlanes, NatMap.mem_keys_iff, get?_laneWidths, Option.isSome_map, isSome_lastLiteral?,
      exists_mem_rawLiterals_iff]
  refine ⟨p, hpack, ⟨hlane, ?_, fun t l => hp.stop_le, ?_, ?_, hp.members_perm, ?_, hp.width_eq_sum⟩, hle⟩
  · intro t l hl
    have hsome : (lastLiteral? (flows.map rawLiterals) t).isSome := by
      rw [isSome_lastLiteral?, exists_mem_rawLiterals_iff, ← hlane, hl]
      rfl
    obtain ⟨b, hb⟩ := Option.isSome_iff_exists.mp hsome
    simp [hp.width_eq hl, get?_laneWidths, hb]
  · intro t u l k hl hk
    exact hp.together_or_disjoint (conflict_comm _) hl hk
  · intro f hf t u x y ht hu hxy
    obtain ⟨l, hl⟩ := Option.isSome_iff_exists.mp ((hlane t).mpr ⟨f, hf, x, ht⟩)
    obtain ⟨k, hk⟩ := Option.isSome_iff_exists.mp ((hlane u).mpr ⟨f, hf, y, hu⟩)
    have hne : x ≠ y := by
      rintro rfl
      simp at hxy
    exact ⟨l, k, hl, hk, hp.disjoint_of_ne (List.mem_map_of_mem hf)
      (get?_rawLiterals_eq_some_iff.mpr ht) (get?_rawLiterals_eq_some_iff.mpr hu) hne hl hk⟩
  · intro g hg t ht
    exact ⟨_, hp.get?_of_mem hg ht, rfl⟩

end Packing

namespace Packer

/-- Whatever flows were added to a fresh packer, packing them is safe, in no more bits than the
recorded widths have together. -/
theorem pack_safe {flows : List StepFlow}
    (hfit : (laneWidths (flows.map rawLiterals)).values.sum < Width.limit) :
    ∃ packer packing packed total, flows.foldlM add empty = .ok packer ∧
      packer.pack = .ok (packing, packed) ∧ packing.Safe flows ∧
      packed.uncompressedWidth = .ok total ∧ packing.width ≤ total := by
  obtain ⟨packing, hpack, hsafe, hle⟩ := Packing.exists_safe hfit
  refine ⟨_, packing, ⟨flows.map rawLiterals, some packing⟩, _, foldlM_add flows [], ?_, hsafe,
    Width.sum_eq_ok hfit, hle⟩
  rw [List.nil_append]
  exact pack_eq_ok_iff.mpr ⟨hpack, rfl⟩

/-- A target whose literals have two widths, and two targets that must not share bits with it. -/
def uneven : List StepFlow :=
  [.ofList [(0, .raw (.ofNat 1 4)), (2, .raw (.ofNat 1 2))],
    .ofList [(1, .raw (.ofNat 200 8)), (0, .raw (.ofNat 17 5))]]

theorem pack_safe_uneven : (laneWidths (uneven.map rawLiterals)).values.sum < Width.limit ∧
    ∃ packer packing packed total, uneven.foldlM add empty = .ok packer ∧
      packer.pack = .ok (packing, packed) ∧ packing.Safe uneven ∧
      packed.uncompressedWidth = .ok total ∧ packing.width ≤ total := by
  have hfit : (laneWidths (uneven.map rawLiterals)).values.sum < Width.limit := by decide
  exact ⟨hfit, pack_safe hfit⟩

end Packer

end ControlStore
