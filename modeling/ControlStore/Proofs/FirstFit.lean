import ControlStore.Proofs.SafePacking
import Mathlib.Algebra.Order.BigOperators.Group.List
import Mathlib.Algebra.Order.Group.Nat

/-! # First fit

The lanes of a packing are those of first fit (`Packing.FirstFit`): every target is in the first
group that had no member in conflict with it when it was placed, that is, none among the targets that
precede it.  Placing one target after the other keeps this (`Fitted.put`), so packing arrives at it
(`fitsFirst_freely`).

Nothing else is needed to know the lanes.  A target whose predecessors are in the same groups of two
such packings is itself in the same group of both, since it is refused by the earlier groups of one
and accepted by its group of the other (`FirstFit.inGroup_of_agree`); by induction along the order of
placement the groups agree, hence their widths, their offsets and the lanes (`FirstFit.unique`).  So the
lanes depend on the recorded widths and the conflicts alone. -/

namespace ControlStore

open StepFlow

namespace LaneGroup

variable {width : SignalId → Nat} {g : LaneGroup}

/-- The width of the first member. -/
def leading (width : SignalId → Nat) (g : LaneGroup) : Nat := (g.members.head?.map width).getD 0

theorem leading_append {t u : SignalId} (hu : u ∈ g.members) :
    leading width ⟨g.offset, g.members ++ [t]⟩ = leading width g := by
  unfold leading
  cases hmembers : g.members with
  | nil => simp [hmembers] at hu
  | cons v rest => rfl

theorem exists_leading (h : ∃ u, u ∈ g.members) : ∃ t ∈ g.members, leading width g = width t := by
  obtain ⟨u, hu⟩ := h
  unfold leading
  cases hmembers : g.members with
  | nil => simp [hmembers] at hu
  | cons v rest => exact ⟨v, List.mem_cons_self, rfl⟩

end LaneGroup

namespace Packing

open LaneGroup (leading leading_append exists_leading)

/-- Every group starts where the first members of the groups before it end. -/
def Stacked (width : SignalId → Nat) (groups : List LaneGroup) : Prop :=
  ∀ k g, groups[k]? = some g → g.offset = ((groups.take k).map (leading width)).sum

/-- The groups are stacked, each has its widest member first, and every member of a group is refused
by the earlier groups, each time because of a target that was placed before it. -/
structure Fitted (conflict : SignalId → SignalId → Bool) (width : SignalId → Nat) (p : Packing) : Prop where
  stacked : Stacked width p.groups
  width_eq : p.width = (p.groups.map (leading width)).sum
  first_widest : ∀ g ∈ p.groups, ∀ t ∈ g.members, width t ≤ leading width g
  refused : p.groups.Pairwise fun g h =>
    ∀ t ∈ h.members, ∃ u ∈ g.members, Precedes width u t ∧ conflict u t = true

/-- The lanes of the targets by first fit. -/
structure FirstFit (conflict : SignalId → SignalId → Bool) (width : SignalId → Nat)
    (targets : List SignalId) (p : Packing) : Prop extends Fitted conflict width p where
  members_perm : (p.groups.flatMap LaneGroup.members).Perm targets
  inhabited : ∀ g ∈ p.groups, ∃ t, t ∈ g.members
  compatible : ∀ g ∈ p.groups, g.members.Pairwise fun a b => conflict a b = false
  lane_iff : ∀ t l, p.lanes.get? t = some l ↔ StartsAt p.groups t l.offset ∧ l.width = width t

variable {conflict : SignalId → SignalId → Bool} {width : SignalId → Nat} {targets : List SignalId}
  {p q : Packing} {t : SignalId}

/-! ### Placing targets by first fit -/

theorem Stacked.congr {groups groups' : List LaneGroup} (h : Stacked width groups)
    (hoffset : groups'.map LaneGroup.offset = groups.map LaneGroup.offset)
    (hleading : groups'.map (leading width) = groups.map (leading width)) : Stacked width groups' := by
  intro k g hg
  have hk : (groups.map LaneGroup.offset)[k]? = some g.offset := by
    rw [← hoffset, List.getElem?_map, hg]
    rfl
  rw [List.getElem?_map, Option.map_eq_some_iff] at hk
  obtain ⟨g', hg', hsame⟩ := hk
  rw [← hsame, h k g' hg', List.map_take, List.map_take, hleading]

theorem Stacked.concat {groups : List LaneGroup} (h : Stacked width groups) {g : LaneGroup}
    (hg : g.offset = (groups.map (leading width)).sum) : Stacked width (groups ++ [g]) := by
  intro k g' hg'
  rcases Nat.lt_or_ge k groups.length with hk | hk
  · rw [List.getElem?_append_left hk] at hg'
    rw [List.take_append_of_le_length (Nat.le_of_lt hk)]
    exact h k g' hg'
  · rw [List.getElem?_append_right hk, List.getElem?_singleton] at hg'
    split at hg'
    · next hlast =>
      obtain rfl := Option.some.inj hg'
      have hlen : k = groups.length := by omega
      rw [hlen, List.take_left' rfl, hg]
    · cases hg'

theorem fitted_empty (conflict : SignalId → SignalId → Bool) (width : SignalId → Nat) :
    Fitted conflict width empty where
  stacked _ _ hg := nomatch hg
  width_eq := rfl
  first_widest _ hg := absurd hg List.not_mem_nil
  refused := List.Pairwise.nil

section
variable (hf : Fitted conflict width p) (hbefore : ∀ g ∈ p.groups, ∀ u ∈ g.members, Precedes width u t)
include hf hbefore

theorem Fitted.join {before after : List LaneGroup} {g : LaneGroup} {u : SignalId} {lanes : NatMap Lane}
    (hgroups : p.groups = before ++ g :: after) (hrefuse : ∀ h ∈ before, Refuses conflict t h)
    (hu : u ∈ g.members) :
    Fitted conflict width ⟨before ++ ⟨g.offset, g.members ++ [t]⟩ :: after, lanes, p.width⟩ := by
  obtain ⟨hstacked, hwidth, hwidest, hrefused⟩ := hf
  simp only [hgroups] at hstacked hwidth hwidest hrefused hbefore
  have hleading : (before ++ ⟨g.offset, g.members ++ [t]⟩ :: after).map (leading width) =
      (before ++ g :: after).map (leading width) := by
    simp only [List.map_append, List.map_cons, leading_append hu]
  refine ⟨hstacked.congr (by simp) hleading, ?_, ?_, ?_⟩
  · rw [hwidth, hleading]
  · intro h hh v hv
    rcases mem_or_eq_of_mem_join hh with hh | rfl
    · exact hwidest h hh v hv
    · rw [leading_append hu]
      have hg : g ∈ before ++ g :: after := List.mem_append_right _ List.mem_cons_self
      rcases List.mem_append.mp hv with hv | hv
      · exact hwidest g hg v hv
      · obtain rfl := List.mem_singleton.mp hv
        exact Nat.le_trans (hbefore g hg u hu).width_le (hwidest g hg u hu)
  · simp only [List.pairwise_append, List.pairwise_cons] at hrefused ⊢
    obtain ⟨hfirst, ⟨hg, hafter⟩, hcross⟩ := hrefused
    refine ⟨hfirst, ⟨fun h hh v hv => ?_, hafter⟩, fun h hh h' hh' v hv => ?_⟩
    · obtain ⟨w, hw, hwv⟩ := hg h hh v hv
      exact ⟨w, List.mem_append_left _ hw, hwv⟩
    · rcases List.mem_cons.mp hh' with rfl | hh'
      · rcases List.mem_append.mp hv with hv | hv
        · exact hcross h hh g List.mem_cons_self v hv
        · obtain rfl := List.mem_singleton.mp hv
          obtain ⟨w, hw, hconflict⟩ := hrefuse h hh
          exact ⟨w, hw, hbefore h (List.mem_append_left _ hh) w hw, hconflict⟩
      · exact hcross h hh h' (List.mem_cons_of_mem _ hh') v hv

theorem Fitted.open {lanes : NatMap Lane} (hrefuse : ∀ g ∈ p.groups, Refuses conflict t g) :
    Fitted conflict width ⟨p.groups ++ [⟨p.width, [t]⟩], lanes, p.width + width t⟩ := by
  refine ⟨hf.stacked.concat hf.width_eq, ?_, ?_, ?_⟩
  · simp [hf.width_eq, leading]
  · intro g hg u hu
    rcases List.mem_append.mp hg with hg | hg
    · exact hf.first_widest g hg u hu
    · obtain rfl := List.mem_singleton.mp hg
      obtain rfl := List.mem_singleton.mp hu
      exact Nat.le_refl _
  · refine List.pairwise_append.mpr ⟨hf.refused, List.pairwise_singleton _ _, fun g hg h hh v hv => ?_⟩
    obtain rfl := List.mem_singleton.mp hh
    obtain rfl := List.mem_singleton.mp hv
    obtain ⟨u, hu, hconflict⟩ := hrefuse g hg
    exact ⟨u, hu, hbefore g hg u hu, hconflict⟩

end

/-- A target that comes after all placed ones is placed by first fit. -/
theorem Fitted.put (hf : Fitted conflict width p) (hp : Packs conflict width p)
    (hplaced : ∀ u l, p.lanes.get? u = some l → Precedes width u t) :
    Fitted conflict width (put conflict p (t, width t)) := by
  have hbefore : ∀ g ∈ p.groups, ∀ u ∈ g.members, Precedes width u t :=
    fun g hg u hu => hplaced u _ (hp.get?_of_mem hg hu)
  rcases put_cases conflict p t (width t) with ⟨before, g, after, hgroups, hrefuse, -, hput⟩ | ⟨hrefuse, hput⟩
  · have hg : g ∈ p.groups := by
      rw [hgroups]
      exact List.mem_append_right _ List.mem_cons_self
    obtain ⟨u, hu⟩ := hp.inhabited g hg
    rw [hput]
    exact hf.join hbefore hgroups hrefuse hu
  · rw [hput]
    exact hf.open hbefore hrefuse

theorem Fitted.foldl_put {ts : List SignalId} {p : Packing} (hf : Fitted conflict width p)
    (hp : Packs conflict width p) (hts : ts.Pairwise (Precedes width))
    (hplaced : ∀ t ∈ ts, ∀ u l, p.lanes.get? u = some l → Precedes width u t) :
    Fitted conflict width ((ts.map fun t => (t, width t)).foldl (Packing.put conflict) p) := by
  induction ts generalizing p with
  | nil => exact hf
  | cons t ts ih =>
      obtain ⟨ht, hrest⟩ := List.forall_mem_cons.mp hplaced
      obtain ⟨hfirst, hts⟩ := List.pairwise_cons.mp hts
      exact ih (hf.put hp ht) (hp.put ht) hts (precedes_put hfirst hrest)

/-- The recorded width of a target. -/
def recordedWidth (flows : List (NatMap Bits)) (t : SignalId) : Nat := ((laneWidths flows).get? t).getD 0

/-- The lanes of the targets with a literal in the flows, by first fit. -/
def FitsFirst (flows : List (NatMap Bits)) (p : Packing) : Prop :=
  FirstFit (ControlStore.conflict flows) (recordedWidth flows) (laneWidths flows).keys p

theorem fitsFirst_freely (flows : List (NatMap Bits)) : FitsFirst flows (freely flows) := by
  have hwidths : laneWidths flows = NatMap.tabulate (recordedWidth flows) (laneWidths flows).keys :=
    (NatMap.tabulate_keys (laneWidths flows) 0).symm
  have hasc := NatMap.keys_ascending (laneWidths flows)
  obtain ⟨hp, hlanes, -⟩ := freely_packs hasc hwidths
  obtain ⟨us, hsort, -, hsorted⟩ := sortBy_widerFirst (recordedWidth flows) hasc
  have hf := (fitted_empty (ControlStore.conflict flows) (recordedWidth flows)).foldl_put
    (packs_empty _ _) hsorted (fun _ _ _ _ h => nomatch h)
  rw [← hsort, ← hwidths] at hf
  have hkeys : (freely flows).lanes.keys.Perm (laneWidths flows).keys := by
    apply (List.perm_ext_iff_of_nodup (NatMap.keys_nodup _) (NatMap.keys_nodup _)).mpr
    intro t
    rw [NatMap.mem_keys_iff, hlanes]
  exact ⟨hf, hp.members_perm.trans hkeys, hp.inhabited, hp.compatible, hp.lane_iff⟩

/-! ### First fit leaves no choice -/

/-- The target is a member of the `k`-th group. -/
def InGroup (p : Packing) (k : Nat) (t : SignalId) : Prop := ∃ g, p.groups[k]? = some g ∧ t ∈ g.members

namespace FirstFit

section
variable (hp : FirstFit conflict width targets p) {u : SignalId} {j k : Nat}
include hp

theorem mem_targets_iff : t ∈ targets ↔ ∃ k, p.InGroup k t := by
  rw [← hp.members_perm.mem_iff, List.mem_flatMap]
  constructor
  · rintro ⟨g, hg, ht⟩
    obtain ⟨k, hk⟩ := List.mem_iff_getElem?.mp hg
    exact ⟨k, g, hk, ht⟩
  · rintro ⟨k, g, hk, ht⟩
    exact ⟨g, List.mem_of_getElem? hk, ht⟩

theorem exists_conflict (h : p.InGroup k t) (hjk : j < k) :
    ∃ u, p.InGroup j u ∧ Precedes width u t ∧ conflict u t = true := by
  obtain ⟨g, hg, ht⟩ := h
  obtain ⟨hk, rfl⟩ := List.getElem?_eq_some_iff.mp hg
  have hj : j < p.groups.length := Nat.lt_trans hjk hk
  obtain ⟨u, hu, hut⟩ := List.pairwise_iff_getElem.mp hp.refused j k hj hk hjk t ht
  exact ⟨u, ⟨_, List.getElem?_eq_getElem hj, hu⟩, hut⟩

theorem not_conflict (hsymm : ∀ a b, conflict a b = conflict b a) (hu : p.InGroup k u)
    (ht : p.InGroup k t) (hne : u ≠ t) : conflict u t = false := by
  obtain ⟨g, hg, hu⟩ := hu
  obtain ⟨g', hg', ht⟩ := ht
  obtain rfl := Option.some.inj (hg.symm.trans hg')
  have : Std.Symm fun a b => conflict a b = false := ⟨fun a b hab => (hsymm b a).trans hab⟩
  exact (hp.compatible g (List.mem_of_getElem? hg)).forall hu ht hne

theorem startsAt_iff {offset : Nat} : StartsAt p.groups t offset ↔
    ∃ k, p.InGroup k t ∧ ((p.groups.map (leading width)).take k).sum = offset := by
  constructor
  · rintro ⟨g, hg, ht, rfl⟩
    obtain ⟨k, hk⟩ := List.mem_iff_getElem?.mp hg
    exact ⟨k, ⟨g, hk, ht⟩, by rw [hp.stacked k g hk, List.map_take]⟩
  · rintro ⟨k, ⟨g, hk, ht⟩, rfl⟩
    exact ⟨g, List.mem_of_getElem? hk, ht, by rw [hp.stacked k g hk, List.map_take]⟩

end

section
variable (hsymm : ∀ a b, conflict a b = conflict b a) (hp : FirstFit conflict width targets p)
  (hq : FirstFit conflict width targets q) {k : Nat}
include hsymm hp hq

/-- A target follows its predecessors: if they are in the same groups of both packings, so is it.  Else
the earlier of its two groups would refuse it in one packing and hold it in the other. -/
theorem inGroup_of_agree
    (hagree : ∀ u ∈ targets, Precedes width u t → ∀ k, p.InGroup k u ↔ q.InGroup k u)
    (h : p.InGroup k t) : q.InGroup k t := by
  obtain ⟨j, hj⟩ := hq.mem_targets_iff.mp (hp.mem_targets_iff.mpr ⟨k, h⟩)
  rcases Nat.lt_trichotomy j k with hjk | rfl | hkj
  · obtain ⟨u, hu, hut, hconflict⟩ := hp.exists_conflict h hjk
    have hu' := (hagree u (hp.mem_targets_iff.mpr ⟨j, hu⟩) hut j).mp hu
    rw [hq.not_conflict hsymm hu' hj hut.ne] at hconflict
    cases hconflict
  · exact hj
  · obtain ⟨u, hu, hut, hconflict⟩ := hq.exists_conflict hj hkj
    have hu' := (hagree u (hq.mem_targets_iff.mpr ⟨k, hu⟩) hut k).mpr hu
    rw [hp.not_conflict hsymm hu' h hut.ne] at hconflict
    cases hconflict

/-- The groups have the same members, by induction along the order of placement. -/
theorem inGroup_iff (t : SignalId) (k : Nat) : p.InGroup k t ↔ q.InGroup k t := by
  have hagree : ∀ u ∈ targets, Precedes width u t → ∀ k, p.InGroup k u ↔ q.InGroup k u :=
    fun u hu hut => inGroup_iff u
  exact ⟨inGroup_of_agree hsymm hp hq hagree,
    inGroup_of_agree hsymm hq hp fun u hu hut k => (hagree u hu hut k).symm⟩
termination_by ((targets.map width).sum - width t, t)
decreasing_by
  have hle : width u ≤ (targets.map width).sum :=
    List.single_le_sum (fun _ _ => Nat.zero_le _) _ (List.mem_map_of_mem hu)
  rcases hut with hut | ⟨hwidth, hut⟩
  · exact Prod.Lex.left _ _ (by omega)
  · rw [hwidth]
    exact Prod.Lex.right _ hut

/-- A group of one packing is a group of the other, and no wider there. -/
theorem exists_leading_le {g : LaneGroup} (hg : p.groups[k]? = some g) :
    ∃ h, q.groups[k]? = some h ∧ leading width g ≤ leading width h := by
  obtain ⟨t, ht, hleading⟩ := @exists_leading width g (hp.inhabited g (List.mem_of_getElem? hg))
  obtain ⟨h, hh, ht'⟩ := (inGroup_iff hsymm hp hq t k).mp ⟨g, hg, ht⟩
  exact ⟨h, hh, hleading ▸ hq.first_widest h (List.mem_of_getElem? hh) t ht'⟩

theorem map_leading_eq : p.groups.map (leading width) = q.groups.map (leading width) := by
  apply List.ext_getElem?
  intro k
  rw [List.getElem?_map, List.getElem?_map]
  cases hg : p.groups[k]? with
  | none =>
      cases hh : q.groups[k]? with
      | none => rfl
      | some h =>
          obtain ⟨g, hg', -⟩ := exists_leading_le hsymm hq hp hh
          cases hg.symm.trans hg'
  | some g =>
      obtain ⟨h, hh, hle⟩ := exists_leading_le hsymm hp hq hg
      obtain ⟨g', hg', hge⟩ := exists_leading_le hsymm hq hp hh
      obtain rfl := Option.some.inj (hg.symm.trans hg')
      rw [hh, Option.map_some, Option.map_some, Nat.le_antisymm hle hge]

/-- Two assignments of lanes by first fit are the same. -/
theorem unique : p.lanes = q.lanes ∧ p.width = q.width := by
  have hleading := map_leading_eq hsymm hp hq
  refine ⟨NatMap.ext_get? fun t => Option.ext fun l => ?_, ?_⟩
  · rw [hp.lane_iff, hq.lane_iff, hp.startsAt_iff, hq.startsAt_iff, hleading]
    simp only [inGroup_iff hsymm hp hq]
  · rw [hp.width_eq, hq.width_eq, hleading]

end

end FirstFit

end Packing

namespace Packer

open Packing

/-- The literals of every target have one width. -/
def UniformWidths (flows : List StepFlow) : Prop :=
  ∀ f ∈ flows, ∀ g ∈ flows, ∀ t x y, lookup f t = .raw x → lookup g t = .raw y → x.width = y.width

variable {flows flows' : List StepFlow}

/-- The recorded width is that of any literal. -/
theorem UniformWidths.get?_laneWidths_iff (h : UniformWidths flows) {t : SignalId} {w : Nat} :
    (laneWidths (flows.map rawLiterals)).get? t = some w ↔
      ∃ f ∈ flows, ∃ b, lookup f t = .raw b ∧ b.width = w := by
  rw [get?_laneWidths, Option.map_eq_some_iff]
  constructor
  · rintro ⟨b, hlast, hw⟩
    obtain ⟨literals, hmem, hb⟩ := exists_of_lastLiteral? hlast
    obtain ⟨f, hf, rfl⟩ := List.mem_map.mp hmem
    exact ⟨f, hf, b, get?_rawLiterals_eq_some_iff.mp hb, hw⟩
  · rintro ⟨f, hf, b, hb, hw⟩
    have hsome : (lastLiteral? (flows.map rawLiterals) t).isSome :=
      isSome_lastLiteral?.mpr (exists_mem_rawLiterals_iff.mpr ⟨f, hf, b, hb⟩)
    obtain ⟨c, hlast⟩ := Option.isSome_iff_exists.mp hsome
    obtain ⟨literals, hmem, hc⟩ := exists_of_lastLiteral? hlast
    obtain ⟨g, hg, rfl⟩ := List.mem_map.mp hmem
    exact ⟨c, hlast, (h g hg f hf t c b (get?_rawLiterals_eq_some_iff.mp hc) hb).trans hw⟩

section
variable (hperm : flows'.Perm flows)
include hperm

theorem UniformWidths.perm (h : UniformWidths flows) : UniformWidths flows' :=
  fun f hf g hg => h f (hperm.mem_iff.mp hf) g (hperm.mem_iff.mp hg)

theorem UniformWidths.laneWidths_eq (h : UniformWidths flows) :
    laneWidths (flows'.map rawLiterals) = laneWidths (flows.map rawLiterals) := by
  refine NatMap.ext_get? fun t => Option.ext fun w => ?_
  rw [h.get?_laneWidths_iff, (h.perm hperm).get?_laneWidths_iff]
  simp only [hperm.mem_iff]

theorem conflict_perm : conflict (flows'.map rawLiterals) = conflict (flows.map rawLiterals) := by
  funext a b
  exact (hperm.map rawLiterals).any_eq

end

/-- A fresh packer assigns the lanes of the flows added to it, if they fit. -/
theorem exists_pack (hfit : (laneWidths (flows.map rawLiterals)).values.sum < Width.limit) :
    ∃ packer packing packed, flows.foldlM add empty = .ok packer ∧ packer.pack = .ok (packing, packed) ∧
      FitsFirst (flows.map rawLiterals) packing := by
  obtain ⟨packing, hpack, -⟩ := Packing.exists_safe hfit
  have hfirst : FitsFirst (flows.map rawLiterals) packing :=
    (ofLiterals_eq_ok_iff.mp hpack).1 ▸ fitsFirst_freely _
  refine ⟨_, packing, ⟨flows.map rawLiterals, some packing⟩, foldlM_add flows [], ?_, hfirst⟩
  unfold pack
  rw [List.nil_append, hpack]
  rfl

/-- Lanes are assigned by first fit, which leaves no choice; so it does not matter in which order the
flows were added, unless the recorded widths depend on it. -/
theorem pack_by_first_fit (hfit : (laneWidths (flows.map rawLiterals)).values.sum < Width.limit) :
    ∃ packer packing packed, flows.foldlM add empty = .ok packer ∧ packer.pack = .ok (packing, packed) ∧
      FitsFirst (flows.map rawLiterals) packing ∧
      (∀ p, FitsFirst (flows.map rawLiterals) p → p.lanes = packing.lanes ∧ p.width = packing.width) ∧
      ∀ flows' : List StepFlow, flows'.Perm flows → UniformWidths flows →
        ∃ packer' packing' packed', flows'.foldlM add empty = .ok packer' ∧
          packer'.pack = .ok (packing', packed') ∧ packing'.lanes = packing.lanes := by
  obtain ⟨packer, packing, packed, hadd, hpack, hfirst⟩ := exists_pack hfit
  have hunique : ∀ p, FitsFirst (flows.map rawLiterals) p →
      p.lanes = packing.lanes ∧ p.width = packing.width :=
    fun p hp => FirstFit.unique (conflict_comm _) hp hfirst
  refine ⟨packer, packing, packed, hadd, hpack, hfirst, hunique, fun flows' hperm huniform => ?_⟩
  have hwidths := huniform.laneWidths_eq hperm
  obtain ⟨packer', packing', packed', hadd', hpack', hfirst'⟩ := exists_pack (hwidths ▸ hfit)
  refine ⟨packer', packing', packed', hadd', hpack', (hunique packing' ?_).1⟩
  unfold FitsFirst recordedWidth at hfirst' ⊢
  rwa [hwidths, conflict_perm hperm] at hfirst'

/-- Four targets, the widest of which shares its bits with two others. -/
def sharing : List StepFlow :=
  [.ofList [(0, .raw (.ofNat 1 4)), (1, .raw (.ofNat 2 4))],
    .ofList [(2, .raw (.ofNat 200 8))],
    .ofList [(1, .raw (.ofNat 5 4)), (3, .raw (.ofNat 3 4))]]

theorem uniformWidths_sharing : UniformWidths sharing := by
  have hentries : ∀ f ∈ sharing, ∀ e ∈ (rawLiterals f).entries, e.2.width = if e.1 = 2 then 8 else 4 := by
    decide
  have hwidth : ∀ f ∈ sharing, ∀ t b, lookup f t = .raw b → b.width = if t = 2 then 8 else 4 :=
    fun f hf t b hb => hentries f hf (t, b) (NatMap.mem_entries_iff.mpr (get?_rawLiterals_eq_some_iff.mpr hb))
  intro f hf g hg t x y hx hy
  rw [hwidth f hf t x hx, hwidth g hg t y hy]

theorem pack_sharing_by_first_fit : (laneWidths (sharing.map rawLiterals)).values.sum < Width.limit ∧
    UniformWidths sharing ∧
    ∃ packer packing packed, sharing.foldlM add empty = .ok packer ∧ packer.pack = .ok (packing, packed) ∧
      FitsFirst (sharing.map rawLiterals) packing ∧
      (∀ p, FitsFirst (sharing.map rawLiterals) p → p.lanes = packing.lanes ∧ p.width = packing.width) ∧
      ∃ packer' packing' packed', sharing.reverse.foldlM add empty = .ok packer' ∧
        packer'.pack = .ok (packing', packed') ∧ packing'.lanes = packing.lanes := by
  have hfit : (laneWidths (sharing.map rawLiterals)).values.sum < Width.limit := by decide
  obtain ⟨packer, packing, packed, hadd, hpack, hfirst, hunique, hperm⟩ := pack_by_first_fit hfit
  exact ⟨hfit, uniformWidths_sharing, packer, packing, packed, hadd, hpack, hfirst, hunique,
    hperm _ (List.reverse_perm _) uniformWidths_sharing⟩

example : (Packing.ofLiterals (sharing.map rawLiterals)).toOption.map (fun p => p.lanes.entries) =
    some [(0, ⟨0, 4⟩), (1, ⟨8, 4⟩), (2, ⟨0, 8⟩), (3, ⟨0, 4⟩)] := by
  decide

end Packer

end ControlStore
