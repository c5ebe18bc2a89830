import ControlStore.Decoder.Module
import ControlStore.Proofs.Checked
import Mathlib.Data.List.Nodup
import Mathlib.Logic.Relation

/-! # Allocated signals

What a generator has to guarantee is `NameGenerator.GivesFresh`: no name is reserved or was given
before.  The counting generator does (`NameGenerator.givesFresh_counting`): failed candidates are
taken and get longer, so the number of taken names bounds the attempts.  A module that allocates
signals keeps its matrix and the widths of its wires (`DecoderModule.Grows.width_eq`), and its signals
stay named apart from each other and from those of the design (`DecoderModule.Grows.namedApart`). -/

namespace ControlStore

/-! ### What generators guarantee -/

namespace NameGenerator

/-- The names given for some requests, the latest first. -/
def given (g : NameGenerator) (reserved : List String) : (asked : List String) → List String
  | [] => []
  | stem :: asked => g.name reserved asked stem :: g.given reserved asked

/-- No name is reserved or was given before. -/
def GivesFresh (g : NameGenerator) : Prop :=
  ∀ reserved asked stem, g.name reserved asked stem ∉ g.given reserved asked ++ reserved

/-- The generator can answer a request for the stem with the name. -/
def Gives (g : NameGenerator) (stem name : String) : Prop :=
  ∃ reserved asked, g.name reserved asked stem = name

end NameGenerator

namespace NameSupply

variable {s : NameSupply} {stem : String}

/-- The names that were given and those that are reserved. -/
def taken (s : NameSupply) : List String := s.generator.given s.reserved s.asked ++ s.reserved

theorem taken_fresh (s : NameSupply) (stem : String) : (s.fresh stem).2.taken = (s.fresh stem).1 :: s.taken := rfl

theorem fresh_not_mem (h : s.generator.GivesFresh) (stem : String) : (s.fresh stem).1 ∉ s.taken :=
  h s.reserved s.asked stem

theorem gives_fresh (s : NameSupply) (stem : String) : s.generator.Gives stem (s.fresh stem).1 :=
  ⟨s.reserved, s.asked, rfl⟩

/-- Two new names differ from the given ones and from each other. -/
theorem fresh_pair {g : NameGenerator} (hfresh : g.GivesFresh) (names : List String) (stem stem' : String) :
    ∃ first s second s', (reserving g names).fresh stem = (first, s) ∧ s.fresh stem' = (second, s') ∧
      first ∉ names ∧ second ∉ names ∧ second ≠ first := by
  have hfirst : ((reserving g names).fresh stem).1 ∉ names := fresh_not_mem hfresh stem
  have hsecond := fresh_not_mem (s := ((reserving g names).fresh stem).2) hfresh stem'
  rw [taken_fresh, List.mem_cons, not_or] at hsecond
  exact ⟨_, _, _, _, rfl, rfl, hfirst, hsecond.2, hsecond.1⟩

end NameSupply

/-! ### Counted names -/

namespace NameCounter

variable {s : NameCounter} {stem : String} {fuel : Nat}

/-- The number of taken names that are longer than `stem`. -/
def longer (s : NameCounter) (stem : String) : Nat := s.taken.countP fun name => stem.length < name.length

theorem tries_bump (s : NameCounter) (stem : String) : (s.bump stem).tries stem = s.tries stem + 1 := by
  simp [tries, bump]

/-- Behind a candidate that is taken and longer than its stem, fewer longer names are taken. -/
theorem longer_append_lt {suffix : String} (hsuffix : 0 < suffix.length) (hmem : stem ++ suffix ∈ s.taken) :
    s.longer (stem ++ suffix) < s.longer stem := by
  have hlength : stem.length < (stem ++ suffix).length := by
    rw [String.length_append]
    omega
  unfold longer
  rw [List.countP_eq_length_filter, List.countP_eq_length_filter]
  have hsub : (s.taken.filter fun name => (stem ++ suffix).length < name.length).Sublist
      (s.taken.filter fun name => stem.length < name.length) :=
    List.monotone_filter_right _ fun name hname => by simp at hname ⊢; omega
  refine Nat.lt_of_le_of_ne hsub.length_le fun heq => ?_
  have hmem' : stem ++ suffix ∈ s.taken.filter fun name => stem.length < name.length := by
    simp only [List.mem_filter, decide_eq_true_eq]
    exact ⟨hmem, hlength⟩
  rw [← hsub.eq_of_length heq] at hmem'
  simp at hmem'

theorem length_toString_pos (n : Nat) : 0 < (toString n).length := by
  show 0 < (String.ofList (Nat.toDigits 10 n)).length
  rw [String.length_ofList]
  exact Nat.length_toDigits_pos

/-- With enough attempts a name is found that is not taken, and it is taken afterwards.  A stem is
tried twice, alone and with a number, before longer names are. -/
theorem nextWithin_spec (h : 2 * s.longer stem + (if s.tries stem = 0 then 2 else 1) ≤ fuel) :
    (s.nextWithin stem fuel).1 ∉ s.taken ∧
      (s.nextWithin stem fuel).2.taken = (s.nextWithin stem fuel).1 :: s.taken := by
  induction fuel generalizing s stem with
  | zero => split at h <;> omega
  | succ fuel ih =>
      rw [nextWithin]
      by_cases hmem : s.candidate stem ∈ s.taken
      · have htaken : (s.bump stem).taken.contains (s.candidate stem) = true := List.contains_iff_mem.mpr hmem
        rw [if_pos htaken]
        apply ih
        cases htries : s.tries stem with
        | zero =>
            have hname : s.candidate stem = stem := by simp [candidate, htries]
            rw [hname, tries_bump, htries]
            rw [htries] at h
            exact Nat.le_of_succ_le_succ h
        | succ n =>
            have hname : s.candidate stem = stem ++ toString n := by simp [candidate, htries]
            rw [hname] at hmem ⊢
            have hlt : (s.bump stem).longer (stem ++ toString n) < s.longer stem :=
              longer_append_lt (length_toString_pos n) hmem
            rw [htries] at h
            simp only [Nat.add_eq_zero_iff, Nat.one_ne_zero, and_false, if_false] at h
            split <;> omega
      · have htaken : ¬ (s.bump stem).taken.contains (s.candidate stem) = true := by
          rw [List.contains_iff_mem]
          exact hmem
        rw [if_neg htaken]
        exact ⟨hmem, rfl⟩

theorem next_spec (s : NameCounter) (stem : String) :
    (s.next stem).1 ∉ s.taken ∧ (s.next stem).2.taken = (s.next stem).1 :: s.taken := by
  apply nextWithin_spec
  have : s.longer stem ≤ s.taken.length := List.countP_le_length
  split <;> omega

theorem taken_after (reserved asked : List String) :
    (after reserved asked).taken = NameGenerator.counting.given reserved asked ++ reserved := by
  induction asked with
  | nil => rfl
  | cons stem asked ih =>
      rw [after, (next_spec _ stem).2, ih]
      rfl

/-- The name is the stem with digits behind it. -/
def Derived (stem name : String) : Prop :=
  ∃ digits, name.toList = stem.toList ++ digits ∧ ∀ c ∈ digits, c.isDigit = true

theorem Derived.trans {name name' : String} (h : Derived stem name) (h' : Derived name name') :
    Derived stem name' := by
  obtain ⟨digits, hname, hdigits⟩ := h
  obtain ⟨digits', hname', hdigits'⟩ := h'
  refine ⟨digits ++ digits', ?_, List.forall_mem_append.mpr ⟨hdigits, hdigits'⟩⟩
  rw [hname', hname, List.append_assoc]

theorem derived_candidate (s : NameCounter) (stem : String) : Derived stem (s.candidate stem) := by
  unfold candidate
  split
  · exact ⟨[], (List.append_nil _).symm, by simp⟩
  · next n _ =>
    have hdigits : (toString n).toList = Nat.toDigits 10 n := String.toList_ofList
    refine ⟨Nat.toDigits 10 n, ?_, fun c => Nat.isDigit_of_mem_toDigits (by decide) (by decide)⟩
    rw [String.toList_append, hdigits]

theorem derived_nextWithin (s : NameCounter) (stem : String) (fuel : Nat) :
    Derived stem (s.nextWithin stem fuel).1 := by
  induction fuel generalizing s stem with
  | zero => exact derived_candidate s stem
  | succ fuel ih =>
      rw [nextWithin]
      split
      · exact (derived_candidate s stem).trans (ih _ _)
      · exact derived_candidate s stem

end NameCounter

namespace NameGenerator

theorem givesFresh_counting : counting.GivesFresh := by
  intro reserved asked stem
  rw [← NameCounter.taken_after]
  exact (NameCounter.next_spec _ stem).1

/-- A counted name begins with its stem, and only digits follow. -/
theorem Gives.derived {stem name : String} (h : counting.Gives stem name) : NameCounter.Derived stem name := by
  obtain ⟨reserved, asked, rfl⟩ := h
  exact NameCounter.derived_nextWithin _ stem _

end NameGenerator

/-! ### Allocated signals -/

namespace DecoderModule

variable {M M' : DecoderModule} {usage : PortUsage} {stem : String} {width : Nat} {wire : Wire}

theorem allocate_eq_ok_iff : M.allocate usage stem width = .ok (wire, M') ↔
    0 < width ∧ wire = .inner M.locals.length ∧
      M' = { M with
        names := (M.names.fresh stem).2
        locals := M.locals ++ [⟨(M.names.fresh stem).1, usage, width⟩] } := by
  unfold allocate
  by_cases h : 0 < width
  · simp only [h, if_true, Except.ok.injEq, Prod.mk.injEq, true_and]
    exact ⟨fun ⟨hwire, hM⟩ => ⟨hwire.symm, hM.symm⟩, fun ⟨hwire, hM⟩ => ⟨hwire.symm, hM.symm⟩⟩
  · simp [h]

/-- Signals other than inputs were allocated, one after the other. -/
def Grows : DecoderModule → DecoderModule → Prop :=
  Relation.ReflTransGen fun M M' =>
    ∃ usage stem width wire, usage ≠ .input ∧ M.allocate usage stem width = .ok (wire, M')

/-- The taken names are those of the design and of the allocated signals, each of them once, and
further names will differ from them. -/
structure NamedApart (M : DecoderModule) : Prop where
  taken : M.names.taken = (M.locals.map LocalSignal.name).reverse ++ M.matrix.signals.map Signal.name
  nodup : M.names.taken.Nodup
  fresh : M.names.generator.GivesFresh

theorem namedApart_ofMatrix {g : NameGenerator} (hfresh : g.GivesFresh) {m : FlowMatrix}
    (h : (m.signals.map Signal.name).Nodup) : (ofMatrix g m).NamedApart := ⟨rfl, h, hfresh⟩

theorem NamedApart.allocate (h : M.NamedApart) (hM' : M.allocate usage stem width = .ok (wire, M')) :
    M'.NamedApart := by
  obtain ⟨-, -, rfl⟩ := allocate_eq_ok_iff.mp hM'
  have htaken := M.names.taken_fresh stem
  refine ⟨?_, ?_, h.fresh⟩
  · simp only [htaken, h.taken, List.map_append, List.map_cons, List.map_nil, List.reverse_append,
      List.reverse_cons, List.reverse_nil, List.nil_append, List.cons_append]
  · simp only [htaken, List.nodup_cons]
    exact ⟨NameSupply.fresh_not_mem h.fresh stem, h.nodup⟩

theorem width_allocate (h : M.allocate usage stem width = .ok (wire, M')) : M'.width wire = .ok width := by
  obtain ⟨-, rfl, rfl⟩ := allocate_eq_ok_iff.mp h
  refine bind_eq_ok_iff.mpr ⟨⟨(M.names.fresh stem).1, usage, width⟩, ?_, rfl⟩
  exact fetch_eq_ok_iff.mpr List.getElem?_concat_length

/-- Allocated signals leave the widths of all wires as they are. -/
theorem width_eq_of_allocate (h : M.allocate usage stem width = .ok (wire, M')) {other : Wire} {n : Nat}
    (hn : M.width other = .ok n) : M'.width other = .ok n := by
  obtain ⟨-, -, rfl⟩ := allocate_eq_ok_iff.mp h
  cases other with
  | design s => exact hn
  | inner i =>
      obtain ⟨signal, hsignal, hwidth⟩ := bind_eq_ok_iff.mp hn
      refine bind_eq_ok_iff.mpr ⟨signal, fetch_eq_ok_iff.mpr ?_, hwidth⟩
      have hget := fetch_eq_ok_iff.mp hsignal
      rw [List.getElem?_append_left (List.getElem?_eq_some_iff.mp hget).1, hget]

namespace Grows

theorem refl (M : DecoderModule) : M.Grows M := Relation.ReflTransGen.refl

theorem trans {M₁ M₂ M₃ : DecoderModule} (h : M₁.Grows M₂) (h' : M₂.Grows M₃) : M₁.Grows M₃ :=
  Relation.ReflTransGen.trans h h'

theorem allocate (husage : usage ≠ .input) (h : M.allocate usage stem width = .ok (wire, M')) : M.Grows M' :=
  Relation.ReflTransGen.single ⟨usage, stem, width, wire, husage, h⟩

variable (h : M.Grows M')
include h

theorem width_eq {wire : Wire} {n : Nat} (hn : M.width wire = .ok n) : M'.width wire = .ok n := by
  induction h with
  | refl => exact hn
  | tail _ hstep ih =>
      obtain ⟨_, _, _, _, -, hallocate⟩ := hstep
      exact width_eq_of_allocate hallocate ih

theorem namedApart (hM : M.NamedApart) : M'.NamedApart := by
  induction h with
  | refl => exact hM
  | tail _ hstep ih =>
      obtain ⟨_, _, _, _, -, hallocate⟩ := hstep
      exact ih.allocate hallocate

/-- The generator, the matrix, the processes and the inputs stay as they are. -/
theorem frame : M'.names.generator = M.names.generator ∧ M'.matrix = M.matrix ∧ M'.processes = M.processes ∧
    (M'.locals.filter fun l => l.usage = .input) = M.locals.filter fun l => l.usage = .input := by
  induction h with
  | refl => exact ⟨rfl, rfl, rfl, rfl⟩
  | tail _ hstep ih =>
      obtain ⟨_, _, _, _, husage, hallocate⟩ := hstep
      obtain ⟨-, -, rfl⟩ := allocate_eq_ok_iff.mp hallocate
      obtain ⟨hgenerator, hmatrix, hprocesses, hinputs⟩ := ih
      refine ⟨hgenerator, hmatrix, hprocesses, ?_⟩
      simp [husage, hinputs]

end Grows

/-- Signals other than inputs were allocated and processes were added. -/
def Enlarges (M M' : DecoderModule) : Prop := ∃ M₁ processes, M.Grows M₁ ∧ M' = { M₁ with processes }

namespace Enlarges

variable (h : M.Enlarges M')
include h

theorem width_eq {wire : Wire} {n : Nat} (hn : M.width wire = .ok n) : M'.width wire = .ok n := by
  obtain ⟨M₁, processes, hgrows, rfl⟩ := h
  cases wire <;> exact hgrows.width_eq hn

theorem namedApart (hM : M.NamedApart) : M'.NamedApart := by
  obtain ⟨M₁, processes, hgrows, rfl⟩ := h
  have hapart := hgrows.namedApart hM
  exact ⟨hapart.taken, hapart.nodup, hapart.fresh⟩

/-- The generator, the matrix and the inputs stay as they are. -/
theorem frame : M'.names.generator = M.names.generator ∧ M'.matrix = M.matrix ∧
    (M'.locals.filter fun l => l.usage = .input) = M.locals.filter fun l => l.usage = .input := by
  obtain ⟨M₁, processes, hgrows, rfl⟩ := h
  obtain ⟨hgenerator, hmatrix, -, hinputs⟩ := hgrows.frame
  exact ⟨hgenerator, hmatrix, hinputs⟩

end Enlarges

end DecoderModule

end ControlStore
