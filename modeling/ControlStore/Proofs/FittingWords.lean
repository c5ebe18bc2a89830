import ControlStore.Proofs.SourceTexts

/-! # Control words that fit

Lanes that share bits and merged selectors can make a control word much narrower than the lanes and
selectors it was made from.  A word that fits 32 bits is packed and laid out whatever those were
(`Design.pack_and_layout_ok`).  The report nevertheless states how wide lanes and selectors were
before, and these sums have the same bound: a design that fits is computed exactly if they fit, too
(`Design.overflows_iff`). -/

namespace ControlStore

open NatMap (tabulate)

namespace Design

variable {m : FlowMatrix} {bound : Nat} {s : MergeState}

/-- The width of the control word with the selectors of `s`, had widths no bound. -/
def wordBits (m : FlowMatrix) (s : MergeState) : Nat :=
  (Packing.freely (literals m)).width + s.slots.selectorBits

/-- A word that fits is packed and laid out without any sum being too large. -/
theorem pack_and_layout_ok (hfit : wordBits m s < Width.limit) :
    Packing.ofLiterals (literals m) = .ok (Packing.freely (literals m)) ∧
      ∃ fields, layout (Packing.freely (literals m)).width 0 s.slots.groups = .ok (fields, wordBits m s) := by
  unfold wordBits at hfit ⊢
  constructor
  · exact Packing.ofLiterals_eq_ok_iff.mpr ⟨rfl, by omega⟩
  · rw [← Slots.sum_width_groups] at hfit ⊢
    obtain ⟨fields, hlayout, -⟩ := layout_ok s.slots.groups 0 hfit
    exact ⟨fields, hlayout⟩

theorem width_eq_wordBits {d : Design} {report : Report} (hv : m.validate = .ok ())
    (hmerge : mergeGroups bound (initialTables m (tabulate m.neutralContent m.targets)) = .ok s)
    (h : (compute m bound).result = .ok (d, report)) : d.width = wordBits m s := by
  obtain ⟨s', hmerge', hpack, -, hwidth, -⟩ := compute_spec hv h
  obtain rfl := Except.ok.inj (hmerge.symm.trans hmerge')
  rw [hwidth, wordBits, (Packing.ofLiterals_eq_ok_iff.mp hpack).1]

/-- What is too large is the word, or a width of the report. -/
theorem overflows_iff (hv : m.validate = .ok ())
    (hmerge : mergeGroups bound (initialTables m (tabulate m.neutralContent m.targets)) = .ok s) :
    m.Overflows bound ↔
      Width.limit ≤ wordBits m s ∨ Width.limit ≤ m.laneBits ∨ Width.limit ≤ m.selectorBits := by
  by_cases hlanes : m.laneBits < Width.limit
  · obtain ⟨p, hpack, -⟩ := FlowMatrix.exists_packing hv hlanes
    obtain ⟨rfl, -⟩ := Packing.ofLiterals_eq_ok_iff.mp hpack
    simp only [FlowMatrix.Overflows, hpack, hmerge, Except.ok.injEq, exists_and_left, exists_eq_left',
      wordBits]
    omega
  · have hlanes' : Width.limit ≤ m.laneBits := by omega
    simp [FlowMatrix.Overflows, hlanes']

end Design

namespace Source

open Design

/-- A design that fits is packed and laid out, and it is computed exactly if the widths of its report
fit as well. -/
theorem FlowFile.fitting_word_computed_iff {file : FlowFile} {m : FlowMatrix} (hlower : file.lower = .ok m)
    (bound : Nat) :
    ∃ s, mergeGroups bound (initialTables m (tabulate m.neutralContent m.targets)) = .ok s ∧
      (wordBits m s < Width.limit →
        (∃ p fields, Packing.ofLiterals (literals m) = .ok p ∧
          layout p.width 0 s.slots.groups = .ok (fields, wordBits m s)) ∧
        ((∃ d report, (compute m bound).result = .ok (d, report) ∧ d.width = wordBits m s) ↔
          m.laneBits < Width.limit ∧ m.selectorBits < Width.limit)) ∧
      ((compute m bound).result = .error .sumTooLarge ↔
        Width.limit ≤ wordBits m s ∨ Width.limit ≤ m.laneBits ∨ Width.limit ≤ m.selectorBits) := by
  obtain ⟨hv, -⟩ := FlowFile.lower_spec hlower
  obtain ⟨s, hmerge, -⟩ := exists_merged m bound
  have hover := overflows_iff hv hmerge
  refine ⟨s, hmerge, fun hfit => ⟨?_, ?_⟩, ?_⟩
  · obtain ⟨hpack, fields, hlayout⟩ := pack_and_layout_ok hfit
    exact ⟨_, fields, hpack, hlayout⟩
  · rcases compute_cases hv bound with ⟨hyes, herror⟩ | ⟨hno, d, report, hcompute, -⟩
    · rw [hover] at hyes
      simp only [herror, reduceCtorEq, false_and, exists_false, false_iff]
      omega
    · rw [hover] at hno
      exact iff_of_true ⟨d, report, hcompute, width_eq_wordBits hv hmerge hcompute⟩ (by omega)
  · rw [← hover]
    rcases compute_cases hv bound with ⟨hyes, herror⟩ | ⟨hno, d, report, hcompute, -⟩
    · exact iff_of_true herror hyes
    · rw [hcompute]
      exact iff_of_false nofun hno

end Source

namespace Session

open Design

/-- Two lanes of more than `2 ^ 32` bits together, which are never used at the same time. -/
def exclusive : String :=
  "signals { a: 4294967290; b: 100; } step { a = raw 0; } step { b = raw 1; }"

/-- The matrix of the two lanes. -/
def exclusiveMatrix : FlowMatrix where
  signals := [.zeroed "a" 4294967290, .zeroed "b" 100]
  neutral := .empty
  steps := [.ofList [(0, .raw (.zero 4294967290))], .ofList [(1, .raw (.ofNat 1 100))]]

theorem readMatrix_exclusive : readMatrix exclusive = .ok exclusiveMatrix :=
  eq_ok_of_toOption (by decide +kernel)

/-- The lanes share their bits, and the selectors of one bit each follow them. -/
theorem wordBits_exclusive {s : MergeState}
    (hmerge : mergeGroups 6 (initialTables exclusiveMatrix
      (tabulate exclusiveMatrix.neutralContent exclusiveMatrix.targets)) = .ok s) :
    wordBits exclusiveMatrix s = 4294967292 := by
  have hpacked : (Packing.freely (literals exclusiveMatrix)).width = 4294967290 := by decide +kernel
  have hselectors : (mergeGroups 6 (initialTables exclusiveMatrix
      (tabulate exclusiveMatrix.neutralContent exclusiveMatrix.targets))).toOption.map
        (fun s => s.slots.selectorBits) = some 2 := by decide +kernel
  rw [hmerge] at hselectors
  have hbits : s.slots.selectorBits = 2 := Option.some.inj hselectors
  rw [wordBits, hpacked, hbits]

/-- The control word of the two lanes fits, but their sum does not, so there is no design. -/
theorem exclusive_fits_but_faults : readMatrix exclusive = .ok exclusiveMatrix ∧
    (∃ s, mergeGroups 6 (initialTables exclusiveMatrix
      (tabulate exclusiveMatrix.neutralContent exclusiveMatrix.targets)) = .ok s ∧
        wordBits exclusiveMatrix s < Width.limit) ∧
    (compute exclusiveMatrix 6).result = .error .sumTooLarge := by
  obtain ⟨hv, -⟩ := readMatrix_spec readMatrix_exclusive
  obtain ⟨s, hmerge, -⟩ := exists_merged exclusiveMatrix 6
  refine ⟨readMatrix_exclusive, ⟨s, hmerge, ?_⟩, ?_⟩
  · rw [wordBits_exclusive hmerge]
    decide
  · have hover : exclusiveMatrix.Overflows 6 := .inl (by decide)
    rcases compute_cases hv 6 with ⟨-, herror⟩ | ⟨hnot, -⟩
    · exact herror
    · exact absurd hover hnot

end Session

namespace Source

open Design Session

theorem FlowFile.fitting_word_exclusive : ∃ file, FlowFile.parse exclusive = .ok file ∧
    file.lower = .ok exclusiveMatrix ∧
    ∃ s, mergeGroups 6 (initialTables exclusiveMatrix
        (tabulate exclusiveMatrix.neutralContent exclusiveMatrix.targets)) = .ok s ∧
      wordBits exclusiveMatrix s < Width.limit ∧
      (∃ p fields, Packing.ofLiterals (literals exclusiveMatrix) = .ok p ∧
        layout p.width 0 s.slots.groups = .ok (fields, wordBits exclusiveMatrix s)) ∧
      ((∃ d report, (compute exclusiveMatrix 6).result = .ok (d, report) ∧
          d.width = wordBits exclusiveMatrix s) ↔
        exclusiveMatrix.laneBits < Width.limit ∧ exclusiveMatrix.selectorBits < Width.limit) := by
  obtain ⟨file, hparse, hlower⟩ := readMatrix_eq_ok_iff.mp readMatrix_exclusive
  obtain ⟨s, hmerge, hfits, -⟩ := FlowFile.fitting_word_computed_iff hlower 6
  have hfit : wordBits exclusiveMatrix s < Width.limit := by
    rw [wordBits_exclusive hmerge]
    decide
  exact ⟨file, hparse, hlower, s, hmerge, hfit, hfits hfit⟩

end Source

end ControlStore
