import ControlStore.Proofs.Layout

/-! # When a control word is too wide

Widths are added up in 32 bits.  The design of a valid matrix is computed unless one of the sums
leaves them: that of the lanes, that of the selectors, or that of the packed lanes and the merged
selectors (`FlowMatrix.Overflows`).  Nothing else can go wrong (`Design.compute_cases`). -/

namespace ControlStore

open NatMap (tabulate)

/-- Some sum of widths does not fit 32 bits. -/
def FlowMatrix.Overflows (m : FlowMatrix) (bound : Nat) : Prop :=
  Width.limit ≤ m.laneBits ∨ Width.limit ≤ m.selectorBits ∨
    ∃ p s, Packing.ofLiterals (Design.literals m) = .ok p ∧
      mergeGroups bound (Design.initialTables m (tabulate m.neutralContent m.targets)) = .ok s ∧
      Width.limit ≤ p.width + s.slots.selectorBits

/-! ### Computations that fail by a sum only -/

/-- If the computation fails, a sum was too large. -/
def SumFaults {α : Type} (x : Checked α) : Prop := ∀ f, x = .error f → f = .sumTooLarge

namespace SumFaults

variable {α β : Type}

theorem ok (a : α) : SumFaults (.ok a : Checked α) := fun _ h => nomatch h

theorem bind {x : Checked α} {f : α → Checked β} (hx : SumFaults x) (hf : ∀ a, x = .ok a → SumFaults (f a)) :
    SumFaults (x >>= f) := by
  intro fault h
  cases x with
  | error e =>
      obtain rfl : e = fault := Except.error.inj h
      exact hx e rfl
  | ok a => exact hf a rfl fault h

theorem foldlM {f : β → α → Checked β} (hf : ∀ b a, SumFaults (f b a)) (l : List α) (b : β) :
    SumFaults (l.foldlM f b) := by
  induction l generalizing b with
  | nil => exact ok b
  | cons a l ih =>
      rw [List.foldlM_cons]
      exact bind (hf b a) fun b' _ => ih b'

theorem add (a b : Nat) : SumFaults (Width.add a b) := by
  intro fault h
  unfold Width.add at h
  split at h
  · cases h
  · exact (Except.error.inj h).symm

theorem sum (ws : List Nat) : SumFaults (Width.sum ws) := foldlM add ws 0

theorem ofLiterals (flows : List (NatMap Bits)) : SumFaults (Packing.ofLiterals flows) := by
  rw [Packing.ofLiterals_eq]
  split
  · exact ok _
  · exact fun _ h => (Except.error.inj h).symm

theorem layout (offset order : Nat) (tables : List SymbolTable) :
    SumFaults (Design.layout offset order tables) := by
  induction tables generalizing offset order with
  | nil => exact ok _
  | cons table tables ih =>
      rw [Design.layout]
      exact bind (add _ _) fun next _ => bind (ih _ _) fun _ _ => ok _

theorem pack (flows : List (NatMap Bits)) : SumFaults (Packer.pack ⟨flows, none⟩) :=
  bind (ofLiterals flows) fun _ _ => ok _

theorem compute {m : FlowMatrix} (hv : m.validate = .ok ()) (bound : Nat) :
    SumFaults (Design.compute m bound).result := by
  obtain ⟨s, hmerge, -⟩ := Design.exists_merged m bound
  unfold Design.compute
  simp only [Traced.result_bind, Traced.result_lift, Traced.result_note, Traced.result_notes,
    Traced.result_pure, Design.neutralContents_eq_ok hv, Design.foldlM_packedFlows, hmerge, ok_bind]
  refine bind (pack _) fun p hp => bind (sum _) fun selectorBits _ => ?_
  obtain ⟨packing, packer⟩ := p
  obtain ⟨-, rfl⟩ := Packer.pack_eq_ok_iff.mp hp
  rw [Packer.width_eq_ok rfl, ok_bind]
  exact bind (layout _ _ _) fun _ _ => bind (sum _) fun valueBits _ => ok _

end SumFaults

/-! ### Sums that were taken -/

theorem Width.sum_lt {ws : List Nat} {n : Nat} (h : Width.sum ws = .ok n) : ws.sum < Width.limit := by
  have general : ∀ (ws : List Nat) (a : Nat), a < Width.limit → ws.foldlM Width.add a = .ok n →
      a + ws.sum < Width.limit := by
    intro ws
    induction ws with
    | nil => exact fun a ha _ => ha
    | cons w ws ih =>
        intro a _ hfold
        obtain ⟨b, hb, hfold⟩ := foldlM_cons_eq_ok_iff.mp hfold
        obtain ⟨rfl, hlt⟩ := Width.add_eq_ok_iff.mp hb
        have := ih (a + w) hlt hfold
        rw [List.sum_cons]
        omega
  simpa using general ws 0 (by decide) h

namespace Design

variable {m : FlowMatrix} {d : Design} {report : Report} {bound : Nat}

theorem layout_lt {tables : List SymbolTable} {offset order stop : Nat} {fields : List MicroField}
    (hoffset : offset < Width.limit) (h : layout offset order tables = .ok (fields, stop)) :
    offset + (tables.map SymbolTable.width).sum < Width.limit := by
  induction tables generalizing offset order fields with
  | nil => exact hoffset
  | cons table tables ih =>
      rw [layout] at h
      obtain ⟨next, hnext, h⟩ := bind_eq_ok_iff.mp h
      obtain ⟨⟨rest, stop'⟩, hrest, h⟩ := bind_eq_ok_iff.mp h
      cases h
      obtain ⟨rfl, hlt⟩ := Width.add_eq_ok_iff.mp hnext
      have := ih hlt hrest
      rw [List.map_cons, List.sum_cons]
      omega

theorem layout_eq_ok {tables : List SymbolTable} {offset order stop : Nat} {fields : List MicroField}
    (hoffset : offset < Width.limit) (h : layout offset order tables = .ok (fields, stop)) :
    stop = offset + (tables.map SymbolTable.width).sum ∧ fields.map MicroField.table = tables := by
  obtain ⟨fields', hlayout, htables, -⟩ := layout_ok tables order (layout_lt hoffset h)
  cases hlayout.symm.trans h
  exact ⟨rfl, htables⟩

/-- The groups that merging leaves become the fields of a design, behind the packed lanes. -/
theorem compute_spec (hv : m.validate = .ok ()) (h : (compute m bound).result = .ok (d, report)) :
    ∃ s, mergeGroups bound (initialTables m (tabulate m.neutralContent m.targets)) = .ok s ∧
      Packing.ofLiterals (literals m) = .ok d.packing ∧
      d.fields.map MicroField.table = s.slots.groups ∧
      d.width = d.packing.width + s.slots.selectorBits ∧ d.width < Width.limit ∧
      m.laneBits < Width.limit ∧ m.selectorBits < Width.limit ∧
      report = ⟨m.steps.length, bound, m.selectorBits, m.laneBits, s.generation, s.slots.selectorBits,
        d.packing.width, Report.histogramOf (d.fields.map MicroField.width)⟩ := by
  obtain ⟨neutral, p, _, s, fields, width, _, hneutral, hpack, hselectors, hmerge, hlayout, hvalues, rfl, rfl⟩ :=
    compute_eq_ok_iff.mp h
  obtain rfl := Except.ok.inj ((neutralContents_eq_ok hv).symm.trans hneutral)
  have hlanes := Width.sum_lt hvalues
  have hbits := Width.sum_lt hselectors
  obtain rfl := Except.ok.inj ((Width.sum_eq_ok hlanes).symm.trans hvalues)
  obtain rfl := Except.ok.inj ((Width.sum_eq_ok hbits).symm.trans hselectors)
  rw [sum_laneWidths hv] at hlanes ⊢
  rw [initialTables_eq, sum_initialTables] at hbits ⊢
  obtain ⟨p', hpack', -, -, hle⟩ := FlowMatrix.exists_packing hv hlanes
  obtain rfl := Except.ok.inj (hpack.symm.trans hpack')
  have hoffset := Nat.lt_of_le_of_lt hle hlanes
  have hword := layout_lt hoffset hlayout
  obtain ⟨rfl, htables⟩ := layout_eq_ok hoffset hlayout
  rw [Slots.sum_width_groups] at hword ⊢
  rw [initialTables_eq] at hmerge
  rw [Nat.add_sub_cancel_left]
  exact ⟨s, hmerge, hpack, htables, rfl, hword, hlanes, hbits, rfl⟩

theorem not_overflows_of_compute (hv : m.validate = .ok ()) (h : (compute m bound).result = .ok (d, report)) :
    ¬ m.Overflows bound := by
  obtain ⟨s, hmerge, hpack, -, hwidth, hlt, hlanes, hbits, -⟩ := compute_spec hv h
  rintro (hover | hover | ⟨p', s', hpack', hmerge', hover⟩)
  · omega
  · omega
  · obtain rfl := Except.ok.inj (hpack.symm.trans hpack')
    obtain rfl := Except.ok.inj (hmerge.symm.trans hmerge')
    omega

/-- The design of a valid matrix is computed unless a sum of widths overflows. -/
theorem compute_cases (hv : m.validate = .ok ()) (bound : Nat) :
    (m.Overflows bound ∧ (compute m bound).result = .error .sumTooLarge) ∨
      (¬ m.Overflows bound ∧ ∃ d report, (compute m bound).result = .ok (d, report) ∧ LaysOut m d) := by
  by_cases hover : m.Overflows bound
  · refine .inl ⟨hover, ?_⟩
    cases hcompute : (compute m bound).result with
    | error f => rw [SumFaults.compute hv bound f hcompute]
    | ok r => exact absurd hover (not_overflows_of_compute hv hcompute)
  · refine .inr ⟨hover, ?_⟩
    simp only [FlowMatrix.Overflows, not_or, Nat.not_le] at hover
    obtain ⟨hlanes, hselectors, hword⟩ := hover
    obtain ⟨p, hpack, -⟩ := FlowMatrix.exists_packing hv hlanes
    obtain ⟨s, hmerge, -⟩ := exists_merged m bound
    refine compute_ok_of_parts hv hlanes hselectors hpack hmerge (Nat.lt_of_not_le fun hle => ?_)
    exact hword ⟨p, s, hpack, hmerge, hle⟩

end Design

end ControlStore
