import ControlStore.Proofs.WordFields
import Mathlib.Data.Set.Lattice
import Mathlib.Order.CompletePartialOrder
import Mathlib.Order.Interval.Set.Basic

/-! # What writes to a control word change

One write is refused exactly if its field leaves the word or holds another number than zero and the value;
an accepted write leaves its value in its field and changes no field apart from it (`write_refused_or_exact`).

Since zero counts as not yet written, a later write may set bits in a field that was written before, as long
as all bits that the two fields share were written zero (`Overwrites`).  Nothing else alters a value: along
accepted writes a field keeps its value exactly if no later write overwrites it (`accepted_write_kept_iff`). -/

namespace ControlStore.ControlWord

/-! ### One write -/

/-- The field of the write does not lie in the word, or holds a number other than zero and the value. -/
def Refused (w : ControlWord) (offset : Nat) (v : Bits) : Prop :=
  w.width < offset + v.width ∨
    ∃ current, w.read offset v.width = .ok current ∧ current ≠ 0 ∧ current ≠ v.value

theorem write_eq_ok_of_not_refused {w : ControlWord} {offset : Nat} {v : Bits}
    (hsum : offset + v.width < Width.limit) (h : ¬ w.Refused offset v) :
    w.write offset v = .ok (w.put offset v.value) := by
  unfold Refused at h
  push Not at h
  obtain ⟨hle, hfield⟩ := h
  have hread : w.read offset v.width = .ok (w.field offset v.width) := read_eq_ok_iff.mpr ⟨hle, hsum, rfl⟩
  refine write_eq_ok_iff.mpr ⟨⟨hle, hsum⟩, ?_, rfl⟩
  exact Decidable.or_iff_not_imp_left.mpr (hfield _ hread)

theorem exists_fault_of_refused {w : ControlWord} {offset : Nat} {v : Bits} (h : w.Refused offset v) :
    ∃ fault, w.write offset v = .error fault := by
  cases hwrite : w.write offset v with
  | error fault => exact ⟨fault, rfl⟩
  | ok w' =>
      exfalso
      obtain ⟨⟨hle, -⟩, hcurrent, -⟩ := write_eq_ok_iff.mp hwrite
      rcases h with hlt | ⟨current, hread, hzero, hvalue⟩
      · omega
      · obtain ⟨-, -, rfl⟩ := read_eq_ok_iff.mp hread
        exact hcurrent.elim hzero hvalue

/-- Ranges without a common bit lie apart, or one of them is empty. -/
theorem apart_of_disjoint {o n p m : Nat} (h : Disjoint (Set.Ico o (o + n)) (Set.Ico p (p + m))) :
    n = 0 ∨ m = 0 ∨ o + n ≤ p ∨ p + m ≤ o := by
  have hcommon : ¬ (max o p ∈ Set.Ico o (o + n) ∧ max o p ∈ Set.Ico p (p + m)) :=
    fun hmem => Set.disjoint_left.mp h hmem.1 hmem.2
  simp only [Set.mem_Ico] at hcommon
  omega

theorem field_put_of_disjoint (w : ControlWord) {o n offset : Nat} {v : Bits}
    (h : Disjoint (Set.Ico o (o + n)) (Set.Ico offset (offset + v.width))) :
    (w.put offset v.value).field o n = w.field o n := by
  rcases apart_of_disjoint h with rfl | hwidth | hapart
  · rw [field_zero_width, field_zero_width]
  · have hfits := v.value_lt
    rw [hwidth] at hfits
    have hzero : v.value = 0 := by omega
    simp [put, hzero, field]
  · exact field_put_apart w hapart

theorem read_eq_of_field {w w' : ControlWord} {o n : Nat} (hwidth : w'.width = w.width)
    (hfield : w'.field o n = w.field o n) : w'.read o n = w.read o n := by
  unfold read
  rw [hwidth]
  have hlow : lowBits (w'.bits >>> o) n = lowBits (w.bits >>> o) n := by
    rw [lowBits_eq_mod, lowBits_eq_mod]
    exact hfield
  rw [hlow]

/-- A write is refused exactly for its range or for another number in its field.  Otherwise it keeps the
width, stays within the word, leaves the value in its field and changes no field without a bit in common. -/
theorem write_refused_or_exact (w : ControlWord) (offset : Nat) (v : Bits) (hbits : w.bits < 2 ^ w.width)
    (hsum : offset + v.width < 2 ^ 32) :
    ((∃ fault, w.write offset v = .error fault) ↔ w.Refused offset v) ∧
      (¬ w.Refused offset v → ∃ w', w.write offset v = .ok w' ∧ w'.width = w.width ∧
        w'.bits < 2 ^ w'.width ∧ w'.read offset v.width = .ok v.value ∧
        ∀ o n, Disjoint (Set.Ico o (o + n)) (Set.Ico offset (offset + v.width)) → w'.read o n = w.read o n) := by
  have hok := write_eq_ok_of_not_refused (w := w) hsum
  refine ⟨⟨?_, exists_fault_of_refused⟩, fun h => ?_⟩
  · rintro ⟨fault, hfault⟩
    by_contra h
    rw [hok h] at hfault
    cases hfault
  · have hwrite := hok h
    refine ⟨_, hwrite, width_write hwrite, bits_lt_of_write hbits hwrite, ?_, fun o n hdisjoint => ?_⟩
    · have hle := (write_eq_ok_iff.mp hwrite).1.1
      exact read_eq_ok_iff.mpr ⟨hle, hsum, (field_write_self hwrite).symm⟩
    · exact read_eq_of_field rfl (field_put_of_disjoint w hdisjoint)

theorem write_beside_others : ¬ (⟨12, 0x035⟩ : ControlWord).Refused 8 ⟨4, 0xa, by decide⟩ ∧
    ∃ w', (⟨12, 0x035⟩ : ControlWord).write 8 ⟨4, 0xa, by decide⟩ = .ok w' ∧ w'.width = 12 ∧
      w'.bits < 2 ^ w'.width ∧ w'.read 8 4 = .ok 0xa ∧ ∀ o n,
        Disjoint (Set.Ico o (o + n)) (Set.Ico 8 (8 + 4)) → w'.read o n = (⟨12, 0x035⟩ : ControlWord).read o n := by
  have hfree : ¬ (⟨12, 0x035⟩ : ControlWord).Refused 8 ⟨4, 0xa, by decide⟩ := by
    rintro (hlt | ⟨current, hread, hzero, -⟩)
    · exact absurd hlt (by decide)
    · exact hzero (Except.ok.inj hread).symm
  exact ⟨hfree, (write_refused_or_exact ⟨12, 0x035⟩ 8 ⟨4, 0xa, by decide⟩ (by decide) (by decide)).2 hfree⟩

/-! ### Accepted writes one after the other -/

/-- Bit `i` of the word is set by the write. -/
def SetsBit (e : Nat × Bits) (i : Nat) : Prop := e.1 ≤ i ∧ e.2.value.testBit (i - e.1) = true

/-- Bit `i` of the word lies in the field of the write. -/
def Covers (e : Nat × Bits) (i : Nat) : Prop := e.1 ≤ i ∧ i < e.1 + e.2.width

/-- The write `e'` sets a bit in the field of `e`, and `e` left every bit zero that lies in both fields. -/
structure Overwrites (e' e : Nat × Bits) : Prop where
  blank : ∀ i, Covers e i → Covers e' i → ¬ SetsBit e i
  sets : ∃ i, Covers e i ∧ SetsBit e' i

theorem SetsBit.covers {e : Nat × Bits} {i : Nat} (h : SetsBit e i) : Covers e i := by
  refine ⟨h.1, ?_⟩
  have hlt : i - e.1 < e.2.width := (Nat.pow_lt_pow_iff_right (by decide : 1 < 2)).mp
    (Nat.lt_of_le_of_lt (Nat.ge_two_pow_of_testBit h.2) e.2.value_lt)
  omega

/-- The word has the value of `e` in the field of `e`. -/
def Keeps (w : ControlWord) (e : Nat × Bits) : Prop := w.field e.1 e.2.width = e.2.value

theorem keeps_iff {w : ControlWord} {e : Nat × Bits} :
    w.Keeps e ↔ ∀ i, Covers e i → (w.bits.testBit i = true ↔ SetsBit e i) := by
  unfold Keeps
  constructor
  · rintro h i ⟨hle, hlt⟩
    have hbit := testBit_field w e.1 e.2.width (i - e.1)
    rw [h, Nat.add_sub_cancel' hle, decide_eq_true (by omega), Bool.true_and] at hbit
    rw [← hbit]
    exact (and_iff_right hle).symm
  · intro h
    apply Nat.eq_of_testBit_eq
    intro i
    rw [testBit_field]
    rcases Nat.lt_or_ge i e.2.width with hi | hi
    · have hbit := h (e.1 + i) ⟨by omega, by omega⟩
      rw [SetsBit, Nat.add_sub_cancel_left, and_iff_right (Nat.le_add_right _ _)] at hbit
      rw [decide_eq_true hi, Bool.true_and]
      exact Bool.eq_iff_iff.mpr hbit
    · rw [decide_eq_false (Nat.not_lt.mpr hi), Bool.false_and]
      exact (Nat.testBit_lt_two_pow
        (Nat.lt_of_lt_of_le e.2.value_lt (Nat.pow_le_pow_right (by decide) hi))).symm

theorem testBit_put_iff (w : ControlWord) (e : Nat × Bits) (i : Nat) :
    (w.put e.1 e.2.value).bits.testBit i = true ↔ w.bits.testBit i = true ∨ SetsBit e i := by
  rw [testBit_bits_put, Bool.or_eq_true, Bool.and_eq_true, decide_eq_true_iff]
  rfl

/-- An accepted write alters a value exactly if it overwrites it: if a bit of the value in the other
field is set, that field holds the new value already. -/
theorem Keeps.write_iff {w w' : ControlWord} {e e' : Nat × Bits} (h : w.Keeps e)
    (hwrite : w.write e'.1 e'.2 = .ok w') : w'.Keeps e ↔ ¬ Overwrites e' e := by
  obtain ⟨-, hcurrent, rfl⟩ := write_eq_ok_iff.mp hwrite
  rw [keeps_iff] at h ⊢
  constructor
  · rintro hafter ⟨hblank, i, hcovers, hsets⟩
    exact hblank i hcovers hsets.covers ((hafter i hcovers).mp ((testBit_put_iff w e' i).mpr (.inr hsets)))
  · intro hno i hcovers
    rw [testBit_put_iff, ← h i hcovers, or_iff_left_iff_imp]
    intro hsets
    by_contra hclear
    refine hno ⟨fun j hj hj' hset => hclear ?_, i, hcovers, hsets⟩
    have hfield : w.Keeps e' := by
      refine hcurrent.resolve_left fun hzero => ?_
      have hbit := testBit_field w e'.1 e'.2.width (j - e'.1)
      rw [hzero, Nat.add_sub_cancel' hj'.1, (h j hj).mpr hset, Nat.zero_testBit, Bool.and_true] at hbit
      have := hj'.2
      have := hj'.1
      exact absurd (of_decide_eq_false hbit.symm) (by omega)
    exact (keeps_iff.mp hfield i hsets.covers).mpr hsets

/-- Along accepted writes a value is kept exactly if none of them overwrites it.  Bits are only ever
set, so a value that was altered does not come back. -/
theorem Keeps.writeAll_iff {w w' : ControlWord} {e : Nat × Bits} {ws : List (Nat × Bits)} (h : w.Keeps e)
    (hwrites : w.writeAll ws = .ok w') : w'.Keeps e ↔ ∀ e' ∈ ws, ¬ Overwrites e' e := by
  induction ws generalizing w with
  | nil =>
      cases hwrites
      simpa using h
  | cons e' ws ih =>
      obtain ⟨w₁, h₁, h₂⟩ := writeAll_cons_eq_ok_iff.mp hwrites
      rw [List.forall_mem_cons, ← h.write_iff h₁]
      by_cases hkept : w₁.Keeps e
      · rw [ih hkept h₂, and_iff_right hkept]
      · refine iff_of_false (fun hend => hkept ?_) fun hall => hkept hall.1
        obtain ⟨-, -, rfl⟩ := write_eq_ok_iff.mp h₁
        rw [keeps_iff] at h hend ⊢
        intro i hcovers
        constructor
        · exact fun hbit => (hend i hcovers).mp (testBit_writeAll_mono h₂ hbit)
        · exact fun hset => (testBit_put_iff w e' i).mpr (.inl ((h i hcovers).mpr hset))

/-- Of a sequence of writes to an empty word that are all accepted, each leaves its value in the final word
exactly if no later one overwrites it. -/
theorem accepted_write_kept_iff {width : Nat} {before after : List (Nat × Bits)} {e : Nat × Bits}
    {w' : ControlWord} (h : (zeros width).writeAll (before ++ e :: after) = .ok w') :
    w'.read e.1 e.2.width = .ok e.2.value ↔ ∀ e' ∈ after, ¬ Overwrites e' e := by
  unfold writeAll at h
  rw [List.foldlM_append, bind_eq_ok_iff] at h
  obtain ⟨w₁, -, h⟩ := h
  obtain ⟨w₂, h₁, h₂⟩ := writeAll_cons_eq_ok_iff.mp h
  have hkeeps : w₂.Keeps e := field_write_self h₁
  obtain ⟨⟨hle, hlt⟩, -, -⟩ := write_eq_ok_iff.mp h₁
  rw [← hkeeps.writeAll_iff h₂, read_eq_ok_iff, width_writeAll h₂, width_write h₁, and_iff_right hle,
    and_iff_right hlt]
  exact eq_comm

/-- Writes that agree with a value wherever they meet its field leave it as it is. -/
theorem overlapping_writes_kept :
    (zeros 8).writeAll ([] ++ (2, ⟨4, 0x6, by decide⟩) :: [(2, ⟨4, 0x6, by decide⟩), (3, ⟨2, 0x3, by decide⟩),
      (5, ⟨3, 0x0, by decide⟩)]) = .ok ⟨8, 0x18⟩ ∧
    (⟨8, 0x18⟩ : ControlWord).read 2 4 = .ok 0x6 ∧
    ∀ e' ∈ [(2, ⟨4, 0x6, by decide⟩), (3, ⟨2, 0x3, by decide⟩), (5, (⟨3, 0x0, by decide⟩ : Bits))],
      ¬ Overwrites e' (2, ⟨4, 0x6, by decide⟩) := by
  have hwrites : (zeros 8).writeAll ([] ++ (2, ⟨4, 0x6, by decide⟩) :: [(2, ⟨4, 0x6, by decide⟩),
      (3, ⟨2, 0x3, by decide⟩), (5, ⟨3, 0x0, by decide⟩)]) = .ok ⟨8, 0x18⟩ := by decide
  have hread : (⟨8, 0x18⟩ : ControlWord).read 2 4 = .ok 0x6 := by decide
  exact ⟨hwrites, hread, (accepted_write_kept_iff hwrites).mp hread⟩

/-- A field that was written zero takes another value afterwards. -/
theorem zero_overwritten : ¬ ∀ (width : Nat) (ws : List (Nat × Bits)) (w' : ControlWord),
    (zeros width).writeAll ws = .ok w' → ∀ e ∈ ws, w'.read e.1 e.2.width = .ok e.2.value := by
  intro hall
  have hread := hall 8 [(0, ⟨4, 0x0, by decide⟩), (0, ⟨4, 0x5, by decide⟩)] ⟨8, 0x5⟩ (by decide)
    (0, ⟨4, 0x0, by decide⟩) List.mem_cons_self
  exact absurd hread (by decide)

end ControlStore.ControlWord
