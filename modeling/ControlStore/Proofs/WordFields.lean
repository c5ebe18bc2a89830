import ControlStore.ControlWord
import ControlStore.Proofs.Widths

/-! # Fields of a control word

`ControlWord.field` is the number in a range of bits, and `ControlWord.put` sets bits; reading and
writing are these two behind their checks (`read_eq_ok_iff`, `write_eq_ok_iff`).  A write that is
accepted leaves its value in its field and every field apart from it alone.

`ControlWord.writeAll` makes several writes, of which any two lie apart or address the same field.
If those of one field agree, all are accepted and every field ends with its value (`writeAll_ok`).
If they need not agree but were accepted all the same, a field still ends with a value that was
written to it unless the value is zero: a field that reads zero counts as not yet written, so a
later write replaces it (`field_writeAll_eq_iff`). -/

namespace ControlStore.ControlWord

/-- The number in the bits `[offset, offset + width)`. -/
def field (w : ControlWord) (offset width : Nat) : Nat := (w.bits >>> offset) % 2 ^ width

/-- The word with the bits of `value` set from `offset` on. -/
def put (w : ControlWord) (offset value : Nat) : ControlWord :=
  { w with bits := w.bits ||| value <<< offset }

theorem testBit_field (w : ControlWord) (o n i : Nat) :
    (w.field o n).testBit i = (decide (i < n) && w.bits.testBit (o + i)) := by
  unfold field
  rw [Nat.testBit_mod_two_pow, Nat.testBit_shiftRight]

theorem testBit_bits_put (w : ControlWord) (o v i : Nat) :
    (w.put o v).bits.testBit i = (w.bits.testBit i || (decide (o ≤ i) && v.testBit (i - o))) := by
  unfold put
  rw [Nat.testBit_or, Nat.testBit_shiftLeft]

/-- The bits `[offset, offset + width)` as a literal. -/
def fieldBits (w : ControlWord) (offset width : Nat) : Bits := .ofNat (w.bits >>> offset) width

theorem value_fieldBits (w : ControlWord) (o n : Nat) : (w.fieldBits o n).value = w.field o n :=
  Bits.value_ofNat _ _

theorem fieldBits_eq_iff {w : ControlWord} {o : Nat} {b : Bits} :
    w.fieldBits o b.width = b ↔ w.field o b.width = b.value := by
  rw [← value_fieldBits]
  exact ⟨congrArg Bits.value, Bits.eq_of_width_value rfl⟩

/-- A field within the lowest bits is a field of these bits. -/
theorem field_of_low (w : ControlWord) {o n p : Nat} (h : o + n ≤ p) :
    (w.field 0 p >>> o) % 2 ^ n = w.field o n := by
  apply Nat.eq_of_testBit_eq
  intro i
  rw [Nat.testBit_mod_two_pow, Nat.testBit_shiftRight, testBit_field, testBit_field, Nat.zero_add]
  by_cases hi : i < n
  · have hlt : o + i < p := by omega
    simp [hi, hlt]
  · simp [hi]

@[simp] theorem field_zeros (width o n : Nat) : (zeros width).field o n = 0 := by
  simp [field, zeros]

@[simp] theorem field_zero_width (w : ControlWord) (o : Nat) : w.field o 0 = 0 := by
  simp [field, Nat.mod_one]

/-! ### One read and one write -/

theorem read_eq_ok_iff {w : ControlWord} {o n v : Nat} :
    w.read o n = .ok v ↔ o + n ≤ w.width ∧ o + n < Width.limit ∧ v = w.field o n := by
  unfold read
  rw [bind_eq_ok_iff]
  constructor
  · rintro ⟨stop, hstop, h⟩
    obtain ⟨rfl, hlt⟩ := Width.add_eq_ok_iff.mp hstop
    split at h
    · next hle =>
      cases h
      exact ⟨hle, hlt, lowBits_eq_mod _ _⟩
    · cases h
  · rintro ⟨hle, hlt, rfl⟩
    refine ⟨o + n, Width.add_eq_ok_iff.mpr ⟨rfl, hlt⟩, ?_⟩
    rw [if_pos hle, lowBits_eq_mod]
    rfl

theorem read_eq_field {w : ControlWord} {o n : Nat} (hw : w.width < Width.limit)
    (h : o + n ≤ w.width) : w.read o n = .ok (w.field o n) :=
  read_eq_ok_iff.mpr ⟨h, by omega, rfl⟩

theorem write_eq_ok_iff {w w' : ControlWord} {o : Nat} {b : Bits} :
    w.write o b = .ok w' ↔ (o + b.width ≤ w.width ∧ o + b.width < Width.limit) ∧
      (w.field o b.width = 0 ∨ w.field o b.width = b.value) ∧ w' = w.put o b.value := by
  unfold write
  rw [bind_eq_ok_iff]
  constructor
  · rintro ⟨current, hread, h⟩
    obtain ⟨hle, hlt, rfl⟩ := read_eq_ok_iff.mp hread
    split at h
    · next hcur =>
      cases h
      exact ⟨⟨hle, hlt⟩, hcur, rfl⟩
    · cases h
  · rintro ⟨⟨hle, hlt⟩, hcur, rfl⟩
    refine ⟨w.field o b.width, read_eq_ok_iff.mpr ⟨hle, hlt, rfl⟩, ?_⟩
    rw [if_pos hcur]
    rfl

theorem field_put_self (w : ControlWord) (o : Nat) (b : Bits) :
    (w.put o b.value).field o b.width = w.field o b.width ||| b.value := by
  apply Nat.eq_of_testBit_eq
  intro i
  rw [testBit_field, testBit_bits_put, Nat.testBit_or, testBit_field]
  rcases Nat.lt_or_ge i b.width with hi | hi
  · simp [hi]
  · have hv : b.value.testBit i = false :=
      Nat.testBit_lt_two_pow (Nat.lt_of_lt_of_le b.value_lt (Nat.pow_le_pow_right (by decide) hi))
    simp [hv, Nat.not_lt.mpr hi]

/-- Setting bits leaves every range apart from them alone. -/
theorem field_put_apart (w : ControlWord) {o n o' : Nat} {b : Bits}
    (h : o + n ≤ o' ∨ o' + b.width ≤ o) : (w.put o' b.value).field o n = w.field o n := by
  apply Nat.eq_of_testBit_eq
  intro i
  rw [testBit_field, testBit_bits_put, testBit_field]
  rcases Nat.lt_or_ge i n with hi | hi
  · rcases h with h | h
    · have : ¬ o' ≤ o + i := by omega
      simp [this]
    · have hv : b.value.testBit (o + i - o') = false :=
        Nat.testBit_lt_two_pow (Nat.lt_of_lt_of_le b.value_lt (Nat.pow_le_pow_right (by decide) (by omega)))
      simp [hv]
  · simp [Nat.not_lt.mpr hi]

theorem field_write_self {w w' : ControlWord} {o : Nat} {b : Bits} (h : w.write o b = .ok w') :
    w'.field o b.width = b.value := by
  obtain ⟨-, hcur, rfl⟩ := write_eq_ok_iff.mp h
  rw [field_put_self]
  rcases hcur with hcur | hcur
  · rw [hcur, Nat.zero_or]
  · rw [hcur, Nat.or_self]

theorem width_write {w w' : ControlWord} {o : Nat} {b : Bits} (h : w.write o b = .ok w') :
    w'.width = w.width := by
  obtain ⟨-, -, rfl⟩ := write_eq_ok_iff.mp h
  rfl

/-- A write stays within the bits of the word. -/
theorem bits_lt_of_write {w w' : ControlWord} {o : Nat} {b : Bits} (hw : w.bits < 2 ^ w.width)
    (h : w.write o b = .ok w') : w'.bits < 2 ^ w'.width := by
  obtain ⟨⟨hle, -⟩, -, rfl⟩ := write_eq_ok_iff.mp h
  refine Nat.or_lt_two_pow hw ?_
  rw [Nat.shiftLeft_eq]
  calc b.value * 2 ^ o < 2 ^ b.width * 2 ^ o := Nat.mul_lt_mul_of_pos_right b.value_lt (Nat.two_pow_pos o)
    _ = 2 ^ (b.width + o) := (Nat.pow_add 2 b.width o).symm
    _ ≤ 2 ^ w.width := Nat.pow_le_pow_right (by decide) (by omega)

/-- Nothing happens when a literal without bits is written. -/
theorem write_eq_self {w : ControlWord} {o : Nat} {b : Bits} (hb : b.width = 0)
    (ho : o ≤ w.width) (hw : w.width < Width.limit) : w.write o b = .ok w := by
  have hv : b.value = 0 := by
    have := b.value_lt
    rw [hb] at this
    omega
  refine write_eq_ok_iff.mpr ⟨⟨by omega, by omega⟩, .inl (by rw [hb, field_zero_width]), ?_⟩
  rw [put, hv, Nat.zero_shiftLeft, Nat.or_zero]

/-! ### Several writes -/

/-- Makes writes one after the other; each is an offset with the literal stored there. -/
def writeAll (w : ControlWord) (writes : List (Nat × Bits)) : Checked ControlWord :=
  writes.foldlM (fun w e => w.write e.1 e.2) w

/-- The range `[offset, offset + width)` and that of a write do not meet. -/
def Apart (offset width : Nat) (e : Nat × Bits) : Prop :=
  offset + width ≤ e.1 ∨ e.1 + e.2.width ≤ offset

/-- The write addresses exactly the range `[offset, offset + width)`. -/
def Addresses (offset width : Nat) (e : Nat × Bits) : Prop := e.1 = offset ∧ e.2.width = width

theorem Apart.symm {a b : Nat × Bits} (h : Apart a.1 a.2.width b) : Apart b.1 b.2.width a := Or.symm h

/-- A range that does not meet itself has no bits. -/
theorem Apart.value_eq_zero {o n : Nat} {e : Nat × Bits} (h : Apart o n e) (h' : Addresses o n e) :
    e.2.value = 0 := by
  obtain ⟨rfl, rfl⟩ := h'
  have hwidth : e.2.width = 0 := by
    rcases h with h | h <;> omega
  have hfits := e.2.value_lt
  rw [hwidth] at hfits
  omega

theorem writeAll_cons_eq_ok_iff {w w' : ControlWord} {e : Nat × Bits} {ws : List (Nat × Bits)} :
    w.writeAll (e :: ws) = .ok w' ↔ ∃ w₁, w.write e.1 e.2 = .ok w₁ ∧ w₁.writeAll ws = .ok w' :=
  foldlM_cons_eq_ok_iff

theorem width_writeAll {w w' : ControlWord} {ws : List (Nat × Bits)} (h : w.writeAll ws = .ok w') :
    w'.width = w.width := by
  induction ws generalizing w with
  | nil => cases h; rfl
  | cons e ws ih =>
      obtain ⟨w₁, h₁, h₂⟩ := writeAll_cons_eq_ok_iff.mp h
      rw [ih h₂, width_write h₁]

theorem bits_lt_of_writeAll {w w' : ControlWord} {ws : List (Nat × Bits)} (hw : w.bits < 2 ^ w.width)
    (h : w.writeAll ws = .ok w') : w'.bits < 2 ^ w'.width := by
  induction ws generalizing w with
  | nil => cases h; exact hw
  | cons e ws ih =>
      obtain ⟨w₁, h₁, h₂⟩ := writeAll_cons_eq_ok_iff.mp h
      exact ih (bits_lt_of_write hw h₁) h₂

/-- Writes leave a range that is apart from all of them alone. -/
theorem field_writeAll_apart {w w' : ControlWord} {ws : List (Nat × Bits)} {o n : Nat}
    (h : w.writeAll ws = .ok w') (hap : ∀ e ∈ ws, Apart o n e) : w'.field o n = w.field o n := by
  induction ws generalizing w with
  | nil => cases h; rfl
  | cons e ws ih =>
      obtain ⟨w₁, h₁, h₂⟩ := writeAll_cons_eq_ok_iff.mp h
      obtain ⟨-, -, rfl⟩ := write_eq_ok_iff.mp h₁
      rw [ih h₂ fun e' he' => hap e' (List.mem_cons_of_mem e he')]
      exact field_put_apart w (hap e List.mem_cons_self)

/-- Writes that are apart or the same are all accepted if every field is free or holds its value
already, and every field ends with its value. -/
theorem writeAll_ok {w : ControlWord} {ws : List (Nat × Bits)} (hw : w.width < Width.limit)
    (hfit : ∀ e ∈ ws, e.1 + e.2.width ≤ w.width)
    (hpair : ws.Pairwise fun a b => Apart a.1 a.2.width b ∨ a = b)
    (hfree : ∀ e ∈ ws, w.field e.1 e.2.width = 0 ∨ w.field e.1 e.2.width = e.2.value) :
    ∃ w', w.writeAll ws = .ok w' ∧ ∀ e ∈ ws, w'.field e.1 e.2.width = e.2.value := by
  induction ws generalizing w with
  | nil => exact ⟨w, rfl, by simp⟩
  | cons e ws ih =>
      obtain ⟨hhd, htl⟩ := List.pairwise_cons.mp hpair
      have hle := hfit e List.mem_cons_self
      have h₁ : w.write e.1 e.2 = .ok (w.put e.1 e.2.value) :=
        write_eq_ok_iff.mpr ⟨⟨hle, by omega⟩, hfree e List.mem_cons_self, rfl⟩
      have hfree₁ : ∀ e' ∈ ws, (w.put e.1 e.2.value).field e'.1 e'.2.width = 0 ∨
          (w.put e.1 e.2.value).field e'.1 e'.2.width = e'.2.value := by
        intro e' he'
        rcases hhd e' he' with hap | rfl
        · rw [field_put_apart w hap.symm]
          exact hfree e' (List.mem_cons_of_mem e he')
        · exact .inr (field_write_self h₁)
      have hw₁ : (w.put e.1 e.2.value).width < Width.limit := hw
      obtain ⟨w', h₂, hval⟩ := ih hw₁ (fun e' he' => hfit e' (List.mem_cons_of_mem e he')) htl hfree₁
      refine ⟨w', writeAll_cons_eq_ok_iff.mpr ⟨_, h₁, h₂⟩, ?_⟩
      intro e' he'
      rcases List.mem_cons.mp he' with rfl | he'
      · by_cases hmem : e' ∈ ws
        · exact hval e' hmem
        · rw [field_writeAll_apart h₂, field_write_self h₁]
          intro e'' he''
          exact (hhd e'' he'').resolve_right fun h => hmem (h ▸ he'')
      · exact hval e' he'

/-! ### Accepted writes that need not agree -/

/-- Bits that are set stay set. -/
theorem testBit_writeAll_mono {w w' : ControlWord} {ws : List (Nat × Bits)} {i : Nat}
    (h : w.writeAll ws = .ok w') (hi : w.bits.testBit i = true) : w'.bits.testBit i = true := by
  induction ws generalizing w with
  | nil => cases h; exact hi
  | cons e ws ih =>
      obtain ⟨w₁, h₁, h₂⟩ := writeAll_cons_eq_ok_iff.mp h
      obtain ⟨-, -, rfl⟩ := write_eq_ok_iff.mp h₁
      apply ih h₂
      rw [testBit_bits_put, hi, Bool.true_or]

/-- A bit that is set in the end was set before or lies in one of the writes. -/
theorem exists_write_of_testBit {w w' : ControlWord} {ws : List (Nat × Bits)} {i : Nat}
    (h : w.writeAll ws = .ok w') (hi : w'.bits.testBit i = true) : w.bits.testBit i = true ∨
      ∃ e ∈ ws, e.1 ≤ i ∧ i < e.1 + e.2.width ∧ e.2.value.testBit (i - e.1) = true := by
  induction ws generalizing w with
  | nil => cases h; exact .inl hi
  | cons e ws ih =>
      obtain ⟨w₁, h₁, h₂⟩ := writeAll_cons_eq_ok_iff.mp h
      obtain ⟨-, -, rfl⟩ := write_eq_ok_iff.mp h₁
      rcases ih h₂ with hi | ⟨e', he', hi⟩
      · rw [testBit_bits_put, Bool.or_eq_true, Bool.and_eq_true, decide_eq_true_iff] at hi
        refine hi.imp_right fun ⟨hle, hbit⟩ => ⟨e, List.mem_cons_self, hle, ?_, hbit⟩
        have hlt : i - e.1 < e.2.width := (Nat.pow_lt_pow_iff_right (by decide : 1 < 2)).mp
          (Nat.lt_of_le_of_lt (Nat.ge_two_pow_of_testBit hbit) e.2.value_lt)
        omega
      · exact .inr ⟨e', List.mem_cons_of_mem e he', hi⟩

/-- A field that reads zero in the end was only written zero. -/
theorem value_eq_zero_of_field_writeAll {w w' : ControlWord} {ws : List (Nat × Bits)} {e : Nat × Bits}
    (h : w.writeAll ws = .ok w') (he : e ∈ ws) (hz : w'.field e.1 e.2.width = 0) : e.2.value = 0 := by
  induction ws generalizing w with
  | nil => cases he
  | cons e' ws ih =>
      obtain ⟨w₁, h₁, h₂⟩ := writeAll_cons_eq_ok_iff.mp h
      rcases List.mem_cons.mp he with rfl | he
      · apply Nat.eq_of_testBit_eq
        intro i
        have hset := field_write_self h₁
        rw [Nat.zero_testBit, ← Bool.not_eq_true, ← hset, testBit_field]
        intro hbit
        rw [Bool.and_eq_true] at hbit
        have hfield : (w'.field e.1 e.2.width).testBit i = true := by
          rw [testBit_field, hbit.1, testBit_writeAll_mono h₂ hbit.2]
          rfl
        rw [hz, Nat.zero_testBit] at hfield
        cases hfield
      · exact ih h₂ he

/-- A write that nothing later meets leaves its value. -/
theorem field_writeAll_last {w w' : ControlWord} {before after : List (Nat × Bits)} {e : Nat × Bits}
    (h : w.writeAll (before ++ e :: after) = .ok w') (hap : ∀ e' ∈ after, Apart e.1 e.2.width e') :
    w'.field e.1 e.2.width = e.2.value := by
  unfold writeAll at h
  rw [List.foldlM_append, bind_eq_ok_iff] at h
  obtain ⟨w₁, -, h⟩ := h
  obtain ⟨w₂, h₂, h₃⟩ := writeAll_cons_eq_ok_iff.mp h
  rw [field_writeAll_apart h₃ hap, field_write_self h₂]

/-- A field that holds a number other than zero keeps it. -/
theorem field_writeAll_of_ne_zero {w w' : ControlWord} {ws : List (Nat × Bits)} {o n : Nat}
    (h : w.writeAll ws = .ok w') (hrel : ∀ e ∈ ws, Apart o n e ∨ Addresses o n e)
    (hne : w.field o n ≠ 0) : w'.field o n = w.field o n := by
  induction ws generalizing w with
  | nil => cases h; rfl
  | cons e ws ih =>
      obtain ⟨w₁, h₁, h₂⟩ := writeAll_cons_eq_ok_iff.mp h
      have hstep : w₁.field o n = w.field o n := by
        obtain ⟨-, hcur, rfl⟩ := write_eq_ok_iff.mp h₁
        rcases hrel e List.mem_cons_self with hap | ⟨rfl, rfl⟩
        · exact field_put_apart w hap
        · rw [field_put_self, hcur.resolve_left hne, Nat.or_self]
      rw [ih h₂ (fun e' he' => hrel e' (List.mem_cons_of_mem e he')) (hstep ▸ hne), hstep]

/-- A field that is only written zero stays as it is. -/
theorem field_writeAll_of_zero {w w' : ControlWord} {ws : List (Nat × Bits)} {o n : Nat}
    (h : w.writeAll ws = .ok w')
    (hrel : ∀ e ∈ ws, Apart o n e ∨ e.2.value = 0) : w'.field o n = w.field o n := by
  induction ws generalizing w with
  | nil => cases h; rfl
  | cons e ws ih =>
      obtain ⟨w₁, h₁, h₂⟩ := writeAll_cons_eq_ok_iff.mp h
      rw [ih h₂ fun e' he' => hrel e' (List.mem_cons_of_mem e he')]
      obtain ⟨-, -, rfl⟩ := write_eq_ok_iff.mp h₁
      rcases hrel e List.mem_cons_self with hap | hz
      · exact field_put_apart w hap
      · simp [field, put, hz]

/-- Accepted writes leave a field with a value that was written to it exactly if the value is not
zero, or nothing else was written there. -/
theorem field_writeAll_eq_iff {w w' : ControlWord} {ws : List (Nat × Bits)} {e : Nat × Bits}
    (h : w.writeAll ws = .ok w') (he : e ∈ ws)
    (hrel : ∀ e' ∈ ws, Apart e.1 e.2.width e' ∨ Addresses e.1 e.2.width e')
    (hblank : w.field e.1 e.2.width = 0) :
    w'.field e.1 e.2.width = e.2.value ↔
      e.2.value ≠ 0 ∨ ∀ e' ∈ ws, Addresses e.1 e.2.width e' → e'.2.value = 0 := by
  constructor
  · intro hfield
    refine Decidable.or_iff_not_imp_left.mpr fun hz e' he' haddr => ?_
    obtain ⟨h1, h2⟩ := haddr
    apply value_eq_zero_of_field_writeAll h he'
    rw [h1, h2, hfield, Decidable.not_not.mp hz]
  · by_cases hz : e.2.value = 0
    · intro hall
      have hall := hall.resolve_left (not_not_intro hz)
      rw [field_writeAll_of_zero h fun e' he' => (hrel e' he').imp_right (hall e' he'), hblank, hz]
    · intro _
      obtain ⟨pre, post, rfl⟩ := List.append_of_mem he
      unfold writeAll at h
      rw [List.foldlM_append, bind_eq_ok_iff] at h
      obtain ⟨w₁, -, h⟩ := h
      obtain ⟨w₂, h₂, h₃⟩ := writeAll_cons_eq_ok_iff.mp h
      have hself := field_write_self h₂
      rw [field_writeAll_of_ne_zero h₃ (fun e' he' => hrel e' (by simp [he'])) (hself ▸ hz), hself]

end ControlStore.ControlWord
