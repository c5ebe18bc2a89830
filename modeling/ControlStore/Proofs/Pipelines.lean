import ControlStore.Decoder.Module
import ControlStore.Proofs.Checked
import ControlStore.Proofs.Execution
import Mathlib.Data.List.Nodup

/-! # Registers that delay what they sample

A clocked body is put together from blocks, each of which stores once into every register that was
allocated for it (`Block`).  A register that samples the control word, or copies a register that
does, holds after `n` clock edges what was sampled from the word as many edges ago as the chain of
registers is long, and zero before that (`Delays.after_eq`). -/

namespace ControlStore

namespace DecoderModule

/-- The widths of the allocated signals. -/
def widths (M : DecoderModule) : List Nat := M.locals.map LocalSignal.width

/-- The registers before the first clock edge. -/
def powerUp (M : DecoderModule) : Registers := fun i => .value (.zero (M.widths.getD i 0))

theorem allocate_ok {width : Nat} (h : 0 < width) (usage : PortUsage) (name : String)
    (M : DecoderModule) : ∃ M', M.allocate usage name width = .ok (.inner M.widths.length, M') ∧
      M'.widths = M.widths ++ [width] ∧ M'.processes = M.processes := by
  unfold allocate widths
  rw [if_pos h, List.length_map]
  exact ⟨_, rfl, List.map_append, rfl⟩

end DecoderModule

namespace Registers

/-- The registers after a clock edge with `word` on `cw`; all stores see the registers before it. -/
def edge (cw : LocalId) (sync : List Stmt) (regs : Registers) (word : Bits) : Registers :=
  let sampled : Registers := Function.update regs cw (.value word)
  sampled.update (storesOf sampled sync)

/-- The registers after some clock edges, one for each of the words in turn. -/
def after (cw : LocalId) (sync : List Stmt) (start : Registers) (words : Nat → Bits) : Nat → Registers
  | 0 => start
  | n + 1 => (after cw sync start words n).edge cw sync (words n)

end Registers

/-! ### Blocks of a clocked body -/

/-- The statements store once into each of the registers that `M'` has beyond those of `M`. -/
structure Block (cw : LocalId) (M : DecoderModule) (stmts : List Stmt) (M' : DecoderModule) : Prop where
  widths : M.widths <+: M'.widths
  processes : M'.processes = M.processes
  fills : ∀ (regs : Registers) (b : Bits), regs cw = .value b → (storesOf regs stmts).map Prod.fst =
    (List.range' M.widths.length (M'.widths.length - M.widths.length)).map .inner

namespace Block

variable {cw : LocalId} {M M₁ M₂ : DecoderModule} {stmts more : List Stmt}

theorem refl (cw : LocalId) (M : DecoderModule) : Block cw M [] M where
  widths := List.prefix_rfl
  processes := rfl
  fills regs b _ := by
    rw [Nat.sub_self]
    rfl

theorem append (h : Block cw M stmts M₁) (h' : Block cw M₁ more M₂) : Block cw M (stmts ++ more) M₂ where
  widths := h.widths.trans h'.widths
  processes := h'.processes.trans h.processes
  fills regs b hcw := by
    have hle := h.widths.length_le
    have hle' := h'.widths.length_le
    rw [storesOf_append, List.map_append, h.fills regs b hcw, h'.fills regs b hcw, ← List.map_append]
    have happend := List.range'_append_1 (s := M.widths.length) (m := M₁.widths.length - M.widths.length)
      (n := M₂.widths.length - M₁.widths.length)
    rw [Nat.add_sub_cancel' hle] at happend
    rw [happend]
    congr 2
    omega

/-- One register and the statements that store into it. -/
theorem single {width : Nat} (hwidths : M₁.widths = M.widths ++ [width])
    (hprocesses : M₁.processes = M.processes)
    (hstores : ∀ (regs : Registers) (b : Bits), regs cw = .value b →
      ∃ x, storesOf regs stmts = [(.inner M.widths.length, x)]) : Block cw M stmts M₁ where
  widths := hwidths ▸ List.prefix_append _ _
  processes := hprocesses
  fills regs b hcw := by
    obtain ⟨x, hx⟩ := hstores regs b hcw
    rw [hx, hwidths, List.length_append, Nat.add_sub_cancel_left]
    rfl

theorem nodup (h : Block cw M stmts M₁) {regs : Registers} {b : Bits} (hcw : regs cw = .value b) :
    ((storesOf regs stmts).map Prod.fst).Nodup := by
  rw [h.fills regs b hcw]
  exact List.Nodup.map (fun i j hij => Wire.inner.inj hij) List.nodup_range'

theorem ne_of_mem (h : Block cw M stmts M₁) (hlt : cw < M.widths.length) {regs : Registers} {b : Bits}
    (hcw : regs cw = .value b) {i : LocalId} {x : Datum} (hmem : (.inner i, x) ∈ storesOf regs stmts) :
    i ≠ cw := by
  have hdst : Wire.inner i ∈ (storesOf regs stmts).map Prod.fst := List.mem_map.mpr ⟨_, hmem, rfl⟩
  rw [h.fills regs b hcw, List.mem_map] at hdst
  obtain ⟨j, hj, hij⟩ := hdst
  cases hij
  exact Nat.ne_of_gt (Nat.lt_of_lt_of_le hlt (List.mem_range'_1.mp hj).1)

end Block

/-! ### Chains of registers -/

/-- Register `i` takes at every edge what `x` samples from the word, `k - 1` edges later. -/
inductive Delays (cw : LocalId) (widths : List Nat) (sync : List Stmt) (x : Bits → Datum) (width : Nat) :
    Nat → LocalId → Prop
  | sample {i : LocalId} (hwidth : widths[i]? = some width)
      (hstore : ∀ (regs : Registers) (b : Bits), regs cw = .value b → (.inner i, x b) ∈ storesOf regs sync) :
      Delays cw widths sync x width 1 i
  | copy {k : Nat} {i j : LocalId} (hi : Delays cw widths sync x width k i) (hwidth : widths[j]? = some width)
      (hstore : ∀ regs : Registers, (.inner j, regs i) ∈ storesOf regs sync) :
      Delays cw widths sync x width (k + 1) j

namespace Delays

variable {cw : LocalId} {widths widths' : List Nat} {sync sync' : List Stmt} {x : Bits → Datum}
  {width k : Nat} {i : LocalId}

theorem mono (h : Delays cw widths sync x width k i) (hwidths : widths <+: widths')
    (hsync : sync ⊆ sync') : Delays cw widths' sync' x width k i := by
  have hget : ∀ {i : LocalId}, widths[i]? = some width → widths'[i]? = some width := by
    intro i hi
    obtain ⟨rest, rfl⟩ := hwidths
    rw [List.getElem?_append_left (List.getElem?_eq_some_iff.mp hi).1, hi]
  induction h with
  | sample hwidth hstore =>
      exact .sample (hget hwidth) fun regs b hcw => storesOf_subset hsync (hstore regs b hcw)
  | copy _ hwidth hstore ih =>
      exact .copy ih (hget hwidth) fun regs => storesOf_subset hsync (hstore regs)

theorem exists_store (h : Delays cw widths sync x width k i) {regs : Registers} {b : Bits}
    (hcw : regs cw = .value b) : ∃ y, (.inner i, y) ∈ storesOf regs sync := by
  cases h with
  | sample _ hstore => exact ⟨_, hstore regs b hcw⟩
  | copy _ _ hstore => exact ⟨_, hstore regs⟩

/-- A register that samples the word. -/
theorem first {M M' : DecoderModule} (hwidths : M'.widths = M.widths ++ [width])
    (hstores : ∀ (regs : Registers) (b : Bits), regs cw = .value b →
      storesOf regs sync = [(.inner M.widths.length, x b)]) :
    Delays cw M'.widths sync x width 1 M.widths.length := by
  refine .sample ?_ fun regs b hcw => ?_
  · rw [hwidths, List.getElem?_concat_length]
  · rw [hstores regs b hcw]
    exact List.mem_cons_self

/-- One more register at the end of a chain. -/
theorem register {M M' : DecoderModule} (h : Delays cw M.widths sync x width k i)
    (hwidths : M'.widths = M.widths ++ [width]) :
    Delays cw M'.widths (sync ++ [.store (.inner M.widths.length) (.read (.inner i))]) x width (k + 1)
      M.widths.length := by
  have hprefix : M.widths <+: M'.widths := hwidths ▸ List.prefix_append _ _
  refine .copy (h.mono hprefix (List.subset_append_left _ _)) ?_ fun regs => ?_
  · rw [hwidths, List.getElem?_concat_length]
  · rw [storesOf_append]
    exact List.mem_append_right _ List.mem_cons_self

/-- A chain of `k` registers holds what was sampled `k` edges ago: after an edge a copy holds what its
source held before the edge. -/
theorem after_eq {M₀ M : DecoderModule} (hblock : Block cw M₀ sync M) (hcw : cw < M₀.widths.length)
    (h : Delays cw M.widths sync x width k i) (words : Nat → Bits) (n : Nat) :
    Registers.after cw sync M.powerUp words n i =
      if n < k then .value (.zero width) else x (words (n - k)) := by
  have hzero : ∀ {i : LocalId}, M.widths[i]? = some width → M.powerUp i = .value (.zero width) := by
    intro i hi
    unfold DecoderModule.powerUp
    rw [List.getD_eq_getElem?_getD, hi]
    rfl
  induction h generalizing n with
  | sample hwidth hstore =>
      cases n with
      | zero => exact hzero hwidth
      | succ n =>
          have hword : (Function.update (Registers.after cw sync M.powerUp words n) cw (.value (words n)))
              cw = .value (words n) := Function.update_self _ _ _
          exact Registers.update_of_mem (hstore _ _ hword) (hblock.nodup hword) _
  | @copy k i j hi hwidth hstore ih =>
      cases n with
      | zero => exact hzero hwidth
      | succ n =>
          have hword : (Function.update (Registers.after cw sync M.powerUp words n) cw (.value (words n)))
              cw = .value (words n) := Function.update_self _ _ _
          obtain ⟨y, hy⟩ := hi.exists_store hword
          have hne : i ≠ cw := hblock.ne_of_mem hcw hword hy
          have hedge : Registers.after cw sync M.powerUp words (n + 1) j =
              Registers.after cw sync M.powerUp words n i :=
            (Registers.update_of_mem (hstore _) (hblock.nodup hword) _).trans
              (Function.update_of_ne hne _ _)
          rw [hedge, ih]
          simp only [Nat.add_lt_add_iff_right, Nat.add_sub_add_right]

end Delays

/-- A wire at the end of a chain of `k` registers; there is none if nothing has to be registered. -/
def Registered (absent : Prop) (cw : LocalId) (widths : List Nat) (sync : List Stmt) (x : Bits → Datum)
    (width k : Nat) (wire : Option Wire) : Prop :=
  (absent ∧ wire = none) ∨ (¬ absent ∧ ∃ i, wire = some (.inner i) ∧ Delays cw widths sync x width k i)

namespace Registered

variable {absent : Prop} {cw : LocalId} {widths widths' : List Nat} {sync sync' : List Stmt}
  {x : Bits → Datum} {width k : Nat} {wire : Option Wire}

theorem absent_of_none (h : Registered absent cw widths sync x width k none) : absent := by
  rcases h with ⟨habsent, -⟩ | ⟨-, i, hi, -⟩
  · exact habsent
  · exact absurd hi.symm (Option.some_ne_none _)

theorem mono (h : Registered absent cw widths sync x width k wire) (hwidths : widths <+: widths')
    (hsync : sync ⊆ sync') :
    Registered absent cw widths' sync' x width k wire := by
  rcases h with habsent | ⟨hpresent, i, hwire, hdelays⟩
  · exact .inl habsent
  · exact .inr ⟨hpresent, i, hwire, hdelays.mono hwidths hsync⟩

end Registered

end ControlStore
