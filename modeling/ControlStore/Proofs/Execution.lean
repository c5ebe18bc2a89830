import ControlStore.Decoder.Statement
import Mathlib.Algebra.Ring.Nat
import Mathlib.Logic.Function.Basic

/-! # Executing processes

Executing a body performs stores; a switch executes the case whose label is the value of its
selector, and the fallback if there is none.  The signals of the design are left symbolic: a store
that forwards one drives its wire with `Datum.signal`.  At a clock edge all stores are evaluated
before any register changes, so a register that is stored once takes the value of its store
(`Registers.update_of_mem`). -/

namespace ControlStore

/-- What a wire carries. -/
inductive Datum where
  | value (bits : Bits)
  /-- Whatever a signal of the design carries. -/
  | signal (source : SignalId)
  /-- The bits `[lsb, lsb + width)` of a signal of the design. -/
  | part (source : SignalId) (lsb width : Nat)
  /-- Bits of unknown value. -/
  | unknown (width : Nat)
deriving DecidableEq

namespace Datum

/-- The bits `[lsb, lsb + width)` of a datum. -/
def slice (lsb width : Nat) : Datum → Datum
  | value bits => .value (.ofNat (bits.value >>> lsb) width)
  | signal source => .part source lsb width
  | part source start _ => .part source (start + lsb) width
  | unknown _ => .unknown width

/-- The datum that an assignment stands for. -/
def ofAssignment : Assignment → Datum
  | .value bits => .value bits
  | .signal source => .signal source

end Datum

/-- What the signals allocated for a decoder carry. -/
abbrev Registers := LocalId → Datum

/-- What a wire carries. -/
def Registers.read (regs : Registers) : Wire → Datum
  | .design s => .signal s
  | .inner i => regs i

/-- The value of an expression. -/
def Expr.eval (regs : Registers) : Expr → Datum
  | literal bits => .value bits
  | unknown width => .unknown width
  | read wire => regs.read wire
  | slice wire lsb width => (regs.read wire).slice lsb width

mutual

/-- The stores that a statement performs, in order. -/
def Stmt.stores (regs : Registers) : Stmt → List (Wire × Datum)
  | .store dst src => [(dst, src.eval regs)]
  | .switch selector cases fallback =>
      storesOfCases regs (selector.eval regs) (storesOfFallback regs fallback) cases

/-- The stores that a list of statements performs. -/
def storesOf (regs : Registers) : List Stmt → List (Wire × Datum)
  | [] => []
  | stmt :: rest => stmt.stores regs ++ storesOf regs rest

/-- The stores of the case with the given label, `otherwise` if there is none. -/
def storesOfCases (regs : Registers) (selector : Datum) (otherwise : List (Wire × Datum)) :
    List (Bits × List Stmt) → List (Wire × Datum)
  | [] => otherwise
  | (label, body) :: rest =>
    if selector = .value label then storesOf regs body
    else storesOfCases regs selector otherwise rest

/-- The stores of the fallback of a switch. -/
def storesOfFallback (regs : Registers) : Option (List Stmt) → List (Wire × Datum)
  | none => []
  | some body => storesOf regs body

end

/-! ### Stores of composed bodies -/

variable {regs : Registers}

theorem storesOf_eq_flatMap (body : List Stmt) :
    storesOf regs body = body.flatMap (Stmt.stores regs) := by
  induction body with
  | nil => rfl
  | cons stmt body ih => rw [storesOf, List.flatMap_cons, ih]

theorem storesOf_append (body more : List Stmt) :
    storesOf regs (body ++ more) = storesOf regs body ++ storesOf regs more := by
  simp only [storesOf_eq_flatMap, List.flatMap_append]

theorem storesOf_subset {body more : List Stmt} (h : body ⊆ more) :
    storesOf regs body ⊆ storesOf regs more := by
  intro e he
  rw [storesOf_eq_flatMap, List.mem_flatMap] at he ⊢
  obtain ⟨stmt, hstmt, he⟩ := he
  exact ⟨stmt, h hstmt, he⟩

theorem storesOf_flatten (bodies : List (List Stmt)) :
    storesOf regs bodies.flatten = bodies.flatMap (storesOf regs) := by
  induction bodies with
  | nil => rfl
  | cons body bodies ih => rw [List.flatten_cons, storesOf_append, ih, List.flatMap_cons]

theorem storesOf_map_store {α : Type} (l : List α) (dst : α → Wire) (src : α → Expr) :
    storesOf regs (l.map fun a => .store (dst a) (src a)) =
      l.map fun a => (dst a, (src a).eval regs) := by
  induction l with
  | nil => rfl
  | cons a l ih =>
      rw [List.map_cons, storesOf, ih]
      rfl

theorem storesOf_switch (selector : Expr) (cases : List (Bits × List Stmt)) (fallback : List Stmt) :
    storesOf regs [.switch selector cases (some fallback)] =
      storesOfCases regs (selector.eval regs) (storesOf regs fallback) cases := by
  rw [storesOf, storesOf, List.append_nil]
  rfl

theorem storesOfCases_of_mem {otherwise : List (Wire × Datum)} {cases : List (Bits × List Stmt)}
    {label : Bits} {body : List Stmt} (h : (label, body) ∈ cases)
    (hnodup : (cases.map Prod.fst).Nodup) :
    storesOfCases regs (.value label) otherwise cases = storesOf regs body := by
  induction cases with
  | nil => cases h
  | cons c cases ih =>
      obtain ⟨l, b⟩ := c
      obtain ⟨hl, hnodup⟩ := List.nodup_cons.mp hnodup
      rw [storesOfCases]
      rcases List.mem_cons.mp h with heq | hmem
      · cases heq
        rw [if_pos rfl]
      · have hne : label ≠ l := by
          rintro rfl
          exact hl (List.mem_map.mpr ⟨_, hmem, rfl⟩)
        rw [if_neg fun heq => hne (Datum.value.inj heq), ih hmem hnodup]

theorem storesOfCases_of_not_mem {selector : Datum} {otherwise : List (Wire × Datum)}
    {cases : List (Bits × List Stmt)} (h : ∀ c ∈ cases, selector ≠ .value c.1) :
    storesOfCases regs selector otherwise cases = otherwise := by
  induction cases with
  | nil => rfl
  | cons c cases ih =>
      obtain ⟨hc, hcases⟩ := List.forall_mem_cons.mp h
      rw [storesOfCases, if_neg hc, ih hcases]

/-! ### Clock edges -/

namespace Registers

/-- The registers after the given stores. -/
def update (regs : Registers) (stores : List (Wire × Datum)) : Registers :=
  stores.foldl (fun regs e =>
    match e.1 with
    | .inner i => Function.update regs i e.2
    | .design _ => regs) regs

theorem update_of_not_mem {i : LocalId} {stores : List (Wire × Datum)}
    (h : .inner i ∉ stores.map Prod.fst) (regs : Registers) : regs.update stores i = regs i := by
  induction stores generalizing regs with
  | nil => rfl
  | cons e stores ih =>
      obtain ⟨wire, datum⟩ := e
      rw [List.map_cons, List.mem_cons, not_or] at h
      show update _ stores i = _
      rw [ih h.2]
      cases wire with
      | design s => rfl
      | inner j =>
          have hij : i ≠ j := fun hij => h.1 (hij ▸ rfl)
          exact Function.update_of_ne hij _ _

/-- A register that is stored once takes the value of its store. -/
theorem update_of_mem {i : LocalId} {datum : Datum} {stores : List (Wire × Datum)}
    (h : (.inner i, datum) ∈ stores) (hnodup : (stores.map Prod.fst).Nodup) (regs : Registers) :
    regs.update stores i = datum := by
  induction stores generalizing regs with
  | nil => cases h
  | cons e stores ih =>
      obtain ⟨hnot, hnodup⟩ := List.nodup_cons.mp hnodup
      rcases List.mem_cons.mp h with rfl | h
      · show update (Function.update regs i datum) stores i = datum
        rw [update_of_not_mem hnot, Function.update_self]
      · exact ih h hnodup _

end Registers

end ControlStore
