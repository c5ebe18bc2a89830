import ControlStore.Proofs.Execution

/-! # Blocking assignments

A store of a combinational process takes effect at once, so a later statement of the body reads what
an earlier one stored.  `execAll` executes a body in this way on the levels of all wires.

In a body that stores into signals of the design only and selects by wires of the decoder only
(`Stmt.Direct`), no store changes which stores follow.  Executing it replays the stores that it
performs, each of them on what the wires carry by then (`execAll_eq_replay`).  If every wire is stored
once, a wire that forwards a signal ends with the level that the signal ends with, unless the signal
is stored afterwards; then it keeps the level that the signal had before (`Valuation.replay_signal`). -/

namespace ControlStore

/-- What a wire carries at one moment. -/
inductive WireLevel where
  | bits (b : Bits)
  /-- Bits of unknown value. -/
  | unknown (width : Nat)
deriving DecidableEq

namespace WireLevel

/-- The bits `[lsb, lsb + width)` of a level. -/
def slice (lsb width : Nat) : WireLevel → WireLevel
  | bits b => .bits (.ofNat (b.value >>> lsb) width)
  | unknown _ => .unknown width

/-- The datum that does not refer to any signal. -/
def datum : WireLevel → Datum
  | bits b => .value b
  | unknown width => .unknown width

theorem datum_eq_value_iff {l : WireLevel} {b : Bits} : l.datum = .value b ↔ l = .bits b := by
  cases l with
  | bits c => simp [datum]
  | unknown width => simp [datum]

theorem datum_slice (lsb width : Nat) (l : WireLevel) :
    (l.slice lsb width).datum = l.datum.slice lsb width := by
  cases l <;> rfl

end WireLevel

/-- What all wires carry at one moment. -/
abbrev Valuation := Wire → WireLevel

/-- The level of an expression. -/
def Expr.level (v : Valuation) : Expr → WireLevel
  | literal bits => .bits bits
  | unknown width => .unknown width
  | read wire => v wire
  | slice wire lsb width => (v wire).slice lsb width

/-! ### Execution -/

mutual

/-- The levels after a statement. -/
def Stmt.exec (v : Valuation) : Stmt → Valuation
  | .store dst src => Function.update v dst (src.level v)
  | .switch selector cases fallback =>
      execCases v (selector.level v) (execFallback v fallback) cases

/-- The levels after a list of statements. -/
def execAll (v : Valuation) : List Stmt → Valuation
  | [] => v
  | stmt :: rest => execAll (stmt.exec v) rest

/-- The levels after the case with the given label, `otherwise` if there is none. -/
def execCases (v : Valuation) (selector : WireLevel) (otherwise : Valuation) :
    List (Bits × List Stmt) → Valuation
  | [] => otherwise
  | (label, body) :: rest =>
    if selector = .bits label then execAll v body else execCases v selector otherwise rest

/-- The levels after the fallback of a switch. -/
def execFallback (v : Valuation) : Option (List Stmt) → Valuation
  | none => v
  | some body => execAll v body

end

/-! ### Replaying stores -/

/-- What a datum amounts to by the given levels. -/
def Datum.level (v : Valuation) : Datum → WireLevel
  | value bits => .bits bits
  | signal source => v (.design source)
  | part source lsb width => (v (.design source)).slice lsb width
  | unknown width => .unknown width

namespace Valuation

variable {stores : List (Wire × Datum)}

/-- What the signals allocated for a decoder carry. -/
def registers (v : Valuation) : Registers := fun i => (v (.inner i)).datum

/-- The levels after the given stores, performed one after the other. -/
def replay (v : Valuation) (stores : List (Wire × Datum)) : Valuation :=
  stores.foldl (fun v e => Function.update v e.1 (e.2.level v)) v

theorem replay_cons (e : Wire × Datum) (stores : List (Wire × Datum)) (v : Valuation) :
    v.replay (e :: stores) = replay (Function.update v e.1 (e.2.level v)) stores := rfl

theorem replay_append (stores more : List (Wire × Datum)) (v : Valuation) :
    v.replay (stores ++ more) = (v.replay stores).replay more := List.foldl_append

theorem replay_of_not_mem {w : Wire} (h : w ∉ stores.map Prod.fst) (v : Valuation) :
    v.replay stores w = v w := by
  induction stores generalizing v with
  | nil => rfl
  | cons e stores ih =>
      rw [List.map_cons, List.mem_cons, not_or] at h
      rw [replay_cons, ih h.2, Function.update_of_ne h.1]

/-- Stores into signals of the design leave the signals of the decoder as they are. -/
theorem registers_replay (h : ∀ e ∈ stores, ∃ t, e.1 = .design t) (v : Valuation) :
    (v.replay stores).registers = v.registers := by
  funext i
  have hi : Wire.inner i ∉ stores.map Prod.fst := by
    intro hmem
    obtain ⟨e, he, hfst⟩ := List.mem_map.mp hmem
    obtain ⟨t, ht⟩ := h e he
    rw [hfst] at ht
    cases ht
  unfold registers
  rw [replay_of_not_mem hi]

/-- A wire that a signal is forwarded to ends with the level of the signal, which is the one at the
end if the signal is not stored afterwards, and the one at the start if it is. -/
theorem replay_signal {w : Wire} {source : SignalId} (h : (w, .signal source) ∈ stores)
    (hnd : (stores.map Prod.fst).Nodup) (v : Valuation) :
    (¬ [w, .design source].Sublist (stores.map Prod.fst) →
      v.replay stores w = v.replay stores (.design source)) ∧
    ([w, .design source].Sublist (stores.map Prod.fst) →
      v.replay stores w = v (.design source)) := by
  induction stores generalizing v with
  | nil => cases h
  | cons e stores ih =>
      rw [List.map_cons] at hnd ⊢
      obtain ⟨hnot, hnd⟩ := List.nodup_cons.mp hnd
      rw [replay_cons]
      rcases List.mem_cons.mp h with rfl | h
      · have hw : replay (Function.update v w (v (.design source))) stores w = v (.design source) := by
          rw [replay_of_not_mem hnot, Function.update_self]
        refine ⟨fun hafter => ?_, fun _ => hw⟩
        have hsource : Wire.design source ∉ stores.map Prod.fst := by
          intro hmem
          exact hafter ((List.singleton_sublist.mpr hmem).cons_cons w)
        refine hw.trans ?_
        rw [Datum.level, replay_of_not_mem hsource]
        by_cases heq : Wire.design source = w
        · rw [heq, Function.update_self]
        · rw [Function.update_of_ne heq]
      · have hne : w ≠ e.1 := by
          rintro rfl
          exact hnot (List.mem_map.mpr ⟨_, h, rfl⟩)
        obtain ⟨ihend, ihstart⟩ := ih h hnd (Function.update v e.1 (e.2.level v))
        refine ⟨fun hafter => ihend fun hsub => hafter (hsub.cons e.1), fun hafter => ?_⟩
        have hsub : [w, .design source].Sublist (stores.map Prod.fst) := by
          rcases List.sublist_cons_iff.mp hafter with hsub | ⟨r, hr, -⟩
          · exact hsub
          · exact absurd (List.cons.inj hr).1 hne
        have hsource : Wire.design source ≠ e.1 := by
          intro heq
          exact hnot (heq ▸ hsub.subset (by simp))
        rw [ihstart hsub, Function.update_of_ne hsource]

end Valuation

/-! ### Bodies that only store into the design -/

/-- A statement that stores into signals of the design, and selects by wires of the decoder. -/
inductive Stmt.Direct : Stmt → Prop
  | store (t : SignalId) (src : Expr) : Direct (.store (.design t) src)
  | switch {selector : Expr} {i : LocalId} {cases : List (Bits × List Stmt)}
      {fallback : Option (List Stmt)} (hselector : selector.wire? = some (.inner i))
      (hcases : ∀ c ∈ cases, ∀ s ∈ c.2, Direct s)
      (hfallback : ∀ body ∈ fallback, ∀ s ∈ body, Direct s) :
      Direct (.switch selector cases fallback)

theorem Expr.level_eval (v : Valuation) (e : Expr) : (e.eval v.registers).level v = e.level v := by
  cases e with
  | literal bits => rfl
  | unknown width => rfl
  | read wire =>
      cases wire with
      | design s => rfl
      | inner i =>
          show (v (.inner i)).datum.level v = v (.inner i)
          cases v (.inner i) <;> rfl
  | slice wire lsb width =>
      cases wire with
      | design s => rfl
      | inner i =>
          show ((v (.inner i)).datum.slice lsb width).level v = (v (.inner i)).slice lsb width
          cases v (.inner i) <;> rfl

/-- A selector on a wire of the decoder does not refer to the design. -/
theorem Expr.eval_of_inner {e : Expr} {i : LocalId} (h : e.wire? = some (.inner i)) (v : Valuation) :
    e.eval v.registers = (e.level v).datum := by
  cases e with
  | literal bits => cases h
  | unknown width => cases h
  | read wire =>
      cases h
      rfl
  | slice wire lsb width =>
      cases h
      exact (WireLevel.datum_slice lsb width _).symm

theorem mem_storesOfCases {regs : Registers} {selector : Datum} {otherwise : List (Wire × Datum)}
    {cases : List (Bits × List Stmt)} {e : Wire × Datum}
    (h : e ∈ storesOfCases regs selector otherwise cases) :
    e ∈ otherwise ∨ ∃ c ∈ cases, e ∈ storesOf regs c.2 := by
  induction cases with
  | nil => exact .inl h
  | cons c cases ih =>
      rw [storesOfCases] at h
      split at h
      · exact .inr ⟨c, List.mem_cons_self, h⟩
      · rcases ih h with h | ⟨c', hc', h⟩
        · exact .inl h
        · exact .inr ⟨c', List.mem_cons_of_mem c hc', h⟩

theorem Stmt.Direct.design_of_mem_stores {s : Stmt} (h : s.Direct) {regs : Registers} :
    ∀ e ∈ s.stores regs, ∃ t, e.1 = .design t := by
  have hbody : ∀ body : List Stmt, (∀ s ∈ body, ∀ e ∈ s.stores regs, ∃ t, e.1 = .design t) →
      ∀ e ∈ storesOf regs body, ∃ t, e.1 = .design t := by
    intro body ih e he
    rw [storesOf_eq_flatMap, List.mem_flatMap] at he
    obtain ⟨s, hs, he⟩ := he
    exact ih s hs e he
  induction h with
  | store t src =>
      intro e he
      rw [List.mem_singleton.mp he]
      exact ⟨t, rfl⟩
  | @switch selector i cases fallback _ _ _ ihcases ihfallback =>
      intro e he
      rcases mem_storesOfCases he with he | ⟨c, hc, he⟩
      · cases fallback with
        | none => cases he
        | some body => exact hbody body (ihfallback body rfl) e he
      · exact hbody c.2 (ihcases c hc) e he

/-- Statements that replay their stores do so one after the other: none of them changes what the
selectors of the next ones read. -/
theorem execAll_of_forall {body : List Stmt} (hdirect : ∀ s ∈ body, s.Direct)
    (h : ∀ s ∈ body, ∀ v : Valuation, s.exec v = v.replay (s.stores v.registers)) (v : Valuation) :
    execAll v body = v.replay (storesOf v.registers body) := by
  induction body generalizing v with
  | nil => rfl
  | cons s body ih =>
      obtain ⟨hs, hbody⟩ := List.forall_mem_cons.mp hdirect
      have hregs : (s.exec v).registers = v.registers := by
        rw [h s List.mem_cons_self, Valuation.registers_replay hs.design_of_mem_stores]
      rw [execAll, ih hbody fun s' hs' => h s' (List.mem_cons_of_mem s hs'), hregs, storesOf,
        Valuation.replay_append, h s List.mem_cons_self]

theorem execCases_eq_replay {v otherwise : Valuation} {cases : List (Bits × List Stmt)}
    {selector : WireLevel} {stores : List (Wire × Datum)}
    (hcases : ∀ c ∈ cases, execAll v c.2 = v.replay (storesOf v.registers c.2))
    (hotherwise : otherwise = v.replay stores) :
    execCases v selector otherwise cases =
      v.replay (storesOfCases v.registers selector.datum stores cases) := by
  induction cases with
  | nil => exact hotherwise
  | cons c cases ih =>
      obtain ⟨label, body⟩ := c
      obtain ⟨hc, hcases⟩ := List.forall_mem_cons.mp hcases
      rw [execCases, storesOfCases]
      by_cases hlabel : selector = .bits label
      · rw [if_pos hlabel, if_pos (WireLevel.datum_eq_value_iff.mpr hlabel), hc]
      · rw [if_neg hlabel, if_neg fun heq => hlabel (WireLevel.datum_eq_value_iff.mp heq), ih hcases]

theorem Stmt.Direct.exec_eq_replay {s : Stmt} (h : s.Direct) :
    ∀ v : Valuation, s.exec v = v.replay (s.stores v.registers) := by
  induction h with
  | store t src =>
      intro v
      show Function.update v (.design t) (src.level v) = _
      rw [← Expr.level_eval v src]
      rfl
  | @switch selector i cases fallback hselector hcases hfallback ihcases ihfallback =>
      intro v
      rw [Stmt.exec, Stmt.stores, Expr.eval_of_inner hselector]
      apply execCases_eq_replay
      · intro c hc
        exact execAll_of_forall (hcases c hc) (ihcases c hc) v
      · cases fallback with
        | none => rfl
        | some body => exact execAll_of_forall (hfallback body rfl) (ihfallback body rfl) v

/-- Executing a body that only stores into the design replays its stores. -/
theorem execAll_eq_replay {body : List Stmt} (h : ∀ s ∈ body, s.Direct) (v : Valuation) :
    execAll v body = v.replay (storesOf v.registers body) :=
  execAll_of_forall h (fun s hs => (h s hs).exec_eq_replay) v

end ControlStore
