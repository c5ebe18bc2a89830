import ControlStore.Decoder.Render
import ControlStore.Proofs.Checked
import ControlStore.Proofs.Maps

/-! # Statements whose widths agree

`Stmt.Sized M` says that a statement fits the wires of the module `M`: a store has as many bits as
the wire it goes to, a slice is not empty and lies within its wire, the labels of a switch are as wide
as its selector and distinct, and every switch has a fallback.  All wires of a sized statement are
wires of the module (`Stmt.Sized.declares`), and its slices are not empty and lie within their wires
(`Stmt.Within`), so it can be written (`DecoderModule.bodyText_ok`, `DecoderModule.text_ok`).  Widths stay
as they are when further signals are allocated (`Stmt.Sized.mono`). -/

namespace ControlStore

/-- The procedure with the given body. -/
def Procedure.ofBody (name : String) (body : List Stmt) : Procedure :=
  ⟨name, body, WireSet.empty.insertAll (readsOf body)⟩

/-! ### Widths of expressions and statements -/

/-- The expression has `width` bits.  A slice is not empty and is cut from a wire of less than
`2 ^ 32` bits, within which it lies. -/
def Expr.Sized (M : DecoderModule) (width : Nat) : Expr → Prop
  | literal bits => bits.width = width
  | unknown bits => bits = width
  | read wire => M.width wire = .ok width
  | slice wire lsb bits =>
      bits = width ∧ 0 < width ∧ ∃ n, M.width wire = .ok n ∧ lsb + width ≤ n ∧ n < Width.limit

/-- The widths in the statement agree, and its switches are complete and unambiguous. -/
inductive Stmt.Sized (M : DecoderModule) : Stmt → Prop
  | store {dst : Wire} {src : Expr} {width : Nat} (hdst : M.width dst = .ok width)
      (hsrc : src.Sized M width) : Sized M (.store dst src)
  | switch {selector : Expr} {cases : List (Bits × List Stmt)} {fallback : List Stmt} {width : Nat}
      (hselector : selector.Sized M width) (hlabels : ∀ c ∈ cases, c.1.width = width)
      (hnodup : (cases.map Prod.fst).Nodup) (hcases : ∀ c ∈ cases, ∀ stmt ∈ c.2, Sized M stmt)
      (hfallback : ∀ stmt ∈ fallback, Sized M stmt) : Sized M (.switch selector cases (some fallback))

/-- The wire is one of the module. -/
def DecoderModule.Declares (M : DecoderModule) (wire : Wire) : Prop := ∃ n, M.width wire = .ok n

/-- All statements of the process are sized, a clock has one bit, and what the process reads or is
sensitive to are wires of the module. -/
structure DecoderProcess.Sized (M : DecoderModule) (p : DecoderProcess) : Prop where
  clock : ∀ clock, p.kind = .clocked clock → M.width clock = .ok 1
  body : ∀ stmt ∈ p.procedure.body, stmt.Sized M
  wires : ∀ wire ∈ p.procedure.reads.toList ++ p.sensitivity.toList, M.Declares wire

section
variable {M M' : DecoderModule} (h : ∀ wire n, M.width wire = .ok n → M'.width wire = .ok n)
include h

theorem Expr.Sized.mono {e : Expr} {width : Nat} (he : e.Sized M width) : e.Sized M' width := by
  cases e with
  | literal bits => exact he
  | unknown bits => exact he
  | read wire => exact h wire width he
  | slice wire lsb bits =>
      obtain ⟨hbits, hpos, n, hn, hle⟩ := he
      exact ⟨hbits, hpos, n, h wire n hn, hle⟩

theorem Stmt.Sized.mono {stmt : Stmt} (hstmt : stmt.Sized M) : stmt.Sized M' := by
  induction hstmt with
  | store hdst hsrc => exact .store (h _ _ hdst) (hsrc.mono h)
  | switch hselector hlabels hnodup _ _ ihcases ihfallback =>
      exact .switch (hselector.mono h) hlabels hnodup ihcases ihfallback

theorem DecoderProcess.Sized.mono {p : DecoderProcess} (hp : p.Sized M) : p.Sized M' where
  clock clock hclock := h clock 1 (hp.clock clock hclock)
  body stmt hstmt := (hp.body stmt hstmt).mono h
  wires wire hwire := (hp.wires wire hwire).imp (h wire)

end

/-! ### The wires of sized statements -/

section
variable {wire : Wire}

theorem mem_readsOf_iff {body : List Stmt} : wire ∈ readsOf body ↔ ∃ stmt ∈ body, wire ∈ stmt.reads := by
  induction body with
  | nil => simp [readsOf]
  | cons stmt body ih => simp [readsOf, ih]

theorem mem_readsOfCases_iff {cases : List (Bits × List Stmt)} :
    wire ∈ readsOfCases cases ↔ ∃ c ∈ cases, wire ∈ readsOf c.2 := by
  induction cases with
  | nil => simp [readsOfCases]
  | cons c cases ih => simp [readsOfCases, ih]

theorem mem_drivesOf_iff {body : List Stmt} : wire ∈ drivesOf body ↔ ∃ stmt ∈ body, wire ∈ stmt.drives := by
  induction body with
  | nil => simp [drivesOf]
  | cons stmt body ih => simp [drivesOf, ih]

theorem mem_drivesOfCases_iff {cases : List (Bits × List Stmt)} :
    wire ∈ drivesOfCases cases ↔ ∃ c ∈ cases, wire ∈ drivesOf c.2 := by
  induction cases with
  | nil => simp [drivesOfCases]
  | cons c cases ih => simp [drivesOfCases, ih]

theorem WireSet.mem_insert_iff {s : WireSet} {new : Wire} :
    wire ∈ (s.insert new).toList ↔ wire = new ∨ wire ∈ s.toList := by
  have hkeys : ∀ {keys : NatSet} {i j : Nat}, j ∈ (keys.insert i ()).keys ↔ j = i ∨ j ∈ keys.keys := by
    intro keys i j
    rw [NatMap.mem_keys_iff, NatMap.mem_keys_iff, NatMap.get?_insert]
    by_cases hij : j = i <;> simp [hij]
  cases new with
  | design i => cases wire <;> simp [insert, toList, hkeys]
  | inner i => cases wire <;> simp [insert, toList, hkeys]

theorem WireSet.mem_insertAll_iff {s : WireSet} {new : List Wire} :
    wire ∈ (s.insertAll new).toList ↔ wire ∈ new ∨ wire ∈ s.toList := by
  unfold insertAll
  induction new generalizing s with
  | nil => simp
  | cons w new ih =>
      rw [List.foldl_cons, ih, mem_insert_iff, List.mem_cons]
      tauto

theorem Procedure.mem_reads_ofBody {name : String} {body : List Stmt} :
    wire ∈ (Procedure.ofBody name body).reads.toList ↔ wire ∈ readsOf body := by
  unfold Procedure.ofBody
  rw [WireSet.mem_insertAll_iff, or_iff_left]
  exact fun h => nomatch h

end

section
variable {M : DecoderModule} {name : String} {body : List Stmt}

theorem Expr.Sized.declares {e : Expr} {width : Nat} (h : e.Sized M width) :
    ∀ wire ∈ e.wire?.toList, M.Declares wire := by
  intro wire hwire
  cases e with
  | literal bits => simp [Expr.wire?] at hwire
  | unknown bits => simp [Expr.wire?] at hwire
  | read source =>
      obtain rfl : wire = source := by simpa [Expr.wire?] using hwire
      exact ⟨width, h⟩
  | slice source lsb bits =>
      obtain rfl : wire = source := by simpa [Expr.wire?] using hwire
      obtain ⟨-, -, n, hn, -⟩ := h
      exact ⟨n, hn⟩

/-- A sized statement reads and drives wires of the module only. -/
theorem Stmt.Sized.declares {stmt : Stmt} (h : stmt.Sized M) :
    ∀ wire ∈ stmt.reads ++ stmt.drives, M.Declares wire := by
  induction h with
  | store hdst hsrc =>
      simp only [Stmt.reads, Stmt.drives, List.forall_mem_append, List.forall_mem_singleton]
      exact ⟨hsrc.declares, _, hdst⟩
  | switch hselector _ _ _ _ ihcases ihfallback =>
      simp only [Stmt.reads, Stmt.drives, readsOfFallback, drivesOfFallback, List.forall_mem_append] at *
      refine ⟨⟨⟨hselector.declares, ?_⟩, ?_⟩, ?_, ?_⟩
      · intro wire hwire
        obtain ⟨c, hc, hwire⟩ := mem_readsOfCases_iff.mp hwire
        obtain ⟨stmt, hstmt, hwire⟩ := mem_readsOf_iff.mp hwire
        exact (ihcases c hc stmt hstmt).1 wire hwire
      · intro wire hwire
        obtain ⟨stmt, hstmt, hwire⟩ := mem_readsOf_iff.mp hwire
        exact (ihfallback stmt hstmt).1 wire hwire
      · intro wire hwire
        obtain ⟨c, hc, hwire⟩ := mem_drivesOfCases_iff.mp hwire
        obtain ⟨stmt, hstmt, hwire⟩ := mem_drivesOf_iff.mp hwire
        exact (ihcases c hc stmt hstmt).2 wire hwire
      · intro wire hwire
        obtain ⟨stmt, hstmt, hwire⟩ := mem_drivesOf_iff.mp hwire
        exact (ihfallback stmt hstmt).2 wire hwire

theorem declares_of_mem_reads (hbody : ∀ stmt ∈ body, stmt.Sized M) :
    ∀ wire ∈ (Procedure.ofBody name body).reads.toList, M.Declares wire := by
  intro wire hwire
  rcases WireSet.mem_insertAll_iff.mp hwire with hwire | hwire
  · obtain ⟨stmt, hstmt, hwire⟩ := mem_readsOf_iff.mp hwire
    exact (hbody stmt hstmt).declares wire (List.mem_append_left _ hwire)
  · cases hwire

theorem DecoderProcess.Sized.comb (hbody : ∀ stmt ∈ body, stmt.Sized M) {extra : List Wire}
    (hextra : ∀ wire ∈ extra, M.Declares wire) : (DecoderProcess.comb (.ofBody name body) extra).Sized M where
  clock _ hclock := by cases hclock
  body := hbody
  wires wire hwire := by
    rcases List.mem_append.mp hwire with hwire | hwire
    · exact declares_of_mem_reads hbody wire hwire
    · rcases WireSet.mem_insertAll_iff.mp hwire with hwire | hwire
      · exact hextra wire hwire
      · exact declares_of_mem_reads hbody wire hwire

theorem DecoderProcess.Sized.clocked (hbody : ∀ stmt ∈ body, stmt.Sized M) {clock : Wire}
    (hclock : M.width clock = .ok 1) : (DecoderProcess.clocked clock (.ofBody name body)).Sized M where
  clock := by
    rintro _ ⟨⟩
    exact hclock
  body := hbody
  wires wire hwire := by
    rcases List.mem_append.mp hwire with hwire | hwire
    · exact declares_of_mem_reads hbody wire hwire
    · rcases WireSet.mem_insert_iff.mp hwire with rfl | hwire
      · exact ⟨1, hclock⟩
      · cases hwire

end

/-! ### Writing statements -/

/-- The wire of the expression is one of the module.  A slice is not empty and lies within its wire, which
has less than `2 ^ 32` bits. -/
def Expr.Within (M : DecoderModule) : Expr → Prop
  | literal _ => True
  | unknown _ => True
  | read wire => M.Declares wire
  | slice wire lsb bits => 0 < bits ∧ ∃ n, M.width wire = .ok n ∧ lsb + bits ≤ n ∧ n < Width.limit

/-- All wires of the statement are wires of the module, and all slices lie within them. -/
inductive Stmt.Within (M : DecoderModule) : Stmt → Prop
  | store {dst : Wire} {src : Expr} (hdst : M.Declares dst) (hsrc : src.Within M) : Within M (.store dst src)
  | switch {selector : Expr} {cases : List (Bits × List Stmt)} {fallback : Option (List Stmt)}
      (hselector : selector.Within M) (hcases : ∀ c ∈ cases, ∀ stmt ∈ c.2, Within M stmt)
      (hfallback : ∀ body ∈ fallback, ∀ stmt ∈ body, Within M stmt) :
      Within M (.switch selector cases fallback)

section
variable {M : DecoderModule}

theorem Expr.Sized.within {e : Expr} {width : Nat} (h : e.Sized M width) : e.Within M := by
  cases e with
  | literal bits => trivial
  | unknown bits => trivial
  | read wire => exact ⟨width, h⟩
  | slice wire lsb bits =>
      obtain ⟨rfl, hpos, hwire⟩ := h
      exact ⟨hpos, hwire⟩

theorem Stmt.Sized.within {stmt : Stmt} (h : stmt.Sized M) : stmt.Within M := by
  induction h with
  | store hdst hsrc => exact .store ⟨_, hdst⟩ hsrc.within
  | switch hselector _ _ _ _ ihcases ihfallback =>
      refine .switch hselector.within ihcases ?_
      rintro _ ⟨⟩
      exact ihfallback

end

namespace DecoderModule

variable {M : DecoderModule}

theorem name_ok {wire : Wire} {n : Nat} (h : M.width wire = .ok n) : ∃ name, M.name wire = .ok name := by
  cases wire with
  | design s =>
      obtain ⟨signal, hsignal, -⟩ := bind_eq_ok_iff.mp h
      exact ⟨signal.name, bind_eq_ok_iff.mpr ⟨signal, hsignal, rfl⟩⟩
  | inner i =>
      obtain ⟨signal, hsignal, -⟩ := bind_eq_ok_iff.mp h
      exact ⟨signal.name, bind_eq_ok_iff.mpr ⟨signal, hsignal, rfl⟩⟩

theorem exprText_ok {e : Expr} (h : e.Within M) : ∃ text, M.exprText e = .ok text := by
  cases e with
  | literal bits => exact ⟨_, rfl⟩
  | unknown bits => exact ⟨_, rfl⟩
  | read wire => exact h.elim fun _ hwidth => name_ok hwidth
  | slice wire lsb bits =>
      obtain ⟨hpos, n, hn, hle, hlt⟩ := h
      obtain ⟨name, hname⟩ := name_ok hn
      rw [exprText]
      by_cases hone : bits = 1
      · rw [if_pos hone, hname]
        exact ⟨_, rfl⟩
      · have hadd : Width.add lsb bits = .ok (lsb + bits) := Width.add_eq_ok_iff.mpr ⟨rfl, by omega⟩
        have hsub : Width.sub (lsb + bits) 1 = .ok (lsb + bits - 1) := Width.sub_eq_ok_iff.mpr (by omega)
        simp [hone, hadd, hn, hle, hname, hsub]

theorem bodyLines_ok {op : String} {level : Nat} {body : List Stmt}
    (h : ∀ stmt ∈ body, ∃ lines, M.stmtLines op level stmt = .ok lines) :
    ∃ lines, M.bodyLines op level body = .ok lines := by
  induction body with
  | nil => exact ⟨[], by rw [bodyLines]⟩
  | cons stmt body ih =>
      obtain ⟨hstmt, hbody⟩ := List.forall_mem_cons.mp h
      obtain ⟨first, hfirst⟩ := hstmt
      obtain ⟨others, hothers⟩ := ih hbody
      exact ⟨first ++ others, by rw [bodyLines, hfirst, ok_bind, hothers, ok_bind, pure_eq_ok]⟩

theorem caseLines_ok {op : String} {level : Nat} {cases : List (Bits × List Stmt)}
    (h : ∀ c ∈ cases, ∃ lines, M.bodyLines op (level + 2) c.2 = .ok lines) :
    ∃ lines, M.caseLines op level cases = .ok lines := by
  induction cases with
  | nil => exact ⟨[], by rw [caseLines]⟩
  | cons c cases ih =>
      obtain ⟨label, body⟩ := c
      obtain ⟨⟨inner, hinner⟩, hcases⟩ := List.forall_mem_cons.mp h
      obtain ⟨others, hothers⟩ := ih hcases
      exact ⟨_, by rw [caseLines, hinner, ok_bind, hothers, ok_bind, pure_eq_ok]⟩

theorem fallbackLines_ok {op : String} {level : Nat} {fallback : Option (List Stmt)}
    (h : ∀ body ∈ fallback, ∃ lines, M.bodyLines op (level + 2) body = .ok lines) :
    ∃ lines, M.fallbackLines op level fallback = .ok lines := by
  cases fallback with
  | none => exact ⟨[], by rw [fallbackLines]⟩
  | some body =>
      obtain ⟨inner, hinner⟩ := h body rfl
      exact ⟨_, by rw [fallbackLines, hinner, ok_bind, pure_eq_ok]⟩

theorem stmtLines_ok {stmt : Stmt} (h : stmt.Within M) (op : String) (level : Nat) :
    ∃ lines, M.stmtLines op level stmt = .ok lines := by
  induction h generalizing level with
  | store hdst hsrc =>
      obtain ⟨width, hwidth⟩ := hdst
      obtain ⟨name, hname⟩ := name_ok hwidth
      obtain ⟨source, hsource⟩ := exprText_ok hsrc
      exact ⟨_, by rw [stmtLines, hname, ok_bind, hsource, ok_bind, pure_eq_ok]⟩
  | switch hselector _ _ ihcases ihfallback =>
      obtain ⟨head, hhead⟩ := exprText_ok hselector
      obtain ⟨inner, hinner⟩ := caseLines_ok fun c hc =>
        bodyLines_ok fun stmt hstmt => ihcases c hc stmt hstmt (level + 2)
      obtain ⟨last, hlast⟩ := fallbackLines_ok fun body hbody =>
        bodyLines_ok fun stmt hstmt => ihfallback body hbody stmt hstmt (level + 2)
      exact ⟨_, by rw [stmtLines, hhead, ok_bind, hinner, ok_bind, hlast, ok_bind, pure_eq_ok]⟩

theorem bodyText_ok {body : List Stmt} (h : ∀ stmt ∈ body, stmt.Within M) (kind : ProcessKind) :
    ∃ text, M.bodyText kind body = .ok text := by
  obtain ⟨lines, hlines⟩ := bodyLines_ok fun stmt hstmt => stmtLines_ok (h stmt hstmt) kind.sign 1
  exact ⟨closedLines lines, by rw [bodyText, hlines, ok_bind, pure_eq_ok]⟩

theorem headLine_ok {p : DecoderProcess} (h : p.Sized M) : ∃ head, M.headLine p = .ok head := by
  unfold headLine
  cases hkind : p.kind with
  | comb => exact ⟨_, rfl⟩
  | clocked clock =>
      obtain ⟨name, hname⟩ := name_ok (h.clock clock hkind)
      simp only [hname, ok_bind, pure_eq_ok]
      exact ⟨_, rfl⟩

theorem processText_ok {p : DecoderProcess} (h : p.Sized M) : ∃ text, M.processText p = .ok text := by
  obtain ⟨head, hhead⟩ := headLine_ok h
  obtain ⟨body, hbody⟩ := bodyText_ok (fun stmt hstmt => (h.body stmt hstmt).within) p.kind
  exact ⟨_, by rw [processText, hhead, ok_bind, hbody, ok_bind, pure_eq_ok]⟩

/-- A module whose processes are all sized can be written. -/
theorem text_ok (h : ∀ p ∈ M.processes, p.Sized M) : ∃ text, M.text = .ok text := by
  obtain ⟨texts, htexts, -⟩ := mapM_ok (P := fun _ => True) fun p hp =>
    (processText_ok (h p hp)).imp fun text htext => ⟨htext, trivial⟩
  exact ⟨_, by unfold text; rw [htexts, ok_bind, pure_eq_ok]⟩

end DecoderModule

end ControlStore
