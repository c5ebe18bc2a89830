import ControlStore.Proofs.Tokens

/-! # Reading flow files

`FlowFile.parse` gives a flow file exactly for the texts that spell it (`parse_eq_ok_iff`).

From assignments on, every phrase ends with a sign of its own, so its parser gives exactly what is
spelled.  A right-hand side may end with a name or a number and needs to know what follows.  Where
the grammar leaves a choice, the next token decides it: the alternatives that are tried before the
right one fail there, an optional part is missing only where its first word is, and a repetition
stops at a closing brace or at the end of the text. -/

namespace ControlStore.Source

variable {c c₁ c₂ c₃ c₄ c' : Cursor} {t : Attempts}

/-! ### Signs -/

/-- A sign ends the blanks before it and the name or number before those. -/
theorem Stretch.sign {x : Char} {cs : List Char} (h : Stretch (x :: cs) c c')
    (hx : (startsToken x && !isIdentChar x) = true) : c.Settled ∧ ¬ c.Faces isIdentChar := by
  simp only [Bool.and_eq_true, Bool.not_eq_true'] at hx
  refine ⟨h.settled hx.1, ?_⟩
  rw [h.faces_iff, hx.2]
  decide

/-! ### Right-hand sides -/

namespace RightSide.Spelled

variable {source : RightSide}

theorem sign (h : source.Spelled c c') : c.Settled ∧ ¬ c.Faces isIdentChar := by
  cases h with
  | forward text =>
    obtain ⟨head, _, _⟩ := text
    exact Stretch.sign (x := '<') head (by decide)
  | raw sign => exact Stretch.sign (x := '=') sign (by decide)
  | absent sign => exact Stretch.sign (x := '=') sign (by decide)
  | constant text =>
    obtain ⟨head, _, _⟩ := text
    exact Stretch.sign (x := '=') head (by decide)

theorem shorter (h : source.Spelled c c') : c'.rest.length < c.rest.length := by
  cases h with
  | forward text =>
    obtain ⟨head, gap, text⟩ := text
    exact (text.shorter.trans_le gap.length_le).trans (Stretch.shorter (x := '<') head)
  | raw sign gap keyword apart nonempty text =>
    have hsign := Stretch.shorter (x := '=') sign
    have hkeyword := Stretch.shorter (x := 'r') keyword
    have hgap := gap.length_le
    have hgap' := apart.length_le
    have htext := text.shorter
    omega
  | absent sign gap keyword =>
    have hsign := Stretch.shorter (x := '=') sign
    exact ((Stretch.shorter (x := '_') keyword).trans_le gap.length_le).trans hsign
  | constant text =>
    obtain ⟨sign, gap, text⟩ := text
    exact (text.shorter.trans_le gap.length_le).trans (Stretch.shorter (x := '=') sign)

end RightSide.Spelled

/-! ### How long phrases are -/

theorem Assign.Spelled.shorter {a : Assign} (h : a.Spelled c c') :
    c'.rest.length < c.rest.length := by
  obtain ⟨left, gap, right, gap', stop⟩ := h
  have hleft := left.shorter
  have hgap := gap.length_le
  have hright := right.shorter
  have hgap' := gap'.length_le
  have hstop := Stretch.shorter (x := ';') stop
  omega

theorem Items.length_le {α : Type} {Item : α → Cursor → Cursor → Prop} {as : List α}
    (hitem : ∀ {a c c'}, Item a c c' → c'.rest.length < c.rest.length) (h : Items Item as c c') :
    c'.rest.length ≤ c.rest.length := by
  induction h with
  | nil gap => exact gap.length_le
  | cons gap item more ih =>
    have hgap := gap.length_le
    have hshorter := hitem item
    omega

theorem Block.Spelled.shorter {b : Block} (h : b.Spelled c c') :
    c'.rest.length < c.rest.length := by
  obtain ⟨left, items, right⟩ := h
  have hleft := Stretch.shorter (x := '{') left
  have hitems := items.length_le Assign.Spelled.shorter
  have hright := Stretch.shorter (x := '}') right
  omega

theorem Declaration.Spelled.shorter {d : Declaration} (h : d.Spelled c c') :
    c'.rest.length < c.rest.length := by
  obtain ⟨left, gap, colon, gap', right, initial, gap'', stop⟩ := h
  have hleft := left.shorter
  have hgap := gap.length_le
  have hcolon := Stretch.shorter (x := ':') colon
  have hgap' := gap'.length_le
  have hright := right.shorter
  have hgap'' := gap''.length_le
  have hstop := Stretch.shorter (x := ';') stop
  cases initial with
  | none => omega
  | some before item =>
    obtain ⟨head, within, text⟩ := item
    have hbefore := before.length_le
    have hhead := Stretch.shorter (x := '=') head
    have hwithin := within.length_le
    have htext := text.shorter
    omega

/-! ### How phrases start -/

theorem After.settled {α : Type} {Item : α → Cursor → Cursor → Prop} {a : α} {s : String} {x : Char}
    {cs : List Char} (h : After s Item a c c') (hs : s.toList = x :: cs)
    (hx : startsToken x = true) : c.Settled := by
  obtain ⟨head, _, _⟩ := h
  rw [hs] at head
  exact head.settled hx

theorem Braced.settled {α : Type} {Item : α → Cursor → Cursor → Prop} {as : List α}
    (h : Braced Item as c c') : c.Settled := by
  obtain ⟨left, _, _⟩ := h
  exact Stretch.settled (x := '{') left (by decide)

theorem Block.Spelled.settled {b : Block} (h : b.Spelled c c') : c.Settled := by
  obtain ⟨text⟩ := h
  exact text.settled

namespace Parser

/-- After the same word and blanks stands the same token. -/
theorem head_eq {cs xs ys : List Char} {x y : Char} (head : Stretch cs c c₁) (gap : Blanks c₁ c₂)
    (hc₂ : c₂.Settled) (next : Stretch (x :: xs) c₂ c₃) {d₁ d₂ d₃ : Cursor}
    (head' : Stretch cs c d₁) (gap' : Blanks d₁ d₂) (hd₂ : d₂.Settled)
    (next' : Stretch (y :: ys) d₂ d₃) : x = y := by
  obtain rfl := head.unique head'
  obtain rfl := (skipBlanks_of_blanks gap hc₂).symm.trans (skipBlanks_of_blanks gap' hd₂)
  exact next.eq_of_head next'

theorem keyword_iff {s : String} {u : Unit} :
    ((do word s; notFollowedBy isIdentChar : Parser Unit) c t).1 = some (u, c') ↔
      Stretch s.toList c c' ∧ ¬ c'.Faces isIdentChar := by
  simp only [bind_iff, word_iff, notFollowedBy_iff]
  constructor
  · rintro ⟨_, _, htext, hstop, rfl⟩
    exact ⟨htext, hstop⟩
  · rintro ⟨htext, hstop⟩
    exact ⟨(), c', htext, hstop, rfl⟩

theorem rawKeyword_iff {u : Unit} :
    (rawKeyword c t).1 = some (u, c') ↔ Stretch "raw".toList c c' ∧ ¬ c'.Faces isIdentChar := by
  rw [rawKeyword, rule_fst, keyword_iff]

theorem absentKeyword_iff {u : Unit} :
    (absentKeyword c t).1 = some (u, c') ↔ Stretch "_".toList c c' ∧ ¬ c'.Faces isIdentChar := by
  rw [absentKeyword, rule_fst, keyword_iff]

theorem source_sound {source : RightSide}
    (h : ((forward <|> raw <|> absent <|> constant) c t).1 = some (source, c')) :
    source.Spelled c c' := by
  simp only [orElse_iff] at h
  rcases h with h | ⟨_, h | ⟨_, h | ⟨_, h⟩⟩⟩
  · simp only [forward, rule_fst, bind_iff, word_iff, blanks_iff, ident_iff, pure_iff] at h
    obtain ⟨_, c₁, head, _, c₂, ⟨gap, _⟩, i, _, ⟨hident, _⟩, rfl, rfl⟩ := h
    exact .forward (.intro head gap hident)
  · simp only [raw, rule_fst, bind_iff, word_iff, blanks_iff, rawKeyword_iff, pure_iff] at h
    obtain ⟨_, c₁, sign, _, c₂, ⟨gap, _⟩, _, c₃, ⟨keyword, hstop⟩, _, c₄, ⟨apart, _⟩, n, _, hnumber,
      rfl, rfl⟩ := h
    have hspelled := number_sound hnumber
    refine .raw sign gap keyword apart ?_ hspelled
    rintro rfl
    obtain ⟨x, xs, htext, hx⟩ := hspelled.starts
    rw [htext.faces_iff] at hstop
    obtain ⟨v, hv⟩ := isDigit_iff.mp hx
    exact hstop ((hv.classes (by decide)).2.1)
  · simp only [absent, rule_fst, bind_iff, word_iff, blanks_iff, absentKeyword_iff, pure_iff] at h
    obtain ⟨_, c₁, sign, _, c₂, ⟨gap, _⟩, _, _, ⟨keyword, _⟩, rfl, rfl⟩ := h
    exact .absent sign gap keyword
  · simp only [constant, rule_fst, bind_iff, word_iff, blanks_iff, pure_iff] at h
    obtain ⟨_, c₁, sign, _, c₂, ⟨gap, _⟩, n, _, hnumber, rfl, rfl⟩ := h
    exact .constant (.intro sign gap (number_sound hnumber))

theorem forward_eq_none (sign : Stretch "=".toList c c₁) (t : Attempts) :
    (forward c t).1 = none := by
  refine eq_none_of fun source c' h => ?_
  simp only [forward, rule_fst, bind_iff, word_iff] at h
  obtain ⟨_, d, head, _⟩ := h
  have hhead := Stretch.eq_of_head (x := '<') (y := '=') head sign
  simp at hhead

theorem raw_eq_none {x : Char} {xs : List Char} (sign : Stretch "=".toList c c₁)
    (gap : Blanks c₁ c₂) (hc₂ : c₂.Settled) (next : Stretch (x :: xs) c₂ c₃) (hx : x ≠ 'r')
    (t : Attempts) : (raw c t).1 = none := by
  refine eq_none_of fun source c' h => ?_
  simp only [raw, rule_fst, bind_iff, word_iff, blanks_iff, rawKeyword_iff] at h
  obtain ⟨_, d₁, sign', _, d₂, ⟨gap', hd₂⟩, _, d₃, ⟨keyword, _⟩, _⟩ := h
  exact hx (head_eq (y := 'r') sign gap hc₂ next sign' gap' hd₂ keyword)

theorem absent_eq_none {x : Char} {xs : List Char} (sign : Stretch "=".toList c c₁)
    (gap : Blanks c₁ c₂) (hc₂ : c₂.Settled) (next : Stretch (x :: xs) c₂ c₃) (hx : x ≠ '_')
    (t : Attempts) : (absent c t).1 = none := by
  refine eq_none_of fun source c' h => ?_
  simp only [absent, rule_fst, bind_iff, word_iff, blanks_iff, absentKeyword_iff] at h
  obtain ⟨_, d₁, sign', _, d₂, ⟨gap', hd₂⟩, _, d₃, ⟨keyword, _⟩, _⟩ := h
  exact hx (head_eq (y := '_') sign gap hc₂ next sign' gap' hd₂ keyword)

theorem source_complete {source : RightSide} (h : source.Spelled c c')
    (hstop : ¬ c'.Faces isIdentChar) (t : Attempts) :
    ((forward <|> raw <|> absent <|> constant) c t).1 = some (source, c') := by
  simp only [orElse_iff]
  cases h with
  | forward text =>
    obtain ⟨head, gap, hident⟩ := text
    refine .inl ?_
    simp only [forward, rule_fst, bind_iff, word_iff, blanks_iff, ident_iff, pure_iff]
    exact ⟨(), _, head, (), _, ⟨gap, hident.settled⟩, _, c', ⟨hident, hstop⟩, rfl, rfl⟩
  | raw sign gap keyword apart nonempty text =>
    refine .inr ⟨forward_eq_none sign t, .inl ?_⟩
    simp only [raw, rule_fst, bind_iff, word_iff, blanks_iff, rawKeyword_iff, pure_iff]
    have hc₂ := Stretch.settled (x := 'r') keyword (by decide)
    have hend := apart.eq_or_not_faces.resolve_left nonempty
    exact ⟨(), _, sign, (), _, ⟨gap, hc₂⟩, (), _, ⟨keyword, hend⟩, (), _, ⟨apart, text.settled⟩, _, c',
      number_complete text hstop _, rfl, rfl⟩
  | absent sign gap keyword =>
    have hc₂ := Stretch.settled (x := '_') keyword (by decide)
    refine .inr ⟨forward_eq_none sign t, .inr
      ⟨raw_eq_none (x := '_') sign gap hc₂ keyword (by decide) _, .inl ?_⟩⟩
    simp only [absent, rule_fst, bind_iff, word_iff, blanks_iff, absentKeyword_iff, pure_iff]
    exact ⟨(), _, sign, (), _, ⟨gap, hc₂⟩, (), c', ⟨keyword, hstop⟩, trivial, rfl⟩
  | constant text =>
    obtain ⟨sign, gap, text⟩ := text
    obtain ⟨x, xs, next, hx⟩ := text.starts
    have hr : x ≠ 'r' := by rintro rfl; simp at hx
    have hunderscore : x ≠ '_' := by rintro rfl; simp at hx
    refine .inr ⟨forward_eq_none sign t, .inr ⟨raw_eq_none sign gap text.settled next hr _,
      .inr ⟨absent_eq_none sign gap text.settled next hunderscore _, ?_⟩⟩⟩
    simp only [constant, rule_fst, bind_iff, word_iff, blanks_iff, pure_iff]
    exact ⟨(), _, sign, (), _, ⟨gap, text.settled⟩, _, c', number_complete text hstop _, rfl, rfl⟩

/-! ### Assignments -/

theorem assignment_iff {a : Assign} : (assignment c t).1 = some (a, c') ↔ a.Spelled c c' := by
  simp only [assignment, rule_fst, bind_iff, position_iff, ident_iff, blanks_iff, word_iff,
    pure_iff]
  constructor
  · rintro ⟨_, _, ⟨rfl, rfl⟩, target, c₁, ⟨left, _⟩, _, c₂, ⟨gap, _⟩, source, c₃, right, _, c₄,
      ⟨gap', _⟩, _, _, stop, _, _, ⟨rfl, rfl⟩, rfl, rfl⟩
    exact .intro left gap (source_sound right) gap' stop
  · rintro ⟨left, gap, right, gap', stop⟩
    have hright := right.sign
    have hstop := Stretch.sign (x := ';') stop (by decide)
    exact ⟨_, _, ⟨rfl, rfl⟩, _, _, ⟨left, gap.not_faces hright.2⟩, (), _, ⟨gap, hright.1⟩, _, _,
      source_complete right (gap'.not_faces hstop.2) _, (), _, ⟨gap', hstop.1⟩, (), c', stop, _, _,
      ⟨rfl, rfl⟩, rfl, rfl⟩

theorem reads_assignment : assignment.Reads Assign.Spelled where
  iff := assignment_iff
  settled := by
    rintro c a c' ⟨left, _⟩
    exact left.settled
  shorter := Assign.Spelled.shorter

/-! ### Phrases -/

section
variable {α β : Type} {p : Parser α} {Item : α → Cursor → Cursor → Prop} {s : String} {a : α}

theorem after_sound (hp : ∀ {c t a c'}, (p c t).1 = some (a, c') → Item a c c')
    (h : ((do word s; blanks; p : Parser α) c t).1 = some (a, c')) : After s Item a c c' := by
  simp only [bind_iff, word_iff, blanks_iff] at h
  obtain ⟨_, c₁, head, _, c₂, ⟨gap, _⟩, item⟩ := h
  exact .intro head gap (hp item)

theorem after_complete (hsettled : ∀ {c}, Item a c c' → c.Settled)
    (hp : ∀ {c}, Item a c c' → ∀ t, (p c t).1 = some (a, c')) (h : After s Item a c c') :
    ((do word s; blanks; p : Parser α) c t).1 = some (a, c') := by
  obtain ⟨head, gap, item⟩ := h
  simp only [bind_iff, word_iff, blanks_iff]
  exact ⟨(), _, head, (), _, ⟨gap, hsettled item⟩, hp item _⟩

/-- Items that start with a name end at a closing brace. -/
theorem ends_of_brace (hname : ∀ {a c c'}, Item a c c' → ∃ i c₁, Ident.Spelled i c c₁)
    (h : Stretch closeBrace.toList c c₁) : Ends Item c := by
  refine ⟨(Stretch.sign (x := '}') h (by decide)).1, fun a c' item => ?_⟩
  obtain ⟨i, c₂, hident⟩ := hname item
  obtain ⟨x, xs, htext, hx⟩ := hident.starts
  obtain rfl := htext.eq_of_head (y := '}') h
  simp [isIdentStart] at hx

theorem Reads.braces_sound (h : p.Reads Item) {k : List α → Parser β} {r : β × Cursor}
    (hread : ((do
        word openBrace
        blanks
        let as ← many p
        blanks
        word closeBrace
        k as : Parser β) c t).1 = some r) :
    ∃ as c₁ t', Braced Item as c c₁ ∧ (k as c₁ t').1 = some r := by
  simp only [bind_iff, blanks_iff, word_iff] at hread
  obtain ⟨_, c₁, left, _, c₂, ⟨gap, hc₂⟩, as, c₃, hmany, _, c₄, ⟨gap', hc₄⟩, _, c₅, right, hk⟩ := hread
  exact ⟨as, c₅, _, .intro left (h.many_sound gap hc₂ hmany gap' hc₄) right, hk⟩

theorem Reads.braces_complete (h : p.Reads Item)
    (hname : ∀ {a c c'}, Item a c c' → ∃ i c₁, Ident.Spelled i c c₁) {as : List α}
    (hbraced : Braced Item as c c₁) {k : List α → Parser β} {r : β × Cursor}
    (hk : ∀ t, (k as c₁ t).1 = some r) :
    ((do
        word openBrace
        blanks
        let as ← many p
        blanks
        word closeBrace
        k as : Parser β) c t).1 = some r := by
  obtain ⟨left, items, right⟩ := hbraced
  have hends : Ends Item _ := ends_of_brace hname right
  simp only [bind_iff, blanks_iff, word_iff]
  refine ⟨(), _, left, (), _, ⟨blanks_skipBlanks _, skipBlanks_settled _ _ _⟩, ?_⟩
  obtain ⟨c₃, hmany, gap'⟩ := h.many_complete items hends _
  exact ⟨as, c₃, hmany, (), _, ⟨gap', hends.1⟩, (), c₁, right, hk _⟩

end

/-! ### Blocks -/

theorem block_iff {b : Block} : (block c t).1 = some (b, c') ↔ b.Spelled c c' := by
  rw [block, rule_fst, bind_iff]
  simp only [position_iff]
  constructor
  · rintro ⟨_, _, ⟨rfl, rfl⟩, h⟩
    obtain ⟨assignments, c₁, t', text, h⟩ := reads_assignment.braces_sound h
    simp only [bind_iff, position_iff, pure_iff] at h
    obtain ⟨_, _, ⟨rfl, rfl⟩, rfl, rfl⟩ := h
    exact .intro text
  · rintro ⟨text⟩
    refine ⟨_, _, ⟨rfl, rfl⟩, reads_assignment.braces_complete ?_ text fun t => ?_⟩
    · rintro a c c' ⟨left, _⟩
      exact ⟨_, _, left⟩
    · simp only [bind_iff, position_iff, pure_iff]
      exact ⟨_, _, ⟨rfl, rfl⟩, rfl, rfl⟩

theorem neutral_iff {b : Block} :
    (neutral c t).1 = some (b, c') ↔ After "neutral" Block.Spelled b c c' := by
  rw [neutral, rule_fst]
  exact ⟨after_sound block_iff.mp, after_complete Block.Spelled.settled fun h _ => block_iff.mpr h⟩

theorem step_iff {b : Block} :
    (step c t).1 = some (b, c') ↔ After "step" Block.Spelled b c c' := by
  rw [step, rule_fst]
  exact ⟨after_sound block_iff.mp, after_complete Block.Spelled.settled fun h _ => block_iff.mpr h⟩

theorem reads_step : step.Reads (After "step" Block.Spelled) where
  iff := step_iff
  settled := fun h => h.settled rfl (by decide)
  shorter := by
    rintro c b c' ⟨head, gap, item⟩
    have hhead := Stretch.shorter (x := 's') head
    have hgap := gap.length_le
    have hitem := item.shorter
    omega

theorem ends_steps (h : c.rest = []) : Ends (After "step" Block.Spelled) c := by
  refine ⟨c.settled_of_end h, ?_⟩
  rintro b c' ⟨head, _⟩
  have hrest := head.rest
  simp [h] at hrest

/-! ### Declarations -/

theorem init_sound {n : Number} (h : (init c t).1 = some (n, c')) :
    After "=" Number.Spelled n c c' := by
  rw [init, rule_fst] at h
  exact after_sound number_sound h

theorem init_complete {n : Number} (h : After "=" Number.Spelled n c c')
    (hstop : ¬ c'.Faces isIdentChar) (t : Attempts) : (init c t).1 = some (n, c') := by
  rw [init, rule_fst]
  exact after_complete Number.Spelled.settled (fun text => number_complete text hstop) h

theorem init_eq_none (h : Stretch ";".toList c c₁) (t : Attempts) : (init c t).1 = none := by
  refine eq_none_of fun n c' hinit => ?_
  obtain ⟨head, _, _⟩ := init_sound hinit
  have hhead := Stretch.eq_of_head (x := '=') (y := ';') head h
  simp at hhead

theorem declaration_sound {d : Declaration} (h : (declaration c t).1 = some (d, c')) :
    d.Spelled c c' := by
  simp only [declaration, rule_fst, bind_iff, ident_iff, blanks_iff, word_iff, optional_iff,
    pure_iff] at h
  obtain ⟨name, c₁, ⟨left, _⟩, _, c₂, ⟨gap, _⟩, _, c₃, colon, _, c₄, ⟨gap', _⟩, width, c₅, hwidth, _, c₆,
    ⟨before, _⟩, init, c₇, hinit, _, c₈, ⟨after, _⟩, _, _, stop, rfl, rfl⟩ := h
  have right := number_sound hwidth
  rcases hinit with ⟨n, rfl, hinit⟩ | ⟨rfl, rfl, _⟩
  · exact .intro left gap colon gap' right (.some before (init_sound hinit)) after stop
  · exact .intro left gap colon gap' right (.none c₅) (before.trans after) stop

theorem declaration_complete {d : Declaration} (h : d.Spelled c c') (t : Attempts) :
    (declaration c t).1 = some (d, c') := by
  obtain ⟨left, gap, colon, gap', right, initial, gap'', stop⟩ := h
  have hcolon := Stretch.sign (x := ':') colon (by decide)
  have hstop := Stretch.sign (x := ';') stop (by decide)
  simp only [declaration, rule_fst, bind_iff, ident_iff, blanks_iff, word_iff, optional_iff,
    pure_iff]
  refine ⟨_, _, ⟨left, gap.not_faces hcolon.2⟩, (), _, ⟨gap, hcolon.1⟩, (), _, colon, (), _,
    ⟨gap', right.settled⟩, _, _, number_complete right ?_ _, ?_⟩
  · cases initial with
    | none => exact gap''.not_faces hstop.2
    | some before item =>
      obtain ⟨head, _, _⟩ := item
      exact before.not_faces (Stretch.sign (x := '=') head (by decide)).2
  · cases initial with
    | none =>
      exact ⟨(), _, ⟨gap'', hstop.1⟩, none, _, .inr ⟨rfl, rfl, init_eq_none stop _⟩, (), _,
        ⟨.none _, hstop.1⟩, (), c', stop, rfl, rfl⟩
    | some before item =>
      have hinit := init_complete item (gap''.not_faces hstop.2)
      obtain ⟨head, _, _⟩ := item
      exact ⟨(), _, ⟨before, (Stretch.sign (x := '=') head (by decide)).1⟩, some _, _,
        .inl ⟨_, rfl, hinit _⟩, (), _, ⟨gap'', hstop.1⟩, (), c', stop, rfl, rfl⟩

theorem reads_declaration : declaration.Reads Declaration.Spelled where
  iff := ⟨declaration_sound, fun h => declaration_complete h _⟩
  settled := by
    rintro c d c' ⟨left, _⟩
    exact left.settled
  shorter := Declaration.Spelled.shorter

theorem signals_iff {ds : List Declaration} :
    (signals c t).1 = some (ds, c') ↔ After "signals" (Braced Declaration.Spelled) ds c c' := by
  rw [signals, rule_fst]
  constructor
  · refine after_sound fun h => ?_
    obtain ⟨ds, c₁, t', text, h⟩ := reads_declaration.braces_sound h
    obtain ⟨rfl, rfl⟩ := pure_iff.mp h
    exact text
  · refine after_complete Braced.settled fun text t =>
      reads_declaration.braces_complete ?_ text fun t => ?_
    · rintro d c c' ⟨left, _⟩
      exact ⟨_, _, left⟩
    · exact pure_iff.mpr ⟨rfl, rfl⟩

/-! ### Files -/

/-- Where steps are to follow, or the end of the text, no neutral block stands. -/
theorem neutral_eq_none {steps : List Block}
    (h : Items (After "step" Block.Spelled) steps c c') (hstop : c'.rest = []) (gap : Blanks c c₁)
    (hc₁ : c₁.Settled) (t : Attempts) : (neutral c₁ t).1 = none := by
  refine eq_none_of fun b d hneutral => ?_
  obtain ⟨head, _, _⟩ := neutral_iff.mp hneutral
  cases reads_step.skip_items h (c'.settled_of_end hstop) gap hc₁ with
  | nil last =>
    have hsame := (skipBlanks_of_settled hc₁).symm.trans
      (skipBlanks_of_blanks last (c'.settled_of_end hstop))
    have hrest := head.rest
    rw [hsame, hstop] at hrest
    simp at hrest
  | cons gap' item more =>
    have hsame := (skipBlanks_of_settled hc₁).symm.trans
      (skipBlanks_of_blanks gap' (reads_step.settled item))
    obtain ⟨head', _, _⟩ := item
    subst hsame
    have hhead := Stretch.eq_of_head (x := 'n') (y := 's') head head'
    simp at hhead

theorem file_sound {file : FlowFile} (h : (Parser.file c t).1 = some (file, c')) :
    file.Spelled c := by
  simp only [Parser.file, rule_fst, bind_iff, blanks_iff, signals_iff, optional_iff, neutral_iff,
    endOfText_iff, pure_iff] at h
  obtain ⟨_, c₁, ⟨gap, _⟩, ds, c₂, declarations, _, c₃, ⟨before, _⟩, neutral, c₄, hneutral, _, c₅,
    ⟨gap', hc₅⟩, steps, c₆, hmany, _, c₇, ⟨last, hc₇⟩, _, _, ⟨stop, rfl⟩, rfl, rfl⟩ := h
  have hitems := reads_step.many_sound gap' hc₅ hmany last hc₇
  rcases hneutral with ⟨b, rfl, item⟩ | ⟨rfl, rfl, _⟩
  · exact .intro gap declarations (.some before item) hitems stop
  · exact .intro gap declarations (.none c₂) (hitems.prepend before) stop

theorem file_complete {file : FlowFile} (h : file.Spelled c) (t : Attempts) :
    ∃ c', (Parser.file c t).1 = some (file, c') := by
  obtain ⟨gap, declarations, idle, blocks, stop⟩ := h
  rename_i c₁ c₂ c₃ c'
  have hends := ends_steps stop
  have hc₁ : c₁.Settled := declarations.settled rfl (by decide)
  refine ⟨c', ?_⟩
  simp only [Parser.file, rule_fst, bind_iff, blanks_iff, signals_iff, optional_iff, neutral_iff,
    endOfText_iff, pure_iff]
  refine ⟨(), _, ⟨gap, hc₁⟩, _, _, declarations, ?_⟩
  cases idle with
  | none =>
    have before := blanks_skipBlanks c₂
    have hsettled := skipBlanks_settled false c₂.position c₂.rest
    refine ⟨(), _, ⟨before, hsettled⟩, none, _, .inr ⟨rfl, rfl, ?_⟩, (), _, ⟨.none _, hsettled⟩, ?_⟩
    · exact neutral_eq_none blocks stop before hsettled _
    · obtain ⟨c₆, hmany, last⟩ := reads_step.many_complete blocks hends _
      exact ⟨_, c₆, hmany, (), _, ⟨last, hends.1⟩, (), c', ⟨stop, rfl⟩, rfl, rfl⟩
  | some before item =>
    refine ⟨(), _, ⟨before, item.settled rfl (by decide)⟩, some _, _, .inl ⟨_, rfl, item⟩, (), _,
      ⟨blanks_skipBlanks c₃, skipBlanks_settled _ _ _⟩, ?_⟩
    obtain ⟨c₆, hmany, last⟩ := reads_step.many_complete blocks hends _
    exact ⟨_, c₆, hmany, (), _, ⟨last, hends.1⟩, (), c', ⟨stop, rfl⟩, rfl, rfl⟩

end Parser

/-- A text is read as a flow file if and only if it spells that file, spans included. -/
theorem FlowFile.parse_eq_ok_iff (text : String) (file : FlowFile) :
    FlowFile.parse text = .ok file ↔ file.Spelled ⟨0, text.toList⟩ := by
  unfold FlowFile.parse
  constructor
  · intro h
    split at h
    · rename_i file' c' t hfile
      obtain rfl := Except.ok.inj h
      exact Parser.file_sound (congrArg Prod.fst hfile)
    · simp at h
  · intro h
    obtain ⟨c', hfile⟩ := Parser.file_complete h .none
    split
    · rename_i file' d t hfile'
      rw [hfile'] at hfile
      simp_all
    · rename_i t hfile'
      rw [hfile'] at hfile
      simp at hfile

end ControlStore.Source
