import ControlStore.Proofs.Spelling
import Mathlib.Data.List.Basic
import Mathlib.Data.List.TakeWhile

/-! # What parsers read

The result of a parser does not depend on the record of failed attempts it is given, so the readers
are described by what they give from a cursor, whatever the record: one equivalence per combinator,
with `(p c t).1 = some (a, c')` on its left side.  A scanner reads as far as it can, which the
relations of `Spelling` do not ask for; what ties the two together is the character that follows.

`skipBlanks` stops where no blank and no comment starts (`Cursor.Settled`), and every way over
blanks to such a place is the one it took.  A repetition reads items up to a place where no further
one starts (`Ends`): `Reads.many_sound` and `Reads.many_complete`. -/

namespace ControlStore.Source

/-! ### Stretches of text -/

namespace Stretch

variable {cs ds : List Char} {x : Char} {p : Char → Bool} {c c₁ c' : Cursor}

theorem nil_iff : Stretch [] c c' ↔ c' = c := by
  constructor
  · rintro ⟨hrest, hposition⟩
    cases c
    cases c'
    simp_all [Parser.byteCount]
  · rintro rfl
    exact ⟨rfl, rfl⟩

theorem cons_iff {position : Nat} {rest : List Char} :
    Stretch (x :: cs) ⟨position, rest⟩ c' ↔
      ∃ rest', rest = x :: rest' ∧ Stretch cs ⟨position + x.utf8Size, rest'⟩ c' := by
  constructor
  · rintro ⟨hrest, hposition⟩
    refine ⟨cs ++ c'.rest, hrest, rfl, ?_⟩
    simp only [Parser.byteCount, List.map_cons, List.sum_cons] at hposition
    simp only [Parser.byteCount]
    omega
  · rintro ⟨rest', rfl, hrest, hposition⟩
    refine ⟨congrArg (x :: ·) hrest, ?_⟩
    simp only [Parser.byteCount, List.map_cons, List.sum_cons]
    simp only [Parser.byteCount] at hposition
    omega

theorem faces_iff (h : Stretch (x :: cs) c c') : c.Faces p ↔ p x = true := by
  simp [Cursor.Faces, h.rest]

theorem length_eq (h : Stretch cs c c') : c.rest.length = cs.length + c'.rest.length := by
  rw [h.rest, List.length_append]

theorem shorter (h : Stretch (x :: cs) c c') : c'.rest.length < c.rest.length := by
  have hlength := h.length_eq
  simp only [List.length_cons] at hlength
  omega

theorem append (h : Stretch cs c c₁) (h' : Stretch ds c₁ c') : Stretch (cs ++ ds) c c' := by
  refine ⟨by rw [h.rest, h'.rest, List.append_assoc], ?_⟩
  simp [h'.position, h.position, Parser.byteCount, Nat.add_assoc]

theorem split (h : Stretch (cs ++ ds) c c') : ∃ c₁, Stretch cs c c₁ ∧ Stretch ds c₁ c' := by
  refine ⟨⟨c.position + Parser.byteCount cs, ds ++ c'.rest⟩, ⟨?_, rfl⟩, ⟨rfl, ?_⟩⟩
  · rw [h.rest, List.append_assoc]
  · simp [h.position, Parser.byteCount, Nat.add_assoc]

theorem unique (h : Stretch cs c c₁) (h' : Stretch cs c c') : c₁ = c' := by
  have hrest : c₁.rest = c'.rest := List.append_cancel_left (h.rest.symm.trans h'.rest)
  have hposition : c₁.position = c'.position := h.position.trans h'.position.symm
  cases c₁
  cases c'
  simp_all

theorem eq_of_head (h : Stretch (x :: cs) c c₁) {y : Char} (h' : Stretch (y :: ds) c c') :
    x = y := by
  have hrest := h.rest.symm.trans h'.rest
  exact (List.cons.inj hrest).1

end Stretch

/-- Neither a blank nor a comment starts here. -/
def Cursor.Settled (c : Cursor) : Prop :=
  ¬ c.Faces Parser.isBlank ∧ ¬ ['/', '/'] <+: c.rest

/-- The characters that start neither a blank nor a comment. -/
def startsToken (x : Char) : Bool := !Parser.isBlank x && x != '/'

theorem Stretch.settled {x : Char} {cs : List Char} {c c' : Cursor} (h : Stretch (x :: cs) c c')
    (hx : startsToken x = true) : c.Settled := by
  simp only [startsToken, Bool.and_eq_true, Bool.not_eq_true', bne_iff_ne, ne_eq] at hx
  constructor
  · rw [h.faces_iff, hx.1]
    simp
  · rw [h.rest]
    rintro ⟨rest, hrest⟩
    simp only [List.cons_append, List.cons.injEq] at hrest
    exact hx.2 hrest.1.symm

theorem Cursor.settled_of_end {c : Cursor} (h : c.rest = []) : c.Settled := by
  simp [Settled, Faces, h]

/-! ### Blanks -/

namespace Blanks

variable {c c₁ c' : Cursor}

theorem trans (h : Blanks c c₁) (h' : Blanks c₁ c') : Blanks c c' := by
  induction h with
  | none c => exact h'
  | blank hx text more ih => exact .blank hx text (ih h')
  | comment text more ih => exact .comment text (ih h')

theorem length_le (h : Blanks c c') : c'.rest.length ≤ c.rest.length := by
  induction h with
  | none c => exact le_rfl
  | blank hx text more ih =>
    have hlength := text.length_eq
    omega
  | comment text more ih =>
    obtain ⟨⟨body, htext, _⟩, _⟩ := text
    have hlength := htext.length_eq
    omega

end Blanks

theorem Items.prepend {α : Type} {Item : α → Cursor → Cursor → Prop} {as : List α}
    {c c₁ c' : Cursor} (h : Items Item as c₁ c') (hgap : Blanks c c₁) : Items Item as c c' := by
  cases h with
  | nil gap => exact .nil (hgap.trans gap)
  | cons gap item more => exact .cons (hgap.trans gap) item more

namespace Parser

theorem isBlank_of_isLineEnd {x : Char} (h : isLineEnd x = true) : isBlank x = true := by
  simp only [isLineEnd, Bool.or_eq_true, decide_eq_true_eq] at h
  simp only [isBlank, Bool.or_eq_true, decide_eq_true_eq]
  tauto

theorem skipBlanks_inside (position : Nat) (x : Char) (rest : List Char) :
    skipBlanks true position (x :: rest) =
      skipBlanks (!isLineEnd x) (position + x.utf8Size) rest := by
  rw [skipBlanks.eq_def]
  rfl

theorem skipBlanks_blank {x : Char} (hx : isBlank x = true) (position : Nat) (rest : List Char) :
    skipBlanks false position (x :: rest) = skipBlanks false (position + x.utf8Size) rest := by
  rw [skipBlanks.eq_def]
  simp [hx]

/-- Inside a comment everything up to the line end is skipped, and what follows is skipped as if the
comment had not been. -/
theorem skipBlanks_comment {body rest : List Char} (hbody : ∀ x ∈ body, isLineEnd x = false)
    (hrest : rest = [] ∨ rest.head?.any isLineEnd = true) (position : Nat) :
    skipBlanks true position (body ++ rest) = skipBlanks false (position + byteCount body) rest := by
  induction body generalizing position with
  | nil =>
    rcases rest with _ | ⟨x, rest⟩
    · rfl
    · have hx : isLineEnd x = true := by simpa using hrest
      simp [skipBlanks_inside, skipBlanks_blank (isBlank_of_isLineEnd hx), hx, byteCount]
  | cons x body ih =>
    have hx : isLineEnd x = false := hbody x List.mem_cons_self
    rw [List.cons_append, skipBlanks_inside, hx, Bool.not_false, ih fun y hy => hbody y (List.mem_cons_of_mem x hy)]
    simp [byteCount, Nat.add_assoc]

theorem skipBlanks_of_settled {c : Cursor} (h : c.Settled) :
    skipBlanks false c.position c.rest = c := by
  obtain ⟨position, rest⟩ := c
  obtain ⟨hblank, hcomment⟩ := h
  rcases rest with _ | ⟨x, rest⟩
  · rfl
  · have hx : isBlank x = false := by simpa [Cursor.Faces] using hblank
    unfold skipBlanks
    simp only [Bool.false_eq_true, if_false, hx]
    split
    · simp_all
    · rfl

/-- Every way over blanks to a settled place ends where `skipBlanks` does. -/
theorem skipBlanks_of_blanks {c c' : Cursor} (h : Blanks c c') (hc' : c'.Settled) :
    skipBlanks false c.position c.rest = c' := by
  induction h with
  | none c => exact skipBlanks_of_settled hc'
  | @blank x c c₁ c' hx text more ih =>
    obtain ⟨position, rest⟩ := c
    obtain ⟨rest', rfl, htext⟩ := Stretch.cons_iff.mp text
    rw [Stretch.nil_iff] at htext
    subst htext
    rw [← ih hc', skipBlanks_blank hx]
  | @comment c c₁ c' text more ih =>
    obtain ⟨⟨body, htext, hbody⟩, hstop⟩ := text
    obtain ⟨position, rest⟩ := c
    have hrest : rest = '/' :: '/' :: (body ++ c₁.rest) := htext.rest
    have hposition : c₁.position = position + 2 + byteCount body := by
      rw [htext.position]
      simp [byteCount, Nat.add_assoc, show Char.utf8Size '/' = 1 from rfl]
      omega
    subst hrest
    rw [← ih hc', hposition, ← skipBlanks_comment hbody hstop]
    rfl

theorem skipBlanks_settled (comment : Bool) (position : Nat) (cs : List Char) :
    (skipBlanks comment position cs).Settled := by
  fun_induction skipBlanks comment position cs with
  | case1 => exact Cursor.settled_of_end rfl
  | case2 => assumption
  | case3 => assumption
  | case4 => assumption
  | case5 _ position hcomment x rest hslash hblank =>
    constructor
    · simpa [Cursor.Faces] using hblank
    · rintro ⟨rest', hrest⟩
      simp only [List.cons_append, List.cons.injEq] at hrest
      exact hslash rest' hrest.1.symm hrest.2.symm

/-- The rest of a comment is the text before the first line end. -/
theorem comment_takeWhile (position : Nat) (rest : List Char) :
    Comment ⟨position, '/' :: '/' :: rest⟩
      ⟨position + 2 + byteCount (rest.takeWhile (!isLineEnd ·)), rest.dropWhile (!isLineEnd ·)⟩ := by
  refine ⟨⟨rest.takeWhile (!isLineEnd ·), ⟨?_, ?_⟩, ?_⟩, ?_⟩
  · simp
  · simp [byteCount, show Char.utf8Size '/' = 1 from rfl]
    omega
  · intro x hx
    simpa using List.mem_takeWhile_imp hx
  · have hhead := List.head?_dropWhile_not (!isLineEnd ·) rest
    rcases hdrop : rest.dropWhile (!isLineEnd ·) with _ | ⟨x, rest'⟩
    · exact .inl rfl
    · rw [hdrop] at hhead
      exact .inr (by simpa [Cursor.Faces] using hhead)

theorem skipBlanks_slashes (position : Nat) (rest : List Char) :
    skipBlanks false position ('/' :: '/' :: rest) =
      skipBlanks false (position + 2 + byteCount (rest.takeWhile (!isLineEnd ·)))
        (rest.dropWhile (!isLineEnd ·)) := by
  obtain ⟨⟨body, _, hbody⟩, hstop⟩ := comment_takeWhile position rest
  calc skipBlanks false position ('/' :: '/' :: rest)
      = skipBlanks true (position + 2) rest := rfl
    _ = skipBlanks true (position + 2)
          (rest.takeWhile (!isLineEnd ·) ++ rest.dropWhile (!isLineEnd ·)) := by
        rw [List.takeWhile_append_dropWhile]
    _ = _ := skipBlanks_comment (fun x hx => by simpa using List.mem_takeWhile_imp hx) hstop _

/-- What `skipBlanks` passes over are blanks. -/
theorem blanks_skipBlanks (c : Cursor) : Blanks c (skipBlanks false c.position c.rest) := by
  induction hn : c.rest.length using Nat.strong_induction_on generalizing c with
  | _ n ih =>
    obtain ⟨position, rest⟩ := c
    by_cases hblank : Cursor.Faces isBlank ⟨position, rest⟩
    · rcases rest with _ | ⟨x, rest⟩
      · simp [Cursor.Faces] at hblank
      · have hx : isBlank x = true := by simpa [Cursor.Faces] using hblank
        simp only [skipBlanks_blank hx]
        refine .blank hx (Stretch.cons_iff.mpr ⟨rest, rfl, Stretch.nil_iff.mpr rfl⟩) ?_
        exact ih rest.length (by simp [← hn]) ⟨position + x.utf8Size, rest⟩ rfl
    · by_cases hslash : ['/', '/'] <+: rest
      · obtain ⟨rest, rfl⟩ := hslash
        refine .comment (comment_takeWhile position rest) ?_
        rw [show ['/', '/'] ++ rest = '/' :: '/' :: rest from rfl, skipBlanks_slashes]
        refine ih _ ?_ ⟨_, rest.dropWhile (!isLineEnd ·)⟩ rfl
        have hle := (List.dropWhile_suffix (!isLineEnd ·) (l := rest)).length_le
        simp only [← hn, List.cons_append, List.nil_append, List.length_cons]
        omega
      · have hskip := skipBlanks_of_settled (c := ⟨position, rest⟩) ⟨hblank, hslash⟩
        rw [hskip]
        exact .none _

/-! ### Results of combinators -/

section
variable {α β : Type} {p : Parser α} {c c' : Cursor} {t : Attempts}

theorem bind_iff {f : α → Parser β} {r : β × Cursor} :
    ((p >>= f) c t).1 = some r ↔
      ∃ a c₁, (p c t).1 = some (a, c₁) ∧ (f a c₁ (p c t).2).1 = some r := by
  simp only [bind]
  rcases p c t with ⟨_ | ⟨a, c₁⟩, t'⟩ <;> simp

theorem pure_iff {a b : α} : ((pure a : Parser α) c t).1 = some (b, c') ↔ b = a ∧ c' = c := by
  have hpure : (pure a : Parser α) c t = (some (a, c), t) := rfl
  simp [hpure, eq_comm]

theorem rule_fst (r : Rule) (p : Parser α) (c : Cursor) (t : Attempts) :
    (rule r p c t).1 = (p c t).1 := by
  unfold rule
  split <;> simp_all

theorem orElse_iff {q : Parser α} {r : α × Cursor} :
    ((p <|> q) c t).1 = some r ↔
      (p c t).1 = some r ∨ (p c t).1 = none ∧ (q c (p c t).2).1 = some r := by
  simp only [HOrElse.hOrElse, OrElse.orElse]
  rcases p c t with ⟨_ | r', t'⟩ <;> simp

theorem eq_none_of (h : ∀ a c', ¬ (p c t).1 = some (a, c')) : (p c t).1 = none :=
  Option.eq_none_iff_forall_ne_some.mpr fun r => h r.1 r.2

theorem optional_iff {o : Option α} :
    (optional p c t).1 = some (o, c') ↔
      (∃ a, o = some a ∧ (p c t).1 = some (a, c')) ∨ o = none ∧ c' = c ∧ (p c t).1 = none := by
  unfold optional
  rcases p c t with ⟨_ | ⟨a, c₁⟩, t'⟩ <;> simp [eq_comm]

theorem position_iff {n : Nat} :
    (position c t).1 = some (n, c') ↔ n = c.position ∧ c' = c := by
  simp [position, eq_comm]

theorem endOfText_iff {u : Unit} : (endOfText c t).1 = some (u, c') ↔ c.rest = [] ∧ c' = c := by
  unfold endOfText
  by_cases hrest : c.rest = []
  · simp only [hrest, List.isEmpty_nil, if_true, Option.some.injEq, Prod.mk.injEq, true_and]
    exact eq_comm
  · simp [hrest]

theorem word_iff {s : String} {u : Unit} :
    (word s c t).1 = some (u, c') ↔ Stretch s.toList c c' := by
  unfold word
  constructor
  · intro h
    split at h
    · simp at h
    · rename_i rest hrest
      rw [List.isPrefixOf?_eq_some_iff_append_eq] at hrest
      simp only [Option.some.injEq, Prod.mk.injEq, true_and] at h
      subst h
      exact ⟨hrest.symm, rfl⟩
  · rintro ⟨hrest, hposition⟩
    rw [List.isPrefixOf?_eq_some_iff_append_eq.mpr hrest.symm, ← hposition]

theorem takeWhile_iff {cls : Char → Bool} {cs : List Char} :
    (takeWhile cls c t).1 = some (cs, c') ↔
      Stretch cs c c' ∧ (∀ x ∈ cs, cls x = true) ∧ ¬ c'.Faces cls := by
  simp only [takeWhile, Option.some.injEq, Prod.mk.injEq]
  constructor
  · rintro ⟨rfl, rfl⟩
    refine ⟨⟨List.takeWhile_append_dropWhile.symm, rfl⟩, fun x hx => List.mem_takeWhile_imp hx, ?_⟩
    have hhead := List.head?_dropWhile_not cls c.rest
    simp only [Cursor.Faces]
    cases hdrop : (c.rest.dropWhile cls).head? <;> simp_all
  · rintro ⟨⟨hrest, hposition⟩, hcs, hstop⟩
    have hnone : c'.rest.takeWhile cls = [] ∧ c'.rest.dropWhile cls = c'.rest := by
      rcases hc' : c'.rest with _ | ⟨x, rest⟩ <;> simp_all [Cursor.Faces]
    have htake : c.rest.takeWhile cls = cs := by
      rw [hrest, List.takeWhile_append_of_pos hcs, hnone.1, List.append_nil]
    rw [htake, hrest, List.dropWhile_append_of_pos hcs, hnone.2, ← hposition]
    exact ⟨rfl, rfl⟩

theorem takeWhile1_iff {cls : Char → Bool} {cs : List Char} :
    (takeWhile1 cls c t).1 = some (cs, c') ↔
      cs ≠ [] ∧ Stretch cs c c' ∧ (∀ x ∈ cs, cls x = true) ∧ ¬ c'.Faces cls := by
  simp only [takeWhile1, bind_iff, takeWhile_iff]
  constructor
  · rintro ⟨ds, c₁, hds, h⟩
    cases ds with
    | nil => cases h
    | cons x ds =>
      obtain ⟨rfl, rfl⟩ := pure_iff.mp h
      exact ⟨List.cons_ne_nil x ds, hds⟩
  · rintro ⟨hne, hcs⟩
    refine ⟨cs, c', hcs, ?_⟩
    cases cs with
    | nil => exact absurd rfl hne
    | cons x cs => exact pure_iff.mpr ⟨rfl, rfl⟩

theorem notFollowedBy_iff {cls : Char → Bool} {u : Unit} :
    (notFollowedBy cls c t).1 = some (u, c') ↔ ¬ c.Faces cls ∧ c' = c := by
  unfold notFollowedBy
  by_cases hfaces : c.Faces cls
  · simp [hfaces, show c.rest.head?.any cls = true from hfaces]
  · simp only [hfaces, if_neg (show ¬ c.rest.head?.any cls = true from hfaces), Option.some.injEq,
      Prod.mk.injEq, true_and, not_false_eq_true]
    exact eq_comm

theorem blanks_iff {u : Unit} : (blanks c t).1 = some (u, c') ↔ Blanks c c' ∧ c'.Settled := by
  simp only [blanks, Option.some.injEq, Prod.mk.injEq, true_and]
  constructor
  · rintro rfl
    exact ⟨blanks_skipBlanks c, skipBlanks_settled _ _ _⟩
  · rintro ⟨hblanks, hsettled⟩
    exact skipBlanks_of_blanks hblanks hsettled

end

/-! ### Repetitions -/

section
variable {α : Type}

/-- `p` reads exactly the items; an item starts with a token and is not empty. -/
structure Reads (p : Parser α) (Item : α → Cursor → Cursor → Prop) : Prop where
  iff : ∀ {c : Cursor} {t : Attempts} {a : α} {c' : Cursor},
    (p c t).1 = some (a, c') ↔ Item a c c'
  settled : ∀ {c : Cursor} {a : α} {c' : Cursor}, Item a c c' → c.Settled
  shorter : ∀ {c : Cursor} {a : α} {c' : Cursor}, Item a c c' → c'.rest.length < c.rest.length

/-- A place behind blanks where no item starts. -/
def Ends (Item : α → Cursor → Cursor → Prop) (c : Cursor) : Prop :=
  c.Settled ∧ ∀ a c', ¬ Item a c c'

variable {p : Parser α} {Item : α → Cursor → Cursor → Prop} {c c' : Cursor}

/-- From one place items can be read to their end in one way only: the parser gives one result, so the
first items and their ends agree. -/
theorem Reads.unique (h : p.Reads Item) {as bs : List α} {d d' : Cursor} (has : Items Item as c d)
    (hd : Ends Item d) (hbs : Items Item bs c d') (hd' : Ends Item d') : as = bs ∧ d = d' := by
  induction has generalizing bs with
  | nil gap =>
    cases hbs with
    | nil gap' =>
      exact ⟨rfl, (skipBlanks_of_blanks gap hd.1).symm.trans (skipBlanks_of_blanks gap' hd'.1)⟩
    | cons gap' item more =>
      have hsame := (skipBlanks_of_blanks gap hd.1).symm.trans
        (skipBlanks_of_blanks gap' (h.settled item))
      exact absurd (hsame ▸ item) (hd.2 _ _)
  | cons gap item more ih =>
    cases hbs with
    | nil gap' =>
      have hsame := (skipBlanks_of_blanks gap (h.settled item)).symm.trans
        (skipBlanks_of_blanks gap' hd'.1)
      exact absurd (hsame ▸ item) (hd'.2 _ _)
    | cons gap' item' more' =>
      have hsame := (skipBlanks_of_blanks gap (h.settled item)).symm.trans
        (skipBlanks_of_blanks gap' (h.settled item'))
      subst hsame
      have hfirst := (h.iff.mpr item).symm.trans (h.iff (t := .none).mpr item')
      obtain ⟨rfl, rfl⟩ := Prod.mk.inj (Option.some.inj hfirst)
      obtain ⟨rfl, rfl⟩ := ih hd more'
      exact ⟨rfl, rfl⟩

theorem Reads.ends_of_none (h : p.Reads Item) {t : Attempts} (hc : c.Settled)
    (hnone : (p c t).1 = none) : Ends Item c :=
  ⟨hc, fun a c' item => by simp [h.iff.mpr item] at hnone⟩

/-- With enough attempts, items are read until no further one starts. -/
theorem Reads.upTo_items (h : p.Reads Item) (limit : Nat) (c : Cursor) (t : Attempts)
    (hlimit : c.rest.length < limit) :
    ∃ as c₁ t', upTo p limit c t = ((as, c₁), t') ∧
      Items Item as c (skipBlanks false c₁.position c₁.rest) ∧
      Ends Item (skipBlanks false c₁.position c₁.rest) := by
  induction limit generalizing c t with
  | zero => omega
  | succ limit ih =>
    have hblanks := blanks_skipBlanks c
    have hsettled := skipBlanks_settled false c.position c.rest
    unfold upTo
    rcases hp : p (skipBlanks false c.position c.rest) t with ⟨_ | ⟨a, c₁⟩, t₁⟩
    · exact ⟨[], c, t₁, rfl, .nil hblanks, h.ends_of_none hsettled (t := t) (by rw [hp])⟩
    · have item := h.iff.mp (congrArg Prod.fst hp)
      have hshorter := h.shorter item
      have hskipped := hblanks.length_le
      obtain ⟨as, c₂, t₂, hupTo, hitems, hends⟩ := ih c₁ t₁ (by omega)
      exact ⟨a :: as, c₂, t₂, by simp [hupTo], .cons hblanks item hitems, hends⟩

theorem Reads.many_items (h : p.Reads Item) (hc : c.Settled) (t : Attempts) :
    ∃ as c₁, (many p c t).1 = some (as, c₁) ∧
      Items Item as c (skipBlanks false c₁.position c₁.rest) ∧
      Ends Item (skipBlanks false c₁.position c₁.rest) := by
  unfold many
  rcases hp : p c t with ⟨_ | ⟨a, c₁⟩, t₁⟩
  · refine ⟨[], c, rfl, ?_⟩
    rw [skipBlanks_of_settled hc]
    exact ⟨.nil (.none c), h.ends_of_none hc (t := t) (by rw [hp])⟩
  · have item := h.iff.mp (congrArg Prod.fst hp)
    obtain ⟨as, c₂, t₂, hupTo, hitems, hends⟩ :=
      h.upTo_items (c₁.rest.length + 1) c₁ t₁ (by omega)
    exact ⟨a :: as, c₂, by simp [hupTo], .cons (.none c) item hitems, hends⟩

/-- Where items start, the blanks before the first one can be passed over beforehand. -/
theorem Reads.skip_items (h : p.Reads Item) {as : List α} (hitems : Items Item as c c')
    (hc' : c'.Settled) {c₁ : Cursor} (hgap : Blanks c c₁) (hc₁ : c₁.Settled) :
    Items Item as c₁ c' := by
  cases hitems with
  | nil gap =>
    rw [← (skipBlanks_of_blanks hgap hc₁).symm.trans (skipBlanks_of_blanks gap hc')]
    exact .nil (.none c₁)
  | cons gap item more =>
    have hsame := (skipBlanks_of_blanks hgap hc₁).symm.trans
      (skipBlanks_of_blanks gap (h.settled item))
    exact .cons (.none c₁) (hsame ▸ item) more

theorem Reads.many_sound (h : p.Reads Item) {as : List α} {c₁ c₂ : Cursor} {t : Attempts}
    (gap : Blanks c c₁) (hc₁ : c₁.Settled) (hmany : (many p c₁ t).1 = some (as, c₂))
    (last : Blanks c₂ c') (hc' : c'.Settled) : Items Item as c c' := by
  obtain ⟨bs, c₃, hmany', hitems, _⟩ := h.many_items hc₁ t
  obtain ⟨rfl, rfl⟩ := Prod.mk.inj (Option.some.inj (hmany'.symm.trans hmany))
  rw [skipBlanks_of_blanks last hc'] at hitems
  exact hitems.prepend gap

theorem Reads.many_complete (h : p.Reads Item) {as : List α} (hitems : Items Item as c c')
    (hends : Ends Item c') (t : Attempts) :
    ∃ c₁, (many p (skipBlanks false c.position c.rest) t).1 = some (as, c₁) ∧ Blanks c₁ c' := by
  have hsettled := skipBlanks_settled false c.position c.rest
  obtain ⟨bs, c₁, hmany, hitems', hends'⟩ := h.many_items hsettled t
  obtain ⟨rfl, hsame⟩ :=
    h.unique (h.skip_items hitems hends.1 (blanks_skipBlanks c) hsettled) hends hitems' hends'
  exact ⟨c₁, hmany, hsame ▸ blanks_skipBlanks c₁⟩

end

end Parser

end ControlStore.Source
