import ControlStore.Proofs.HexText
import ControlStore.Proofs.Nesting
import Mathlib.Data.List.Forall2

/-! # Texts of process bodies

A body is written line by line, and each line stands for one of the events that record the body
(`DecoderModule.bodyLines_shows`).  Behind its indentation a line begins with a word, the longest run of
letters, digits and underscores: the name of a wire, the width of a literal or a keyword.  A wire may well be
named like a keyword, so it is the word together with what follows that tells the events apart
(`BuildEvent.Written.unique`).  Expressions are told apart in the same way (`Expr.Written.unique`).

No line has a line feed in it, so the text determines the lines, these the events and these the body
(`DecoderModule.bodyText_unambiguous`). -/

namespace ControlStore

open Source

/-! ### Runs of characters -/

/-- The list has no first character, or one outside the class. -/
def BeginsOutside (p : Char → Bool) (cs : List Char) : Prop := ∀ x ∈ cs.head?, p x = false

section
variable {p : Char → Bool} {x : Char} {cs cs' rest rest' : List Char}

theorem BeginsOutside.nil : BeginsOutside p [] := by simp [BeginsOutside]

theorem BeginsOutside.cons (hx : p x = false) : BeginsOutside p (x :: cs) := by simp [BeginsOutside, hx]

theorem takeWhile_append_of_beginsOutside (hcs : ∀ x ∈ cs, p x = true) (hrest : BeginsOutside p rest) :
    (cs ++ rest).takeWhile p = cs := by
  have hnone : rest.takeWhile p = [] := by
    cases rest with
    | nil => rfl
    | cons x rest =>
        rw [List.takeWhile_cons, hrest x rfl]
        rfl
  rw [List.takeWhile_append_of_pos hcs, hnone, List.append_nil]

/-- A text is split in one way only into characters of a class and a rest that begins outside it. -/
theorem append_unique (hcs : ∀ x ∈ cs, p x = true) (hcs' : ∀ x ∈ cs', p x = true)
    (hrest : BeginsOutside p rest) (hrest' : BeginsOutside p rest') (h : cs ++ rest = cs' ++ rest') :
    cs = cs' ∧ rest = rest' := by
  obtain rfl : cs = cs' := by
    rw [← takeWhile_append_of_beginsOutside hcs hrest, h, takeWhile_append_of_beginsOutside hcs' hrest']
  exact ⟨rfl, List.append_cancel_left h⟩

end

theorem closedLines_inj {lines lines' : List String} (h : ∀ line ∈ lines, '\n' ∉ line.toList)
    (h' : ∀ line ∈ lines', '\n' ∉ line.toList) (heq : closedLines lines = closedLines lines') :
    lines = lines' := by
  have hchars := congrArg String.toList heq
  rw [toList_closedLines, toList_closedLines] at hchars
  clear heq
  induction lines generalizing lines' with
  | nil =>
      cases lines' with
      | nil => rfl
      | cons line' lines' => simp at hchars
  | cons line lines ih =>
      cases lines' with
      | nil => simp at hchars
      | cons line' lines' =>
          obtain ⟨hline, hlines⟩ := List.forall_mem_cons.mp h
          obtain ⟨hline', hlines'⟩ := List.forall_mem_cons.mp h'
          simp only [List.flatMap_cons, List.append_assoc, List.singleton_append] at hchars
          have hfree : ∀ {cs : List Char}, '\n' ∉ cs → ∀ x ∈ cs, (x != '\n') = true := by
            intro cs hcs x hx
            exact bne_iff_ne.mpr fun hfeed => hcs (hfeed ▸ hx)
          obtain ⟨hfirst, hrest⟩ := append_unique (hfree hline) (hfree hline') (.cons rfl) (.cons rfl) hchars
          rw [String.toList_inj.mp hfirst, ih hlines hlines' (List.cons.inj hrest).2]

/-! ### Numbers -/

/-- The decimal digits of a number. -/
def decimal (n : Nat) : List Char := Nat.toDigits 10 n

theorem isDigit_of_mem_decimal {n : Nat} {x : Char} (h : x ∈ decimal n) : x.isDigit = true :=
  Nat.isDigit_of_mem_toDigits (by decide) (by decide) h

theorem decimal_inj {m n : Nat} (h : decimal m = decimal n) : m = n := by
  rw [← Nat.ofDigitChars_ten_toDigits (n := m), ← Nat.ofDigitChars_ten_toDigits (n := n)]
  exact congrArg _ h

theorem hexDigits_inj {m n : Nat} (h : hexDigits m = hexDigits n) : m = n := by
  rw [← numberOf_hexDigits m, h, numberOf_hexDigits]

theorem newline_not_mem_decimal (n : Nat) : '\n' ∉ decimal n :=
  fun h => absurd (isDigit_of_mem_decimal h) (by decide)

theorem newline_not_mem_hexDigits (n : Nat) : '\n' ∉ hexDigits n :=
  fun h => absurd (isLowerHexDigit_of_mem_hexDigits h) (by decide)

theorem toList_text (b : Bits) : b.text.toList = decimal b.width ++ '\'' :: 'h' :: hexDigits b.value := by
  simp [Bits.text, hex, decimal]

/-! ### Words -/

/-- Some letters, digits and underscores. -/
structure IsWord (cs : List Char) : Prop where
  ne_nil : cs ≠ []
  chars : ∀ x ∈ cs, isIdentChar x = true

theorem isWord_of_all {x : Char} {xs : List Char} (h : (x :: xs).all isIdentChar = true) : IsWord (x :: xs) :=
  ⟨List.cons_ne_nil x xs, List.all_eq_true.mp h⟩

theorem isWord_decimal (n : Nat) : IsWord (decimal n) := by
  refine ⟨Nat.toDigits_ne_nil, fun x hx => ?_⟩
  simp [isIdentChar, Char.isAlphanum, isDigit_of_mem_decimal hx]

/-- A word, and what follows it on its line. -/
structure Legible (word rest : List Char) : Prop where
  word : IsWord word
  stop : BeginsOutside isIdentChar rest
  line : '\n' ∉ rest

namespace Legible

variable {word word' rest rest' : List Char}

theorem unique (h : Legible word rest) (h' : Legible word' rest') (heq : word ++ rest = word' ++ rest') :
    word = word' ∧ rest = rest' :=
  append_unique h.word.chars h'.word.chars h.stop h'.stop heq

theorem newline_not_mem (h : Legible word rest) : '\n' ∉ word ++ rest := by
  rw [List.mem_append, not_or]
  exact ⟨fun hmem => absurd (h.word.chars _ hmem) (by decide), h.line⟩

theorem beginsOutside (h : Legible word rest) : BeginsOutside (· == ' ') (word ++ rest) := by
  obtain ⟨x, xs, rfl⟩ := List.exists_cons_of_ne_nil h.word.ne_nil
  refine .cons (beq_eq_false_iff_ne.mpr ?_)
  rintro rfl
  exact absurd (h.word.chars ' ' List.mem_cons_self) (by decide)

end Legible

/-! ### Names of wires -/

/-- The name is made of ASCII letters, digits and underscores and does not start with a digit. -/
def isIdentifier (name : String) : Bool :=
  match name.toList with
  | [] => false
  | x :: xs => isIdentStart x && xs.all isIdentChar

theorem isWord_of_isIdentifier {name : String} (h : isIdentifier name = true) : IsWord name.toList := by
  unfold isIdentifier at h
  split at h
  · cases h
  · next x xs heq =>
    rw [Bool.and_eq_true] at h
    rw [heq]
    exact isWord_of_all (by simp only [List.all_cons, isIdentChar_of_isIdentStart h.1, h.2, Bool.and_self])

namespace DecoderModule

/-- The names of all wires. -/
def wireNames (M : DecoderModule) : List String :=
  M.matrix.signals.map Signal.name ++ M.locals.map LocalSignal.name

/-- The wires are named by identifiers, each by its own. -/
structure NamedByIdentifiers (M : DecoderModule) : Prop where
  nodup : M.wireNames.Nodup
  identifiers : ∀ name ∈ M.wireNames, isIdentifier name = true

section
variable {M : DecoderModule} {wire wire' : Wire} {name : String}

theorem name_design_eq_ok_iff {s : SignalId} :
    M.name (.design s) = .ok name ↔ (M.matrix.signals.map Signal.name)[s]? = some name := by
  simp [DecoderModule.name, bind_eq_ok_iff, FlowMatrix.signal, fetch_eq_ok_iff]

theorem name_inner_eq_ok_iff {i : LocalId} :
    M.name (.inner i) = .ok name ↔ (M.locals.map LocalSignal.name)[i]? = some name := by
  simp [DecoderModule.name, bind_eq_ok_iff, fetch_eq_ok_iff]

theorem NamedByIdentifiers.isWord_name (hM : M.NamedByIdentifiers) (h : M.name wire = .ok name) :
    IsWord name.toList := by
  refine isWord_of_isIdentifier (hM.identifiers name (List.mem_append.mpr ?_))
  cases wire with
  | design s => exact .inl (List.mem_of_getElem? (name_design_eq_ok_iff.mp h))
  | inner i => exact .inr (List.mem_of_getElem? (name_inner_eq_ok_iff.mp h))

theorem NamedByIdentifiers.wire_eq {name' : String} (hM : M.NamedByIdentifiers) (h : M.name wire = .ok name)
    (h' : M.name wire' = .ok name') (hnames : name.toList = name'.toList) : wire = wire' := by
  obtain rfl := String.toList_inj.mp hnames
  obtain ⟨hdesign, hinner, hapart⟩ := List.nodup_append.mp hM.nodup
  have hindex : ∀ {names : List String} {i j : Nat}, names.Nodup → names[i]? = some name →
      names[j]? = some name → i = j := by
    intro names i j hnames hi hj
    exact (List.getElem?_inj (List.getElem?_eq_some_iff.mp hi).1 hnames).mp (hi.trans hj.symm)
  cases wire with
  | design s =>
      have hs := name_design_eq_ok_iff.mp h
      cases wire' with
      | design s' => rw [hindex hdesign hs (name_design_eq_ok_iff.mp h')]
      | inner i' =>
          have hi' := List.mem_of_getElem? (name_inner_eq_ok_iff.mp h')
          exact absurd rfl (hapart name (List.mem_of_getElem? hs) name hi')
  | inner i =>
      have hi := name_inner_eq_ok_iff.mp h
      cases wire' with
      | design s' =>
          have hs' := List.mem_of_getElem? (name_design_eq_ok_iff.mp h')
          exact absurd rfl (hapart name hs' name (List.mem_of_getElem? hi))
      | inner i' => rw [hindex hinner hi (name_inner_eq_ok_iff.mp h')]

end

end DecoderModule

/-! ### Expressions -/

/-- How an expression is written: a word, and what follows it. -/
inductive Expr.Written (M : DecoderModule) : Expr → List Char → List Char → Prop
  | literal (bits : Bits) :
      Written M (.literal bits) (decimal bits.width) ('\'' :: 'h' :: hexDigits bits.value)
  | unknown (width : Nat) : Written M (.unknown width) (decimal width) ['\'', 'b', 'x']
  | read {wire : Wire} {name : String} (hname : M.name wire = .ok name) :
      Written M (.read wire) name.toList []
  | bit {wire : Wire} {name : String} (hname : M.name wire = .ok name) (lsb : Nat) :
      Written M (.slice wire lsb 1) name.toList ('[' :: (decimal lsb ++ [']']))
  | range {wire : Wire} {name : String} (hname : M.name wire = .ok name) {msb lsb width : Nat}
      (hwidth : msb + 1 = lsb + width) :
      Written M (.slice wire lsb width) name.toList ('[' :: (decimal msb ++ ':' :: (decimal lsb ++ [']'])))

section
variable {M : DecoderModule} {e e' : Expr} {word word' rest rest' : List Char}

theorem DecoderModule.exprText_written {text : String} (h : M.exprText e = .ok text) :
    ∃ word rest, text.toList = word ++ rest ∧ e.Written M word rest := by
  cases e with
  | literal bits =>
      obtain rfl := Except.ok.inj h
      exact ⟨_, _, toList_text bits, .literal bits⟩
  | unknown width =>
      obtain rfl := Except.ok.inj h
      exact ⟨_, _, by simp [decimal, toString], .unknown width⟩
  | read wire => exact ⟨_, _, (List.append_nil _).symm, .read h⟩
  | slice wire lsb width =>
      rw [exprText] at h
      split at h
      · next hone =>
        subst hone
        obtain ⟨name, hname, htext⟩ := bind_eq_ok_iff.mp h
        obtain rfl := Except.ok.inj htext
        exact ⟨_, _, by simp [decimal, toString], .bit hname lsb⟩
      · obtain ⟨stop, hstop, h⟩ := bind_eq_ok_iff.mp h
        obtain ⟨n, -, h⟩ := bind_eq_ok_iff.mp h
        split at h
        · obtain ⟨name, hname, h⟩ := bind_eq_ok_iff.mp h
          obtain ⟨msb, hmsb, htext⟩ := bind_eq_ok_iff.mp h
          obtain rfl := Except.ok.inj htext
          have hwidth : msb + 1 = lsb + width :=
            (Width.sub_eq_ok_iff.mp hmsb).trans (Width.add_eq_ok_iff.mp hstop).1.symm
          exact ⟨_, _, by simp [decimal, toString], .range hname hwidth⟩
        · obtain ⟨name, -, hthrow⟩ := bind_eq_ok_iff.mp h
          cases hthrow

theorem Expr.Written.legible (hM : M.NamedByIdentifiers) (h : e.Written M word rest) : Legible word rest := by
  cases h with
  | literal bits => exact ⟨isWord_decimal _, .cons rfl, by simp [newline_not_mem_hexDigits]⟩
  | unknown width => exact ⟨isWord_decimal _, .cons rfl, by decide⟩
  | read hname => exact ⟨hM.isWord_name hname, .nil, List.not_mem_nil⟩
  | bit hname lsb => exact ⟨hM.isWord_name hname, .cons rfl, by simp [newline_not_mem_decimal]⟩
  | range hname hwidth => exact ⟨hM.isWord_name hname, .cons rfl, by simp [newline_not_mem_decimal]⟩

/-- The digits of a number end where something else begins. -/
theorem decimal_append_inj {m n : Nat} (hrest : BeginsOutside Char.isDigit rest)
    (hrest' : BeginsOutside Char.isDigit rest') (h : decimal m ++ rest = decimal n ++ rest') :
    m = n ∧ rest = rest' := by
  obtain ⟨hdigits, heq⟩ := append_unique (fun _ => isDigit_of_mem_decimal)
    (fun _ => isDigit_of_mem_decimal) hrest hrest' h
  exact ⟨decimal_inj hdigits, heq⟩

/-- An expression can be read off its text. -/
theorem Expr.Written.unique (hM : M.NamedByIdentifiers) (h : e.Written M word rest)
    (h' : e'.Written M word' rest') (heq : word ++ rest = word' ++ rest') : e = e' := by
  obtain ⟨hword, hrest⟩ := (h.legible hM).unique (h'.legible hM) heq
  clear heq
  cases h with
  | literal bits =>
      cases h' with
      | literal bits' =>
          have hvalue : bits.value = bits'.value := hexDigits_inj (by simpa using hrest)
          rw [Bits.eq_of_width_value (decimal_inj hword) hvalue]
      | _ => simp at hrest
  | unknown width =>
      cases h' with
      | unknown width' => rw [decimal_inj hword]
      | _ => simp at hrest
  | read hname =>
      cases h' with
      | read hname' => rw [hM.wire_eq hname hname' hword]
      | _ => simp at hrest
  | bit hname lsb =>
      cases h' with
      | bit hname' lsb' =>
          have hlsb : decimal lsb = decimal lsb' := by simpa using hrest
          rw [hM.wire_eq hname hname' hword, decimal_inj hlsb]
      | range hname' hwidth =>
          have hclose := (decimal_append_inj (.cons rfl) (.cons rfl) (List.cons.inj hrest).2).2
          simp at hclose
      | _ => simp at hrest
  | @range _ _ hname _ _ width hwidth =>
      cases h' with
      | @range _ _ hname' _ _ width' hwidth' =>
          obtain ⟨hmsb, htail⟩ := decimal_append_inj (.cons rfl) (.cons rfl) (List.cons.inj hrest).2
          obtain ⟨hlsb, -⟩ := decimal_append_inj (.cons rfl) (.cons rfl) (List.cons.inj htail).2
          have hsame : width = width' := by omega
          rw [hM.wire_eq hname hname' hword, hlsb, hsame]
      | bit hname' lsb' =>
          have hclose := (decimal_append_inj (.cons rfl) (.cons rfl) (List.cons.inj hrest).2).2
          simp at hclose
      | _ => simp at hrest

end

/-! ### Lines -/

/-- How an event is written in a process of the given kind: a word, and what follows it. -/
inductive BuildEvent.Written (M : DecoderModule) (kind : ProcessKind) :
    BuildEvent → List Char → List Char → Prop
  | store {dst : Wire} {name : String} {src : Expr} {head tail : List Char}
      (hname : M.name dst = .ok name) (hsrc : src.Written M head tail) :
      Written M kind (.store dst src) name.toList
        (' ' :: (kind.sign.toList ++ ' ' :: (head ++ tail ++ [';'])))
  | beginSwitch {selector : Expr} {head tail : List Char} (hselector : selector.Written M head tail) :
      Written M kind (.beginSwitch selector) ['c', 'a', 's', 'e'] (' ' :: '(' :: (head ++ tail ++ [')']))
  | beginCase (label : Bits) :
      Written M kind (.beginCase label) (decimal label.width)
        ('\'' :: 'h' :: (hexDigits label.value ++ [':', ' ', 'b', 'e', 'g', 'i', 'n']))
  | beginDefault :
      Written M kind .beginDefault ['d', 'e', 'f', 'a', 'u', 'l', 't'] [':', ' ', 'b', 'e', 'g', 'i', 'n']
  | endCase : Written M kind .endCase ['e', 'n', 'd'] []
  | endSwitch : Written M kind .endSwitch ['e', 'n', 'd', 'c', 'a', 's', 'e'] []

/-- The line is that of the event in a process of some kind, at some level. -/
def DecoderModule.Shows (M : DecoderModule) (event : BuildEvent) (line : String) : Prop :=
  ∃ kind level word rest, line.toList = (indentation level).toList ++ (word ++ rest) ∧
    event.Written M kind word rest

section
variable {M : DecoderModule} {kind kind' : ProcessKind} {event event' : BuildEvent}

theorem ProcessKind.sign_cases (kind : ProcessKind) :
    kind.sign.toList = ['='] ∨ kind.sign.toList = ['<', '='] := by
  cases kind with
  | comb => exact .inl (by simp [sign])
  | clocked clock => exact .inr (by simp [sign])

namespace BuildEvent.Written

variable {word word' rest rest' : List Char}

theorem legible (hM : M.NamedByIdentifiers) (h : event.Written M kind word rest) : Legible word rest := by
  cases h with
  | store hname hsrc =>
      have hsign : '\n' ∉ kind.sign.toList := by
        rcases kind.sign_cases with hsign | hsign <;> simp [hsign]
      have hsource := (hsrc.legible hM).newline_not_mem
      exact ⟨hM.isWord_name hname, .cons rfl, by simp_all⟩
  | beginSwitch hselector =>
      have hhead := (hselector.legible hM).newline_not_mem
      exact ⟨isWord_of_all (by decide), .cons rfl, by simp_all⟩
  | beginCase label => exact ⟨isWord_decimal _, .cons rfl, by simp [newline_not_mem_hexDigits]⟩
  | beginDefault => exact ⟨isWord_of_all (by decide), .cons rfl, by decide⟩
  | endCase => exact ⟨isWord_of_all (by decide), .nil, List.not_mem_nil⟩
  | endSwitch => exact ⟨isWord_of_all (by decide), .nil, List.not_mem_nil⟩

/-- An event can be read off its line, whatever the kinds of the processes.  A store into a wire named
`case` goes on with a sign and a switch with a bracket. -/
theorem unique (hM : M.NamedByIdentifiers) (h : event.Written M kind word rest)
    (h' : event'.Written M kind' word' rest') (heq : word ++ rest = word' ++ rest') : event = event' := by
  obtain ⟨hword, hrest⟩ := (h.legible hM).unique (h'.legible hM) heq
  clear heq
  have hblank : ∀ kind : ProcessKind, ∀ x ∈ kind.sign.toList, (x != ' ') = true := by
    intro kind
    rcases kind.sign_cases with hsign | hsign <;> simp [hsign]
  cases h with
  | store hname hsrc =>
      cases h' with
      | store hname' hsrc' =>
          obtain ⟨-, hsource⟩ := append_unique (hblank kind) (hblank kind') (.cons rfl) (.cons rfl)
            (List.cons.inj hrest).2
          have htext := List.append_cancel_right (List.cons.inj hsource).2
          rw [hM.wire_eq hname hname' hword, hsrc.unique hM hsrc' htext]
      | beginSwitch hselector =>
          rcases kind.sign_cases with hsign | hsign <;> simp [hsign] at hrest
      | _ => simp at hrest
  | beginSwitch hselector =>
      cases h' with
      | beginSwitch hselector' =>
          have htext := List.append_cancel_right (List.cons.inj (List.cons.inj hrest).2).2
          rw [hselector.unique hM hselector' htext]
      | store hname hsrc => rcases kind'.sign_cases with hsign | hsign <;> simp [hsign] at hrest
      | _ => simp at hrest
  | beginCase label =>
      cases h' with
      | beginCase label' =>
          have hvalue := List.append_cancel_right (List.cons.inj (List.cons.inj hrest).2).2
          rw [Bits.eq_of_width_value (decimal_inj hword) (hexDigits_inj hvalue)]
      | _ => simp at hrest
  | beginDefault =>
      cases h' with
      | beginDefault => rfl
      | _ => simp at hrest
  | endCase =>
      cases h' with
      | endCase => rfl
      | endSwitch => simp at hword
      | _ => simp at hrest
  | endSwitch =>
      cases h' with
      | endSwitch => rfl
      | endCase => simp at hword
      | _ => simp at hrest

end BuildEvent.Written

namespace DecoderModule.Shows

variable {line : String}

theorem newline_not_mem (hM : M.NamedByIdentifiers) (h : M.Shows event line) : '\n' ∉ line.toList := by
  obtain ⟨kind, level, word, rest, hline, hevent⟩ := h
  rw [hline, List.mem_append, not_or]
  exact ⟨by simp [indentation], (hevent.legible hM).newline_not_mem⟩

/-- A line shows one event only: the indentation ends where the word begins. -/
theorem unique (hM : M.NamedByIdentifiers) (h : M.Shows event line) (h' : M.Shows event' line) :
    event = event' := by
  obtain ⟨kind, level, word, rest, hline, hevent⟩ := h
  obtain ⟨kind', level', word', rest', hline', hevent'⟩ := h'
  have hblank : ∀ {level : Nat}, ∀ x ∈ (indentation level).toList, (x == ' ') = true := by
    intro level x hx
    rw [indentation, String.toList_ofList] at hx
    exact beq_iff_eq.mpr (List.eq_of_mem_replicate hx)
  obtain ⟨-, htext⟩ := append_unique hblank hblank (hevent.legible hM).beginsOutside
    (hevent'.legible hM).beginsOutside (hline.symm.trans hline')
  exact hevent.unique hM hevent' htext

end DecoderModule.Shows

end

/-! ### Bodies -/

namespace DecoderModule

variable {M : DecoderModule} {kind : ProcessKind}

mutual

theorem stmtLines_shows {level : Nat} {lines : List String} : (stmt : Stmt) →
    M.stmtLines kind.sign level stmt = .ok lines → List.Forall₂ M.Shows stmt.events lines
  | .store dst src, h => by
      rw [stmtLines] at h
      obtain ⟨name, hname, h⟩ := bind_eq_ok_iff.mp h
      obtain ⟨source, hsource, h⟩ := bind_eq_ok_iff.mp h
      obtain rfl := Except.ok.inj h
      obtain ⟨head, tail, htext, hsrc⟩ := exprText_written hsource
      rw [Stmt.events]
      exact .cons ⟨kind, level, _, _, by simp [htext], .store hname hsrc⟩ .nil
  | .switch selector cases fallback, h => by
      rw [stmtLines] at h
      obtain ⟨head, hhead, h⟩ := bind_eq_ok_iff.mp h
      obtain ⟨inner, hinner, h⟩ := bind_eq_ok_iff.mp h
      obtain ⟨last, hlast, h⟩ := bind_eq_ok_iff.mp h
      obtain rfl := Except.ok.inj h
      obtain ⟨word, rest, htext, hselector⟩ := exprText_written hhead
      rw [Stmt.events, List.cons_append, List.cons_append]
      refine .cons ⟨kind, level, _, _, by simp [htext], .beginSwitch hselector⟩ ?_
      refine List.rel_append (List.rel_append (caseLines_shows cases hinner)
        (fallbackLines_shows fallback hlast)) (.cons ⟨kind, level, _, _, ?_, .endSwitch⟩ .nil)
      simp

/-- Every line of a body shows the event in its place. -/
theorem bodyLines_shows {level : Nat} {lines : List String} : (body : List Stmt) →
    M.bodyLines kind.sign level body = .ok lines → List.Forall₂ M.Shows (eventsOf body) lines
  | [], h => by
      rw [bodyLines] at h
      obtain rfl := Except.ok.inj h
      exact .nil
  | stmt :: body, h => by
      rw [bodyLines] at h
      obtain ⟨first, hfirst, h⟩ := bind_eq_ok_iff.mp h
      obtain ⟨others, hothers, h⟩ := bind_eq_ok_iff.mp h
      obtain rfl := Except.ok.inj h
      rw [eventsOf]
      exact List.rel_append (stmtLines_shows stmt hfirst) (bodyLines_shows body hothers)

theorem caseLines_shows {level : Nat} {lines : List String} : (cases : List (Bits × List Stmt)) →
    M.caseLines kind.sign level cases = .ok lines → List.Forall₂ M.Shows (eventsOfCases cases) lines
  | [], h => by
      rw [caseLines] at h
      obtain rfl := Except.ok.inj h
      exact .nil
  | (label, body) :: cases, h => by
      rw [caseLines] at h
      obtain ⟨inner, hinner, h⟩ := bind_eq_ok_iff.mp h
      obtain ⟨others, hothers, h⟩ := bind_eq_ok_iff.mp h
      obtain rfl := Except.ok.inj h
      rw [eventsOfCases]
      refine .cons ⟨kind, level + 1, _, _, by simp [toList_text], .beginCase label⟩ ?_
      refine List.rel_append (bodyLines_shows body hinner) (.cons ⟨kind, level + 1, _, _, ?_, .endCase⟩ ?_)
      · simp
      · exact caseLines_shows cases hothers

theorem fallbackLines_shows {level : Nat} {lines : List String} : (fallback : Option (List Stmt)) →
    M.fallbackLines kind.sign level fallback = .ok lines →
      List.Forall₂ M.Shows (eventsOfFallback fallback) lines
  | none, h => by
      rw [fallbackLines] at h
      obtain rfl := Except.ok.inj h
      exact .nil
  | some body, h => by
      rw [fallbackLines] at h
      obtain ⟨inner, hinner, h⟩ := bind_eq_ok_iff.mp h
      obtain rfl := Except.ok.inj h
      rw [eventsOfFallback]
      refine .cons ⟨kind, level + 1, _, _, by simp, .beginDefault⟩ ?_
      refine List.rel_append (bodyLines_shows body hinner) (.cons ⟨kind, level + 1, _, _, ?_, .endCase⟩ .nil)
      simp

end

/-- The text of a body has the lines of its events. -/
theorem exists_lines_of_bodyText {body : List Stmt} {text : String} (h : M.bodyText kind body = .ok text) :
    ∃ lines, text = closedLines lines ∧ List.Forall₂ M.Shows (eventsOf body) lines := by
  obtain ⟨lines, hlines, htext⟩ := bind_eq_ok_iff.mp h
  exact ⟨lines, (Except.ok.inj htext).symm, bodyLines_shows body hlines⟩

theorem newline_not_mem_of_shows (hM : M.NamedByIdentifiers) {events : List BuildEvent} {lines : List String}
    (h : List.Forall₂ M.Shows events lines) : ∀ line ∈ lines, '\n' ∉ line.toList := by
  induction h with
  | nil => exact List.forall_mem_nil _
  | cons hfirst _ ih => exact List.forall_mem_cons.mpr ⟨hfirst.newline_not_mem hM, ih⟩

end DecoderModule

theorem eventsOf_inj {body body' : List Stmt} (h : eventsOf body = eventsOf body') : body = body' := by
  have hbody := (wellNested_eventsOf body).ofEvents_ok ""
  have hbody' := (wellNested_eventsOf body').ofEvents_ok ""
  rw [h] at hbody
  exact congrArg Procedure.body (Except.ok.inj (hbody.symm.trans hbody'))

namespace DecoderModule

/-- Bodies over wires that are named by identifiers are written, and a text stands for one body only: where
two bodies have the same text, they are the same, even in processes of different kinds. -/
theorem bodyText_unambiguous {M : DecoderModule} (hM : M.NamedByIdentifiers) (kind kind' : ProcessKind)
    {body body' : List Stmt} (hbody : ∀ stmt ∈ body, stmt.Within M)
    (hbody' : ∀ stmt ∈ body', stmt.Within M) :
    ∃ text text', M.bodyText kind body = .ok text ∧ M.bodyText kind' body' = .ok text' ∧
      (text = text' → body = body') := by
  obtain ⟨text, htext⟩ := bodyText_ok hbody kind
  obtain ⟨text', htext'⟩ := bodyText_ok hbody' kind'
  refine ⟨text, text', htext, htext', fun heq => ?_⟩
  obtain ⟨lines, rfl, hlines⟩ := exists_lines_of_bodyText htext
  obtain ⟨lines', rfl, hlines'⟩ := exists_lines_of_bodyText htext'
  obtain rfl : lines = lines' :=
    closedLines_inj (newline_not_mem_of_shows hM hlines) (newline_not_mem_of_shows hM hlines') heq
  have hunique : Relator.LeftUnique M.Shows := fun _ _ _ h h' => h.unique hM h'
  exact eventsOf_inj (List.left_unique_forall₂' hunique hlines hlines')

/-- Two signals of the design that are named like keywords, and a word. -/
def keywords : DecoderModule where
  matrix := ⟨[.zeroed "case" 4, .zeroed "end" 4], .empty, []⟩
  names := .reserving .counting ["case", "end"]
  locals := [⟨"cw", .input, 8⟩]
  processes := []

/-- A switch with statements at the end of its default case, and statements behind it. -/
def switchThen (last behind : List Stmt) : List Stmt :=
  .switch (.slice (.inner 0) 0 2) [(.ofNat 1 2, [.store (.design 0) (.slice (.inner 0) 7 1)])]
    (some (.store (.design 0) (.unknown 4) :: last)) :: behind

theorem within_switchThen {last behind : List Stmt} (hlast : ∀ stmt ∈ last, stmt.Within keywords)
    (hbehind : ∀ stmt ∈ behind, stmt.Within keywords) :
    ∀ stmt ∈ switchThen last behind, stmt.Within keywords := by
  have hbits : ∀ {lsb width : Nat}, 0 < width → lsb + width ≤ 8 →
      (Expr.slice (.inner 0) lsb width).Within keywords :=
    fun hpos hle => ⟨hpos, 8, rfl, hle, by decide⟩
  have hdst : keywords.Declares (.design 0) := ⟨4, rfl⟩
  refine List.forall_mem_cons.mpr ⟨.switch (hbits (by decide) (by decide)) ?_ ?_, hbehind⟩
  · simp only [List.forall_mem_singleton]
    exact .store hdst (hbits (by decide) (by decide))
  · rintro _ ⟨⟩
    exact List.forall_mem_cons.mpr ⟨.store hdst trivial, hlast⟩

/-- The last statement of the default case and a statement behind the switch have different texts. -/
theorem nesting_is_legible : keywords.NamedByIdentifiers ∧
    (∀ stmt ∈ switchThen [.store (.design 1) (.read (.design 0))] [], stmt.Within keywords) ∧
    (∀ stmt ∈ switchThen [] [.store (.design 1) (.read (.design 0))], stmt.Within keywords) ∧
    ∃ text text', keywords.bodyText .comb (switchThen [.store (.design 1) (.read (.design 0))] []) = .ok text ∧
      keywords.bodyText .comb (switchThen [] [.store (.design 1) (.read (.design 0))]) = .ok text' ∧
      text ≠ text' := by
  have hnames : keywords.NamedByIdentifiers := ⟨by decide, by decide⟩
  have hstore : ∀ stmt ∈ [Stmt.store (.design 1) (.read (.design 0))], stmt.Within keywords :=
    List.forall_mem_singleton.mpr (.store ⟨4, rfl⟩ ⟨4, rfl⟩)
  have hinside := within_switchThen hstore (List.forall_mem_nil _)
  have hbehind := within_switchThen (List.forall_mem_nil _) hstore
  obtain ⟨text, text', htext, htext', hunique⟩ := bodyText_unambiguous hnames .comb .comb hinside hbehind
  refine ⟨hnames, hinside, hbehind, text, text', htext, htext', fun heq => ?_⟩
  have hlength := congrArg List.length (hunique heq)
  simp [switchThen] at hlength

end DecoderModule

end ControlStore
