import ControlStore.Proofs.Compilation
import ControlStore.Proofs.HexText

/-! # The image of a control store

A store holds in every row the last word that was put there (`Rom.writeAll_spec`).  A word that was built by
writes fits its width (`ControlWord.Built.bits_lt`), so its digits are as many as the width asks for, and the
image has one line of such digits for every row (`Rom.Shows`, `Rom.shows_of_image`).  The rows of a compiled
program are the words of its steps (`Program.compile_spec`), so the lines of its image, read back as control
words, decode to what the steps require (`Program.decode_of_shows`).

A word of more than 65535 digits cannot be written, and neither can the image of a store with such rows
(`Rom.image_eq`). -/

namespace ControlStore

open Source (numberOf)

namespace ControlWord

/-- The word came about by writes, from a word whose bits are all zero. -/
def Built (w : ControlWord) : Prop := ∃ width writes, (zeros width).writeAll writes = .ok w

theorem Built.bits_lt {w : ControlWord} (h : w.Built) : w.bits < 2 ^ w.width := by
  obtain ⟨width, writes, h⟩ := h
  exact bits_lt_of_writeAll (Nat.two_pow_pos width) h

/-- Every word that fits its width can be built. -/
theorem built_of_lt {w : ControlWord} (h : w.bits < 2 ^ w.width) (hw : w.width < Width.limit) : w.Built := by
  refine ⟨w.width, [(0, ⟨w.width, w.bits, bitLength_le_iff.mpr h⟩)], writeAll_cons_eq_ok_iff.mpr ⟨w, ?_, rfl⟩⟩
  refine write_eq_ok_iff.mpr ⟨⟨?_, ?_⟩, .inl (field_zeros _ _ _), ?_⟩
  · simp [zeros]
  · simpa using hw
  · simp [put, zeros]

theorem digitCount_le_iff {width : Nat} : digitCount width ≤ digitLimit ↔ width ≤ 262140 := by
  unfold digitCount digitLimit
  omega

/-- The digits of a word that fits its width denote its bits. -/
theorem digits_spec {w : ControlWord} (h : w.bits < 2 ^ w.width) :
    w.digits.toList.length = (max w.width 1 + 3) / 4 ∧ (∀ x ∈ w.digits.toList, isLowerHexDigit x = true) ∧
      numberOf 16 w.digits.toList = w.bits := by
  have hcount : w.width ≤ 4 * digitCount w.width := by
    unfold digitCount
    omega
  apply hexPadded_spec
  · unfold digitCount
    omega
  · calc w.bits < 2 ^ w.width := h
      _ ≤ 2 ^ (4 * digitCount w.width) := Nat.pow_le_pow_right (by decide) hcount
      _ = 16 ^ digitCount w.width := by rw [Nat.pow_mul]

end ControlWord

namespace Rom

variable {r r' : Rom}

/-! ### The words in a store -/

/-- Puts words into rows, one after the other; each comes with its address. -/
def writeAll (r : Rom) (writes : List (Nat × ControlWord)) : Checked Rom :=
  writes.foldlM (fun r e => r.write e.1 e.2) r

/-- Every word has the width of the store and fits it. -/
def Fits (r : Rom) : Prop := ∀ w, some w ∈ r.rows → w.width = r.wordWidth ∧ w.bits < 2 ^ w.width

theorem fits_blank (depth width : Nat) : (blank depth width).Fits := by
  intro w hw
  cases List.eq_of_mem_replicate hw

@[simp] theorem depth_blank (depth width : Nat) : (blank depth width).depth = depth := List.length_replicate

theorem eq_blank_of_ofDepth {rowLimit depth width : Nat} (h : ofDepth rowLimit depth width = .ok r) :
    r = blank depth width := by
  unfold ofDepth at h
  split at h
  · exact (Except.ok.inj h).symm
  · cases h

theorem write_eq_ok_iff {address : Nat} {word : ControlWord} : r.write address word = .ok r' ↔
    address < r.depth ∧ word.width = r.wordWidth ∧
      r' = { r with rows := r.rows.set address (some word) } := by
  unfold write
  split
  · next haddress =>
    split
    · next hwidth => simp [haddress, hwidth, eq_comm]
    · next hwidth => simp [hwidth]
  · next haddress => simp [haddress]

/-- After some writes every row holds the last word that was put there, or else what it held before. -/
theorem writeAll_spec {writes : List (Nat × ControlWord)} (hr : r.Fits)
    (hwords : ∀ e ∈ writes, e.2.bits < 2 ^ e.2.width) (h : r.writeAll writes = .ok r') :
    r'.Fits ∧ r'.depth = r.depth ∧ r'.wordWidth = r.wordWidth ∧
      ∀ a < r.depth, r'.rows[a]? = r.rows[a]?.map fun row => (writes.reverse.lookup a).or row := by
  induction writes generalizing r with
  | nil =>
      cases h
      exact ⟨hr, rfl, rfl, by simp⟩
  | cons e writes ih =>
      obtain ⟨address, word⟩ := e
      obtain ⟨hword, hwords⟩ := List.forall_mem_cons.mp hwords
      obtain ⟨r₁, hfirst, hrest⟩ := foldlM_cons_eq_ok_iff.mp h
      obtain ⟨haddress, hwidth, rfl⟩ := write_eq_ok_iff.mp hfirst
      have hfits : ({ r with rows := r.rows.set address (some word) } : Rom).Fits := by
        intro w hw
        rcases List.mem_or_eq_of_mem_set hw with hw | hw
        · exact hr w hw
        · cases hw
          exact ⟨hwidth, hword⟩
      obtain ⟨hfits', hdepth, hwidth', hrows⟩ := ih hfits hwords hrest
      simp only [depth, List.length_set] at hdepth hrows haddress ⊢
      refine ⟨hfits', hdepth, hwidth', fun a ha => ?_⟩
      rw [hrows a ha, List.reverse_cons, List.lookup_append, List.getElem?_set]
      by_cases haa : address = a
      · subst haa
        simp [haddress]
      · have hlookup : [(address, word)].lookup a = none := by
          simp [List.lookup_cons, beq_false_of_ne (Ne.symm haa)]
        rw [if_neg haa, hlookup, Option.or_none]

/-! ### The lines of an image -/

/-- The text consists of the given lines, each closed by a line feed.  There is one for every address; it has
as many lowercase digits as a word of `width` bits needs, and they denote the bits at the address. -/
structure Shows (text : String) (depth width : Nat) (bits : Nat → Nat) (lines : List (List Char)) : Prop where
  split : text.toList.splitOn '\n' = lines ++ [[]]
  count : lines.length = depth
  digits : ∀ line ∈ lines, line.length = (max width 1 + 3) / 4 ∧ ∀ x ∈ line, isLowerHexDigit x = true
  reads : ∀ a line, lines[a]? = some line → numberOf 16 line = bits a

theorem Shows.congr {text : String} {depth width : Nat} {bits bits' : Nat → Nat} {lines : List (List Char)}
    (h : Shows text depth width bits lines) (hbits : ∀ a < depth, bits a = bits' a) :
    Shows text depth width bits' lines := by
  refine ⟨h.split, h.count, h.digits, fun a line hline => ?_⟩
  rw [h.reads a line hline, hbits a (h.count ▸ (List.getElem?_eq_some_iff.mp hline).1)]

theorem splitOn_lines {lines : List (List Char)} (h : ∀ line ∈ lines, '\n' ∉ line) :
    (lines.flatMap fun line => line ++ ['\n']).splitOn '\n' = lines ++ [[]] := by
  induction lines with
  | nil => rfl
  | cons line lines ih =>
      obtain ⟨hline, hlines⟩ := List.forall_mem_cons.mp h
      rw [List.flatMap_cons, List.append_assoc, List.singleton_append,
        List.splitOn_append_cons_self_of_not_mem hline, ih hlines, List.cons_append]

/-- The word that a row shows; an empty row shows zero. -/
def shown (r : Rom) (row : Option ControlWord) : ControlWord := row.getD (.zeros r.wordWidth)

theorem Fits.shown (hr : r.Fits) {row : Option ControlWord} (hrow : row ∈ r.rows) :
    (r.shown row).width = r.wordWidth ∧ (r.shown row).bits < 2 ^ (r.shown row).width := by
  cases row with
  | none => exact ⟨rfl, Nat.two_pow_pos _⟩
  | some w => exact hr w hrow

/-- The image of a store is written unless there is a row, and it has too many digits. -/
theorem image_eq (hr : r.Fits) : r.image =
    if r.depth = 0 ∨ ControlWord.digitCount r.wordWidth ≤ ControlWord.digitLimit then
      .ok (closedLines (r.rows.map fun row => (r.shown row).digits))
    else .error .tooManyDigits := by
  have htext : ∀ row ∈ r.rows, (r.shown row).text =
      if ControlWord.digitCount r.wordWidth ≤ ControlWord.digitLimit then .ok (r.shown row).digits
      else .error .tooManyDigits := by
    intro row hrow
    unfold ControlWord.text
    rw [(hr.shown hrow).1]
  unfold image
  show (r.rows.mapM (fun row => (r.shown row).text) >>= _) = _
  by_cases hdigits : ControlWord.digitCount r.wordWidth ≤ ControlWord.digitLimit
  · simp only [hdigits, if_true, or_true] at htext ⊢
    rw [mapM_eq_ok_map htext]
    rfl
  · simp only [hdigits, if_false, or_false] at htext ⊢
    unfold depth
    cases hrows : r.rows with
    | nil => rfl
    | cons row rows =>
        rw [List.mapM_cons, htext row (hrows ▸ List.mem_cons_self), if_neg (by simp)]
        rfl

example : (⟨5, [none, some ⟨5, 18⟩, some ⟨5, 3⟩]⟩ : Rom).image = .ok "00\n12\n03\n" :=
  eq_ok_of_toOption (by decide +kernel)

/-- An image that was written shows every row. -/
theorem shows_of_image (hr : r.Fits) {text : String} (h : r.image = .ok text) :
    ∃ lines, Shows text r.depth r.wordWidth (fun a => (r.rows[a]?.join.map ControlWord.bits).getD 0) lines := by
  rw [image_eq hr] at h
  split at h
  · obtain rfl := Except.ok.inj h
    have hdigits : ∀ line ∈ r.rows.map fun row => (r.shown row).digits.toList,
        line.length = (max r.wordWidth 1 + 3) / 4 ∧ ∀ x ∈ line, isLowerHexDigit x = true := by
      intro line hline
      obtain ⟨row, hrow, rfl⟩ := List.mem_map.mp hline
      obtain ⟨hwidth, hbits⟩ := hr.shown hrow
      obtain ⟨hlength, hlower, -⟩ := ControlWord.digits_spec hbits
      exact ⟨hwidth ▸ hlength, hlower⟩
    refine ⟨_, ?_, List.length_map .., hdigits, fun a line hline => ?_⟩
    · have hfeed : ∀ line ∈ r.rows.map fun row => (r.shown row).digits.toList, '\n' ∉ line := by
        intro line hline hmem
        exact absurd ((hdigits line hline).2 _ hmem) (by decide)
      rw [← splitOn_lines hfeed, toList_closedLines, List.flatMap_map, List.flatMap_map]
    · rw [List.getElem?_map, Option.map_eq_some_iff] at hline
      obtain ⟨row, hrow, rfl⟩ := hline
      rw [(ControlWord.digits_spec (hr.shown (List.mem_of_getElem? hrow)).2).2.2, hrow]
      cases row with
      | none => rfl
      | some w => rfl
  · cases h

/-- The image of a store that was empty before the writes shows the last word put into every row. -/
theorem shows_of_writeAll {depth width : Nat} {writes : List (Nat × ControlWord)}
    (hbuilt : ∀ e ∈ writes, e.2.Built) (h : (blank depth width).writeAll writes = .ok r) :
    r.Fits ∧ r.depth = depth ∧ r.wordWidth = width ∧ ∀ text, r.image = .ok text → ∃ lines,
      Shows text depth width (fun a => ((writes.reverse.lookup a).map ControlWord.bits).getD 0) lines := by
  obtain ⟨hfits, hdepth, hwidth, hrows⟩ := writeAll_spec (fits_blank depth width)
    (fun e he => (hbuilt e he).bits_lt) h
  rw [depth_blank] at hdepth hrows
  refine ⟨hfits, hdepth, hwidth, fun text htext => ?_⟩
  obtain ⟨lines, hshows⟩ := shows_of_image hfits htext
  rw [hdepth, hwidth] at hshows
  refine ⟨lines, hshows.congr fun a ha => ?_⟩
  rw [hrows a ha]
  simp [blank, ha]

theorem addressWidth_eq (r : Rom) : r.addressWidth = max (selectorWidth (max r.depth 1)) 1 := by
  rw [addressWidth, widthOfCount_eq]

theorem lt_two_pow_addressWidth {a : Nat} (h : a < r.depth) : a < 2 ^ r.addressWidth :=
  calc a < max r.depth 1 := Nat.lt_of_lt_of_le h (Nat.le_max_left _ _)
    _ ≤ 2 ^ selectorWidth (max r.depth 1) := le_two_pow_selectorWidth _
    _ ≤ 2 ^ r.addressWidth := Nat.pow_le_pow_right Nat.two_pos (r.addressWidth_eq ▸ Nat.le_max_left _ _)

end Rom

namespace Program

open Design

variable {e : Platform} {m : FlowMatrix} {c : Config} {p : Program}

/-- The store of a compiled program holds the words of the steps, and its image is that of the program. -/
theorem compile_spec (hp : (compile e m c).result = .ok p) : m.validate = .ok () ∧
    ∃ d report, (compute m c.bound).result = .ok (d, report) ∧ LaysOut m d ∧
      p.rom = .ofWords d.width ((List.range m.steps.length).map d.wordOf) ∧ p.rom.image = .ok p.image := by
  have hv : m.validate = .ok () := by
    cases hvalid : m.validate with
    | error e =>
        unfold compile at hp
        rw [hvalid] at hp
        cases hp
    | ok u => rfl
  have hof : (ofValid e m c).result = .ok p := by
    rw [result_compile e hv] at hp
    cases hresult : (ofValid e m c).result with
    | error f =>
        rw [hresult] at hp
        cases hp
    | ok q =>
        rw [hresult] at hp
        cases hp
        rfl
  rcases compute_cases hv c.bound with ⟨-, herror⟩ | ⟨-, d, report, hcompute, h⟩
  · cases (ofValid_of_compute_error herror).symm.trans hof
  · rw [result_ofValid hcompute] at hof
    simp only [bind_eq_ok_iff] at hof
    obtain ⟨decoder, -, blank, hblank, rom, hrom, store, -, primitive, -, ports, -, image, himage, heq⟩ := hof
    obtain rfl := Rom.eq_blank_of_ofDepth hblank
    cases hrom.symm.trans (stored_eq_ok h hv)
    cases heq
    exact ⟨hv, d, report, hcompute, h, rfl, himage⟩

theorem fits_ofWords {d : Design} (h : LaysOut m d) (hv : m.validate = .ok ()) :
    (Rom.ofWords d.width ((List.range m.steps.length).map d.wordOf)).Fits := by
  intro w hw
  obtain ⟨w', hw', heq⟩ := List.mem_map.mp hw
  cases heq
  obtain ⟨step, hstep, rfl⟩ := List.mem_map.mp hw'
  obtain ⟨flow, hflow, henc, hwidth⟩ := encode_wordOf h hv (List.mem_range.mp hstep)
  obtain ⟨-, -, hwrites⟩ := (encode_eq_ok_iff h (FlowMatrix.getElem?_stepContents hflow)).mp henc
  exact ⟨hwidth, ControlWord.Built.bits_lt ⟨_, _, hwrites⟩⟩

theorem depth_ofWords {d : Design} :
    (Rom.ofWords d.width ((List.range m.steps.length).map d.wordOf)).depth = m.steps.length := by
  simp [Rom.depth, Rom.ofWords]

/-- The image of the words of the steps shows the word of every step. -/
theorem shows_ofWords {d : Design} (h : LaysOut m d) (hv : m.validate = .ok ()) {text : String}
    (htext : (Rom.ofWords d.width ((List.range m.steps.length).map d.wordOf)).image = .ok text) :
    ∃ lines, Rom.Shows text m.steps.length d.width (fun s => (d.wordOf s).bits) lines := by
  obtain ⟨lines, hshows⟩ := Rom.shows_of_image (fits_ofWords h hv) htext
  rw [depth_ofWords] at hshows
  refine ⟨lines, hshows.congr fun s hs => ?_⟩
  simp [Rom.ofWords, hs]

/-- Every line of the image of a compiled program decodes to what its step requires. -/
theorem decode_of_shows {d : Design} (h : LaysOut m d) (hv : m.validate = .ok ()) {text : String} {depth : Nat}
    {lines : List (List Char)} (hshows : Rom.Shows text depth d.width (fun s => (d.wordOf s).bits) lines)
    {step : Nat} (hstep : step < m.steps.length) {line : List Char} (hline : lines[step]? = some line) :
    ∃ required, m.resolveStep step = .ok required ∧ d.decode ⟨d.width, numberOf 16 line⟩ = .ok required := by
  obtain ⟨flow, hflow, henc, hwidth⟩ := encode_wordOf h hv hstep
  have hword : (⟨d.width, numberOf 16 line⟩ : ControlWord) = d.wordOf step := by
    rw [hshows.reads step line hline, ← hwidth]
  have hrequired := FlowMatrix.resolveStep_eq_ok hv hflow
  rw [hword, decode_eq_resolveStep h hv hflow henc, hrequired]
  exact ⟨_, rfl, rfl⟩

/-- The image of a store shows the last word that was put into every row, zero if there is none; it is not
written only if there is a row and it has more than 262140 bits.  The lines of a compiled program, read back as
control words, decode to what the steps require, and the address port can address every step. -/
theorem image_carries_program (e : Platform) (depth width : Nat) (writes : List (Nat × ControlWord))
    (m : FlowMatrix) (c : Config) :
    (∀ blank rom, Rom.ofDepth e.rowLimit depth width = .ok blank → (∀ write ∈ writes, write.2.Built) →
      blank.writeAll writes = .ok rom →
      (depth = 0 ∨ width ≤ 262140 → ∃ text lines, rom.image = .ok text ∧
        Rom.Shows text depth width (fun a => ((writes.reverse.lookup a).map ControlWord.bits).getD 0) lines) ∧
      (¬ (depth = 0 ∨ width ≤ 262140) → rom.image = .error .tooManyDigits)) ∧
    ∀ p, (compile e m c).result = .ok p →
      ∃ d report lines, (compute m c.bound).result = .ok (d, report) ∧ p.rom.image = .ok p.image ∧
        Rom.Shows p.image m.steps.length d.width (fun s => (d.wordOf s).bits) lines ∧
        ∀ s < m.steps.length, s < 2 ^ p.rom.addressWidth ∧
          ∃ line required, lines[s]? = some line ∧ m.resolveStep s = .ok required ∧
            d.decode ⟨d.width, numberOf 16 line⟩ = .ok required := by
  refine ⟨fun blank rom hblank hbuilt hwrites => ?_, fun p hp => ?_⟩
  · obtain rfl := Rom.eq_blank_of_ofDepth hblank
    obtain ⟨hfits, hdepth, hwidth, hshows⟩ := Rom.shows_of_writeAll hbuilt hwrites
    have himage := Rom.image_eq hfits
    simp only [hdepth, hwidth, ControlWord.digitCount_le_iff] at himage
    refine ⟨fun hwritten => ?_, fun hwide => by rw [himage, if_neg hwide]⟩
    rw [if_pos hwritten] at himage
    obtain ⟨lines, hlines⟩ := hshows _ himage
    exact ⟨_, lines, himage, hlines⟩
  · obtain ⟨hv, d, report, hcompute, h, hrom, himage⟩ := compile_spec hp
    obtain ⟨lines, hshows⟩ := shows_ofWords h hv (hrom ▸ himage)
    refine ⟨d, report, lines, hcompute, himage, hshows, fun s hs => ⟨?_, ?_⟩⟩
    · apply Rom.lt_two_pow_addressWidth
      rwa [hrom, depth_ofWords]
    · have hlt : s < lines.length := hshows.count.symm ▸ hs
      have hline : lines[s]? = some lines[s] := List.getElem?_eq_getElem hlt
      obtain ⟨required, hrequired, hdecode⟩ := decode_of_shows h hv hshows hs hline
      exact ⟨_, required, hline, hrequired, hdecode⟩

/-- Words of five bits for three rows; the second row is written twice. -/
def overwrites : List (Nat × ControlWord) := [(1, ⟨5, 3⟩), (2, ⟨5, 16⟩), (1, ⟨5, 18⟩)]

theorem image_carries_overwrites :
    (∃ rom text lines, (Rom.blank 3 5).writeAll overwrites = .ok rom ∧ rom.image = .ok text ∧
      Rom.Shows text 3 5 (fun a => ((overwrites.reverse.lookup a).map ControlWord.bits).getD 0) lines) ∧
    ∃ p, (compile ⟨.counting, 4⟩ .mixed {}).result = .ok p ∧
      ∃ d report lines, (compute .mixed 6).result = .ok (d, report) ∧ p.rom.image = .ok p.image ∧
        Rom.Shows p.image 3 d.width (fun s => (d.wordOf s).bits) lines ∧
        ∀ s < 3, s < 2 ^ p.rom.addressWidth ∧
          ∃ line required, lines[s]? = some line ∧ FlowMatrix.mixed.resolveStep s = .ok required ∧
            d.decode ⟨d.width, numberOf 16 line⟩ = .ok required := by
  constructor
  · have hfits : ∀ e ∈ overwrites, e.2.bits < 2 ^ e.2.width ∧ e.2.width < Width.limit := by decide
    have hbuilt : ∀ e ∈ overwrites, e.2.Built := fun e he => ControlWord.built_of_lt (hfits e he).1 (hfits e he).2
    obtain ⟨himage, -⟩ :=
      (image_carries_program ⟨.counting, 4⟩ 3 5 overwrites .mixed {}).1 (.blank 3 5) _ rfl hbuilt rfl
    obtain ⟨text, lines, hok, hshows⟩ := himage (by decide)
    exact ⟨_, text, lines, rfl, hok, hshows⟩
  · have hv : FlowMatrix.mixed.validate = .ok () := by decide
    obtain ⟨d, report, hcompute, h⟩ := compute_ok hv (by decide) 6
    have hstorable : Rom.Storable 4 3 d.width := by
      obtain rfl : _ = d := congrArg Prod.fst (Except.ok.inj hcompute)
      decide
    obtain ⟨p, hp, -⟩ := ofValid_ok (e := ⟨.counting, 4⟩) (c := {}) h hv (by decide) hcompute hstorable
    have hcompile : (compile ⟨.counting, 4⟩ .mixed {}).result = .ok p := by
      rw [result_compile _ hv, hp]
      rfl
    exact ⟨p, hcompile, (image_carries_program ⟨.counting, 4⟩ 3 5 overwrites .mixed {}).2 p hcompile⟩

/-- A row of 262141 bits has one digit too many, so no image shows it. -/
theorem wide_row_not_shown : ∃ rom, Rom.ofDepth 4 1 262141 = .ok rom ∧ rom.writeAll [] = .ok rom ∧
    rom.image = .error .tooManyDigits :=
  ⟨.blank 1 262141, rfl, rfl, rfl⟩

end Program

end ControlStore
