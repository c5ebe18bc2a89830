/-! # Finite maps on natural numbers

A map is the list of its entries in ascending order of their keys, so two maps with the same
look-ups are equal (`NatMap.ext_get?`), and every listing of a map is sorted. -/

namespace ControlStore

/-- A finite map from natural numbers, listed in ascending order of the keys. -/
structure NatMap (α : Type) where
  entries : List (Nat × α)
  ascending : entries.Pairwise (fun a b => a.1 < b.1)

namespace NatMap

variable {α β : Type}

instance [DecidableEq α] : DecidableEq (NatMap α) := fun m n =>
  decidable_of_iff (m.entries = n.entries)
    ⟨fun h => by obtain ⟨_, _⟩ := m; obtain ⟨_, _⟩ := n; cases h; rfl, fun h => h ▸ rfl⟩

/-- The map without entries. -/
def empty : NatMap α := ⟨[], .nil⟩

/-- The map with the one entry `key ↦ a`. -/
def single (key : Nat) (a : α) : NatMap α := ⟨[(key, a)], List.pairwise_singleton _ _⟩

/-- The value at `key`. -/
def get? (m : NatMap α) (key : Nat) : Option α := m.entries.lookup key

/-- The keys in ascending order. -/
def keys (m : NatMap α) : List Nat := m.entries.map Prod.fst

/-- The values in ascending order of their keys. -/
def values (m : NatMap α) : List α := m.entries.map Prod.snd

/-- The number of entries. -/
def size (m : NatMap α) : Nat := m.entries.length

/-- Sets an entry in an ascending list of entries. -/
def insertEntry (key : Nat) (a : α) : List (Nat × α) → List (Nat × α)
  | [] => [(key, a)]
  | (k, b) :: rest =>
    if key < k then (key, a) :: (k, b) :: rest
    else if key = k then (key, a) :: rest
    else (k, b) :: insertEntry key a rest

theorem mem_insertEntry {key : Nat} {a : α} {e : Nat × α} {l : List (Nat × α)}
    (h : e ∈ insertEntry key a l) : e = (key, a) ∨ e ∈ l := by
  induction l with
  | nil => simpa [insertEntry] using h
  | cons hd tl ih =>
    obtain ⟨k, b⟩ := hd
    rw [insertEntry] at h
    split at h
    · simpa using h
    · split at h
      · rcases List.mem_cons.mp h with h | h
        · exact .inl h
        · exact .inr (List.mem_cons_of_mem _ h)
      · rcases List.mem_cons.mp h with h | h
        · exact .inr (h ▸ List.mem_cons_self)
        · rcases ih h with h | h
          · exact .inl h
          · exact .inr (List.mem_cons_of_mem _ h)

theorem pairwise_insertEntry (key : Nat) (a : α) {l : List (Nat × α)}
    (h : l.Pairwise (fun a b => a.1 < b.1)) :
    (insertEntry key a l).Pairwise (fun a b => a.1 < b.1) := by
  induction l with
  | nil => exact List.pairwise_singleton _ _
  | cons hd tl ih =>
    obtain ⟨k, b⟩ := hd
    obtain ⟨hk, htl⟩ := List.pairwise_cons.mp h
    rw [insertEntry]
    split
    · next hlt =>
      refine List.pairwise_cons.mpr ⟨fun e he => ?_, h⟩
      rcases List.mem_cons.mp he with rfl | he
      · exact hlt
      · exact Nat.lt_trans hlt (hk e he)
    · next hlt =>
      split
      · next heq => exact List.pairwise_cons.mpr ⟨fun e he => heq ▸ hk e he, htl⟩
      · next hne =>
        refine List.pairwise_cons.mpr ⟨fun e he => ?_, ih htl⟩
        rcases mem_insertEntry he with rfl | he
        · exact Nat.lt_of_le_of_ne (Nat.not_lt.mp hlt) (Ne.symm hne)
        · exact hk e he

/-- The map with the entry at `key` set to `a`. -/
def insert (m : NatMap α) (key : Nat) (a : α) : NatMap α :=
  ⟨insertEntry key a m.entries, pairwise_insertEntry key a m.ascending⟩

/-- The map with the given entries; of two entries with one key the later one counts. -/
def ofList (l : List (Nat × α)) : NatMap α := l.foldl (fun m e => m.insert e.1 e.2) empty

/-- The map with its values replaced. -/
def map (f : Nat → α → β) (m : NatMap α) : NatMap β :=
  ⟨m.entries.map fun e => (e.1, f e.1 e.2),
    List.pairwise_map.mpr (m.ascending.imp fun h => h)⟩

/-- The entries whose value `f` keeps, with the value it gives them. -/
def filterMap (f : Nat → α → Option β) (m : NatMap α) : NatMap β :=
  ⟨m.entries.filterMap fun e => (f e.1 e.2).map fun b => (e.1, b), by
    refine List.pairwise_filterMap.mpr (m.ascending.imp fun {a b} h => ?_)
    intro x hx y hy
    obtain ⟨_, _, rfl⟩ := Option.map_eq_some_iff.mp hx
    obtain ⟨_, _, rfl⟩ := Option.map_eq_some_iff.mp hy
    exact h⟩

/-- The entries of `n` laid over those of `m`. -/
def overlay (m n : NatMap α) : NatMap α := n.entries.foldl (fun m e => m.insert e.1 e.2) m

end NatMap

/-- A finite set of natural numbers. -/
abbrev NatSet := NatMap Unit

namespace NatSet

/-- The set of the given numbers. -/
def ofList (l : List Nat) : NatSet := NatMap.ofList (l.map fun k => (k, ()))

end NatSet

/-! ### Look-ups -/

namespace NatMap

variable {α β : Type}

theorem lookup_cons (e : Nat × α) (l : List (Nat × α)) (k : Nat) :
    (e :: l).lookup k = if k = e.1 then some e.2 else l.lookup k := by
  rw [show e :: l = (e.1, e.2) :: l from rfl, List.lookup_cons]
  by_cases h : k = e.1
  · rw [if_pos h, beq_iff_eq.mpr h]
  · rw [if_neg h, beq_false_of_ne h]

theorem lookup_insertEntry (key k : Nat) (a : α) (l : List (Nat × α)) :
    (insertEntry key a l).lookup k = if k = key then some a else l.lookup k := by
  induction l with
  | nil => simp [insertEntry, lookup_cons]
  | cons hd tl ih => grind [insertEntry, lookup_cons]

@[simp] theorem get?_empty (k : Nat) : (empty : NatMap α).get? k = none := rfl

theorem get?_insert (m : NatMap α) (key k : Nat) (a : α) :
    (m.insert key a).get? k = if k = key then some a else m.get? k :=
  lookup_insertEntry key k a m.entries

theorem get?_map (f : Nat → α → β) (m : NatMap α) (k : Nat) :
    (m.map f).get? k = (m.get? k).map (f k) := by
  obtain ⟨l, hl⟩ := m
  simp only [get?, map]
  clear hl
  induction l with
  | nil => rfl
  | cons hd tl ih => grind [lookup_cons]

theorem lookup_eq_none_of_lt {l : List (Nat × α)} {k : Nat} (h : ∀ e ∈ l, k < e.1) :
    l.lookup k = none := by
  induction l with
  | nil => rfl
  | cons hd tl ih => grind [lookup_cons]

theorem get?_filterMap (f : Nat → α → Option β) (m : NatMap α) (k : Nat) :
    (m.filterMap f).get? k = (m.get? k).bind (f k) := by
  obtain ⟨l, hl⟩ := m
  simp only [get?, filterMap]
  induction l with
  | nil => rfl
  | cons hd tl ih =>
    obtain ⟨key, a⟩ := hd
    obtain ⟨hk, htl⟩ := List.pairwise_cons.mp hl
    have ih := ih htl
    by_cases h : k = key
    · subst h
      rw [lookup_eq_none_of_lt hk] at ih
      cases hf : f k a with
      | none => simpa [hf] using ih
      | some b => simp [hf]
    · cases hf : f key a with
      | none => grind [lookup_cons]
      | some b => grind [lookup_cons]

/-- Of two entries with one key the one laid over the other counts. -/
theorem get?_overlay (m n : NatMap α) (k : Nat) :
    (m.overlay n).get? k = (n.get? k).or (m.get? k) := by
  obtain ⟨l, hl⟩ := n
  simp only [overlay]
  induction l generalizing m with
  | nil => rfl
  | cons hd tl ih =>
    obtain ⟨hk, htl⟩ := List.pairwise_cons.mp hl
    rw [List.foldl_cons, ih (m.insert hd.1 hd.2) htl, get?_insert]
    simp only [get?]
    by_cases h : k = hd.1
    · subst h
      rw [lookup_eq_none_of_lt hk]
      simp [lookup_cons]
    · grind [lookup_cons]

theorem mem_keys_iff (m : NatMap α) (k : Nat) : k ∈ m.keys ↔ (m.get? k).isSome := by
  obtain ⟨l, hl⟩ := m
  simp only [keys, get?]
  clear hl
  induction l with
  | nil => simp
  | cons hd tl ih => grind [lookup_cons]

/-- Two maps with the same look-ups are equal. -/
theorem ext_get? {m n : NatMap α} (h : ∀ k, m.get? k = n.get? k) : m = n := by
  obtain ⟨l, hl⟩ := m
  obtain ⟨l', hl'⟩ := n
  suffices l = l' by subst this; rfl
  simp only [get?] at h
  induction l generalizing l' with
  | nil =>
    cases l' with
    | nil => rfl
    | cons hd tl => have := h hd.1; simp [lookup_cons] at this
  | cons hd tl ih =>
    cases l' with
    | nil => have := h hd.1; simp [lookup_cons] at this
    | cons hd' tl' =>
      obtain ⟨k, a⟩ := hd
      obtain ⟨k', a'⟩ := hd'
      obtain ⟨hk, htl⟩ := List.pairwise_cons.mp hl
      obtain ⟨hk', htl'⟩ := List.pairwise_cons.mp hl'
      have key : k = k' := by
        rcases Nat.lt_trichotomy k k' with hlt | heq | hlt
        · have h1 := h k
          rw [lookup_eq_none_of_lt (l := (k', a') :: tl')] at h1
          · simp at h1
          · intro e he
            rcases List.mem_cons.mp he with rfl | he
            · exact hlt
            · exact Nat.lt_trans hlt (hk' e he)
        · exact heq
        · have h1 := h k'
          rw [lookup_eq_none_of_lt (l := (k, a) :: tl)] at h1
          · simp at h1
          · intro e he
            rcases List.mem_cons.mp he with rfl | he
            · exact hlt
            · exact Nat.lt_trans hlt (hk e he)
      subst key
      have head : a = a' := by have := h k; simpa using this
      subst head
      congr 1
      refine ih htl tl' htl' fun j => ?_
      by_cases hj : j = k
      · subst hj
        rw [lookup_eq_none_of_lt hk, lookup_eq_none_of_lt hk']
      · have := h j
        grind [lookup_cons]

end NatMap

end ControlStore
