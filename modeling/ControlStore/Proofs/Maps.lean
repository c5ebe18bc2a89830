import ControlStore.NatMap

/-! # Entries and look-ups of finite maps

An entry of a map is the same as a look-up that succeeds.  `NatMap.tabulate g ts` is the map with the
entry `t ↦ g t` for every `t` in `ts`; maps that are collected from a list of distinct keys have
this form. -/

namespace ControlStore.NatMap

variable {α β : Type}

theorem lookup_eq_some_iff {l : List (Nat × α)} (h : l.Pairwise fun a b => a.1 < b.1) {k : Nat} {a : α} :
    l.lookup k = some a ↔ (k, a) ∈ l := by
  induction l with
  | nil => simp
  | cons hd tl ih =>
      obtain ⟨k', a'⟩ := hd
      obtain ⟨hk, htl⟩ := List.pairwise_cons.mp h
      rw [List.lookup_cons, List.mem_cons]
      by_cases hkk : k = k'
      · subst hkk
        have hno : (k, a) ∉ tl := fun hmem => Nat.lt_irrefl k (hk (k, a) hmem)
        simp [hno, eq_comm]
      · rw [beq_eq_false_iff_ne.mpr hkk]
        simp [hkk, ih htl]

theorem mem_entries_iff {m : NatMap α} {k : Nat} {a : α} : (k, a) ∈ m.entries ↔ m.get? k = some a :=
  (lookup_eq_some_iff m.ascending).symm

theorem get?_eq_some_of_mem {m : NatMap α} {e : Nat × α} (h : e ∈ m.entries) : m.get? e.1 = some e.2 :=
  mem_entries_iff.mp h

theorem keys_ascending (m : NatMap α) : m.keys.Pairwise (· < ·) := List.pairwise_map.mpr m.ascending

theorem keys_nodup (m : NatMap α) : m.keys.Nodup := m.keys_ascending.imp Nat.ne_of_lt

theorem get?_eq_none_iff {m : NatMap α} {k : Nat} : m.get? k = none ↔ k ∉ m.keys := by
  rw [mem_keys_iff]
  cases m.get? k <;> simp

/-! ### Maps given by a list of keys -/

/-- The map with the entry `t ↦ g t` for every `t` in `ts`. -/
def tabulate (g : Nat → α) (ts : List Nat) : NatMap α := ofList (ts.map fun t => (t, g t))

theorem get?_foldl_insert (g : Nat → α) (ts : List Nat) (m : NatMap α) (k : Nat) :
    ((ts.map fun t => (t, g t)).foldl (fun m e => m.insert e.1 e.2) m).get? k =
      if k ∈ ts then some (g k) else m.get? k := by
  induction ts generalizing m with
  | nil => simp
  | cons t ts ih =>
      rw [List.map_cons, List.foldl_cons, ih, get?_insert]
      by_cases hkt : k = t
      · simp [hkt]
      · simp [hkt]

theorem get?_tabulate (g : Nat → α) (ts : List Nat) (k : Nat) :
    (tabulate g ts).get? k = if k ∈ ts then some (g k) else none :=
  get?_foldl_insert g ts empty k

theorem mem_keys_tabulate {g : Nat → α} {ts : List Nat} {k : Nat} : k ∈ (tabulate g ts).keys ↔ k ∈ ts := by
  rw [mem_keys_iff, get?_tabulate]
  split <;> simp [*]

theorem tabulate_congr {g g' : Nat → α} {ts : List Nat} (h : ∀ t ∈ ts, g t = g' t) :
    tabulate g ts = tabulate g' ts := by
  apply ext_get?
  intro k
  rw [get?_tabulate, get?_tabulate]
  split
  · next hk => rw [h k hk]
  · rfl

theorem tabulate_eq_iff {g g' : Nat → α} {ts : List Nat} :
    tabulate g ts = tabulate g' ts ↔ ∀ t ∈ ts, g t = g' t := by
  refine ⟨fun h t ht => ?_, tabulate_congr⟩
  have hget := congrArg (fun m => m.get? t) h
  simpa [get?_tabulate, ht] using hget

/-- A map tabulated on ascending keys lists its entries in the order of the keys. -/
theorem entries_tabulate {g : Nat → α} {ts : List Nat} (h : ts.Pairwise (· < ·)) :
    (tabulate g ts).entries = ts.map fun t => (t, g t) := by
  have hasc : (ts.map fun t => (t, g t)).Pairwise fun a b => a.1 < b.1 := List.pairwise_map.mpr h
  suffices tabulate g ts = ⟨ts.map fun t => (t, g t), hasc⟩ by rw [this]
  apply ext_get?
  intro k
  rw [get?_tabulate]
  split
  · next hk =>
    symm
    rw [← mem_entries_iff]
    exact List.mem_map.mpr ⟨k, hk, rfl⟩
  · next hk =>
    symm
    rw [get?_eq_none_iff]
    simpa [keys, Function.comp_def] using hk

theorem ofList_entries (m : NatMap α) : ofList m.entries = m := by
  apply ext_get?
  intro k
  exact (get?_overlay empty m k).trans (Option.or_none)

theorem tabulate_map (f : Nat → α → β) (g : Nat → α) (ts : List Nat) :
    (tabulate g ts).map f = tabulate (fun t => f t (g t)) ts := by
  apply ext_get?
  intro k
  rw [get?_map, get?_tabulate, get?_tabulate]
  split <;> rfl

theorem tabulate_overlay (g : Nat → α) (ts us : List Nat) :
    (tabulate g ts).overlay (tabulate g us) = tabulate g (ts ++ us) := by
  apply ext_get?
  intro k
  rw [get?_overlay, get?_tabulate, get?_tabulate, get?_tabulate]
  by_cases ht : k ∈ ts <;> by_cases hu : k ∈ us <;> simp [ht, hu]

/-- Tabulated maps laid over each other one after the other. -/
theorem foldl_overlay_tabulate (g : Nat → α) (tss : List (List Nat)) (ts : List Nat) :
    (tss.map (tabulate g)).foldl overlay (tabulate g ts) = tabulate g (ts ++ tss.flatten) := by
  induction tss generalizing ts with
  | nil => simp
  | cons us tss ih =>
      rw [List.map_cons, List.foldl_cons, tabulate_overlay, ih, List.flatten_cons, List.append_assoc]

theorem tabulate_eq_of_mem_iff {g : Nat → α} {ts us : List Nat} (h : ∀ t, t ∈ ts ↔ t ∈ us) :
    tabulate g ts = tabulate g us := by
  apply ext_get?
  intro k
  simp only [get?_tabulate, h]

/-- A tabulated map lists its entries in ascending order, whatever the order of the keys is. -/
theorem entries_tabulate_keys (g : Nat → α) (ts : List Nat) :
    (tabulate g ts).entries = (NatSet.ofList ts).keys.map fun t => (t, g t) := by
  have hkeys : tabulate g ts = tabulate g (NatSet.ofList ts).keys :=
    tabulate_eq_of_mem_iff fun t => mem_keys_tabulate.symm
  rw [hkeys, entries_tabulate (keys_ascending _)]

/-! ### Maps given by their own keys -/

theorem values_eq_map_keys (m : NatMap α) (a : α) :
    m.values = m.keys.map fun k => (m.get? k).getD a := by
  unfold values keys
  rw [List.map_map]
  apply List.map_congr_left
  intro e he
  simp [get?_eq_some_of_mem he]

theorem tabulate_keys (m : NatMap α) (a : α) :
    tabulate (fun k => (m.get? k).getD a) m.keys = m := by
  apply ext_get?
  intro k
  simp only [get?_tabulate, mem_keys_iff]
  cases m.get? k <;> rfl

end ControlStore.NatMap

namespace ControlStore.NatSet

theorem mem_keys_ofList {l : List Nat} {k : Nat} : k ∈ (ofList l).keys ↔ k ∈ l :=
  NatMap.mem_keys_tabulate

end ControlStore.NatSet
