import Mathlib.Data.List.Nodup

/-!
# Dictionaries in insertion order

A dictionary keeps every key once, at the place where it was first inserted.
Setting a key that is present changes its value in place; setting a new one puts
it at the end.

## Main definitions

* `Dict` — the dictionary, with `get?`, `set`, `pop` and `keys`

## Main results

* `get?_set`, `get?_pop` — what is found after a change
* `set_eq_self_iff` — when setting a key changes nothing
-/

namespace CS

/-- A dictionary from `κ` to `α`, in insertion order. -/
structure Dict (κ α : Type*) where
  entries : List (κ × α)
  nodup : (entries.map Prod.fst).Nodup
  deriving DecidableEq

namespace Dict

variable {κ α : Type*}

instance : EmptyCollection (Dict κ α) := ⟨⟨[], List.nodup_nil⟩⟩

/-- The keys, oldest first. -/
def keys (d : Dict κ α) : List κ := d.entries.map Prod.fst

variable [DecidableEq κ] {d : Dict κ α} {k j : κ} {v : α}

/-- The value of a key. -/
def get? (d : Dict κ α) (k : κ) : Option α := d.entries.lookup k

/-- The entries after setting a key. -/
def setEntry (k : κ) (v : α) : List (κ × α) → List (κ × α)
  | [] => [(k, v)]
  | (j, w) :: rest => if j = k then (k, v) :: rest else (j, w) :: setEntry k v rest

theorem mem_keys_setEntry {l : List (κ × α)} :
    j ∈ (setEntry k v l).map Prod.fst ↔ j = k ∨ j ∈ l.map Prod.fst := by
  induction l with
  | nil => simp [setEntry]
  | cons e l ih =>
    obtain ⟨i, w⟩ := e
    rw [setEntry]
    split
    · rename_i h
      subst h
      simp
    · simp only [List.map_cons, List.mem_cons, ih]
      tauto

theorem nodup_setEntry {l : List (κ × α)} (h : (l.map Prod.fst).Nodup) :
    ((setEntry k v l).map Prod.fst).Nodup := by
  induction l with
  | nil => simp [setEntry]
  | cons e l ih =>
    obtain ⟨i, w⟩ := e
    rw [List.map_cons, List.nodup_cons] at h
    rw [setEntry]
    split
    · rename_i hi
      subst hi
      exact List.nodup_cons.mpr h
    · rename_i hi
      rw [List.map_cons, List.nodup_cons]
      refine ⟨fun hmem => ?_, ih h.2⟩
      rcases mem_keys_setEntry.mp hmem with rfl | hmem
      · exact hi rfl
      · exact h.1 hmem

/-- Set the value of a key, in its place if it is present. -/
def set (d : Dict κ α) (k : κ) (v : α) : Dict κ α :=
  ⟨setEntry k v d.entries, nodup_setEntry d.nodup⟩

theorem mem_setEntry {l : List (κ × α)} {e : κ × α} (h : e ∈ setEntry k v l) :
    e = (k, v) ∨ e ∈ l := by
  induction l with
  | nil => exact .inl (List.mem_singleton.mp h)
  | cons e' l ih =>
    obtain ⟨i, w⟩ := e'
    rw [setEntry] at h
    split at h
    · exact (List.mem_cons.mp h).imp_right (List.mem_cons_of_mem _)
    · rcases List.mem_cons.mp h with rfl | h
      · exact .inr (List.mem_cons_self ..)
      · exact (ih h).imp_right (List.mem_cons_of_mem _)

/-- What is found is an entry. -/
theorem mem_entries_of_get? (h : d.get? k = some v) : (k, v) ∈ d.entries := by
  obtain ⟨before, after, heq, -⟩ := List.lookup_eq_some_iff.mp h
  rw [heq]
  exact List.mem_append_right _ (List.mem_cons_self ..)

omit [DecidableEq κ] in
/-- A key has one entry. -/
theorem entry_unique {e e' : κ × α} (he : e ∈ d.entries) (he' : e' ∈ d.entries)
    (hkey : e.1 = e'.1) : e = e' :=
  List.inj_on_of_nodup_map d.nodup he he' hkey

/-- Remove a key. -/
def pop (d : Dict κ α) (k : κ) : Dict κ α where
  entries := d.entries.filter fun e => e.1 ≠ k
  nodup := d.nodup.sublist (List.filter_sublist.map _)

@[simp] theorem get?_empty : (∅ : Dict κ α).get? k = none := rfl

theorem lookup_cons_eq {l : List (κ × α)} {i : κ} {w : α} :
    ((i, w) :: l).lookup j = if j = i then some w else l.lookup j := by
  rw [List.lookup_cons]
  by_cases h : j = i
  · simp [h]
  · rw [if_neg h, beq_eq_false_iff_ne.mpr h]

/-- An entry is what is found for its key. -/
theorem get?_of_mem_entries {e : κ × α} (he : e ∈ d.entries) : d.get? e.1 = some e.2 := by
  have hlookup : ∀ l : List (κ × α), (l.map Prod.fst).Nodup → e ∈ l →
      l.lookup e.1 = some e.2 := by
    intro l hl he
    induction l with
    | nil => simp at he
    | cons e' l ih =>
      obtain ⟨hout, hl⟩ := List.nodup_cons.mp hl
      rw [lookup_cons_eq]
      rcases List.mem_cons.mp he with rfl | he
      · rw [if_pos rfl]
      · have hne : e.1 ≠ e'.1 := fun heq => hout (heq ▸ List.mem_map_of_mem he)
        rw [if_neg hne, ih hl he]
  exact hlookup d.entries d.nodup he

theorem lookup_setEntry {l : List (κ × α)} :
    (setEntry k v l).lookup j = if j = k then some v else l.lookup j := by
  induction l with
  | nil => rw [setEntry, lookup_cons_eq]
  | cons e l ih =>
    obtain ⟨i, w⟩ := e
    by_cases hi : i = k
    · subst hi
      rw [setEntry, if_pos rfl, lookup_cons_eq, lookup_cons_eq]
      split <;> rfl
    · rw [setEntry, if_neg hi, lookup_cons_eq, lookup_cons_eq, ih]
      by_cases h : j = k
      · subst h
        simp [Ne.symm hi]
      · simp [h]

theorem get?_set : (d.set k v).get? j = if j = k then some v else d.get? j := lookup_setEntry

@[simp] theorem get?_set_self : (d.set k v).get? k = some v := by
  rw [get?_set, if_pos rfl]

theorem get?_set_of_ne (h : j ≠ k) : (d.set k v).get? j = d.get? j := by
  rw [get?_set, if_neg h]

theorem lookup_filter {l : List (κ × α)} :
    (l.filter fun e => e.1 ≠ k).lookup j = if j = k then none else l.lookup j := by
  induction l with
  | nil => simp
  | cons e l ih =>
    obtain ⟨i, w⟩ := e
    by_cases hi : i = k
    · subst hi
      rw [List.filter_cons_of_neg (by simp), ih, lookup_cons_eq]
      by_cases h : j = i
      · simp [h]
      · simp [h]
    · rw [List.filter_cons_of_pos (by simpa using hi), lookup_cons_eq, lookup_cons_eq, ih]
      by_cases h : j = k
      · subst h
        simp [Ne.symm hi]
      · simp [h]

theorem get?_pop : (d.pop k).get? j = if j = k then none else d.get? j := lookup_filter

theorem setEntry_eq_self_iff {l : List (κ × α)} : setEntry k v l = l ↔ l.lookup k = some v := by
  induction l with
  | nil => simp [setEntry]
  | cons e l ih =>
    obtain ⟨i, w⟩ := e
    by_cases hi : i = k
    · subst hi
      rw [setEntry, if_pos rfl, lookup_cons_eq, if_pos rfl]
      simp [eq_comm]
    · rw [setEntry, if_neg hi, lookup_cons_eq, if_neg (Ne.symm hi), ← ih]
      simp

/-- Setting a key changes nothing exactly if the key has that value. -/
theorem set_eq_self_iff : d.set k v = d ↔ d.get? k = some v := by
  obtain ⟨l, hl⟩ := d
  simp only [set, mk.injEq]
  exact setEntry_eq_self_iff

theorem setEntry_setEntry {l : List (κ × α)} {w : α} :
    setEntry k w (setEntry k v l) = setEntry k w l := by
  induction l with
  | nil => simp [setEntry]
  | cons e l ih =>
    obtain ⟨i, u⟩ := e
    by_cases hi : i = k
    · simp [setEntry, hi]
    · simp [setEntry, hi, ih]

/-- Of two values set one after the other the last one counts. -/
theorem set_set {w : α} : (d.set k v).set k w = d.set k w := by
  simp only [set, mk.injEq]
  exact setEntry_setEntry

theorem mem_keys_iff : k ∈ d.keys ↔ d.get? k ≠ none := by
  obtain ⟨l, hl⟩ := d
  simp [keys, get?, List.lookup_eq_none_iff]

/-! ### Other keys and values -/

section Map

variable {κ' β : Type*} [DecidableEq κ'] {f : κ → κ'} {hf : Function.Injective f} {g : α → β}

omit [DecidableEq κ] [DecidableEq κ'] in
theorem nodup_map_entries (hf : Function.Injective f) (g : α → β) {l : List (κ × α)}
    (h : (l.map Prod.fst).Nodup) : ((l.map fun e => (f e.1, g e.2)).map Prod.fst).Nodup := by
  have hkeys : (l.map fun e => (f e.1, g e.2)).map Prod.fst = (l.map Prod.fst).map f := by
    simp only [List.map_map, Function.comp_def]
  rw [hkeys]
  exact h.map hf

omit [DecidableEq κ] [DecidableEq κ'] in
/-- The dictionary with other values, and other keys of which no two become the same. -/
def map (f : κ → κ') (hf : Function.Injective f) (g : α → β) (d : Dict κ α) : Dict κ' β where
  entries := d.entries.map fun e => (f e.1, g e.2)
  nodup := nodup_map_entries hf g d.nodup

theorem lookup_map (hf : Function.Injective f) {l : List (κ × α)} :
    (l.map fun e => (f e.1, g e.2)).lookup (f k) = (l.lookup k).map g := by
  induction l with
  | nil => rfl
  | cons e l ih =>
    obtain ⟨i, w⟩ := e
    rw [List.map_cons, lookup_cons_eq, lookup_cons_eq, ih]
    by_cases h : k = i
    · rw [if_pos h, if_pos (congrArg f h), Option.map_some]
    · rw [if_neg h, if_neg (hf.ne h)]

theorem get?_map : (d.map f hf g).get? (f k) = (d.get? k).map g := lookup_map hf

theorem setEntry_map (hf : Function.Injective f) {l : List (κ × α)} :
    setEntry (f k) (g v) (l.map fun e => (f e.1, g e.2)) =
      (setEntry k v l).map fun e => (f e.1, g e.2) := by
  induction l with
  | nil => rfl
  | cons e l ih =>
    obtain ⟨i, w⟩ := e
    rw [List.map_cons, setEntry, setEntry, ih]
    by_cases h : i = k
    · rw [if_pos h, if_pos (congrArg f h), List.map_cons]
    · rw [if_neg h, if_neg (hf.ne h), List.map_cons]

theorem set_map : (d.map f hf g).set (f k) (g v) = (d.set k v).map f hf g := by
  simp only [set, map, mk.injEq]
  exact setEntry_map hf

theorem pop_map : (d.map f hf g).pop (f k) = (d.pop k).map f hf g := by
  simp only [pop, map, mk.injEq, List.filter_map]
  congr 1
  refine List.filter_congr fun e _ => ?_
  simp only [Function.comp_apply, ne_eq, hf.eq_iff]

omit [DecidableEq κ] [DecidableEq κ'] in
theorem keys_map : (d.map f hf g).keys = d.keys.map f := by
  simp only [keys, map, List.map_map, Function.comp_def]

end Map

end Dict

end CS
