import MiniC.Catalogue

/-!
# Laws of catalogues

What is found under a name after an entry was made, how finding relates to being an entry, and which
names a catalogue has entries under. The order of the entries matters only where a name must not occur
twice.
-/

namespace MiniC.Catalogue

variable {α : Type}

/-- Looking up passes over every entry under another name. -/
theorem lookup_cons_ite (key name : String) (value : α) (rest : List (String × α)) :
    ((key, value) :: rest).lookup name = if name = key then some value else rest.lookup name := by
  by_cases h : name = key
  · subst h
    simp
  · have other : (name == key) = false := beq_false_of_ne h
    simp [List.lookup_cons, other, h]

/-- An entry replaces the one of the same name, and no other name is found otherwise than before. -/
theorem lookup_insertEntry (name other : String) (value : α) (entries : List (String × α)) :
    (insertEntry name value entries).lookup other =
      if other = name then some value else entries.lookup other := by
  induction entries with
  | nil => rw [insertEntry, lookup_cons_ite]
  | cons first rest ih =>
    obtain ⟨key, old⟩ := first
    simp only [insertEntry]
    split
    · rw [lookup_cons_ite]
    · split
      · rename_i same
        subst same
        simp only [lookup_cons_ite]
        split <;> rfl
      · rename_i different
        simp only [lookup_cons_ite, ih]
        by_cases h : other = name
        · subst h
          simp [different]
        · simp [h]

/-- An entry is found under its own name, and nothing changes under the others. -/
theorem find?_insert (c : Catalogue α) (name other : String) (value : α) :
    (c.insert name value).find? other = if other = name then some value else c.find? other :=
  lookup_insertEntry name other value c.entries

@[simp]
theorem find?_insert_self (c : Catalogue α) (name : String) (value : α) :
    (c.insert name value).find? name = some value := by
  simp [find?_insert]

theorem find?_insert_of_ne (c : Catalogue α) {name other : String} (value : α) (h : other ≠ name) :
    (c.insert name value).find? other = c.find? other := by
  simp [find?_insert, h]

@[simp]
theorem find?_empty (name : String) : (empty : Catalogue α).find? name = none := rfl

/-- In sorted entries every name comes once, so the entry that is there is the one that is found. -/
theorem lookup_eq_some_of_mem {entries : List (String × α)} {name : String} {value : α}
    (sorted : entries.Pairwise fun a b => a.1 < b.1) (mem : (name, value) ∈ entries) :
    entries.lookup name = some value := by
  induction entries with
  | nil => cases mem
  | cons first rest ih =>
    obtain ⟨key, old⟩ := first
    obtain ⟨below, sorted⟩ := List.pairwise_cons.1 sorted
    rcases List.mem_cons.1 mem with same | mem
    · cases same
      simp
    · have different : name ≠ key := (Std.ne_of_lt (below _ mem)).symm
      rw [lookup_cons_ite, if_neg different, ih sorted mem]

/-- What is found under a name is the entry under it: there is only one. -/
theorem find?_eq_some_iff (c : Catalogue α) {name : String} {value : α} :
    c.find? name = some value ↔ (name, value) ∈ c.entries := by
  constructor
  · intro found
    obtain ⟨before, after, split, _⟩ := List.lookup_eq_some_iff.1 found
    rw [split]
    simp
  · exact lookup_eq_some_of_mem c.ascending

/-- Every entry after another was made is that one or was there before. -/
theorem mem_entries_insert {c : Catalogue α} {name : String} {value : α} {entry : String × α}
    (mem : entry ∈ (c.insert name value).entries) : entry = (name, value) ∨ entry ∈ c.entries :=
  mem_insertEntry mem

/-! ## Names with entries -/

/-- The names under which a catalogue has entries. -/
def keys (c : Catalogue α) : List String :=
  c.entries.map Prod.fst

/-- No name comes twice. -/
theorem nodup_keys (c : Catalogue α) : c.keys.Nodup :=
  c.ascending.map _ fun _ _ less => Std.ne_of_lt less

/-- A name is not found exactly if it is not there. -/
theorem find?_eq_none_iff (c : Catalogue α) {name : String} : c.find? name = none ↔ name ∉ c.keys := by
  constructor
  · intro absent mem
    obtain ⟨⟨_, value⟩, held, rfl⟩ := List.mem_map.1 mem
    cases absent.symm.trans (c.find?_eq_some_iff.2 held)
  · intro absent
    cases found : c.find? name with
    | none => rfl
    | some value => exact absurd (List.mem_map.2 ⟨_, c.find?_eq_some_iff.1 found, rfl⟩) absent

/-- An entry adds its name and no other. -/
theorem mem_keys_insert {c : Catalogue α} {name other : String} {value : α} :
    other ∈ (c.insert name value).keys ↔ other = name ∨ other ∈ c.keys := by
  have same : ∀ c : Catalogue α, other ∈ c.keys ↔ ¬ c.find? other = none := fun c => by
    rw [find?_eq_none_iff, Decidable.not_not]
  rw [same, same, find?_insert]
  split
  · rename_i here
    simp [here]
  · rename_i elsewhere
    simp [elsewhere]

/-- An entry with a new name is one more entry; where it is put does not matter. -/
theorem perm_insertEntry {name : String} {entries : List (String × α)} (value : α)
    (fresh : name ∉ entries.map Prod.fst) :
    (insertEntry name value entries).Perm ((name, value) :: entries) := by
  induction entries with
  | nil => exact .refl _
  | cons first rest ih =>
    rw [List.map_cons, List.mem_cons, not_or] at fresh
    rw [insertEntry]
    split
    · exact .refl _
    · rw [if_neg fresh.1]
      exact ((ih fresh.2).cons first).trans (.swap _ _ _)

/-- Entries under different names that a catalogue does not have yet are all there after they are
entered. -/
theorem perm_foldl_insert {entries : List (String × α)} {c : Catalogue α}
    (distinct : (entries.map Prod.fst).Nodup)
    (fresh : ∀ name ∈ entries.map Prod.fst, name ∉ c.entries.map Prod.fst) :
    (entries.foldl (fun c entry => c.insert entry.1 entry.2) c).entries.Perm (entries ++ c.entries) := by
  induction entries generalizing c with
  | nil => exact .refl _
  | cons first rest ih =>
    rw [List.map_cons, List.nodup_cons] at distinct
    have entered : (c.insert first.1 first.2).entries.Perm (first :: c.entries) :=
      perm_insertEntry first.2 (fresh first.1 (.head _))
    have others : ∀ name ∈ rest.map Prod.fst,
        name ∉ (c.insert first.1 first.2).entries.map Prod.fst := by
      intro name mem held
      rw [(entered.map Prod.fst).mem_iff, List.map_cons, List.mem_cons] at held
      rcases held with rfl | old
      · exact distinct.1 mem
      · exact fresh name (.tail _ mem) old
    exact (ih distinct.2 others).trans ((entered.append_left rest).trans List.perm_middle)

/-- A new entry adds its name to the others. -/
theorem perm_keys_insert {c : Catalogue α} {name : String} (value : α) (fresh : name ∉ c.keys) :
    (c.insert name value).keys.Perm (name :: c.keys) :=
  (perm_insertEntry value fresh).map Prod.fst

end MiniC.Catalogue
