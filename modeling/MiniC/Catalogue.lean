/-!
# Catalogues

A catalogue holds entries under names, at most one under each, in ascending order of the names. The order
is that of the characters' code points, which is also that of the bytes of UTF-8. Entering a name again
replaces its entry.
-/

namespace MiniC

/-- Entries under names, in ascending order of the names. -/
structure Catalogue (α : Type) where
  entries : List (String × α) := []
  ascending : entries.Pairwise fun a b => a.1 < b.1 := by exact .nil

namespace Catalogue

variable {α : Type}

/-- The catalogue without entries. -/
def empty : Catalogue α := {}

/-- A list of entries in ascending order with one more entry at its place. -/
def insertEntry (name : String) (value : α) : List (String × α) → List (String × α)
  | [] => [(name, value)]
  | (other, old) :: rest =>
    if name < other then (name, value) :: (other, old) :: rest
    else if name = other then (name, value) :: rest
    else (other, old) :: insertEntry name value rest

/-- Every entry after an insertion is the new one or was there before. -/
theorem mem_insertEntry {name : String} {value : α} {entry : String × α}
    {entries : List (String × α)} (h : entry ∈ insertEntry name value entries) :
    entry = (name, value) ∨ entry ∈ entries := by
  induction entries with
  | nil => simpa [insertEntry] using h
  | cons first rest ih =>
    obtain ⟨other, old⟩ := first
    simp only [insertEntry] at h
    split at h
    · simpa using h
    · split at h
      · rcases List.mem_cons.1 h with h | h
        · exact .inl h
        · exact .inr (List.mem_cons_of_mem _ h)
      · rcases List.mem_cons.1 h with h | h
        · exact .inr (h ▸ List.mem_cons_self)
        · exact (ih h).imp_right (List.mem_cons_of_mem _)

/-- An insertion keeps the order. -/
theorem pairwise_insertEntry (name : String) (value : α) {entries : List (String × α)}
    (h : entries.Pairwise fun a b => a.1 < b.1) :
    (insertEntry name value entries).Pairwise fun a b => a.1 < b.1 := by
  induction entries with
  | nil => simp [insertEntry]
  | cons first rest ih =>
    obtain ⟨other, old⟩ := first
    obtain ⟨below, sorted⟩ := List.pairwise_cons.1 h
    simp only [insertEntry]
    split
    · rename_i before
      refine List.pairwise_cons.2 ⟨?_, h⟩
      intro entry mem
      rcases List.mem_cons.1 mem with rfl | mem
      · exact before
      · exact Std.lt_trans before (below entry mem)
    · rename_i notBefore
      split
      · rename_i same
        exact List.pairwise_cons.2 ⟨same ▸ below, sorted⟩
      · rename_i different
        refine List.pairwise_cons.2 ⟨?_, ih sorted⟩
        intro entry mem
        rcases mem_insertEntry mem with rfl | mem
        · exact Std.lt_of_le_of_ne (Std.not_lt.1 notBefore) (Ne.symm different)
        · exact below entry mem

/-- Enters a value under a name, in the place of what was there. -/
def insert (c : Catalogue α) (name : String) (value : α) : Catalogue α :=
  ⟨insertEntry name value c.entries, pairwise_insertEntry name value c.ascending⟩

/-- The entry under a name. -/
def find? (c : Catalogue α) (name : String) : Option α :=
  c.entries.lookup name

/-- The catalogue of a list of entries, of which the last under a name stays. -/
def ofList (entries : List (String × α)) : Catalogue α :=
  entries.foldl (fun c entry => c.insert entry.1 entry.2) empty

end Catalogue

end MiniC
