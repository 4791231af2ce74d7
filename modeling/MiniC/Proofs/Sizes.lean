import MiniC.Lowering
import MiniC.Proofs.Shape

/-!
# Sizes of types

The elements of a type are counted from the outside in, and the count must stay within 32 bits on the way. As long
as no array is empty, a count never goes down again, so the checks on the way refuse exactly those types whose whole
count is too large (`countElements_eq`). What is left of the size is its unit, which is the alignment: a word, if the
type has a layout at all (`size_eq`).

`size_exact` says what the size of a type is, and which fault is reported where there is none. In particular the
elements of an array that has a size have one, so the distance between two of them is known.
-/

namespace MiniC.Ty

/-- The number of elements in the arrays outside the outermost pointer, however many these are. -/
def elements : List Qualifier → Nat
  | [] | .pointer :: _ => 1
  | .array length :: inner => length * elements inner

theorem elements_pos {qualifiers : List Qualifier} (positive : positiveLengths qualifiers) :
    0 < elements qualifiers := by
  induction qualifiers with
  | nil => exact Nat.one_pos
  | cons q inner ih =>
    cases q with
    | pointer => exact Nat.one_pos
    | array length =>
      exact Nat.mul_pos (positive length (.head _)) (ih fun length mem => positive length (.tail _ mem))

/-- A count that is found is exact. -/
theorem eq_of_countElements {qualifiers : List Qualifier} {count total : Nat} {pointed : Bool}
    (h : countElements count qualifiers = some (total, pointed)) :
    total = count * elements qualifiers ∧ pointed = qualifiers.contains .pointer := by
  induction qualifiers generalizing count with
  | nil =>
    cases h
    simp [elements]
  | cons q inner ih =>
    cases q with
    | pointer =>
      cases h
      simp [elements]
    | array length =>
      rw [countElements] at h
      split at h
      · obtain ⟨exact, found⟩ := ih h
        rw [elements, ← Nat.mul_assoc]
        exact ⟨exact, found.trans (by simp)⟩
      · cases h

/-- Counting step by step refuses no count that is small enough in the end, and accepts no other. -/
theorem countElements_eq {qualifiers : List Qualifier} (positive : positiveLengths qualifiers) {count : Nat}
    (small : count ≤ maxCount) :
    countElements count qualifiers =
      if count * elements qualifiers ≤ maxCount then
        some (count * elements qualifiers, qualifiers.contains .pointer)
      else none := by
  induction qualifiers generalizing count with
  | nil => simp [countElements, elements, small]
  | cons q inner ih =>
    cases q with
    | pointer => simp [countElements, elements, small]
    | array length =>
      have positive' : positiveLengths inner := fun length mem => positive length (.tail _ mem)
      have contains : (Qualifier.array length :: inner).contains .pointer = inner.contains .pointer := by
        simp
      rw [countElements, elements, contains, ← Nat.mul_assoc]
      by_cases next : count * length ≤ maxCount
      · rw [if_pos next, ih positive' next]
      · -- The elements further inside only make it more.
        have more : count * length ≤ count * length * elements inner :=
          Nat.le_mul_of_pos_right _ (elements_pos positive')
        rw [if_neg next, if_neg fun le => next (Nat.le_trans more le)]

/-- A size is a count of units, and the unit is the alignment. -/
theorem size_of_countElements {t : Ty} {count : Nat}
    (counted : countElements 1 t.qualifiers = some (count, t.qualifiers.contains .pointer)) :
    t.size = t.alignment >>= fun unit =>
      if count * unit ≤ maxSize then .ok (count * unit) else .error (.tooLarge t) := by
  unfold size alignment
  rw [counted]
  cases t.qualifiers.contains .pointer <;> rfl

theorem size_eq {t : Ty} (positive : positiveLengths t.qualifiers) :
    t.size =
      if elements t.qualifiers ≤ maxCount then
        t.alignment >>= fun unit =>
          if elements t.qualifiers * unit ≤ maxSize then .ok (elements t.qualifiers * unit)
          else .error (.tooLarge t)
      else .error (.tooLarge t) := by
  have counted := countElements_eq positive (by decide : 1 ≤ maxCount)
  rw [Nat.one_mul] at counted
  by_cases few : elements t.qualifiers ≤ maxCount
  · rw [if_pos few] at counted ⊢
    exact size_of_countElements counted
  · rw [if_neg few] at counted ⊢
    rw [size, counted]

/-- The types that have a layout: pointers, arrays of pointers, and all whose primitive fits in a word. -/
theorem alignment_eq_ok_iff {t : Ty} {unit : Nat} :
    t.alignment = .ok unit ↔
      unit = wordSize ∧ (.pointer ∈ t.qualifiers ∨ t.primitive ∈ [.int, .float, .bool]) := by
  unfold alignment primitiveSize
  by_cases pointed : .pointer ∈ t.qualifiers
  · simp [pointed, eq_comm]
  · cases t.primitive <;> simp [pointed, eq_comm]

/-- Data is aligned to words. -/
theorem alignment_eq {t : Ty} {unit : Nat} (h : t.alignment = .ok unit) : unit = wordSize :=
  (alignment_eq_ok_iff.1 h).1

/-- Only types with an alignment have a size, and it is a whole number of words. -/
theorem layout_of_size {t : Ty} {bytes : Nat} (sized : t.size = .ok bytes) :
    t.alignment = .ok wordSize ∧ bytes = wordSize * elements t.qualifiers ∧ bytes ≤ maxSize := by
  cases counted : countElements 1 t.qualifiers with
  | none =>
    rw [size, counted] at sized
    cases sized
  | some counts =>
    obtain ⟨count, pointed⟩ := counts
    obtain ⟨rfl, rfl⟩ := eq_of_countElements counted
    rw [size_of_countElements counted] at sized
    obtain ⟨unit, aligned, last⟩ := except_bind_eq_ok.1 sized
    obtain rfl := alignment_eq aligned
    rw [Nat.one_mul, Nat.mul_comm] at last
    split at last
    · rename_i small
      cases last
      exact ⟨aligned, rfl, small⟩
    · cases last

/-- A type whose arrays have elements takes at least a word. -/
theorem wordSize_le_size {t : Ty} {bytes : Nat} (positive : positiveLengths t.qualifiers)
    (sized : t.size = .ok bytes) : wordSize ≤ bytes := by
  obtain ⟨-, rfl, -⟩ := layout_of_size sized
  exact Nat.le_mul_of_pos_right _ (elements_pos positive)

theorem size_of_alignment {t : Ty} (positive : positiveLengths t.qualifiers)
    (aligned : t.alignment = .ok wordSize) :
    t.size =
      if wordSize * elements t.qualifiers ≤ maxSize then .ok (wordSize * elements t.qualifiers)
      else .error (.tooLarge t) := by
  rw [size_eq positive, aligned, Nat.mul_comm wordSize]
  by_cases small : elements t.qualifiers * wordSize ≤ maxSize
  · -- A count that fits in the address space fits in 32 bits.
    have few : elements t.qualifiers ≤ maxCount := by
      simp only [wordSize, maxSize, maxCount] at small ⊢
      omega
    rw [if_pos few, if_pos small]
    exact if_pos small
  · rw [if_neg small]
    split
    · exact if_neg small
    · rfl

theorem size_of_alignment_error {t : Ty} (positive : positiveLengths t.qualifiers) {cause : LayoutError}
    (failed : t.alignment = .error cause) :
    t.size = .error (if elements t.qualifiers < 4294967296 then cause else .tooLarge t) := by
  have bound : elements t.qualifiers < 4294967296 ↔ elements t.qualifiers ≤ maxCount := Nat.lt_succ_iff
  rw [size_eq positive, failed]
  by_cases few : elements t.qualifiers ≤ maxCount
  · rw [if_pos few, if_pos (bound.2 few)]
    rfl
  · rw [if_neg few, if_neg fun lt => few (bound.1 lt)]

/-- The elements of an array that has a size have one too. -/
theorem size_element {primitive : Primitive} {length : Nat} {inner : List Qualifier} {size : Nat}
    (positive : positiveLengths (.array length :: inner))
    (sized : (⟨primitive, .array length :: inner⟩ : Ty).size = .ok size) :
    (⟨primitive, inner⟩ : Ty).size = .ok (wordSize * elements inner) ∧
      length * (wordSize * elements inner) = size := by
  obtain ⟨aligned, rfl, small⟩ := layout_of_size sized
  have positive' : positiveLengths inner := fun length mem => positive length (.tail _ mem)
  have aligned' : (⟨primitive, inner⟩ : Ty).alignment = .ok wordSize := by
    obtain ⟨-, layout⟩ := alignment_eq_ok_iff.1 aligned
    exact alignment_eq_ok_iff.2 ⟨rfl, layout.imp_left fun pointed => by simpa using pointed⟩
  have whole : length * (wordSize * elements inner) = wordSize * elements (.array length :: inner) := by
    rw [elements, Nat.mul_left_comm]
  have small' : wordSize * elements inner ≤ maxSize :=
    Nat.le_trans (Nat.le_mul_of_pos_left _ (positive length (.head _))) (whole ▸ small)
  rw [size_of_alignment positive' aligned', if_pos small']
  exact ⟨rfl, whole⟩

/-- The size of a type whose arrays have elements. A pointer, and what is made of words, takes a word for each element
if that stays below 2³¹. What has no layout is refused as such as long as the number of its elements is below 2³², and
for that number after that. Where there is a size, the alignment is a word and divides it; and the size of an array is
that of its elements, all of them together, so that the distance between elements is always known. -/
theorem size_exact {t : Ty} (positive : positiveLengths t.qualifiers) :
    (.pointer ∈ t.qualifiers ∨ t.primitive ∈ [.int, .float, .bool] →
      t.size =
        if 4 * elements t.qualifiers ≤ 2147483647 then .ok (4 * elements t.qualifiers)
        else .error (.tooLarge t)) ∧
    (.pointer ∉ t.qualifiers → t.primitive ∈ [.string, .char] →
      t.size = .error (if elements t.qualifiers < 4294967296 then .unsupported t else .tooLarge t)) ∧
    (.pointer ∉ t.qualifiers → t.primitive = .void →
      t.size = .error (if elements t.qualifiers < 4294967296 then .incomplete t else .tooLarge t)) ∧
    (∀ size, t.size = .ok size → t.alignment = .ok 4 ∧ 4 ∣ size) ∧
    ∀ length inner size, t.qualifiers = .array length :: inner → t.size = .ok size →
      ∃ element stride, t.element? = some element ∧ element.size = .ok stride ∧ length * stride = size ∧
        ∀ e, Lowering.liftLayout element.size e = .ok stride e := by
  refine ⟨fun layout => ?_, fun plain kind => ?_, fun plain kind => ?_, fun size sized => ?_, ?_⟩
  · exact size_of_alignment positive (alignment_eq_ok_iff.2 ⟨rfl, layout⟩)
  · have failed : t.alignment = .error (.unsupported t) := by
      unfold alignment primitiveSize
      simp only [List.mem_cons, List.not_mem_nil, or_false] at kind
      rcases kind with kind | kind <;> simp [plain, kind]
    exact size_of_alignment_error positive failed
  · have failed : t.alignment = .error (.incomplete t) := by
      unfold alignment primitiveSize
      simp [plain, kind]
    exact size_of_alignment_error positive failed
  · obtain ⟨aligned, rfl, -⟩ := layout_of_size sized
    exact ⟨aligned, Nat.dvd_mul_right _ _⟩
  · intro length inner size outermost sized
    obtain ⟨primitive, qualifiers⟩ := t
    obtain rfl : qualifiers = .array length :: inner := outermost
    obtain ⟨element, whole⟩ := size_element positive sized
    exact ⟨⟨primitive, inner⟩, _, rfl, element, whole, fun e => by rw [element]; rfl⟩

/-- An array of arrays that just fits below 2³¹, one of characters with 2³² elements, and one of pointers, which have
a size whatever they point to. -/
theorem size_exact_bounds :
    ∃ ints chars pointers : Ty,
      ints = ⟨.int, [.array 3, .array 178956970]⟩ ∧ positiveLengths ints.qualifiers ∧
      chars = ⟨.char, [.array 65536, .array 65536]⟩ ∧ positiveLengths chars.qualifiers ∧
      pointers = ⟨.void, [.array 2, .pointer, .array 4294967295]⟩ ∧ positiveLengths pointers.qualifiers ∧
      ints.size = .ok 2147483640 ∧ ints.alignment = .ok 4 ∧
      (∃ element, ints.element? = some element ∧ element.size = .ok 715827880) ∧
      chars.size = .error (.tooLarge chars) ∧ pointers.size = .ok 8 := by
  have positive : positiveLengths [.array 3, .array 178956970] := by simp [positiveLengths]
  have positive' : positiveLengths [.array 65536, .array 65536] := by simp [positiveLengths]
  have positive'' : positiveLengths [.array 2, .pointer, .array 4294967295] := by simp [positiveLengths]
  obtain ⟨sized, -, -, aligned, parts⟩ :=
    size_exact (t := ⟨.int, [.array 3, .array 178956970]⟩) positive
  have ints : size ⟨.int, [.array 3, .array 178956970]⟩ = .ok 2147483640 := sized (.inr (by decide))
  obtain ⟨element, stride, found, part, whole, -⟩ := parts _ _ _ rfl ints
  have each : stride = 715827880 := by omega
  refine ⟨_, _, _, rfl, positive, rfl, positive', rfl, positive'', ints, (aligned _ ints).1,
    ⟨element, found, each ▸ part⟩, ?_, ?_⟩
  · exact (size_exact (t := ⟨.char, [.array 65536, .array 65536]⟩) positive').2.1 (by decide) (by decide)
  · exact (size_exact (t := ⟨.void, [.array 2, .pointer, .array 4294967295]⟩) positive'').1 (.inl (by decide))

end MiniC.Ty
