import Mathlib.Algebra.BigOperators.Group.List.Basic
import MiniC.Proofs.Labels

/-!
# Row-major order

The elements of an array lie one after another, those with the same first indices next to each other.
`rowMajor` counts the elements before the one with the given indices, or before the first one of a part, if
indices are left out. Parts of which none contains the other are apart (`InRange.apart`).

The machine computes the address of an element from that of the first one, index by index, with products
and sums of 32 bits. `InRange.wrappedAddress_eq` says what it comes to, and `InRange.exact` that nothing is lost on
the way if the array lies within 31 bits.
-/

namespace MiniC

/-- Indices are in range: there are at most as many as dimensions, and each is below its own. -/
inductive InRange : (indices dims : List Nat) → Prop
  | nil (dims : List Nat) : InRange [] dims
  | cons {i d : Nat} {indices dims : List Nat} :
    i < d → InRange indices dims → InRange (i :: indices) (d :: dims)

/-- The number of elements before those with the given first indices. -/
def rowMajor : (dims indices : List Nat) → Nat
  | _ :: dims, i :: indices => i * dims.prod + rowMajor dims indices
  | _, _ => 0

@[simp]
theorem rowMajor_nil (dims : List Nat) : rowMajor dims [] = 0 := by
  cases dims <;> rfl

@[simp]
theorem rowMajor_cons (d i : Nat) (dims indices : List Nat) :
    rowMajor (d :: dims) (i :: indices) = i * dims.prod + rowMajor dims indices :=
  rfl

/-- Zeros lead to the first element, which has none before it. -/
theorem rowMajor_zeros (dims : List Nat) : rowMajor dims (List.replicate dims.length 0) = 0 := by
  induction dims with
  | nil => rfl
  | cons d dims ih => simp [List.replicate_succ, ih]

namespace InRange

variable {indices indices' dims : List Nat}

/-- There are no more indices than dimensions. -/
theorem length_le (h : InRange indices dims) : indices.length ≤ dims.length := by
  induction h with
  | nil dims => exact Nat.zero_le _
  | cons _ _ ih => exact Nat.succ_le_succ ih

/-- A row and those before it are among the rows. -/
theorem row_le {i d : Nat} (lt : i < d) (row : Nat) : i * row + row ≤ d * row := by
  calc i * row + row = (i + 1) * row := (Nat.succ_mul i row).symm
    _ ≤ d * row := Nat.mul_le_mul_right row lt

/-- A part ends where its array ends, or before. -/
theorem rowMajor_add_le (h : InRange indices dims) :
    rowMajor dims indices + (dims.drop indices.length).prod ≤ dims.prod := by
  induction h with
  | nil dims => simp
  | @cons i d indices dims lt _ ih =>
    have row : i * dims.prod + dims.prod ≤ d * dims.prod := row_le lt _
    simp only [rowMajor_cons, List.length_cons, List.drop_succ_cons, List.prod_cons]
    omega

/-- Indices in range for an array, and further ones for the part that they lead to. -/
theorem append (h : InRange indices dims) (h' : InRange indices' (dims.drop indices.length)) :
    InRange (indices ++ indices') dims := by
  induction h with
  | nil dims => exact h'
  | cons lt _ ih => exact .cons lt (ih h')

/-- The first indices lead to a part, and the others are in range for it. -/
theorem of_append (h : InRange (indices ++ indices') dims) :
    InRange indices dims ∧ InRange indices' (dims.drop indices.length) := by
  induction indices generalizing dims with
  | nil => exact ⟨.nil dims, h⟩
  | cons i indices ih =>
    cases h with
    | cons lt rest =>
      obtain ⟨first, second⟩ := ih rest
      exact ⟨.cons lt first, second⟩

/-- A part of a part is found from the start of the part. -/
theorem rowMajor_append (h : InRange indices dims) (indices' : List Nat) :
    rowMajor dims (indices ++ indices') =
      rowMajor dims indices + rowMajor (dims.drop indices.length) indices' := by
  induction h with
  | nil dims => simp
  | cons _ _ ih => simp [ih, Nat.add_assoc]

/-- The first element of an array has zeros for its indices. -/
theorem zeros (positive : 0 < dims.prod) : InRange (List.replicate dims.length 0) dims := by
  induction dims with
  | nil => exact .nil []
  | cons d dims ih =>
    rw [List.prod_cons] at positive
    exact .cons (Nat.pos_of_mul_pos_right positive) (ih (Nat.pos_of_mul_pos_left positive))

/-- Parts of an array of which none contains the other are apart. -/
theorem apart (h : InRange indices dims) (h' : InRange indices' dims) (other : ¬indices <+: indices')
    (other' : ¬indices' <+: indices) :
    rowMajor dims indices + (dims.drop indices.length).prod ≤ rowMajor dims indices' ∨
      rowMajor dims indices' + (dims.drop indices'.length).prod ≤ rowMajor dims indices := by
  induction h generalizing indices' with
  | nil dims => exact absurd (List.nil_prefix) other
  | @cons i d indices dims lt within ih =>
    cases h' with
    | nil => exact absurd (List.nil_prefix) other'
    | @cons j _ indices' _ lt' within' =>
      have ends := within.rowMajor_add_le
      have ends' := within'.rowMajor_add_le
      simp only [rowMajor_cons, List.length_cons, List.drop_succ_cons]
      rcases Nat.lt_trichotomy i j with less | rfl | greater
      · have row : i * dims.prod + dims.prod ≤ j * dims.prod := row_le less _
        omega
      · simp only [List.cons_prefix_cons, true_and] at other other'
        rcases ih within' other other' with first | second
        · omega
        · omega
      · have row : j * dims.prod + dims.prod ≤ i * dims.prod := row_le greater _
        omega

end InRange

/-! ## Addresses in 32 bits -/

/-- The address of an element as the machine computes it: from the address of the first one, index after
index, each with the distance between elements. -/
def wrappedAddress (start : Int32) (terms : List (Int32 × Int32)) : Int32 :=
  terms.foldl (fun address term => address + term.1 * term.2) start

/-- No product and no sum of such an address leaves 32 bits. -/
def Exact : (start : Int32) → List (Int32 × Int32) → Prop
  | _, [] => True
  | start, (i, stride) :: terms =>
    (i * stride).toInt = i.toInt * stride.toInt ∧
      (start + i * stride).toInt = start.toInt + (i * stride).toInt ∧ Exact (start + i * stride) terms

/-- The distances between elements: a word times the elements of the dimensions that are left. -/
def strides : (dims : List Nat) → List Nat
  | [] => []
  | _ :: dims => Ty.wordSize * dims.prod :: strides dims

/-- The distance for an index is a word for every element behind its dimension. -/
theorem getElem?_strides {dims : List Nat} {k : Nat} (lt : k < dims.length) :
    (strides dims)[k]? = some (Ty.wordSize * (dims.drop (k + 1)).prod) := by
  induction dims generalizing k with
  | nil => cases lt
  | cons d dims ih =>
    cases k with
    | zero => rfl
    | succ k => exact ih (Nat.lt_of_succ_lt_succ lt)

/-- There is a distance for every dimension. -/
theorem length_strides (dims : List Nat) : (strides dims).length = dims.length := by
  induction dims with
  | nil => rfl
  | cons d dims ih => exact congrArg Nat.succ ih

/-- The indices with the distances that they are multiplied with. -/
def terms (dims indices : List Nat) : List (Int32 × Int32) :=
  (indices.map Int32.ofNat).zip ((strides dims).map Int32.ofNat)

/-- The address of an element is its slot in row-major order, up to what does not fit into 32 bits. -/
theorem InRange.wrappedAddress_eq {indices dims : List Nat} (h : InRange indices dims) (offset : Nat) :
    wrappedAddress (.ofNat offset) (terms dims indices) =
      .ofNat (offset + Ty.wordSize * rowMajor dims indices) := by
  induction h generalizing offset with
  | nil dims => simp [terms, wrappedAddress]
  | @cons i d indices dims _ _ ih =>
    have scaled : i * (Ty.wordSize * dims.prod) = Ty.wordSize * (i * dims.prod) := Nat.mul_left_comm _ _ _
    rw [rowMajor_cons, Nat.mul_add, ← scaled, ← Nat.add_assoc, ← ih, Int32.ofNat_add, Int32.ofNat_mul]
    rfl

/-- An array that lies within 31 bits has exact addresses. -/
theorem InRange.exact {indices dims : List Nat} (h : InRange indices dims) (positive : 0 < dims.prod)
    {offset : Nat} (fits : offset + Ty.wordSize * dims.prod ≤ 2147483647) :
    Exact (.ofNat offset) (terms dims indices) := by
  induction h generalizing offset with
  | nil dims => exact trivial
  | @cons i d indices dims lt within ih =>
    rw [List.prod_cons] at fits positive
    have positive : 0 < dims.prod := Nat.pos_of_mul_pos_left positive
    have row : i * dims.prod + dims.prod ≤ d * dims.prod := row_le lt _
    have small : i ≤ i * dims.prod := Nat.le_mul_of_pos_right i positive
    have scaled : i * (Ty.wordSize * dims.prod) = Ty.wordSize * (i * dims.prod) := Nat.mul_left_comm _ _ _
    -- From here on the distance between the rows is a number of its own.
    simp only [terms, strides, List.map_cons, List.zip_cons_cons, Exact]
    simp only [Ty.wordSize] at fits scaled ih ⊢
    generalize stride_eq : 4 * dims.prod = stride at scaled ih ⊢
    have product : Int32.ofNat i * .ofNat stride = .ofNat (i * stride) := (Int32.ofNat_mul _ _).symm
    have sum : Int32.ofNat offset + .ofNat (i * stride) = .ofNat (offset + i * stride) :=
      (Int32.ofNat_add _ _).symm
    have value : ∀ n ≤ 2147483647, (Int32.ofNat n).toInt = n :=
      fun n le => Int32.toInt_ofNat_of_lt (by omega)
    have rest := @ih positive (offset + i * stride) (by omega)
    rw [product, sum]
    refine ⟨?_, ?_, rest⟩
    · rw [value _ (by omega), value i (by omega), value stride (by omega), Int.natCast_mul]
    · rw [value _ (by omega), value offset (by omega), value _ (by omega), Int.natCast_add]

/-! ## Sizes of arrays -/

/-- The type is an array with the given dimensions, outermost first, and nothing in it is a pointer. -/
def Ty.IsArray (ty : Ty) (dims : List Nat) : Prop :=
  ty.qualifiers = dims.map .array

/-- The type of what is left after some indices. -/
def Ty.part (ty : Ty) (count : Nat) : Ty :=
  ⟨ty.primitive, ty.qualifiers.drop count⟩

/-- A part of an array is an array with the dimensions that are left. -/
theorem Ty.IsArray.part {ty : Ty} {dims : List Nat} (h : ty.IsArray dims) (count : Nat) :
    (ty.part count).IsArray (dims.drop count) := by
  simp only [IsArray, Ty.part, List.map_drop]
  rw [h]

/-- One more index takes one more qualifier off. -/
theorem Ty.element?_part {ty element : Ty} {count : Nat} (h : (ty.part count).element? = some element) :
    element = ty.part (count + 1) := by
  unfold Ty.element? at h
  split at h
  · cases h
  · rename_i q inner split
    have split : ty.qualifiers.drop count = q :: inner := split
    cases h
    rw [Ty.part, Ty.part, ← List.tail_drop, split]
    rfl

/-- An array has elements as long as a dimension is left. -/
theorem Ty.IsArray.element?_part {ty : Ty} {dims : List Nat} (h : ty.IsArray dims) {count : Nat}
    (lt : count < dims.length) : (ty.part count).element? = some (ty.part (count + 1)) := by
  have inner : (ty.part count).qualifiers = .array (dims.get ⟨count, lt⟩) :: (ty.part (count + 1)).qualifiers := by
    rw [h.part count, h.part (count + 1), List.drop_eq_getElem_cons lt]
    rfl
  unfold Ty.element?
  rw [inner]
  rfl

/-- A part has no more elements than the whole, and at least one. -/
theorem prod_drop_le {dims : List Nat} (positive : 0 < dims.prod) (count : Nat) :
    (dims.drop count).prod ≤ dims.prod ∧ 0 < (dims.drop count).prod := by
  have split : (dims.take count).prod * (dims.drop count).prod = dims.prod := List.prod_take_mul_prod_drop _ _
  rw [← split] at positive ⊢
  exact ⟨Nat.le_mul_of_pos_left _ (Nat.pos_of_mul_pos_right positive), Nat.pos_of_mul_pos_left positive⟩

namespace Ty

/-- An array has as many elements as the product of its dimensions says. -/
theorem elements_dims (dims : List Nat) : elements (dims.map .array) = dims.prod := by
  induction dims with
  | nil => rfl
  | cons d dims ih => rw [List.map_cons, elements, ih, List.prod_cons]

/-- An array with elements has no empty dimension. -/
theorem positiveLengths_dims {dims : List Nat} (positive : 0 < dims.prod) :
    positiveLengths (dims.map .array) := by
  induction dims with
  | nil => simp [positiveLengths]
  | cons d dims ih =>
    rw [List.prod_cons] at positive
    have rest := ih (Nat.pos_of_mul_pos_left positive)
    intro length mem
    rcases List.mem_cons.1 mem with first | mem
    · cases first
      exact Nat.pos_of_mul_pos_right positive
    · exact rest length mem

/-- The size of an array is a word for each of its elements. -/
theorem IsArray.size_eq {ty : Ty} {dims : List Nat} (h : ty.IsArray dims) {size : Nat}
    (sized : ty.size = .ok size) : size = wordSize * dims.prod := by
  obtain ⟨-, rfl, -⟩ := layout_of_size sized
  rw [h, elements_dims]

/-- The parts of an array have sizes, a word for each element. -/
theorem IsArray.size_part {ty : Ty} {dims : List Nat} (h : ty.IsArray dims) (positive : 0 < dims.prod)
    {size : Nat} (sized : ty.size = .ok size) (count : Nat) :
    (ty.part count).size = .ok (wordSize * (dims.drop count).prod) := by
  obtain ⟨aligned, rfl, small⟩ := layout_of_size sized
  rw [h, elements_dims] at small
  obtain ⟨le, positive'⟩ := prod_drop_le positive count
  have part : (ty.part count).qualifiers = (dims.drop count).map .array := h.part count
  have aligned' : (ty.part count).alignment = .ok wordSize := by
    obtain ⟨-, layout⟩ := alignment_eq_ok_iff.1 aligned
    have plain : .pointer ∉ ty.qualifiers := by
      rw [h]
      simp
    exact alignment_eq_ok_iff.2 ⟨rfl, .inr (layout.resolve_left plain)⟩
  rw [size_of_alignment (part ▸ positiveLengths_dims positive') aligned', part, elements_dims]
  exact if_pos (Nat.le_trans (Nat.mul_le_mul_left wordSize le) small)

/-- The distance between the parts of an array. -/
theorem IsArray.strideOf_part {ty : Ty} {dims : List Nat} (h : ty.IsArray dims) (positive : 0 < dims.prod)
    {size : Nat} (sized : ty.size = .ok size) (count : Nat) :
    strideOf (some (ty.part count)) = .ofNat (wordSize * (dims.drop count).prod) := by
  simp only [strideOf, Option.map_some, h.size_part positive sized count]

end Ty

end MiniC
