import Mathlib.Data.List.Basic
import Mathlib.Data.Nat.Basic

/-!
# Files with a position

A `File` is a list of elements with a position, which may lie past the end.  It is
written to in one of two ways:

* `File.store`: the file keeps its length and takes what fits.
* `File.write`: the file grows; a gap between its end and the position is filled up.

Both put the elements in place by `splice`, which is described element by element
(`getElem?_splice`).
-/

variable {α : Type*}

/-- `l` with `b` in the place of what stands at `p`. -/
def splice (l : List α) (p : ℕ) (b : List α) : List α := l.take p ++ b ++ l.drop (p + b.length)

theorem splice_nil (l : List α) (p : ℕ) : splice l p [] = l := by
  rw [splice, List.append_nil, List.length_nil, Nat.add_zero, List.take_append_drop]

theorem splice_length {l b : List α} {p : ℕ} (h : p ≤ l.length) :
    (splice l p b).length = max l.length (p + b.length) := by
  simp only [splice, List.length_append, List.length_take, List.length_drop]
  omega

theorem getElem?_splice {l b : List α} {p : ℕ} (h : p ≤ l.length) (i : ℕ) :
    (splice l p b)[i]? =
      if i < p then l[i]? else if i < p + b.length then b[i - p]? else l[i]? := by
  have hp : (l.take p).length = p := by rw [List.length_take, Nat.min_eq_left h]
  rw [splice, List.append_assoc, List.getElem?_append, hp]
  by_cases hlt : i < p
  · rw [if_pos hlt, if_pos hlt, List.getElem?_take_of_lt hlt]
  · rw [if_neg hlt, if_neg hlt, List.getElem?_append]
    by_cases hin : i < p + b.length
    · rw [if_pos (by omega), if_pos hin]
    · rw [if_neg (by omega), if_neg hin, List.getElem?_drop]
      congr 1
      omega

/-- Past the end, nothing is put in place. -/
theorem splice_min {l b : List α} {p : ℕ} (h : b.length ≤ l.length - p) :
    splice l (min p l.length) b = splice l p b := by
  by_cases hp : p ≤ l.length
  · rw [Nat.min_eq_left hp]
  · obtain rfl : b = [] := List.eq_nil_of_length_eq_zero (by omega)
    rw [splice_nil, splice_nil]

/-- What is put in place up to the end may be put in place and appended in two pieces. -/
theorem splice_append {l a b : List α} {p : ℕ} (hb : b = [] ∨ p + a.length = l.length) :
    splice l p a ++ b = splice l p (a ++ b) := by
  rcases hb with rfl | hb
  · simp
  · simp only [splice, List.length_append]
    rw [List.drop_of_length_le (by omega), List.drop_of_length_le (by omega)]
    simp

/-- What is put in place piece by piece. -/
theorem splice_splice {l a : List α} {p : ℕ} (h : p ≤ l.length) (b : List α) :
    splice (splice l p a) (p + a.length) b = splice l p (a ++ b) := by
  have hlen : p + a.length ≤ (splice l p a).length := by
    rw [splice_length h]
    exact Nat.le_max_right _ _
  apply List.ext_getElem?
  intro i
  rw [getElem?_splice hlen, getElem?_splice h, getElem?_splice h, List.getElem?_append,
    List.length_append]
  split_ifs <;> first | rfl | omega | (congr 1; omega)

/-- A file with a position. -/
@[ext] structure File (α : Type*) where
  contents : List α
  position : ℕ

namespace File

/-- How much fits between the position and the end. -/
def room (f : File α) : ℕ := f.contents.length - f.position

/-- What stands from the position on. -/
def rest (f : File α) : List α := f.contents.drop f.position

@[simp] theorem rest_length (f : File α) : f.rest.length = f.room := List.length_drop

def advance (f : File α) (n : ℕ) : File α := ⟨f.contents, f.position + n⟩

theorem advance_advance (f : File α) (n m : ℕ) : (f.advance n).advance m = f.advance (n + m) := by
  simp only [advance, Nat.add_assoc]

theorem rest_advance (f : File α) (n : ℕ) : (f.advance n).rest = f.rest.drop n := by
  simp only [advance, rest, List.drop_drop]

/-- The file with the position moved to `z`, where that is a position below `bound`. -/
def seekTo (bound : ℕ) (f : File α) (z : ℤ) : Option (File α) :=
  if 0 ≤ z ∧ z.toNat < bound then some ⟨f.contents, z.toNat⟩ else none

theorem seekTo_some {bound : ℕ} {z : ℤ} {n : ℕ} (f : File α) (hz : z = n) (hn : n < bound) :
    f.seekTo bound z = some ⟨f.contents, n⟩ := by
  subst hz
  exact if_pos ⟨Int.natCast_nonneg n, hn⟩

theorem position_lt_of_seekTo {bound : ℕ} {z : ℤ} {f g : File α} (h : f.seekTo bound z = some g) :
    g.position < bound := by
  unfold seekTo at h
  split at h
  · rw [Option.some.injEq] at h
    subst h
    exact (‹_ ∧ _› : 0 ≤ z ∧ z.toNat < bound).2
  · cases h

theorem seekTo_none (f : File α) (bound : ℕ) {z : ℤ} (hz : z < 0 ∨ bound ≤ z.toNat) :
    f.seekTo bound z = none := if_neg (by omega)

/-! ### Files of a fixed length -/

/-- What fits of `b` is stored at the position. -/
def store (f : File α) (b : List α) : File α :=
  ⟨splice f.contents f.position (b.take f.room), f.position + min f.room b.length⟩

theorem store_nil (f : File α) : f.store [] = f := by
  simp [store, splice_nil]

theorem store_of_le {f : File α} {b : List α} (h : b.length ≤ f.room) :
    f.store b = ⟨splice f.contents f.position b, f.position + b.length⟩ := by
  rw [store, List.take_of_length_le h, Nat.min_eq_right h]

/-- A file of a fixed length keeps it. -/
theorem store_length (f : File α) (b : List α) :
    (f.store b).contents.length = f.contents.length := by
  by_cases h : f.position ≤ f.contents.length
  · rw [store, splice_length h, List.length_take, room]
    omega
  · have hroom : f.room = 0 := by rw [room]; omega
    rw [store, hroom, List.take_zero, splice_nil]

theorem store_room (f : File α) (b : List α) : (f.store b).room = f.room - b.length := by
  rw [room, store_length]
  simp only [store, room]
  omega

/-- What fits may be stored in two pieces. -/
theorem store_store {f : File α} {a b : List α} (h : a.length + b.length ≤ f.room) :
    (f.store a).store b = f.store (a ++ b) := by
  by_cases hpos : f.position ≤ f.contents.length
  · have hroom := store_room f a
    have ha := store_of_le (f := f) (b := a) (by omega)
    have hb := store_of_le (f := f.store a) (b := b) (by omega)
    have hab := store_of_le (f := f) (b := a ++ b) (by rw [List.length_append]; omega)
    rw [hb, hab, ha]
    simp only [splice_splice hpos, List.length_append, Nat.add_assoc]
  · have hroom : f.room = 0 := by rw [room]; omega
    obtain rfl : a = [] := List.eq_nil_of_length_eq_zero (by omega)
    rw [store_nil, List.nil_append]

/-! ### Files that grow -/

/-- `b` is written at the position, behind a gap filled up with `z` if there is one. -/
def write (z : α) (f : File α) (b : List α) : File α :=
  ⟨splice (f.contents ++ List.replicate (f.position - f.contents.length) z) f.position b,
    f.position + b.length⟩

theorem write_length (z : α) (f : File α) (b : List α) :
    (f.write z b).contents.length = max f.contents.length (f.position + b.length) := by
  rw [write, splice_length (by simp; omega)]
  simp only [List.length_append, List.length_replicate]
  omega

/-- Within the file, growing or not makes no difference. -/
theorem write_eq_store (z : α) {f : File α} {b : List α} (hpos : f.position ≤ f.contents.length)
    (hb : b.length ≤ f.room) : f.write z b = f.store b := by
  rw [store_of_le hb, write, Nat.sub_eq_zero_of_le hpos, List.replicate_zero, List.append_nil]

/-- A write may be made in two pieces. -/
theorem write_write (z : α) (f : File α) (a b : List α) :
    (f.write z a).write z b = f.write z (a ++ b) := by
  have hgap : f.position ≤ (f.contents ++ List.replicate (f.position - f.contents.length) z).length := by
    rw [List.length_append, List.length_replicate]
    omega
  have hfull : (f.write z a).position ≤ (f.write z a).contents.length := by
    rw [write_length]
    exact Nat.le_max_right _ _
  rw [write, Nat.sub_eq_zero_of_le hfull, List.replicate_zero, List.append_nil]
  simp only [write, splice_splice hgap, List.length_append, Nat.add_assoc]

/-- **A write, element by element.** -/
theorem getElem?_write (z : α) (f : File α) (b : List α) (i : ℕ) :
    (f.write z b).contents[i]? =
      if f.position ≤ i ∧ i < f.position + b.length then b[i - f.position]?
      else if f.contents.length ≤ i ∧ i < f.position then some z
      else f.contents[i]? := by
  rw [write, getElem?_splice (by simp; omega), List.getElem?_append, List.getElem?_replicate]
  by_cases hin : f.position ≤ i ∧ i < f.position + b.length
  · rw [if_pos hin, if_neg (by omega), if_pos hin.2]
  · rw [if_neg hin]
    by_cases hgap : f.contents.length ≤ i ∧ i < f.position
    · rw [if_pos hgap, if_pos hgap.2, if_neg (by omega), if_pos (by omega)]
    · have hlast : i < f.contents.length ∨ f.position ≤ i := by omega
      rw [if_neg hgap]
      by_cases hlt : i < f.contents.length
      · by_cases hp : i < f.position
        · rw [if_pos hp, if_pos hlt]
        · rw [if_neg hp, if_neg (by omega), if_pos hlt]
      · rw [if_neg (by omega), if_neg (by omega), if_neg hlt, if_neg (by omega)]
        rw [List.getElem?_eq_none (by omega)]

end File
