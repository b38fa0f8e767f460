import Mathlib.Data.Nat.Basic
import Mathlib.Tactic.Common

/-!
# Streams

A stream is the sequence of what is still to come, finite or not.  `Passes rest D rest'`
says that `D` comes first and `rest'` after it; `UpTo b rest D rest'`, that `D` comes up to
the first `b`, or to the end of the stream when there is none.

* `UpTo.unique`: the stream alone says how far that is.
-/

namespace NotIo

variable {α : Type*} {rest rest' rest'' : ℕ → Option α} {D D' : List α}

/-- The stream `rest` begins with `D`, and `rest'` is what follows. -/
structure Passes (rest : ℕ → Option α) (D : List α) (rest' : ℕ → Option α) : Prop where
  shows : ∀ i, i < D.length → rest i = D[i]?
  follows : ∀ i, rest' i = rest (D.length + i)

namespace Passes

theorem refl (rest : ℕ → Option α) : Passes rest [] rest := ⟨nofun, fun _ => by simp⟩

theorem trans (h : Passes rest D rest') (h' : Passes rest' D' rest'') :
    Passes rest (D ++ D') rest'' := by
  refine ⟨?_, ?_⟩
  · intro i hi
    by_cases hlt : i < D.length
    · rw [List.getElem?_append_left hlt]
      exact h.shows i hlt
    · have hge := not_lt.mp hlt
      rw [List.length_append] at hi
      rw [List.getElem?_append_right hge, ← h'.shows (i - D.length) (by omega), h.follows]
      congr 1
      omega
  · intro i
    rw [h'.follows, h.follows, List.length_append, Nat.add_assoc]

/-- What a stream shows is known as far as it is shown. -/
theorem take (h : Passes rest D rest') {k : ℕ} {D' : List α} (h' : Passes rest D' rest'')
    (hlen : D'.length = min k D.length) : D' = D.take k := by
  apply List.ext_getElem?
  intro i
  by_cases hi : i < D'.length
  · rw [List.getElem?_take_of_lt (by omega), ← h'.shows i hi, ← h.shows i (by omega)]
  · rw [List.getElem?_eq_none (by omega), List.getElem?_eq_none (by rw [List.length_take]; omega)]

/-- What comes first in a list. -/
theorem of_list {l : List α} (h : Passes (fun i => l[i]?) D rest') :
    ∃ l', l = D ++ l' ∧ rest' = fun i => l'[i]? := by
  have htake : D = l.take D.length := by
    apply List.ext_getElem?
    intro i
    by_cases hi : i < D.length
    · rw [← h.shows i hi, List.getElem?_take_of_lt hi]
    · rw [List.getElem?_eq_none (not_lt.mp hi),
        List.getElem?_eq_none (le_trans (List.length_take_le _ _) (not_lt.mp hi))]
  refine ⟨l.drop D.length, ?_, ?_⟩
  · conv_lhs => rw [← List.take_append_drop D.length l, ← htake]
  · funext i
    rw [h.follows, List.getElem?_drop]

/-- What comes first and what follows are the whole stream. -/
theorem to_list {l : List α} (h : Passes rest D fun i => l[i]?) : rest = fun i => (D ++ l)[i]? := by
  funext i
  by_cases hi : i < D.length
  · rw [h.shows i hi, List.getElem?_append_left hi]
  · have hf := h.follows (i - D.length)
    rw [show D.length + (i - D.length) = i by omega] at hf
    rw [← hf, List.getElem?_append_right (not_lt.mp hi)]

theorem list (D l : List α) : Passes (fun i => (D ++ l)[i]?) D (fun i => l[i]?) := by
  refine ⟨?_, ?_⟩
  · intro i hi
    exact List.getElem?_append_left hi
  · intro i
    rw [List.getElem?_append_right (Nat.le_add_right _ _), Nat.add_sub_cancel_left]

end Passes

/-- The stream `rest` with `D` in front of it. -/
def prepend (D : List α) (rest : ℕ → Option α) : ℕ → Option α :=
  fun i => if i < D.length then D[i]? else rest (i - D.length)

theorem prepend_nil (rest : ℕ → Option α) : prepend [] rest = rest := rfl

theorem Passes.prepend (D : List α) (rest : ℕ → Option α) : Passes (prepend D rest) D rest := by
  refine ⟨?_, ?_⟩
  · intro i hi
    exact if_pos hi
  · intro i
    rw [NotIo.prepend, if_neg (by omega), Nat.add_sub_cancel_left]

theorem Passes.eq_prepend (h : Passes rest D rest') : NotIo.prepend D rest' = rest := by
  funext i
  by_cases hi : i < D.length
  · rw [NotIo.prepend, if_pos hi, h.shows i hi]
  · rw [NotIo.prepend, if_neg hi, h.follows]
    congr 1
    omega

theorem prepend_append (D D' : List α) (rest : ℕ → Option α) :
    prepend (D ++ D') rest = prepend D (prepend D' rest) :=
  ((Passes.prepend D _).trans (Passes.prepend D' rest)).eq_prepend

/-! ### Ends and cuts -/

/-- Nothing is to come. -/
def Ended (rest : ℕ → Option α) : Prop := ∀ i, rest i = none

theorem Ended.eq_nil {l : List α} (h : Ended fun i => l[i]?) : l = [] :=
  List.eq_nil_of_length_eq_zero (Nat.le_zero.mp (List.getElem?_eq_none_iff.mp (h 0)))

theorem Ended.prepend_eq_nil (h : Ended (prepend D rest)) : D = [] := by
  cases D with
  | nil => rfl
  | cons a D =>
    have hpos : 0 < (a :: D).length := by simp
    have h0 := h 0
    rw [prepend, if_pos hpos] at h0
    cases h0

/-- The first `n` elements of a stream. -/
def first (n : ℕ) (rest : ℕ → Option α) : ℕ → Option α := fun i => if i < n then rest i else none

theorem ended_first_zero (rest : ℕ → Option α) : Ended (first 0 rest) :=
  fun i => if_neg (Nat.not_lt_zero i)

theorem Ended.first (h : Ended rest) (n : ℕ) : Ended (first n rest) := by
  intro i
  rw [NotIo.first, h i, ite_self]

theorem Passes.first (h : Passes rest D rest') {n : ℕ} (hn : D.length ≤ n) :
    Passes (first n rest) D (first (n - D.length) rest') := by
  refine ⟨?_, ?_⟩
  · intro i hi
    rw [NotIo.first, if_pos (by omega)]
    exact h.shows i hi
  · intro i
    rw [NotIo.first, NotIo.first, h.follows]
    by_cases hi : i < n - D.length
    · rw [if_pos hi, if_pos (by omega)]
    · rw [if_neg hi, if_neg (by omega)]

/-- What comes first is a list by itself. -/
theorem Passes.first_length (h : Passes rest D rest') : NotIo.first D.length rest = fun i => D[i]? := by
  have hfirst := h.first (le_refl D.length)
  rw [Nat.sub_self, show NotIo.first 0 rest' = fun i => ([] : List α)[i]? from
    funext fun i => ended_first_zero rest' i] at hfirst
  rw [hfirst.to_list, List.append_nil]

/-! ### Up to a delimiter -/

theorem mem_dropLast_append {a : α} (h : a ∈ (D ++ D').dropLast) : a ∈ D ∨ a ∈ D'.dropLast := by
  cases D' with
  | nil =>
    rw [List.append_nil] at h
    exact Or.inl (List.dropLast_subset D h)
  | cons b S =>
    rwa [List.dropLast_append_of_ne_nil (List.cons_ne_nil b S), List.mem_append] at h

/-- `D` is what comes up to the first `b`, with the `b`, or all that comes when there is no `b`. -/
structure UpTo (b : α) (rest : ℕ → Option α) (D : List α) (rest' : ℕ → Option α) : Prop where
  passes : Passes rest D rest'
  stops : (∃ Q, D = Q ++ [b] ∧ b ∉ Q) ∨ (b ∉ D ∧ Ended rest')

namespace UpTo

variable {b : α}

theorem not_mem_dropLast (h : UpTo b rest D rest') : b ∉ D.dropLast := by
  obtain ⟨Q, rfl, hQ⟩ | ⟨hD, -⟩ := h.stops
  · rwa [List.dropLast_concat]
  · exact fun hmem => hD (List.dropLast_subset D hmem)

/-- Nothing that stops at a `b` at the latest goes further. -/
theorem length_le (h : UpTo b rest D rest') (h' : Passes rest D' rest'') (hD' : b ∉ D'.dropLast) :
    D'.length ≤ D.length := by
  by_contra hlt
  have hshort : D = D'.take D.length := h'.take h.passes (by omega)
  obtain ⟨Q, hQ, -⟩ | ⟨-, hend⟩ := h.stops
  · -- the `b` at the end of `D` is not the last of `D'`
    apply hD'
    have hb : b ∈ D'.take D.length := by
      rw [← hshort, hQ]
      exact List.mem_append_right _ (List.mem_singleton_self b)
    rw [List.dropLast_eq_take]
    exact (List.take_subset_take_left D' (by omega)) hb
  · have hnone := h.passes.follows 0
    rw [hend 0, Nat.add_zero, h'.shows _ (by omega), List.getElem?_eq_getElem (by omega)] at hnone
    cases hnone

/-- **How far it is to the delimiter depends on the stream only.** -/
theorem unique (h : UpTo b rest D rest') (h' : UpTo b rest D' rest'') : D = D' ∧ rest' = rest'' := by
  have hle := h.length_le h'.passes h'.not_mem_dropLast
  have hle' := h'.length_le h.passes h.not_mem_dropLast
  have hsame : D = D'.take D.length := h'.passes.take h.passes (by omega)
  rw [show D.length = D'.length by omega, List.take_length] at hsame
  refine ⟨hsame, ?_⟩
  funext i
  rw [h.passes.follows, h'.passes.follows, hsame]

/-- There is a way up to the delimiter in every list. -/
theorem exists_of_list (b : α) (l : List α) :
    ∃ D l', l = D ++ l' ∧ UpTo b (fun i => l[i]?) D (fun i => l'[i]?) := by
  by_cases hb : b ∈ l
  · obtain ⟨Q, S, rfl, hQ⟩ := List.eq_append_cons_of_mem hb
    have hsplit : Q ++ b :: S = (Q ++ [b]) ++ S := by rw [List.append_assoc]; rfl
    refine ⟨Q ++ [b], S, hsplit, ?_, Or.inl ⟨Q, rfl, hQ⟩⟩
    rw [hsplit]
    exact Passes.list _ _
  · refine ⟨l, [], (List.append_nil l).symm, ?_, Or.inr ⟨hb, fun _ => List.getElem?_nil⟩⟩
    have hall := Passes.list l []
    rwa [List.append_nil] at hall

end UpTo

end NotIo
