import Mathlib.Tactic.Common

/-!
# UTF-8

`Utf8.Valid l`: the bytes `l` are the encodings of some Unicode scalar values, one
after the other.  It is decided by the validator of the core library.

* `Valid.cut`: behind a byte below 128, which is a character of its own, UTF-8 can be cut.
-/

namespace Utf8

/-- The bytes are UTF-8. -/
def Valid (l : List UInt8) : Prop := l.toByteArray.IsValidUTF8

instance (l : List UInt8) : Decidable (Valid l) :=
  inferInstanceAs (Decidable l.toByteArray.IsValidUTF8)

theorem valid_nil : Valid [] := ⟨[], rfl⟩

theorem Valid.append {l l' : List UInt8} (h : Valid l) (h' : Valid l') : Valid (l ++ l') := by
  rw [Valid, List.toByteArray_append]
  exact ByteArray.IsValidUTF8.append h h'

theorem valid_iff {l : List UInt8} :
    Valid l ↔ ∃ m : List Char, l = m.flatMap String.utf8EncodeChar := by
  refine ⟨?_, ?_⟩
  · intro h
    obtain ⟨m, hm⟩ := h
    exact ⟨m, List.toByteArray_inj.mp hm⟩
  · intro h
    obtain ⟨m, rfl⟩ := h
    exact ⟨m, rfl⟩

/-! ### Cutting -/

/-- A character with a byte below 128 in its encoding is that byte. -/
theorem encode_eq_singleton {b : UInt8} (hb : b < 128) {c : Char}
    (h : b ∈ String.utf8EncodeChar c) : String.utf8EncodeChar c = [b] := by
  -- a byte of a longer encoding has its first bit set
  have hbit : ∀ a k : UInt8, 128 ≤ k → b ≠ a ||| k := by
    rintro a k hk rfl
    exact absurd (UInt8.lt_of_le_of_lt (UInt8.le_trans hk UInt8.right_le_or) hb) (UInt8.lt_irrefl _)
  match hs : c.utf8Size, c.utf8Size_pos, c.utf8Size_le_four with
  | 1, _, _ =>
    rw [String.utf8EncodeChar_eq_singleton hs] at h ⊢
    rw [List.mem_singleton.mp h]
  | 2, _, _ =>
    rw [String.utf8EncodeChar_eq_cons_cons hs] at h
    simp only [List.mem_cons, List.not_mem_nil, or_false] at h
    rcases h with h | h <;> exact absurd h (hbit _ _ (by decide))
  | 3, _, _ =>
    rw [String.utf8EncodeChar_eq_cons_cons_cons hs] at h
    simp only [List.mem_cons, List.not_mem_nil, or_false] at h
    rcases h with h | h | h <;> exact absurd h (hbit _ _ (by decide))
  | 4, _, _ =>
    rw [String.utf8EncodeChar_eq_cons_cons_cons_cons hs] at h
    simp only [List.mem_cons, List.not_mem_nil, or_false] at h
    rcases h with h | h | h | h <;> exact absurd h (hbit _ _ (by decide))

theorem valid_encode (c : Char) : Valid (String.utf8EncodeChar c) :=
  valid_iff.mpr ⟨[c], by rw [List.flatMap_singleton]⟩

/-- **UTF-8 can be cut behind a byte below 128.** -/
theorem Valid.cut {b : UInt8} (hb : b < 128) {Q S : List UInt8} (h : Valid (Q ++ b :: S)) :
    Valid (Q ++ [b]) ∧ Valid S := by
  obtain ⟨m, hm⟩ := valid_iff.mp h
  clear h
  induction m generalizing Q with
  | nil => simp at hm
  | cons c m ih =>
    rw [List.flatMap_cons] at hm
    -- the first character ends before `b`, or `b` is a byte of it
    have hcases : (∃ Q', Q = String.utf8EncodeChar c ++ Q' ∧
          Q' ++ b :: S = m.flatMap String.utf8EncodeChar) ∨
        ∃ T, String.utf8EncodeChar c = Q ++ b :: T ∧ S = T ++ m.flatMap String.utf8EncodeChar := by
      rcases List.append_eq_append_iff.mp hm with ⟨_ | ⟨a, T⟩, hc, hS⟩ | ⟨Q', hQ, hS⟩
      · exact Or.inl ⟨[], by rw [hc]; simp, hS⟩
      · obtain ⟨rfl, hS'⟩ := List.cons.inj hS
        exact Or.inr ⟨T, hc, hS'⟩
      · exact Or.inl ⟨Q', hQ, hS.symm⟩
    rcases hcases with ⟨Q', rfl, hQ'⟩ | ⟨T, hc, rfl⟩
    · obtain ⟨hfirst, hrest⟩ := ih hQ'
      rw [List.append_assoc]
      exact ⟨(valid_encode c).append hfirst, hrest⟩
    · have hsingle : String.utf8EncodeChar c = [b] := encode_eq_singleton hb (by rw [hc]; simp)
      rw [hsingle] at hc
      obtain ⟨rfl, hT⟩ | ⟨-, hT⟩ := List.singleton_eq_append_iff.mp hc
      · obtain rfl : T = [] := by simpa using hT
        exact ⟨hsingle ▸ valid_encode c, valid_iff.mpr ⟨m, rfl⟩⟩
      · cases hT

end Utf8
