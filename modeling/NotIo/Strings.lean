import NotIo.ReadToEnd
import NotIo.ReadUntil

/-!
# Reading into strings

`append_to_string` lends the vector of the string to `read_to_end` or `read_until`, and
checks afterwards what they have appended.  Its `Utf8Guard` is there to take the bytes
back when they are not UTF-8, but it has no `Drop`, so they stay
(`appendToString_eq`).  `StringLaw` is what the call should come to; it is met exactly
when the appended bytes are UTF-8 (`string_reads_law`), and a string that holds no
UTF-8 comes out otherwise.
-/

namespace NotIo

section

variable [Target] {E R : Type} [ErrorImpl E]

/-- What reading into a string should come to: `old` and `new` are its bytes before and
after, `A` the bytes that the inner read has appended, `ret` and `out` how the inner read
and the call have ended. -/
structure StringLaw (old A : List UInt8) (ret : Outcome E ℕ) (new : List UInt8)
    (out : Outcome E ℕ) : Prop where
  valid : Utf8.Valid new
  old_or_all : new = old ∨ new = old ++ A
  all_iff : new = old ++ A ↔ Utf8.Valid A
  rollback : ¬ Utf8.Valid A → new = old
  error : ¬ Utf8.Valid A → out = ret.andThen fun _ => .err (Error.ofErrorKind .invalidData)

/-- **`append_to_string` keeps whatever was appended**; only its result depends on the check. -/
theorem appendToString_eq {r r' : R} {s : Str} {reader : R → Vec → Option (R × Vec × Outcome E ℕ)}
    {v : Vec} {ret : Outcome E ℕ} {A : List UInt8} (h : reader r s.vec = some (r', v, ret))
    (hret : ret ≠ .panic) (hv : v.bytes = s.vec.bytes ++ A) :
    appendToString r s reader = some (r', v,
      if Utf8.Valid A then ret else ret.andThen fun _ => .err (Error.ofErrorKind .invalidData)) := by
  have hs : splitAt v.bytes s.vec.bytes.length = some (s.vec.bytes, A) := by
    rw [hv, splitAt_of_le (by simp), List.take_left, List.drop_left]
  cases ret with
  | panic => exact absurd rfl hret
  | ok n =>
    by_cases hA : Utf8.Valid A <;>
      simp [appendToString, h, Vec.len, hs, fromUtf8IsErr, hA, Utf8Guard.drop]
  | err e =>
    by_cases hA : Utf8.Valid A <;>
      simp [appendToString, h, Vec.len, hs, fromUtf8IsErr, hA, Utf8Guard.drop]

/-- A panic of the inner read goes through. -/
theorem appendToString_panic {r r' : R} {s : Str}
    {reader : R → Vec → Option (R × Vec × Outcome E ℕ)} {v : Vec}
    (h : reader r s.vec = some (r', v, .panic)) :
    appendToString r s reader = some (r', v, .panic) := by
  simp [appendToString, h, Utf8Guard.drop]

/-- **The law is met exactly when the appended bytes are UTF-8**, for any inner read that
appends. -/
theorem appendToString_law {r r' : R} {s : Str} {new : Vec} {out : Outcome E ℕ}
    {reader : R → Vec → Option (R × Vec × Outcome E ℕ)}
    (happ : ∀ r' v ret, reader r s.vec = some (r', v, ret) → ∃ A, v.bytes = s.vec.bytes ++ A)
    (h : appendToString r s reader = some (r', new, out)) (hout : out ≠ .panic) :
    ∃ v ret A, reader r s.vec = some (r', v, ret) ∧ v.bytes = s.vec.bytes ++ A ∧
      (StringLaw s.vec.bytes A ret new.bytes out ↔ Utf8.Valid A) := by
  cases hr : reader r s.vec with
  | none => simp [appendToString, hr] at h
  | some res =>
    obtain ⟨r₁, v, ret⟩ := res
    obtain ⟨A, hA⟩ := happ r₁ v ret hr
    have hret : ret ≠ .panic := by
      intro heq
      subst heq
      rw [appendToString_panic hr] at h
      simp only [Option.some.injEq, Prod.mk.injEq] at h
      exact hout h.2.2.symm
    rw [appendToString_eq hr hret hA] at h
    simp only [Option.some.injEq, Prod.mk.injEq] at h
    obtain ⟨rfl, rfl, rfl⟩ := h
    refine ⟨v, ret, A, rfl, hA, fun hlaw => hlaw.all_iff.mp hA, ?_⟩
    intro hvalid
    refine ⟨?_, Or.inr hA, ⟨fun _ => hvalid, fun _ => hA⟩, fun h => absurd hvalid h,
      fun h => absurd hvalid h⟩
    rw [hA]
    exact s.valid.append hvalid

/-! ### The two reads -/

theorem readToEnd_bytes [Alloc] [Read E R] {fuel : ℕ} {r r' : R} {v v' : Vec}
    {out : Outcome E ℕ} (h : readToEnd fuel r v = some (r', v', out)) :
    ∃ A, v'.bytes = v.bytes ++ A := by
  obtain ⟨log, -, hs⟩ := readToEnd_exit h
  exact ⟨_, hs.bytes⟩

/-- **`read_to_string` and `read_line` meet the law exactly when the bytes that the inner
read has appended are UTF-8.** -/
theorem string_reads_law [Alloc] {B : Type} [Read E R] [BufRead E B] (fuel : ℕ) (r : R) (b : B)
    (s : Str) :
    (∀ r' new out, readToString (E := E) fuel r s = some (r', new, out) → out ≠ .panic →
      ∃ v ret A, readToEnd fuel r s.vec = some (r', v, ret) ∧ v.bytes = s.vec.bytes ++ A ∧
        (StringLaw s.vec.bytes A ret new.bytes out ↔ Utf8.Valid A)) ∧
    (∀ b' new out, readLine (E := E) fuel b s = some (b', new, out) → out ≠ .panic →
      ∃ v ret A, readUntil fuel b newline s.vec = some (b', v, ret) ∧
        v.bytes = s.vec.bytes ++ A ∧
        (StringLaw s.vec.bytes A ret new.bytes out ↔ Utf8.Valid A)) := by
  constructor
  · intro r' new out h hout
    exact appendToString_law (fun _ _ _ hr => readToEnd_bytes hr) h hout
  · intro b' new out h hout
    have happ : ∀ b' v ret, readUntil (E := E) fuel b newline s.vec = some (b', v, ret) →
        ∃ A, v.bytes = s.vec.bytes ++ A := fun _ _ _ hr => readUntil_appends hr
    unfold readLine at h
    exact appendToString_law happ h hout

end

open Machine64

/-- A byte that starts no character stays in the string. -/
theorem string_reads_keep_invalid :
    (∃ r new, readToString 3 (⟨[0xFE], by decide⟩ : Slice) Str.new
        = some (r, new, .err (⟨.kind .invalidData⟩ : ImplsNostd.Error)) ∧
      ∀ A ret, ¬ StringLaw [] A ret new.bytes (.err (⟨.kind .invalidData⟩ : ImplsNostd.Error))) ∧
    (∃ b new, readLine 3 (⟨[0xFE], by decide⟩ : Slice) Str.new
        = some (b, new, .err (⟨.kind .invalidData⟩ : ImplsNostd.Error)) ∧
      ∀ A ret, ¬ StringLaw [] A ret new.bytes (.err (⟨.kind .invalidData⟩ : ImplsNostd.Error))) := by
  have hbad : ¬ Utf8.Valid [0xFE] := by decide
  refine ⟨⟨Slice.empty, ⟨[0xFE], 32, by decide, by decide⟩, by decide +kernel, ?_⟩,
    ⟨Slice.empty, ⟨[0xFE], 1, by decide, by decide⟩, by decide +kernel, ?_⟩⟩
  · intro A ret h
    exact hbad h.valid
  · intro A ret h
    exact hbad h.valid

/-- `String::from("A")`. -/
def Str.letterA : Str := ⟨⟨[0x41], 1, by decide, by decide⟩, by decide⟩

/-- Both reads meet the law on a character of two bytes, behind another one; `read_line` stops
behind the newline. -/
theorem string_reads_law_twoBytes :
    (readToString 3 (⟨[0xC3, 0xA9], by decide⟩ : Slice) Str.letterA
        = some (Slice.empty, ⟨[0x41, 0xC3, 0xA9], 33, by decide, by decide⟩,
          (.ok 2 : Outcome ImplsNostd.Error ℕ)) ∧
      StringLaw [0x41] [0xC3, 0xA9] (.ok 2) [0x41, 0xC3, 0xA9]
        (.ok 2 : Outcome ImplsNostd.Error ℕ)) ∧
    (readLine 3 (⟨[0xC3, 0xA9, 10, 0x78], by decide⟩ : Slice) Str.letterA
        = some (⟨[0x78], by decide⟩, ⟨[0x41, 0xC3, 0xA9, 10], 4, by decide, by decide⟩,
          (.ok 3 : Outcome ImplsNostd.Error ℕ)) ∧
      StringLaw [0x41] [0xC3, 0xA9, 10] (.ok 3) [0x41, 0xC3, 0xA9, 10]
        (.ok 3 : Outcome ImplsNostd.Error ℕ)) := by
  have h := string_reads_law (E := ImplsNostd.Error) 3 (⟨[0xC3, 0xA9], by decide⟩ : Slice)
    (⟨[0xC3, 0xA9, 10, 0x78], by decide⟩ : Slice) Str.letterA
  constructor
  · have hrun : readToString 3 (⟨[0xC3, 0xA9], by decide⟩ : Slice) Str.letterA
        = some (Slice.empty, ⟨[0x41, 0xC3, 0xA9], 33, by decide, by decide⟩,
          (.ok 2 : Outcome ImplsNostd.Error ℕ)) := by decide +kernel
    refine ⟨hrun, ?_⟩
    obtain ⟨v, ret, A, hread, hA, hlaw⟩ := h.1 _ _ _ hrun (by simp)
    have hinner : readToEnd 3 (⟨[0xC3, 0xA9], by decide⟩ : Slice) Str.letterA.vec
        = some (Slice.empty, ⟨[0x41, 0xC3, 0xA9], 33, by decide, by decide⟩,
          (.ok 2 : Outcome ImplsNostd.Error ℕ)) := by decide +kernel
    rw [hinner, Option.some.injEq, Prod.mk.injEq, Prod.mk.injEq] at hread
    obtain ⟨-, rfl, rfl⟩ := hread
    obtain rfl : [0xC3, 0xA9] = A :=
      List.append_cancel_left (show [0x41] ++ [0xC3, 0xA9] = [0x41] ++ A from hA)
    exact hlaw.mpr (by decide)
  · have hrun : readLine 3 (⟨[0xC3, 0xA9, 10, 0x78], by decide⟩ : Slice) Str.letterA
        = some (⟨[0x78], by decide⟩, ⟨[0x41, 0xC3, 0xA9, 10], 4, by decide, by decide⟩,
          (.ok 3 : Outcome ImplsNostd.Error ℕ)) := by decide +kernel
    refine ⟨hrun, ?_⟩
    obtain ⟨v, ret, A, hread, hA, hlaw⟩ := h.2 _ _ _ hrun (by simp)
    have hinner : readUntil 3 (⟨[0xC3, 0xA9, 10, 0x78], by decide⟩ : Slice) newline Str.letterA.vec
        = some (⟨[0x78], by decide⟩, ⟨[0x41, 0xC3, 0xA9, 10], 4, by decide, by decide⟩,
          (.ok 3 : Outcome ImplsNostd.Error ℕ)) := by decide +kernel
    rw [hinner, Option.some.injEq, Prod.mk.injEq, Prod.mk.injEq] at hread
    obtain ⟨-, rfl, rfl⟩ := hread
    obtain rfl : [0xC3, 0xA9, 10] = A :=
      List.append_cancel_left (show [0x41] ++ [0xC3, 0xA9, 10] = [0x41] ++ A from hA)
    exact hlaw.mpr (by decide)

end NotIo
