import NotIo.Strings
import NotIo.Chunks

/-!
# Lines

`readLines` calls `read_line` on empty strings until it returns `Ok(0)`.

* `lines_lossless`: on a stream of UTF-8, in whatever chunks, the lines are the text.
-/

namespace NotIo

open Loop (Step)

section

variable [Target] {E R : Type} [ErrorImpl E] [BufRead E R]

/-! ### Readers without errors -/

/-- On the way from `r` there are no errors. -/
def ErrorFree (E : Type) {R : Type} [BufRead E R] [ErrorImpl E] (r : R) : Prop :=
  ∀ D r₁ r' (e : E), Way E r D r₁ → BufRead.fillBuf r₁ ≠ (r', .err e)

theorem Way.trans {r r₁ r₂ : R} {D D' : List UInt8} (h : Way E r D r₁) (h' : Way E r₁ D' r₂) :
    Way E r (D ++ D') r₂ := by
  induction h' with
  | refl => rwa [List.append_nil]
  | chunk _ hfill hle hc ih =>
    rw [← List.append_assoc]
    exact ih.chunk hfill hle hc
  | interruption _ hfill hint ih => exact ih.interruption hfill hint

theorem ErrorFree.of_way {r r₁ : R} {D : List UInt8} (h : ErrorFree E r) (hway : Way E r D r₁) :
    ErrorFree E r₁ :=
  fun _ r₂ r' e hway' => h _ r₂ r' e (hway.trans hway')

theorem ErrorFree.interruptedFinitely {r : R} (h : ErrorFree E r) : InterruptedFinitely E r := by
  intro D r₁ hway
  refine ⟨r₁, ?_⟩
  intro r' hint
  obtain ⟨e, hfill, -⟩ := hint
  exact absurd hfill (h D r₁ r' e hway)

/-! ### The calls -/

variable [Alloc]

theorem readLine_mono (r : R) (s : Str) : Loop.Mono fun n => readLine (E := E) n r s := by
  intro n m res hnm h
  cases hr : readUntil (E := E) n r newline s.vec with
  | none => simp [readLine, appendToString, hr] at h
  | some x =>
    have hm : readUntil (E := E) m r newline s.vec = some x := Loop.loop_mono _ _ hnm hr
    simp only [readLine, appendToString, hr] at h
    simp only [readLine, appendToString, hm]
    exact h

/-- One more line, read into an empty string of any capacity. -/
def readLinesBody (E : Type) {R : Type} [ErrorImpl E] [BufRead E R]
    (fresh : ℕ → {s : Str // s.vec.bytes = []}) (fuel : ℕ) (s : R × List (Vec × ℕ)) :
    Option (Step (R × List (Vec × ℕ)) (R × List (Vec × ℕ) × Outcome E Vec)) :=
  let (r, lines) := s
  match readLine (E := E) fuel r (fresh lines.length).val with
  | none => none
  | some (r, line, .ok 0) => some (.done (r, lines, .ok line))
  | some (r, line, .ok k) => some (.next (r, lines ++ [(line, k)]))
  | some (r, _, .err e) => some (.done (r, lines, .err e))
  | some (r, _, .panic) => some (.done (r, lines, .panic))

/-- `read_line` until it returns `Ok(0)`: the lines with what was returned for them, and the
string that is left at the end. -/
def readLines (E : Type) {R : Type} [ErrorImpl E] [BufRead E R]
    (fresh : ℕ → {s : Str // s.vec.bytes = []}) (fuel : ℕ) (r : R) :
    Option (R × List (Vec × ℕ) × Outcome E Vec) :=
  Loop.run (readLinesBody E fresh) fuel (r, [])

theorem readLinesBody_mono (fresh : ℕ → {s : Str // s.vec.bytes = []}) (s : R × List (Vec × ℕ)) :
    Loop.Mono fun n => readLinesBody E fresh n s := by
  intro n m x hnm h
  cases hr : readLine (E := E) n s.1 (fresh s.2.length).val with
  | none => simp [readLinesBody, hr] at h
  | some res =>
    have hm := readLine_mono s.1 _ hnm hr
    simp only [readLinesBody, hr] at h
    simp only [readLinesBody, hm]
    exact h

/-! ### One line -/

/-- `P` is a line of a text that goes on with `l`. -/
structure IsLine (P l : List UInt8) : Prop where
  valid : Utf8.Valid P
  newline_last : newline ∉ P.dropLast
  ends : P.getLast? = some newline ∨ l = []

omit [Target] [Alloc] in
/-- What comes up to a newline is a line, and what follows it is a text again. -/
theorem isLine_of_upTo {P l : List UInt8} {rest : ℕ → Option UInt8} (hvalid : Utf8.Valid (P ++ l))
    (hup : UpTo newline rest P (fun i => l[i]?)) : IsLine P l ∧ Utf8.Valid l := by
  obtain ⟨Q, rfl, hQ⟩ | ⟨hP, hend⟩ := hup.stops
  · rw [List.append_assoc] at hvalid
    obtain ⟨hfirst, hrest⟩ := Utf8.Valid.cut (show newline < 128 by decide) hvalid
    refine ⟨⟨hfirst, ?_, Or.inl List.getLast?_concat⟩, hrest⟩
    rwa [List.dropLast_concat]
  · obtain rfl : l = [] :=
      List.eq_nil_of_length_eq_zero (Nat.le_zero.mp (List.getElem?_eq_none_iff.mp (hend 0)))
    rw [List.append_nil] at hvalid
    exact ⟨⟨hvalid, hup.not_mem_dropLast, Or.inr rfl⟩, Utf8.valid_nil⟩

/-- The vector has the beginning of `l`, and is refused the room for more of it. -/
def RefusedWithin (l : List UInt8) (v : Vec) : Prop :=
  ∃ A, v.bytes ++ A <+: l ∧ v.Refused A.length

theorem RefusedWithin.refusesWithin {l : List UInt8} {v : Vec} (h : RefusedWithin l v) :
    RefusesWithin l.length := by
  obtain ⟨A, hA, href⟩ := h
  refine ⟨v, A.length, ?_, href⟩
  rw [← List.length_append]
  exact hA.length_le

/-- **`read_line` reads one line** of a text, or the vector is refused the room for it. -/
theorem readLine_isLine (c : Chunked E R) {fuel : ℕ} {r r' : R} {l : List UInt8} {s : Str}
    {v : Vec} {out : Outcome E ℕ} (hl : c.rest r = fun i => l[i]?) (hvalid : Utf8.Valid l)
    (herr : ErrorFree E r) (hs : s.vec.bytes = []) (h : readLine fuel r s = some (r', v, out)) :
    (∃ l', l = v.bytes ++ l' ∧ (c.rest r' = fun i => l'[i]?) ∧ IsLine v.bytes l' ∧
      Utf8.Valid l' ∧ Way E r v.bytes r' ∧ out = .ok v.bytes.length) ∨
    (out = .panic ∧ RefusedWithin l v) := by
  cases hr : readUntil (E := E) fuel r newline s.vec with
  | none => simp [readLine, appendToString, hr] at h
  | some res =>
    obtain ⟨r₁, v₁, ret⟩ := res
    obtain ⟨P, hbytes, hpass, hexit⟩ := c.readUntil_exit hr
    rw [hl] at hpass
    cases ret with
    | ok k =>
      left
      obtain ⟨rfl, hup, hway⟩ := hexit
      obtain ⟨l', rfl, hrest⟩ := hpass.of_list
      obtain ⟨hline, hvalid'⟩ := isLine_of_upTo hvalid (hrest ▸ hup)
      rw [readLine, appendToString_eq hr Outcome.ok_ne_panic hbytes, if_pos hline.valid] at h
      obtain ⟨rfl, rfl, rfl⟩ := h
      rw [hs, List.nil_append] at hbytes
      rw [hbytes]
      exact ⟨l', rfl, hrest, hline, hvalid', hway, rfl⟩
    | err e =>
      obtain ⟨-, -, r₂, hway, hfill⟩ := hexit
      exact absurd hfill (herr P r₂ r₁ e hway)
    | panic =>
      right
      obtain ⟨-, A, stop, hA, -, hrefused⟩ := hexit
      rw [readLine, appendToString_panic hr] at h
      obtain ⟨rfl, rfl, rfl⟩ := h
      rw [hl] at hA
      obtain ⟨l', rfl, -⟩ := hA.of_list
      refine ⟨rfl, A, ?_, hrefused⟩
      rw [hbytes, hs, List.nil_append]
      exact List.prefix_append _ l'

/-- The call comes to its end. -/
theorem readLine_ends (c : Chunked E R) {r : R} {l : List UInt8} (hl : c.rest r = fun i => l[i]?)
    (herr : ErrorFree E r) (s : Str) :
    ∃ res, Loop.Returns (fun n => readLine (E := E) n r s) res := by
  obtain ⟨P, l', rfl, hup⟩ := UpTo.exists_of_list newline l
  obtain ⟨⟨r', v, ret⟩, n, hr⟩ := c.readUntil_ends herr.interruptedFinitely (hl ▸ hup) s.vec
  have hr' : readUntil (E := E) n r newline s.vec = some (r', v, ret) := hr
  obtain ⟨A, hA⟩ := readUntil_appends hr'
  cases ret with
  | panic => exact ⟨_, n, appendToString_panic hr'⟩
  | ok k => exact ⟨_, n, appendToString_eq hr' Outcome.ok_ne_panic hA⟩
  | err e => exact ⟨_, n, appendToString_eq hr' Outcome.err_ne_panic hA⟩

/-! ### All lines -/

/-- The text `l` is the `lines`, of the lengths that go with them, and what is left of it is
`l'`. -/
structure LinesOf (l : List UInt8) (lines : List (Vec × ℕ)) (l' : List UInt8) : Prop where
  split : l = (lines.map fun line => line.1.bytes).flatten ++ l'
  rest_valid : Utf8.Valid l'
  line : ∀ line ∈ lines, Utf8.Valid line.1.bytes ∧ line.2 = line.1.bytes.length ∧
    newline ∉ line.1.bytes.dropLast
  ends_but_last : ∀ line ∈ lines.dropLast, line.1.bytes.getLast? = some newline
  ends : l' ≠ [] → ∀ line ∈ lines, line.1.bytes.getLast? = some newline

omit [Alloc] in
theorem LinesOf.snoc {l l' : List UInt8} {lines : List (Vec × ℕ)} {v : Vec}
    (h : LinesOf l lines (v.bytes ++ l')) (hv : IsLine v.bytes l') (hl' : Utf8.Valid l')
    (hne : v.bytes ≠ []) : LinesOf l (lines ++ [(v, v.bytes.length)]) l' := by
  have hends := h.ends (List.append_ne_nil_of_left_ne_nil hne l')
  refine ⟨?_, hl', ?_, ?_, ?_⟩
  · rw [h.split, List.map_append, List.flatten_append, List.append_assoc]
    simp
  · intro line hmem
    rcases List.mem_append.mp hmem with hold | hnew
    · exact h.line line hold
    · rw [List.mem_singleton.mp hnew]
      exact ⟨hv.valid, rfl, hv.newline_last⟩
  · rwa [List.dropLast_concat]
  · intro hmore line hmem
    rcases List.mem_append.mp hmem with hold | hnew
    · exact hends line hold
    · rw [List.mem_singleton.mp hnew]
      exact hv.ends.resolve_right hmore

/-- How `readLines` may end on the text `l`: the lines are the text, or the vector for the next
line was refused the room for it. -/
def LinesExit (l : List UInt8) (lines : List (Vec × ℕ)) : Outcome E Vec → Prop
  | .ok last => last.bytes = [] ∧ LinesOf l lines []
  | .err _ => False
  | .panic => ∃ l', LinesOf l lines l' ∧ ∃ v, RefusedWithin l' v

/-- Between two calls. -/
structure BetweenLines (c : Chunked E R) (r : R) (l : List UInt8) (s : R × List (Vec × ℕ))
    (l' : List UInt8) : Prop where
  way : ∃ D, Way E r D s.1
  rest : c.rest s.1 = fun i => l'[i]?
  lines : LinesOf l s.2 l'

/-- What one more call comes to, when there are `n` bytes left before it. -/
def LinesTurn (c : Chunked E R) (r : R) (l : List UInt8) (n : ℕ) :
    Step (R × List (Vec × ℕ)) (R × List (Vec × ℕ) × Outcome E Vec) → Prop
  | .next s => ∃ l', BetweenLines c r l s l' ∧ l'.length < n
  | .done (_, lines, out) => LinesExit l lines out

theorem readLinesBody_turn (c : Chunked E R) {r : R} {l l' : List UInt8} (herr : ErrorFree E r)
    {fresh : ℕ → {s : Str // s.vec.bytes = []}} {fuel : ℕ} {s : R × List (Vec × ℕ)}
    {x : Step (R × List (Vec × ℕ)) (R × List (Vec × ℕ) × Outcome E Vec)}
    (hs : BetweenLines c r l s l') (h : readLinesBody E fresh fuel s = some x) :
    LinesTurn c r l l'.length x := by
  obtain ⟨r₁, lines⟩ := s
  obtain ⟨D, hway⟩ := hs.way
  have hlines := hs.lines
  cases hr : readLine (E := E) fuel r₁ (fresh lines.length).val with
  | none => simp [readLinesBody, hr] at h
  | some res =>
    obtain ⟨r₂, v, out⟩ := res
    rcases readLine_isLine c hs.rest hlines.rest_valid (herr.of_way hway) (fresh lines.length).2 hr
      with ⟨l'', rfl, hrest, hline, hvalid, hstep, rfl⟩ | ⟨rfl, hrefused⟩
    · cases hv : v.bytes with
      | nil =>
        simp only [readLinesBody, hr, hv, List.length_nil, Option.some.injEq] at h
        subst h
        rw [hv, List.nil_append] at hlines
        obtain rfl : l'' = [] := hline.ends.resolve_left (by rw [hv]; nofun)
        exact ⟨hv, hlines⟩
      | cons a P =>
        simp only [readLinesBody, hr, hv, List.length_cons, Option.some.injEq] at h
        subst h
        have hne : v.bytes ≠ [] := by rw [hv]; exact List.cons_ne_nil a P
        refine ⟨l'', ⟨⟨_, hway.trans hstep⟩, hrest, ?_⟩, ?_⟩
        · have hsnoc := hlines.snoc hline hvalid hne
          rwa [hv, List.length_cons] at hsnoc
        · rw [← hv, List.length_append]
          have hpos := List.length_pos_of_ne_nil hne
          omega
    · simp only [readLinesBody, hr, Option.some.injEq] at h
      subst h
      exact ⟨l', hlines, v, hrefused⟩

omit [Alloc] in
theorem BetweenLines.start (c : Chunked E R) {r : R} {l : List UInt8}
    (hl : c.rest r = fun i => l[i]?) (hvalid : Utf8.Valid l) : BetweenLines c r l (r, []) l := by
  refine ⟨⟨[], .refl⟩, hl, rfl, hvalid, ?_, ?_, ?_⟩
  · intro line hmem
    cases hmem
  · intro line hmem
    cases hmem
  · intro _ line hmem
    cases hmem

/-- `readLines` comes to its end: every line but the empty one at the end uses up bytes. -/
theorem readLines_ends (c : Chunked E R) {r : R} {l : List UInt8} (herr : ErrorFree E r)
    (hl : c.rest r = fun i => l[i]?) (hvalid : Utf8.Valid l)
    (fresh : ℕ → {s : Str // s.vec.bytes = []}) :
    ∃ res, Loop.Returns (fun n => readLines E fresh n r) res := by
  let Left : ℕ → R × List (Vec × ℕ) → Prop := fun n s =>
    ∃ l', BetweenLines c r l s l' ∧ l'.length = n
  have hstart : Left l.length (r, []) := ⟨l, .start c hl hvalid, rfl⟩
  refine Loop.run_terminates Nat.lt_wfRel.wf (readLinesBody_mono fresh) Left ?_ hstart
  rintro n s ⟨l', hs, rfl⟩
  obtain ⟨D, hway⟩ := hs.way
  obtain ⟨⟨r', v, out⟩, m, hm⟩ :=
    readLine_ends c hs.rest (herr.of_way hway) (fresh s.2.length).val
  have hm' : readLine (E := E) m s.1 (fresh s.2.length).val = some (r', v, out) := hm
  obtain ⟨x, hx⟩ : ∃ x, readLinesBody E fresh m s = some x := by
    rcases out with (_ | k) | e | _ <;> simp only [readLinesBody, hm'] <;> exact ⟨_, rfl⟩
  refine ⟨x, ⟨m, hx⟩, ?_⟩
  rintro s' rfl
  obtain ⟨l'', hs', hlt⟩ := readLinesBody_turn c herr hs hx
  exact ⟨l''.length, hlt, l'', hs', rfl⟩

/-- **Reading lines is lossless on text.** -/
theorem lines_lossless (c : Chunked E R) (r : R) (l : List UInt8)
    (hl : c.rest r = fun i => l[i]?) (hvalid : Utf8.Valid l) (herr : ErrorFree E r)
    (fresh : ℕ → {s : Str // s.vec.bytes = []}) :
    (∀ fuel r' lines out, readLines E fresh fuel r = some (r', lines, out) →
      LinesExit l lines out) ∧
    (∃ res, Loop.Returns (fun n => readLines E fresh n r) res) ∧
    (¬ RefusesWithin l.length → ∃ r' lines last,
      Loop.Returns (fun n => readLines E fresh n r) (r', lines, .ok last) ∧
        last.bytes = [] ∧ LinesOf l lines []) := by
  have hexit : ∀ fuel r' lines out, readLines E fresh fuel r = some (r', lines, out) →
      LinesExit l lines out := by
    intro fuel r' lines out h
    have hstart : ∃ n, LinesTurn c r l n (.next (r, [])) :=
      ⟨l.length + 1, l, .start c hl hvalid, Nat.lt_succ_self _⟩
    obtain ⟨n, hend⟩ := Loop.run_spec (fun x => ∃ n, LinesTurn c r l n x)
      (fun _ _ _ ⟨_, _, hs, _⟩ hb => ⟨_, readLinesBody_turn c herr hs hb⟩) hstart h
    exact hend
  have hends := readLines_ends c herr hl hvalid fresh
  refine ⟨hexit, hends, ?_⟩
  intro hgrant
  obtain ⟨⟨r', lines, out⟩, n, hrun⟩ := hends
  have hout := hexit n r' lines out hrun
  cases out with
  | ok last => exact ⟨r', lines, last, ⟨n, hrun⟩, hout⟩
  | err e => exact absurd hout id
  | panic =>
    obtain ⟨l', hlines, v, hrefused⟩ := hout
    refine absurd (hrefused.refusesWithin.mono ?_) hgrant
    rw [hlines.split]
    exact (List.suffix_append _ l').length_le

omit [BufRead E R] [Alloc] in
/-- A script without errors. -/
theorem Script.errorFree {r : Script E} (h : ∀ e : E, .error e ∉ r.events) : ErrorFree E r := by
  intro D r₁ r' e hway hfill
  refine h e (Script.mem_of_way hway ?_)
  exact Script.mem_of_fillBuf hfill

end

open Machine64 in
/-- Two lines, the first of which has a character that is cut in two by the chunks. -/
theorem lines_lossless_script :
    ∃ r' lines last, Loop.Returns (fun n => readLines ImplsNostd.Error (fun _ => ⟨Str.new, rfl⟩) n
        (⟨[.chunk ⟨[0xC3], by decide⟩ (by decide), .chunk ⟨[0xA9, 10], by decide⟩ (by decide),
          .chunk ⟨[0x78], by decide⟩ (by decide)]⟩ : Script ImplsNostd.Error))
        (r', lines, .ok last) ∧
      last.bytes = [] ∧ LinesOf [0xC3, 0xA9, 10, 0x78] lines [] :=
  (lines_lossless (Script.chunked ImplsNostd.Error) _ [0xC3, 0xA9, 10, 0x78] rfl (by decide)
    (Script.errorFree (by simp)) fun _ => ⟨Str.new, rfl⟩).2.2
      (not_refusesWithin_exact (by decide))

end NotIo
