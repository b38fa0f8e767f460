import NotIo.Flexible.BufReader

/-!
# `skip_one_string` (`tests/field_with_dyn.rs`)

A nul-terminated string is skipped in one of three ways: by the chunks of a `BufRead`, by those of
a `BufReader` over a reader that is seeked back afterwards, or byte by byte.

* `skipBufread_file`, `skipSeek_file`, `skipBytes_file`: the three ways skip the same.
-/

namespace NotIo.Flexible

open Loop (Step)

/-! ### What it is to skip a string -/

/-- `b'\0'`. -/
def nul : UInt8 := 0

/-- The stream has been passed up to the first nul, or to its end when there is none. -/
structure SkipsTo (rest : ℕ → Option UInt8) (D : List UInt8) (rest' : ℕ → Option UInt8)
    (terminated : Bool) : Prop where
  passes : Passes rest D rest'
  stops : if terminated then ∃ Q, D = Q ++ [nul] ∧ nul ∉ Q else nul ∉ D ∧ Ended rest'

theorem SkipsTo.upTo {rest rest' : ℕ → Option UInt8} {D : List UInt8} {terminated : Bool}
    (h : SkipsTo rest D rest' terminated) : UpTo nul rest D rest' := by
  refine ⟨h.passes, ?_⟩
  have hstops := h.stops
  cases terminated with
  | true => exact Or.inl hstops
  | false => exact Or.inr hstops

/-- **Where a string ends is a matter of the stream.** -/
theorem SkipsTo.unique {rest rest₁ rest₂ : ℕ → Option UInt8} {D₁ D₂ : List UInt8}
    {terminated₁ terminated₂ : Bool} (h₁ : SkipsTo rest D₁ rest₁ terminated₁)
    (h₂ : SkipsTo rest D₂ rest₂ terminated₂) :
    D₁ = D₂ ∧ rest₁ = rest₂ ∧ terminated₁ = terminated₂ := by
  obtain ⟨rfl, rfl⟩ := h₁.upTo.unique h₂.upTo
  refine ⟨rfl, rfl, ?_⟩
  have hstops₁ := h₁.stops
  have hstops₂ := h₂.stops
  cases terminated₁ <;> cases terminated₂
  · rfl
  · obtain ⟨Q, rfl, -⟩ := hstops₂
    exact absurd (List.mem_append_right Q (List.mem_singleton_self nul)) hstops₁.1
  · obtain ⟨Q, rfl, -⟩ := hstops₁
    exact absurd (List.mem_append_right Q (List.mem_singleton_self nul)) hstops₂.1
  · rfl

/-- What comes before a string without a nul is a part of it. -/
theorem SkipsTo.behind {rest rest' rest'' : ℕ → Option UInt8} {chunk D : List UInt8}
    {terminated : Bool} (h : SkipsTo rest' D rest'' terminated) (hpass : Passes rest chunk rest')
    (hchunk : nul ∉ chunk) : SkipsTo rest (chunk ++ D) rest'' terminated := by
  refine ⟨hpass.trans h.passes, ?_⟩
  have hstops := h.stops
  cases terminated with
  | true =>
    obtain ⟨Q, rfl, hQ⟩ := hstops
    refine ⟨chunk ++ Q, (List.append_assoc _ _ _).symm, ?_⟩
    rw [List.mem_append]
    exact fun hmem => hmem.elim hchunk hQ
  | false =>
    refine ⟨?_, hstops.2⟩
    rw [List.mem_append]
    exact fun hmem => hmem.elim hchunk hstops.1

section

variable [Target] {E R : Type}

/-- How skipping a string is to end: with `Ok` behind the nul, or with the error that there is
none. -/
def SkipOutcome [ErrorImpl E] (out : Outcome E Unit) (terminated : Bool) : Prop :=
  out = if terminated then .ok () else .err (Error.ofErrorKind .unexpectedEof)

/-! ### By chunks -/

/-- One turn of the `loop` of `skip_bufread`. -/
def skipBufreadBody [ErrorImpl E] [BufRead E R] (bufread : R) : Step R (R × Outcome E Unit) :=
  match BufRead.fillBuf (E := E) bufread with
  | (bufread, .ok buf) =>
    if buf.bytes.isEmpty then .done (bufread, .err (Error.ofErrorKind .unexpectedEof))
    else
      -- `pos.is_some()`, and `pos.map_or(buf.len(), |n| n + 1)`
      let (pos, skip) := doneUsed nul buf.bytes
      match BufRead.consume E bufread skip with
      | none => .done (bufread, .panic)
      | some bufread => if pos then .done (bufread, .ok ()) else .next bufread
  | (bufread, .err e) => .done (bufread, .err e)
  | (bufread, .panic) => .done (bufread, .panic)

def skipBufread [ErrorImpl E] [BufRead E R] (fuel : ℕ) (bufread : R) :
    Option (R × Outcome E Unit) :=
  Loop.loop skipBufreadBody fuel bufread

/-- `J D r` is kept, as more and more is consumed: `D` is what was consumed until now. -/
structure Tracks (E : Type) {R : Type} [BufRead E R] (J : List UInt8 → R → Prop) : Prop where
  fillBuf : ∀ {D : List UInt8} {r r' : R} {o : Outcome E Slice}, J D r →
    BufRead.fillBuf r = (r', o) → J D r'
  consume : ∀ {D : List UInt8} {r₁ r₂ r₃ : R} {s : Slice} {amt : ℕ}, J D r₂ →
    BufRead.fillBuf (E := E) r₁ = (r₂, .ok s) → amt ≤ s.bytes.length →
      BufRead.consume E r₂ amt = some r₃ → J (D ++ s.bytes.take amt) r₃

/-- How `skip_bufread` may end that has consumed `D` on its way to `r`. -/
def SkipExit [ErrorImpl E] [BufRead E R] (c : Chunked E R) (J : List UInt8 → R → Prop)
    (D : List UInt8) (r : R) (res : R × Outcome E Unit) : Prop :=
  ∃ D', J (D ++ D') res.1 ∧
    ((∃ terminated, SkipsTo (c.rest r) D' (c.rest res.1) terminated ∧
        SkipOutcome res.2 terminated) ∨
      (nul ∉ D' ∧ Passes (c.rest r) D' (c.rest res.1) ∧
        ∃ r₁ e, BufRead.fillBuf r₁ = (res.1, .err e) ∧ res.2 = .err e))

/-- A chunk without a nul has been passed over. -/
theorem SkipExit.skipped [ErrorImpl E] [BufRead E R] {c : Chunked E R} {J : List UInt8 → R → Prop}
    {D chunk : List UInt8} {r r' : R} {res : R × Outcome E Unit} (hchunk : nul ∉ chunk)
    (hpass : Passes (c.rest r) chunk (c.rest r')) (h : SkipExit c J (D ++ chunk) r' res) :
    SkipExit c J D r res := by
  obtain ⟨D', hJ, hexit⟩ := h
  rw [List.append_assoc] at hJ
  refine ⟨chunk ++ D', hJ, ?_⟩
  rcases hexit with ⟨terminated, hskips, hout⟩ | ⟨hnul, hpass', hfail⟩
  · exact Or.inl ⟨terminated, hskips.behind hpass hchunk, hout⟩
  · refine Or.inr ⟨?_, hpass.trans hpass', hfail⟩
    rw [List.mem_append]
    exact fun hmem => hmem.elim hchunk hnul

/-- **`skip_bufread` comes to its end** on a stream that does, and it stops right behind the first
nul. -/
theorem skipBufread_ends [ErrorImpl E] [BufRead E R] (c : Chunked E R) {J : List UInt8 → R → Prop}
    (hJ : Tracks E J) {D l : List UInt8} {r : R} (hr : J D r) (hl : c.rest r = fun i => l[i]?) :
    ∃ res, Loop.Returns (fun n => skipBufread (E := E) n r) res ∧ SkipExit c J D r res := by
  obtain ⟨k, hk⟩ : ∃ k, k = l.length := ⟨_, rfl⟩
  induction k using Nat.strong_induction_on generalizing D l r with
  | _ k ih =>
    subst hk
    rcases hfill : BufRead.fillBuf (E := E) r with ⟨r₁, s | e | _⟩
    · obtain ⟨hrest, hend, hconsume⟩ := c.fillBuf_ok hfill
      have hJ₁ := hJ.fillBuf hr hfill
      by_cases hempty : s.bytes = []
      · refine ⟨(r₁, .err (Error.ofErrorKind .unexpectedEof)), ⟨1, Loop.loop_done ?_ 0⟩, [], ?_,
          Or.inl ⟨false, ⟨?_, List.not_mem_nil, hend hempty⟩, rfl⟩⟩
        · simp only [skipBufreadBody, hfill, hempty, List.isEmpty_nil, if_true]
        · rwa [List.append_nil]
        · rw [hrest]
          exact .refl _
      · rcases doneUsed_cases nul s.bytes with ⟨Q, hdone, htake, hQ⟩ | ⟨hdone, hnone⟩
        · have hle : Q.length + 1 ≤ s.bytes.length := by
            have hlen := congrArg List.length htake
            rw [List.length_take, List.length_append, List.length_singleton] at hlen
            omega
          obtain ⟨r₂, hc, hpass⟩ := hconsume _ hle
          rw [hrest, htake] at hpass
          have hJ₂ := hJ.consume hJ₁ hfill hle hc
          rw [htake] at hJ₂
          refine ⟨(r₂, .ok ()), ⟨1, Loop.loop_done ?_ 0⟩, Q ++ [nul], hJ₂,
            Or.inl ⟨true, ⟨hpass, Q, rfl, hQ⟩, rfl⟩⟩
          simp only [skipBufreadBody, hfill, List.isEmpty_iff, if_neg hempty, hdone, hc, if_true]
        · obtain ⟨r₂, hc, hpass⟩ := hconsume _ (le_refl _)
          have hJ₂ := hJ.consume hJ₁ hfill (le_refl _) hc
          rw [List.take_length] at hpass hJ₂
          rw [hrest] at hpass
          obtain ⟨l', rfl, hl'⟩ := (hl ▸ hpass).of_list
          have hpos := List.length_pos_of_ne_nil hempty
          obtain ⟨res, ⟨n, hn⟩, hexit⟩ := ih l'.length
            (by rw [List.length_append]; omega) hJ₂ hl' rfl
          refine ⟨res, ⟨n + 1, (Loop.loop_next ?_ n).trans hn⟩, hexit.skipped hnone hpass⟩
          simp only [skipBufreadBody, hfill, List.isEmpty_iff, if_neg hempty, hdone, hc,
            Bool.false_eq_true, if_false]
    · refine ⟨(r₁, .err e), ⟨1, Loop.loop_done ?_ 0⟩, [], ?_,
        Or.inr ⟨List.not_mem_nil, ?_, r, e, hfill, rfl⟩⟩
      · simp only [skipBufreadBody, hfill]
      · rw [List.append_nil]
        exact hJ.fillBuf hr hfill
      · rw [c.fillBuf_err hfill]
        exact .refl _
    · exact absurd (by rw [hfill]) (c.fillBuf_ne_panic r)

/-! ### The three ways -/

/-- **What skipping a string comes to** at `r`: the reader has moved right behind the first nul, or to
the end when there is none, unless a call to it has failed. -/
def SkipsString [ErrorImpl E] [BufRead E R] (f : FileReader E R) (r : R)
    (res : R × Outcome E Unit) : Prop :=
  (∃ D terminated, SkipsTo (f.source.rest r) D (f.source.rest res.1) terminated ∧
    f.Moved r D res.1 ∧ SkipOutcome res.2 terminated) ∨
  ∃ e, res.2 = .err e ∧ ((∃ r₁, BufRead.fillBuf r₁ = (res.1, .err e)) ∨
    FailedWith (fun _ : R => True) res.1 e)

section

variable [ErrorImpl E] [BufRead E R] {f : FileReader E R}

omit [ErrorImpl E] in
/-- The position moves with what is consumed. -/
theorem buffers_tracks (b : f.Buffers) (r : R) :
    Tracks E fun D r' => f.file r' = (f.file r).advance D.length where
  fillBuf h hfill := (b.fillBuf hfill).trans h
  consume {D r₁ r₂ r₃ s amt} h hfill hle hc := by
    rw [b.consume hfill hle hc, h, File.advance_advance, List.length_append, List.length_take,
      Nat.min_eq_left hle]

/-- By the chunks of the reader itself. -/
theorem skipBufread_file (b : f.Buffers) (r : R) :
    ∃ res, Loop.Returns (fun n => skipBufread (E := E) n r) res ∧ SkipsString f r res := by
  have hstart : f.file r = (f.file r).advance ([] : List UInt8).length := rfl
  obtain ⟨res, hrun, D, hfile, hexit⟩ := skipBufread_ends b.chunked (buffers_tracks b r) hstart
    ((b.same r).trans (f.rest r))
  refine ⟨res, hrun, ?_⟩
  rw [List.nil_append] at hfile
  rcases hexit with ⟨terminated, hskips, hout⟩ | ⟨-, -, r₁, e, hfill, hout⟩
  · rw [b.same, b.same] at hskips
    exact Or.inl ⟨D, terminated, hskips, ⟨hskips.passes, hfile⟩, hout⟩
  · exact Or.inr ⟨e, hout, Or.inl ⟨r₁, hfill⟩⟩

/-- Over-read: how far to go back is the length of what is left in the buffer. -/
def overRead (fuel : ℕ) (reader : R) : Option (R × Outcome E Int64) :=
  (skipBufread (E := E) fuel (BufReader.new reader)).map fun res =>
    (res.1.inner, res.2.map fun _ => Int64.ofNat res.1.unread.bytes.length)

/-- `Seek::seek_relative`. -/
def seekRelative [Seek E R] (self : R) (offset : Int64) : R × Outcome E Unit :=
  let (self, position) := Seek.seek self (.fromCurrent offset)
  (self, position.map fun _ => ())

/-- The second way of `skip_one_string`: over-read and seek back. -/
def skipSeek [Seek E R] (fuel : ℕ) (reader : R) : Option (R × Outcome E Unit) :=
  match overRead (E := E) fuel reader with
  | none => none
  | some (reader, .ok back) => some (seekRelative reader (-back))
  | some (reader, .err e) => some (reader, .err e)
  | some (reader, .panic) => some (reader, .panic)

omit [ErrorImpl E] in
/-- The reader inside is ahead by what is in the buffer. -/
theorem BufReader.tracks (f : FileReader E R) (r : R) :
    Tracks E fun D (b : BufReader R) =>
      f.file b.inner = (f.file r).advance (D.length + b.unread.bytes.length) where
  fillBuf {D b b' o} h hfill := by
    rcases fillBuf_cases hfill with ⟨-, rfl, -⟩ | ⟨hnil, -, buf, o', hread, ho⟩
    · exact h
    · rw [hnil, List.length_nil, Nat.add_zero] at h
      rcases o' with n | e | _
      · obtain ⟨hn, -, -⟩ := f.source.read_ok b.replicate_le hread
        have hbuf := read_length_of_eq hread
        rcases ho with ⟨-, hunread, -⟩ | ⟨hlt, -⟩
        · rw [f.read_ok b.replicate_le hread, h, File.advance_advance, hunread, List.length_take]
          congr 1
          omega
        · omega
      · rw [f.read_err b.replicate_le hread, h, ho.1, hnil, List.length_nil, Nat.add_zero]
      · exact absurd (by rw [hread]) (f.source.read_ne_panic b.inner _ b.replicate_le)
  consume {D b₁ b₂ b₃ s amt} h hfill hle hc := by
    obtain rfl := Option.some.inj hc
    obtain ⟨hunread, -, -⟩ := BufReader.fillBuf_ok f.source hfill
    show f.file b₂.inner = (f.file r).advance
      ((D ++ s.bytes.take amt).length + (b₂.unread.bytes.drop amt).length)
    rw [h, hunread, List.length_append, List.length_take, List.length_drop]
    congr 1
    omega

omit [ErrorImpl E] in
theorem SkipsTo.moved {r r' : R} {D : List UInt8} {rest : ℕ → Option UInt8} {terminated : Bool}
    (h : SkipsTo (f.source.rest r) D rest terminated) (hm : f.Moved r D r') :
    SkipsTo (f.source.rest r) D (f.source.rest r') terminated := by
  have hsame : f.source.rest r' = rest := by
    funext i
    rw [hm.passes.follows, h.passes.follows]
  rwa [hsame]

/-- By the chunks of a `BufReader`, which is seeked back. -/
theorem skipSeek_file [Seek E R] (hf : f.Seeks) (r : R) :
    ∃ res, Loop.Returns (fun n => skipSeek (E := E) n r) res ∧ SkipsString f r res := by
  have hnew : (BufReader.chunked f.source).rest (BufReader.new r) = f.source.rest r := prepend_nil _
  have hstart : f.file (BufReader.new r).inner = (f.file r).advance
      (([] : List UInt8).length + (BufReader.new r).unread.bytes.length) := rfl
  obtain ⟨⟨b, out⟩, ⟨n, hn⟩, D, hahead, hexit⟩ := skipBufread_ends (BufReader.chunked f.source)
    (BufReader.tracks f r) hstart (hnew.trans (f.rest r))
  have hrun : skipBufread (E := E) n (BufReader.new r) = some (b, out) := hn
  rw [List.nil_append] at hahead
  rw [hnew] at hexit
  rcases hexit with ⟨_ | _, hskips, hout⟩ | ⟨-, -, b₁, e, hfill, hout⟩
  · obtain rfl : out = .err (Error.ofErrorKind .unexpectedEof) := hout
    have hend : Ended (prepend b.unread.bytes (f.source.rest b.inner)) := hskips.stops.2
    have hnil : b.unread.bytes = [] := hend.prepend_eq_nil
    rw [hnil, List.length_nil, Nat.add_zero] at hahead
    have hm := FileReader.moved_of_file hskips.passes hahead
    refine ⟨(b.inner, .err (Error.ofErrorKind .unexpectedEof)), ⟨n, ?_⟩,
      Or.inl ⟨D, false, hskips.moved hm, hm, rfl⟩⟩
    simp only [skipSeek, overRead, hrun, Option.map_some, Outcome.map]
  · obtain rfl : out = .ok () := hout
    have hsize := lt_i64_of_le_isizeMax b.unread.length_le
    have hposition : (f.file b.inner).position
        = (f.file r).position + D.length + b.unread.bytes.length := by
      rw [hahead]
      exact (Nat.add_assoc _ _ _).symm
    obtain ⟨r', hseek, hfile⟩ := FileReader.seek_back (E := E) hf hsize hposition
    have hm : f.Moved r D r' := FileReader.moved_of_file hskips.passes (by rw [hfile, hahead]; rfl)
    refine ⟨(r', .ok ()), ⟨n, ?_⟩, Or.inl ⟨D, true, hskips.moved hm, hm, rfl⟩⟩
    simp only [skipSeek, overRead, hrun, Option.map_some, Outcome.map, seekRelative, hseek]
  · obtain rfl : out = .err e := hout
    refine ⟨(b.inner, .err e), ⟨n, ?_⟩,
      Or.inr ⟨e, rfl, Or.inr (BufReader.fillBuf_err f.source hfill).2⟩⟩
    simp only [skipSeek, overRead, hrun, Option.map_some, Outcome.map]

/-! ### Byte by byte -/

/-- One turn of the `loop` of the third way. -/
def skipBytesBody [ReadExactImpl E R] (fuel : ℕ) (s : R × List UInt8) :
    Option (Step (R × List UInt8) (R × Outcome E Unit)) :=
  match ReadExactImpl.readExactImpl (E := E) fuel s.1 s.2 with
  | none => none
  | some (reader, byte, .ok ()) =>
    if byte[0]? = some nul then some (.done (reader, .ok ())) else some (.next (reader, byte))
  | some (reader, _, .err e) => some (.done (reader, .err e))
  | some (reader, _, .panic) => some (.done (reader, .panic))

/-- The third way of `skip_one_string`. -/
def skipBytes [ReadExactImpl E R] (fuel : ℕ) (reader : R) : Option (R × Outcome E Unit) :=
  Loop.run skipBytesBody fuel (reader, [0])

omit [Target] [ErrorImpl E] [BufRead E R] in
theorem skipBytesBody_mono [ReadExactImpl E R] (s : R × List UInt8) :
    Loop.Mono fun n => skipBytesBody (E := E) n s := by
  intro n m x hnm h
  rcases hrun : ReadExactImpl.readExactImpl (E := E) n s.1 s.2 with _ | res
  · simp only [skipBytesBody, hrun] at h
    cases h
  · have hrun' : ReadExactImpl.readExactImpl (E := E) m s.1 s.2 = some res :=
      ReadExactImpl.readExactImpl_mono s.1 s.2 hnm hrun
    simp only [skipBytesBody, hrun] at h
    simp only [skipBytesBody, hrun', h]

/-- What was passed before a string is skipped from there on. -/
theorem SkipsString.behind {r r₁ : R} {res : R × Outcome E Unit} {chunk : List UInt8}
    (hm : f.Moved r chunk r₁) (hchunk : nul ∉ chunk) (h : SkipsString f r₁ res) :
    SkipsString f r res := by
  rcases h with ⟨D, terminated, hskips, hm', hout⟩ | hfail
  · refine Or.inl ⟨chunk ++ D, terminated, hskips.behind hm.passes hchunk, ?_, hout⟩
    refine ⟨hm.passes.trans hm'.passes, ?_⟩
    rw [hm'.file, hm.file, File.advance_advance, List.length_append]
  · exact Or.inr hfail

/-- Byte by byte. -/
theorem skipBytes_file [ReadExactImpl E R] (f : FileReader E R) (hf : f.ReadsOne) (r : R) :
    ∃ res, Loop.Returns (fun n => skipBytes (E := E) n r) res ∧ SkipsString f r res := by
  suffices h : ∀ (k : ℕ) (r : R) (byte : UInt8), (f.file r).rest.length = k →
      ∃ res, Loop.Ends (fun s x => Loop.Returns (fun n => skipBytesBody (E := E) n s) x)
        (r, [byte]) res ∧ SkipsString f r res by
    obtain ⟨res, hends, hskips⟩ := h _ r 0 rfl
    exact ⟨res, (Loop.returns_run skipBytesBody_mono).mpr hends, hskips⟩
  intro k
  induction k using Nat.strong_induction_on with
  | _ k ih =>
    intro r byte hk
    obtain ⟨n, r', buf, out, hrun, ⟨b, rfl, rfl, hm⟩ | ⟨rfl, hm, hend⟩ | ⟨e, rfl, hfail⟩⟩ :=
      hf r byte
    · by_cases hnul : b = nul
      · subst hnul
        refine ⟨(r', .ok ()), .done ⟨n, ?_⟩,
          Or.inl ⟨[nul], true, ⟨hm.passes, [], rfl, List.not_mem_nil⟩, hm, rfl⟩⟩
        simp only [skipBytesBody, hrun, List.getElem?_cons_zero, if_true]
      · have hlt : (f.file r').rest.length < k := by
          have hpass := hm.passes
          rw [f.rest r] at hpass
          obtain ⟨l', hl', -⟩ := hpass.of_list
          rw [hm.file, File.rest_advance, List.length_drop, ← hk, hl', List.length_append,
            List.length_singleton]
          omega
        obtain ⟨res, hends, hskips⟩ := ih _ hlt r' b rfl
        have hmem : nul ∉ [b] := by
          rw [List.mem_singleton]
          exact fun h => hnul h.symm
        refine ⟨res, .next ⟨n, ?_⟩ hends, hskips.behind hm hmem⟩
        simp only [skipBytesBody, hrun, List.getElem?_cons_zero, Option.some.injEq, if_neg hnul]
    · refine ⟨(r', .err (Error.ofErrorKind .unexpectedEof)), .done ⟨n, ?_⟩,
        Or.inl ⟨[], false, ⟨hm.passes, List.not_mem_nil, hend⟩, hm, rfl⟩⟩
      simp only [skipBytesBody, hrun]
    · refine ⟨(r', .err e), .done ⟨n, ?_⟩, Or.inr ⟨e, rfl, Or.inr hfail⟩⟩
      simp only [skipBytesBody, hrun]

end

end

end NotIo.Flexible
