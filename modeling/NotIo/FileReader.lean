import NotIo.Cursors
import NotIo.Sessions

/-!
# Readers over a file

`FileReader` is a `Read` whose stream is the rest of a file, and which moves the position of the
file as it reads.

* `FileReader.Moved.of_passes`: how far it has moved is known from what has been passed.
* `FileReader.cursor`: the cursors of the crate, which seek and are buffered too.
-/

namespace NotIo

section

variable [Target] {E R : Type}

/-- **A reader whose stream is the rest of a file**; what is read moves the position. -/
structure FileReader (E R : Type) [Read E R] where
  source : Source E R
  file : R → File UInt8
  rest : ∀ r, source.rest r = fun i => (file r).rest[i]?
  position_lt : ∀ r, (file r).position < 2 ^ 64
  read_ok : ∀ {r r' : R} {buf buf' : List UInt8} {n : ℕ}, buf.length ≤ isizeMax →
    Read.read r buf = (r', buf', (.ok n : Outcome E ℕ)) → file r' = (file r).advance n
  read_err : ∀ {r r' : R} {buf buf' : List UInt8} {e : E}, buf.length ≤ isizeMax →
    Read.read r buf = (r', buf', .err e) → file r' = file r

namespace FileReader

/-- The position has moved by as much as the stream has been passed. -/
structure Moved [Read E R] (f : FileReader E R) (r : R) (D : List UInt8) (r' : R) : Prop where
  passes : Passes (f.source.rest r) D (f.source.rest r')
  file : f.file r' = (f.file r).advance D.length

theorem kept_moved [Read E R] (f : FileReader E R) (r : R) :
    Kept E fun r' => ∃ D, f.Moved r D r' := by
  intro r₁ buf hlen hr
  obtain ⟨D, hpass, hfile⟩ := hr
  rcases hread : Read.read (E := E) r₁ buf with ⟨r₂, buf', n | e | _⟩
  · obtain ⟨hn, hstep, -⟩ := f.source.read_ok hlen hread
    have hbuf := read_length_of_eq hread
    refine ⟨D ++ buf'.take n, hpass.trans hstep, ?_⟩
    rw [f.read_ok hlen hread, hfile, File.advance_advance, List.length_append, List.length_take]
    congr 1
    omega
  · refine ⟨D, ?_, ?_⟩
    · rwa [f.source.read_err hlen hread]
    · rwa [f.read_err hlen hread]
  · exact absurd (by rw [hread]) (f.source.read_ne_panic r₁ buf hlen)

/-- How far it was is known from what is left. -/
theorem Moved.of_passes [Read E R] {f : FileReader E R} {r r' : R} {D : List UInt8}
    (hpass : Passes (f.source.rest r) D (f.source.rest r')) (h : ∃ D', f.Moved r D' r') :
    f.Moved r D r' := by
  obtain ⟨D', hpass', hfile⟩ := h
  refine ⟨hpass, ?_⟩
  rw [f.rest r, f.rest r'] at hpass hpass'
  have hlen : ∀ {D'' : List UInt8}, Passes (fun i => (f.file r).rest[i]?) D''
      (fun i => (f.file r').rest[i]?) →
      (f.file r).rest.length = D''.length + (f.file r').rest.length := by
    intro D'' hp
    obtain ⟨l', hl', hrest⟩ := hp.of_list
    have hsame : (f.file r').rest = l' := List.ext_getElem? fun i => congrFun hrest i
    rw [hl', hsame, List.length_append]
  have h₁ := hlen hpass
  have h₂ := hlen hpass'
  rw [hfile, show D'.length = D.length by omega]

/-- The reader has moved by what was passed when its position has. -/
theorem moved_of_file [Read E R] {f : FileReader E R} {r r' : R} {D : List UInt8}
    {rest : ℕ → Option UInt8} (hpass : Passes (f.source.rest r) D rest)
    (hfile : f.file r' = (f.file r).advance D.length) : f.Moved r D r' := by
  refine ⟨⟨hpass.shows, ?_⟩, hfile⟩
  intro i
  rw [f.rest r', f.rest r, hfile, File.rest_advance]
  exact List.getElem?_drop

/-- At its end the reader has passed all that there was. -/
theorem Moved.of_ended [Read E R] {f : FileReader E R} {r r' : R} {D : List UInt8}
    (h : f.Moved r D r') (hend : Ended (f.source.rest r')) : D = (f.file r).rest := by
  have hpass := h.passes
  rw [f.rest r] at hpass
  obtain ⟨l', hl', hrest⟩ := hpass.of_list
  rw [hrest] at hend
  rw [hl', hend.eq_nil, List.append_nil]

/-- What `read_exact` does with one byte: it has passed the next one, or there is none, or a read has
failed. -/
def ReadsOne [ErrorImpl E] [Read E R] [ReadExactImpl E R] (f : FileReader E R) : Prop :=
  ∀ (r : R) (byte : UInt8), ∃ n r' buf out,
    ReadExactImpl.readExactImpl (E := E) n r [byte] = some (r', buf, out) ∧
      ((∃ b, buf = [b] ∧ out = .ok () ∧ f.Moved r [b] r') ∨
        (out = .err (Error.ofErrorKind .unexpectedEof) ∧ f.Moved r [] r' ∧
          Ended (f.source.rest r')) ∨
        ∃ e, out = .err e ∧ FailedWith (fun _ : R => True) r' e)

theorem readsOne_provided [ErrorImpl E] [Read E R] (f : FileReader E R) : f.ReadsOne := by
  intro r byte
  have hlen : ([byte] : List UInt8).length ≤ isizeMax := le_isizeMax_of_le (by simp)
  obtain ⟨⟨r', buf, out⟩, n, hrun⟩ := f.source.readExact_ends r hlen
  have hrun' : readExact (E := E) n r [byte] = some (r', buf, out) := hrun
  obtain ⟨hmoved, D, hpass, -, hout⟩ := f.source.readExact_exit (f.kept_moved r)
    ⟨[], .refl _, rfl⟩ hlen hrun'
  have hm := Moved.of_passes hpass hmoved
  refine ⟨n, r', buf, out, hrun', ?_⟩
  rcases out with _ | e | _
  · obtain ⟨rfl, hone⟩ := hout
    obtain ⟨b, rfl⟩ := List.length_eq_one_iff.mp hone
    exact Or.inl ⟨b, rfl, rfl, hm⟩
  · obtain ⟨hshort, ⟨rfl, hend⟩ | ⟨-, r₁, b₁, b₂, -, hlen₁, hread⟩⟩ := hout
    · obtain rfl : D = [] := List.eq_nil_of_length_eq_zero (Nat.lt_one_iff.mp hshort)
      exact Or.inr (Or.inl ⟨rfl, hm, hend⟩)
    · exact Or.inr (Or.inr ⟨e, rfl, r₁, b₁, b₂, trivial, hlen₁, hread⟩)
  · exact hout.elim

/-- Seeking moves the position, where the target is a `u64`. -/
def Seeks [ErrorImpl E] [Read E R] [Seek E R] (f : FileReader E R) : Prop :=
  ∀ r pos, ∃ r', Seek.seek (E := E) r pos = (r',
      match (f.file r).seekTo (2 ^ 64) (Cursor.seekTarget (f.file r) pos) with
      | some g => .ok (UInt64.ofNat g.position)
      | none => .err (Error.ofErrorKind .invalidInput)) ∧
    f.file r' = ((f.file r).seekTo (2 ^ 64) (Cursor.seekTarget (f.file r) pos)).getD (f.file r)

/-- Seeking back from behind a position leads to the position. -/
theorem seek_back [ErrorImpl E] [Read E R] [Seek E R] {f : FileReader E R} (hf : f.Seeks) {r : R}
    {position back : ℕ} (hback : back < 2 ^ 63) (h : (f.file r).position = position + back) :
    ∃ r', Seek.seek (E := E) r (.fromCurrent (-Int64.ofNat back))
        = (r', .ok (UInt64.ofNat position)) ∧
      f.file r' = ⟨(f.file r).contents, position⟩ := by
  obtain ⟨r', hseek, hfile⟩ := hf r (.fromCurrent (-Int64.ofNat back))
  have hlt := f.position_lt r
  have htarget : (f.file r).seekTo (2 ^ 64)
      (Cursor.seekTarget (f.file r) (.fromCurrent (-Int64.ofNat back)))
      = some ⟨(f.file r).contents, position⟩ := by
    refine File.seekTo_some _ ?_ (by omega)
    show ((f.file r).position : ℤ) + (-Int64.ofNat back).toInt = _
    rw [h, Int64.toInt_neg_ofNat_of_le (by omega)]
    omega
  rw [htarget] at hseek hfile
  exact ⟨r', hseek, hfile⟩

/-- The file is shown in chunks, too. -/
structure Buffers [inst : BufRead E R] (f : FileReader E R) where
  chunked : Chunked E R
  same : ∀ r, chunked.rest r = f.source.rest r
  fillBuf : ∀ {r r' : R} {o : Outcome E Slice}, BufRead.fillBuf r = (r', o) → f.file r' = f.file r
  consume : ∀ {r₁ r₂ r₃ : R} {s : Slice} {amt : ℕ}, BufRead.fillBuf (E := E) r₁ = (r₂, .ok s) →
    amt ≤ s.bytes.length → BufRead.consume E r₂ amt = some r₃ → f.file r₃ = (f.file r₂).advance amt

end FileReader

/-! ### Cursors -/

section

variable {T : Type} [AsRef T]

theorem cursor_rest (c : Cursor T) :
    (Settled.cursor (E := E)).source.rest c = fun i => c.file.rest[i]? := by
  funext i
  rw [← Cursor.remaining_bytes]
  show (shown E c)[i]? = _
  rw [shown_eq (Cursor.fillBuf_eq c)]

/-- **A cursor is a reader over a file**, from wherever it stands. -/
def FileReader.cursor (E T : Type) [AsRef T] : FileReader E (Cursor T) where
  source := Settled.cursor.source
  file := Cursor.file
  rest := cursor_rest
  position_lt r := r.pos.toNat_lt
  read_ok {r r' buf buf' n} _ hread := by
    obtain ⟨c, hc, hfile⟩ := r.read_file (E := E) buf
    have hread' : r.read (E := E) buf = (r', buf', .ok n) := hread
    rw [hc] at hread'
    cases hread'
    exact hfile
  read_err {r r' buf buf' e} _ hread := by
    obtain ⟨c, hc, -⟩ := r.read_file (E := E) buf
    have hread' : r.read (E := E) buf = (r', buf', .err e) := hread
    rw [hc] at hread'
    cases hread'

theorem FileReader.cursor_seeks [ErrorImpl E] : (FileReader.cursor E T).Seeks :=
  fun r pos => r.seek_file pos

theorem FileReader.cursor_readsOne [ErrorImpl E] : (FileReader.cursor E T).ReadsOne := by
  intro c byte
  obtain ⟨c', ⟨n, hn⟩, hfile⟩ := c.readExact_file (E := E) [byte]
  by_cases h : [byte].length ≤ c.file.room
  · rw [if_pos h] at hn hfile
    have hlen : (c.file.rest.take [byte].length).length = 1 := by
      rw [List.length_take, File.rest_length]
      exact Nat.min_eq_left h
    obtain ⟨b, hb⟩ := List.length_eq_one_iff.mp hlen
    have hpass : Passes ((FileReader.cursor E T).source.rest c) [b]
        fun i => (c.file.rest.drop [byte].length)[i]? := by
      rw [(FileReader.cursor E T).rest c, ← hb]
      conv => arg 1; rw [show (FileReader.cursor E T).file c = c.file from rfl,
        ← List.take_append_drop [byte].length c.file.rest]
      exact .list _ _
    exact ⟨n, c', _, _, hn, Or.inl ⟨b, hb, rfl, moved_of_file hpass hfile⟩⟩
  · rw [if_neg h] at hn hfile
    have hnil : c.file.rest = [] := by
      rw [← List.length_eq_zero_iff, File.rest_length]
      exact Nat.lt_one_iff.mp (not_le.mp h)
    have hsame : (FileReader.cursor E T).source.rest c' = (FileReader.cursor E T).source.rest c := by
      rw [(FileReader.cursor E T).rest, (FileReader.cursor E T).rest]
      exact congrArg (fun f : File UInt8 => fun i => f.rest[i]?) hfile
    refine ⟨n, c', _, _, hn, Or.inr (Or.inl ⟨rfl, ⟨hsame ▸ .refl _, hfile⟩, ?_⟩)⟩
    rw [hsame, (FileReader.cursor E T).rest c]
    intro i
    show c.file.rest[i]? = none
    rw [hnil]
    exact List.getElem?_nil

def FileReader.cursor_buffers : (FileReader.cursor E T).Buffers where
  chunked := Settled.cursor.chunked
  same _ := rfl
  fillBuf {r r' o} hfill := by
    have hfill' : r.fillBuf (E := E) = (r', o) := hfill
    rw [Cursor.fillBuf_eq] at hfill'
    cases hfill'
    rfl
  consume {r₁ r₂ r₃ s amt} hfill hle hc := by
    have hfill' : r₁.fillBuf (E := E) = (r₂, .ok s) := hfill
    rw [Cursor.fillBuf_eq] at hfill'
    cases hfill'
    rw [Cursor.remaining_bytes, File.rest_length] at hle
    obtain ⟨c, hc', hfile⟩ := Cursor.consume_file hle
    have hc'' : r₁.consume amt = some r₃ := hc
    obtain rfl := Option.some.inj (hc'.symm.trans hc'')
    exact hfile

end

end

end NotIo
