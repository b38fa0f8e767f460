import NotIo.FileReader
import NotIo.Flexible.Dispatch

/-!
# `read_with_skip` (`tests/motivation.rs`)

"IO can be performed in ultimately equivalent ways": a `ReaderMut` is moved forward by seeking,
where it can, or by reading what is to be skipped, and the rest is read to its end.
`std::io::Read::read_to_end` is taken to be the `read_to_end` of the crate; both are documented to
call `read` until it says that there is no more.

* `seekOver_file`, `readOver_provider`: how far the two ways come.
* `read_with_skip_agrees`: they are equivalent as long as no more is skipped than there is.
-/

namespace NotIo.Flexible

open Loop (Step)

/-! ### The function -/

structure IoReport where
  numSeek : ℕ
  numRead : ℕ
  deriving DecidableEq, Repr

/-- `IoReport::default()`. -/
def IoReport.default : IoReport := ⟨0, 0⟩

/-- `report.num_seek += inner.num_seek`, and so with `num_read`. -/
def IoReport.plus (report inner : IoReport) : IoReport :=
  ⟨report.numSeek + inner.numSeek, report.numRead + inner.numRead⟩

/-- The `Plug` of `read_to_end`, which counts the reads. -/
structure Plug (R : Type) where
  reader : R
  report : IoReport

section

variable {E R : Type} [Read E R]

instance : Read E (Plug R) where
  read self buf :=
    let (reader, buf, n) := Read.read self.reader buf
    (⟨reader, ⟨self.report.numSeek, self.report.numRead + 1⟩⟩, buf, n)
  read_length self buf := Read.read_length self.reader buf

theorem readHom_plug : ReadHom E (Plug.reader : Plug R → R) := fun _ _ => rfl

variable [Target] [Alloc] [ErrorImpl E]

/-- The `read_to_end` of the test. -/
def plugReadToEnd (E : Type) [Read E R] [ErrorImpl E] (fuel : ℕ) (reader : R) (buffer : Vec) :
    Option (R × Vec × Outcome E IoReport) :=
  (readToEnd (E := E) fuel (⟨reader, .default⟩ : Plug R) buffer).map fun res =>
    (res.1.reader, res.2.1, res.2.2.map fun _ => res.1.report)

/-- Nothing is seen of the `Plug` but its report. -/
theorem plugReadToEnd_of {fuel : ℕ} {reader reader' : R} {buffer buffer' : Vec} {n : ℕ}
    (h : readToEnd (E := E) fuel reader buffer = some (reader', buffer', .ok n)) :
    ∃ report, plugReadToEnd E fuel reader buffer = some (reader', buffer', .ok report) := by
  have hmap : readToEnd (E := E) fuel reader buffer
      = (readToEnd fuel (⟨reader, .default⟩ : Plug R) buffer).map (Prod.map Plug.reader id) :=
    readToEnd_map readHom_plug fuel ⟨reader, .default⟩ buffer
  rw [h] at hmap
  obtain ⟨⟨plug, buffer₁, out⟩, hplug, he⟩ := Option.map_eq_some_iff.mp hmap.symm
  simp only [Prod.map, id_eq, Prod.mk.injEq] at he
  obtain ⟨rfl, rfl, rfl⟩ := he
  exact ⟨plug.report, by rw [plugReadToEnd, hplug]; rfl⟩

theorem plugReadToEnd_mono (reader : R) (buffer : Vec) :
    Loop.Mono fun n => plugReadToEnd E n reader buffer :=
  (Loop.loop_mono _ _).map _

end

section

variable [Target] {E R V : Type}

/-- No read fails. -/
def Unfailing (E V : Type) [Read E V] : Prop :=
  ∀ (v : V) (e : E), ¬ FailedWith (fun _ : V => True) v e

variable [ErrorImpl E]

/-- One turn of the loop that seeks. -/
def seekOverBody [Seek E V] (s : V × UInt64 × ℕ) : Step (V × UInt64 × ℕ) (V × Outcome E ℕ) :=
  let (seekable, skip, numSeek) := s
  if skip = 0 then .done (seekable, .ok numSeek)
  else
    -- `i64::try_from(skip).unwrap_or(i64::MAX)`; what is seeked is `skip as i64`
    let offset := min skip.toNat (2 ^ 63 - 1)
    match Seek.seek (E := E) seekable (.fromCurrent skip.toInt64) with
    | (seekable, .ok _) => .next (seekable, skip - UInt64.ofNat offset, numSeek + 1)
    | (seekable, .err e) => .done (seekable, .err e)
    | (seekable, .panic) => .done (seekable, .panic)

def seekOver (E : Type) [ErrorImpl E] [Seek E V] (fuel : ℕ) (skip : UInt64) (seekable : V) :
    Option (V × Outcome E ℕ) :=
  Loop.loop seekOverBody fuel (seekable, skip, 0)

/-- The length of the buffer for what is thrown away. -/
def discardSize : ℕ := 1 <<< 14

/-- `buffer.len().min(bound)`. -/
def exactRead (len : ℕ) (skip : UInt64) : ℕ :=
  min len ((usizeTryFrom skip).getD (2 ^ usizeBits - 1))

omit [Target] [ErrorImpl E] in
/-- `read(&mut buffer[..exact_read])`. -/
def readPart (E : Type) [Read E V] (exactRead : ℕ) (buffer : List UInt8) (reader : V) :
    V × List UInt8 × Outcome E ℕ :=
  let (reader, head, actual) := Read.read reader (buffer.take exactRead)
  (reader, head ++ buffer.drop exactRead, actual)

variable [Alloc] [Read E V] [Seek E V] [Program R] {r : R}

/-- What comes after skipping. -/
def thenReadToEnd (fuel : ℕ) (buffer : Vec) (report : IoReport) :
    User .reader r V (Option (Vec × Outcome E IoReport)) :=
  .ask (.callBase .view (looping fun reader => plugReadToEnd E fuel reader buffer)) fun reply =>
    match reply with
    | .answer (some (buffer, .ok inner)) => .ret (some (buffer, .ok (report.plus inner)))
    | .answer (some (buffer, .err e)) => .ret (some (buffer, .err e))
    | .answer (some (buffer, .panic)) => .ret (some (buffer, .panic))
    | _ => .ret none

/-- The loop that reads; `n` is its fuel. -/
def readOver (fuel : ℕ) (buffer : Vec) :
    ℕ → UInt64 → List UInt8 → ℕ → User .reader r V (Option (Vec × Outcome E IoReport))
  | 0, _, _, _ => .ret none
  | n + 1, skip, discarded, numRead =>
    if skip = 0 then thenReadToEnd fuel buffer ⟨0, numRead⟩
    else
      .ask (.callBase .view (readPart E (exactRead discarded.length skip) discarded)) fun reply =>
        match reply with
        | .answer (discarded, .ok actual) =>
          if actual = 0 then .ret (some (buffer, .err (Error.ofErrorKind .unexpectedEof)))
          else
            match U64.sub skip (U64.ofUsize actual) with
            | none => .ret (some (buffer, .panic))
            | some skip => readOver fuel buffer n skip discarded (numRead + 1)
        | .answer (_, .err e) => .ret (some (buffer, .err e))
        | _ => .ret (some (buffer, .panic))

/-- `read_with_skip`; `none` says that the fuel was not enough. -/
def readWithSkip (fuel : ℕ) (skip : UInt64) (buffer : Vec) :
    User .reader r V (Option (Vec × Outcome E IoReport)) :=
  .ask (.call .view .seek (looping (seekOver E fuel skip))) fun reply =>
    match reply with
    | .answer (some (.ok numSeek)) => thenReadToEnd fuel buffer ⟨numSeek, 0⟩
    | .answer (some (.err e)) => .ret (some (buffer, .err e))
    | .answer (some .panic) => .ret (some (buffer, .panic))
    | .answer none => .ret none
    | _ => readOver fuel buffer fuel skip (List.replicate discardSize 0) 0

/-! ### By seeking -/

omit [ErrorImpl E] [Target] [Alloc] [Read E V] [Seek E V] [Program R] in
/-- `skip as i64` is negative when `skip` is not an `i64`. -/
theorem toInt_toInt64 (skip : UInt64) :
    skip.toInt64.toInt =
      if skip.toNat < 2 ^ 63 then (skip.toNat : ℤ) else skip.toNat - (2 ^ 64 : ℕ) := by
  have he : skip.toInt64.toInt = skip.toBitVec.toInt := rfl
  have hu : skip.toNat = skip.toBitVec.toNat := rfl
  rw [he, hu, BitVec.toInt_eq_toNat_cond]
  split <;> split <;> omega

variable {f : FileReader E V}

omit [Alloc] [Program R] in
/-- **Seeking comes as far as it is told to**, also past the end of the file; but what is not an
`i64` is refused. -/
theorem seekOver_file (hf : f.Seeks) (v : V) {skip : UInt64}
    (hpos : (f.file v).position + skip.toNat < 2 ^ 64) :
    ∃ v' out, Loop.Returns (fun n => seekOver E n skip v) (v', out) ∧
      ((skip.toNat < 2 ^ 63 ∧ (∃ numSeek, out = .ok numSeek) ∧
          f.file v' = (f.file v).advance skip.toNat) ∨
        (2 ^ 63 ≤ skip.toNat ∧ out = .err (Error.ofErrorKind .invalidInput) ∧
          f.file v' = f.file v)) := by
  by_cases hzero : skip = 0
  · subst hzero
    refine ⟨v, .ok 0, ⟨1, Loop.loop_done ?_ 0⟩, Or.inl ⟨by decide, ⟨0, rfl⟩, rfl⟩⟩
    simp only [seekOverBody, if_true]
  · obtain ⟨v', hseek, hfile⟩ := hf v (.fromCurrent skip.toInt64)
    have htarget : Cursor.seekTarget (f.file v) (.fromCurrent skip.toInt64)
        = (f.file v).position + skip.toInt64.toInt := rfl
    rw [htarget, toInt_toInt64] at hseek hfile
    by_cases hlt : skip.toNat < 2 ^ 63
    · rw [if_pos hlt, File.seekTo_some (n := (f.file v).position + skip.toNat) _ (by omega) hpos]
        at hseek hfile
      have hnext : seekOverBody (E := E) (v, skip, 0) = .next (v', 0, 1) := by
        have hoffset : skip - UInt64.ofNat (min skip.toNat (2 ^ 63 - 1)) = 0 := by
          rw [Nat.min_eq_left (by omega), UInt64.ofNat_toNat, UInt64.sub_self]
        simp only [seekOverBody, if_neg hzero, hseek, hoffset]
      refine ⟨v', .ok 1, ⟨2, (Loop.loop_next hnext 1).trans (Loop.loop_done ?_ 0)⟩,
        Or.inl ⟨hlt, ⟨1, rfl⟩, hfile⟩⟩
      simp only [seekOverBody, if_true]
    · rw [if_neg hlt, File.seekTo_none _ _ (by omega)] at hseek hfile
      refine ⟨v', .err (Error.ofErrorKind .invalidInput), ⟨1, Loop.loop_done ?_ 0⟩,
        Or.inr ⟨by omega, rfl, hfile⟩⟩
      simp only [seekOverBody, if_neg hzero, hseek]

/-! ### By reading -/

omit [ErrorImpl E] [Alloc] [Read E V] [Seek E V] [Program R] in
theorem exactRead_le (len : ℕ) (skip : UInt64) :
    exactRead len skip ≤ len ∧ exactRead len skip ≤ skip.toNat := by
  unfold exactRead usizeTryFrom
  split
  · exact ⟨Nat.min_le_left _ _, Nat.min_le_right _ _⟩
  · refine ⟨Nat.min_le_left _ _, le_trans (Nat.min_le_right _ _) ?_⟩
    show 2 ^ usizeBits - 1 ≤ skip.toNat
    omega

omit [ErrorImpl E] [Alloc] [Read E V] [Seek E V] [Program R] in
theorem exactRead_pos {len : ℕ} {skip : UInt64} (hlen : 0 < len) (hskip : skip ≠ 0) :
    0 < exactRead len skip := by
  have hpos : 0 < skip.toNat := Nat.pos_of_ne_zero fun h => hskip (UInt64.toNat_inj.mp h)
  have husize : 1 < 2 ^ usizeBits := Nat.one_lt_two_pow (by
    rcases Target.usizeBits_mem with h | h | h <;> omega)
  unfold exactRead usizeTryFrom
  split
  · exact lt_min hlen hpos
  · exact lt_min hlen (show 0 < 2 ^ usizeBits - 1 by omega)

omit [ErrorImpl E] [Alloc] [Seek E V] [Program R] in
/-- A part of the file is read, and of the buffer, unless there is nothing left. -/
theorem readPart_file (f : FileReader E V) (hsure : Unfailing E V) (v : V) {skip : UInt64}
    (hskip : skip ≠ 0) {discarded : List UInt8} (hsize : discarded.length = discardSize) :
    ∃ v' discarded' actual,
      readPart E (exactRead discarded.length skip) discarded v = (v', discarded', .ok actual) ∧
      discarded'.length = discardSize ∧ actual ≤ skip.toNat ∧
      f.file v' = (f.file v).advance actual ∧
      (f.file v).rest.length = actual + (f.file v').rest.length ∧
      (actual = 0 → (f.file v).rest.length = 0) := by
  obtain ⟨n, hn⟩ : ∃ n, n = exactRead discarded.length skip := ⟨_, rfl⟩
  obtain ⟨hlen, hle⟩ := exactRead_le discarded.length skip
  have hpos := exactRead_pos (show 0 < discarded.length by rw [hsize]; decide) hskip
  rw [← hn] at hlen hle hpos ⊢
  have htake : (discarded.take n).length = n := by
    rw [List.length_take, Nat.min_eq_left hlen]
  have hbuf : (discarded.take n).length ≤ isizeMax := by
    rw [htake]
    exact le_trans hlen (hsize ▸ le_isizeMax_of_le (by decide))
  rcases hread : Read.read (E := E) v (discarded.take n) with ⟨v', head, actual | e | _⟩
  · obtain ⟨hactual, hpass, hend⟩ := f.source.read_ok hbuf hread
    have hhead := read_length_of_eq hread
    have hfile := f.read_ok hbuf hread
    rw [htake] at hactual hhead
    rw [f.rest v, f.rest v'] at hpass
    rw [f.rest v'] at hend
    obtain ⟨l', hl', hrest⟩ := hpass.of_list
    have hroom : (f.file v).rest.length = actual + (f.file v').rest.length := by
      rw [show (f.file v').rest = l' from List.ext_getElem? fun i => congrFun hrest i, hl',
        List.length_append, List.length_take]
      omega
    refine ⟨v', head ++ discarded.drop n, actual, by rw [readPart, hread], ?_, by omega, hfile,
      hroom, ?_⟩
    · rw [List.length_append, List.length_drop]
      omega
    · intro hactual
      have hnil := (hend hactual (List.ne_nil_of_length_pos (by omega))).eq_nil
      rw [hroom, hactual, hnil]
      rfl
  · exact absurd ⟨v, _, head, trivial, hbuf, hread⟩ (hsure v' e)
  · exact absurd (by rw [hread]) (f.source.read_ne_panic v _ hbuf)

omit [Seek E V] in
/-- **Reading comes as far as the file goes.** -/
theorem readOver_provider (f : FileReader E V) (hsure : Unfailing E V)
    (provided : Slot .reader → Bool) (v : V) (skip : UInt64) {discarded : List UInt8}
    (hsize : discarded.length = discardSize) (numRead : ℕ) :
    ∃ m v' numRead', f.file v' = (f.file v).advance (min skip.toNat (f.file v).rest.length) ∧
      ∀ n, m ≤ n → ∀ fuel buffer,
        (⟨v, provided⟩ : Provider .reader V).run
            (readOver (E := E) (r := r) fuel buffer n skip discarded numRead) =
          if skip.toNat ≤ (f.file v).rest.length then
            (⟨v', provided⟩ : Provider .reader V).run
              (thenReadToEnd (E := E) (r := r) fuel buffer ⟨0, numRead'⟩)
          else (⟨v', provided⟩, some (buffer, .err (Error.ofErrorKind .unexpectedEof))) := by
  obtain ⟨k, hk⟩ : ∃ k, k = skip.toNat := ⟨_, rfl⟩
  induction k using Nat.strong_induction_on generalizing v skip discarded numRead with
  | _ k ih =>
    subst hk
    by_cases hzero : skip = 0
    · subst hzero
      refine ⟨1, v, numRead, rfl, ?_⟩
      intro n hn fuel buffer
      obtain ⟨n, rfl⟩ : ∃ n', n = n' + 1 := ⟨n - 1, by omega⟩
      rw [readOver, if_pos rfl, if_pos (show (0 : UInt64).toNat ≤ _ from Nat.zero_le _)]
    · have hpos : 0 < skip.toNat := Nat.pos_of_ne_zero fun h => hzero (UInt64.toNat_inj.mp h)
      obtain ⟨v₁, discarded₁, actual, hpart, hsize₁, hle, hfile, hroom, hend⟩ :=
        readPart_file f hsure v hzero hsize
      by_cases hactual : actual = 0
      · have hnone := hend hactual
        refine ⟨1, v₁, numRead, ?_, ?_⟩
        · rw [hfile, hactual, hnone, Nat.min_zero]
        · intro n hn fuel buffer
          obtain ⟨n, rfl⟩ : ∃ n', n = n' + 1 := ⟨n - 1, by omega⟩
          rw [readOver, if_neg hzero, if_neg (by omega)]
          simp only [Provider.run, Client.serve, Provider.request, Provider.callMethod, hpart,
            if_pos hactual]
      · have hskip := skip.toNat_lt
        have hto : (U64.ofUsize actual).toNat = actual := U64.toNat_ofUsize (by omega)
        have hsub : U64.sub skip (U64.ofUsize actual) = some (skip - U64.ofUsize actual) :=
          U64.sub_of_le (by omega)
        have hskip₁ : (skip - U64.ofUsize actual).toNat = skip.toNat - actual :=
          U64.toNat_sub_ofUsize (by omega)
        obtain ⟨m, v', numRead', hfile', hrun⟩ := ih _ (by omega) v₁ (skip - U64.ofUsize actual)
          hsize₁ (numRead + 1) hskip₁.symm
        refine ⟨m + 1, v', numRead', ?_, ?_⟩
        · rw [hfile', hskip₁, hfile, File.advance_advance, ← hfile, hroom]
          congr 1
          omega
        · intro n hn fuel buffer
          obtain ⟨n, rfl⟩ : ∃ n', n = n' + 1 := ⟨n - 1, by omega⟩
          have hnext := hrun n (by omega) fuel buffer
          rw [hskip₁] at hnext
          rw [readOver, if_neg hzero]
          simp only [Provider.run, Client.serve, Provider.request, Provider.callMethod, hpart,
            if_neg hactual, hsub]
          exact hnext.trans (if_congr (by omega) rfl rfl)

/-! ### The rest -/

omit [Seek E V] in
/-- What is left of the file is appended. -/
theorem thenReadToEnd_provider (f : FileReader E V) (hsure : Unfailing E V)
    (provided : Slot .reader → Bool) (v : V) {buffer : Vec}
    (hgrant : ¬ RefusesWithin ((buffer.bytes ++ (f.file v).rest).length + 32)) :
    ∃ m v' buffer', ∃ inner : IoReport, buffer'.bytes = buffer.bytes ++ (f.file v).rest ∧
      f.file v' = (f.file v).advance (f.file v).rest.length ∧
      ∀ fuel, m ≤ fuel → ∀ report : IoReport,
        (⟨v, provided⟩ : Provider .reader V).run
            (thenReadToEnd (E := E) (r := r) fuel buffer report) =
          (⟨v', provided⟩, some (buffer', .ok (report.plus inner))) := by
  obtain ⟨⟨v', buffer', out⟩, m, hrun⟩ := f.source.readToEnd_ends (f.rest v) buffer
  have hsteady : Steady E fun _ : V => True :=
    ⟨kept_true, fun _ hlen hread => absurd ⟨_, _, _, trivial, hlen, hread⟩ (hsure _ _)⟩
  obtain ⟨rfl, hbytes, hend, -, hmoved⟩ := (f.source.readToEnd_exit
    (hsteady.and (f.kept_moved v)).kept ⟨trivial, [], .refl _, rfl⟩ hrun).of_steady
      (hsteady.and (f.kept_moved v)) (f.rest v) hgrant
  obtain ⟨D, hmoved⟩ := hmoved
  have hfile := hmoved.file
  rw [hmoved.of_ended hend] at hfile
  obtain ⟨inner, hplug⟩ := plugReadToEnd_of (show readToEnd (E := E) m v buffer = _ from hrun)
  refine ⟨m, v', buffer', inner, hbytes, hfile, ?_⟩
  intro fuel hfuel report
  have hcall : looping (fun reader => plugReadToEnd E fuel reader buffer) v
      = (v', some (buffer', .ok inner)) := looping_of (plugReadToEnd_mono v buffer hfuel hplug)
  simp only [Provider.run, thenReadToEnd, Client.serve, Provider.request, Provider.callMethod, hcall]

/-! ### Both ways -/

/-- The bytes behind those that are skipped are appended, and nothing is left. -/
structure ReadBehind (f : FileReader E V) (v : V) (skip : ℕ) (buffer : Vec) (v' : V) (buffer' : Vec)
    (out : Outcome E IoReport) : Prop where
  ok : ∃ report, out = .ok report
  bytes : buffer'.bytes = buffer.bytes ++ (f.file v).rest.drop skip
  file : f.file v' = (f.file v).advance (max skip (f.file v).rest.length)

omit [Seek E V] in
/-- The rest is read from behind what was skipped. -/
theorem thenReadToEnd_behind (f : FileReader E V) (hsure : Unfailing E V)
    (provided : Slot .reader → Bool) {v v₁ : V} {skip : ℕ}
    (hfile : f.file v₁ = (f.file v).advance skip) {buffer : Vec}
    (hgrant : ¬ RefusesWithin (buffer.bytes.length + (f.file v).rest.length + 32))
    (report : IoReport) :
    ∃ m v' buffer' out, ReadBehind f v skip buffer v' buffer' out ∧ ∀ fuel, m ≤ fuel →
      (⟨v₁, provided⟩ : Provider .reader V).run (thenReadToEnd (E := E) (r := r) fuel buffer report) =
        (⟨v', provided⟩, some (buffer', out)) := by
  have hrest : (f.file v₁).rest = (f.file v).rest.drop skip := by
    rw [hfile, File.rest_advance]
  have hgrant' : ¬ RefusesWithin ((buffer.bytes ++ (f.file v₁).rest).length + 32) := by
    refine fun href => hgrant (href.mono ?_)
    rw [hrest, List.length_append, List.length_drop]
    omega
  obtain ⟨m, v', buffer', inner, hbytes, hfile', hrun⟩ := thenReadToEnd_provider (r := r) f hsure
    provided v₁ hgrant'
  refine ⟨m, v', buffer', _, ⟨⟨_, rfl⟩, ?_, ?_⟩, fun fuel hfuel => hrun fuel hfuel report⟩
  · rw [hbytes, hrest]
  · rw [hfile', hrest, hfile, File.advance_advance, List.length_drop]
    congr 1
    omega

/-- With `Seek`. -/
theorem readWithSkip_seeks (f : FileReader E V) (hf : f.Seeks) (hsure : Unfailing E V)
    (a : Provider .reader V) (hs : a.provided .seek = true) {skip : UInt64}
    (hskip : skip.toNat < 2 ^ 63) (hpos : (f.file a.value).position + skip.toNat < 2 ^ 64)
    {buffer : Vec}
    (hgrant : ¬ RefusesWithin (buffer.bytes.length + (f.file a.value).rest.length + 32)) :
    ∃ m v' buffer' out, ReadBehind f a.value skip.toNat buffer v' buffer' out ∧ ∀ fuel, m ≤ fuel →
      a.run (readWithSkip (E := E) (r := r) fuel skip buffer)
        = (⟨v', a.provided⟩, some (buffer', out)) := by
  obtain ⟨v₁, out₁, ⟨m₁, hrun₁⟩, ⟨-, ⟨numSeek, rfl⟩, hfile⟩ | ⟨hge, -⟩⟩ := seekOver_file hf a.value hpos
  · obtain ⟨m, v', buffer', out, hbehind, hrun⟩ := thenReadToEnd_behind (r := r) f hsure a.provided
      hfile hgrant ⟨numSeek, 0⟩
    refine ⟨max m₁ m, v', buffer', out, hbehind, ?_⟩
    intro fuel hfuel
    have hcall : looping (seekOver E fuel skip) a.value = (v₁, some (.ok numSeek)) :=
      looping_of (Loop.loop_mono _ _ (show m₁ ≤ fuel by omega) hrun₁)
    rw [← hrun fuel (by omega)]
    simp only [Provider.run, readWithSkip, Client.serve, Provider.request, hs, if_true,
      Provider.callMethod, hcall]
  · omega

/-- Without it. -/
theorem readWithSkip_reads (f : FileReader E V) (hsure : Unfailing E V)
    (a : Provider .reader V) (hs : a.provided .seek = false) (skip : UInt64) {buffer : Vec}
    (hgrant : ¬ RefusesWithin (buffer.bytes.length + (f.file a.value).rest.length + 32)) :
    ∃ m v' buffer' out,
      (if skip.toNat ≤ (f.file a.value).rest.length then
        ReadBehind f a.value skip.toNat buffer v' buffer' out
      else out = .err (Error.ofErrorKind .unexpectedEof) ∧ buffer' = buffer ∧
        f.file v' = (f.file a.value).advance (f.file a.value).rest.length) ∧
      ∀ fuel, m ≤ fuel → a.run (readWithSkip (E := E) (r := r) fuel skip buffer)
        = (⟨v', a.provided⟩, some (buffer', out)) := by
  obtain ⟨m₁, v₁, numRead, hfile, hrun₁⟩ := readOver_provider (E := E) (r := r) f hsure a.provided
    a.value skip (List.length_replicate (n := discardSize) (a := 0)) 0
  have hstart : ∀ fuel, a.run (readWithSkip (E := E) (r := r) fuel skip buffer) =
      (⟨a.value, a.provided⟩ : Provider .reader V).run
        (readOver (E := E) (r := r) fuel buffer fuel skip (List.replicate discardSize 0) 0) := by
    intro fuel
    simp only [Provider.run, readWithSkip, Client.serve, Provider.request, hs, Bool.false_eq_true,
      if_false]
  by_cases hle : skip.toNat ≤ (f.file a.value).rest.length
  · rw [Nat.min_eq_left hle] at hfile
    obtain ⟨m, v', buffer', out, hbehind, hrun⟩ := thenReadToEnd_behind (r := r) f hsure a.provided
      hfile hgrant ⟨0, numRead⟩
    refine ⟨max m₁ m, v', buffer', out, ?_, ?_⟩
    · rwa [if_pos hle]
    · intro fuel hfuel
      rw [hstart, hrun₁ fuel (by omega), if_pos hle, hrun fuel (by omega)]
  · rw [Nat.min_eq_right (by omega)] at hfile
    refine ⟨m₁, v₁, buffer, .err (Error.ofErrorKind .unexpectedEof), ?_, ?_⟩
    · rw [if_neg hle]
      exact ⟨rfl, rfl, hfile⟩
    · intro fuel hfuel
      rw [hstart, hrun₁ fuel hfuel, if_neg hle]

/-! ### Through the wrapper -/

omit [Seek E V] in
theorem thenReadToEnd_onView (fuel : ℕ) (buffer : Vec) (report : IoReport) :
    (thenReadToEnd (E := E) fuel buffer report : User .reader r V _).All
      fun _ q => q.Portable ∧ q.OnView := by
  refine ⟨⟨trivial, rfl⟩, ?_⟩
  intro reply
  rcases reply with _ | _ | _ | ⟨buffer', inner | e | _⟩ <;> exact trivial

omit [Seek E V] in
theorem readOver_onView (fuel : ℕ) (buffer : Vec) (n : ℕ) (skip : UInt64) (discarded : List UInt8)
    (numRead : ℕ) :
    (readOver (E := E) fuel buffer n skip discarded numRead : User .reader r V _).All
      fun _ q => q.Portable ∧ q.OnView := by
  induction n generalizing skip discarded numRead with
  | zero => exact trivial
  | succ n ih =>
    rw [readOver]
    split
    · exact thenReadToEnd_onView fuel buffer _
    · refine ⟨⟨trivial, rfl⟩, ?_⟩
      intro reply
      rcases reply with _ | _ | ⟨discarded', actual | e | _⟩
      · exact trivial
      · exact trivial
      · show Client.All _ (if actual = 0 then _ else _)
        split
        · exact trivial
        · cases U64.sub skip (U64.ofUsize actual) with
          | none => exact trivial
          | some skip' => exact ih skip' discarded' (numRead + 1)
      · exact trivial
      · exact trivial

/-- Everything is asked of the `ReaderMut`. -/
theorem readWithSkip_onView (fuel : ℕ) (skip : UInt64) (buffer : Vec) :
    (readWithSkip (E := E) fuel skip buffer : User .reader r V _).All
      fun _ q => q.Portable ∧ q.OnView := by
  refine ⟨⟨trivial, rfl, Nat.one_lt_two⟩, ?_⟩
  intro reply
  rcases reply with _ | _ | _ | numSeek | e | _
  · exact readOver_onView fuel buffer fuel skip _ 0
  · exact readOver_onView fuel buffer fuel skip _ 0
  · exact trivial
  · exact thenReadToEnd_onView fuel buffer _
  · exact trivial
  · exact trivial

end

theorem Cursor.unfailing [Target] {E T : Type} [AsRef T] : Unfailing E (Cursor T) := by
  intro c e h
  obtain ⟨c₀, buf, buf', -, -, hread⟩ := h
  obtain ⟨c', hok, -⟩ := c₀.read_file (E := E) buf
  have hread' : c₀.read (E := E) buf = (c, buf', .err e) := hread
  rw [hok] at hread'
  cases hread'

open Machine64

/-- A cursor over `b"Hello, world!"`. -/
def Device.greeting : Cursor Slice :=
  ⟨⟨[72, 101, 108, 108, 111, 44, 32, 119, 111, 114, 108, 100, 33], by decide⟩, 0⟩

end NotIo.Flexible
