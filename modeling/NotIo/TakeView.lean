import NotIo.Coherent
import Mathlib.Logic.Relation

/-!
# `Take` is a bounded prefix

`TakeAdv view t D t'` says that on the way from `t` to `t'` the bytes `D` were delivered:
they are what the stream of the inner reader begins with, the inner reader has passed just
them, and the limit is lower by their number.  All calls to `Take` move it in this way
(`take_delivers`), so the loops do too.  `TakeShown` is what `fill_buf` does beside: it shows
the bytes that `consume` then delivers, and as many as the limit and the inner reader have.

* `take_bounded_prefix`: whole runs, under any mixture of the two interfaces.
-/

namespace NotIo

section

variable [Target] {E R : Type} [BufRead E R]

/-- On the way from `t` to `t'` the bytes `D` were delivered. -/
structure TakeAdv (view : Views E R) (t : Take R) (D : List UInt8) (t' : Take R) : Prop where
  passes : Passes (view.rest t.inner) D (view.rest t'.inner)
  le : D.length ≤ t.limit.toNat
  limit : t'.limit.toNat = t.limit.toNat - D.length

namespace TakeAdv

variable {view : Views E R} {t t' t'' : Take R} {D D' : List UInt8}

theorem refl (t : Take R) : TakeAdv view t [] t := ⟨.refl _, Nat.zero_le _, rfl⟩

theorem trans (h : TakeAdv view t D t') (h' : TakeAdv view t' D' t'') :
    TakeAdv view t (D ++ D') t'' := by
  have hle := h.le
  have hle' := h'.le
  have hl := h.limit
  have hl' := h'.limit
  refine ⟨h.passes.trans h'.passes, ?_, ?_⟩ <;> rw [List.length_append] <;> omega

end TakeAdv

/-! ### One call -/

variable (view : Views E R)

theorem take_read_ok {t t' : Take R} {buf buf' : List UInt8} {n : ℕ} (hlen : buf.length ≤ isizeMax)
    (h : Read.read t buf = (t', buf', (.ok n : Outcome E ℕ))) :
    n ≤ buf.length ∧ TakeAdv view t (buf'.take n) t' := by
  rcases Take.read_cases h with ⟨-, rfl, -, ho⟩ | ⟨-, head, hinner, rfl, hlimit⟩
  · cases ho
    exact ⟨Nat.zero_le _, .refl t'⟩
  · obtain ⟨hn, hpass⟩ := view.read_ok hinner
    have hhead := read_length_of_eq hinner
    rw [List.length_take, capMin_eq t.limit (lt_of_le_isizeMax hlen)] at hn hhead
    have hlim := t.limit.toNat_lt
    have htake : (head ++ buf.drop (capMin t.limit buf.length)).take n = head.take n :=
      List.take_append_of_le_length (by omega)
    have hsize : (head.take n).length = n := by
      rw [List.length_take]
      omega
    rw [htake]
    refine ⟨by omega, hpass, by omega, ?_⟩
    rw [hlimit, hsize, Take.limitAfter, U64.toNat_saturatingSub,
      U64.toNat_ofUsize (show n < 2 ^ 64 by omega)]

theorem take_read_err {t t' : Take R} {buf buf' : List UInt8} {e : E}
    (h : Read.read t buf = (t', buf', .err e)) :
    t'.limit = t.limit ∧ TakeAdv view t [] t' := by
  rcases Take.read_cases h with ⟨-, -, -, ho⟩ | ⟨-, head, hinner, -, hlimit⟩
  · cases ho
  · exact ⟨hlimit, view.read_err hinner, Nat.zero_le _, congrArg UInt64.toNat hlimit⟩

include view in
theorem take_read_ne_panic (t : Take R) (buf : List UInt8) :
    (Read.read (E := E) t buf).2.2 ≠ .panic := by
  rcases hread : Read.read (E := E) t buf with ⟨t', buf', o⟩
  rcases Take.read_cases hread with ⟨-, -, -, rfl⟩ | ⟨-, head, hinner, -, -⟩
  · exact Outcome.ok_ne_panic
  · have hne := view.read_ne_panic t.inner (buf.take (capMin t.limit buf.length))
    rwa [hinner] at hne

/-- Passing over no more than the limit and the window of the inner reader. -/
theorem take_consume (t : Take R) {amt : ℕ} (hamt : amt ≤ min t.limit.toNat (view.window t.inner)) :
    ∃ t' D, BufRead.consume E t amt = some t' ∧ D.length = amt ∧ TakeAdv view t D t' := by
  have hwin := view.window_le t.inner
  obtain ⟨inner, D, hc, hD, hpass⟩ := view.consume t.inner amt (by omega)
  refine ⟨_, D, Take.consume_of_le (by omega) (lt_of_le_isizeMax (by omega)) hc, hD, hpass,
    by omega, ?_⟩
  rw [hD]
  exact U64.toNat_sub_ofUsize (by omega)

/-- **`fill_buf` has shown `s`**: as many bytes as the limit and the window of the inner reader
allow, and those that `consume` then delivers. -/
structure TakeShown (view : Views E R) (t t' : Take R) (s : Slice) : Prop where
  adv : TakeAdv view t [] t'
  limit : t'.limit = t.limit
  length : s.bytes.length = min t'.limit.toNat (view.window t'.inner)
  consume : ∀ amt, amt ≤ s.bytes.length →
    ∃ t'', BufRead.consume E t' amt = some t'' ∧ TakeAdv view t' (s.bytes.take amt) t''

theorem take_fillBuf_ok {t t' : Take R} {s : Slice}
    (h : BufRead.fillBuf (E := E) t = (t', .ok s)) : TakeShown view t t' s := by
  rcases Take.fillBuf_cases h with ⟨hzero, rfl, ho⟩ | ⟨-, o, hinner, hlimit, ho⟩
  · cases ho
    refine ⟨.refl t', rfl, by rw [hzero, Nat.zero_min]; rfl, ?_⟩
    intro amt hamt
    obtain rfl : amt = 0 := Nat.le_zero.mp hamt
    obtain ⟨t'', D, hc, hD, hadv⟩ := take_consume view t' (Nat.zero_le _)
    obtain rfl : D = [] := List.eq_nil_of_length_eq_zero hD
    exact ⟨t'', hc, hadv⟩
  · rcases o with s₀ | e | _ <;> cases ho
    obtain ⟨hpass, ⟨rest', hshow⟩, hwin⟩ := view.fillBuf_ok hinner
    have hlen : (s₀.take (min t.limit.toNat s₀.bytes.length)).bytes.length
        = min t'.limit.toNat (view.window t'.inner) := by
      rw [Slice.take_bytes, List.length_take, hwin, hlimit]
      omega
    refine ⟨⟨hpass, Nat.zero_le _, congrArg UInt64.toNat hlimit⟩, hlimit, hlen, ?_⟩
    intro amt hamt
    rw [hlen] at hamt
    obtain ⟨t'', D, hc, hD, hadv⟩ := take_consume view t' hamt
    refine ⟨t'', hc, ?_⟩
    -- what is passed over and what was shown are both what the stream begins with
    have hDe : D = s₀.bytes.take amt := hshow.take hadv.passes (by omega)
    rw [Slice.take_bytes, List.take_take, ← hlimit, Nat.min_eq_left (by omega), ← hDe]
    exact hadv

theorem take_fillBuf_err {t t' : Take R} {e : E} (h : BufRead.fillBuf t = (t', .err e)) :
    t'.limit = t.limit ∧ TakeAdv view t [] t' := by
  rcases Take.fillBuf_cases h with ⟨-, -, ho⟩ | ⟨-, o, hinner, hlimit, ho⟩
  · cases ho
  · rcases o with s₀ | e₀ | _ <;> cases ho
    exact ⟨hlimit, view.fillBuf_err hinner, Nat.zero_le _, congrArg UInt64.toNat hlimit⟩

include view in
theorem take_fillBuf_ne_panic (t : Take R) : (BufRead.fillBuf (E := E) t).2 ≠ .panic := by
  rcases hfill : BufRead.fillBuf (E := E) t with ⟨t', o⟩
  rcases Take.fillBuf_cases hfill with ⟨-, -, rfl⟩ | ⟨-, o', hinner, -, rfl⟩
  · exact Outcome.ok_ne_panic
  · have hne := view.fillBuf_ne_panic t.inner
    rw [hinner] at hne
    rcases o' with s₀ | e | _
    · exact Outcome.ok_ne_panic
    · exact Outcome.err_ne_panic
    · exact absurd rfl hne

/-- **The calls to `Take` deliver bytes**, and the limit counts them. -/
theorem take_delivers : Delivers E (TakeAdv view) where
  refl := .refl
  trans h h' := h.trans h'
  read_ok hlen h := take_read_ok view hlen h
  read_err _ h := (take_read_err view h).2
  read_ne_panic := take_read_ne_panic view
  fillBuf_ok h := ⟨(take_fillBuf_ok view h).adv, (take_fillBuf_ok view h).consume⟩
  fillBuf_err h := (take_fillBuf_err view h).2
  fillBuf_ne_panic := take_fillBuf_ne_panic view

/-! ### Runs -/

/-- A call to `Take`, with what it was given and what it gave back. -/
inductive TakeCall (E : Type) where
  | read (buf : Slice) (buf' : List UInt8) (out : Outcome E ℕ)
  | fillBuf (out : Outcome E Slice)
  | consume (amt : ℕ)
  | readExact (buf : Slice) (buf' : List UInt8) (out : Outcome E Unit)
  | readUntil (byte : UInt8) (buf buf' : Vec) (out : Outcome E ℕ)
  | readToEnd (buf buf' : Vec) (out : Outcome E ℕ)

/-- `D` are the bytes that the call copied out or passed over. -/
def TakeCall.Hands (D : List UInt8) : TakeCall E → Prop
  | .read _ buf' (.ok n) => D = buf'.take n
  | .read _ _ _ => D = []
  | .fillBuf _ => D = []
  | .consume amt => D.length = amt
  | .readExact _ buf' out => D <+: buf' ∧ (out = .ok () → D = buf')
  | .readUntil _ buf buf' _ => buf'.bytes = buf.bytes ++ D
  | .readToEnd buf buf' _ => buf'.bytes = buf.bytes ++ D

variable [Alloc] [ErrorImpl E]

/-- The call leads from `t` to `t'`.  No more is consumed than `fill_buf` shows. -/
def TakeStep (t : Take R) : TakeCall E → Take R → Prop
  | .read buf buf' out, t' => Read.read t buf.bytes = (t', buf', out)
  | .fillBuf out, t' => BufRead.fillBuf t = (t', out)
  | .consume amt, t' =>
    amt ≤ min t.limit.toNat (view.window t.inner) ∧ BufRead.consume E t amt = some t'
  | .readExact buf buf' out, t' => ∃ n, readExact n t buf.bytes = some (t', buf', out)
  | .readUntil byte buf buf' out, t' => ∃ n, readUntil n t byte buf = some (t', buf', out)
  | .readToEnd buf buf' out, t' => ∃ n, readToEnd n t buf = some (t', buf', out)

inductive TakeRun : Take R → List (TakeCall E) → Take R → Prop
  | nil (t : Take R) : TakeRun t [] t
  | cons {t t₁ t' : Take R} {call : TakeCall E} {calls : List (TakeCall E)} :
      TakeStep view t call t₁ → TakeRun t₁ calls t' → TakeRun t (call :: calls) t'

variable {view}

/-- **A call delivers what it hands on.** -/
theorem takeStep_adv {t t' : Take R} {call : TakeCall E} (h : TakeStep view t call t') :
    ∃ D, call.Hands D ∧ TakeAdv view t D t' := by
  cases call with
  | read buf buf' out =>
    rcases out with n | e | _
    · exact ⟨_, rfl, (take_read_ok view buf.length_le h).2⟩
    · exact ⟨[], rfl, (take_read_err view h).2⟩
    · exact absurd (congrArg (·.2.2) h) (take_read_ne_panic view t buf.bytes)
  | fillBuf out =>
    rcases out with s | e | _
    · exact ⟨[], rfl, (take_fillBuf_ok view h).adv⟩
    · exact ⟨[], rfl, (take_fillBuf_err view h).2⟩
    · exact absurd (congrArg (·.2) h) (take_fillBuf_ne_panic view t)
  | consume amt =>
    obtain ⟨hamt, hc⟩ := h
    obtain ⟨t₁, D, hc', hD, hadv⟩ := take_consume view t hamt
    rw [hc, Option.some.injEq] at hc'
    exact ⟨D, hD, hc' ▸ hadv⟩
  | readExact buf buf' out =>
    obtain ⟨n, hrun⟩ := h
    obtain ⟨D, hadv, hD⟩ := (take_delivers view).readExact_delivers buf.length_le hrun
    exact ⟨D, hD, hadv⟩
  | readUntil byte buf buf' out =>
    obtain ⟨n, hrun⟩ := h
    obtain ⟨D, hadv, hD⟩ := (take_delivers view).readUntil_delivers hrun
    exact ⟨D, hD, hadv⟩
  | readToEnd buf buf' out =>
    obtain ⟨n, hrun⟩ := h
    obtain ⟨D, hadv, hD⟩ := (take_delivers view).readToEnd_delivers hrun
    exact ⟨D, hD, hadv⟩

theorem takeRun_adv {t t' : Take R} {calls : List (TakeCall E)} (h : TakeRun view t calls t') :
    ∃ Ds, List.Forall₂ (fun call D => TakeCall.Hands D call) calls Ds ∧
      TakeAdv view t Ds.flatten t' := by
  induction h with
  | nil t => exact ⟨[], .nil, .refl t⟩
  | cons hstep _ ih =>
    obtain ⟨D, hD, hadv⟩ := takeStep_adv hstep
    obtain ⟨Ds, hDs, hadvs⟩ := ih
    exact ⟨D :: Ds, .cons hD hDs, hadv.trans hadvs⟩

/-! ### An endless stream -/

/-- A read leads from one state of the reader to the next. -/
def ReadsTo (E : Type) {R : Type} [Read E R] (r r' : R) : Prop :=
  ∃ buf : Slice, (Read.read (E := E) r buf.bytes).1 = r'

/-- However often it is read from, the reader neither fails nor comes to an end. -/
def Endless (E : Type) {R : Type} [Read E R] (r : R) : Prop :=
  ∀ r', Relation.ReflTransGen (ReadsTo E) r r' → ∀ buf : Slice, buf.bytes ≠ [] →
    ∃ n, 0 < n ∧ (Read.read (E := E) r' buf.bytes).2.2 = .ok n

omit [Alloc] [ErrorImpl E] in
theorem Endless.read {r r' : R} (h : Endless E r) {buf buf' : List UInt8} {o : Outcome E ℕ}
    (hlen : buf.length ≤ isizeMax) (hread : Read.read r buf = (r', buf', o)) : Endless E r' := by
  intro r'' hreads
  exact h r'' (.head ⟨⟨buf, hlen⟩, congrArg Prod.fst hread⟩ hreads)

omit [Alloc] [ErrorImpl E] in
theorem Endless.answer {r r' : R} (h : Endless E r) {buf buf' : List UInt8} {o : Outcome E ℕ}
    (hlen : buf.length ≤ isizeMax) (hne : buf ≠ []) (hread : Read.read r buf = (r', buf', o)) :
    ∃ n, 0 < n ∧ o = .ok n := by
  obtain ⟨n, hn, ho⟩ := h r .refl ⟨buf, hlen⟩ hne
  rw [hread] at ho
  exact ⟨n, hn, ho⟩

omit [Alloc] [ErrorImpl E] in
/-- A read of the `Take` leaves an endless reader endless. -/
theorem Endless.take_read {t t' : Take R} (h : Endless E t.inner) {buf buf' : List UInt8}
    {o : Outcome E ℕ} (hlen : buf.length ≤ isizeMax) (hread : Read.read t buf = (t', buf', o)) :
    Endless E t'.inner := by
  rcases Take.read_cases hread with ⟨-, rfl, -, -⟩ | ⟨-, head, hinner, -, -⟩
  · exact h
  · exact h.read (le_trans (List.length_take_le' _ _) hlen) hinner

omit [Alloc] [ErrorImpl E] in
/-- On an endless stream, a read that delivers nothing has come to the limit. -/
theorem take_read_endless {t : Take R} (hend : Endless E t.inner) {buf : List UInt8} (hne : buf ≠ [])
    (hlen : buf.length ≤ isizeMax) :
    ∃ t' buf' n, Read.read t buf = (t', buf', (.ok n : Outcome E ℕ)) ∧ (n = 0 → t'.limit = 0) := by
  rcases hread : Read.read (E := E) t buf with ⟨t', buf', o⟩
  rcases Take.read_cases hread with ⟨hzero, rfl, rfl, rfl⟩ | ⟨hlim, head, hinner, -, -⟩
  · exact ⟨t', buf', 0, rfl, fun _ => UInt64.toNat_inj.mp hzero⟩
  · have hpos := List.length_pos_of_ne_nil hne
    have hhead : buf.take (capMin t.limit buf.length) ≠ [] := by
      apply List.ne_nil_of_length_pos
      rw [List.length_take, capMin_eq t.limit (lt_of_le_isizeMax hlen)]
      omega
    obtain ⟨n, hn, rfl⟩ := hend.answer (le_trans (List.length_take_le' _ _) hlen) hhead hinner
    exact ⟨t', buf', n, rfl, fun h0 => by omega⟩

/-- The limit falls in every turn, so `read_to_end` comes to an end. -/
theorem take_readToEnd_total (view : Views E R) {t : Take R} (hend : Endless E t.inner) (v : Vec) :
    ∃ res, readToEnd (E := E) (t.limit.toNat + 1) t v = some res := by
  refine Loop.loop_total (fun s => Endless E s.1.inner) (fun s => s.1.limit.toNat) ?_ hend
    (Nat.lt_succ_self _)
  intro a b hend hbody
  obtain ⟨t, guard⟩ := a
  obtain ⟨t', guard'⟩ := b
  replace hend : Endless E t.inner := hend
  cases hroom : guard.ensureRoom with
  | none => simp [readToEndBody, hroom] at hbody
  | some g =>
    obtain ⟨-, -, hlt⟩ := Guard.ensureRoom_some hroom
    have hsize : (g.buf.bytes.drop g.len).length ≤ isizeMax := by
      rw [List.length_drop]
      exact le_trans (Nat.sub_le _ _) g.buf.len_le_isizeMax
    have hne : g.buf.bytes.drop g.len ≠ [] := by
      rw [Ne, List.drop_eq_nil_iff]
      omega
    obtain ⟨t₁, tail, n, hread, -⟩ := take_read_endless hend hne hsize
    obtain ⟨hn, hadv⟩ := take_read_ok view hsize hread
    have hinto : (g.readInto (E := E) t).1 = t₁ ∧ (g.readInto (E := E) t).2.2 = .ok n := by
      simp only [Guard.readInto, hread, and_self]
    simp only [readToEndBody, hroom, hinto] at hbody
    cases n with
    | zero => cases hbody
    | succ n =>
      rw [readToEndAnswer_succ] at hbody
      split at hbody <;> cases hbody
      refine ⟨hend.take_read hsize hread, ?_⟩
      have htail := read_length_of_eq hread
      have hle := hadv.le
      have hlimit := hadv.limit
      rw [List.length_take] at hle hlimit
      dsimp only
      omega

/-- Every call was answered with `Ok`, and with `Ok(0)` only at the limit. -/
def AllAnswered (l : Logged (ReadCall E) (Take R)) : Prop :=
  ∀ call ∈ l.log, call.offered ≠ [] →
    ∃ n, call.answer = .ok n ∧ n ≤ call.offered.length ∧ (n = 0 → l.inner.limit = 0)

omit [Alloc] [ErrorImpl E] in
theorem allAnswered_read (view : Views E R) {l : Logged (ReadCall E) (Take R)}
    {buf : List UInt8} (hsize : buf.length ≤ isizeMax)
    (h : AllAnswered l ∧ Endless E l.inner.inner) :
    AllAnswered (Read.read (E := E) l buf).1 ∧ Endless E (Read.read (E := E) l buf).1.inner.inner := by
  obtain ⟨t, log⟩ := l
  obtain ⟨h, hend⟩ := h
  refine ⟨?_, hend.take_read hsize rfl⟩
  intro call hmem hne
  have hrecord : (Read.read (E := E) (⟨t, log⟩ : Logged (ReadCall E) (Take R)) buf).1.log
      = log ++ [⟨buf, (Read.read (E := E) t buf).2.1, (Read.read t buf).2.2⟩] := rfl
  rw [hrecord, List.mem_append, List.mem_singleton] at hmem
  rcases hmem with hmem | rfl
  · obtain ⟨n, ha, hn, hzero⟩ := h call hmem hne
    refine ⟨n, ha, hn, ?_⟩
    intro h0
    have hr : Read.read (E := E) t buf = (t, buf, .ok 0) := Take.read_of_zero (hzero h0) buf
    show (Read.read (E := E) t buf).1.limit = 0
    rw [hr]
    exact hzero h0
  · obtain ⟨t', buf', n, hread, hzero⟩ := take_read_endless hend hne hsize
    refine ⟨n, by rw [hread], (take_read_ok view hsize hread).1, ?_⟩
    intro h0
    show (Read.read (E := E) t buf).1.limit = 0
    rw [hread]
    exact hzero h0

/-- **`read_to_end` on `Take` of an endless stream appends exactly the remaining limit.** -/
theorem take_readToEnd_endless (view : Views E R) {t : Take R} (hend : Endless E t.inner) (v : Vec)
    (hroom : ∀ u : Vec, u.bytes.length ≤ v.bytes.length + t.limit.toNat → u.reserve 32 ≠ none) :
    ∃ t' v' D, Loop.Returns (fun n => readToEnd (E := E) n t v) (t', v', .ok t.limit.toNat) ∧
      v'.bytes = v.bytes ++ D ∧ D.length = t.limit.toNat ∧ TakeAdv view t D t' := by
  obtain ⟨⟨t', v', out⟩, hrun⟩ := take_readToEnd_total (E := E) view hend v
  obtain ⟨log, hlog, hspec⟩ := readToEnd_exit hrun
  have hadv := (take_delivers view).readToEnd_log hlog
  have hstart : AllAnswered (⟨t, []⟩ : Logged (ReadCall E) (Take R)) := nofun
  obtain ⟨hcalls, -⟩ : AllAnswered (⟨t', log⟩ : Logged (ReadCall E) (Take R)) ∧ Endless E t'.inner :=
    readToEnd_reader (fun l => AllAnswered l ∧ Endless E l.inner.inner)
      (fun _ _ hsize => allAnswered_read view hsize) ⟨hstart, hend⟩ hlog
  have hD : (delivered log).length ≤ t.limit.toNat := hadv.le
  cases out with
  | err e =>
    obtain ⟨call, hmem, ha, -⟩ := (hspec.err_iff e).mp rfl
    obtain ⟨n, ha', -, -⟩ := hcalls call hmem (hspec.offered_ne call hmem)
    rw [ha] at ha'
    cases ha'
  | panic =>
    rcases hspec.panic_iff.mp rfl with ⟨call, hmem, n, ha, hn⟩ | ⟨call, hmem, ha⟩ | ⟨-, u, hu, href⟩
    · obtain ⟨n', ha', hn', -⟩ := hcalls call hmem (hspec.offered_ne call hmem)
      rw [ha, Outcome.ok.injEq] at ha'
      omega
    · obtain ⟨n, ha', -, -⟩ := hcalls call hmem (hspec.offered_ne call hmem)
      rw [ha] at ha'
      cases ha'
    · refine absurd href (hroom u ?_)
      rw [hu, hspec.bytes, List.length_append]
      omega
  | ok k =>
    obtain ⟨⟨call, hmem, ha⟩, rfl⟩ := (hspec.ok_iff k).mp rfl
    obtain ⟨n, ha', -, hzero⟩ := hcalls call hmem (hspec.offered_ne call hmem)
    rw [ha, Outcome.ok.injEq] at ha'
    have hlimit := hadv.limit
    rw [hzero ha'.symm] at hlimit
    have hfull : (delivered log).length = t.limit.toNat := by
      have h0 : (0 : UInt64).toNat = 0 := rfl
      omega
    exact ⟨t', v', delivered log, ⟨_, by rw [← hfull]; exact hrun⟩, hspec.bytes, hfull, hadv⟩

/-! ### The whole view -/

/-- What it is for `Take` to be a bounded prefix of the stream of its inner reader.  Short of the
limit it answers what the inner reader answers, within the limit; at the limit the inner reader is
not called. -/
structure BoundedPrefix (view : Views E R) : Prop where
  run : ∀ (t t' : Take R) (calls : List (TakeCall E)), TakeRun view t calls t' →
    ∃ Ds, List.Forall₂ (fun call D => TakeCall.Hands D call) calls Ds ∧
      TakeAdv view t Ds.flatten t' ∧
      (Ds.flatten.length = t.limit.toNat →
        (∀ buf, Read.read t' buf = (t', buf, (.ok 0 : Outcome E ℕ))) ∧
        BufRead.fillBuf (E := E) t' = (t', .ok Slice.empty))
  read : ∀ (t t' : Take R) (buf : Slice) (buf' : List UInt8) (out : Outcome E ℕ), t.limit ≠ 0 →
    Read.read t buf.bytes = (t', buf', out) →
    ∃ head, Read.read t.inner (buf.bytes.take (min t.limit.toNat buf.bytes.length))
        = (t'.inner, head, out) ∧
      buf' = head ++ buf.bytes.drop (min t.limit.toNat buf.bytes.length)
  read_err : ∀ (t t' : Take R) (buf buf' : List UInt8) (e : E),
    Read.read t buf = (t', buf', .err e) → t'.limit = t.limit
  fillBuf : ∀ (t t' : Take R) (out : Outcome E Slice), t.limit ≠ 0 →
    BufRead.fillBuf t = (t', out) →
    ∃ out', BufRead.fillBuf (E := E) t.inner = (t'.inner, out') ∧
      out = out'.map fun s => s.take (min t.limit.toNat s.bytes.length)
  fillBuf_ok : ∀ (t t' : Take R) (s : Slice), BufRead.fillBuf (E := E) t = (t', .ok s) →
    TakeShown view t t' s
  fillBuf_err : ∀ (t t' : Take R) (e : E), BufRead.fillBuf t = (t', .err e) → t'.limit = t.limit
  consume : ∀ (t : Take R) (amt : ℕ), amt ≤ min t.limit.toNat (view.window t.inner) →
    ∃ t' D, BufRead.consume E t amt = some t' ∧ D.length = amt ∧ TakeAdv view t D t'
  readToEnd : ∀ (t : Take R) (v : Vec), Endless E t.inner →
    (∀ u : Vec, u.bytes.length ≤ v.bytes.length + t.limit.toNat → u.reserve 32 ≠ none) →
    ∃ t' v' D, Loop.Returns (fun n => readToEnd (E := E) n t v) (t', v', .ok t.limit.toNat) ∧
      v'.bytes = v.bytes ++ D ∧ D.length = t.limit.toNat ∧ TakeAdv view t D t'

/-- **`Take` is exactly a bounded prefix view**, under any mixture of its two interfaces. -/
theorem take_bounded_prefix (view : Views E R) : BoundedPrefix view where
  run t t' calls h := by
    obtain ⟨Ds, hDs, hadv⟩ := takeRun_adv h
    refine ⟨Ds, hDs, hadv, ?_⟩
    intro hfull
    have hzero : t'.limit = 0 := by
      have hlimit := hadv.limit
      rw [hfull, Nat.sub_self] at hlimit
      exact UInt64.toNat_inj.mp hlimit
    exact ⟨fun buf => Take.read_of_zero hzero buf, Take.fillBuf_of_zero hzero⟩
  read t t' buf buf' out hne h := by
    have hcap := capMin_eq t.limit (lt_of_le_isizeMax buf.length_le)
    rcases Take.read_cases h with ⟨hzero, -, -, -⟩ | ⟨-, head, hinner, hbuf, -⟩
    · exact absurd (UInt64.toNat_inj.mp hzero) hne
    · rw [hcap] at hinner hbuf
      exact ⟨head, hinner, hbuf⟩
  read_err t t' buf buf' e h := (take_read_err view h).1
  fillBuf t t' out hne h := by
    rcases Take.fillBuf_cases h with ⟨hzero, -, -⟩ | ⟨-, out', hinner, -, hout⟩
    · exact absurd (UInt64.toNat_inj.mp hzero) hne
    · exact ⟨out', hinner, hout⟩
  fillBuf_ok t t' s h := take_fillBuf_ok view h
  fillBuf_err t t' e h := (take_fillBuf_err view h).1
  consume t amt h := take_consume view t h
  readToEnd t v hend hroom := take_readToEnd_endless view hend v hroom

end

/-! ### An endless tape -/

/-- A reader of one byte for ever, which shows one byte at a time. -/
structure Tape where
  byte : UInt8

instance [Target] {E : Type} : BufRead E Tape where
  read self buf := (self, buf.map fun _ => self.byte, .ok buf.length)
  read_length _ _ := List.length_map _
  fillBuf self := (self, .ok ⟨[self.byte], le_isizeMax_of_le (by simp)⟩)
  consume self amt := if amt ≤ 1 then some self else none

theorem Tape.passes {byte : UInt8} {D : List UInt8} (h : ∀ b ∈ D, b = byte) :
    Passes (fun _ => some byte) D (fun _ => some byte) := by
  refine ⟨?_, fun _ => rfl⟩
  intro i hi
  rw [List.getElem?_eq_getElem hi, h _ (List.getElem_mem hi)]

def Tape.views [Target] (E : Type) : Views E Tape where
  rest r _ := some r.byte
  window _ := 1
  window_le _ := le_isizeMax_of_le (by decide)
  read_ok h := by
    cases h
    refine ⟨le_refl _, passes ?_⟩
    intro b hb
    obtain ⟨a, -, rfl⟩ := List.mem_map.mp (List.mem_of_mem_take hb)
    rfl
  read_err h := by cases h
  read_ne_panic _ _ := nofun
  fillBuf_ok h := by
    cases h
    exact ⟨.refl _, ⟨_, passes (by simp)⟩, rfl⟩
  fillBuf_err h := by cases h
  fillBuf_ne_panic _ := nofun
  consume r amt h := by
    refine ⟨r, List.replicate amt r.byte, if_pos h, List.length_replicate, ?_⟩
    exact passes fun b hb => List.eq_of_mem_replicate hb

section

open Machine64

/-- Under the limit 3 two bytes are read, one is shown and passed over. -/
def Tape.calls : List (TakeCall ImplsNostd.Error) :=
  [.read ⟨[0, 0], le_isizeMax_of_le (by decide)⟩ [7, 7] (.ok 2),
    .fillBuf (.ok ⟨[7], le_isizeMax_of_le (by decide)⟩), .consume 1]

theorem Tape.run :
    TakeRun (Tape.views ImplsNostd.Error) (⟨⟨7⟩, 3⟩ : Take Tape) Tape.calls ⟨⟨7⟩, 0⟩ := by
  have hread : TakeStep (Tape.views ImplsNostd.Error) (⟨⟨7⟩, 3⟩ : Take Tape)
      (.read ⟨[0, 0], le_isizeMax_of_le (by decide)⟩ [7, 7] (.ok 2)) ⟨⟨7⟩, 1⟩ := by
    show Read.read _ _ = _
    rfl
  have hfill : TakeStep (Tape.views ImplsNostd.Error) (⟨⟨7⟩, 1⟩ : Take Tape)
      (.fillBuf (.ok ⟨[7], le_isizeMax_of_le (by decide)⟩)) ⟨⟨7⟩, 1⟩ := by
    show BufRead.fillBuf _ = _
    rfl
  have hconsume : TakeStep (Tape.views ImplsNostd.Error) (⟨⟨7⟩, 1⟩ : Take Tape)
      (.consume 1) ⟨⟨7⟩, 0⟩ := ⟨by decide, rfl⟩
  exact .cons hread (.cons hfill (.cons hconsume (.nil _)))

theorem Tape.endless (r : Tape) : Endless ImplsNostd.Error r := by
  intro r' _ buf hne
  exact ⟨buf.bytes.length, List.length_pos_of_ne_nil hne, rfl⟩

/-- The run comes to the limit; what is shown on the way can be passed over; and `read_to_end` on
three bytes of the tape comes to an end. -/
theorem take_bounded_prefix_tape :
    (∃ Ds, List.Forall₂ (fun call D => TakeCall.Hands D call) Tape.calls Ds ∧
      TakeAdv (Tape.views ImplsNostd.Error) ⟨⟨7⟩, 3⟩ Ds.flatten ⟨⟨7⟩, 0⟩ ∧ Ds.flatten.length = 3 ∧
      Read.read (⟨⟨7⟩, 0⟩ : Take Tape) [0] = (⟨⟨7⟩, 0⟩, [0], (.ok 0 : Outcome ImplsNostd.Error ℕ))) ∧
    (∃ t' s, BufRead.fillBuf (E := ImplsNostd.Error) (⟨⟨7⟩, 3⟩ : Take Tape) = (t', .ok s) ∧
      s.bytes.length = 1 ∧ ∃ t'', BufRead.consume ImplsNostd.Error t' 1 = some t'' ∧
        TakeAdv (Tape.views ImplsNostd.Error) t' (s.bytes.take 1) t'') ∧
    ∃ t' v' D, Loop.Returns (fun n => readToEnd (E := ImplsNostd.Error) n
        (⟨⟨7⟩, 3⟩ : Take Tape) Vec.new) (t', v', .ok 3) ∧
      v'.bytes = [] ++ D ∧ D.length = 3 ∧
      TakeAdv (Tape.views ImplsNostd.Error) ⟨⟨7⟩, 3⟩ D t' := by
  have hview := take_bounded_prefix (Tape.views ImplsNostd.Error)
  refine ⟨?_, ?_, ?_⟩
  · obtain ⟨Ds, hDs, hadv, hfull⟩ := hview.run _ _ _ Tape.run
    have hlength : Ds.flatten.length = 3 := by
      have hle : Ds.flatten.length ≤ 3 := hadv.le
      have hlimit : 0 = 3 - Ds.flatten.length := hadv.limit
      omega
    exact ⟨Ds, hDs, hadv, hlength, (hfull hlength).1 [0]⟩
  · have hfill : BufRead.fillBuf (E := ImplsNostd.Error) (⟨⟨7⟩, 3⟩ : Take Tape)
        = (⟨⟨7⟩, 3⟩, .ok ⟨[7], le_isizeMax_of_le (by decide)⟩) := rfl
    have hshown := hview.fillBuf_ok _ _ _ hfill
    exact ⟨_, _, hfill, hshown.length, hshown.consume 1 (le_refl 1)⟩
  · refine hview.readToEnd ⟨⟨7⟩, 3⟩ Vec.new (Tape.endless _) ?_
    intro u hu
    have hsmall : u.bytes.length ≤ 3 := hu
    have hmax : isizeMax = 9223372036854775807 := rfl
    have hgrant : u.bytes.length + 32 ≤ isizeMax := by omega
    have hgrow : Alloc.grow u.bytes.length u.capacity 32
        = some ⟨u.bytes.length + 32, le_refl _, hgrant⟩ := dif_pos hgrant
    rw [Vec.reserve, hgrow]
    split <;> simp

end

end NotIo
