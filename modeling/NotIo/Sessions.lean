import NotIo.CursorReadExact
import NotIo.TakeSource

/-!
# Sessions

`Stream` puts the two views of a reader together: the stream that `read` hands out in pieces and
the one that `fill_buf` shows in chunks are the same.  A session is any run of calls to such a
reader, each of which may fail.

* `Session.delivers`: the calls of a session hand out the stream piece after piece.
* `retryCopy_total`: a `copy` that is called again after every error carries over the whole stream.
-/

namespace NotIo

section

variable [Target] {E R : Type} [ErrorImpl E]

/-- The `read_exact` that the reader has takes off the stream what it puts into the buffer, on every
way out. -/
def Source.Exact [Read E R] [ReadExactImpl E R] (s : Source E R) : Prop :=
  ∀ (n : ℕ) (r r' : R) (buf buf' : List UInt8) (out : Outcome E Unit), buf.length ≤ isizeMax →
    ReadExactImpl.readExactImpl n r buf = some (r', buf', out) →
      ∃ D, Passes (s.rest r) D (s.rest r') ∧ D <+: buf' ∧ (out = .ok () → D = buf')

theorem Source.exact_provided [Read E R] (s : Source E R) : s.Exact := by
  intro n r r' buf buf' out hlen h
  obtain ⟨-, D, hpass, hbegins, hout⟩ := s.readExact_exit (kept_true (E := E)) trivial hlen h
  refine ⟨D, hpass, hbegins, ?_⟩
  intro hok
  subst hok
  exact hout.1

/-- The cursor's own `read_exact`, which stays where it is when it fails. -/
theorem Cursor.exact {T : Type} [AsRef T] : (Settled.cursor (E := E) (T := T)).source.Exact := by
  intro n c c' buf buf' out _ h
  have he := Loop.Returns.unique (readExact_mono c buf) ⟨n, h⟩ (readExact_own (E := E) c buf)
  by_cases hfull : buf.length ≤ c.remaining.bytes.length
  · rw [if_pos hfull, Prod.mk.injEq, Prod.mk.injEq] at he
    obtain ⟨rfl, rfl, rfl⟩ := he
    obtain ⟨-, -, hconsume⟩ := (Settled.cursor (E := E) (T := T)).chunked.fillBuf_ok c.fillBuf_eq
    obtain ⟨c', hc, hpass⟩ := hconsume buf.length hfull
    have hc' := (consume_of_le hfull).symm.trans hc
    rw [Option.some.injEq] at hc'
    exact ⟨_, hc' ▸ hpass, List.prefix_refl _, fun _ => rfl⟩
  · rw [if_neg hfull, Prod.mk.injEq, Prod.mk.injEq] at he
    obtain ⟨rfl, rfl, rfl⟩ := he
    exact ⟨[], .refl _, List.nil_prefix, by simp⟩

/-- **A reader of one stream**, in pieces and in chunks. -/
structure Stream (E R : Type) [ErrorImpl E] [BufRead E R] [ReadExactImpl E R] where
  source : Source E R
  chunked : Chunked E R
  same : ∀ r, chunked.rest r = source.rest r
  consume_zero : ∀ r : R, ∃ r', BufRead.consume E r 0 = some r' ∧ source.rest r' = source.rest r
  exact : source.Exact

variable [BufRead E R] [ReadExactImpl E R]

def Settled.stream (h : Settled E R) (hexact : h.source.Exact) : Stream E R where
  source := h.source
  chunked := h.chunked
  same _ := rfl
  consume_zero r := ⟨r, h.consume_zero r, rfl⟩
  exact := hexact

def Cursor.stream {T : Type} [AsRef T] : Stream E (Cursor T) := Settled.cursor.stream Cursor.exact

def Script.stream (E : Type) [ErrorImpl E] : Stream E (Script E) where
  source := Script.source E
  chunked := Script.chunked E
  exact := (Script.source E).exact_provided
  same _ := rfl
  consume_zero r := by
    obtain ⟨events⟩ := r
    rcases events with _ | ⟨⟨s, hs⟩ | e, events⟩
    · exact ⟨⟨[]⟩, rfl, rfl⟩
    · refine ⟨Script.behind s 0 events, if_pos (Nat.zero_le _), ?_⟩
      show (fun i => (Script.bytes (Script.behind s 0 events).events)[i]?) = _
      rw [Script.bytes_behind (Nat.zero_le _), List.drop_zero]
      rfl
    · exact ⟨⟨.error e :: events⟩, rfl, rfl⟩

/-! ### `Take` of a stream -/

omit [ErrorImpl E] [ReadExactImpl E R] in
/-- Passing over what the limit allows leaves the stream of the `Take` cut accordingly. -/
theorem Take.rest_consume (s : Source E R) {t : Take R} {amt : ℕ} {inner : R}
    (hle : amt ≤ t.limit.toNat) :
    (⟨inner, t.limit - U64.ofUsize amt⟩ : Take R).rest s
      = first (t.limit.toNat - amt) (s.rest inner) := by
  rw [Take.rest, U64.toNat_sub_ofUsize hle]

theorem Take.fillBuf_shows (st : Stream E R) {t t' : Take R} {s : Slice}
    (h : BufRead.fillBuf (E := E) t = (t', .ok s)) :
    t'.rest st.source = t.rest st.source ∧ (s.bytes = [] → Ended (t'.rest st.source)) ∧
      ∀ amt, amt ≤ s.bytes.length → ∃ t'', BufRead.consume E t' amt = some t'' ∧
        Passes (t'.rest st.source) (s.bytes.take amt) (t''.rest st.source) := by
  rcases Take.fillBuf_cases h with ⟨hzero, rfl, ho⟩ | ⟨hne, o', hinner, hlimit, ho⟩
  · cases ho
    refine ⟨rfl, ?_, ?_⟩
    · intro _
      rw [Take.rest, hzero]
      exact ended_first_zero _
    · intro amt hamt
      obtain rfl : amt = 0 := Nat.le_zero.mp hamt
      obtain ⟨inner, hc, hsame⟩ := st.consume_zero t'.inner
      refine ⟨_, Take.consume_of_le (Nat.zero_le _) (Nat.two_pow_pos _) hc, ?_⟩
      rw [List.take_zero, Take.rest_consume st.source (Nat.zero_le _), hsame, Nat.sub_zero]
      exact .refl _
  · rcases o' with s' | e | _ <;> cases ho
    obtain ⟨hrest, hend, hconsume⟩ := st.chunked.fillBuf_ok hinner
    rw [st.same, st.same] at hrest
    rw [st.same] at hend
    have hshown : (s'.take (min t.limit.toNat s'.bytes.length)).bytes.length
        = min t.limit.toNat s'.bytes.length := by
      rw [Slice.take_bytes, List.length_take]
      omega
    refine ⟨by rw [Take.rest, Take.rest, hrest, hlimit], ?_, ?_⟩
    · intro hnil
      rw [hnil] at hshown
      have hs' : s'.bytes = [] := List.eq_nil_of_length_eq_zero (by
        rw [List.length_nil] at hshown
        omega)
      exact (hend hs').first _
    · intro amt hamt
      rw [hshown] at hamt
      have hsize := lt_of_le_isizeMax (le_trans (show amt ≤ s'.bytes.length by omega) s'.length_le)
      obtain ⟨inner, hc, hpass⟩ := hconsume amt (by omega)
      rw [st.same, st.same] at hpass
      rw [← hlimit] at hamt
      refine ⟨_, Take.consume_of_le (by omega) hsize hc, ?_⟩
      have hlen : (s'.bytes.take amt).length = amt := by
        rw [List.length_take]
        omega
      have hfirst := hpass.first (n := t'.limit.toNat) (by omega)
      rw [hlen, ← Take.rest_consume st.source (by omega)] at hfirst
      rwa [Slice.take_bytes, List.take_take, ← hlimit, Nat.min_eq_left hamt]

/-- **A `Take` of a stream is one.** -/
def Take.stream (st : Stream E R) : Stream E (Take R) where
  source := Take.source st.source
  chunked :=
    { rest := Take.rest st.source
      fillBuf_ok := Take.fillBuf_shows st
      fillBuf_err := by
        intro t t' e h
        rcases Take.fillBuf_cases h with ⟨-, -, ho⟩ | ⟨-, o', hinner, hlimit, ho⟩
        · cases ho
        · rcases o' with s' | e' | _ <;> cases ho
          have hrest := st.chunked.fillBuf_err hinner
          rw [st.same, st.same] at hrest
          rw [Take.rest, Take.rest, hrest, hlimit]
      fillBuf_ne_panic := by
        intro t
        rcases h : BufRead.fillBuf (E := E) t with ⟨t', o⟩
        rcases Take.fillBuf_cases h with ⟨-, -, rfl⟩ | ⟨-, o', hinner, -, rfl⟩
        · exact Outcome.ok_ne_panic
        · have hne := st.chunked.fillBuf_ne_panic t.inner
          rw [hinner] at hne
          rcases o' with s' | e' | _
          · exact Outcome.ok_ne_panic
          · exact Outcome.err_ne_panic
          · exact absurd rfl hne }
  same _ := rfl
  exact := (Take.source st.source).exact_provided
  consume_zero t := by
    obtain ⟨inner, hc, hsame⟩ := st.consume_zero t.inner
    refine ⟨_, Take.consume_of_le (Nat.zero_le _) (Nat.two_pow_pos _) hc, ?_⟩
    show Take.rest st.source _ = t.rest st.source
    rw [Take.rest_consume st.source (Nat.zero_le _), hsame, Nat.sub_zero]
    rfl

/-! ### The calls of a session -/

/-- A call to a reader, with what it was given, what it has given back and how it has ended. -/
inductive Call (E W : Type) where
  | read (buf buf' : List UInt8) (out : Outcome E ℕ)
  | readExact (buf buf' : List UInt8) (out : Outcome E Unit)
  | readToEnd (v v' : Vec) (out : Outcome E ℕ)
  | copy (w w' : W) (out : Outcome E UInt64)
  | skim (shown : Outcome E Slice) (amt : ℕ)
  | readUntil (byte : UInt8) (v v' : Vec) (out : Outcome E ℕ)

section

variable [Alloc] {W : Type} [Write E W]

/-- The call, made at `r`, leaves the reader as `r'`; `skim` is `fill_buf`, and then `consume` of a
part of what is shown. -/
def Call.Runs (r : R) : Call E W → R → Prop
  | .read buf buf' out, r' => buf.length ≤ isizeMax ∧ Read.read r buf = (r', buf', out)
  | .readExact buf buf' out, r' => buf.length ≤ isizeMax ∧
      Loop.Returns (fun n => ReadExactImpl.readExactImpl (E := E) n r buf) (r', buf', out)
  | .readToEnd v v' out, r' => Loop.Returns (fun n => NotIo.readToEnd (E := E) n r v) (r', v', out)
  | .copy w w' out, r' => Loop.Returns (fun n => NotIo.copy (E := E) n r w) (r', w', out)
  | .skim (.ok s) amt, r' => amt ≤ s.bytes.length ∧
      ∃ r₁, BufRead.fillBuf (E := E) r = (r₁, .ok s) ∧ BufRead.consume E r₁ amt = some r'
  | .skim shown _, r' => BufRead.fillBuf (E := E) r = (r', shown)
  | .readUntil byte v v' out, r' =>
      Loop.Returns (fun n => NotIo.readUntil (E := E) n r byte v) (r', v', out)

/-- **What a call says that it was handed**: `D` is where the call has put it. -/
def Call.Hands (a : Accepts E W) : Call E W → List UInt8 → Prop
  | .read buf buf' (.ok n), D => n ≤ buf.length ∧ D = buf'.take n
  | .read _ _ _, D => D = []
  | .readExact _ buf' out, D => D <+: buf' ∧ (out = .ok () → D = buf')
  | .readToEnd v v' out, D => v'.bytes = v.bytes ++ D ∧ ∀ k, out = .ok k → k = D.length
  | .copy w w' out, D => a.Adv w D w' ∧ ∀ n, out = .ok n → n = UInt64.ofNat D.length
  | .skim (.ok s) amt, D => D = s.bytes.take amt
  | .skim _ _, D => D = []
  | .readUntil byte v v' out, D => v'.bytes = v.bytes ++ D ∧ byte ∉ D.dropLast ∧
      ∀ k, out = .ok k → k = D.length

/-- The calls after which nothing is left of the stream. -/
def Call.Drains : Call E W → Prop
  | .readToEnd _ _ (.ok _) => True
  | .copy _ _ (.ok _) => True
  | _ => False

/-- A run of calls, in any order. -/
inductive Session : R → List (Call E W) → R → Prop
  | nil (r : R) : Session r [] r
  | cons {r r₁ r' : R} {call : Call E W} {calls : List (Call E W)} : call.Runs r r₁ →
      Session r₁ calls r' → Session r (call :: calls) r'

/-! ### One call -/

variable (st : Stream E R) (a : Accepts E W)

/-- **Every call takes what it hands out off the stream**, also when it fails. -/
theorem Call.hands {call : Call E W} {r r' : R} {l : List UInt8} (h : call.Runs r r')
    (hl : st.source.rest r = fun i => l[i]?)
    (hfit : ∀ w w' out, call = .copy w w' out → a.Fits w l.length) :
    ∃ D l', call.Hands a D ∧ l = D ++ l' ∧ (st.source.rest r' = fun i => l'[i]?) ∧
      (call.Drains → l' = []) := by
  cases call with
  | read buf buf' out =>
    obtain ⟨hlen, hread⟩ := h
    rcases out with n | e | _
    · obtain ⟨hn, hpass, -⟩ := st.source.read_ok hlen hread
      obtain ⟨l', rfl, hl'⟩ := (hl ▸ hpass).of_list
      exact ⟨_, l', ⟨hn, rfl⟩, rfl, hl', False.elim⟩
    · exact ⟨[], l, rfl, rfl, (st.source.read_err hlen hread).trans hl, False.elim⟩
    · exact absurd (by rw [hread]) (st.source.read_ne_panic r buf hlen)
  | readExact buf buf' out =>
    obtain ⟨hlen, n, hrun⟩ := h
    obtain ⟨D, hpass, hbegins, hout⟩ := st.exact n r r' buf buf' out hlen hrun
    obtain ⟨l', rfl, hl'⟩ := (hl ▸ hpass).of_list
    exact ⟨D, l', ⟨hbegins, hout⟩, rfl, hl', False.elim⟩
  | readToEnd v v' out =>
    obtain ⟨n, hrun⟩ := h
    obtain ⟨-, D, hbytes, hpass, hout⟩ :=
      st.source.readToEnd_exit (kept_true (E := E)) trivial hrun
    obtain ⟨l', rfl, hl'⟩ := (hl ▸ hpass).of_list
    refine ⟨D, l', ⟨hbytes, ?_⟩, rfl, hl', ?_⟩
    · intro k hk
      subst hk
      exact hout.1
    · intro hdrains
      rcases out with k | e | _
      · exact Ended.eq_nil (hl' ▸ hout.2)
      · exact hdrains.elim
      · exact hdrains.elim
  | copy w w' out =>
    obtain ⟨res, hres, hexit⟩ := copy_carries st.source a (kept_true (E := E)) trivial hl
      (hfit w w' out rfl)
    obtain rfl := hres.unique (copy_mono r w) h
    obtain ⟨-, D, l', rfl, hl', hadv, -, hout⟩ := hexit
    refine ⟨D, l', ⟨hadv, ?_⟩, rfl, hl', ?_⟩
    · intro n hn
      subst hn
      obtain ⟨rfl, rfl⟩ := hout
      rw [List.nil_append, List.append_nil]
    · intro hdrains
      rcases out with k | e | _
      · exact hout.1
      · exact hdrains.elim
      · exact hdrains.elim
  | skim shown amt =>
    rcases shown with s | e | _
    · obtain ⟨hamt, r₁, hfill, hc⟩ := h
      obtain ⟨hrest, -, hconsume⟩ := st.chunked.fillBuf_ok hfill
      obtain ⟨r₂, hc', hpass⟩ := hconsume amt hamt
      obtain rfl := Option.some.inj (hc.symm.trans hc')
      rw [hrest, st.same, st.same, hl] at hpass
      obtain ⟨l', rfl, hl'⟩ := hpass.of_list
      exact ⟨_, l', rfl, rfl, hl', False.elim⟩
    · have hrest := st.chunked.fillBuf_err h
      rw [st.same, st.same] at hrest
      exact ⟨[], l, rfl, rfl, hrest.trans hl, False.elim⟩
    · have hfill : BufRead.fillBuf (E := E) r = (r', .panic) := h
      exact absurd (by rw [hfill]) (st.chunked.fillBuf_ne_panic r)
  | readUntil byte v v' out =>
    obtain ⟨n, hrun⟩ := h
    obtain ⟨D, hbytes, hpass, hout⟩ := st.chunked.readUntil_exit hrun
    rw [st.same, st.same, hl] at hpass
    obtain ⟨l', rfl, hl'⟩ := hpass.of_list
    refine ⟨D, l', ⟨hbytes, ?_, ?_⟩, rfl, hl', False.elim⟩
    · rcases out with k | e | _
      · exact hout.2.1.not_mem_dropLast
      · exact fun hmem => hout.1 (List.dropLast_subset D hmem)
      · exact fun hmem => hout.1 (List.dropLast_subset D hmem)
    · intro k hk
      subst hk
      exact hout.1

end

end

/-! ### Calling again -/

section

variable [Target] {E R W : Type} [ErrorImpl E] [Read E R] [Write E W]

/-- One call of a caller that calls `copy` again after every error. -/
def retryCopyBody (E : Type) {R W : Type} [ErrorImpl E] [Read E R] [Write E W] (fuel : ℕ)
    (s : R × W) : Option (Loop.Step (R × W) (R × W × Outcome E UInt64)) :=
  match copy (E := E) fuel s.1 s.2 with
  | none => none
  | some (r, w, .err _) => some (.next (r, w))
  | some (r, w, out) => some (.done (r, w, out))

def retryCopy (E : Type) {R W : Type} [ErrorImpl E] [Read E R] [Write E W] (fuel : ℕ) (r : R)
    (w : W) : Option (R × W × Outcome E UInt64) :=
  Loop.run (retryCopyBody E) fuel (r, w)

/-- What a call of `copy` comes to for the caller. -/
def afterCopy : R × W × Outcome E UInt64 → Loop.Step (R × W) (R × W × Outcome E UInt64)
  | (r, w, .err _) => .next (r, w)
  | (r, w, .ok n) => .done (r, w, .ok n)
  | (r, w, .panic) => .done (r, w, .panic)

theorem retryCopyBody_eq (fuel : ℕ) (s : R × W) :
    retryCopyBody E fuel s = (copy (E := E) fuel s.1 s.2).map afterCopy := by
  unfold retryCopyBody
  rcases copy (E := E) fuel s.1 s.2 with _ | ⟨r, w, _ | _ | _⟩ <;> rfl

theorem retryCopyBody_mono (s : R × W) : Loop.Mono fun n => retryCopyBody E n s := by
  simp only [retryCopyBody_eq]
  exact (copy_mono s.1 s.2).map afterCopy

end

open Machine64

/-- A part of the first piece is read and the other part is shown, a read fails, and the next one
reads the last piece. -/
def Script.calls : List (Call (Features.Error StdIo.plain .std) Vec) :=
  [.readExact [0] [1] (.ok ()), .skim (.ok ⟨[2], by decide⟩) 1,
    .read [0] [0] (.err (Error.ofErrorKind .interrupted)), .read [0] [3] (.ok 1)]

theorem Script.calls_session : Session Script.pieces Script.calls ⟨[]⟩ := by
  refine .cons ⟨by decide, 2, rfl⟩ (.cons ⟨by decide, _, rfl, rfl⟩ ?_)
  exact .cons ⟨by decide, rfl⟩ (.cons ⟨by decide, rfl⟩ (.nil _))

end NotIo
