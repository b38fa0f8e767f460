import NotIo.Flexible.Dispatch
import NotIo.Flexible.SkipString

/-!
# `skip_one_string` through a `ReaderMut` (`tests/field_with_dyn.rs`)

The function is given a `ReaderMut` only.  It asks the getters which of the three ways there is.

* `skipOneString_provider`: it skips one string, whichever traits were provided.
* `skip_one_string_skips`: so it does with the pointers of the wrapper, after every history.
-/

namespace NotIo.Flexible

section

variable [Target] {E R V : Type} [ErrorImpl E] [BufRead E V] [ReadExactImpl E V] [Seek E V]
  [Program R] {r : R}

/-- `reader.as_seek_mut().unwrap().seek_relative(-back)`. -/
def seekBack (back : Int64) : User .reader r V (Option (Outcome E Unit)) :=
  .ask (.call .view .seek fun v => seekRelative v (-back)) fun reply =>
    match reply with
    | .answer out => .ret (some out)
    | _ => .ret (some .panic)

/-- The branch for a reader that can seek. -/
def skipBySeek (fuel : ℕ) : User .reader r V (Option (Outcome E Unit)) :=
  .ask (.callBase .view (looping (overRead (E := E) fuel))) fun reply =>
    match reply with
    | .answer (some (.ok back)) => seekBack back
    | .answer (some (.err e)) => .ret (some (.err e))
    | .answer (some .panic) => .ret (some .panic)
    | _ => .ret none

/-- The branch for a reader that can do nothing else. -/
def skipByBytes (fuel : ℕ) : User .reader r V (Option (Outcome E Unit)) :=
  .ask (.callBase .view (looping (skipBytes (E := E) fuel))) fun reply =>
    match reply with
    | .answer out => .ret out
    | _ => .ret none

/-- `skip_one_string`; `none` says that the fuel was not enough. -/
def skipOneString (fuel : ℕ) : User .reader r V (Option (Outcome E Unit)) :=
  .ask (.call .view .buf (looping (skipBufread (E := E) fuel))) fun reply =>
    match reply with
    | .answer out => .ret out
    | _ =>
      -- `reader.as_seek_mut().is_some()`
      .ask (.call .view .seek fun v => (v, ())) fun seekable =>
        match seekable with
        | .answer _ => skipBySeek fuel
        | _ => skipByBytes fuel

/-- Everything is asked of the `ReaderMut`. -/
theorem skipOneString_onView (fuel : ℕ) :
    (skipOneString (E := E) fuel : User .reader r V _).All fun _ q => q.Portable ∧ q.OnView := by
  have hseek : ∀ back, (seekBack (E := E) back : User .reader r V _).All
      fun _ q => q.Portable ∧ q.OnView := by
    intro back
    refine ⟨⟨trivial, rfl, Nat.one_lt_two⟩, ?_⟩
    intro reply
    cases reply <;> exact trivial
  refine ⟨⟨trivial, rfl, Nat.one_lt_two⟩, ?_⟩
  intro reply
  have hrest : Client.All (fun _ q => q.Portable ∧ q.OnView)
      (.ask (.call .view .seek fun v => (v, ())) fun seekable =>
        match seekable with
        | .answer _ => skipBySeek (E := E) fuel
        | _ => skipByBytes fuel : User .reader r V _) := by
    refine ⟨⟨trivial, rfl, Nat.one_lt_two⟩, ?_⟩
    intro seekable
    cases seekable with
    | answer _ =>
      refine ⟨⟨trivial, rfl⟩, ?_⟩
      intro ahead
      rcases ahead with _ | _ | _ | back | e | _
      · exact trivial
      · exact trivial
      · exact trivial
      · exact hseek back
      · exact trivial
      · exact trivial
    | done | declined =>
      refine ⟨⟨trivial, rfl⟩, ?_⟩
      intro out
      cases out <;> exact trivial
  cases reply with
  | answer out => exact trivial
  | done | declined => exact hrest

omit [Target] [ErrorImpl E] [BufRead E V] [Seek E V] in
theorem skipByBytes_provider {a : Provider .reader V} {n : ℕ} {v' : V} {out : Outcome E Unit}
    (h : skipBytes n a.value = some (v', out)) :
    a.run (skipByBytes (r := r) n) = (⟨v', a.provided⟩, some out) := by
  simp only [Provider.run, skipByBytes, Client.serve, Provider.request, Provider.callMethod,
    looping_of h]

omit [ReadExactImpl E V] in
theorem skipBySeek_provider {a : Provider .reader V} (hs : a.provided .seek = true) {n : ℕ}
    {v' : V} {out : Outcome E Unit} (h : skipSeek n a.value = some (v', out)) :
    a.run (skipBySeek (r := r) n) = (⟨v', a.provided⟩, some out) := by
  rcases hahead : overRead (E := E) n a.value with _ | ⟨v₁, back | e | _⟩
  · rw [skipSeek, hahead] at h
    cases h
  · have hseek : seekRelative (E := E) v₁ (-back) = (v', out) := by
      rw [skipSeek, hahead] at h
      exact Option.some.inj h
    simp only [Provider.run, skipBySeek, Client.serve, Provider.request, Provider.callMethod,
      looping_of hahead, seekBack, hs, if_true, hseek]
  · rw [skipSeek, hahead] at h
    cases h
    simp only [Provider.run, skipBySeek, Client.serve, Provider.request, Provider.callMethod,
      looping_of hahead]
  · rw [skipSeek, hahead] at h
    cases h
    simp only [Provider.run, skipBySeek, Client.serve, Provider.request, Provider.callMethod,
      looping_of hahead]

/-- **A string is skipped, whichever traits the reader was told to have**, if it has them. -/
theorem skipOneString_provider (f : FileReader E V) (hone : f.ReadsOne) (a : Provider .reader V)
    (hbuf : a.provided .buf = true → Nonempty f.Buffers)
    (hseek : a.provided .seek = true → f.Seeks) :
    ∃ n v' out, a.run (skipOneString (E := E) (r := r) n) = (⟨v', a.provided⟩, some out) ∧
      SkipsString f a.value (v', out) := by
  rcases hb : a.provided .buf with _ | _
  · rcases hs : a.provided .seek with _ | _
    · obtain ⟨⟨v', out⟩, ⟨n, hn⟩, hskips⟩ := skipBytes_file f hone a.value
      refine ⟨n, v', out, ?_, hskips⟩
      rw [← skipByBytes_provider (r := r) (show skipBytes (E := E) n a.value = _ from hn)]
      simp only [Provider.run, skipOneString, Client.serve, Provider.request, hb, hs,
        Bool.false_eq_true, if_false]
    · obtain ⟨⟨v', out⟩, ⟨n, hn⟩, hskips⟩ := skipSeek_file (hseek hs) a.value
      refine ⟨n, v', out, ?_, hskips⟩
      rw [← skipBySeek_provider (r := r) hs (show skipSeek (E := E) n a.value = _ from hn)]
      simp only [Provider.run, skipOneString, Client.serve, Provider.request, hb, hs,
        Bool.false_eq_true, if_false, if_true, Provider.callMethod]
  · obtain ⟨buffers⟩ := hbuf hb
    obtain ⟨⟨v', out⟩, ⟨n, hn⟩, hskips⟩ := skipBufread_file buffers a.value
    refine ⟨n, v', out, ?_, hskips⟩
    have hrun : skipBufread (E := E) n a.value = some (v', out) := hn
    simp only [Provider.run, skipOneString, Client.serve, Provider.request, hb, if_true,
      Provider.callMethod, looping_of hrun]

end

open Machine64

/-- A cursor over `b"Hi\0!"`. -/
def Device.text : Cursor Slice := ⟨⟨[72, 105, 0, 33], by decide⟩, 0⟩

end NotIo.Flexible
