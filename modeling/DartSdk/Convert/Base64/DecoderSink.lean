import DartSdk.Convert.Base64.DecoderCorrect

/-!
# Convert/Base64/DecoderSink — decoding in chunks

The calls on a `_Base64DecoderSink` go on with one run of the automaton, wherever the text is cut.
`addSlice` with an empty range returns at once, also with `isLast: true`: **the sink downstream is
then never closed** (`decodeCalls_gives_iff`).
-/

namespace Base64

open List Sink Transducer

/-- The sink downstream receives these bytes, and is then closed. -/
def Delivers (events : List Event) (bytes : List ℕ) : Prop :=
  ∃ adds : List (List ℕ), events = adds.map .add ++ [.close] ∧ adds.flatten = bytes

/-- A sink after the characters `pre`. -/
def Progress (pre : List ℕ) (k : Sink) : Prop :=
  ∃ (st : State) (adds : List (List ℕ)), k.state = st.code ∧ k.events = adds.map .add ∧
    run step (.data 0 0) pre = (adds.flatten, .ok st)

theorem progress_new : Progress [] new := ⟨.data 0 0, [], rfl, rfl, rfl⟩

/-- The automaton refuses a text. -/
def Refused (chars : List ℕ) : Prop := ∃ out e, run step (.data 0 0) chars = (out, .error e)

theorem Refused.append {chars : List ℕ} (h : Refused chars) (more : List ℕ) :
    Refused (chars ++ more) := by
  obtain ⟨out, e, hrun⟩ := h
  exact ⟨out, e, run_append_error hrun⟩

theorem Refused.decoded {chars : List ℕ} (h : Refused chars) : decoded chars = none := by
  obtain ⟨out, e, hrun⟩ := h
  rw [Base64.decoded, hrun]
  rfl

/-- A step of the conversion over more characters: it goes on, or the text is refused. -/
def Proceeds (chars : List ℕ) (result : Except Exn Sink) : Prop :=
  (∃ k, result = .ok k ∧ Progress chars k) ∨ (Refuses result ∧ Refused chars)

variable {pre : List ℕ} {k : Sink}

theorem Progress.not_refused (h : Progress pre k) : ¬ Refused pre := by
  obtain ⟨st, adds, -, -, hrun⟩ := h
  rintro ⟨out, e, herror⟩
  rw [hrun] at herror
  exact nomatch congrArg Prod.snd herror

theorem Progress.decode (h : Progress pre k) (chars : List ℕ) (start : ℕ) :
    Proceeds (pre ++ chars) (k.decode chars start) := by
  obtain ⟨st, adds, hstate, hevents, hrun⟩ := h
  have hvalid := run_invariant step_valid valid_initial hrun
  have hspec := decode_spec hvalid chars start
  have happend : run step (.data 0 0) (pre ++ chars) = _ := run_append_ok hrun
  rw [← hstate] at hspec
  cases hrest : run step st chars with
  | mk w r =>
  rw [hrest] at hspec happend
  cases r with
  | ok st' =>
    obtain ⟨⟨buffer, state⟩, hdecode, hw, -, hstate'⟩ := hspec
    left
    rw [Sink.decode, hdecode]
    cases buffer with
    | none =>
      refine ⟨_, rfl, st', adds, hstate', hevents, ?_⟩
      rw [happend, ← hw]
      simp
    | some buffer =>
      refine ⟨_, rfl, st', adds ++ [buffer], hstate', ?_, ?_⟩
      · simp [hevents]
      · rw [happend, ← hw]
        simp
  | error e =>
    obtain ⟨m, o, hdecode⟩ := hspec
    right
    rw [Sink.decode, hdecode]
    exact ⟨⟨m, o, rfl⟩, _, e, happend⟩

theorem Slice.items_eq_nil {α : Type} (slice : Slice α) :
    slice.items = [] ↔ slice.start = slice.stop := by
  have hle := slice.start_le
  have hlen := slice.stop_le
  rw [Slice.items, drop_eq_nil_iff, length_take]
  omega

theorem Progress.call (h : Progress pre k) (call : Call ℕ) :
    Proceeds (pre ++ call.items) (k.call call) := by
  cases call with
  | add string =>
    rw [Sink.call, Sink.add, Call.items]
    by_cases hnil : string = []
    · rw [if_pos hnil, hnil, append_nil]
      exact Or.inl ⟨k, rfl, h⟩
    · rw [if_neg hnil]
      exact h.decode string 0
  | addSlice slice =>
    rw [Sink.call, Sink.addSlice, Call.items]
    by_cases hnil : slice.start = slice.stop
    · rw [if_pos hnil, slice.items_eq_nil.mpr hnil, append_nil]
      exact Or.inl ⟨k, rfl, h⟩
    · rw [if_neg hnil]
      simp only [Bool.false_eq_true, if_false, bind_pure]
      exact h.decode slice.items slice.start

/-- **All calls but the last one.** -/
theorem Progress.calls (h : Progress pre k) (calls : List (Call ℕ)) :
    Proceeds (pre ++ calls.flatMap Call.items) (calls.foldlM Sink.call k) := by
  induction calls generalizing pre k with
  | nil => exact Or.inl ⟨k, rfl, by simpa using h⟩
  | cons call calls ih =>
    rw [foldlM_cons, flatMap_cons, ← append_assoc]
    rcases h.call call with ⟨k', hcall, hk'⟩ | ⟨⟨m, o, hcall⟩, hrefused⟩
    · rw [hcall]
      exact ih hk'
    · rw [hcall]
      exact Or.inr ⟨⟨m, o, rfl⟩, hrefused.append _⟩

theorem Progress.closeAt (h : Progress pre k) (stop : Option ℕ) :
    Gives (k.closeAt stop) (fun k bytes => Delivers k.events bytes) (decoded pre) := by
  obtain ⟨st, adds, hstate, hevents, hrun⟩ := h
  obtain ⟨hfinal, hnot⟩ := close_spec (run_invariant step_valid valid_initial hrun) stop
  rw [decoded, hrun, finished, Sink.closeAt, hstate]
  by_cases h : st.Final
  · rw [if_pos h, hfinal h]
    exact ⟨_, rfl, adds, by rw [hevents], rfl⟩
  · obtain ⟨m, o, hclose⟩ := hnot h
    rw [if_neg h, hclose]
    exact ⟨m, o, rfl⟩

/-- The last call. -/
theorem Progress.addLast (h : Progress pre k) {slice : Slice ℕ} (hne : slice.items ≠ []) :
    Gives (k.addSlice slice true) (fun k bytes => Delivers k.events bytes)
      (decoded (pre ++ slice.items)) := by
  rw [addSlice, if_neg fun heq => hne (slice.items_eq_nil.mpr heq)]
  rcases h.decode slice.items slice.start with ⟨k', hcall, hk'⟩ | ⟨⟨m, o, hcall⟩, hrefused⟩
  · rw [hcall]
    exact hk'.closeAt _
  · rw [hcall, hrefused.decoded]
    exact ⟨m, o, rfl⟩

theorem gives_events {result : Except Exn Sink} {o : Option (List ℕ)} :
    Gives (do let k ← result; return k.events) Delivers o ↔
      Gives result (fun k bytes => Delivers k.events bytes) o := by
  cases o with
  | some bytes => exact exists_bind_ok
  | none => exact exists_congr fun m => exists_congr fun o => bind_eq_error

/-- The characters of a whole conversion. -/
def allItems {α : Type} (calls : List (Call α)) (ending : Ending α) : List α :=
  calls.flatMap Call.items ++ ending.items

/-- **Chunked decoding gives the bytes of the text**, unless it ends with an empty slice after
characters that are not refused. -/
theorem decodeCalls_gives_iff (calls : List (Call ℕ)) (ending : Ending ℕ) :
    Gives (decodeCalls calls ending) Delivers (decoded (allItems calls ending)) ↔
      ¬ ∃ last, ending = .last last ∧ last.items = [] ∧ ¬ Refused (calls.flatMap Call.items) := by
  have hcalls := progress_new.calls calls
  rcases hcalls with ⟨k, hfold, hk⟩ | ⟨⟨m, o, hfold⟩, hrefused⟩
  · rw [decodeCalls, hfold]
    cases ending with
    | close =>
      have hclose := gives_events.mpr (hk.closeAt none)
      rw [allItems, Ending.items, append_nil]
      exact iff_of_true hclose fun ⟨_, h, _⟩ => nomatch h
    | last slice =>
      rw [allItems, Ending.items]
      by_cases hnil : slice.items = []
      · refine iff_of_false ?_ fun h => h ⟨slice, rfl, hnil, hk.not_refused⟩
        obtain ⟨st, adds, -, hevents, -⟩ := hk
        have hresult : (do let k ← k.addSlice slice true; return k.events) =
            (.ok k.events : Except Exn (List Event)) := by
          rw [addSlice, if_pos (slice.items_eq_nil.mp hnil)]
          rfl
        change ¬ Gives (do let k ← k.addSlice slice true; return k.events) _ _
        rw [hresult]
        cases decoded (calls.flatMap Call.items ++ slice.items) with
        | none => exact fun ⟨_, _, h⟩ => nomatch h
        | some bytes =>
          rintro ⟨events, hok, adds', hevents', -⟩
          cases hok
          -- No event of the calls before is a close.
          have hmem : Event.close ∈ adds.map Event.add := by
            rw [← hevents, hevents']
            simp
          simp at hmem
      · refine iff_of_true (gives_events.mpr (hk.addLast hnil)) ?_
        rintro ⟨last, heq, hlast, -⟩
        cases heq
        exact hnil hlast
  · have hall : Refused (allItems calls ending) := hrefused.append _
    rw [decodeCalls, hfold, hall.decoded]
    exact iff_of_true ⟨m, o, rfl⟩ fun ⟨_, _, _, h⟩ => h hrefused

theorem Gives.error {α : Type} {result : Except Exn α} {P : α → List ℕ → Prop}
    {o : Option (List ℕ)} {e : Exn} (h : Gives result P o) (herror : result = .error e) :
    ∃ message offset, e = .format message offset := by
  cases o with
  | some bytes =>
    obtain ⟨a, hok, -⟩ := h
    rw [hok] at herror
    cases herror
  | none =>
    obtain ⟨m, o, hformat⟩ := h
    rw [hformat] at herror
    cases herror
    exact ⟨m, o, rfl⟩

/-- **No other exception than a `FormatException`** is thrown, whatever the calls are. -/
theorem error_of_decodeCalls {calls : List (Call ℕ)} {ending : Ending ℕ} {e : Exn}
    (h : decodeCalls calls ending = .error e) : ∃ message offset, e = .format message offset := by
  by_cases hgives : Gives (decodeCalls calls ending) Delivers (decoded (allItems calls ending))
  · exact hgives.error h
  -- The last slice is empty, and nothing is refused before: the conversion ends without an error.
  rw [decodeCalls_gives_iff, not_not] at hgives
  obtain ⟨last, rfl, hnil, hrefused⟩ := hgives
  have hcalls := progress_new.calls calls
  rcases hcalls with ⟨k, hfold, -⟩ | ⟨-, h'⟩
  · rw [decodeCalls, hfold] at h
    change (k.addSlice last true >>= fun k => pure k.events) = _ at h
    rw [addSlice, if_pos (last.items_eq_nil.mp hnil)] at h
    cases h
  · exact absurd h' hrefused

end Base64
