import DartSdk.Convert.Base64.EncoderCorrect
import DartSdk.Convert.Utf8.SinkCorrect

/-!
# Convert/Base64/EncoderSink — encoding in chunks

Both sinks send the text of all bytes, cut somewhere, and close the sink downstream once:
`encodeCalls_spec`.
-/

namespace Base64

open List EncoderSink Transducer

variable {bytes : List Byte}

attribute [local instance] Utf8.Byte.neZero

/-- The characters as the bytes of a `Uint8List`. -/
def asciiBytes (text : List ℕ) : List Byte := text.map (Fin.ofNat 256)

theorem bytes_bufferSlice (text : List ℕ) : (bufferSlice text).bytes = asciiBytes text := by
  simp [bufferSlice, Utf8.Slice.bytes, Utf8.CodeUnits.bytes, asciiBytes]

theorem isAscii_asciiBytes {text : List ℕ} (h : ∀ char ∈ text, char < 128) :
    Utf8.IsAscii (asciiBytes text) := by
  intro byte hbyte
  obtain ⟨char, hchar, rfl⟩ := mem_map.mp hbyte
  have hlt := h char hchar
  simp only [Fin.ofNat]
  omega

theorem val_asciiBytes {text : List ℕ} (h : ∀ char ∈ text, char < 128) :
    (asciiBytes text).map Fin.val = text := by
  rw [asciiBytes, map_map]
  conv_rhs => rw [← map_id text]
  refine map_congr_left fun char hchar => ?_
  have hlt := h char hchar
  simp only [Function.comp_apply, Fin.ofNat, id_eq]
  omega

/-- A sink downstream that has received a text. -/
def Received (kind : EncoderSinkKind) (text : List ℕ) (sink : Utf8.Sink) : Prop :=
  match kind with
  | .ascii => Utf8.text sink.events = text ∧ Utf8.closes sink.events = 0
  | .utf8 _ => Utf8.SinkProgress false (asciiBytes text) sink

theorem received_new (kind : EncoderSinkKind) (urlSafe : Bool) :
    Received kind [] (new kind urlSafe).sink := by
  cases kind with
  | ascii => exact ⟨rfl, rfl⟩
  | utf8 kind => exact Utf8.sinkProgress_new false

section

variable {kind : EncoderSinkKind} {text more : List ℕ} {sink : Utf8.Sink}
  (h : Received kind text sink) (hascii : ∀ char ∈ text ++ more, char < 128)

theorem asciiBytes_append :
    asciiBytes (text ++ more) = asciiBytes text ++ (bufferSlice more).bytes := by
  rw [bytes_bufferSlice, asciiBytes, asciiBytes, asciiBytes, map_append]

include h hascii

/-- A text is sent downstream. -/
theorem Received.send : ∃ sink', send kind sink (outputOf more) false = .ok sink' ∧
      Received kind (text ++ more) sink' := by
  by_cases hnil : more = []
  · subst hnil
    rw [append_nil]
    refine ⟨sink, ?_, h⟩
    cases kind <;> rfl
  rw [outputOf, if_neg hnil]
  cases kind with
  | ascii =>
    refine ⟨_, rfl, ?_, ?_⟩
    · simp [Utf8.text, h.1]
    · simp [Utf8.closes, h.2]
  | utf8 kind =>
    obtain ⟨sink', hsend, hprogress⟩ := Utf8.SinkProgress.addSlice_ascii h kind
      (asciiBytes_append ▸ isAscii_asciiBytes hascii)
    refine ⟨sink', hsend, ?_⟩
    rw [Received, asciiBytes_append]
    exact hprogress

/-- The last text is sent downstream, and the sink is closed. -/
theorem Received.send_last : ∃ sink', EncoderSink.send kind sink (outputOf more) true = .ok sink' ∧
      Utf8.Delivers sink'.events (text ++ more) := by
  cases kind with
  | ascii =>
    by_cases hnil : more = []
    · subst hnil
      refine ⟨_, rfl, ?_, ?_⟩
      · simp [outputOf, Utf8.text, h.1]
      · simp [outputOf, Utf8.closes, h.2]
    · rw [outputOf, if_neg hnil]
      refine ⟨_, rfl, ?_, ?_⟩
      · simp [Utf8.text, h.1]
      · simp [Utf8.closes, h.2]
  | utf8 kind =>
    have hall := isAscii_asciiBytes hascii
    by_cases hnil : more = []
    · subst hnil
      rw [append_nil] at hall hascii ⊢
      have hclose := Utf8.SinkProgress.close_ascii h kind hall
      rwa [val_asciiBytes hascii] at hclose
    · rw [outputOf, if_neg hnil]
      have hlast := Utf8.SinkProgress.addLast_ascii h kind (asciiBytes_append ▸ hall)
      rwa [← asciiBytes_append, val_asciiBytes hascii] at hlast

end

/-- A sink after the bytes `pre`. -/
def EncoderProgress (kind : EncoderSinkKind) (urlSafe : Bool) (pre : List Byte) (k : EncoderSink) :
    Prop :=
  ∃ w pend, k.encoder.urlSafe = urlSafe ∧ k.encoder.state = groupState pend ∧ pend.length < 3 ∧
    run (encodeStep (alphabetOf urlSafe)) [] pre = (w, .ok pend) ∧ Received kind w k.sink

variable {kind : EncoderSinkKind} {urlSafe : Bool} {pre : List Byte} {k : EncoderSink}

theorem encoderProgress_new (kind : EncoderSinkKind) (urlSafe : Bool) :
    EncoderProgress kind urlSafe [] (new kind urlSafe) := by
  refine ⟨[], [], ?_, ?_, by decide, rfl, received_new kind urlSafe⟩
  all_goals cases kind <;> rfl

variable (h : EncoderProgress kind urlSafe pre k)

include h

theorem EncoderProgress.addRange (start : ℕ) (bytes : List Byte) :
    ∃ k', addRange kind k start (ints bytes) false = .ok k' ∧
      EncoderProgress kind urlSafe (pre ++ bytes) k' := by
  obtain ⟨w, pend, rfl, hstate, hpend, hrun, hreceived⟩ := h
  obtain ⟨w', pend', e', hrun', hpend', hurl, hstate', hencode⟩ :=
    Encoder.encode_spec hstate hpend start bytes false
  have hall : run (encodeStep (alphabetOf k.encoder.urlSafe)) [] (pre ++ bytes) =
      (w ++ w', .ok pend') := by
    rw [run_append_ok hrun, hrun']
  have hascii : ∀ char ∈ w ++ w', char < 128 := fun char hchar =>
    encoded_lt k.encoder.urlSafe (pre ++ bytes) char (by
      rw [encoded_eq hall]
      exact mem_append_left _ hchar)
  obtain ⟨sink', hsend, hreceived'⟩ := hreceived.send hascii
  refine ⟨⟨e', sink'⟩, ?_, w ++ w', pend', hurl, hstate', hpend', hall, hreceived'⟩
  rw [addRange, hencode]
  simp only [bind, Except.bind, chunkText, Bool.false_eq_true, if_false, hsend]
  rfl

theorem EncoderProgress.addLast (start : ℕ) (bytes : List Byte) :
    ∃ k', EncoderSink.addRange kind k start (ints bytes) true = .ok k' ∧
      Utf8.Delivers k'.sink.events (encoded (alphabetOf urlSafe) (pre ++ bytes)) := by
  obtain ⟨w, pend, rfl, hstate, hpend, hrun, hreceived⟩ := h
  obtain ⟨w', pend', e', hrun', hpend', hurl, hstate', hencode⟩ :=
    Encoder.encode_spec hstate hpend start bytes true
  have hall : run (encodeStep (alphabetOf k.encoder.urlSafe)) [] (pre ++ bytes) =
      (w ++ w', .ok pend') := by
    rw [run_append_ok hrun, hrun']
  have htext : encoded (alphabetOf k.encoder.urlSafe) (pre ++ bytes) =
      w ++ (w' ++ lastGroup (alphabetOf k.encoder.urlSafe) pend') := by
    rw [encoded_eq hall, append_assoc]
  have hascii := encoded_lt k.encoder.urlSafe (pre ++ bytes)
  rw [htext] at hascii ⊢
  obtain ⟨sink', hsend, hdelivers⟩ := hreceived.send_last hascii
  refine ⟨⟨e', sink'⟩, ?_, hdelivers⟩
  rw [EncoderSink.addRange, hencode]
  simp only [bind, Except.bind, chunkText, if_true, hsend]
  rfl

theorem EncoderProgress.call {call : Call ℤ} (hbytes : call.items = ints bytes) :
    ∃ k', EncoderSink.call kind k call = .ok k' ∧
      EncoderProgress kind urlSafe (pre ++ bytes) k' := by
  cases call with
  | add source =>
    have hsource : source = ints bytes := hbytes
    rw [EncoderSink.call, hsource]
    exact h.addRange 0 bytes
  | addSlice slice =>
    have hsource : slice.items = ints bytes := hbytes
    rw [EncoderSink.call, hsource]
    exact h.addRange slice.start bytes

omit h

theorem exists_ints_append {items items' : List ℤ} (h : items ++ items' = ints bytes) :
    ∃ b b', bytes = b ++ b' ∧ items = ints b ∧ items' = ints b' := by
  obtain ⟨b, b', rfl, hb, hb'⟩ := map_eq_append_iff.mp h.symm
  exact ⟨b, b', rfl, hb.symm, hb'.symm⟩

theorem EncoderProgress.calls (h : EncoderProgress kind urlSafe pre k) (calls : List (Call ℤ))
    (hbytes : calls.flatMap Call.items = ints bytes) :
    ∃ k', calls.foldlM (EncoderSink.call kind) k = .ok k' ∧
      EncoderProgress kind urlSafe (pre ++ bytes) k' := by
  induction calls generalizing pre k bytes with
  | nil =>
    obtain rfl : bytes = [] := map_eq_nil_iff.mp hbytes.symm
    exact ⟨k, rfl, by simpa using h⟩
  | cons call calls ih =>
    obtain ⟨b, b', rfl, hcall, hcalls⟩ := exists_ints_append hbytes
    obtain ⟨k', heq, hk'⟩ := h.call hcall
    rw [foldlM_cons, heq, ← append_assoc]
    exact ih hk' hcalls

/-- **Chunked encoding gives the text of all bytes**, for both kinds of sinks, and closes the sink
downstream once. -/
theorem encodeCalls_spec (kind : EncoderSinkKind) (urlSafe : Bool) {calls : List (Call ℤ)}
    {ending : Ending ℤ} (h : allItems calls ending = ints bytes) :
    ∃ events, encodeCalls kind urlSafe calls ending = .ok events ∧
      Utf8.Delivers events (encoded (alphabetOf urlSafe) bytes) := by
  obtain ⟨b, b', rfl, hcalls, hending⟩ := exists_ints_append h
  obtain ⟨k, hfold, hk⟩ := (encoderProgress_new kind urlSafe).calls calls hcalls
  have hfinish : ∃ k', EncoderSink.finish kind k ending = .ok k' ∧
      Utf8.Delivers k'.sink.events (encoded (alphabetOf urlSafe) (b ++ b')) := by
    cases ending with
    | close =>
      obtain rfl : b' = [] := map_eq_nil_iff.mp hending.symm
      exact hk.addLast 0 []
    | last slice =>
      have hslice : slice.items = ints b' := hending
      rw [finish, hslice]
      exact hk.addLast slice.start b'
  obtain ⟨k', heq, hdelivers⟩ := hfinish
  rw [encodeCalls, hfold]
  change ∃ events, (finish kind k ending >>= fun k => pure k.sink.events) = _ ∧ _
  rw [heq]
  exact ⟨_, rfl, hdelivers⟩

end Base64
