import Mathlib.Tactic

/-!
# Http/WebSocketSend — what sending a message does to the list of the caller

`_WebSocketOutgoingTransformer.add` without compression, for the messages of a user.  A client masks
the data of a frame, and `createFrame` does this *inside* a `Uint8List` of text: of a `String` that
is the new list of `utf8.encode`, of an `_EncodedString` the list of the caller.  **No other list is
changed** (`add_keeps_data_iff`).  The header of a frame is a list of its own, and is left out.
-/

namespace WebSocket

/-- A `List<int>`: a `Uint8List`, with its start in its buffer, or another one. -/
inductive IntList
  | uint8List (offsetInBytes : ℕ) (bytes : List UInt8)
  | other (elements : List ℤ)

/-- What an application adds. -/
inductive Message
  | string (text : String)
  | list (data : IntList)
  | encodedString (bytes : IntList)

/-- The list of the caller. -/
def Message.data : Message → Option IntList
  | string _ => none
  | list data | encodedString data => some data

/-- What the encoder throws. -/
inductive Error
  | notByte (value : ℤ) (index : ℕ)
  | unalignedView

/-- A lane of the mask block. -/
def blockMask (maskBytes : ℕ → UInt8) : ℕ :=
  [3, 2, 1, 0].foldl (fun mask i => mask <<< 8 ||| (maskBytes i).toNat) 0

/-- The masking loops: over a view of the blocks, with the low byte of a lane first, and over the
end. -/
def masked (maskBytes : ℕ → UInt8) (offsetInBytes : ℕ) (bytes : List UInt8) :
    Except Error IntList :=
  let blockCount := bytes.length / 16
  if 0 < blockCount ∧ offsetInBytes % 16 ≠ 0 then .error .unalignedView
  else .ok (.uint8List offsetInBytes (bytes.mapIdx fun i byte => byte ^^^
    if i < blockCount * 16 then UInt8.ofNat (blockMask maskBytes >>> (8 * (i % 4)))
    else maskBytes (i % 4)))

/-- `createFrame`: the data of the frame, and what is in `data` afterwards.  Only a `Uint8List` of
text is masked without a copy. -/
def createFrame (maskBytes : ℕ → UInt8) (serverSide : Bool) (opcode : ℕ) (data : IntList) :
    Except Error (IntList × IntList) :=
  if serverSide then .ok (data, data)
  else match data with
  | .uint8List offsetInBytes bytes =>
    if opcode = 1 then (masked maskBytes offsetInBytes bytes).map fun list => (list, list)
    else (masked maskBytes 0 bytes).map (·, data)
  | .other elements =>
    match elements.findIdx? fun value => value < 0 || 255 < value with
    | some i => .error (.notByte (elements.getD i 0) i)
    | none =>
      (masked maskBytes 0 (elements.map fun value => UInt8.ofNat value.toNat)).map (·, data)

/-- `add`, for each `utf8.encode`: the data of the frame, and what is in the list of the caller
afterwards. -/
def add (utf8Encode : String → List UInt8) (maskBytes : ℕ → UInt8) (serverSide : Bool) :
    Message → Except Error (IntList × Option IntList)
  | .string text =>
    (createFrame maskBytes serverSide 1 (.uint8List 0 (utf8Encode text))).map
      (·.map id fun _ => none)
  | .list data => (createFrame maskBytes serverSide 2 data).map (·.map id some)
  | .encodedString bytes => (createFrame maskBytes serverSide 1 bytes).map (·.map id some)

theorem blockMask_byte (maskBytes : ℕ → UInt8) (i : ℕ) :
    UInt8.ofNat (blockMask maskBytes >>> (8 * (i % 4))) = maskBytes (i % 4) := by
  have hor (n : ℕ) (b : UInt8) : n <<< 8 ||| b.toNat = n * 256 + b.toNat := by
    rw [← Nat.shiftLeft_add_eq_or_of_lt b.toNat_lt, Nat.shiftLeft_eq]
  have h0 := (maskBytes 0).toNat_lt
  have h1 := (maskBytes 1).toNat_lt
  have h2 := (maskBytes 2).toNat_lt
  have h3 := (maskBytes 3).toNat_lt
  refine UInt8.toNat_inj.mp ?_
  simp only [blockMask, List.foldl, hor, UInt8.toNat_ofNat', Nat.shiftRight_eq_div_pow]
  have hi := Nat.mod_lt i (show 4 > 0 by decide)
  interval_cases i % 4 <;> omega

theorem xor_eq_left_iff (byte mask : UInt8) : byte ^^^ mask = byte ↔ mask = 0 := by
  constructor
  · intro h
    simpa [← UInt8.xor_assoc] using congrArg (byte ^^^ ·) h
  · rintro rfl
    exact UInt8.xor_zero

theorem map_eq_ok {α β : Type} {x : Except Error α} {f : α → β} {b : β} (h : x.map f = .ok b) :
    ∃ a, x = .ok a ∧ f a = b := by
  cases x with
  | error e => cases h
  | ok a => exact ⟨a, rfl, Except.ok.inj h⟩

variable {maskBytes : ℕ → UInt8} {serverSide : Bool}

theorem masked_eq_iff {offset : ℕ} {bytes : List UInt8} {list : IntList}
    (hok : masked maskBytes offset bytes = .ok list) :
    list = .uint8List offset bytes ↔ ∀ i < bytes.length, maskBytes (i % 4) = 0 := by
  rw [masked] at hok
  split at hok
  · cases hok
  cases hok
  simp [blockMask_byte, List.ext_getElem_iff, xor_eq_left_iff]

theorem createFrame_keeps_iff {opcode : ℕ} {data : IntList} {r : IntList × IntList}
    (hok : createFrame maskBytes serverSide opcode data = .ok r) :
    r.2 = data ↔ serverSide = true ∨ (opcode = 1 → ∀ offset bytes, data = .uint8List offset bytes →
      ∀ i < bytes.length, maskBytes (i % 4) = 0) := by
  unfold createFrame at hok
  split at hok
  · next hserver =>
    cases hok
    simp [hserver]
  next hclient =>
  split at hok
  · split at hok
    · next htext =>
      obtain ⟨list, hlist, rfl⟩ := map_eq_ok hok
      simp [hclient, htext, masked_eq_iff hlist]
    · next htext =>
      obtain ⟨list, -, rfl⟩ := map_eq_ok hok
      simp [htext]
  · split at hok
    · cases hok
    · obtain ⟨list, -, rfl⟩ := map_eq_ok hok
      simp

/-- **Sending keeps the list of the caller**, if it is done by a server, if the list is no
`Uint8List` of an encoded string, or if the mask happens to be zero as far as the list reaches. -/
theorem add_keeps_data_iff (utf8Encode : String → List UInt8) {message : Message} {frame : IntList}
    {after : Option IntList}
    (hok : add utf8Encode maskBytes serverSide message = .ok (frame, after)) :
    after = message.data ↔ serverSide = true ∨
      ∀ offset bytes, message = .encodedString (.uint8List offset bytes) →
        ∀ i < bytes.length, maskBytes (i % 4) = 0 := by
  cases message with
  | string text =>
    obtain ⟨r, -, h⟩ := map_eq_ok hok
    cases h
    simp [Message.data]
  | list data | encodedString data =>
    obtain ⟨r, hframe, h⟩ := map_eq_ok hok
    cases h
    simpa [Message.data] using createFrame_keeps_iff hframe

/-- Eighteen bytes: a block of sixteen, and two more. -/
def eighteen : List UInt8 := (List.range 18).map UInt8.ofNat

/-- A client sends a `Uint8List` as binary data, with a mask that changes the frame. -/
theorem add_keeps_data_binary :
    some (.uint8List 3 eighteen) = (Message.list (.uint8List 3 eighteen)).data := by
  have hok : add (fun _ => []) (fun i => UInt8.ofNat (i + 1)) false
      (.list (.uint8List 3 eighteen)) = .ok (.uint8List 0 (eighteen.mapIdx fun i byte =>
        byte ^^^ UInt8.ofNat (i % 4 + 1)), some (.uint8List 3 eighteen)) :=
    rfl
  exact (add_keeps_data_iff _ hok).mpr (.inr fun _ _ h => nomatch h)

/-- A client that sends the encoded string `a`, with a mask of ones, leaves the caller with a
backquote. -/
theorem add_masks_encodedString :
    add (fun _ => []) (fun _ => 1) false (.encodedString (.uint8List 0 [97])) =
      .ok (.uint8List 0 [96], some (.uint8List 0 [96])) :=
  rfl

end WebSocket
