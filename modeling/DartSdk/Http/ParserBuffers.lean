import DartSdk.Http.Parser

/-!
# Http/ParserBuffers — buffers are parsed as their bytes

`feed` takes one byte in any state, the data of a body included; `onData` is the run of `feed` over
its buffer (`doParse_eq`).  A body is taken in blocks, so that all that has to be known of a state
is that one in a body waits for some data (`Good`).

Where the bytes are cut shows only in `readUnparsedData`: it has the rest of one buffer.  With the
bytes that come after it this is the same for all cuts (`onData_congr`).
-/

namespace Http

namespace Parser

open List

variable (cfg : Config)

/-- One byte, in any state. -/
def feed (p : Parser) (byte : ℕ) : Parser :=
  if p.state = .failure then p
  else if p.state = .upgraded then { p with unparsed := p.unparsed ++ [byte] }
  else if p.state = .body then p.bodyBlock [byte]
  else if p.inBody then p.chunkByte cfg byte
  else p.headByte cfg byte

variable {cfg} {p : Parser} {bytes : List ℕ}

/-- A body has data to come, and nothing is counted before it. -/
structure Good (p : Parser) : Prop where
  body : p.state = .body → p.remainingContent ≠ some 0
  head : ¬p.inBody → p.state ≠ .upgraded → p.state ≠ .failure → p.remainingContent = none

theorem good_of_none (h : p.remainingContent = none) : p.Good :=
  ⟨fun _ hzero => (nomatch h.symm.trans hzero), fun _ _ _ => h⟩

theorem good_fail (e : String) (p : Parser) : (p.fail e).Good :=
  ⟨fun hbody => (nomatch hbody), fun _ _ hfailure => absurd rfl hfailure⟩

theorem good_upgraded (h : p.state = .upgraded) : p.Good :=
  ⟨fun hbody => (nomatch h.symm.trans hbody), fun _ hne => absurd h hne⟩

theorem good_inBody (h : p.inBody) (hbody : p.state ≠ .body) : p.Good :=
  ⟨fun hbody' => absurd hbody' hbody, fun hhead => absurd h hhead⟩

theorem good_reset (h : p.state ≠ .upgraded) : p.reset.Good := by
  rw [reset, if_neg h]
  exact good_of_none rfl

theorem good_addWithValidation {add : Parser → Parser} (h : (add { p with
    headersReceivedSize := p.headersReceivedSize + 1 }).Good) : (p.addWithValidation add).Good := by
  rw [addWithValidation]
  split_ifs
  · exact h
  · exact good_fail _ _

theorem good_headersEnd (hstate : p.state = .headerEnding) (h : p.remainingContent = none) :
    (p.headersEnd cfg).Good := by
  obtain ⟨hstate', h'⟩ : (p.connected cfg).state = .headerEnding ∧
      (p.connected cfg).remainingContent = none := by
    rw [connected]
    split_ifs
    all_goals exact ⟨hstate, h⟩
  rw [headersEnd, startBody]
  split_ifs with _ _ _ hzero _ hnone
  · exact good_fail _ _
  · exact good_fail _ _
  · exact good_upgraded rfl
  · refine good_reset fun hup => (nomatch hstate'.symm.trans hup)
  · exact good_inBody rfl (nomatch ·)
  · exact good_of_none h'
  · exact ⟨fun _ hn => hzero (.inl hn), fun hhead => absurd rfl hhead⟩

theorem good_endLine (byte : ℕ) (h : p.Good) : (p.endLine cfg byte).Good := by
  rcases ne_or_eq byte lf with hlf | hlf
  · rw [endLine, if_pos hlf]
    exact good_fail _ _
  have hnone {state : State} (hstate : p.state = state) (hhead : ¬Parser.inBody { state })
      (hup : state ≠ .upgraded) (hfail : state ≠ .failure) : p.remainingContent = none := by
    subst hstate
    exact h.head hhead hup hfail
  rw [endLine, if_neg (not_not.mpr hlf)]
  split
  case h_1 hstate => exact good_of_none (hnone hstate nofun nofun nofun)
  case h_2 hstate => exact good_of_none (hnone hstate nofun nofun nofun)
  case h_3 hstate => exact good_headersEnd hstate (hnone hstate nofun nofun nofun)
  case h_4 => exact good_inBody rfl nofun
  case h_5 =>
    split_ifs with hpos
    · refine ⟨fun _ hzero => ?_, fun hhead => absurd rfl hhead⟩
      rw [hzero] at hpos
      exact lt_irrefl 0 hpos
    · exact good_inBody rfl nofun
  case h_6 hstate => exact good_reset fun hup => (nomatch hstate.symm.trans hup)
  case h_7 => exact h

theorem good_lineBreak {ending : State} (byte : ℕ) (h : Good { p with state := ending }) :
    (p.lineBreak cfg byte ending).Good := by
  rw [lineBreak]
  split_ifs
  · exact h
  · exact good_endLine byte h

theorem good_fieldStart (byte : ℕ) (h : p.remainingContent = none) :
    (p.fieldStart cfg byte).Good := by
  rw [fieldStart]
  split_ifs
  · exact good_of_none h
  · exact good_lineBreak byte (good_of_none h)
  · exact good_addWithValidation (good_of_none h)

variable (h : p.remainingContent = none)

include h

theorem headerLine_remaining : p.headerLine.remainingContent = none := by
  rw [headerLine]
  repeat' split
  all_goals exact h

theorem good_addToHeaderValue (byte : ℕ) (state : State) :
    (p.addToHeaderValue byte state).Good := by
  rw [addToHeaderValue]
  split_ifs
  · exact good_fail _ _
  · exact good_addWithValidation (good_of_none h)

theorem good_versionByte {next : Parser} (byte : ℕ) (invalid : String) (hnext : next.Good) :
    (versionByte byte invalid next p).Good := by
  rw [versionByte]
  split_ifs
  all_goals first | exact good_of_none h | exact good_fail _ _ | exact hnext

theorem good_headByte (byte : ℕ) : (p.headByte cfg byte).Good := by
  have hgood := good_of_none h
  have hmethod (bytes : List ℕ) {p : Parser} (h : p.remainingContent = none) :
      (bytes.foldl (fun p byte => p.addMethod byte) p).remainingContent = none := by
    induction bytes generalizing p with
    | nil => exact h
    | cons b bytes ih =>
      refine ih ?_
      simp only [addMethod, addWithValidation]
      split_ifs <;> exact h
  rw [headByte]
  split
  case h_2 =>
    split_ifs
    all_goals first
      | exact good_of_none h
      | exact good_fail _ _
      | exact good_of_none (hmethod _ h)
      | exact good_addWithValidation (good_of_none (hmethod _ h))
  case h_3 =>
    refine good_versionByte h byte _ ?_
    split_ifs
    · exact good_of_none h
    · exact good_fail _ _
  case h_6 =>
    refine good_versionByte h byte _ ?_
    split_ifs
    · exact good_lineBreak byte (good_of_none h)
    · exact hgood
  case h_9 =>
    split_ifs
    · exact good_fail _ _
    · exact good_fieldStart byte h
  case h_14 =>
    split_ifs
    · exact good_addToHeaderValue h _ _
    · exact good_fieldStart byte (headerLine_remaining h)
  case h_15 => exact good_endLine byte hgood
  all_goals
    split_ifs
    all_goals first
      | exact hgood
      | exact good_of_none h
      | exact good_fail _ _
      | exact good_addWithValidation (good_of_none h)
      | exact good_lineBreak byte (good_of_none h)
      | exact good_addToHeaderValue h _ _

omit h

theorem good_chunkByte (byte : ℕ) (hin : p.inBody) (hbody : p.state ≠ .body) :
    (p.chunkByte cfg byte).Good := by
  have hgood := good_inBody hin hbody
  rw [chunkByte]
  split
  case h_2 =>
    repeat' split
    · exact good_lineBreak byte (good_inBody rfl nofun)
    · exact good_inBody rfl nofun
    · exact good_fail _ _
    · exact good_fail _ _
    · exact good_inBody hin hbody
  case h_5 => exact good_endLine byte hgood
  all_goals
    split_ifs
    all_goals first
      | exact hgood
      | exact good_fail _ _
      | exact good_lineBreak byte (good_inBody rfl nofun)
      | exact good_endLine byte (good_inBody rfl nofun)

theorem good_bodyBlock (data : List ℕ) (h : p.state = .body) : (p.bodyBlock data).Good := by
  rw [bodyBlock]
  split_ifs with hzero
  · exact good_inBody rfl nofun
  · exact good_reset fun hup => (nomatch h.symm.trans hup)
  · exact ⟨fun _ => hzero, fun hhead => absurd (show p.inBody by simp [inBody, h]) hhead⟩

/-- **What holds between bytes.** -/
theorem good_feed (byte : ℕ) (h : p.Good) : (feed cfg p byte).Good := by
  rw [feed]
  split_ifs with hfailure hup hbody hin
  · exact h
  · exact good_upgraded hup
  · exact good_bodyBlock _ hbody
  · exact good_chunkByte byte hin hbody
  · exact good_headByte (h.head hin hup hfailure) byte

theorem good_foldl (h : p.Good) (bytes : List ℕ) : (bytes.foldl (feed cfg) p).Good := by
  induction bytes generalizing p with
  | nil => exact h
  | cons b bytes ih => exact ih (good_feed b h)

theorem bodyBlock_bodyBlock (xs ys : List ℕ) (h : p.remainingContent.map (· - xs.length) ≠ some 0) :
    (p.bodyBlock xs).bodyBlock ys = p.bodyBlock (xs ++ ys) := by
  have hxs : p.bodyBlock xs = _ := if_neg h
  rw [hxs, bodyBlock, bodyBlock]
  rcases p.delivered with _ | ⟨⟨m, body⟩, messages⟩ <;> rcases p.remainingContent with _ | n <;>
    simp [Nat.sub_sub]

theorem bodyBlock_state (h : p.remainingContent.map (· - bytes.length) ≠ some 0) :
    (p.bodyBlock bytes).state = p.state := by
  rw [bodyBlock, if_neg (by exact h)]

/-- **A block of a body is taken as its bytes.** -/
theorem foldl_body (h : p.state = .body) (hne : bytes ≠ [])
    (hle : ∀ n, p.remainingContent = some n → bytes.length ≤ n) :
    bytes.foldl (feed cfg) p = p.bodyBlock bytes := by
  have hfeed {p : Parser} (h : p.state = .body) (b : ℕ) : feed cfg p b = p.bodyBlock [b] := by
    rw [feed, h]
    rfl
  induction bytes using List.reverseRecOn with
  | nil => exact absurd rfl hne
  | append_singleton xs x ih =>
    rw [foldl_append, foldl_cons, foldl_nil]
    rcases eq_or_ne xs [] with rfl | hxs
    · exact hfeed h x
    have hlt (n : ℕ) (hn : p.remainingContent = some n) : xs.length < n := by
      have := hle n hn
      rw [length_append, length_singleton] at this
      omega
    have hmore : p.remainingContent.map (· - xs.length) ≠ some 0 := by
      rcases hn : p.remainingContent with _ | n
      · exact nofun
      · have := hlt n hn
        simp
        omega
    rw [ih hxs fun n hn => (hlt n hn).le, hfeed ((bodyBlock_state hmore).trans h),
      bodyBlock_bodyBlock _ _ hmore]

theorem dataAvailable_spec {length : ℕ} (hlength : 0 < length) (h : p.remainingContent ≠ some 0) :
    0 < p.dataAvailable length ∧ p.dataAvailable length ≤ length ∧
      ∀ n, p.remainingContent = some n → p.dataAvailable length ≤ n := by
  rw [dataAvailable]
  rcases hr : p.remainingContent with _ | m
  · exact ⟨hlength, le_rfl, nofun⟩
  · have hpos : 0 < m := Nat.pos_of_ne_zero fun hm => h (hm ▸ hr)
    refine ⟨Nat.lt_min.mpr ⟨hlength, hpos⟩, Nat.min_le_left _ _, fun n hn => ?_⟩
    exact Option.some.inj hn ▸ Nat.min_le_right _ _

theorem foldl_failure (h : p.state = .failure) (bytes : List ℕ) : bytes.foldl (feed cfg) p = p := by
  induction bytes with
  | nil => rfl
  | cons b bytes ih => rw [foldl_cons, feed, if_pos h, ih]

theorem foldl_upgraded (h : p.state = .upgraded) (bytes : List ℕ) :
    bytes.foldl (feed cfg) p = { p with unparsed := p.unparsed ++ bytes } := by
  induction bytes generalizing p with
  | nil => simp
  | cons b bytes ih =>
    have hfeed : feed cfg p b = { p with unparsed := p.unparsed ++ [b] } := by
      rw [feed, if_neg (by rw [h]; exact nofun), if_pos h]
    rw [foldl_cons, hfeed, ih (by exact h), append_assoc]
    rfl

/-- **The loop takes a buffer as its bytes.** -/
theorem doParse_eq {fuel : ℕ} (h : p.Good) (hfuel : bytes.length ≤ fuel) :
    p.doParse cfg fuel bytes = bytes.foldl (feed cfg) p := by
  induction fuel generalizing bytes p with
  | zero => rw [eq_nil_of_length_eq_zero (Nat.le_zero.mp hfuel)]; rfl
  | succ fuel ih =>
    obtain _ | ⟨byte, rest⟩ := bytes
    · rfl
    have hrest := Nat.le_of_succ_le_succ hfuel
    rw [doParse]
    split_ifs with hfailure hup hbody hin
    · rw [foldl_failure hfailure]
    · rw [foldl_upgraded hup]
    · obtain ⟨hpos, hle, hcontent⟩ := dataAvailable_spec (Nat.succ_pos rest.length) (h.body hbody)
      dsimp only
      generalize p.dataAvailable (byte :: rest).length = n at hpos hle hcontent
      have hlength : ((byte :: rest).take n).length = n := length_take_of_le hle
      rw [← foldl_body hbody (ne_nil_of_length_pos (by omega)) fun m hm =>
          hlength.trans_le (hcontent m hm),
        ih (good_foldl h _) (by rw [length_drop]; omega), ← foldl_append, take_append_drop]
    · rw [ih (good_chunkByte byte hin hbody) hrest, foldl_cons, feed, if_neg hfailure, if_neg hup,
        if_neg hbody, if_pos hin]
    · rw [ih (good_headByte (h.head hin hup hfailure) byte) hrest, foldl_cons, feed,
        if_neg hfailure, if_neg hup, if_neg hbody, if_neg hin]

end Parser

namespace Connection

open List Http.Parser

variable {cfg : Config} {c : Connection}

/-- The parser, as if it had been given the bytes after an upgrade too. -/
def joined (c : Connection) : Parser :=
  { c.parser with unparsed := c.parser.unparsed ++ c.detached }

theorem joined_of_nil (h : c.detached = []) : c.joined = c.parser := by
  rw [joined, h, append_nil]

theorem foldl_onData (hgood : c.parser.Good) (h : c.parser.state ≠ .upgraded → c.detached = [])
    (buffers : List (List ℕ)) :
    (buffers.foldl (onData cfg) c).joined = buffers.flatten.foldl (feed cfg) c.joined := by
  induction buffers generalizing c with
  | nil => rfl
  | cons b bs ih =>
    rw [foldl_cons, flatten_cons, foldl_append, onData]
    split_ifs with hup
    · have hjoined : b.foldl (feed cfg) c.joined = joined ⟨c.parser, c.detached ++ b⟩ := by
        rw [foldl_upgraded (by exact hup)]
        simp only [joined, append_assoc]
      rw [hjoined, ← ih (c := ⟨c.parser, c.detached ++ b⟩) hgood fun hne => absurd hup hne]
    · have hparser : c.parser.onData cfg b = b.foldl (feed cfg) c.parser := doParse_eq hgood le_rfl
      rw [hparser, ih (c := ⟨_, _⟩) (good_foldl hgood b) fun _ => h hup, joined_of_nil (h hup),
        joined_of_nil (by exact h hup)]

/-- **Parsing does not depend on how the bytes arrive**: for any two ways to cut them into buffers,
messages, bodies, the upgrade and the error are the same, and so is what is left after an upgrade
together with the bytes that come later. -/
theorem onData_congr (cfg : Config) (buffers buffers' : List (List ℕ))
    (h : buffers.flatten = buffers'.flatten) (noMessageBody : Bool) :
    (buffers.foldl (onData cfg) ⟨{ noMessageBody }, []⟩).joined =
      (buffers'.foldl (onData cfg) ⟨{ noMessageBody }, []⟩).joined := by
  rw [foldl_onData (good_of_none rfl) fun _ => rfl, foldl_onData (good_of_none rfl) fun _ => rfl, h]

/-- A request with a body and the start of the next one, in three buffers and in one. -/
theorem onData_congr_post :
    ([text "POST / HTTP/1.1\r\ncontent-length: 4\r\n\r", text "\nab", text "cdGET"].foldl
      (onData ⟨true, false, fun _ => true⟩) {}).joined =
    ([text "POST / HTTP/1.1\r\ncontent-length: 4\r\n\r\nabcdGET"].foldl
      (onData ⟨true, false, fun _ => true⟩) {}).joined :=
  onData_congr _ _ _ (by decide) false

/-- An upgrade, with one byte in the buffer of the request and two more behind it, and in one
buffer. -/
theorem readUnparsedData_cut :
    ([text "GET / HTTP/1.1\r\nconnection: upgrade\r\n\r\nA", text "BC"].foldl
      (onData ⟨true, false, fun _ => true⟩) {}).parser.readUnparsedData = some (text "A") ∧
    ([text "GET / HTTP/1.1\r\nconnection: upgrade\r\n\r\nABC"].foldl
      (onData ⟨true, false, fun _ => true⟩) {}).parser.readUnparsedData = some (text "ABC") := by
  decide

end Connection

end Http
