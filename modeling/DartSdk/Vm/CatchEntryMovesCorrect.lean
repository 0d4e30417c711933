import DartSdk.Lib.Prior
import DartSdk.Vm.CatchEntryMoves
import DartSdk.Vm.DataStreamCorrect

/-!
# Vm/CatchEntryMovesCorrect — the moves read back from the map

The trie is known through `offsetAt` only, the offset at the end of a path.  The stream is known as
the encodings of a list of entries; each entry links to an earlier one that has the shared moves and
shares less itself (`Linked`).  Reading follows the links down.

The reader counts with an `int`, so that a mapping must have fewer than `2^31` moves, as every
mapping has: there is at most one move for each parameter of a catch entry.  **Then all mappings
come back** (`readMovesForPcOffset_build`).
-/

namespace CatchEntryMoves

open List Builder Move TrieNode DataStream

/-! ## Paths of the trie

A node stands for the moves on the path from the root, and its offset is that of a mapping which
ends with them. -/

namespace TrieNode

variable {t : TrieNode} {m : Move} {path q : List Move} {o : ℤ}

/-- The offset of the node at the end of a path. -/
def offsetAt : TrieNode → List Move → Option ℤ
  | t, [] => some t.offset
  | t, m :: ms => (t.follow m).bind fun n => offsetAt n ms

@[simp] theorem offsetAt_nil : t.offsetAt [] = some t.offset := by
  rw [offsetAt]

@[simp] theorem offsetAt_cons :
    t.offsetAt (m :: path) = (t.follow m).bind fun n => n.offsetAt path := by
  rw [offsetAt]

theorem move_insert : (insert o path t).move = t.move := by
  cases path <;> rw [insert]
  rfl

theorem offset_insert : (insert o path t).offset = t.offset := by
  cases path <;> rw [insert]
  rfl

theorem move_chain : (chain o m path).move = m := by
  cases path <;> rw [chain] <;> rfl

/-- `updateChild` changes what `follow` finds for `m`, and nothing else. -/
theorem find_updateChild {f : TrieNode → TrieNode} {new : TrieNode} (hf : ∀ t, (f t).move = t.move)
    (hnew : new.move = m) (m' : Move) (cs : List TrieNode) :
    (updateChild m f new cs).find? (fun c => c.move = m') =
      if m' = m then some (((cs.find? fun c => c.move = m).map f).getD new)
      else cs.find? fun c => c.move = m' := by
  induction cs with
  | nil =>
    rw [updateChild]
    by_cases h : m' = m
    · simp [h, hnew]
    · have hne : ¬ new.move = m' := by rw [hnew]; exact Ne.symm h
      simp [h, hne]
  | cons c cs ih =>
    rw [updateChild]
    by_cases hc : c.move = m
    · by_cases h : m' = m
      · simp [h, hc, hf]
      · simp [h, hc, hf, Ne.symm h]
    · by_cases h : c.move = m'
      · have hm : m' ≠ m := h ▸ hc
        simp [h, hm]
      · simp [h, hc, ih]

theorem offsetAt_chain : (chain o m path).offsetAt q = if q <+: path then some o else none := by
  induction path generalizing m q with
  | nil =>
    cases q with
    | nil => rfl
    | cons m' q => simp [chain, follow, children]
  | cons m1 path ih =>
    cases q with
    | nil => simp [chain, offset]
    | cons m' q =>
      rw [chain, offsetAt_cons, follow, children]
      by_cases h : m' = m1
      · simp [h, move_chain, ih]
      · simp [h, move_chain, Ne.symm h]

/-- **An insertion adds the prefixes of its path** and keeps the offsets that are there. -/
theorem offsetAt_insert :
    (insert o path t).offsetAt q = (t.offsetAt q).or (if q <+: path then some o else none) := by
  induction path generalizing t q with
  | nil => cases q <;> simp [insert]
  | cons m path ih =>
    cases q with
    | nil => simp [offset_insert]
    | cons m' q =>
      rw [insert, offsetAt_cons, offsetAt_cons, follow, children,
        find_updateChild (fun _ => move_insert) move_chain]
      by_cases h : m' = m
      · subst h
        rw [if_pos rfl, follow]
        cases hfind : t.children.find? (fun c => c.move = m') with
        | none => simp [offsetAt_chain]
        | some n => simp [ih]
      · simp [h, follow]

/-- With a path its prefixes are in the trie. -/
theorem offsetAt_ne_none_of_prefix (hq : q <+: path) (h : t.offsetAt path ≠ none) :
    t.offsetAt q ≠ none := by
  obtain ⟨rest, rfl⟩ := hq
  induction q generalizing t with
  | nil => simp
  | cons m q ih =>
    rw [cons_append, offsetAt_cons] at h
    rw [offsetAt_cons]
    cases hfollow : t.follow m with
    | none => simp [hfollow] at h
    | some n =>
      rw [hfollow, Option.bind_some] at h
      exact ih h

/-- The walk ends at a node of the trie. -/
theorem walk_spec (path : List Move) : ∀ t : TrieNode, (t.walk path).1 ≤ path.length ∧
    t.offsetAt (path.take (t.walk path).1) = some (t.walk path).2 := by
  induction path with
  | nil => exact fun t => ⟨by simp [walk], by simp [walk]⟩
  | cons m path ih =>
    intro t
    rw [walk]
    cases hfollow : t.follow m with
    | none => exact ⟨Nat.zero_le _, by simp⟩
    | some n =>
      obtain ⟨hle, hat⟩ := ih n
      exact ⟨by simpa using hle, by simpa [hfollow] using hat⟩

end TrieNode

/-! ## Entries of the stream

An entry has its own moves, and the offset of an earlier entry that continues it. -/

/-- What `endMapping` writes: the path is the list of the moves, the last one first. -/
structure Entry where
  offset : ℕ
  pc : BitVec 64
  path : List Move
  shared : ℕ
  link : ℤ

namespace Entry

/-- An entry as the stream has it. -/
def encode (e : Entry) : List UInt8 :=
  writeInt e.pc.toInt ++ writeInt (e.path.length - e.shared : ℕ) ++ writeInt e.shared ++
    writeInt e.link ++ (e.path.drop e.shared).flatMap writeTo

/-- The mapping that the entry stands for. -/
def mapping (e : Entry) : BitVec 64 × List Move := (e.pc, e.path.reverse)

/-- **Each entry links to an earlier one** that has the moves it shares, and shares less. -/
structure Linked (before : List Entry) (e : Entry) : Prop where
  offset : e.offset = (before.flatMap encode).length
  shared_le : e.shared ≤ e.path.length
  no_link : e.shared = 0 → e.link = -1
  link : 0 < e.shared → ∃ e' ∈ before,
    (e'.offset : ℤ) = e.link ∧ e.path.take e.shared <+: e'.path ∧ e'.shared < e.shared
  size : e.path.length ≤ e.offset + e.encode.length

end Entry

theorem length_writeTo_pos (m : Move) : 0 < m.writeTo.length := by
  have h : 0 < (write m.src.toInt).length := by
    rw [write]
    split <;> simp
  simp only [writeTo, length_append]
  exact Nat.lt_of_lt_of_le h (Nat.le_add_right _ _)

theorem length_writeInt_pos (v : ℤ) : 0 < (writeInt v).length := by
  have h : 0 < (write (BitVec.ofInt 64 v).toInt).length := by
    rw [write]
    split <;> simp
  exact h

theorem length_le_length_flatMap_writeTo (ms : List Move) :
    ms.length ≤ (ms.flatMap writeTo).length := by
  induction ms with
  | nil => simp
  | cons m ms ih =>
    have := length_writeTo_pos m
    simp only [flatMap_cons, length_append, length_cons]
    omega

theorem Entry.length_encode_pos (e : Entry) : 0 < e.encode.length := by
  have := length_writeInt_pos e.pc.toInt
  simp only [encode, length_append]
  omega

theorem Entry.unshared_le (e : Entry) : e.path.length - e.shared ≤ e.encode.length := by
  have := length_le_length_flatMap_writeTo (e.path.drop e.shared)
  simp only [encode, length_append, length_drop] at this ⊢
  omega

theorem length_le_length_flatMap_encode (es : List Entry) :
    es.length ≤ (es.flatMap Entry.encode).length := by
  induction es with
  | nil => simp
  | cons e es ih =>
    have := e.length_encode_pos
    simp only [flatMap_cons, length_append, length_cons]
    omega

/-! ## What the builder keeps

Every offset in the trie is that of an entry in the stream, and entries do not move. -/

/-- The stream is the encoding of the entries; a node of the trie has the offset of an entry that
goes through it and does not share it. -/
structure Layout (b : Builder) (es : List Entry) : Prop where
  stream : b.stream = es.flatMap Entry.encode
  root : b.root.offset = -1
  owner : ∀ q o, q ≠ [] → b.root.offsetAt q = some o →
    ∃ e ∈ es, (e.offset : ℤ) = o ∧ q <+: e.path ∧ e.shared < q.length
  linked : Prior Entry.Linked es

theorem layout_new : Layout .new [] where
  stream := rfl
  root := rfl
  owner q o hq h := by
    cases q with
    | nil => exact absurd rfl hq
    | cons m q => simp [new, TrieNode.root, TrieNode.offsetAt_cons, TrieNode.follow,
        TrieNode.children] at h
  linked := .nil

/-- The entry that the next mapping adds. -/
def Builder.entry (b : Builder) (mapping : BitVec 64 × List Move) : Entry where
  offset := b.stream.length
  pc := mapping.1
  path := mapping.2.reverse
  shared := (b.root.walk mapping.2.reverse).1
  link := (b.root.walk mapping.2.reverse).2

theorem foldl_append (b : Builder) (ms : List Move) :
    ms.foldl append b = { b with moves := b.moves ++ ms } := by
  induction ms generalizing b with
  | nil => simp
  | cons m ms ih => simp [ih, append]

variable {b : Builder} {es : List Entry} {mapping : BitVec 64 × List Move}

theorem stream_add : (b.add mapping).stream = b.stream ++ (b.entry mapping).encode := by
  simp [add, endMapping, newMapping, foldl_append, Entry.encode, entry, drop_reverse]

theorem root_add : (b.add mapping).root = b.root.insert b.stream.length mapping.2.reverse := by
  simp [add, endMapping, newMapping, foldl_append]

variable {e : Entry}

theorem Layout.size_le (h : Layout b es) (he : e ∈ es) : e.path.length ≤ b.stream.length := by
  obtain ⟨pre, post, rfl, hlinked⟩ := h.linked.of_mem he
  have hsize := hlinked.size
  rw [hlinked.offset] at hsize
  rw [h.stream]
  simp only [flatMap_append, flatMap_cons, length_append]
  omega

theorem Layout.linked_entry (h : Layout b es) : (b.entry mapping).Linked es := by
  obtain ⟨hle, hat⟩ := walk_spec mapping.2.reverse b.root
  have hshared : 0 < (b.entry mapping).shared → ∃ e' ∈ es,
      (e'.offset : ℤ) = (b.entry mapping).link ∧
        (b.entry mapping).path.take (b.entry mapping).shared <+: e'.path ∧
        e'.shared < (b.entry mapping).shared := by
    intro hpos
    have hlen : ((b.entry mapping).path.take (b.entry mapping).shared).length =
        (b.entry mapping).shared := length_take_of_le hle
    obtain ⟨e', he', ho, hp, hs⟩ := h.owner _ _ (ne_nil_of_length_pos (hlen ▸ hpos)) hat
    exact ⟨e', he', ho, hp, hlen ▸ hs⟩
  refine ⟨by rw [← h.stream]; rfl, hle, fun hzero => ?_, hshared, ?_⟩
  · have hzero' : (b.root.walk mapping.2.reverse).1 = 0 := hzero
    rw [hzero', take_zero, offsetAt_nil, h.root] at hat
    exact (Option.some.inj hat).symm
  · -- the shared moves are in an earlier entry, the others take a byte each at least
    have hun := (b.entry mapping).unshared_le
    have hoff : (b.entry mapping).offset = b.stream.length := rfl
    rcases Nat.eq_zero_or_pos (b.entry mapping).shared with hzero | hpos
    · omega
    obtain ⟨e', he', -, hp, -⟩ := hshared hpos
    have hle' : (b.entry mapping).shared ≤ (b.entry mapping).path.length := hle
    have hlen := hp.length_le
    have hsize := h.size_le he'
    rw [length_take_of_le hle'] at hlen
    omega

/-- **One mapping keeps the layout.** -/
theorem Layout.add (h : Layout b es) : Layout (b.add mapping) (es ++ [b.entry mapping]) where
  stream := by simp [stream_add, h.stream]
  root := by rw [root_add, offset_insert, h.root]
  owner q o hq hat := by
    rw [root_add, offsetAt_insert] at hat
    cases hold : b.root.offsetAt q with
    | some o' =>
      rw [hold, Option.some_or, Option.some.injEq] at hat
      obtain ⟨e, he, hrest⟩ := h.owner q o hq (hat ▸ hold)
      exact ⟨e, mem_append_left _ he, hrest⟩
    | none =>
      rw [hold, Option.none_or] at hat
      split_ifs at hat with hp
      obtain rfl := Option.some.inj hat
      refine ⟨b.entry mapping, by simp, rfl, hp, ?_⟩
      -- the trie has the shared part of the path, and not `q`
      by_contra hlt
      obtain ⟨-, hpresent⟩ := walk_spec mapping.2.reverse b.root
      have hq' : q <+: mapping.2.reverse.take (b.root.walk mapping.2.reverse).1 :=
        prefix_take_iff.2 ⟨hp, Nat.le_of_not_lt hlt⟩
      exact offsetAt_ne_none_of_prefix hq' (by simp [hpresent]) hold
  linked := h.linked.concat h.linked_entry

theorem layout_build (mappings : List (BitVec 64 × List Move)) :
    ∃ es, Layout (build mappings) es ∧ es.map Entry.mapping = mappings := by
  induction mappings using reverseRecOn with
  | nil => exact ⟨[], layout_new, rfl⟩
  | append_singleton mappings m ih =>
    obtain ⟨es, hlayout, hmap⟩ := ih
    refine ⟨es ++ [(build mappings).entry m], ?_, ?_⟩
    · rw [build, foldl_concat]
      exact hlayout.add
    · simp [hmap, Entry.mapping, entry]

/-! ## The reader -/

theorem readInt_writeInt {v : ℤ} (hlo : -2 ^ 63 ≤ v) (hhi : v < 2 ^ 63) (rest : List UInt8) :
    readInt (writeInt v ++ rest) = some (v, rest) := by
  have hread : rawRead .bits64 (rawWrite .bits64 (BitVec.ofInt 64 v) ++ rest) =
      some (BitVec.ofInt 64 v, rest) := rawRead_rawWrite _
  have hint : (BitVec.ofInt 64 v).toInt = v := by
    rw [BitVec.toInt_ofInt, Int.bmod_eq_of_le (by omega) (by omega)]
  rw [readInt, writeInt, hread]
  exact congrArg (fun x => some (x, rest)) hint

theorem readFrom_writeTo (m : Move) (rest : List UInt8) :
    readFrom (m.writeTo ++ rest) = some (m, rest) := by
  have hsrc : rawRead .bits32 (rawWrite .bits32 m.src ++ (rawWrite .bits32 m.destAndKind ++ rest)) =
      some (m.src, rawWrite .bits32 m.destAndKind ++ rest) := rawRead_rawWrite _
  have hdest : rawRead .bits32 (rawWrite .bits32 m.destAndKind ++ rest) =
      some (m.destAndKind, rest) := rawRead_rawWrite _
  rw [readFrom, writeTo, append_assoc, hsrc]
  change (rawRead .bits32 (rawWrite .bits32 m.destAndKind ++ rest)).bind _ = _
  rw [hdest]
  rfl

theorem readMoves_flatMap (ms : List Move) (rest : List UInt8) :
    readMoves ms.length (ms.flatMap writeTo ++ rest) = some (ms, rest) := by
  induction ms with
  | nil => rfl
  | cons m ms ih =>
    rw [length_cons, readMoves, flatMap_cons, append_assoc, readFrom_writeTo]
    simp [ih]

/-- Reading the first moves of more. -/
theorem readMoves_take {n : ℕ} {ms : List Move} (hn : n ≤ ms.length) (rest : List UInt8) :
    readMoves n (ms.flatMap writeTo ++ rest) =
      some (ms.take n, (ms.drop n).flatMap writeTo ++ rest) := by
  have h := readMoves_flatMap (ms.take n) ((ms.drop n).flatMap writeTo ++ rest)
  rwa [length_take_of_le hn, ← append_assoc, ← flatMap_append, take_append_drop] at h

/-- The numbers of the entry are in the range of `intptr_t`. -/
structure Entry.InRange (e : Entry) : Prop where
  length_lt : e.path.length < 2 ^ 63
  shared_le : e.shared ≤ e.path.length
  le_link : -2 ^ 63 ≤ e.link
  link_lt : e.link < 2 ^ 63

/-- All entries of a layout of a byte array are in the range. -/
theorem Layout.inRange (h : Layout b es) (hsize : b.stream.length ≤ kSmiMax)
    (he : e ∈ es) : e.InRange := by
  have hlength := h.size_le he
  obtain ⟨pre, post, hes, hlinked⟩ := h.linked.of_mem he
  have hlink : -1 ≤ e.link ∧ e.link ≤ b.stream.length := by
    rcases Nat.eq_zero_or_pos e.shared with hzero | hpos
    · rw [hlinked.no_link hzero]
      omega
    obtain ⟨e', he', ho, -, -⟩ := hlinked.link hpos
    obtain ⟨pre', post', hes', hlinked'⟩ := h.linked.of_mem
      (hes ▸ mem_append_left (e :: post) he' : e' ∈ es)
    have hle : (pre'.flatMap Entry.encode).length ≤ (es.flatMap Entry.encode).length := by
      rw [hes', flatMap_append, length_append]
      omega
    rw [← ho, hlinked'.offset, h.stream]
    omega
  simp only [kSmiMax] at hsize
  exact ⟨by omega, hlinked.shared_le, by omega, by omega⟩

theorem readInt_toInt (pc : BitVec 64) (rest : List UInt8) :
    readInt (writeInt pc.toInt ++ rest) = some (pc.toInt, rest) := by
  have hlo := BitVec.le_toInt pc
  have hhi := @BitVec.toInt_lt 64 pc
  exact readInt_writeInt (by omega) (by omega) rest

section

variable {e : Entry} {rest bytes : List UInt8} {pc : BitVec 64} {size fuel : ℕ}

theorem Entry.InRange.readInt_unshared (he : e.InRange) (rest : List UInt8) :
    readInt (writeInt (e.path.length - e.shared : ℕ) ++ rest) =
      some (((e.path.length - e.shared : ℕ) : ℤ), rest) := by
  have := he.length_lt
  exact readInt_writeInt (by omega) (by omega) rest

theorem Entry.InRange.readInt_shared (he : e.InRange) (rest : List UInt8) :
    readInt (writeInt e.shared ++ rest) = some ((e.shared : ℤ), rest) := by
  have := he.length_lt
  have := he.shared_le
  exact readInt_writeInt (by omega) (by omega) rest

theorem Entry.InRange.readInt_link (he : e.InRange) (rest : List UInt8) :
    readInt (writeInt e.link ++ rest) = some (e.link, rest) :=
  readInt_writeInt he.le_link he.link_lt rest

theorem length_encode_append_pos : (e.encode ++ rest).length > 0 := by
  have := e.length_encode_pos
  rw [length_append]
  omega

/-- One round of the search that passes an entry. -/
theorem findEntryForPc_of_ne (he : e.InRange) (hpc : e.pc ≠ pc) :
    findEntryForPc size pc (fuel + 1) (e.encode ++ rest) = findEntryForPc size pc fuel rest := by
  have hint : pc.toInt ≠ e.pc.toInt := fun h => hpc (BitVec.toInt_inj.1 h).symm
  have hmoves := readMoves_flatMap (e.path.drop e.shared) rest
  rw [length_drop] at hmoves
  rw [findEntryForPc, if_pos length_encode_append_pos]
  simp [Entry.encode, readInt_toInt, he.readInt_unshared, he.readInt_shared, he.readInt_link, hint,
    hmoves]

/-- The last round of the search. -/
theorem findEntryForPc_of_eq (he : e.InRange) :
    findEntryForPc size e.pc (fuel + 1) (e.encode ++ rest) =
      some (size - (e.encode ++ rest).length, (e.path.length : ℤ)) := by
  have hlength : ((e.path.length - e.shared : ℕ) : ℤ) + e.shared = e.path.length := by
    have := he.shared_le
    omega
  rw [findEntryForPc, if_pos length_encode_append_pos]
  simp [Entry.encode, readInt_toInt, he.readInt_unshared, he.readInt_shared, he.readInt_link,
    hlength]

/-- **The search finds the entry of its pc offset.** -/
theorem findEntryForPc_flatMap {pre post : List Entry}
    (hpre : ∀ e' ∈ pre, e'.InRange ∧ e'.pc ≠ e.pc) (he : e.InRange) (hfuel : pre.length < fuel) :
    findEntryForPc size e.pc fuel ((pre ++ e :: post).flatMap Entry.encode) =
      some (size - ((e :: post).flatMap Entry.encode).length, (e.path.length : ℤ)) := by
  induction pre generalizing fuel with
  | nil =>
    obtain ⟨fuel, rfl⟩ : ∃ n, fuel = n + 1 := ⟨fuel - 1, by omega⟩
    exact findEntryForPc_of_eq he
  | cons e' pre ih =>
    obtain ⟨fuel, rfl⟩ : ∃ n, fuel = n + 1 := ⟨fuel - 1, by omega⟩
    obtain ⟨hrange, hne⟩ := hpre e' (by simp)
    rw [cons_append, flatMap_cons, findEntryForPc_of_ne hrange hne]
    exact ih (fun e'' h'' => hpre e'' (mem_cons_of_mem _ h'')) (by simpa using hfuel)

variable {remaining : ℕ} {moves : List Move}

theorem readSuffix_zero : readSuffix bytes (fuel + 1) e.link (0 : ℕ) moves = some moves := by
  simp [readSuffix]

/-- One round of the reader at an entry. -/
theorem readSuffix_entry (he : e.InRange) (hbytes : bytes.drop e.offset = e.encode ++ rest)
    (hoffset : e.offset ≤ bytes.length) (hpos : 0 < remaining) :
    readSuffix bytes (fuel + 1) e.offset remaining moves =
      if e.shared < remaining then
        if remaining - e.shared ≤ kMaxInt then
          (readMoves (remaining - e.shared) ((e.path.drop e.shared).flatMap writeTo ++ rest)).bind
            fun chunk => readSuffix bytes fuel e.link e.shared (moves ++ chunk.1.reverse)
        else none
      else readSuffix bytes fuel e.link remaining moves := by
  have hpos' : (remaining : ℤ) > 0 := by omega
  have hoffset' : (0 : ℤ) ≤ e.offset ∧ (e.offset : ℤ) ≤ bytes.length := by omega
  rw [readSuffix, if_pos hpos', if_pos hoffset', Int.toNat_natCast, hbytes]
  simp only [Entry.encode, append_assoc, bind, Option.bind, readInt_toInt,
    he.readInt_unshared, he.readInt_shared, he.readInt_link]
  by_cases hlt : e.shared < remaining
  · have hread : (remaining : ℤ) - e.shared > 0 := by omega
    have hnat : ((remaining : ℤ) - e.shared).toNat = remaining - e.shared := by omega
    have hrest : (remaining : ℤ) - (remaining - e.shared) = e.shared := by omega
    rw [if_pos hread, if_pos hlt, hnat, hrest]
    by_cases hint : remaining - e.shared ≤ kMaxInt
    · rw [if_neg (by omega), if_pos hint]
    · rw [if_pos (by omega), if_neg hint]
  · rw [if_neg (by omega), if_neg hlt]

end

namespace Layout

variable {pre post : List Entry} {e : Entry} {fuel remaining : ℕ} {moves : List Move}

theorem drop_offset (h : Layout b (pre ++ e :: post)) :
    b.stream.drop e.offset = e.encode ++ post.flatMap Entry.encode := by
  rw [h.stream, (h.linked pre e post rfl).offset, flatMap_append, drop_left, flatMap_cons]

theorem offset_le (h : Layout b (pre ++ e :: post)) : e.offset ≤ b.stream.length := by
  rw [h.stream, (h.linked pre e post rfl).offset, flatMap_append, length_append]
  omega

/-- **Following the links gives the first moves of the path**: the induction is over the entries
before the one where the reader is. -/
theorem readSuffix_take (h : Layout b es) (hsize : b.stream.length ≤ kSmiMax)
    (hown : ∀ e ∈ es, e.path.length - e.shared ≤ kMaxInt) (hes : es = pre ++ e :: post)
    (hlt : e.shared < remaining) (hle : remaining ≤ e.path.length) (hfuel : pre.length + 2 ≤ fuel) :
    readSuffix b.stream fuel e.offset remaining moves =
      some (moves ++ (e.path.take remaining).reverse) := by
  induction hn : pre.length using Nat.strong_induction_on generalizing pre e post fuel remaining
    moves with
  | _ n ih =>
  subst hes
  obtain ⟨fuel, rfl⟩ : ∃ k, fuel = k + 1 := ⟨fuel - 1, by omega⟩
  have hmem : e ∈ pre ++ e :: post := by simp
  have hlinked := h.linked pre e post rfl
  have hbound : remaining - e.shared ≤ kMaxInt := by
    have := hown e hmem
    omega
  have hchunk : remaining - e.shared ≤ (e.path.drop e.shared).length := by
    rw [length_drop]
    omega
  rw [readSuffix_entry (h.inRange hsize hmem) h.drop_offset h.offset_le (by omega), if_pos hlt,
    if_pos hbound, readMoves_take hchunk, Option.bind_some]
  have htake : (e.path.take remaining).reverse =
      ((e.path.drop e.shared).take (remaining - e.shared)).reverse ++
        (e.path.take e.shared).reverse := by
    rw [← reverse_append, ← take_add]
    congr 2
    omega
  rcases Nat.eq_zero_or_pos e.shared with hzero | hpos
  · obtain ⟨fuel, rfl⟩ : ∃ k, fuel = k + 1 := ⟨fuel - 1, by omega⟩
    rw [htake, hzero, readSuffix_zero]
    simp
  obtain ⟨e', he', hlink, hprefix, hless⟩ := hlinked.link hpos
  obtain ⟨pre', post', rfl⟩ := append_of_mem he'
  have hle' : e.shared ≤ e'.path.length := by
    have := hprefix.length_le
    rwa [length_take_of_le hlinked.shared_le] at this
  have hsame : e'.path.take e.shared = e.path.take e.shared := by
    rw [prefix_iff_eq_take.1 hprefix, length_take_of_le hlinked.shared_le]
  simp only [length_append, length_cons] at hn hfuel
  have hsplit : pre' ++ e' :: post' ++ e :: post = pre' ++ e' :: (post' ++ e :: post) := by simp
  rw [← hlink, ih pre'.length (by omega) hsplit hless hle' (by omega) rfl, hsame, htake,
    append_assoc]

section

variable (h : Layout b (pre ++ e :: post)) (hsize : b.stream.length ≤ kSmiMax)
  (hpcs : ((pre ++ e :: post).map Entry.pc).Nodup)

include h hsize hpcs

theorem readMovesForPcOffset_eq : readMovesForPcOffset b.stream e.pc =
      readSuffix b.stream (b.stream.length + 1) e.offset e.path.length [] := by
  have hlen := length_le_length_flatMap_encode (pre ++ e :: post)
  rw [← h.stream, length_append, length_cons] at hlen
  have hne : ∀ e' ∈ pre, e'.InRange ∧ e'.pc ≠ e.pc := by
    intro e' he'
    refine ⟨h.inRange hsize (mem_append_left _ he'), fun heq => ?_⟩
    rw [map_append, map_cons] at hpcs
    exact disjoint_of_nodup_append hpcs (mem_map_of_mem he') (by simp [heq])
  have hoffset : b.stream.length - ((e :: post).flatMap Entry.encode).length = e.offset := by
    rw [h.stream, (h.linked pre e post rfl).offset, flatMap_append, length_append]
    omega
  have hfind : findEntryForPc b.stream.length e.pc (b.stream.length + 1) b.stream =
      some (e.offset, (e.path.length : ℤ)) := by
    rw [← hoffset]
    nth_rewrite 3 [h.stream]
    exact findEntryForPc_flatMap hne (h.inRange hsize (by simp)) (by omega)
  rw [readMovesForPcOffset, hfind]
  rfl

theorem readMovesForPcOffset_eq_some
    (hown : ∀ e' ∈ pre ++ e :: post, e'.path.length - e'.shared ≤ kMaxInt) :
    readMovesForPcOffset b.stream e.pc = some e.path.reverse := by
  have hlinked := h.linked pre e post rfl
  have hlen := length_le_length_flatMap_encode (pre ++ e :: post)
  rw [← h.stream, length_append, length_cons] at hlen
  rw [h.readMovesForPcOffset_eq hsize hpcs]
  rcases Nat.lt_or_ge e.shared e.path.length with hlt | hge
  · rw [h.readSuffix_take hsize hown rfl hlt le_rfl (by omega), take_length, nil_append]
  -- all moves are shared: the reader goes on at the link, if there is any move
  have hshared := hlinked.shared_le
  rcases Nat.eq_zero_or_pos e.path.length with hzero | hpos
  · rw [length_eq_zero_iff.1 hzero]
    simp [readSuffix]
  obtain ⟨e', he', hlink, hprefix, hless⟩ := hlinked.link (by omega)
  obtain ⟨pre', post', rfl⟩ := append_of_mem he'
  rw [take_of_length_le hge] at hprefix
  have hsplit : pre' ++ e' :: post' ++ e :: post = pre' ++ e' :: (post' ++ e :: post) := by simp
  simp only [length_append, length_cons] at hlen
  rw [readSuffix_entry (h.inRange hsize (by simp)) h.drop_offset h.offset_le hpos,
    if_neg (by omega), ← hlink,
    h.readSuffix_take hsize hown hsplit (by omega) hprefix.length_le (by omega),
    ← prefix_iff_eq_take.1 hprefix, nil_append]

end

end Layout

/-! ## Maps that fit

Offsets and lengths are written as 64-bit integers, which bounds the stream. -/

theorem length_writeInt_le (v : ℤ) : (writeInt v).length ≤ 10 := by
  have hbounds := Width.toInt_bounds (t := .bits64) (BitVec.ofInt 64 v)
  exact length_write hbounds.1 hbounds.2

theorem length_writeTo_le (m : Move) : m.writeTo.length ≤ 10 := by
  have hsrc := Width.toInt_bounds (t := .bits32) m.src
  have hdest := Width.toInt_bounds (t := .bits32) m.destAndKind
  have hsrc' : (rawWrite .bits32 m.src).length ≤ 5 := length_write hsrc.1 hsrc.2
  have hdest' : (rawWrite .bits32 m.destAndKind).length ≤ 5 := length_write hdest.1 hdest.2
  rw [writeTo, length_append]
  omega

theorem length_flatMap_writeTo_le (ms : List Move) :
    (ms.flatMap writeTo).length ≤ 10 * ms.length := by
  induction ms with
  | nil => simp
  | cons m ms ih =>
    have := length_writeTo_le m
    simp only [flatMap_cons, length_append, length_cons]
    omega

theorem length_stream_add_le :
    (b.add mapping).stream.length ≤ b.stream.length + 40 + 10 * mapping.2.length := by
  have hpc := length_writeInt_le (b.entry mapping).pc.toInt
  have hunshared := length_writeInt_le
    ((b.entry mapping).path.length - (b.entry mapping).shared : ℕ)
  have hshared := length_writeInt_le (b.entry mapping).shared
  have hlink := length_writeInt_le (b.entry mapping).link
  have hmoves := length_flatMap_writeTo_le ((b.entry mapping).path.drop (b.entry mapping).shared)
  have hpath : (b.entry mapping).path.length = mapping.2.length := length_reverse
  rw [length_drop] at hmoves
  simp only [stream_add, Entry.encode, length_append]
  omega

theorem length_stream_build_le (mappings : List (BitVec 64 × List Move)) :
    (build mappings).stream.length ≤ (mappings.map fun m => 40 + 10 * m.2.length).sum := by
  induction mappings using reverseRecOn with
  | nil => simp [build, new]
  | append_singleton mappings m ih =>
    have hadd : (build (mappings ++ [m])).stream.length ≤
        (build mappings).stream.length + 40 + 10 * m.2.length := by
      rw [build, foldl_concat]
      exact length_stream_add_le
    simp only [map_append, sum_append, map_cons, map_nil, sum_cons, sum_nil]
    omega

theorem finalizeCatchEntryMovesMap_build {mappings : List (BitVec 64 × List Move)}
    (h : (mappings.map fun m => 40 + 10 * m.2.length).sum ≤ kSmiMax) :
    finalizeCatchEntryMovesMap (build mappings) = some (build mappings).stream :=
  if_pos ((length_stream_build_le mappings).trans h)

/-- **The moves of every mapping are read back, in their order**: a map of mappings with distinct pc
offsets and fewer than `2^31` moves each gives for every pc offset the moves that were appended. -/
theorem readMovesForPcOffset_build (mappings : List (BitVec 64 × List Move)) (bytes : List UInt8)
    (hpcs : (mappings.map Prod.fst).Nodup) (hshort : ∀ m ∈ mappings, m.2.length ≤ kMaxInt)
    (hbytes : finalizeCatchEntryMovesMap (build mappings) = some bytes) :
    ∀ m ∈ mappings, readMovesForPcOffset bytes m.1 = some m.2 := by
  obtain ⟨es, hlayout, rfl⟩ := layout_build mappings
  rw [finalizeCatchEntryMovesMap] at hbytes
  split_ifs at hbytes with hsize
  obtain rfl := Option.some.inj hbytes
  have hpcs' : (es.map Entry.pc).Nodup := by
    rw [map_map] at hpcs
    exact hpcs
  -- an entry has no more moves of its own than its mapping has
  have hown : ∀ e ∈ es, e.path.length - e.shared ≤ kMaxInt := by
    intro e he
    have hlength : e.mapping.2.length = e.path.length := length_reverse
    have := hshort _ (mem_map_of_mem he)
    omega
  rw [forall_mem_map]
  intro e he
  obtain ⟨pre, post, rfl⟩ := append_of_mem he
  exact hlayout.readMovesForPcOffset_eq_some hsize hpcs' hown

/-- Mappings that share suffixes: one shares its last move with the first, one is a suffix of
another, and one is empty. -/
def sharing : List (BitVec 64 × List Move) :=
  [(0, [⟨1, 10⟩, ⟨2, 20⟩]), (8, [⟨3, 30⟩, ⟨4, 40⟩, ⟨2, 20⟩]), (4, [⟨4, 40⟩, ⟨2, 20⟩]), (16, [])]

theorem readMovesForPcOffset_sharing :
    sharing.map (fun m => readMovesForPcOffset (build sharing).stream m.1) =
      sharing.map fun m => some m.2 :=
  map_congr_left (readMovesForPcOffset_build sharing _ (by decide) (by decide)
    (finalizeCatchEntryMovesMap_build (by decide)))

end CatchEntryMoves
