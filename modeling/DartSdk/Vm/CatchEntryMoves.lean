import DartSdk.Vm.DataStream

/-!
# Vm/CatchEntryMoves — the compressed map of catch-entry moves

Each mapping is an entry of the stream: its pc offset, and its moves without a suffix that earlier
entries have already.  A trie of suffixes, the last move at the root, finds the longest one; a node
remembers the stream offset of the entry that created it, and the entry links to it.

The reader looks for the entry of a pc offset and follows the links.
-/

namespace CatchEntryMoves

open DataStream

/-- A `CatchEntryMove`. -/
structure Move where
  src : BitVec 32
  destAndKind : BitVec 32
  deriving DecidableEq

/-- `WriteTo`. -/
def Move.writeTo (m : Move) : List UInt8 := rawWrite .bits32 m.src ++ rawWrite .bits32 m.destAndKind

/-- `ReadFrom`. -/
def Move.readFrom : Reader Move := fun bytes => do
  let (src, bytes) ← rawRead .bits32 bytes
  let (destAndKind, bytes) ← rawRead .bits32 bytes
  return (⟨src, destAndKind⟩, bytes)

/-- An `intptr_t`. -/
def writeInt (value : ℤ) : List UInt8 := rawWrite .bits64 (BitVec.ofInt 64 value)

/-- An integer of the stream. -/
def readInt : Reader ℤ := fun bytes => do
  let (value, bytes) ← rawRead .bits64 bytes
  return (value.toInt, bytes)

/-! ## The trie

Moves are stored from the last to the first, so that mappings with a common suffix share a path from
the root. -/

/-- A node of the trie of move suffixes: its move, the offset where it is written, and the longer
suffixes. -/
inductive TrieNode where
  | mk (move : Move) (offset : ℤ) (children : List TrieNode)

namespace TrieNode

/-- The move of a node. -/
def move : TrieNode → Move
  | mk m _ _ => m

/-- Where the mapping of a node is written. -/
def offset : TrieNode → ℤ
  | mk _ o _ => o

/-- The longer suffixes. -/
def children : TrieNode → List TrieNode
  | mk _ _ cs => cs

/-- The empty suffix. -/
def root : TrieNode := mk ⟨0, BitVec.ofNat 32 1⟩ (-1) []

/-- `Follow`. -/
def follow (t : TrieNode) (next : Move) : Option TrieNode := t.children.find? fun c => c.move = next

/-- The length of the longest path along the moves, and the offset of its last node. -/
def walk : TrieNode → List Move → ℕ × ℤ
  | t, [] => (0, t.offset)
  | t, m :: ms =>
    match t.follow m with
    | none => (0, t.offset)
    | some n =>
      let (suffixLength, suffixOffset) := walk n ms
      (suffixLength + 1, suffixOffset)

/-- New nodes, one below the other. -/
def chain (o : ℤ) : Move → List Move → TrieNode
  | m, [] => mk m o []
  | m, m' :: ms => mk m o [chain o m' ms]

/-- Changes the child that `follow` finds, or adds one at the end. -/
def updateChild (m : Move) (f : TrieNode → TrieNode) (new : TrieNode) :
    List TrieNode → List TrieNode
  | [] => [new]
  | c :: cs => if c.move = m then f c :: cs else c :: updateChild m f new cs

/-- The trie with nodes for the whole path; the new ones have the offset `o`. -/
def insert (o : ℤ) : List Move → TrieNode → TrieNode
  | [], t => t
  | m :: ms, t => mk t.move t.offset (updateChild m (insert o ms) (chain o m ms) t.children)

end TrieNode

/-! ## The builder

A mapping is written up to the suffix that the trie already has, followed by the offset of that
suffix. -/

/-- `CatchEntryMovesMapBuilder`. -/
structure Builder where
  root : TrieNode
  currentPcOffset : BitVec 64
  moves : List Move
  stream : List UInt8

namespace Builder

/-- A builder with nothing written. -/
def new : Builder := ⟨.root, 0, [], []⟩

/-- `Append`. -/
def append (b : Builder) (move : Move) : Builder := { b with moves := b.moves ++ [move] }

/-- `NewMapping`. -/
def newMapping (b : Builder) (pcOffset : BitVec 64) : Builder :=
  { b with moves := [], currentPcOffset := pcOffset }

/-- `EndMapping`: what is not in the trie is written, with a link to the suffix that is. -/
def endMapping (b : Builder) : Builder :=
  let (suffixLength, suffixOffset) := b.root.walk b.moves.reverse
  let length := b.moves.length - suffixLength
  let currentOffset := b.stream.length
  { b with
    stream := b.stream ++ writeInt b.currentPcOffset.toInt ++ writeInt length ++
      writeInt suffixLength ++ writeInt suffixOffset ++
      (b.moves.take length).reverse.flatMap Move.writeTo
    root := b.root.insert currentOffset b.moves.reverse }

/-- One mapping: its pc offset and its moves. -/
def add (b : Builder) (mapping : BitVec 64 × List Move) : Builder :=
  (mapping.2.foldl append (b.newMapping mapping.1)).endMapping

end Builder

/-- `Smi::kMaxValue`, the greatest length of a byte array. -/
def kSmiMax : ℕ := 2 ^ 62 - 1

/-- The byte array of the map; `TypedData::New` is fatal when the length is not a Smi. -/
def finalizeCatchEntryMovesMap (b : Builder) : Option (List UInt8) :=
  if b.stream.length ≤ kSmiMax then some b.stream else none

/-- The builder after all mappings. -/
def build (mappings : List (BitVec 64 × List Move)) : Builder := mappings.foldl Builder.add .new

/-- Reads moves one after another. -/
def readMoves : ℕ → Reader (List Move)
  | 0, bytes => some ([], bytes)
  | n + 1, bytes => do
    let (m, bytes) ← Move.readFrom bytes
    let (ms, bytes) ← readMoves n bytes
    return (m :: ms, bytes)

/-- The position of the entry and the number of its moves.  Each round reads a byte at least. -/
def findEntryForPc (size : ℕ) (pcOffset : BitVec 64) : ℕ → List UInt8 → Option (ℕ × ℤ)
  | 0, _ => none
  | fuel + 1, bytes =>
    if bytes.length > 0 then do
      let position := size - bytes.length
      let (targetPcOffset, bytes) ← readInt bytes
      let (prefixLength, bytes) ← readInt bytes
      let (suffixLength, bytes) ← readInt bytes
      let (_, bytes) ← readInt bytes
      if pcOffset.toInt = targetPcOffset then return (position, prefixLength + suffixLength)
      let (_, bytes) ← readMoves prefixLength.toNat bytes
      findEntryForPc size pcOffset fuel bytes
    else none

/-- The number of rounds that the `int` counter `j` can count. -/
def kMaxInt : ℕ := 2 ^ 31 - 1

/-- The moves of an entry are written from the back; those of its suffix are read behind them. -/
def readSuffix (bytes : List UInt8) : ℕ → ℤ → ℤ → List Move → Option (List Move)
  | 0, _, _, _ => none
  | fuel + 1, offset, remainingLength, moves =>
    if remainingLength > 0 then
      if 0 ≤ offset ∧ offset ≤ bytes.length then do
        let stream := bytes.drop offset.toNat
        let (_, stream) ← readInt stream
        let (_, stream) ← readInt stream
        let (suffixLength, stream) ← readInt stream
        let (suffixOffset, stream) ← readInt stream
        let toRead := remainingLength - suffixLength
        if toRead > 0 then
          -- the counter is an `int`: behind its last value it overflows
          if toRead > kMaxInt then none
          let (chunk, _) ← readMoves toRead.toNat stream
          readSuffix bytes fuel suffixOffset (remainingLength - toRead) (moves ++ chunk.reverse)
        else readSuffix bytes fuel suffixOffset remainingLength moves
      else none
    else some moves

/-- `ReadMovesForPcOffset`. -/
def readMovesForPcOffset (bytes : List UInt8) (pcOffset : BitVec 64) : Option (List Move) := do
  let (position, length) ← findEntryForPc bytes.length pcOffset (bytes.length + 1) bytes
  readSuffix bytes (bytes.length + 1) position length []

end CatchEntryMoves
