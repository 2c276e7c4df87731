/-!
# The BLAKE3 hash

The input is cut into chunks of 1024 bytes, and a chunk into blocks of 64 bytes that are compressed
one after the other. The chunks are the leaves of a binary tree in which every left subtree is
full; `hash` is the compression at its root, marked as such.
-/

namespace ConfigRecovery.Blake3

/-- The chaining value between two compressions. -/
abbrev Chain := Vector UInt32 8

/-- A block of input as words, and also the state of a compression. -/
abbrev Block := Vector UInt32 16

/-- The chaining value that every chunk and parent starts from. -/
def initial : Chain :=
  #v[0x6A09E667, 0xBB67AE85, 0x3C6EF372, 0xA54FF53A, 0x510E527F, 0x9B05688C, 0x1F83D9AB, 0x5BE0CD19]

def chunkStart : UInt32 := 1

def chunkEnd : UInt32 := 2

def parentNode : UInt32 := 4

def rootNode : UInt32 := 8

/-- Where the word at each place comes from in the next round. -/
def permutation : Vector (Fin 16) 16 := #v[2, 6, 3, 10, 7, 0, 4, 13, 1, 11, 12, 5, 9, 14, 15, 8]

def rotate (word amount : UInt32) : UInt32 := (word >>> amount) ||| (word <<< (32 - amount))

/-- Mixes two words of input into four places of the state. -/
def mix (state : Block) (a b c d : Fin 16) (x y : UInt32) : Block :=
  let state := state.set a (state[a] + state[b] + x)
  let state := state.set d (rotate (state[d] ^^^ state[a]) 16)
  let state := state.set c (state[c] + state[d])
  let state := state.set b (rotate (state[b] ^^^ state[c]) 12)
  let state := state.set a (state[a] + state[b] + y)
  let state := state.set d (rotate (state[d] ^^^ state[a]) 8)
  let state := state.set c (state[c] + state[d])
  state.set b (rotate (state[b] ^^^ state[c]) 7)

/-- Mixes a block into the state, first by columns and then by diagonals. -/
def round (state input : Block) : Block :=
  let state := mix state 0 4 8 12 input[0] input[1]
  let state := mix state 1 5 9 13 input[2] input[3]
  let state := mix state 2 6 10 14 input[4] input[5]
  let state := mix state 3 7 11 15 input[6] input[7]
  let state := mix state 0 5 10 15 input[8] input[9]
  let state := mix state 1 6 11 12 input[10] input[11]
  let state := mix state 2 7 8 13 input[12] input[13]
  mix state 3 4 9 14 input[14] input[15]

/-- Runs a number of rounds and permutes the block between them. -/
def rounds : Nat → Block → Block → Block
  | 0, state, _ => state
  | n + 1, state, input => rounds n (round state input) (permutation.map fun i => input[i])

structure Node where
  chain : Chain
  block : Block
  /-- The position of the chunk; zero for a parent -/
  counter : Nat
  /-- The number of bytes of input -/
  size : Nat
  flags : UInt32

/-- The chaining value of a node with further marks. -/
def Node.compress (node : Node) (marks : UInt32) : Chain :=
  let start : Block :=
    #v[node.chain[0], node.chain[1], node.chain[2], node.chain[3], node.chain[4], node.chain[5],
      node.chain[6], node.chain[7], initial[0], initial[1], initial[2], initial[3],
      UInt32.ofNat node.counter, UInt32.ofNat (node.counter / UInt32.size), UInt32.ofNat node.size,
      node.flags ||| marks]
  let state := rounds 7 start node.block
  Vector.ofFn fun (i : Fin 8) => state[i.castLE (by omega : 8 ≤ 16)] ^^^ state[i.natAdd 8]

/-- The word of four bytes, the least significant first; missing bytes are zero. -/
def word (bytes : List UInt8) : UInt32 :=
  bytes.foldr (fun byte word => (word <<< 8) ||| byte.toUInt32) 0

/-- The words of a block; missing bytes are zero. -/
def block (bytes : List UInt8) : Block :=
  Vector.ofFn fun (i : Fin 16) => word ((bytes.drop (4 * i)).take 4)

/-- The pieces of a list, all but the last of the given positive size. -/
def pieces {α : Type} (size : Nat) (list : List α) : List (List α) :=
  if _h : size = 0 ∨ list.length ≤ size then [list]
  else list.take size :: pieces size (list.drop size)
termination_by list.length
decreasing_by simp only [List.length_drop]; omega

/-- Compresses all blocks of a chunk but the last, which is left to be compressed. -/
def chunkFrom (counter : Nat) (chain : Chain) (flags : UInt32) (first : List UInt8) :
    List (List UInt8) → Node
  | [] => ⟨chain, block first, counter, first.length, flags ||| chunkEnd⟩
  | next :: blocks =>
    let node : Node := ⟨chain, block first, counter, first.length, flags⟩
    chunkFrom counter (node.compress 0) 0 next blocks

/-- The last compression of a chunk. -/
def chunk (counter : Nat) (bytes : List UInt8) : Node :=
  match pieces 64 bytes with
  | [] => chunkFrom counter initial chunkStart [] []
  | first :: blocks => chunkFrom counter initial chunkStart first blocks

def parent (left right : Chain) : Node := ⟨initial, left ++ right, 0, 64, parentNode⟩

/-- The compression on top of a list of chunks, the first of which has the given position. -/
def tree (counter : Nat) (chunks : List (List UInt8)) : Node :=
  if _h : chunks.length ≤ 1 then chunk counter (chunks.headD [])
  else
    let left := 1 <<< (chunks.length - 1).log2
    parent ((tree counter (chunks.take left)).compress 0)
      ((tree (counter + left) (chunks.drop left)).compress 0)
termination_by chunks.length
decreasing_by
  · have : 1 <<< (chunks.length - 1).log2 ≤ chunks.length - 1 := by
      rw [Nat.one_shiftLeft]
      exact Nat.log2_self_le (by omega)
    simp only [List.length_take]
    omega
  · have : 0 < 1 <<< (chunks.length - 1).log2 := by
      rw [Nat.one_shiftLeft]
      exact Nat.two_pow_pos _
    simp only [List.length_drop]
    omega

/-- The four bytes of a word, the least significant first. -/
def wordBytes (word : UInt32) : List UInt8 :=
  [word.toUInt8, (word >>> 8).toUInt8, (word >>> 16).toUInt8, (word >>> 24).toUInt8]

/-- The 32 bytes that stand for a list of bytes. -/
def hash (bytes : List UInt8) : List UInt8 :=
  ((tree 0 (pieces 1024 bytes)).compress rootNode).toList.flatMap wordBytes

end ConfigRecovery.Blake3
