import Provenance.Text.Utf8
import Provenance.Text.Whole

/-! # BLAKE3

The hash function BLAKE3 with its default key and an output of 32 bytes. A message is cut into chunks
of 1024 bytes and a chunk into blocks of 64. The blocks of a chunk are chained; the chunks are the
leaves of a binary tree in which every left subtree is complete and as large as possible. Only the
last compression, at the root, knows that it is the last. -/

namespace Provenance.Hash.Blake3

/-- The chaining value that every chunk starts from. -/
def initial : Array UInt32 :=
  #[0x6A09E667, 0xBB67AE85, 0x3C6EF372, 0xA54FF53A, 0x510E527F, 0x9B05688C, 0x1F83D9AB, 0x5BE0CD19]

/-- The order in which a round takes the words that the round before it used. -/
def reorder : Array Nat := #[2, 6, 3, 10, 7, 0, 4, 13, 1, 11, 12, 5, 9, 14, 15, 8]

def chunkStart : UInt32 := 1
def chunkEnd : UInt32 := 2
def parent : UInt32 := 4
def root : UInt32 := 8

/-- A word of a block or a state. -/
def word (v : Array UInt32) (i : Nat) : UInt32 := v.getD i 0

/-- Turns the bits of a word to the right; the count is between 1 and 31. -/
def rotate (x : UInt32) (n : UInt32) : UInt32 := (x >>> n) ||| (x <<< (32 - n))

/-- Mixes two words of the message into four words of the state. -/
def mix (v : Array UInt32) (a b c d : Nat) (x y : UInt32) : Array UInt32 :=
  let va := word v a + word v b + x
  let vd := rotate (word v d ^^^ va) 16
  let vc := word v c + vd
  let vb := rotate (word v b ^^^ vc) 12
  let va := va + vb + y
  let vd := rotate (vd ^^^ va) 8
  let vc := vc + vd
  let vb := rotate (vb ^^^ vc) 7
  (((v.setIfInBounds a va).setIfInBounds b vb).setIfInBounds c vc).setIfInBounds d vd

/-- One round: the columns of the state, then its diagonals. -/
def round (v m : Array UInt32) : Array UInt32 :=
  let v := mix v 0 4 8 12 (word m 0) (word m 1)
  let v := mix v 1 5 9 13 (word m 2) (word m 3)
  let v := mix v 2 6 10 14 (word m 4) (word m 5)
  let v := mix v 3 7 11 15 (word m 6) (word m 7)
  let v := mix v 0 5 10 15 (word m 8) (word m 9)
  let v := mix v 1 6 11 12 (word m 10) (word m 11)
  let v := mix v 2 7 8 13 (word m 12) (word m 13)
  mix v 3 4 9 14 (word m 14) (word m 15)

/-- Some rounds, reordering the message between them. -/
def rounds : Nat → Array UInt32 → Array UInt32 → Array UInt32
  | 0, v, _ => v
  | n + 1, v, m => rounds n (round v m) (reorder.map (word m))

/-- What one compression works on. -/
structure Node where
  chain : Array UInt32
  block : Array UInt32
  counter : Nat
  length : Nat
  flags : UInt32

/-- The chaining value that a compression leaves. -/
def Node.compress (n : Node) (extra : UInt32) : Array UInt32 :=
  let start := n.chain ++
    #[word initial 0, word initial 1, word initial 2, word initial 3, UInt32.ofNat n.counter,
      UInt32.ofNat (n.counter / UInt32.size), UInt32.ofNat n.length, n.flags ||| extra]
  let v := rounds 7 start n.block
  (Array.range 8).map fun i => word v i ^^^ word v (i + 8)

/-- The words that bytes spell, the lowest byte first; missing bytes are zero. -/
def toWords : Nat → List UInt8 → List UInt32
  | 0, _ => []
  | n + 1, bytes =>
    let at_ := fun i => (bytes.getD i 0).toUInt32
    (at_ 0 ||| (at_ 1 <<< 8) ||| (at_ 2 <<< 16) ||| (at_ 3 <<< 24)) :: toWords n (bytes.drop 4)

/-- Chains the blocks of a chunk; the last one is left to be compressed. -/
def chunkFrom (counter : Nat) : Nat → Array UInt32 → UInt32 → List UInt8 → Node
  | 0, chain, flags, bytes => ⟨chain, (toWords 16 bytes).toArray, counter, bytes.length, flags⟩
  | fuel + 1, chain, flags, bytes =>
    let block := (toWords 16 (bytes.take 64)).toArray
    if bytes.length ≤ 64 then ⟨chain, block, counter, bytes.length, flags ||| chunkEnd⟩
    else chunkFrom counter fuel (Node.compress ⟨chain, block, counter, 64, flags⟩ 0) 0 (bytes.drop 64)

/-- The last compression of a chunk of at most 1024 bytes. -/
def chunk (counter : Nat) (bytes : List UInt8) : Node :=
  chunkFrom counter 16 initial chunkStart bytes

/-- The chunks of a message, the first numbered `counter`; there is at least one. -/
def chunks : Nat → Nat → List UInt8 → List Node
  | 0, counter, bytes => [chunk counter bytes]
  | fuel + 1, counter, bytes =>
    if bytes.length ≤ 1024 then [chunk counter bytes]
    else chunk counter (bytes.take 1024) :: chunks fuel (counter + 1) (bytes.drop 1024)

/-- The largest power of two below `n`, for `n` at least two. -/
def leftSize (n : Nat) : Nat := Nat.pow 2 (Nat.log2 (n - 1))

/-- Joins the nodes of a tree from its leaves; `fuel` bounds the height. -/
def join : Nat → List Node → Node
  | _, [] => chunk 0 []
  | _, [n] => n
  | 0, n :: _ => n
  | fuel + 1, ns =>
    let left := join fuel (ns.take (leftSize ns.length))
    let right := join fuel (ns.drop (leftSize ns.length))
    ⟨initial, left.compress 0 ++ right.compress 0, 0, 64, parent⟩

/-- The two digits of base sixteen of a byte. -/
def hexByte (n : Nat) : String :=
  String.ofList [Text.hexDigit (n / 16 % 16), Text.hexDigit (n % 16)]

/-- The hash of a message, in digits of base sixteen. -/
def hex (bytes : List UInt8) : String :=
  let out := (join 64 (chunks (bytes.length / 1024 + 1) 0 bytes)).compress root
  String.join (out.toList.flatMap fun w =>
    [0, 8, 16, 24].map fun shift => hexByte (w.toNat >>> shift))

end Provenance.Hash.Blake3
