import Mathlib.Logic.Function.Iterate
import Crucible.Loops

/-! # SipHash-2-4

The keyed hash over bytes and 64-bit words.  A key has sixteen bytes and a tag eight, and a
word is stored least significant byte first.
-/
namespace Crucible
namespace SipHash

abbrev Bytes := List (BitVec 8)

abbrev Key := Vector (BitVec 8) 16

/-- The bytes of a word, least significant first: `store_le64` and `tag_of`. -/
def storeLe64 (word : BitVec 64) : Bytes :=
  (List.range 8).map fun i => (word >>> (8 * i)).setWidth 8

/-- At most eight bytes as a word: `load_le64` and `mac_of`. -/
def loadLe64 (bytes : Bytes) : BitVec 64 :=
  (List.range bytes.length).foldl
    (fun word i => word ||| (bytes.getD i 0).setWidth 64 <<< (8 * i)) 0

structure SipState where
  word0 : BitVec 64
  word1 : BitVec 64
  word2 : BitVec 64
  word3 : BitVec 64

def sipRound (state : SipState) : SipState :=
  let word0 := state.word0 + state.word1
  let word1 := state.word1.rotateLeft 13 ^^^ word0
  let word0 := word0.rotateLeft 32
  let word2 := state.word2 + state.word3
  let word3 := state.word3.rotateLeft 16 ^^^ word2
  let word0 := word0 + word3
  let word3 := word3.rotateLeft 21 ^^^ word0
  let word2 := word2 + word1
  let word1 := word1.rotateLeft 17 ^^^ word2
  { word0, word1, word2 := word2.rotateLeft 32, word3 }

/-- `absorb`, with two rounds. -/
def absorb (state : SipState) (block : BitVec 64) : SipState :=
  let state := sipRound^[2] { state with word3 := state.word3 ^^^ block }
  { state with word0 := state.word0 ^^^ block }

def compute (key : Key) (message : Bytes) : Bytes :=
  let keyLow := loadLe64 (key.toList.take 8)
  let keyHigh := loadLe64 (key.toList.drop 8)
  let state : SipState :=
    { word0 := 0x736f6d6570736575#64 ^^^ keyLow
      word1 := 0x646f72616e646f6d#64 ^^^ keyHigh
      word2 := 0x6c7967656e657261#64 ^^^ keyLow
      word3 := 0x7465646279746573#64 ^^^ keyHigh }
  let fullBlocks := message.length / 8
  let state := (List.range fullBlocks).foldl
    (fun state block => absorb state (loadLe64 ((message.drop (block * 8)).take 8))) state
  let state := absorb state
    (BitVec.ofNat 64 message.length <<< 56 ||| loadLe64 (message.drop (fullBlocks * 8)))
  let state := sipRound^[4] { state with word2 := state.word2 ^^^ 0xff#64 }
  storeLe64 (state.word0 ^^^ state.word1 ^^^ state.word2 ^^^ state.word3)

-- a published vector: the key is the bytes 0 to 15, and the message the bytes 0 to 14
example : compute (Vector.ofFn fun i => BitVec.ofNat 8 i) ((List.range 15).map (BitVec.ofNat 8)) =
    storeLe64 0xa129ca6149be45e5#64 := by
  decide +kernel

/-- The loop has read the low `8 * n` bits after `n` bytes. -/
theorem loadLe64_storeLe64 (word : BitVec 64) : loadLe64 (storeLe64 word) = word := by
  have hloop : ∀ j, (loadLe64 (storeLe64 word)).getLsbD j =
      (decide (j < 8 * (storeLe64 word).length) && word.getLsbD j) := by
    refine foldl_range_inv (fun n (acc : BitVec 64) =>
      ∀ j, acc.getLsbD j = (decide (j < 8 * n) && word.getLsbD j)) (by simp) ?_
    intro n acc hn hacc j
    have hlt : n < 8 := by simpa [storeLe64] using hn
    have hget : (storeLe64 word).getD n 0 = (word >>> (8 * n)).setWidth 8 := by
      simp [storeLe64, hlt]
    rw [hget, BitVec.getLsbD_or, hacc]
    simp only [BitVec.getLsbD_shiftLeft, BitVec.getLsbD_setWidth, BitVec.getLsbD_ushiftRight]
    by_cases hj : j < 8 * n
    · simp [hj, show j < 8 * (n + 1) by omega]
    · rw [show 8 * n + (j - 8 * n) = j by omega]
      by_cases hj' : j < 8 * (n + 1)
      · simp [hj, hj', show j < 64 by omega, show j - 8 * n < 8 by omega,
          show j - 8 * n < 64 by omega]
      · simp [hj, hj', show ¬ j - 8 * n < 8 by omega]
  refine BitVec.eq_of_getLsbD_eq fun j hj => ?_
  rw [hloop, decide_eq_true (show j < 8 * (storeLe64 word).length from hj), Bool.true_and]

end SipHash
end Crucible
