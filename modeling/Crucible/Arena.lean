import Mathlib.Data.List.Infix

/-! # The arena in a steady state

An arena hands out ranges of its current block.  When a request does not fit, the first later
block that is large enough becomes the current one, or a new block at the end of the list.
The end of an epoch keeps the blocks, up to a limit on their bytes, and goes back to the first.
A second epoch with the same requests goes the same way, without an allocation
(`second_epoch_steady`).
-/
namespace Crucible

structure ArenaBlock where
  address : UInt64
  bytes : UInt64
deriving DecidableEq

/-- `Arena`.  `mallocs` counts the calls of `malloc`. -/
structure Arena where
  blockSize : UInt64
  blocks : List ArenaBlock
  curIndex : Nat := 0
  curBlock : UInt64
  offset : UInt64 := 0
  endOffset : UInt64
  bytesBeforeCur : UInt64 := 0
  retainedBytes : UInt64
  mallocs : Nat := 1
deriving DecidableEq

namespace Arena

def sizeMax : UInt64 := 18446744073709551615

def maxBlocks : Nat := 64

def retainedBytesLimit : UInt64 := 67108864

def addSat (x y : UInt64) : UInt64 := if x + y < x then sizeMax else x + y

def saturatingShift (value : UInt64) (shift : Nat) : UInt64 :=
  if 64 ≤ shift ∨ sizeMax >>> UInt64.ofNat shift < value then sizeMax
  else value <<< UInt64.ofNat shift

/-- The offset of the first aligned address from `offset` on. -/
def alignUp (base offset align : UInt64) : UInt64 :=
  ((base + offset + align - 1) &&& ~~~(align - 1)) - base

/-- The answer of `malloc` to a call, by the number of the call.  `none` is a null pointer. -/
abbrev Host : Type := Nat → UInt64 → Option UInt64

variable (host : Host) (a : Arena)

/-- The loop of `enter_block_`. -/
def findBlock (blocks : List ArenaBlock) (firstIndex : Nat) (needed : UInt64) : Nat :=
  firstIndex + (blocks.drop firstIndex).findIdx fun block => needed ≤ block.bytes

def wanted (index : Nat) (needed : UInt64) : UInt64 :=
  let standard := saturatingShift a.blockSize index
  if standard < needed then needed else standard

/-- The part of `enter_block_` that allocates.  `none` ends the process. -/
def growTo (index : Nat) (needed : UInt64) : Option Arena :=
  if index = a.blocks.length then
    if maxBlocks ≤ index then none
    else (host a.mallocs (a.wanted index needed)).map fun address =>
      { a with
        blocks := a.blocks ++ [⟨address, a.wanted index needed⟩]
        retainedBytes := addSat a.retainedBytes (a.wanted index needed)
        mallocs := a.mallocs + 1 }
  else some a

/-- The part of `enter_block_` that makes a block the current one. -/
def switchTo (firstIndex index : Nat) : Option Arena :=
  (a.blocks[index]?).map fun block =>
    { a with
      bytesBeforeCur :=
        if 0 < firstIndex then addSat a.bytesBeforeCur a.endOffset else a.bytesBeforeCur
      curIndex := index
      curBlock := block.address
      offset := 0
      endOffset := block.bytes }

def enterBlock (firstIndex : Nat) (needed : UInt64) : Option Arena :=
  let index := findBlock a.blocks firstIndex needed
  (a.growTo host index needed).bind fun grown => grown.switchTo firstIndex index

/-- `alloc` and `alloc_slow_`: the arena and the address. -/
def alloc (request : UInt64 × UInt64) : Option (Arena × UInt64) :=
  let (size, align) := request
  let aligned := alignUp a.curBlock a.offset align
  if aligned + size ≤ a.endOffset then
    some ({ a with offset := aligned + size }, a.curBlock + aligned)
  else
    (a.enterBlock host (a.curIndex + 1) (addSat size align)).map fun entered =>
      let aligned := alignUp entered.curBlock 0 align
      ({ entered with offset := aligned + size }, entered.curBlock + aligned)

/-- The requests of an epoch, and the addresses that they got. -/
def allocAll : Arena → List (UInt64 × UInt64) → Option (Arena × List UInt64)
  | a, [] => some (a, [])
  | a, request :: requests =>
    (a.alloc host request).bind fun (a', address) =>
      (allocAll a' requests).map fun (last, addresses) => (last, address :: addresses)

def freeBlocksFrom (firstIndex : Nat) : Arena :=
  { a with
    blocks := a.blocks.take firstIndex
    retainedBytes := (a.blocks.drop firstIndex).foldl (fun bytes block => bytes - block.bytes)
      a.retainedBytes }

def endEpoch : Arena :=
  let kept := if retainedBytesLimit < a.retainedBytes then a.freeBlocksFrom 1 else a
  let first := kept.blocks.headD ⟨0, 0⟩
  { kept with
    curIndex := 0
    curBlock := first.address
    offset := 0
    endOffset := first.bytes
    bytesBeforeCur := 0 }

structure BetweenEpochs : Prop where
  index : a.curIndex = 0
  offset : a.offset = 0
  before : a.bytesBeforeCur = 0
  block : a.blocks.head? = some ⟨a.curBlock, a.endOffset⟩

/-- The blocks of `last`, at the place where `a` is. -/
def onto (last : Arena) : Arena :=
  { last with
    curIndex := a.curIndex
    curBlock := a.curBlock
    offset := a.offset
    endOffset := a.endOffset
    bytesBeforeCur := a.bytesBeforeCur }

variable {host a} {a' : Arena} (last : Arena) {firstIndex index : Nat} {needed : UInt64}
  {request : UInt64 × UInt64} {requests : List (UInt64 × UInt64)} {address : UInt64}
  {addresses : List UInt64}

theorem needed_le_wanted (a : Arena) (index : Nat) (needed : UInt64) :
    needed ≤ a.wanted index needed := by
  unfold wanted
  dsimp only
  split
  · exact UInt64.le_refl _
  · exact UInt64.not_lt.mp ‹_›

theorem findBlock_extend {blocks blocks' : List ArenaBlock} (h : blocks <+: blocks')
    (hlt : findBlock blocks firstIndex needed < blocks.length) :
    findBlock blocks' firstIndex needed = findBlock blocks firstIndex needed := by
  unfold findBlock at *
  rw [(h.drop firstIndex).findIdx_eq_of_findIdx_lt_length]
  rw [List.length_drop]
  omega

/-- A new block is found where it was put: the blocks before it are too small. -/
theorem growTo_some {grown : Arena}
    (h : a.growTo host (findBlock a.blocks firstIndex needed) needed = some grown) :
    a.blocks <+: grown.blocks ∧ a.onto grown = grown ∧
      findBlock grown.blocks firstIndex needed = findBlock a.blocks firstIndex needed := by
  unfold growTo at h
  split at h
  · rename_i hend
    split at h
    · cases h
    · obtain ⟨address, -, rfl⟩ := Option.map_eq_some_iff.mp h
      refine ⟨List.prefix_append .., rfl, ?_⟩
      have hle : firstIndex ≤ a.blocks.length := hend ▸ Nat.le_add_right ..
      unfold findBlock at hend ⊢
      rw [List.drop_append_of_le_length hle, List.findIdx_append,
        if_neg (by rw [List.length_drop]; omega)]
      simp only [needed_le_wanted, List.findIdx_cons, decide_true, cond_true, List.length_drop]
      omega
  · cases h
    exact ⟨List.prefix_rfl, rfl, rfl⟩

theorem switchTo_onto (h : a.switchTo firstIndex index = some a') :
    index < a.blocks.length ∧ a'.blocks = a.blocks ∧ (a.blocks <+: last.blocks →
      (a.onto last).switchTo firstIndex index = some (a'.onto last)) := by
  obtain ⟨block, hblock, rfl⟩ := Option.map_eq_some_iff.mp h
  obtain ⟨hlt, rfl⟩ := List.getElem?_eq_some_iff.mp hblock
  refine ⟨hlt, rfl, fun hlast => ?_⟩
  have hgot : (a.onto last).blocks[index]? = _ := List.prefix_iff_getElem?.mp hlast _ hlt
  rw [switchTo, hgot]
  rfl

theorem enterBlock_onto (h : a.enterBlock host firstIndex needed = some a') :
    a.blocks <+: a'.blocks ∧ (a'.blocks <+: last.blocks →
      (a.onto last).enterBlock host firstIndex needed = some (a'.onto last)) := by
  obtain ⟨grown, hgrown, hswitch⟩ := Option.bind_eq_some_iff.mp h
  obtain ⟨hblocks, hplace, hsame⟩ := growTo_some hgrown
  obtain ⟨hlt, heq, honto⟩ := switchTo_onto last hswitch
  rw [heq]
  refine ⟨hblocks, fun hlast => ?_⟩
  have hfound : findBlock (a.onto last).blocks firstIndex needed = _ :=
    (findBlock_extend hlast (hsame.trans_lt hlt)).trans hsame
  have hgrow : (a.onto last).growTo host (findBlock a.blocks firstIndex needed) needed =
      some (a.onto last) := if_neg (hlt.trans_le hlast.length_le).ne
  have hsamePlace : a.onto last = grown.onto last := by
    rw [← hplace]
    rfl
  rw [enterBlock, hfound, hgrow, hsamePlace]
  exact honto hlast

/-- **The step lemma**: a request gets the same address again, without an allocation. -/
theorem alloc_onto (h : a.alloc host request = some (a', address)) :
    a.blocks <+: a'.blocks ∧ (a'.blocks <+: last.blocks →
      (a.onto last).alloc host request = some (a'.onto last, address)) := by
  unfold alloc at h ⊢
  dsimp only at h ⊢
  split at h
  · cases h
    exact ⟨List.prefix_rfl, fun _ => if_pos ‹_›⟩
  · obtain ⟨entered, hentered, heq⟩ := Option.map_eq_some_iff.mp h
    cases heq
    obtain ⟨hblocks, honto⟩ := enterBlock_onto last hentered
    refine ⟨hblocks, fun hlast => (if_neg ‹_›).trans ?_⟩
    rw [show (a.onto last).curIndex = a.curIndex from rfl, honto hlast]
    rfl

/-- **The run lemma**: all requests get the same addresses again. -/
theorem allocAll_onto (h : a.allocAll host requests = some (a', addresses)) :
    a.blocks <+: a'.blocks ∧ (a'.blocks <+: last.blocks →
      (a.onto last).allocAll host requests = some (a'.onto last, addresses)) := by
  induction requests generalizing a addresses with
  | nil =>
    cases h
    exact ⟨List.prefix_rfl, fun _ => rfl⟩
  | cons request requests ih =>
    obtain ⟨⟨next, address⟩, hnext, hrest⟩ := Option.bind_eq_some_iff.mp h
    obtain ⟨⟨_, rest⟩, hend, heq⟩ := Option.map_eq_some_iff.mp hrest
    cases heq
    obtain ⟨hblocks, honto⟩ := alloc_onto last hnext
    obtain ⟨hblocks', honto'⟩ := ih hend
    refine ⟨hblocks.trans hblocks', fun hlast => ?_⟩
    simp only [allocAll, honto (hblocks'.trans hlast), Option.bind_some, honto' hlast,
      Option.map_some]

/-- **The steady state**: a second epoch with the same requests gets the same addresses and
calls `malloc` no more, if the first one did not leave too much. -/
theorem second_epoch_steady (host : Host) {a last : Arena} {requests : List (UInt64 × UInt64)}
    {addresses : List UInt64} (hready : a.BetweenEpochs)
    (hrun : a.allocAll host requests = some (last, addresses))
    (hlimit : last.retainedBytes ≤ retainedBytesLimit) :
    ∃ again, last.endEpoch.allocAll host requests = some (again, addresses) ∧
      again.mallocs = last.mallocs := by
  obtain ⟨⟨later, hlater⟩, honto⟩ := allocAll_onto last hrun
  have hhead : last.blocks.headD ⟨0, 0⟩ = ⟨a.curBlock, a.endOffset⟩ := by
    rw [← hlater, List.headD_eq_head?_getD, List.head?_append, hready.block]
    rfl
  have hend : last.endEpoch = a.onto last := by
    rw [endEpoch, if_neg (UInt64.not_lt.mpr hlimit), hhead, onto, hready.index, hready.offset,
      hready.before]
  rw [hend]
  exact ⟨_, honto List.prefix_rfl, rfl⟩

def oneBlock : Arena :=
  { blockSize := 64
    blocks := [⟨4096, 64⟩]
    curBlock := 4096
    endOffset := 64
    retainedBytes := 64 }

/-- The second of two requests needs a block of its own, in the first epoch only. -/
theorem second_epoch_steady_oneBlock :
    let host : Host := fun _ _ => some 8192
    ∃ last again, oneBlock.allocAll host [(48, 8), (48, 8)] = some (last, [4096, 8192]) ∧
      last.mallocs = 2 ∧
      last.endEpoch.allocAll host [(48, 8), (48, 8)] = some (again, [4096, 8192]) ∧
      again.mallocs = last.mallocs := by
  intro host
  have hfirst : oneBlock.allocAll host [(48, 8), (48, 8)] = some (_, [4096, 8192]) := rfl
  obtain ⟨again, hsecond, hcalls⟩ :=
    second_epoch_steady host ⟨rfl, rfl, rfl, rfl⟩ hfirst (by decide)
  exact ⟨_, again, hfirst, rfl, hsecond, hcalls⟩

end Arena
end Crucible
