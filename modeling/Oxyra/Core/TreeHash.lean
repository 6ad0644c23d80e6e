import Mathlib.Data.UInt

/-!
# The Merkle tree of a block (`crypto/tree-hash.c`)

The hashes of a block's transactions are folded to one root. Their number is rarely a power of two:
with `cnt` the largest power of two below it, the last hashes are joined in pairs so that `cnt`
nodes remain, and these are halved in place until two are left.

* `treeHash` computes the root, `treePath` the turns from a leaf to it and `treeBranch` both the
  turns and the hashes met on the way. The three walk through the same loops.
* `treeBranchHash` computes the root from a leaf and its branch.

`cn_fast_hash` of two hashes is a parameter `pair`, and `zero` is what `calloc` fills memory with.
-/

namespace Oxyra

namespace TreeHash

variable {H : Type} (pair : H → H → H) (zero : H)

/-- `while (pow < count) pow <<= 1;` -/
def cntLoop : Nat → Nat → Nat → Nat
  | 0, pow, _ => pow
  | fuel + 1, pow, count => if pow < count then cntLoop fuel (pow <<< 1) count else pow

/-- `tree_hash_cnt`, for a `size_t` of 64 bits. -/
def treeHashCnt (count : Nat) : Nat := cntLoop 64 2 count >>> 1

/-! ## `tree_hash` -/

/-- `for (…; j < cnt; i += 2, ++j) cn_fast_hash(src[i], 64, ints[j])`, `n` rounds of it. The first
layer is read from the leaves, the others from the memory they are written to. -/
def layerLoop (src : List H → List H) : Nat → Nat → Nat → List H → List H
  | 0, _, _, ints => ints
  | n + 1, i, j, ints =>
    layerLoop src n (i + 2) (j + 1)
      (ints.set j (pair ((src ints).getD i zero) ((src ints).getD (i + 1) zero)))

/-- `while (cnt > 2)` -/
def halveLoop : Nat → Nat → List H → List H
  | 0, _, ints => ints
  | fuel + 1, cnt, ints =>
    if cnt > 2 then
      let cnt := cnt >>> 1
      halveLoop fuel cnt (layerLoop pair zero id cnt 0 0 ints)
    else ints

/-- `calloc` and `memcpy` of the leaves that are not joined. -/
def initInts (hashes : List H) (cnt : Nat) : List H :=
  hashes.take (2 * cnt - hashes.length) ++
    List.replicate (cnt - (2 * cnt - hashes.length)) zero

def treeHash (hashes : List H) : H :=
  let count := hashes.length
  if count = 1 then hashes.getD 0 zero
  else if count = 2 then pair (hashes.getD 0 zero) (hashes.getD 1 zero)
  else
    let cnt := treeHashCnt count
    let start := 2 * cnt - count
    let ints := layerLoop pair zero (fun _ => hashes) (cnt - start) start start
      (initInts zero hashes cnt)
    let ints := halveLoop pair zero 64 cnt ints
    pair (ints.getD 0 zero) (ints.getD 1 zero)

/-! ## `tree_path` -/

/-- `*path = (*path << 1) | (idx == i ? 0 : 1)` -/
def turn (path : UInt32) (idx i : Nat) : UInt32 := (path <<< 1) ||| (if idx = i then 0 else 1)

/-- The round for the nodes `i` and `i + 1`, which are joined to the node `j`. -/
def pathStep (i j : Nat) (s : Nat × UInt32) : Nat × UInt32 :=
  if s.1 = i ∨ s.1 = i + 1 then (j, turn s.2 s.1 i) else s

/-- The rounds of a layer. -/
def pathLoop : Nat → Nat → Nat → Nat × UInt32 → Nat × UInt32
  | 0, _, _, s => s
  | n + 1, i, j, s => pathLoop n (i + 2) (j + 1) (pathStep i j s)

/-- `while (cnt > 2)` -/
def pathHalveLoop : Nat → Nat → Nat × UInt32 → Nat × UInt32
  | 0, _, s => s
  | fuel + 1, cnt, s =>
    if cnt > 2 then
      let cnt := cnt >>> 1
      pathHalveLoop fuel cnt (pathLoop cnt 0 0 s)
    else s

def treePath (count idx : Nat) : Option UInt32 :=
  if count = 0 then none
  else if count = 1 then some 0
  else if count = 2 then some (if idx = 0 then 0 else 1)
  else
    let cnt := treeHashCnt count
    let start := 2 * cnt - count
    let s := pathLoop (cnt - start) start start (idx, 0)
    let s := pathHalveLoop 64 cnt s
    some (pathStep 0 0 s).2

/-! ## `tree_branch` -/

/-- The variables of `tree_branch`; `*depth` is the length of `branch`. -/
structure BranchState (H : Type) where
  idx : Nat
  path : UInt32
  branch : List H
  ints : List H

/-- The note taken in a round; `src` is where the layer is read from. -/
def branchStep (src : List H) (i j : Nat) (s : BranchState H) : BranchState H :=
  if s.idx = i ∨ s.idx = i + 1 then
    { s with
      idx := j
      path := turn s.path s.idx i
      branch := s.branch ++ [src.getD (if s.idx = i then i + 1 else i) zero] }
  else s

/-- The rounds of a layer. -/
def branchLoop (src : List H → List H) : Nat → Nat → Nat → BranchState H → BranchState H
  | 0, _, _, s => s
  | n + 1, i, j, s =>
    let s := branchStep zero (src s.ints) i j s
    branchLoop src n (i + 2) (j + 1)
      { s with
        ints := s.ints.set j
          (pair ((src s.ints).getD i zero) ((src s.ints).getD (i + 1) zero)) }

/-- `while (cnt > 2)` -/
def branchHalveLoop : Nat → Nat → BranchState H → BranchState H
  | 0, _, s => s
  | fuel + 1, cnt, s =>
    if cnt > 2 then
      let cnt := cnt >>> 1
      branchHalveLoop fuel cnt (branchLoop pair zero id cnt 0 0 s)
    else s

/-- `tree_branch`: the branch, its depth and the path. -/
def treeBranch [DecidableEq H] (hashes : List H) (hash : H) : Option (List H × Nat × UInt32) :=
  let count := hashes.length
  if count = 0 then none
  else
    let idx := hashes.findIdx (· = hash)
    if idx = count then none
    else if count = 1 then some ([], 0, 0)
    else if count = 2 then
      some ([hashes.getD (idx ^^^ 1) zero], 1, if idx = 0 then 0 else 1)
    else
      let cnt := treeHashCnt count
      let start := 2 * cnt - count
      let s := branchLoop pair zero (fun _ => hashes) (cnt - start) start start
        { idx := idx, path := 0, branch := [], ints := initInts zero hashes cnt }
      let s := branchHalveLoop pair zero 64 cnt s
      let s := branchStep zero s.ints 0 0 s
      some (s.branch, s.branch.length, s.path)

/-- The loop of `tree_branch_hash` from `d` on, `n` rounds of it. -/
def climbLoop (branch : List H) (depth : Nat) (path : UInt32) : Nat → Nat → H → H
  | 0, _, part => part
  | n + 1, d, part =>
    climbLoop branch depth path n (d + 1)
      (if (path >>> UInt32.ofNat (depth - d - 1)) &&& 1 ≠ 0 then pair (branch.getD d zero) part
      else pair part (branch.getD d zero))

def treeBranchHash (hash : H) (branch : List H) (depth : Nat) (path : UInt32) : H :=
  climbLoop pair zero branch depth path depth 0 hash

end TreeHash

end Oxyra
