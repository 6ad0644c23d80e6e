import Oxyra.Basic.Difficulty

/-!
# The rolling median (`rolling_median.h`)

The median of the last `N` values. The values stand in a circular queue `data`; `heap` arranges
their indexes around the median at position 0, a max heap on the negative positions and a min heap
on the positive ones, and `pos` says where each index is.

* The two sides are mirror images. `sortDown` and `sortUp` take the side and work with distances
  from the median; `minSortDown`, `maxSortDown`, `minSortUp` and `maxSortUp` are their four uses.
* The three arrays are functions here. They lie in one block of memory whose size the constructor
  computes in an `int`; `construct` is `none` where that block does not hold them.
-/

namespace Oxyra

/-- The two heaps. -/
inductive Side where
  | min
  | max
deriving DecidableEq

/-- The position at a distance from the median. -/
def Side.at : Side → Nat → Int
  | .min, a => a
  | .max, a => -a

/-- `rolling_median_t<uint64_t>` -/
structure RollingMedian where
  N : Nat
  data : Nat → UInt64
  pos : Nat → Int
  heap : Int → Nat
  idx : Nat := 0
  minCt : Nat := 0
  maxCt : Nat := 0
  sz : Nat := 0

namespace RollingMedian

variable (m : RollingMedian)

def mmless (i j : Int) : Bool :=
  m.data (m.heap i) < m.data (m.heap j)

def mmexchange (i j : Int) : RollingMedian :=
  let t := m.heap i
  let heap := Function.update (Function.update m.heap i (m.heap j)) j t
  { m with
    heap := heap
    pos := Function.update (Function.update m.pos (heap i) i) (heap j) j }

def mmCmpExch (i j : Int) : Bool × RollingMedian :=
  if m.mmless i j then (true, m.mmexchange i j) else (false, m)

/-- `minCt` or `maxCt` -/
def count : Side → Nat
  | .min => m.minCt
  | .max => m.maxCt

/-- Whether what is at distance `a` belongs nearer to the median than what is at distance `b`. -/
def nearer : Side → Nat → Nat → Bool
  | .min, a, b => m.mmless a b
  | .max, a, b => m.mmless (-b) (-a)

/-- Exchanges the two if the one at distance `a` belongs nearer. -/
def cmpExch : Side → Nat → Nat → Bool × RollingMedian
  | .min, a, b => m.mmCmpExch a b
  | .max, a, b => m.mmCmpExch (-b) (-a)

/-- The loop of `minSortDown` and `maxSortDown`. -/
def sortDown (side : Side) : Nat → Nat → RollingMedian → RollingMedian
  | 0, _, m => m
  | fuel + 1, i, m =>
    if i ≤ m.count side then
      let i := if i < m.count side && m.nearer side (i + 1) i then i + 1 else i
      let r := m.cmpExch side i (i / 2)
      if r.1 then sortDown side fuel (2 * i) r.2 else r.2
    else m

/-- The loop of `minSortUp` and `maxSortUp`, with the distance it ends at. -/
def sortUp (side : Side) : Nat → Nat → RollingMedian → Nat × RollingMedian
  | 0, i, m => (i, m)
  | fuel + 1, i, m =>
    if i > 0 then
      let r := m.cmpExch side i (i / 2)
      if r.1 then sortUp side fuel (i / 2) r.2 else (i, r.2)
    else (i, m)

/-- `minSortDown(i)` -/
def minSortDown (i : Nat) : RollingMedian := sortDown .min m.minCt (2 * i) m

/-- `maxSortDown(-i)` -/
def maxSortDown (i : Nat) : RollingMedian := sortDown .max m.maxCt (2 * i) m

/-- `minSortUp(i)`: whether the median changed. -/
def minSortUp (i : Nat) : Bool × RollingMedian :=
  let r := sortUp .min i i m
  (r.1 = 0, r.2)

/-- `maxSortUp(-i)`: whether the median changed. -/
def maxSortUp (i : Nat) : Bool × RollingMedian :=
  let r := sortUp .max i i m
  (r.1 = 0, r.2)

/-- The initial heap fill pattern: median, max, min, max, ... -/
def fillPosition (nItems : Nat) : Int :=
  ((nItems + 1) / 2 : Nat) * (if nItems % 2 = 1 then -1 else 1)

/-- The loop of `clear`. -/
def clearLoop : Nat → RollingMedian → RollingMedian
  | 0, m => m
  | nItems + 1, m =>
    let pos := Function.update m.pos nItems (fillPosition nItems)
    clearLoop nItems { m with pos := pos, heap := Function.update m.heap (pos nItems) nItems }

def clear : RollingMedian :=
  clearLoop m.N { m with idx := 0, minCt := 0, maxCt := 0, sz := 0 }

/-- The conversion of a 64-bit size to `int`. -/
def toInt32 (size : Nat) : Int :=
  ((size : Int) + 2 ^ 31) % 2 ^ 32 - 2 ^ 31

/-- The constructor, on memory with these contents: `N` values and twice as many positions. -/
def construct (memory : Nat → UInt64) (N : Nat) : Option RollingMedian :=
  let size := toInt32 (N * (8 + 4 * 2) % 2 ^ 64)
  if size < (N * (8 + 4 * 2) : Nat) then none
  else some (clear { N := N, data := memory, pos := fun _ => 0, heap := fun _ => 0 })

/-- `if (minSortUp(p) && mmCmpExch(0, -1)) maxSortDown(-1);` -/
def settleMin (p : Nat) : RollingMedian :=
  let up := m.minSortUp p
  if up.1 then
    let r := up.2.mmCmpExch 0 (-1)
    if r.1 then r.2.maxSortDown 1 else r.2
  else up.2

/-- `if (maxSortUp(-p) && minCt && mmCmpExch(1, 0)) minSortDown(1);` -/
def settleMax (p : Nat) : RollingMedian :=
  let up := m.maxSortUp p
  if up.1 && up.2.minCt ≠ 0 then
    let r := up.2.mmCmpExch 1 0
    if r.1 then r.2.minSortDown 1 else r.2
  else up.2

/-- The two lines for a new item at the median. -/
def settleMedian : RollingMedian :=
  let m :=
    if m.maxCt ≠ 0 then
      let up := m.maxSortUp 1
      if up.1 then up.2.maxSortDown 1 else up.2
    else m
  if m.minCt ≠ 0 then
    let up := m.minSortUp 1
    if up.1 then up.2.minSortDown 1 else up.2
  else m

def insert (v : UInt64) : RollingMedian :=
  let p := m.pos m.idx
  let old := m.data m.idx
  let m :=
    { m with
      data := Function.update m.data m.idx v
      idx := (m.idx + 1) % m.N
      sz := Min.min (m.sz + 1) m.N }
  if p > 0 then
    if m.minCt < (m.N - 1) / 2 then settleMin { m with minCt := m.minCt + 1 } p.natAbs
    else if v > old then m.minSortDown p.natAbs
    else m.settleMin p.natAbs
  else if p < 0 then
    if m.maxCt < m.N / 2 then settleMax { m with maxCt := m.maxCt + 1 } p.natAbs
    else if v < old then m.maxSortDown p.natAbs
    else m.settleMax p.natAbs
  else m.settleMedian

/-- `median()`, as the class computes it. -/
def medianOf : UInt64 :=
  let v := m.data (m.heap 0)
  if m.minCt < m.maxCt then getMid v (m.data (m.heap (-1))) else v

def size : Nat := m.sz

end RollingMedian

end Oxyra
