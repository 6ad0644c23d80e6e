import Oxyra.Basic.Config

/-!
# The network buffer (`net/buffer.h`, `buffer.cpp`)

Bytes are appended at the end of a vector and leave at its front, where an offset moves
over them. Where the vector has no room for more, the bytes left are moved to its front
or to a new vector; so they are when few are left far behind the front.

How far a vector grows is up to the library (`Allocator`). That memory may run out is not
modelled.
-/

namespace Oxyra.NetBuffer

/-! ## Vectors -/

/-- The capacity a vector takes to hold so many bytes, from the one it has. -/
structure Allocator where
  grow : Nat → Nat → Nat
  le_grow : ∀ capacity n, n ≤ grow capacity n

/-- `std::vector<uint8_t>` -/
structure Vec where
  bytes : List UInt8
  capacity : Nat
  fits : bytes.length ≤ capacity

namespace Vec

def empty : Vec := ⟨[], 0, Nat.le_refl 0⟩

def size (v : Vec) : Nat := v.bytes.length

/-- The capacity once there must be room for so many bytes. -/
def room (a : Allocator) (v : Vec) (n : Nat) : Nat :=
  if n ≤ v.capacity then v.capacity else a.grow v.capacity n

theorem le_room (a : Allocator) (v : Vec) (n : Nat) : n ≤ v.room a n := by
  rw [room]
  split
  · assumption
  · exact a.le_grow _ _

theorem size_le_room (a : Allocator) (v : Vec) (n : Nat) : v.size ≤ v.room a n := by
  have hfits : v.size ≤ v.capacity := v.fits
  have hgrow := a.le_grow v.capacity n
  rw [room]
  split <;> omega

/-- The vector with other bytes, grown if they need it. -/
def hold (a : Allocator) (v : Vec) (bytes : List UInt8) : Vec where
  bytes := bytes
  capacity := v.room a bytes.length
  fits := le_room a v _

def reserve (a : Allocator) (v : Vec) (n : Nat) : Vec where
  bytes := v.bytes
  capacity := v.room a n
  fits := size_le_room a v n

def resize (a : Allocator) (v : Vec) (n : Nat) : Vec :=
  v.hold a (v.bytes.take n ++ List.replicate (n - v.size) 0)

/-- `insert` at the end -/
def insertEnd (a : Allocator) (v : Vec) (data : List UInt8) : Vec := v.hold a (v.bytes ++ data)

/-- `memmove` and `memcpy` to the first bytes of the vector. -/
def copyToFront (v : Vec) (src : List UInt8) : Vec where
  bytes := (src ++ v.bytes.drop src.length).take v.size
  capacity := v.capacity
  fits := (List.length_take_le _ _).trans v.fits

end Vec

/-! ## The buffer -/

structure Buffer where
  storage : Vec
  offset : Nat

namespace Buffer

/-- The constructor. -/
def new (a : Allocator) (reserve : Nat) : Buffer := ⟨Vec.empty.reserve a reserve, 0⟩

def size (b : Buffer) : Nat := b.storage.size - b.offset

/-- The bytes left are moved to the front. -/
def compact (a : Allocator) (b : Buffer) : Buffer where
  storage := (b.storage.copyToFront (b.storage.bytes.drop b.offset)).resize a
    (b.storage.size - b.offset)
  offset := 0

/-- `(((size() + sz) * 3 / 2) + 4095) & ~4095` -/
def newCapacity (b : Buffer) (sz : Nat) : UInt64 :=
  (UInt64.ofNat (b.size + sz) * 3 / 2 + 4095) &&& ~~~4095

/-- The bytes left are copied to a new vector. -/
def reallocate (a : Allocator) (b : Buffer) (sz : Nat) : Buffer where
  storage := ((Vec.empty.reserve a (b.newCapacity sz).toNat).resize a b.size).copyToFront
    (b.storage.bytes.drop b.offset)
  offset := 0

/-- The storage `append` writes to. -/
def makeRoom (a : Allocator) (b : Buffer) (sz : Nat) : Buffer :=
  if sz > b.storage.capacity - b.storage.size then
    if b.size + sz ≤ b.storage.capacity then b.compact a else b.reallocate a sz
  else if b.size ≤ 4096 ∧ b.offset > 4096 * 16 ∧ b.offset ≥ b.storage.capacity / 2 then
    b.compact a
  else b

/-- `append`; it throws at more data than can be counted. -/
def append (a : Allocator) (b : Buffer) (data : List UInt8) : Option Buffer :=
  if b.storage.size < sizeMax - data.length then
    let b := b.makeRoom a data.length
    some { b with storage := b.storage.insertEnd a data }
  else none

/-- `erase`; the check adds up in a word. -/
def erase (a : Allocator) (b : Buffer) (sz : Nat) : Option Buffer :=
  let offset := (b.offset + sz) % 2 ^ 64
  if offset ≤ b.storage.size then
    if offset = b.storage.size then some ⟨b.storage.resize a 0, 0⟩
    else some { b with offset := offset }
  else none

def span (b : Buffer) (sz : Nat) : Option (List UInt8) :=
  if sz ≤ b.size then some ((b.storage.bytes.drop b.offset).take sz) else none

/-- `carve`: the bytes before the new offset. -/
def carve (b : Buffer) (sz : Nat) : Option (List UInt8 × Buffer) :=
  if sz ≤ b.size then
    some ((b.storage.bytes.drop (b.offset + sz - sz)).take sz, { b with offset := b.offset + sz })
  else none

end Buffer

/-! ## Calls -/

inductive Call where
  | append (data : List UInt8)
  | erase (sz : Nat)
  | carve (sz : Nat)
  | span (sz : Nat)
deriving DecidableEq, Repr

/-- What a call returns, if it does not throw, and the buffer after it. -/
def Buffer.call (a : Allocator) (b : Buffer) : Call → Option (List UInt8 × Buffer)
  | .append data => (b.append a data).map ([], ·)
  | .erase sz => (b.erase a sz).map ([], ·)
  | .carve sz => b.carve sz
  | .span sz => (b.span sz).map (·, b)

/-- The bytes each call of a sequence returns, with the size reported after it, and the
buffer after them. -/
def Buffer.run (a : Allocator) : List Call → Buffer → Option (List (List UInt8 × Nat) × Buffer)
  | [], b => some ([], b)
  | c :: cs, b => do
      let (bytes, b) ← b.call a c
      let (reports, last) ← run a cs b
      return ((bytes, b.size) :: reports, last)

/-- The call asks for no more than there is, or adds no more than can be counted. -/
def Call.valid (b : Buffer) : Call → Bool
  | .append data => b.storage.size < sizeMax - data.length
  | .erase sz | .carve sz | .span sz => sz ≤ b.size

/-- Every call of the sequence is valid when it is made. -/
def Buffer.validCalls (a : Allocator) : List Call → Buffer → Bool
  | [], _ => true
  | c :: cs, b =>
    c.valid b && match b.call a c with
      | some (_, b) => validCalls a cs b
      | none => true

end Oxyra.NetBuffer
