import Oxyra.Core.NetBuffer

/-!
# The network buffer is a queue of bytes

The buffer stands for the bytes of its storage behind the offset. Moving them to the front
or to a new vector changes nothing in that, and each call does to them what it does to a
queue.
-/

namespace Oxyra.NetBuffer

/-- What a call returns from a queue of bytes, and the queue after it. -/
def Queue.call (q : List UInt8) : Call → List UInt8 × List UInt8
  | .append data => ([], q ++ data)
  | .erase sz => ([], q.drop sz)
  | .carve sz => (q.take sz, q.drop sz)
  | .span sz => (q.take sz, q)

/-- The bytes each call returns, with the length of the queue after it. -/
def Queue.run : List Call → List UInt8 → List (List UInt8 × Nat) × List UInt8
  | [], q => ([], q)
  | c :: cs, q =>
    let (bytes, q) := Queue.call q c
    let (reports, last) := run cs q
    ((bytes, q.length) :: reports, last)

/-- The bytes behind the offset are those of the queue. -/
structure Holds (b : Buffer) (q : List UInt8) : Prop where
  offset_le : b.offset ≤ b.storage.size
  bytes : b.storage.bytes.drop b.offset = q

variable {a : Allocator} {b : Buffer} {q : List UInt8} {sz : Nat}

namespace Holds

theorem size_sub (h : Holds b q) : b.storage.size - b.offset = q.length := by
  rw [← h.bytes, List.length_drop]
  rfl

theorem of_front {v : Vec} (h : v.bytes = q) : Holds ⟨v, 0⟩ q := ⟨Nat.zero_le _, h⟩

end Holds

theorem copyToFront_bytes {v : Vec} {src : List UInt8} (h : src.length ≤ v.size) :
    (v.copyToFront src).bytes = src ++ v.bytes.drop src.length := by
  refine List.take_of_length_le ?_
  rw [List.length_append, List.length_drop]
  exact (Nat.add_sub_of_le h).le

theorem compact_bytes (h : Holds b q) : (b.compact a).storage.bytes = q := by
  have hle : q.length ≤ b.storage.size := h.size_sub ▸ Nat.sub_le _ _
  have hsize : q.length ≤ (b.storage.copyToFront q).size := by
    rw [Vec.size, copyToFront_bytes hle, List.length_append]
    exact Nat.le_add_right _ _
  have hbytes : (b.compact a).storage.bytes =
      ((b.storage.copyToFront q).resize a q.length).bytes := by
    rw [← h.size_sub, ← h.bytes]
    rfl
  rw [hbytes, Vec.resize, Vec.hold, copyToFront_bytes hle, List.take_left,
    Nat.sub_eq_zero_of_le hsize, List.replicate_zero, List.append_nil]

theorem reallocate_bytes (h : Holds b q) : (b.reallocate a sz).storage.bytes = q := by
  have hsize : b.size = q.length := h.size_sub
  rw [Buffer.reallocate, h.bytes, hsize, copyToFront_bytes]
  · simp [Vec.resize, Vec.hold, Vec.reserve, Vec.empty]
  · simp [Vec.resize, Vec.hold, Vec.reserve, Vec.empty, Vec.size]

theorem Holds.makeRoom (h : Holds b q) :
    Holds (b.makeRoom a sz) q ∧ (b.makeRoom a sz).storage.size ≤ b.storage.size := by
  have hle : q.length ≤ b.storage.size := h.size_sub ▸ Nat.sub_le _ _
  have hcompact : (b.compact a).storage.size = q.length := congrArg _ (compact_bytes h)
  have hmove : (b.reallocate a sz).storage.size = q.length := congrArg _ (reallocate_bytes h)
  rw [Buffer.makeRoom]
  split_ifs
  · exact ⟨.of_front (compact_bytes h), hcompact ▸ hle⟩
  · exact ⟨.of_front (reallocate_bytes h), hmove ▸ hle⟩
  · exact ⟨.of_front (compact_bytes h), hcompact ▸ hle⟩
  · exact ⟨h, le_rfl⟩

theorem Holds.insertEnd (h : Holds b q) (data : List UInt8) :
    Holds { b with storage := b.storage.insertEnd a data } (q ++ data) where
  offset_le := h.offset_le.trans (by simp [Vec.insertEnd, Vec.hold, Vec.size])
  bytes := by
    rw [← h.bytes]
    exact List.drop_append_of_le_length h.offset_le

theorem Holds.advance (h : Holds b q) (hsz : sz ≤ q.length) :
    Holds { b with offset := b.offset + sz } (q.drop sz) where
  offset_le := by
    have hsize := h.size_sub
    have hle := h.offset_le
    show b.offset + sz ≤ b.storage.size
    omega
  bytes := by
    rw [← h.bytes, List.drop_drop]

/-- One call, on the buffer and on the queue. The storage can be counted in a word before
the call, and after it. -/
theorem Holds.call (h : Holds b q) (hword : b.storage.size < 2 ^ 64) {c : Call}
    (hc : c.valid b = true) :
    ∃ b', b.call a c = some ((Queue.call q c).1, b') ∧ Holds b' (Queue.call q c).2 ∧
      b'.storage.size < 2 ^ 64 := by
  cases c with
  | append data =>
    have hcount : b.storage.size < sizeMax - data.length := of_decide_eq_true hc
    obtain ⟨hroom, hle⟩ := @Holds.makeRoom a b q data.length h
    refine ⟨_, by rw [Buffer.call, Buffer.append, if_pos hcount]; rfl, hroom.insertEnd data, ?_⟩
    show (_ ++ data).length < _
    rw [List.length_append]
    change (b.makeRoom a data.length).storage.size + data.length < _
    rw [sizeMax] at hcount
    omega
  | erase sz =>
    have hsz : sz ≤ q.length := h.size_sub ▸ of_decide_eq_true hc
    have hadvance := h.advance hsz
    have hle : b.offset + sz ≤ b.storage.size := hadvance.offset_le
    rw [Buffer.call, Buffer.erase, Nat.mod_eq_of_lt (hle.trans_lt hword), if_pos hle]
    split_ifs with hend
    · -- nothing is left: the storage starts anew
      have hnil : q.drop sz = [] := by
        rw [← hadvance.bytes, List.drop_eq_nil_iff]
        exact hend.ge
      have hempty : (b.storage.resize a 0).bytes = [] := by simp [Vec.resize, Vec.hold]
      refine ⟨_, rfl, .of_front (hempty.trans hnil.symm), ?_⟩
      simp [Vec.size, hempty]
    · exact ⟨_, rfl, hadvance, hword⟩
  | carve sz =>
    have hsz : sz ≤ q.length := h.size_sub ▸ of_decide_eq_true hc
    refine ⟨_, ?_, h.advance hsz, hword⟩
    rw [Buffer.call, Buffer.carve, if_pos (of_decide_eq_true hc), Nat.add_sub_cancel, h.bytes]
    rfl
  | span sz =>
    refine ⟨b, ?_, h, hword⟩
    rw [Buffer.call, Buffer.span, if_pos (of_decide_eq_true hc), h.bytes]
    rfl

theorem Holds.run (h : Holds b q) (hword : b.storage.size < 2 ^ 64) {calls : List Call}
    (hvalid : b.validCalls a calls = true) :
    ∃ b', b.run a calls = some ((Queue.run calls q).1, b') ∧ Holds b' (Queue.run calls q).2 := by
  induction calls generalizing b q with
  | nil => exact ⟨b, rfl, h⟩
  | cons c cs ih =>
    obtain ⟨hc, hcs⟩ := Bool.and_eq_true_iff.mp hvalid
    obtain ⟨b₁, hcall, h₁, hword₁⟩ := h.call hword hc
    rw [hcall] at hcs
    obtain ⟨b', hrun, h'⟩ := ih h₁ hword₁ hcs
    have hsize : b₁.size = (Queue.call q c).2.length := h₁.size_sub
    refine ⟨b', ?_, h'⟩
    simp only [Buffer.run, hcall, Option.bind_eq_bind, Option.bind_some, hrun, hsize]
    rfl

/-- **The buffer is a queue of bytes**: any valid calls on a new buffer return what they
return from an empty queue, report its sizes, and leave its bytes behind an offset that
is within the storage, whatever the library's way to grow a vector. -/
theorem buffer_is_queue (a : Allocator) (reserve : Nat) (calls : List Call)
    (hvalid : (Buffer.new a reserve).validCalls a calls = true) :
    ∃ b, (Buffer.new a reserve).run a calls = some ((Queue.run calls []).1, b) ∧
      b.storage.bytes.drop b.offset = (Queue.run calls []).2 ∧ b.offset ≤ b.storage.size := by
  have hnew : Holds (Buffer.new a reserve) [] := .of_front rfl
  obtain ⟨b, hrun, h⟩ := hnew.run (show 0 < 2 ^ 64 by decide) hvalid
  exact ⟨b, hrun, h.bytes, h.offset_le⟩

def tight : Allocator := ⟨fun _ n => n, fun _ _ => le_rfl⟩

/-- The last append moves two bytes to the front. -/
theorem buffer_is_queue_moved :
    ∃ b, (Buffer.new tight 4).run tight
        [.append [1, 2, 3, 4], .carve 2, .append [5], .span 3, .erase 3] =
          some ([([], 4), ([1, 2], 2), ([], 3), ([3, 4, 5], 3), ([], 0)], b) ∧
      b.storage.bytes.drop b.offset = [] ∧ b.offset ≤ b.storage.size :=
  buffer_is_queue tight 4 [.append [1, 2, 3, 4], .carve 2, .append [5], .span 3, .erase 3]
    (by decide +kernel)

end Oxyra.NetBuffer
