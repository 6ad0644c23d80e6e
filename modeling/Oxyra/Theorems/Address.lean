import Oxyra.Core.Address

/-!
# Address strings are canonical

* Base 58: a string decodes to some bytes exactly when it is their encoding
  (`decode_eq_some_iff`). No letters hold a number twice, and a block that stands for
  more than its bytes can hold is refused.
* `address_canonical`: what the base 58 branch of `get_account_address_from_str`
  accepts is the address written again, and every address of valid keys is accepted.
-/

namespace Oxyra

open Codec (Blob)

namespace Base58

variable {adr : AccountPublicAddress} {data enc str : List UInt8} {n : Nat} {tag : UInt64}

/-! ## Letters and sizes -/

theorem idxOf_eq_some_iff {α : Type} [DecidableEq α] {l : List α} (hl : l.Nodup) (dflt x : α)
    {i : Nat} :
    (if x ∈ l then some (l.idxOf x) else none) = some i ↔ i < l.length ∧ l.getD i dflt = x := by
  constructor
  · intro h
    split at h
    · rename_i hx
      cases h
      have hlt := List.idxOf_lt_length_of_mem hx
      exact ⟨hlt, by simp [List.getD_eq_getElem?_getD, hlt]⟩
    · cases h
  · rintro ⟨hi, rfl⟩
    have hget : l.getD i dflt = l[i] := by simp [List.getD_eq_getElem?_getD, hi]
    rw [hget, if_pos (List.getElem_mem hi), hl.idxOf_getElem]

theorem reverseAlphabet_eq_some_iff {c : UInt8} {digit : Nat} :
    reverseAlphabet c = some digit ↔ digit < 58 ∧ letter digit = c :=
  idxOf_eq_some_iff (by decide +kernel) 0 c

theorem decodedBlockSize_eq_some_iff {size : Nat} :
    decodedBlockSize n = some size ↔ size < 9 ∧ encodedBlockSizes.getD size 0 = n :=
  idxOf_eq_some_iff (by decide) 0 n

theorem pow_le_encodedBlockSize :
    ∀ size < 9, 256 ^ size ≤ 58 ^ encodedBlockSizes.getD size 0 := by
  decide

/-! ## Numbers in a block -/

theorem uint8beTo64_lt (data : List UInt8) : uint8beTo64 data < 256 ^ data.length := by
  have h := Numeral.ofBytes_lt data.reverse
  rwa [List.length_reverse] at h

@[simp] theorem length_uint64To8be (num size : Nat) : (uint64To8be num size).length = size := by
  simp [uint64To8be]

theorem uint8beTo64_uint64To8be {num size : Nat} (h : num < 256 ^ size) :
    uint8beTo64 (uint64To8be num size) = num := by
  rw [uint8beTo64, uint64To8be, List.reverse_reverse, Numeral.ofBytes_toBytes h]

theorem uint64To8be_uint8beTo64 (data : List UInt8) :
    uint64To8be (uint8beTo64 data) data.length = data := by
  have h := Numeral.toBytes_ofBytes data.reverse
  rw [List.length_reverse] at h
  rw [uint64To8be, uint8beTo64, h, List.reverse_reverse]

theorem encodeLoop_eq (i num : Nat) :
    encodeLoop i num = (Numeral.toDigits 58 i num).map letter := by
  induction i generalizing num with
  | zero => rfl
  | succ i ih =>
    rw [encodeLoop, Numeral.toDigits, List.map_cons]
    split
    · rw [ih]
      rfl
    · -- nothing is left, and the digits of nothing are zeros
      rename_i hnum
      obtain rfl : num = 0 := by omega
      rw [ih]

theorem eq_map_letter_cons {c : UInt8} {letters : List UInt8} {ds : List Nat}
    (hlt : ∀ d ∈ ds, d < 58) (h : c :: letters = ds.map letter) :
    ∃ d ds', ds = d :: ds' ∧ reverseAlphabet c = some d ∧ letters = ds'.map letter := by
  cases ds with
  | nil => cases h
  | cons d ds =>
    obtain ⟨hd, hds⟩ := List.cons.inj h
    have hdigit := reverseAlphabet_eq_some_iff.mpr ⟨hlt d List.mem_cons_self, hd.symm⟩
    exact ⟨d, ds, rfl, hdigit, hds⟩

/-- **The loop of `decode_block`** gives the number the letters stand for, and fails where
a letter is none or the number does not fit. -/
theorem decodeLoop_eq_some_iff {letters : List UInt8} {res k r : Nat}
    (hk : k + letters.length ≤ 11) (hres : res < 2 ^ 64) :
    decodeLoop letters res (58 ^ k % 2 ^ 64) = some r ↔
      ∃ ds : List Nat, (∀ d ∈ ds, d < 58) ∧ letters = ds.map letter ∧
        r = res + 58 ^ k * Nat.ofDigits 58 ds ∧ r < 2 ^ 64 := by
  induction letters generalizing res k with
  | nil =>
    constructor
    · intro h
      cases h
      exact ⟨[], by simp, rfl, by simp [Nat.ofDigits], hres⟩
    · rintro ⟨ds, -, hds, rfl, -⟩
      obtain rfl : ds = [] := by simpa using hds.symm
      simp [decodeLoop, Nat.ofDigits]
  | cons c letters ih =>
    have hk' : k + 1 + letters.length ≤ 11 := by
      rw [List.length_cons] at hk
      omega
    -- the order fits in 64 bits as long as there is a letter to multiply it with
    have horder : 58 ^ k % 2 ^ 64 = 58 ^ k := by
      refine Nat.mod_eq_of_lt ?_
      calc 58 ^ k ≤ 58 ^ 10 := Nat.pow_le_pow_right (by decide) (by omega)
        _ < 2 ^ 64 := by decide
    have hnext : 58 ^ k * alphabetSize = 58 ^ (k + 1) := rfl
    rw [decodeLoop, horder]
    cases hc : reverseAlphabet c with
    | none =>
      refine iff_of_false (by simp) ?_
      rintro ⟨ds, hlt, hds, -, -⟩
      obtain ⟨d, ds, rfl, hd, -⟩ := eq_map_letter_cons hlt hds
      rw [hc] at hd
      cases hd
    | some digit =>
      obtain ⟨hdigit, hletter⟩ := reverseAlphabet_eq_some_iff.mp hc
      simp only [hnext]
      by_cases hfit : res + 58 ^ k * digit < 2 ^ 64
      · have hmod : 58 ^ k * digit % 2 ^ 64 = 58 ^ k * digit := Nat.mod_eq_of_lt (by omega)
        have hhi : 58 ^ k * digit / 2 ^ 64 = 0 := Nat.div_eq_of_lt (by omega)
        rw [hmod, hhi, Nat.mod_eq_of_lt hfit, if_neg (by omega), ih hk' hfit]
        constructor
        · rintro ⟨ds, hlt, rfl, rfl, hr⟩
          refine ⟨digit :: ds, ?_, ?_, ?_, hr⟩
          · exact List.forall_mem_cons.mpr ⟨hdigit, hlt⟩
          · rw [List.map_cons, hletter]
          · rw [Nat.ofDigits_cons, Nat.pow_succ]
            ring
        · rintro ⟨ds, hlt, hds, rfl, hr⟩
          obtain ⟨d, ds, rfl, hd, hds⟩ := eq_map_letter_cons hlt hds
          obtain rfl : d = digit := Option.some.inj (hd.symm.trans hc)
          refine ⟨ds, (List.forall_mem_cons.mp hlt).2, hds, ?_, hr⟩
          rw [Nat.ofDigits_cons, Nat.pow_succ]
          ring
      · -- the number is too large already
        have hover : (res + 58 ^ k * digit % 2 ^ 64) % 2 ^ 64 < res ∨
            0 ≠ 58 ^ k * digit / 2 ^ 64 := by
          by_cases hprod : 58 ^ k * digit < 2 ^ 64
          · left
            rw [Nat.mod_eq_of_lt hprod]
            omega
          · right
            have := Nat.div_pos (not_lt.mp hprod) (by decide)
            omega
        rw [if_pos hover]
        refine iff_of_false (by simp) ?_
        rintro ⟨ds, hlt, hds, rfl, hr⟩
        obtain ⟨d, ds, rfl, hd, hds⟩ := eq_map_letter_cons hlt hds
        obtain rfl : d = digit := Option.some.inj (hd.symm.trans hc)
        rw [Nat.ofDigits_cons, Nat.mul_add] at hr
        omega

/-! ## Blocks -/

theorem length_encodeBlock (block : List UInt8) :
    (encodeBlock block).length = encodedBlockSizes.getD block.length 0 := by
  simp [encodeBlock, encodeLoop_eq]

theorem encodedBlockSize_le : ∀ size < 9, encodedBlockSizes.getD size 0 ≤ 11 := by decide

theorem pow_256 (size : Nat) : 256 ^ size = 2 ^ (8 * size) := by
  rw [Nat.pow_mul]

theorem eq_encodeBlock_of_decodeBlock (h : decodeBlock enc = some data) :
    enc = encodeBlock data ∧ 0 < data.length ∧ data.length < 9 := by
  unfold decodeBlock at h
  cases hsize : decodedBlockSize enc.length with
  | none => simp [hsize] at h
  | some size =>
    obtain ⟨hlt, hlen⟩ := decodedBlockSize_eq_some_iff.mp hsize
    simp only [hsize] at h
    split at h
    · cases h
    rename_i hpos
    cases hloop : decodeLoop enc.reverse 0 1 with
    | none => simp [hloop] at h
    | some num =>
      simp only [hloop] at h
      split at h
      · cases h
      rename_i hfit
      cases h
      have hletters : 0 + enc.reverse.length ≤ 11 := by
        rw [List.length_reverse, ← hlen, Nat.zero_add]
        exact encodedBlockSize_le size hlt
      obtain ⟨ds, hds, hmap, hnum, hword⟩ :=
        (decodeLoop_eq_some_iff hletters (by decide)).mp hloop
      rw [Nat.pow_zero, Nat.zero_add, Nat.one_mul] at hnum
      -- a full block holds any word, the others are checked
      have hbytes : num < 256 ^ size := by
        rw [pow_256]
        rcases Nat.lt_or_ge size 8 with h8 | h8
        · exact not_le.mp fun hle => hfit ⟨h8, hle⟩
        · rwa [show size = 8 by omega]
      have hdslen : encodedBlockSizes.getD size 0 = ds.length := by
        have h := congrArg List.length hmap
        rwa [List.length_reverse, List.length_map, ← hlen] at h
      refine ⟨?_, by rw [length_uint64To8be]; omega, by rwa [length_uint64To8be]⟩
      rw [encodeBlock, length_uint64To8be, uint8beTo64_uint64To8be hbytes, encodeLoop_eq,
        hdslen, hnum, Numeral.toDigits_ofDigits hds, ← hmap, List.reverse_reverse]

theorem decodeBlock_encodeBlock (hpos : 0 < data.length) (hlt : data.length < 9) :
    decodeBlock (encodeBlock data) = some data := by
  have hbytes := uint8beTo64_lt data
  have hnum : uint8beTo64 data < 58 ^ encodedBlockSizes.getD data.length 0 :=
    hbytes.trans_le (pow_le_encodedBlockSize _ hlt)
  have hsize : decodedBlockSize (encodeBlock data).length = some data.length :=
    decodedBlockSize_eq_some_iff.mpr ⟨hlt, (length_encodeBlock data).symm⟩
  have hword : uint8beTo64 data < 2 ^ 64 :=
    calc uint8beTo64 data < 256 ^ data.length := hbytes
      _ ≤ 256 ^ 8 := Nat.pow_le_pow_right (by decide) (by omega)
      _ = 2 ^ 64 := by decide
  have hletters : 0 + (encodeBlock data).reverse.length ≤ 11 := by
    rw [List.length_reverse, length_encodeBlock, Nat.zero_add]
    exact encodedBlockSize_le _ hlt
  have hloop : decodeLoop (encodeBlock data).reverse 0 1 = some (uint8beTo64 data) := by
    refine (decodeLoop_eq_some_iff hletters (by decide)).mpr
      ⟨Numeral.toDigits 58 (encodedBlockSizes.getD data.length 0) (uint8beTo64 data),
        Numeral.toDigits_lt (by decide), ?_, ?_, hword⟩
    · rw [encodeBlock, List.reverse_reverse, encodeLoop_eq]
    · rw [Numeral.ofDigits_toDigits hnum, Nat.pow_zero, Nat.zero_add, Nat.one_mul]
  have hfit : ¬ (data.length < fullBlockSize ∧ 2 ^ (8 * data.length) ≤ uint8beTo64 data) := by
    rw [pow_256] at hbytes
    omega
  rw [decodeBlock, hsize]
  simp only [hloop]
  rw [if_neg (by omega), if_neg hfit, uint64To8be_uint8beTo64]

/-! ## Strings -/

theorem length_encodeBlocks (h : data.length / 8 = n) :
    (encodeBlocks n data).length = n * 11 + encodedBlockSizes.getD (data.length % 8) 0 := by
  induction n generalizing data with
  | zero =>
    have hmod : data.length % 8 = data.length := by omega
    rw [encodeBlocks, hmod, Nat.zero_mul, Nat.zero_add]
    split
    · exact length_encodeBlock data
    · rw [show data.length = 0 by omega]
      rfl
  | succ n ih =>
    have htake : (data.take fullBlockSize).length = 8 := by
      rw [List.length_take, fullBlockSize]
      omega
    have hdrop : (data.drop fullBlockSize).length = data.length - 8 := List.length_drop
    rw [encodeBlocks, List.length_append, length_encodeBlock, htake, ih (by omega), hdrop,
      show (data.length - 8) % 8 = data.length % 8 by omega, Nat.succ_mul]
    show 11 + _ = _
    omega

theorem length_encode (data : List UInt8) :
    (encode data).length =
      data.length / 8 * 11 + encodedBlockSizes.getD (data.length % 8) 0 := by
  unfold encode
  split
  · rename_i hempty
    rw [List.isEmpty_iff.mp hempty]
    rfl
  · exact length_encodeBlocks rfl

theorem length_of_decodeBlock (h : decodeBlock enc = some data) :
    (enc.length = 11 → data.length = 8) ∧ (enc.length < 11 → data.length < 8) := by
  obtain ⟨rfl, -, hlt⟩ := eq_encodeBlock_of_decodeBlock h
  rw [length_encodeBlock]
  have hsizes : ∀ size < 9, (encodedBlockSizes.getD size 0 = 11 → size = 8) ∧
      (encodedBlockSizes.getD size 0 < 11 → size < 8) := by decide
  exact hsizes _ hlt

theorem decodeBlocks_eq_some (hn : enc.length / 11 = n) (h : decodeBlocks n enc = some data) :
    data.length / 8 = n ∧ enc = encodeBlocks n data := by
  induction n generalizing enc data with
  | zero =>
    rw [decodeBlocks] at h
    split at h
    · obtain ⟨henc, hpos, -⟩ := eq_encodeBlock_of_decodeBlock h
      have hshort := (length_of_decodeBlock h).2 (by omega)
      rw [encodeBlocks, if_pos hpos]
      exact ⟨by omega, henc⟩
    · rename_i hempty
      cases h
      exact ⟨rfl, List.length_eq_zero_iff.mp (by omega)⟩
  | succ n ih =>
    rw [decodeBlocks] at h
    cases hblock : decodeBlock (enc.take fullEncodedBlockSize) with
    | none => simp [hblock] at h
    | some block =>
      simp only [hblock] at h
      obtain ⟨rest, hrest, rfl⟩ := Option.map_eq_some_iff.mp h
      have htake : (enc.take fullEncodedBlockSize).length = 11 := by
        rw [List.length_take, fullEncodedBlockSize]
        omega
      have hdrop : (enc.drop fullEncodedBlockSize).length = enc.length - 11 :=
        List.length_drop
      have hlen := (length_of_decodeBlock hblock).1 htake
      obtain ⟨hcount, htail⟩ := ih (by omega) hrest
      refine ⟨by rw [List.length_append]; omega, ?_⟩
      have hfirst : (block ++ rest).take fullBlockSize = block := List.take_left' hlen
      have hsecond : (block ++ rest).drop fullBlockSize = rest := List.drop_left' hlen
      rw [encodeBlocks, hfirst, hsecond, ← htail,
        ← (eq_encodeBlock_of_decodeBlock hblock).1, List.take_append_drop]

theorem decodeBlocks_encodeBlocks (hn : data.length / 8 = n) :
    decodeBlocks n (encodeBlocks n data) = some data := by
  induction n generalizing data with
  | zero =>
    rw [encodeBlocks, decodeBlocks]
    by_cases hdata : 0 < data.length
    · -- every block of bytes has letters
      have hsizes : ∀ size < 8, 0 < size → 0 < encodedBlockSizes.getD size 0 := by decide
      have hletters : 0 < (encodeBlock data).length := by
        rw [length_encodeBlock]
        exact hsizes _ (by omega) hdata
      rw [if_pos hdata, if_pos hletters]
      exact decodeBlock_encodeBlock hdata (by omega)
    · rw [List.length_eq_zero_iff.mp (show data.length = 0 by omega)]
      rfl
  | succ n ih =>
    have htake : (data.take fullBlockSize).length = 8 := by
      rw [List.length_take, fullBlockSize]
      omega
    have hdrop : (data.drop fullBlockSize).length = data.length - 8 := List.length_drop
    have hlen : (encodeBlock (data.take fullBlockSize)).length = fullEncodedBlockSize := by
      rw [length_encodeBlock, htake]
      rfl
    have hblock : decodeBlock (encodeBlock (data.take fullBlockSize)) =
        some (data.take fullBlockSize) := decodeBlock_encodeBlock (by omega) (by omega)
    have hrest : decodeBlocks n (encodeBlocks n (data.drop fullBlockSize)) =
        some (data.drop fullBlockSize) := ih (by omega)
    rw [encodeBlocks, decodeBlocks, List.take_left' hlen, List.drop_left' hlen, hblock]
    simp only [hrest, Option.map_some, List.take_append_drop]

/-- **A string decodes to some bytes exactly when it is their encoding.** -/
theorem decode_eq_some_iff :
    decode enc = some data ↔ enc = encode data := by
  constructor
  · intro h
    unfold decode at h
    split at h
    · rename_i hempty
      cases h
      exact List.isEmpty_iff.mp hempty
    rename_i hne
    split at h
    · cases h
    · obtain ⟨hcount, henc⟩ := decodeBlocks_eq_some rfl h
      have hdata : ¬ data.isEmpty := by
        rintro hempty
        obtain rfl := List.isEmpty_iff.mp hempty
        rw [← hcount] at henc
        exact hne (by rw [henc]; rfl)
      rw [encode, if_neg hdata, fullBlockSize, hcount]
      exact henc
  · rintro rfl
    unfold encode
    split
    · rename_i hempty
      rw [List.isEmpty_iff.mp hempty]
      rfl
    · rename_i hne
      have hdata : 0 < data.length := by
        rw [List.isEmpty_iff] at hne
        exact List.length_pos_iff.mpr hne
      -- the letters of the last block are fewer than those of a full one, and not one
      have hsizes : ∀ size < 8, encodedBlockSizes.getD size 0 < 11 ∧
          (0 < size → 0 < encodedBlockSizes.getD size 0) := by decide
      obtain ⟨hlast, hsome⟩ := hsizes (data.length % 8) (by omega)
      have hlen : (encodeBlocks (data.length / 8) data).length =
          data.length / 8 * 11 + encodedBlockSizes.getD (data.length % 8) 0 :=
        length_encodeBlocks rfl
      have hmod : (encodeBlocks (data.length / 8) data).length % 11 =
          encodedBlockSizes.getD (data.length % 8) 0 := by omega
      have hdiv : (encodeBlocks (data.length / 8) data).length / 11 = data.length / 8 := by omega
      have hsize : decodedBlockSize (encodedBlockSizes.getD (data.length % 8) 0) =
          some (data.length % 8) := decodedBlockSize_eq_some_iff.mpr ⟨by omega, rfl⟩
      have hletters : ¬ (encodeBlocks (data.length / 8) data).isEmpty := by
        rw [List.isEmpty_iff, ← List.length_eq_zero_iff]
        omega
      rw [decode, fullBlockSize, if_neg hletters, fullEncodedBlockSize, hmod, hsize,
        if_neg (by simp), hdiv]
      exact decodeBlocks_encodeBlocks rfl

/-- **Base 58 is a canonical codec**: what is encoded decodes to itself, and what decodes is the
encoding of the result. -/
theorem base58_canonical (data enc : List UInt8) :
    decode (encode data) = some data ∧ (decode enc = some data → encode data = enc) ∧
      ∀ enc', decode enc = some data → decode enc' = some data → enc = enc' := by
  have hback : ∀ {enc}, decode enc = some data → encode data = enc := fun h =>
    (decode_eq_some_iff.mp h).symm
  exact ⟨decode_eq_some_iff.mpr rfl, hback, fun _ h h' => (hback h).symm.trans (hback h')⟩

/-- The letters 15Q are one block of two bytes. -/
theorem base58_canonical_two_bytes :
    decode (encode [0, 255]) = some [0, 255] ∧ encode [0, 255] = [49, 53, 81] :=
  have h := base58_canonical [0, 255] [49, 53, 81]
  ⟨h.1, h.2.1 (by decide)⟩

variable {checksum : List UInt8 → Blob addrChecksumSize}

/-- **An address decodes to a tag and some data exactly when it is their encoding.** Only
without data can it also break off inside the tag. -/
theorem decodeAddr_eq_some_iff {addr : List UInt8} (hdata : data ≠ []) :
    decodeAddr checksum addr = some (tag, data) ↔ addr = encodeAddr checksum tag data := by
  constructor
  · intro h
    unfold decodeAddr at h
    cases hdec : decode addr with
    | none => simp [hdec] at h
    | some addrData =>
      obtain rfl := decode_eq_some_iff.mp hdec
      simp only [hdec] at h
      split at h
      · cases h
      split at h
      · cases h
      rename_i hlen hsum
      have hread : Codec.varint64.read .strict
          (addrData.take (addrData.length - addrChecksumSize)) = some (tag, data) :=
        (Codec.varint64.lenient h).resolve_right fun hcut => hdata hcut.1
      have hbuf := Codec.varint64_read_strict_iff.mp hread
      have hsplit := List.take_append_drop (addrData.length - addrChecksumSize) addrData
      rw [← not_ne_iff.mp hsum, hbuf] at hsplit
      rw [encodeAddr]
      exact congrArg encode hsplit.symm
  · rintro rfl
    have hsum := (checksum (Codec.writeVarint tag.toNat ++ data)).2
    have hlen : ((Codec.writeVarint tag.toNat ++ data) ++
        (checksum (Codec.writeVarint tag.toNat ++ data)).1).length - addrChecksumSize =
          (Codec.writeVarint tag.toNat ++ data).length := by
      rw [List.length_append, hsum, Nat.add_sub_cancel]
    have hpos : ¬ ((Codec.writeVarint tag.toNat ++ data) ++
        (checksum (Codec.writeVarint tag.toNat ++ data)).1).length ≤ addrChecksumSize := by
      have := List.length_pos_iff.mpr hdata
      rw [List.length_append, List.length_append, hsum]
      omega
    rw [decodeAddr, encodeAddr, decode_eq_some_iff.mpr rfl]
    simp only [if_neg hpos, hlen, List.take_left, List.drop_left, ne_eq, not_true_eq_false,
      if_false]
    exact Codec.varint64.relax (Codec.varint64_read_strict_iff.mpr rfl)

end Base58

/-! ## The three kinds of address -/

namespace Address

structure Prefixes.Distinct (net : Prefixes) : Prop where
  integrated_address : net.publicIntegratedAddress ≠ net.publicAddress
  integrated_subaddress : net.publicIntegratedAddress ≠ net.publicSubaddress
  address_subaddress : net.publicAddress ≠ net.publicSubaddress

theorem Prefixes.mainnet_distinct : Prefixes.mainnet.Distinct :=
  ⟨by decide, by decide, by decide⟩

namespace Env

variable {e : Env} {net : Prefixes}

theorem parseBinary_eq_some_iff {α : Type} {c : Codec α} {blob : List UInt8} {v : α} :
    parseBinary c blob = some v ↔ c.read .lenient blob = some (v, []) := by
  unfold parseBinary
  split
  · rename_i w h
    rw [h]
    simp
  · rename_i h
    refine iff_of_false (by simp) fun hread => h v hread

theorem accountPublicAddress_read_iff {m : Mode} {rest : List UInt8} :
    accountPublicAddress.read m data = some (adr, rest) ↔
      data = adr.spendPublicKey.1 ++ (adr.viewPublicKey.1 ++ rest) := by
  rw [accountPublicAddress, Codec.map_read]
  constructor
  · rintro ⟨⟨spend, view⟩, hread, rfl⟩
    obtain ⟨mid, hspend, hview⟩ := Codec.bind_read.mp hread
    rw [Codec.blob_read_iff.mp hspend, Codec.blob_read_iff.mp hview]
  · rintro rfl
    exact ⟨⟨adr.spendPublicKey, adr.viewPublicKey⟩, Codec.bind_read.mpr
      ⟨adr.viewPublicKey.1 ++ rest, Codec.blob_read_iff.mpr rfl, Codec.blob_read_iff.mpr rfl⟩, rfl⟩

theorem integratedAddress_read_iff {m : Mode} {rest : List UInt8} {iadr : IntegratedAddress} :
    integratedAddress.read m data = some (iadr, rest) ↔
      data = iadr.adr.spendPublicKey.1 ++
        (iadr.adr.viewPublicKey.1 ++ (iadr.paymentId.1 ++ rest)) := by
  rw [integratedAddress, Codec.map_read]
  constructor
  · rintro ⟨⟨adr, paymentId⟩, hread, rfl⟩
    obtain ⟨mid, hadr, hid⟩ := Codec.bind_read.mp hread
    rw [accountPublicAddress_read_iff.mp hadr, Codec.blob_read_iff.mp hid]
  · rintro rfl
    exact ⟨⟨iadr.adr, iadr.paymentId⟩, Codec.bind_read.mpr ⟨iadr.paymentId.1 ++ rest,
      accountPublicAddress_read_iff.mpr rfl, Codec.blob_read_iff.mpr rfl⟩, rfl⟩

/-- The string of what was parsed: `get_account_integrated_address_as_str` where there is
a payment id, `get_account_address_as_str` otherwise. -/
def infoAsStr (e : Env) (net : Prefixes) (info : ParseInfo) : List UInt8 :=
  match info.paymentId with
  | some paymentId => e.getAccountIntegratedAddressAsStr net info.address paymentId
  | none => e.getAccountAddressAsStr net info.isSubaddress info.address

def ValidKeys (e : Env) (adr : AccountPublicAddress) : Prop :=
  e.checkKey adr.spendPublicKey = true ∧ e.checkKey adr.viewPublicKey = true

theorem append_blob_ne_nil (b : Blob (n + 1)) (l : List UInt8) : b.1 ++ l ≠ [] := by
  intro h
  have hlen := congrArg List.length h
  rw [List.length_append, b.2] at hlen
  simp at hlen

theorem eq_encodeAddr_of_account (hdec : Base58.decodeAddr e.checksum str = some (tag, data))
    (hparse : parseBinary accountPublicAddress data = some adr) :
    str = Base58.encodeAddr e.checksum tag (adr.spendPublicKey.1 ++ adr.viewPublicKey.1) := by
  have hdata := accountPublicAddress_read_iff.mp (parseBinary_eq_some_iff.mp hparse)
  rw [List.append_nil] at hdata
  subst hdata
  exact (Base58.decodeAddr_eq_some_iff (append_blob_ne_nil _ _)).mp hdec

theorem eq_encodeAddr_of_integrated {iadr : IntegratedAddress}
    (hdec : Base58.decodeAddr e.checksum str = some (tag, data))
    (hparse : parseBinary integratedAddress data = some iadr) :
    str = Base58.encodeAddr e.checksum tag
      (iadr.adr.spendPublicKey.1 ++ iadr.adr.viewPublicKey.1 ++ iadr.paymentId.1) := by
  have hdata := integratedAddress_read_iff.mp (parseBinary_eq_some_iff.mp hparse)
  rw [List.append_nil, ← List.append_assoc] at hdata
  subst hdata
  rw [List.append_assoc] at hdec ⊢
  exact (Base58.decodeAddr_eq_some_iff (append_blob_ne_nil _ _)).mp hdec

/-- **What the base 58 branch accepts is the address written again.** -/
theorem infoAsStr_of_addressFromBase58 {info : ParseInfo}
    (h : e.addressFromBase58 net str = some info) : e.infoAsStr net info = str := by
  unfold addressFromBase58 at h
  cases hdec : Base58.decodeAddr e.checksum str with
  | none => simp [hdec] at h
  | some p =>
    obtain ⟨tag, data⟩ := p
    simp only [hdec] at h
    obtain ⟨hinfo, -⟩ := Option.filter_eq_some_iff.mp h
    -- the prefix found is the one the kind is written with
    split at hinfo
    · rename_i htag
      obtain ⟨iadr, hparse, rfl⟩ := Option.map_eq_some_iff.mp hinfo
      rw [eq_encodeAddr_of_integrated hdec hparse, ← htag]
      rfl
    split at hinfo
    · rename_i htag
      obtain ⟨adr, hparse, rfl⟩ := Option.map_eq_some_iff.mp hinfo
      rw [eq_encodeAddr_of_account hdec hparse, ← htag]
      rfl
    split at hinfo
    · rename_i htag
      obtain ⟨adr, hparse, rfl⟩ := Option.map_eq_some_iff.mp hinfo
      rw [eq_encodeAddr_of_account hdec hparse, ← htag]
      rfl
    · cases hinfo

theorem length_encodeAddr_ne (tag : UInt64) (hdata : data.length ≤ 72) :
    2 * outerBlobSize ≠ (Base58.encodeAddr e.checksum tag data).length := by
  have htag : (Codec.writeVarint tag.toNat).length ≤ 10 :=
    Codec.length_writeVarint_le (tag.toNat_lt.trans (by decide))
  have hbuf : ((Codec.writeVarint tag.toNat ++ data) ++
      (e.checksum (Codec.writeVarint tag.toNat ++ data)).1).length ≤ 86 := by
    rw [List.length_append, List.length_append,
      (e.checksum (Codec.writeVarint tag.toNat ++ data)).2, Base58.addrChecksumSize]
    omega
  rw [Base58.encodeAddr, outerBlobSize, Base58.length_encode]
  -- twelve full blocks are 96 bytes
  have hsizes : ∀ size < 8, Base58.encodedBlockSizes.getD size 0 < 11 ∧
      (Base58.encodedBlockSizes.getD size 0 = 0 → size = 0) := by decide
  have := hsizes _ (Nat.mod_lt ((Codec.writeVarint tag.toNat ++ data) ++
    (e.checksum (Codec.writeVarint tag.toNat ++ data)).1).length (by decide))
  omega

theorem fromStr_accountAddress (hnet : net.Distinct) (hkeys : e.ValidKeys adr) (subaddress : Bool) :
    e.getAccountAddressFromStr net (e.getAccountAddressAsStr net subaddress adr) =
      some ⟨adr, subaddress, none⟩ := by
  have hread : parseBinary accountPublicAddress
      (adr.spendPublicKey.1 ++ adr.viewPublicKey.1) = some adr :=
    parseBinary_eq_some_iff.mpr (accountPublicAddress_read_iff.mpr (by rw [List.append_nil]))
  have hlen : (adr.spendPublicKey.1 ++ adr.viewPublicKey.1).length ≤ 72 := by
    rw [List.length_append, adr.spendPublicKey.2, adr.viewPublicKey.2]
    decide
  rw [getAccountAddressFromStr, getAccountAddressAsStr, if_pos (length_encodeAddr_ne _ hlen),
    addressFromBase58, (Base58.decodeAddr_eq_some_iff (append_blob_ne_nil _ _)).mpr rfl]
  cases subaddress with
  | false =>
    simp only [Bool.false_eq_true, if_false, if_neg hnet.integrated_address, if_true, hread]
    simp [Option.filter, hkeys.1, hkeys.2]
  | true =>
    simp only [if_true, if_neg hnet.integrated_subaddress, if_neg hnet.address_subaddress, hread]
    simp [Option.filter, hkeys.1, hkeys.2]

theorem fromStr_integratedAddress (hkeys : e.ValidKeys adr) (paymentId : Blob 8) :
    e.getAccountAddressFromStr net (e.getAccountIntegratedAddressAsStr net adr paymentId) =
      some ⟨adr, false, some paymentId⟩ := by
  have hread : parseBinary integratedAddress
      (adr.spendPublicKey.1 ++ (adr.viewPublicKey.1 ++ paymentId.1)) = some ⟨adr, paymentId⟩ :=
    parseBinary_eq_some_iff.mpr (integratedAddress_read_iff.mpr (by rw [List.append_nil]))
  have hlen : (adr.spendPublicKey.1 ++ (adr.viewPublicKey.1 ++ paymentId.1)).length ≤ 72 := by
    rw [List.length_append, List.length_append, adr.spendPublicKey.2, adr.viewPublicKey.2,
      paymentId.2]
  rw [getAccountAddressFromStr, getAccountIntegratedAddressAsStr, List.append_assoc,
    if_pos (length_encodeAddr_ne _ hlen), addressFromBase58,
    (Base58.decodeAddr_eq_some_iff (append_blob_ne_nil _ _)).mpr rfl]
  simp only [if_true, hread]
  simp [Option.filter, hkeys.1, hkeys.2]

/-- **Address strings are canonical.** On a network with three different prefixes, a string
the base 58 branch accepts is the string of what it is parsed to; and an address of valid
keys is parsed back from its string, whichever of the three kinds it is written as. -/
theorem address_canonical (e : Env) (net : Prefixes) (hnet : net.Distinct) :
    (∀ str info, 2 * outerBlobSize ≠ str.length →
        e.getAccountAddressFromStr net str = some info → e.infoAsStr net info = str) ∧
      ∀ adr, e.ValidKeys adr →
        e.getAccountAddressFromStr net (e.getAccountAddressAsStr net false adr) =
          some ⟨adr, false, none⟩ ∧
        e.getAccountAddressFromStr net (e.getAccountAddressAsStr net true adr) =
          some ⟨adr, true, none⟩ ∧
        ∀ paymentId,
          e.getAccountAddressFromStr net
            (e.getAccountIntegratedAddressAsStr net adr paymentId) =
              some ⟨adr, false, some paymentId⟩ := by
  refine ⟨fun str info hlen h => ?_, fun adr hkeys => ?_⟩
  · rw [getAccountAddressFromStr, if_pos hlen] at h
    exact infoAsStr_of_addressFromBase58 h
  · exact ⟨fromStr_accountAddress hnet hkeys false, fromStr_accountAddress hnet hkeys true,
      fromStr_integratedAddress hkeys⟩

/-- The main network, under a checksum of zeros and with every key valid: an address
written as a subaddress comes back as one. -/
theorem address_canonical_mainnet :
    let e : Env := ⟨fun _ => ⟨[0, 0, 0, 0], rfl⟩, fun _ => true⟩
    let key : Blob 32 := ⟨List.replicate 32 7, by decide⟩
    Prefixes.mainnet.Distinct ∧
      e.getAccountAddressFromStr .mainnet (e.getAccountAddressAsStr .mainnet true ⟨key, key⟩) =
        some ⟨⟨key, key⟩, true, none⟩ :=
  ⟨Prefixes.mainnet_distinct,
    ((address_canonical _ .mainnet Prefixes.mainnet_distinct).2 _ ⟨rfl, rfl⟩).2.1⟩

end Env

end Address

end Oxyra
