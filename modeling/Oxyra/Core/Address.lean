import Mathlib
import Oxyra.Lib.Codec
import Oxyra.Lib.Numeral
import Oxyra.Core.Hex

/-!
# Address strings (`base58.cpp`, `cryptonote_basic_impl.cpp`)

An address is written as a prefix that names its kind, its keys, and a checksum, all
in blocks of base 58: eight bytes become eleven letters, and a last block that is not
full becomes as few letters as hold any bytes of its size.

Strings are lists of bytes. The hash behind the checksum and the test that a key is a
point of the curve are parameters.
-/

namespace Oxyra

open Codec (Blob)

/-! ## Base 58 -/

namespace Base58

def alphabet : List UInt8 :=
  ['1', '2', '3', '4', '5', '6', '7', '8', '9', 'A', 'B', 'C', 'D', 'E', 'F', 'G', 'H', 'J', 'K',
    'L', 'M', 'N', 'P', 'Q', 'R', 'S', 'T', 'U', 'V', 'W', 'X', 'Y', 'Z', 'a', 'b', 'c', 'd', 'e',
    'f', 'g', 'h', 'i', 'j', 'k', 'm', 'n', 'o', 'p', 'q', 'r', 's', 't', 'u', 'v', 'w', 'x', 'y',
    'z'].map Char.toUInt8

def alphabetSize : Nat := 58

def encodedBlockSizes : List Nat := [0, 2, 3, 5, 6, 7, 9, 10, 11]

def fullBlockSize : Nat := 8

def fullEncodedBlockSize : Nat := 11

def addrChecksumSize : Nat := 4

/-- The letter of a digit. -/
def letter (digit : Nat) : UInt8 := alphabet.getD digit 0

/-- `reverse_alphabet`: -1 is `none`. -/
def reverseAlphabet (letter : UInt8) : Option Nat :=
  if letter ∈ alphabet then some (alphabet.idxOf letter) else none

/-- `decoded_block_sizes`: -1 is `none`. -/
def decodedBlockSize (encodedBlockSize : Nat) : Option Nat :=
  if encodedBlockSize ∈ encodedBlockSizes then some (encodedBlockSizes.idxOf encodedBlockSize)
  else none

def uint8beTo64 (data : List UInt8) : Nat :=
  Numeral.ofBytes data.reverse

def uint64To8be (num size : Nat) : List UInt8 :=
  (Numeral.toBytes size num).reverse

/-- The loop of `encode_block`, from the last letter on. Where nothing is left of the
number the letters stay as the string was filled, with the first of the alphabet. -/
def encodeLoop : Nat → Nat → List UInt8
  | 0, _ => []
  | i + 1, num =>
    if 0 < num then letter (num % alphabetSize) :: encodeLoop i (num / alphabetSize)
    else letter 0 :: encodeLoop i num

def encodeBlock (block : List UInt8) : List UInt8 :=
  (encodeLoop (encodedBlockSizes.getD block.length 0) (uint8beTo64 block)).reverse

/-- The loop of `decode_block`, from the last letter on, in 64 bits: `mul128` has a high
word where the product does not fit. -/
def decodeLoop : List UInt8 → Nat → Nat → Option Nat
  | [], resNum, _ => some resNum
  | letter :: letters, resNum, order =>
    match reverseAlphabet letter with
    | none => none
    | some digit =>
      let productHi := order * digit / 2 ^ 64
      let tmp := (resNum + order * digit % 2 ^ 64) % 2 ^ 64
      if tmp < resNum ∨ 0 ≠ productHi then none
      else decodeLoop letters tmp (order * alphabetSize % 2 ^ 64)

def decodeBlock (block : List UInt8) : Option (List UInt8) :=
  match decodedBlockSize block.length with
  | none => none
  | some resSize =>
    if resSize ≤ 0 then none
    else
      match decodeLoop block.reverse 0 1 with
      | none => none
      | some resNum =>
        if resSize < fullBlockSize ∧ 2 ^ (8 * resSize) ≤ resNum then none
        else some (uint64To8be resNum resSize)

/-- `encode`, for so many full blocks and what comes after them. -/
def encodeBlocks : Nat → List UInt8 → List UInt8
  | 0, last => if 0 < last.length then encodeBlock last else []
  | fullBlockCount + 1, data =>
    encodeBlock (data.take fullBlockSize) ++ encodeBlocks fullBlockCount (data.drop fullBlockSize)

def encode (data : List UInt8) : List UInt8 :=
  if data.isEmpty then [] else encodeBlocks (data.length / fullBlockSize) data

/-- `decode`, for so many full blocks and what comes after them. -/
def decodeBlocks : Nat → List UInt8 → Option (List UInt8)
  | 0, last => if 0 < last.length then decodeBlock last else some []
  | fullBlockCount + 1, enc =>
    match decodeBlock (enc.take fullEncodedBlockSize) with
    | none => none
    | some block =>
      (decodeBlocks fullBlockCount (enc.drop fullEncodedBlockSize)).map (block ++ ·)

def decode (enc : List UInt8) : Option (List UInt8) :=
  if enc.isEmpty then some []
  else if decodedBlockSize (enc.length % fullEncodedBlockSize) = none then none
  else decodeBlocks (enc.length / fullEncodedBlockSize) enc

def encodeAddr (checksum : List UInt8 → Blob addrChecksumSize) (tag : UInt64)
    (data : List UInt8) : List UInt8 :=
  let buf := Codec.writeVarint tag.toNat ++ data
  encode (buf ++ (checksum buf).1)

/-- `decode_addr`. The reader of the tag lets the end of the data stand for its end. -/
def decodeAddr (checksum : List UInt8 → Blob addrChecksumSize) (addr : List UInt8) :
    Option (UInt64 × List UInt8) :=
  match decode addr with
  | none => none
  | some addrData =>
    if addrData.length ≤ addrChecksumSize then none
    else
      let buf := addrData.take (addrData.length - addrChecksumSize)
      if (checksum buf).1 ≠ addrData.drop (addrData.length - addrChecksumSize) then none
      else Codec.varint64.read .lenient buf

end Base58

/-! ## Addresses -/

namespace Address

structure AccountPublicAddress where
  spendPublicKey : Blob 32
  viewPublicKey : Blob 32
deriving DecidableEq

structure IntegratedAddress where
  adr : AccountPublicAddress
  paymentId : Blob 8
deriving DecidableEq

/-- The layout of the two keys. -/
def accountPublicAddress : Codec AccountPublicAddress :=
  ((Codec.blob 32).seq (Codec.blob 32)).map (fun ⟨spend, view⟩ => ⟨spend, view⟩)
    (fun v => ⟨v.spendPublicKey, v.viewPublicKey⟩) fun _ => rfl

/-- The layout of the keys and the payment id. -/
def integratedAddress : Codec IntegratedAddress :=
  (accountPublicAddress.seq (Codec.blob 8)).map (fun ⟨adr, paymentId⟩ => ⟨adr, paymentId⟩)
    (fun v => ⟨v.adr, v.paymentId⟩) fun _ => rfl

/-- The prefixes of a network, from `get_config`. -/
structure Prefixes where
  publicAddress : UInt64
  publicIntegratedAddress : UInt64
  publicSubaddress : UInt64
deriving DecidableEq

/-- The prefixes of the main network. -/
def Prefixes.mainnet : Prefixes := ⟨18, 19, 42⟩

/-- The hash and the curve test the address code calls. -/
structure Env where
  checksum : List UInt8 → Blob Base58.addrChecksumSize
  checkKey : Blob 32 → Bool

/-- `address_parse_info`; `has_payment_id` says whether there is a payment id. -/
structure ParseInfo where
  address : AccountPublicAddress
  isSubaddress : Bool
  paymentId : Option (Blob 8)
deriving DecidableEq

namespace Env

def getAccountAddressAsStr (e : Env) (net : Prefixes) (subaddress : Bool)
    (adr : AccountPublicAddress) : List UInt8 :=
  let addressPrefix := if subaddress then net.publicSubaddress else net.publicAddress
  Base58.encodeAddr e.checksum addressPrefix (adr.spendPublicKey.1 ++ adr.viewPublicKey.1)

def getAccountIntegratedAddressAsStr (e : Env) (net : Prefixes)
    (adr : AccountPublicAddress) (paymentId : Blob 8) : List UInt8 :=
  Base58.encodeAddr e.checksum net.publicIntegratedAddress
    (adr.spendPublicKey.1 ++ adr.viewPublicKey.1 ++ paymentId.1)

/-- `parse_binary`: the whole blob is one value. -/
def parseBinary {α : Type} (c : Codec α) (blob : List UInt8) : Option α :=
  match c.read .lenient blob with
  | some (v, []) => some v
  | _ => none

/-- The base 58 branch of `get_account_address_from_str`. -/
def addressFromBase58 (e : Env) (net : Prefixes) (str : List UInt8) :
    Option ParseInfo :=
  match Base58.decodeAddr e.checksum str with
  | none => none
  | some (tag, data) =>
    let info :=
      if net.publicIntegratedAddress = tag then
        (parseBinary integratedAddress data).map fun iadr =>
          ⟨iadr.adr, false, some iadr.paymentId⟩
      else if net.publicAddress = tag then
        (parseBinary accountPublicAddress data).map fun adr => ⟨adr, false, none⟩
      else if net.publicSubaddress = tag then
        (parseBinary accountPublicAddress data).map fun adr => ⟨adr, true, none⟩
      else none
    info.filter fun info =>
      e.checkKey info.address.spendPublicKey && e.checkKey info.address.viewPublicKey

def parseHexstrToBinbuff (s : List UInt8) : Option (List UInt8) := Hex.fromHexToString s

/-- The other branch, the old format: a version byte, the keys, and the sum of the bytes
before it. The keys are not checked. -/
def addressFromHex (str : List UInt8) : Option ParseInfo :=
  match parseHexstrToBinbuff str with
  | none => none
  | some buff =>
    match (Codec.byte.seq (accountPublicAddress.seq Codec.byte)).read .strict buff with
    | some (⟨ver, ⟨address, checkSum⟩⟩, []) =>
      if ver > 0 then none
      else if checkSum ≠ (buff.take 65).sum then none
      else some ⟨address, false, none⟩
    | _ => none

/-- `sizeof(public_address_outer_blob)` -/
def outerBlobSize : Nat := 66

def getAccountAddressFromStr (e : Env) (net : Prefixes) (str : List UInt8) :
    Option ParseInfo :=
  if 2 * outerBlobSize ≠ str.length then e.addressFromBase58 net str else addressFromHex str

end Env

end Address

end Oxyra
