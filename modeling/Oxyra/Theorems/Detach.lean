import Oxyra.Core.Wallet

/-!
# Detaching blocks from a wallet

Five containers are cut by one call: the transfers where the first one at the height
stands, their uses from the back, the two maps into the transfers entry by entry, the
payments and confirmed transactions one by one.

* `detach_restores_index`: on a wallet whose transfers are in the order of their
  heights and whose maps are the maps of its transfers, the call succeeds, leaves
  nothing at the height or above, and the maps are those of the transfers that stay.
* The hash chain that was cut is put back by `reattach_blockchain`.
-/

namespace Oxyra

namespace Wallet

open Truncate

variable {w : Wallet} {height : Nat}

/-! ## The wallets the result is about -/

/-- What a transfer is filed under in `m_pub_keys`. -/
def TransferDetails.publicKey? (td : TransferDetails) : Option PublicKey :=
  td.getPublicKey.toOption

/-- `m_key_images` sends exactly the known, non-partial key images to their transfers. -/
def KeyImagesExact (w : Wallet) : Prop :=
  IsIndex TransferDetails.keyImageKey w.transfers w.keyImages

/-- `m_pub_keys` sends exactly the public keys to their transfers, and every transfer
has one. -/
structure PubKeysExact (w : Wallet) : Prop where
  index : IsIndex TransferDetails.publicKey? w.transfers w.pubKeys
  keyed : ∀ td ∈ w.transfers, td.publicKey?.isSome

/-- The transfers and their uses are in the order of their heights, and the maps are
those of the transfers. -/
structure Indexed (w : Wallet) : Prop where
  transfers : w.transfers.Pairwise fun a b => a.blockHeight ≤ b.blockHeight
  uses : ∀ td ∈ w.transfers, td.uses.Pairwise fun a b => a.1 ≤ b.1
  keyImages : w.KeyImagesExact
  pubKeys : w.PubKeysExact

/-- A transfer once the blocks at `height` and above are gone. -/
def TransferDetails.below (height : Nat) (td : TransferDetails) : TransferDetails :=
  { td.resetSpent height with uses := td.uses.filter fun use => use.1 < height }

/-! ## The loops over the maps -/

section EraseKeys

variable {κ : Type} [DecidableEq κ] {key : TransferDetails → Except Error (Option κ)}
  {key' : TransferDetails → Option κ} (missing : Nat → κ → Nat → Error)
  {l tds : List TransferDetails} {start i : Nat} {m : List (κ × Nat)}

/-- **What the loop leaves.** The invariant is that the map has the keys in front of
`start` and those the loop has not come to. -/
theorem eraseKeys_spec (hl : l.drop i = tds) (hi : start ≤ i)
    (hkey : ∀ td ∈ tds, key td = .ok (key' td))
    (hm : IndexOn key' l (fun j => j < start ∨ i ≤ j) m) :
    ∃ m', eraseKeys key missing i tds m = .ok m' ∧ IndexOn key' l (· < start) m' := by
  induction tds generalizing i m with
  | nil =>
    refine ⟨m, rfl, hm.congr fun j hj => ?_⟩
    have hlen : l.length ≤ i := List.drop_eq_nil_iff.mp hl
    omega
  | cons td tds ih =>
    have hat : l[i]? = some td := by
      rw [← List.head?_drop, hl, List.head?_cons]
    have hrest : l.drop (i + 1) = tds := by
      rw [← List.drop_drop, hl, List.drop_succ_cons, List.drop_zero]
    -- the position the loop is at leaves the index
    have hdone : ∀ m', IndexOn key' l (fun j => (j < start ∨ i ≤ j) ∧ j ≠ i) m' →
        IndexOn key' l (fun j => j < start ∨ i + 1 ≤ j) m' := fun m' h =>
      h.congr fun j _ => by omega
    have hnext := fun m' => ih (m := m') hrest (by omega)
      fun td' htd => hkey td' (List.mem_cons_of_mem _ htd)
    have hk := hkey td List.mem_cons_self
    rw [eraseKeys, hk]
    cases hkey' : key' td with
    | none => exact hnext m (hdone m (hm.skip hat hkey'))
    | some k =>
      have hlook : m.lookup k = some i := (hm k i).mpr ⟨.inr le_rfl, td, hat, hkey'⟩
      simp only [hlook, Option.isNone_some, Bool.false_eq_true, if_false]
      exact hnext _ (hdone _ (hm.erase (.inr le_rfl) hat hkey'))

theorem eraseKeys_tail (hkey : ∀ td ∈ l.drop start, key td = .ok (key' td))
    (hm : IsIndex key' l m) :
    ∃ m', eraseKeys key missing start (l.drop start) m = .ok m' ∧
      IsIndex key' (l.take start) m' := by
  have hall : IndexOn key' l (fun j => j < start ∨ start ≤ j) m :=
    hm.congr fun j _ => iff_of_true trivial (lt_or_ge j start)
  obtain ⟨m', hok, hm'⟩ := eraseKeys_spec missing rfl le_rfl hkey hall
  exact ⟨m', hok, hm'.take⟩

end EraseKeys

theorem eraseKeyImages_tail {l : List TransferDetails} {m : List (KeyImage × Nat)} (start : Nat)
    (hm : IsIndex TransferDetails.keyImageKey l m) :
    ∃ m', eraseKeyImages start (l.drop start) m = .ok m' ∧
      IsIndex TransferDetails.keyImageKey (l.take start) m' :=
  eraseKeys_tail .keyImageNotFound (fun _ _ => rfl) hm

theorem getPublicKey_of_publicKey? {td : TransferDetails} (h : td.publicKey?.isSome) :
    td.getPublicKey.map some = .ok td.publicKey? := by
  unfold TransferDetails.publicKey? at *
  cases hk : td.getPublicKey with
  | error e => simp [hk, Except.toOption] at h
  | ok k => rfl

theorem erasePubKeys_tail {l : List TransferDetails} {m : List (PublicKey × Nat)} (start : Nat)
    (hkeyed : ∀ td ∈ l, td.publicKey?.isSome) (hm : IsIndex TransferDetails.publicKey? l m) :
    ∃ m', erasePubKeys start (l.drop start) m = .ok m' ∧
      IsIndex TransferDetails.publicKey? (l.take start) m' :=
  eraseKeys_tail _
    (fun td htd => getPublicKey_of_publicKey? (hkeyed td (List.mem_of_mem_drop htd))) hm

/-! ## What the loops over the transfers leave alone -/

@[simp] theorem resetSpent_keyImageKey (td : TransferDetails) :
    ((td.resetSpent height).popUses height).keyImageKey = td.keyImageKey := by
  unfold TransferDetails.popUses TransferDetails.resetSpent
  split <;> rfl

@[simp] theorem resetSpent_publicKey? (td : TransferDetails) :
    ((td.resetSpent height).popUses height).publicKey? = td.publicKey? := by
  unfold TransferDetails.popUses TransferDetails.resetSpent
  split <;> rfl

@[simp] theorem resetSpent_blockHeight (td : TransferDetails) :
    (td.resetSpent height).blockHeight = td.blockHeight := by
  unfold TransferDetails.resetSpent
  split <;> rfl

@[simp] theorem resetSpent_uses (td : TransferDetails) :
    (td.resetSpent height).uses = td.uses := by
  unfold TransferDetails.resetSpent
  split <;> rfl

theorem popUses_resetSpent {td : TransferDetails} (h : td.uses.Pairwise fun a b => a.1 ≤ b.1) :
    (td.resetSpent height).popUses height = td.below height := by
  unfold TransferDetails.popUses TransferDetails.below
  rw [resetSpent_uses, rdropWhile_of_ordered Prod.fst height h]

/-! ## The hash chain -/

namespace HashChain

variable {c : HashChain} {hashes : List Hash}

@[simp] theorem pushAll_offset : (c.pushAll hashes).offset = c.offset := by
  unfold pushAll
  induction hashes generalizing c with
  | nil => rfl
  | cons h hashes ih => exact ih

@[simp] theorem pushAll_blockchain : (c.pushAll hashes).blockchain = c.blockchain ++ hashes := by
  unfold pushAll
  induction hashes generalizing c with
  | nil => exact (List.append_nil _).symm
  | cons h hashes ih =>
    rw [List.foldl_cons, ih, pushBack, List.append_assoc]
    rfl

theorem pushAll_genesis (h : c.offset ≠ 0 ∨ c.blockchain ≠ []) :
    (c.pushAll hashes).genesis = c.genesis := by
  unfold pushAll
  induction hashes generalizing c with
  | nil => rfl
  | cons hash hashes ih =>
    rw [List.foldl_cons, ih (.inr (by simp [pushBack])), pushBack]
    exact if_neg (by tauto)

/-- The recorded genesis hash is the first hash of a chain that starts at 0, as
`push_back` makes it. -/
def GenesisFirst (c : HashChain) : Prop :=
  c.offset = 0 → ∀ hash ∈ c.blockchain.head?, c.genesis = hash

theorem pushAll_crop_genesis (hgen : c.GenesisFirst) :
    ((c.crop height).pushAll (c.fromHeight height)).genesis = c.genesis := by
  by_cases hempty : c.offset ≠ 0 ∨ (c.crop height).blockchain ≠ []
  · exact pushAll_genesis hempty
  · -- everything is pushed again, the first hash included
    obtain ⟨hoff, hcrop⟩ : c.offset = 0 ∧ (c.crop height).blockchain = [] := by tauto
    have hall : c.fromHeight height = c.blockchain := by
      have h := List.take_append_drop (height - c.offset) c.blockchain
      rw [show c.blockchain.take (height - c.offset) = [] from hcrop] at h
      exact h
    rw [hall]
    cases hb : c.blockchain with
    | nil => rfl
    | cons hash hashes =>
      have hfirst : ((c.crop height).pushBack hash).genesis = hash :=
        if_pos ⟨hoff, hcrop⟩
      have hrest : (((c.crop height).pushBack hash).pushAll hashes).genesis =
          ((c.crop height).pushBack hash).genesis :=
        pushAll_genesis (.inr (by simp [pushBack]))
      rw [show (c.crop height).pushAll (hash :: hashes) =
        ((c.crop height).pushBack hash).pushAll hashes from rfl, hrest, hfirst]
      exact (hgen hoff hash (by rw [hb]; rfl)).symm

end HashChain

theorem reattachBlockchain_detach {c : HashChain} {dbd : DetachedBlockchainData}
    (hlo : c.offset ≤ height) (hhi : height ≤ c.size)
    (hdetached : dbd.detachedBlockchain = (c.detach height).2)
    (hsize : dbd.originalChainSize = c.size) :
    ∃ c', reattachBlockchain (c.detach height).1 dbd = .ok c' ∧
      c'.offset = c.offset ∧ c'.blockchain = c.blockchain ∧ (c.GenesisFirst → c' = c) := by
  have hblocks : ((c.crop height).pushAll (c.fromHeight height)).blockchain = c.blockchain := by
    rw [HashChain.pushAll_blockchain]
    exact List.take_append_drop _ _
  have hoffset : ((c.crop height).pushAll (c.fromHeight height)).offset = c.offset :=
    HashChain.pushAll_offset
  refine ⟨(c.crop height).pushAll (c.fromHeight height), ?_, hoffset, hblocks, fun hgen => ?_⟩
  · have hfrom : dbd.detachedBlockchain.blockchain = c.fromHeight height := by
      rw [hdetached, HashChain.detach, if_pos ⟨hhi, hlo⟩, HashChain.pushAll_blockchain]
      rfl
    have hkept : (c.detach height).1 = c.crop height := by
      rw [HashChain.detach, if_pos ⟨hhi, hlo⟩]
    have hsame : ((c.crop height).pushAll (c.fromHeight height)).size = c.size := by
      rw [HashChain.size, hblocks, hoffset, HashChain.size]
    rw [reattachBlockchain, hfrom, hkept, hsize]
    exact if_neg (by simpa using hsame)
  · exact HashChain.ext hoffset (HashChain.pushAll_crop_genesis hgen) hblocks

/-! ## The whole call -/

@[simp] theorem below_blockHeight (td : TransferDetails) :
    (td.below height).blockHeight = td.blockHeight := resetSpent_blockHeight td

@[simp] theorem below_keyImageKey (td : TransferDetails) :
    (td.below height).keyImageKey = td.keyImageKey := resetSpent_keyImageKey td

@[simp] theorem below_publicKey? (td : TransferDetails) :
    (td.below height).publicKey? = td.publicKey? := resetSpent_publicKey? td

theorem map_popUses_resetSpent (hw : w.Indexed) :
    (w.transfers.map (·.resetSpent height)).map (·.popUses height) =
      w.transfers.map (·.below height) := by
  rw [List.map_map]
  exact List.map_congr_left fun td htd => popUses_resetSpent (hw.uses td htd)

theorem take_below (hw : w.Indexed) :
    (w.transfers.map (·.below height)).take
        ((w.transfers.map (·.below height)).findIdx fun td => height ≤ td.blockHeight) =
      (w.transfers.filter fun td => td.blockHeight < height).map (·.below height) := by
  have hordered : (w.transfers.map (·.below height)).Pairwise
      fun a b => a.blockHeight ≤ b.blockHeight := by
    refine List.pairwise_map.mpr (hw.transfers.imp fun {a b} hab => ?_)
    rwa [below_blockHeight, below_blockHeight]
  rw [take_findIdx_of_ordered TransferDetails.blockHeight height hordered, List.filter_map]
  congr 1
  exact List.filter_congr fun td _ => by simp

theorem not_le_filter {α : Type} (rank : α → Nat) (l : List α) :
    (l.filter fun a => ¬ height ≤ rank a) = l.filter fun a => rank a < height :=
  List.filter_congr fun a _ => by simp

theorem detachBlockchain_ok (hw : w.Indexed) (height : Nat)
    (outputTrackerCache : Option OutputTracker) :
    ∃ w' dbd, w.detachBlockchain height outputTrackerCache =
        .ok (w', outputTrackerCache.map fun _ => [], dbd) ∧
      w'.transfers =
        (w.transfers.filter fun td => td.blockHeight < height).map (·.below height) ∧
      IsIndex TransferDetails.keyImageKey w'.transfers w'.keyImages ∧
      IsIndex TransferDetails.publicKey? w'.transfers w'.pubKeys ∧
      w'.payments = w.payments.filter (fun e => e.2.blockHeight < height) ∧
      w'.confirmedTxs = w.confirmedTxs.filter (fun e => e.2.blockHeight < height) ∧
      w'.blockchain = (w.blockchain.detach height).1 ∧
      dbd.detachedBlockchain = (w.blockchain.detach height).2 ∧
      dbd.originalChainSize = w.blockchain.size := by
  have hki : IsIndex TransferDetails.keyImageKey (w.transfers.map (·.below height))
      w.keyImages := hw.keyImages.map below_keyImageKey
  have hpk : IsIndex TransferDetails.publicKey? (w.transfers.map (·.below height))
      w.pubKeys := hw.pubKeys.index.map below_publicKey?
  have hkeyed : ∀ td ∈ w.transfers.map (·.below height), td.publicKey?.isSome := by
    intro td htd
    obtain ⟨td', htd', rfl⟩ := List.mem_map.mp htd
    rw [below_publicKey?]
    exact hw.pubKeys.keyed td' htd'
  obtain ⟨keyImages, heraseKi, hkeyImages⟩ := eraseKeyImages_tail
    ((w.transfers.map (·.below height)).findIdx fun td => height ≤ td.blockHeight) hki
  obtain ⟨pubKeys, herasePk, hpubKeys⟩ := erasePubKeys_tail
    ((w.transfers.map (·.below height)).findIdx fun td => height ≤ td.blockHeight) hkeyed hpk
  rw [take_below hw] at hkeyImages hpubKeys
  unfold detachBlockchain
  simp only [map_popUses_resetSpent hw, heraseKi, herasePk, take_below hw]
  exact ⟨_, _, rfl, rfl, hkeyImages, hpubKeys, not_le_filter _ _, not_le_filter _ _, rfl, rfl, rfl⟩

/-- **Detaching blocks.** On a wallet whose transfers and uses are in order and whose
maps are those of its transfers, `detach_blockchain` succeeds. Nothing at the height or
above stays; the maps are those of the transfers that do; a transfer that stays is
unspent and thawed where it was spent at the height or above, its uses are cut, and
otherwise it is as it was. The hash chain is the old one again once it is reattached. -/
theorem detach_restores_index (w : Wallet) (height : Nat)
    (outputTrackerCache : Option OutputTracker) (hw : w.Indexed) :
    ∃ w' dbd, w.detachBlockchain height outputTrackerCache =
        .ok (w', outputTrackerCache.map fun _ => [], dbd) ∧
      (∀ td ∈ w'.transfers, td.blockHeight < height ∧ ∀ use ∈ td.uses, use.1 < height) ∧
      (∀ e ∈ w'.payments, e.2.blockHeight < height) ∧
      (∀ e ∈ w'.confirmedTxs, e.2.blockHeight < height) ∧
      w'.KeyImagesExact ∧ w'.PubKeysExact ∧
      w'.transfers =
        (w.transfers.filter fun td => td.blockHeight < height).map (fun td =>
          { (if td.spent ∧ height ≤ td.spentHeight then
              { td with spent := false, spentHeight := 0, frozen := false } else td) with
            uses := td.uses.filter fun use => use.1 < height }) ∧
      w'.payments = w.payments.filter (fun e => e.2.blockHeight < height) ∧
      w'.confirmedTxs = w.confirmedTxs.filter (fun e => e.2.blockHeight < height) ∧
      (w.blockchain.offset ≤ height → height ≤ w.blockchain.size →
        ∃ c, reattachBlockchain w'.blockchain dbd = .ok c ∧
          c.offset = w.blockchain.offset ∧ c.blockchain = w.blockchain.blockchain ∧
          (w.blockchain.GenesisFirst → c = w.blockchain)) := by
  obtain ⟨w', dbd, hok, htransfers, hki, hpk, hpayments, hconfirmed, hchain, hdetached, hsize⟩ :=
    detachBlockchain_ok hw height outputTrackerCache
  have hkept : ∀ td ∈ w'.transfers, ∃ td' ∈ w.transfers, td'.blockHeight < height ∧
      td = td'.below height := by
    intro td htd
    rw [htransfers] at htd
    obtain ⟨td', htd', rfl⟩ := List.mem_map.mp htd
    obtain ⟨hmem, hlow⟩ := List.mem_filter.mp htd'
    exact ⟨td', hmem, by simpa using hlow, rfl⟩
  refine ⟨w', dbd, hok, ?_, ?_, ?_, hki, ⟨hpk, ?_⟩, htransfers, hpayments, hconfirmed, ?_⟩
  · intro td htd
    obtain ⟨td', -, hlow, rfl⟩ := hkept td htd
    exact ⟨by rwa [below_blockHeight], fun use huse => by simpa using (List.mem_filter.mp huse).2⟩
  · intro e he
    rw [hpayments] at he
    simpa using (List.mem_filter.mp he).2
  · intro e he
    rw [hconfirmed] at he
    simpa using (List.mem_filter.mp he).2
  · intro td htd
    obtain ⟨td', hmem, -, rfl⟩ := hkept td htd
    rw [below_publicKey?]
    exact hw.pubKeys.keyed td' hmem
  · intro hlo hhi
    rw [hchain]
    exact reattachBlockchain_detach hlo hhi hdetached hsize

/-- An output received at a height under a public key, with its key image and the height
it was spent at where there is one. -/
def received (blockHeight : Nat) (key : PublicKey) (keyImage : Option KeyImage)
    (spentHeight : Option Nat) : TransferDetails :=
  { blockHeight, tx := { vout := [⟨0, .toKey key⟩] }, txid := key, internalOutputIndex := 0,
    globalOutputIndex := 0, spent := spentHeight.isSome, frozen := spentHeight.isSome,
    spentHeight := spentHeight.getD 0, keyImage := keyImage.getD 0, mask := 0, amount := 1,
    rct := true, keyImageKnown := keyImage.isSome, keyImageRequest := false, pkIndex := 0,
    subaddrIndex := (0, 0), keyImagePartial := false, multisigK := [], multisigInfo := [],
    uses := [(blockHeight, 0), (blockHeight + 4, 1)] }

/-- An output that was spent at height 9, and a later one whose key image is not known. -/
def twoReceived : Wallet :=
  { transfers := [received 5 1 (some 7) (some 9), received 8 2 none none],
    keyImages := [(7, 0)], pubKeys := [(1, 0), (2, 1)],
    blockchain := { genesis := 10, blockchain := [10, 11, 12, 13, 14, 15, 16, 17, 18, 19] },
    payments := [(0, ⟨1, 1, 5⟩), (0, ⟨2, 1, 8⟩)], confirmedTxs := [(3, ⟨9, []⟩)],
    backgroundSyncTxs := [] }

theorem twoReceived_indexed : twoReceived.Indexed where
  transfers := by decide +kernel
  uses := by decide +kernel
  keyImages := by
    intro k i
    constructor
    · intro h
      have hmem := Keyed.mem_of_lookup h
      obtain ⟨rfl, rfl⟩ : k = 7 ∧ i = 0 := by simpa [twoReceived] using hmem
      exact ⟨trivial, _, rfl, rfl⟩
    · rintro ⟨-, td, htd, hk⟩
      match i with
      | 0 =>
        cases htd
        cases hk
        rfl
      | 1 =>
        cases htd
        cases hk
  pubKeys := by
    refine ⟨?_, by decide +kernel⟩
    intro k i
    constructor
    · intro h
      have hmem := Keyed.mem_of_lookup h
      obtain ⟨rfl, rfl⟩ | ⟨rfl, rfl⟩ : k = 1 ∧ i = 0 ∨ k = 2 ∧ i = 1 := by
        simpa [twoReceived] using hmem
      · exact ⟨trivial, _, rfl, rfl⟩
      · exact ⟨trivial, _, rfl, rfl⟩
    · rintro ⟨-, td, htd, hk⟩
      match i with
      | 0 =>
        cases htd
        cases hk
        rfl
      | 1 =>
        cases htd
        cases hk
        rfl

/-- Back to height 8: the first output is unspent again, and the chain can be put back. -/
theorem detach_restores_index_twoReceived :
    twoReceived.Indexed ∧ ∃ w' dbd, twoReceived.detachBlockchain 8 none = .ok (w', none, dbd) ∧
      w'.KeyImagesExact ∧ w'.PubKeysExact ∧
      reattachBlockchain w'.blockchain dbd = .ok twoReceived.blockchain := by
  obtain ⟨w', dbd, hok, -, -, -, hki, hpk, -, -, -, hchain⟩ :=
    detach_restores_index twoReceived 8 none twoReceived_indexed
  obtain ⟨c, hc, -, -, hsame⟩ := hchain (by decide) (by decide)
  have hgen : twoReceived.blockchain.GenesisFirst := by
    rintro - hash hhash
    cases hhash
    rfl
  exact ⟨twoReceived_indexed, w', dbd, hok, hki, hpk, by rw [hc, hsame hgen]⟩

end Wallet

end Oxyra
