import Oxyra.Lib.SetMap
import Oxyra.Logic.PoolSteps
import Oxyra.Core.TxSemantic

/-!
# The key-image index of the pool

`insert_key_images` and `remove_transaction_keyimages` go over the inputs of a
transaction and may stop half way. The lemmas say what each does to the set of an image,
wherever it stops.

* What is filed only grows, and only by the id that is filed
  (`mem_insertKeyImages_of_mem`, `mem_of_mem_insertKeyImages`).
* A transaction the pool does not hold is filed to the end, unless another one is in the
  way and it is not from a block (`insertKeyImages_ok`).
* Removal takes the id off every image, if all are different (`keyImageSet_remove`).
* `Filed` is the invariant of the tables and the index.
-/

namespace Oxyra

namespace TxPool

variable {legacy : Bool} {id x : Hash} {relay : RelayMethod} {image : KeyImage} {vin : List TxinV}
  {table : List (KeyImage × List Hash)}

def imagesOf (vin : List TxinV) : List KeyImage :=
  vin.filterMap TxinV.keyImage?

theorem mem_imagesOf_cons {amount : UInt64} {keyOffsets : List UInt64} {image' : KeyImage} :
    image ∈ imagesOf (.toKey amount keyOffsets image' :: vin) ↔
      image = image' ∨ image ∈ imagesOf vin := by
  simp [imagesOf, TxinV.keyImage?]

theorem keyImageSet_setKeyImage (image' : KeyImage) (ids : List Hash) :
    keyImageSet (setKeyImage table image' ids) image =
      if image = image' then ids else keyImageSet table image :=
  SetMap.get_put

theorem mem_filed {image' : KeyImage} :
    x ∈ keyImageSet (setKeyImage table image' (if id ∉ keyImageSet table image' then
        id :: keyImageSet table image' else keyImageSet table image')) image ↔
      x ∈ keyImageSet table image ∨ x = id ∧ image = image' := by
  rw [keyImageSet_setKeyImage]
  by_cases himage : image = image'
  · subst himage
    by_cases hid : id ∈ keyImageSet table image
    · rw [if_pos rfl, if_neg (not_not.mpr hid)]
      refine ⟨.inl, ?_⟩
      rintro (h | ⟨rfl, -⟩)
      · exact h
      · exact hid
    · rw [if_pos rfl, if_pos hid, List.mem_cons]
      tauto
  · simp [himage]

/-- What `insert_key_images` does, as far as it gets: a property of the table that filing
the id under one of the images keeps is kept by the whole loop. -/
theorem insertKeyImages_keeps {P : List (KeyImage × List Hash) → Prop}
    (hstep : ∀ table image', image' ∈ imagesOf vin →
      (relay = .block ∨ keyImageSet table image' = [] ∨ keyImageSet table image' = [id]) → P table →
      P (setKeyImage table image' (if id ∉ keyImageSet table image' then
        id :: keyImageSet table image' else keyImageSet table image')))
    (h : P table) : P (insertKeyImages legacy id relay vin table).2 := by
  induction vin generalizing table with
  | nil => exact h
  | cons i rest ih =>
    cases i with
    | toKey amount keyOffsets image' =>
      unfold insertKeyImages
      dsimp only
      split
      · exact h
      · rename_i hone
        have hpass : relay = .block ∨ keyImageSet table image' = [] ∨
            keyImageSet table image' = [id] := by
          simpa [or_iff_not_imp_left] using hone
        have hfirst := hstep table image' (mem_imagesOf_cons.mpr (.inl rfl)) hpass h
        split
        · exact ih (fun table image hmem => hstep table image
            (mem_imagesOf_cons.mpr (.inr hmem))) hfirst
        · exact hfirst
    | gen | toScript | toScripthash => exact h

theorem mem_insertKeyImages_of_mem (h : x ∈ keyImageSet table image) :
    x ∈ keyImageSet (insertKeyImages legacy id relay vin table).2 image :=
  insertKeyImages_keeps (P := fun table => x ∈ keyImageSet table image)
    (fun _ _ _ _ h => mem_filed.mpr (.inl h)) h

theorem mem_of_mem_insertKeyImages
    (h : x ∈ keyImageSet (insertKeyImages legacy id relay vin table).2 image) :
    x ∈ keyImageSet table image ∨ x = id ∧ image ∈ imagesOf vin := by
  refine insertKeyImages_keeps (P := fun table' => x ∈ keyImageSet table' image →
    x ∈ keyImageSet table image ∨ x = id ∧ image ∈ imagesOf vin) ?_ .inl h
  intro table' image' hmem _ ih hx
  rcases mem_filed.mp hx with hx | ⟨rfl, rfl⟩
  · exact ih hx
  · exact .inr ⟨rfl, hmem⟩

theorem proper_insertKeyImages (h : SetMap.Proper table) :
    SetMap.Proper (insertKeyImages legacy id relay vin table).2 := by
  refine insertKeyImages_keeps (fun table image' _ _ h => h.put ?_) h
  split
  · rename_i hid
    exact List.nodup_cons.mpr ⟨hid, h.nodup image'⟩
  · exact h.nodup image'

/-- A loop that went to the end has filed the id under every image, alone if the transaction
is not from a block. -/
theorem insertKeyImages_filed (hok : (insertKeyImages legacy id relay vin table).1 = true)
    (hmem : image ∈ imagesOf vin) :
    id ∈ keyImageSet (insertKeyImages legacy id relay vin table).2 image ∧
      (relay ≠ .block →
        ∀ y ∈ keyImageSet (insertKeyImages legacy id relay vin table).2 image, y = id) := by
  induction vin generalizing table with
  | nil => exact absurd hmem (by simp [imagesOf])
  | cons i rest ih =>
    cases i with
    | toKey amount keyOffsets image' =>
      unfold insertKeyImages at hok ⊢
      dsimp only at hok ⊢
      split at hok
      · cases hok
      rename_i hone
      rw [if_neg hone]
      split at hok
      · rename_i hins
        rw [if_pos hins]
        rcases mem_imagesOf_cons.mp hmem with rfl | hmem
        · refine ⟨mem_insertKeyImages_of_mem (mem_filed.mpr (.inr ⟨rfl, rfl⟩)), ?_⟩
          intro hrelay y hy
          have hset : keyImageSet table image = [] ∨ keyImageSet table image = [id] := by
            simpa [hrelay, or_iff_not_imp_left] using hone
          rcases mem_of_mem_insertKeyImages hy with hy | ⟨rfl, -⟩
          · rcases mem_filed.mp hy with hy | ⟨rfl, -⟩
            · rcases hset with hset | hset <;> rw [hset] at hy
              · exact absurd hy (by simp)
              · exact List.mem_singleton.mp hy
            · rfl
          · rfl
        · exact ih hok hmem
      · cases hok
    | gen | toScript | toScripthash => cases hok

theorem insertKeyImages_ok (hkeys : vin.all TxinV.isToKey = true)
    (hfree : relay ≠ .block → ∀ image ∈ imagesOf vin,
      keyImageSet table image = [] ∨ keyImageSet table image = [id]) :
    (insertKeyImages false id relay vin table).1 = true := by
  induction vin generalizing table with
  | nil => rfl
  | cons i rest ih =>
    rw [List.all_cons, Bool.and_eq_true] at hkeys
    cases i with
    | toKey amount keyOffsets image' =>
      have hone : relay = .block ∨ keyImageSet table image' = [] ∨
          keyImageSet table image' = [id] :=
        or_iff_not_imp_left.mpr fun hrelay =>
          hfree hrelay image' (mem_imagesOf_cons.mpr (.inl rfl))
      unfold insertKeyImages
      rw [if_neg (by simpa [or_iff_not_imp_left] using hone)]
      simp only [Bool.not_false, Bool.or_true, if_true]
      refine ih hkeys.2 fun hrelay image hmem => ?_
      -- the image just filed has the id alone
      rw [keyImageSet_setKeyImage]
      split
      · rcases hone.resolve_left hrelay with hset | hset <;> simp [hset]
      · exact hfree hrelay image (mem_imagesOf_cons.mpr (.inr hmem))
    | gen | toScript | toScripthash => exact absurd hkeys.1 (by simp [TxinV.isToKey])

theorem keyImageSet_remove (hkeys : vin.all TxinV.isToKey = true) (hnd : (imagesOf vin).Nodup)
    (hin : ∀ image ∈ imagesOf vin, id ∈ keyImageSet table image) :
    keyImageSet (removeTransactionKeyimages id vin table) image =
      if image ∈ imagesOf vin then (keyImageSet table image).erase id
      else keyImageSet table image := by
  induction vin generalizing table with
  | nil => simp [imagesOf, removeTransactionKeyimages]
  | cons i rest ih =>
    rw [List.all_cons, Bool.and_eq_true] at hkeys
    cases i with
    | toKey amount keyOffsets image' =>
      have hnd' : image' ∉ imagesOf rest ∧ (imagesOf rest).Nodup := by
        simpa [imagesOf, TxinV.keyImage?] using hnd
      unfold removeTransactionKeyimages
      rw [if_pos (hin image' (mem_imagesOf_cons.mpr (.inl rfl))), ih hkeys.2 hnd'.2]
      · rw [keyImageSet_setKeyImage]
        simp only [mem_imagesOf_cons]
        by_cases himage : image = image'
        · subst himage
          simp [hnd'.1]
        · simp [himage]
      · intro image hmem
        have hne : image ≠ image' := fun heq => hnd'.1 (heq ▸ hmem)
        rw [keyImageSet_setKeyImage, if_neg hne]
        exact hin image (mem_imagesOf_cons.mpr (.inr hmem))
    | gen | toScript | toScripthash => exact absurd hkeys.1 (by simp [TxinV.isToKey])

theorem proper_remove (h : SetMap.Proper table) :
    SetMap.Proper (removeTransactionKeyimages id vin table) := by
  induction vin generalizing table with
  | nil => exact h
  | cons i rest ih =>
    cases i with
    | toKey amount keyOffsets image' =>
      unfold removeTransactionKeyimages
      dsimp only
      split
      · exact ih (h.put ((h.nodup image').erase id))
      · exact h
    | gen | toScript | toScripthash => exact h

end TxPool

end Oxyra
