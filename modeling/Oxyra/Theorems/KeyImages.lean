import Oxyra.Logic.KeyImages
import Oxyra.Logic.Regtest

/-!
# The key-image index is exact

Double spends inside the pool are found through `m_spent_key_images`. After any history
it relates an image to the transactions in the pool that spend it and to no others, and
two transactions share an image only if all but one of them came from a block.

The functions that keep the index may stop half way. They do not, because
`check_tx_semantic` has let in only transactions with different key images, because the
hash of a transaction commits to them, and because `add_tx` looks for spent images before
it files a transaction that is not from a block.
-/

namespace Oxyra

namespace TxPool

variable {e : Env} {Q : Transaction → Prop} {p q : TxPool} {id x : Hash} {tx : Transaction}
  {t : PoolTx} {image : KeyImage} {ok : Bool} {relay : RelayMethod}

/-- A row under the hash of its transaction, which is one of those in question and passed
the test on key images. -/
structure Vetted (e : Env) (Q : Transaction → Prop) (t : PoolTx) : Prop where
  idEq : t.id = e.getTransactionHash t.tx
  among : Q t.tx
  diff : checkTxInputsKeyimagesDiff t.tx = true

theorem Vetted.toKey (h : Vetted e Q t) : t.tx.vin.all TxinV.isToKey = true := by
  have hdiff := h.diff
  rw [checkTxInputsKeyimagesDiff, Bool.and_eq_true] at hdiff
  exact hdiff.1

theorem Vetted.nodup (h : Vetted e Q t) : t.tx.keyImages.Nodup := by
  have hdiff := h.diff
  rw [checkTxInputsKeyimagesDiff, Bool.and_eq_true] at hdiff
  simpa using hdiff.2

/-- Among the transactions in question, the hash commits to the key images spent. -/
def HashCommits (e : Env) (Q : Transaction → Prop) : Prop :=
  ∀ tx tx', Q tx → Q tx' → e.getTransactionHash tx = e.getTransactionHash tx' →
    tx.keyImages = tx'.keyImages

/-- The transaction under an id is in the pool and spends the image. -/
def Spends (p : TxPool) (image : KeyImage) (id : Hash) : Prop :=
  ∃ t, p.find? id = some t ∧ image ∈ t.tx.keyImages

/-- The transaction under an id is in the pool, from a block. -/
def Kept (p : TxPool) (id : Hash) : Prop :=
  ∃ t, p.find? id = some t ∧ t.keptByBlock = true

structure Filed (e : Env) (Q : Transaction → Prop) (p : TxPool) : Prop where
  nodup : (p.txs.map PoolTx.id).Nodup
  rows : ∀ t ∈ p.txs, Vetted e Q t
  proper : SetMap.Proper p.spentKeyImages
  mem : ∀ image id, id ∈ keyImageSet p.spentKeyImages image ↔ p.Spends image id
  loose : ∀ image, ∀ a ∈ keyImageSet p.spentKeyImages image,
    ∀ b ∈ keyImageSet p.spentKeyImages image, a ≠ b → p.Kept a ∨ p.Kept b

theorem Filed.vetted (h : Filed e Q p) (hf : p.find? id = some t) : Vetted e Q t :=
  h.rows t (Keyed.mem_of_find? hf)

/-! ## Removing and rewriting -/

theorem Filed.of_tables (h : Filed e Q p) (htxs : q.txs = p.txs)
    (himages : q.spentKeyImages = p.spentKeyImages) : Filed e Q q := by
  have hfind : ∀ id, q.find? id = p.find? id := fun id => by rw [find?, find?, htxs]
  refine ⟨htxs ▸ h.nodup, htxs ▸ h.rows, himages ▸ h.proper, fun image id => ?_, ?_⟩
  · rw [himages, h.mem, Spends, Spends, hfind]
  · simp only [Kept, hfind, himages]
    exact h.loose

theorem Filed.mem_removed (h : Filed e Q p) (hf : p.find? t.id = some t) :
    x ∈ keyImageSet (p.removeTx t).spentKeyImages image ↔
      x ≠ t.id ∧ x ∈ keyImageSet p.spentKeyImages image := by
  have hvet := h.vetted hf
  have hset : keyImageSet (p.removeTx t).spentKeyImages image =
      if image ∈ t.tx.keyImages then (keyImageSet p.spentKeyImages image).erase t.id
      else keyImageSet p.spentKeyImages image :=
    keyImageSet_remove hvet.toKey hvet.nodup
      fun image hmem => (h.mem image t.id).mpr ⟨t, hf, hmem⟩
  rw [hset]
  split
  · exact (h.proper.nodup image).mem_erase_iff
  · -- the transaction is not filed under this image
    rename_i hno
    refine ⟨fun hx => ⟨?_, hx⟩, And.right⟩
    rintro rfl
    obtain ⟨t', hf', hmem⟩ := (h.mem image t.id).mp hx
    obtain rfl := Option.some.inj (hf.symm.trans hf')
    exact hno hmem

theorem Filed.removeTx (h : Filed e Q p) (hf : p.find? t.id = some t) :
    Filed e Q (p.removeTx t) := by
  have hfind : ∀ {x u}, x ≠ t.id → ((p.removeTx t).find? x = some u ↔ p.find? x = some u) :=
    fun hne => by rw [find?_removeTx, if_neg hne]
  refine ⟨h.nodup.sublist ((removeTx_sublist t).map _),
    fun u hu => h.rows u ((removeTx_sublist t).subset hu), proper_remove h.proper,
    fun image x => ?_, ?_⟩
  · rw [h.mem_removed hf, h.mem]
    by_cases hx : x = t.id
    · refine ⟨fun hin => absurd hx hin.1, ?_⟩
      rintro ⟨u, hu, -⟩
      rw [find?_removeTx, if_pos hx] at hu
      cases hu
    · simp only [Spends, hfind hx, ne_eq, hx, not_false_eq_true, true_and]
  · intro image a ha b hb hne
    obtain ⟨hat, ha⟩ := (h.mem_removed hf).mp ha
    obtain ⟨hbt, hb⟩ := (h.mem_removed hf).mp hb
    simpa only [Kept, hfind hat, hfind hbt] using h.loose image a ha b hb hne

theorem Filed.rewrite {f : PoolTx → PoolTx} (h : Filed e Q p) (hf : Rewrites f p.txs) :
    Filed e Q { p with txs := p.txs.map f } := by
  have hids : (p.txs.map f).map PoolTx.id = p.txs.map PoolTx.id := by
    rw [List.map_map]
    exact List.map_congr_left hf.id
  have hfind : ∀ id, find? { p with txs := p.txs.map f } id = (p.find? id).map f := fun id =>
    Keyed.find?_map_of_mem hf.id
  refine ⟨hids ▸ h.nodup, ?_, h.proper, fun image id => (h.mem image id).trans ?_, ?_⟩
  · intro u hu
    obtain ⟨t, ht, rfl⟩ := List.mem_map.mp hu
    have hvet := h.rows t ht
    exact ⟨by rw [hf.id t ht, hf.tx t ht, hvet.idEq], by rw [hf.tx t ht]; exact hvet.among,
      by rw [hf.tx t ht]; exact hvet.diff⟩
  · constructor
    · rintro ⟨t, ht, hmem⟩
      refine ⟨f t, by rw [hfind, ht]; rfl, ?_⟩
      rwa [hf.tx t (Keyed.mem_of_find? ht)]
    · rintro ⟨u, hu, hmem⟩
      rw [hfind] at hu
      obtain ⟨t, ht, rfl⟩ := Option.map_eq_some_iff.mp hu
      rw [hf.tx t (Keyed.mem_of_find? ht)] at hmem
      exact ⟨t, ht, hmem⟩
  · have hkept : ∀ id, p.Kept id → Kept { p with txs := p.txs.map f } id := by
      rintro id ⟨t, ht, hk⟩
      exact ⟨f t, by rw [hfind, ht]; rfl, hf.kept t (Keyed.mem_of_find? ht) hk⟩
    exact fun image a ha b hb hne => (h.loose image a ha b hb hne).imp (hkept a) (hkept b)

theorem Filed.stable (e : Env) (Q : Transaction → Prop) : Stable (Filed e Q) where
  nodup h := h.nodup
  same h hs := h.of_tables hs.txs hs.images
  remove h hf := h.removeTx hf
  rewrite h hf := h.rewrite hf

theorem Filed.finishAdd (h : Filed e Q p) (w : UInt64) : Filed e Q (p.finishAdd e w) := by
  have hcounted : Filed e Q { p with txpoolWeight := p.txpoolWeight + w, cookie := p.cookie + 1 } :=
    h.of_tables rfl rfl
  exact (Filed.stable e Q).prune hcounted _

/-! ## Adding -/

theorem Filed.images_eq (hcommit : HashCommits e Q) (h : Filed e Q p)
    (hQ : Q tx) (hid : id = e.getTransactionHash tx) (hf : p.find? id = some t) :
    t.tx.keyImages = tx.keyImages := by
  refine hcommit _ _ (h.vetted hf).among hQ ?_
  rw [← (h.vetted hf).idEq, ← hid]
  exact Keyed.key_of_find? hf

theorem Files.ok_of_absent {version nic : Nat} (hpass : Passes e p tx id relay version nic)
    (hfiles : Files p tx id relay ok q) (hkeys : tx.vin.all TxinV.isToKey = true)
    (habs : p.haveTx id = false) : ok = true := by
  obtain ⟨method, hmethod, hins⟩ := hfiles
  have hfind : p.find? id = none := by simpa [haveTx] using habs
  have hlegacy : p.matchesLegacy id = false := by rw [matchesLegacy, hfind]; rfl
  rw [hlegacy] at hins
  rw [← show (insertKeyImages false id method tx.vin p.spentKeyImages).1 = ok from
    congrArg Prod.fst hins]
  refine insertKeyImages_ok hkeys fun hrelay image hmem => ?_
  -- the test on spent images has found nobody else
  have hspent := hpass.unspent (mt hmethod.mpr hrelay)
  rw [haveTxKeyimgesAsSpent, List.any_eq_false] at hspent
  obtain ⟨i, hi, himage⟩ := List.mem_filterMap.mp hmem
  have hone := hspent i hi
  cases i with
  | toKey amount keyOffsets image' =>
    cases himage
    simp only [haveTxKeyimgAsSpent] at hone
    split at hone
    · rename_i hset
      exact .inl hset
    · rename_i only hset
      split at hone
      · exact absurd rfl hone
      · rename_i heq
        exact .inr (by rw [hset, not_not.mp heq])
    · exact absurd rfl hone
  | gen | toScript | toScripthash => cases himage

theorem Filed.mem_files (hcommit : HashCommits e Q) (h : Filed e Q p) (hQ : Q tx)
    (hid : id = e.getTransactionHash tx) (hfiles : Files p tx id relay ok q)
    (hok : ok = true ∨ p.haveTx id = true) :
    x ∈ keyImageSet q.spentKeyImages image ↔
      x ∈ keyImageSet p.spentKeyImages image ∨ x = id ∧ image ∈ tx.keyImages := by
  obtain ⟨method, -, hins⟩ := hfiles
  have htable : (insertKeyImages (p.matchesLegacy id) id method tx.vin p.spentKeyImages).2 =
    q.spentKeyImages := congrArg Prod.snd hins
  rw [← htable]
  refine ⟨mem_of_mem_insertKeyImages, ?_⟩
  rintro (hx | ⟨rfl, hmem⟩)
  · exact mem_insertKeyImages_of_mem hx
  · rcases hok with rfl | hhave
    · exact (insertKeyImages_filed (congrArg Prod.fst hins) hmem).1
    · -- it was filed when it came in
      obtain ⟨t, ht⟩ := Option.isSome_iff_exists.mp hhave
      refine mem_insertKeyImages_of_mem ((h.mem image x).mpr ⟨t, ht, ?_⟩)
      rwa [h.images_eq hcommit hQ hid ht]

theorem Files.proper (hfiles : Files p tx id relay ok q) (h : SetMap.Proper p.spentKeyImages) :
    SetMap.Proper q.spentKeyImages := by
  obtain ⟨method, -, hins⟩ := hfiles
  rw [← show (insertKeyImages (p.matchesLegacy id) id method tx.vin p.spentKeyImages).2 =
    q.spentKeyImages from congrArg Prod.snd hins]
  exact proper_insertKeyImages h

theorem Filed.filed_again (hcommit : HashCommits e Q) (h : Filed e Q p) (hQ : Q tx)
    (hid : id = e.getTransactionHash tx) (hfiles : Files p tx id relay ok q)
    (hhave : p.haveTx id = true) (htxs : q.txs = p.txs) : Filed e Q q := by
  have hfind : ∀ id, q.find? id = p.find? id := fun id => by rw [find?, find?, htxs]
  have hmem : ∀ image x, x ∈ keyImageSet q.spentKeyImages image ↔
      x ∈ keyImageSet p.spentKeyImages image := fun image x => by
    rw [h.mem_files hcommit hQ hid hfiles (.inr hhave)]
    refine ⟨?_, .inl⟩
    rintro (hx | ⟨rfl, hmem⟩)
    · exact hx
    · obtain ⟨t, ht⟩ := Option.isSome_iff_exists.mp hhave
      exact (h.mem image x).mpr ⟨t, ht, by rwa [h.images_eq hcommit hQ hid ht]⟩
  refine ⟨htxs ▸ h.nodup, htxs ▸ h.rows, hfiles.proper h.proper, fun image x => ?_, ?_⟩
  · rw [hmem, h.mem, Spends, Spends, hfind]
  · simp only [hmem, Kept, hfind]
    exact h.loose

theorem Filed.written {w : UInt64} (hcommit : HashCommits e Q) (h : Filed e Q p) (hQ : Q tx)
    (hid : id = e.getTransactionHash tx) (hdiff : checkTxInputsKeyimagesDiff tx = true)
    (hfiles : Files p tx id relay true q) (hrow : NewRow tx id w relay t)
    (htxs : q.txs = Keyed.erase PoolTx.id p.txs id ++ [t]) : Filed e Q q := by
  have hfind : ∀ x, q.find? x = if x = id then some t else p.find? x := fun x => by
    rw [find?, htxs, Keyed.find?_append, Keyed.find?_cons, hrow.idEq]
    by_cases hx : x = id
    · subst hx
      simp
    · rw [Keyed.find?_erase_ne hx, if_neg (Ne.symm hx), if_neg hx]
      simp [find?]
  have hin : ∀ image x, x ∈ keyImageSet q.spentKeyImages image ↔
      x ∈ keyImageSet p.spentKeyImages image ∨ x = id ∧ image ∈ tx.keyImages := fun image x =>
    h.mem_files hcommit hQ hid hfiles (.inl rfl)
  -- under its own id the transaction is only filed where it spends
  have hown : ∀ image, id ∈ keyImageSet p.spentKeyImages image → image ∈ tx.keyImages := by
    intro image hx
    obtain ⟨u, hu, hmem⟩ := (h.mem image id).mp hx
    rwa [h.images_eq hcommit hQ hid hu] at hmem
  have hkept : ∀ x, x ≠ id → p.Kept x → q.Kept x := by
    rintro x hx ⟨u, hu, hk⟩
    exact ⟨u, by rw [hfind, if_neg hx, hu], hk⟩
  refine ⟨?_, ?_, hfiles.proper h.proper, fun image x => ?_, ?_⟩
  · rw [htxs, List.map_append, List.map_singleton, hrow.idEq]
    refine List.Nodup.append (h.nodup.sublist (List.filter_sublist.map _)) (by simp) ?_
    rw [List.disjoint_singleton]
    intro hmem
    obtain ⟨u, hu, heq⟩ := List.mem_map.mp hmem
    exact (Keyed.mem_erase_iff.mp hu).2 heq
  · intro u hu
    rw [htxs, List.mem_append, List.mem_singleton] at hu
    rcases hu with hu | rfl
    · exact h.rows u (Keyed.mem_erase_iff.mp hu).1
    · exact ⟨by rw [hrow.idEq, hrow.txEq, hid], by rw [hrow.txEq]; exact hQ,
        by rw [hrow.txEq]; exact hdiff⟩
  · rw [hin, Spends]
    by_cases hx : x = id
    · subst hx
      simp only [hfind, if_true, Option.some.injEq, exists_eq_left', hrow.txEq, true_and]
      exact ⟨fun hor => hor.elim (hown image) fun hmem => hmem, .inr⟩
    · simp only [hfind, hx, if_false, false_and, or_false]
      exact h.mem image x
  · intro image a ha b hb hne
    by_cases hrelay : relay = .block
    · -- from a block: one of two is the new one or both were there
      have hnew : q.Kept id := ⟨t, by rw [hfind, if_pos rfl], by rw [hrow.kept, hrelay]; rfl⟩
      by_cases hai : a = id
      · exact .inl (hai ▸ hnew)
      by_cases hbi : b = id
      · exact .inr (hbi ▸ hnew)
      have ha' := ((hin image a).mp ha).resolve_right fun hor => hai hor.1
      have hb' := ((hin image b).mp hb).resolve_right fun hor => hbi hor.1
      exact (h.loose image a ha' b hb' hne).imp (hkept a hai) (hkept b hbi)
    · by_cases himage : image ∈ tx.keyImages
      · -- not from a block: it is alone under its images
        obtain ⟨method, hmethod, hins⟩ := hfiles
        have halone :=
          (insertKeyImages_filed (congrArg Prod.fst hins) himage).2 (mt hmethod.mp hrelay)
        rw [show (insertKeyImages (p.matchesLegacy id) id method tx.vin p.spentKeyImages).2 =
          q.spentKeyImages from congrArg Prod.snd hins] at halone
        exact absurd ((halone a ha).trans (halone b hb).symm) hne
      · have ha' := ((hin image a).mp ha).resolve_right fun hor => himage hor.2
        have hb' := ((hin image b).mp hb).resolve_right fun hor => himage hor.2
        have hnot : ∀ x ∈ keyImageSet p.spentKeyImages image, x ≠ id := fun x hx heq =>
          himage (hown image (heq ▸ hx))
        exact (h.loose image a ha' b hb' hne).imp (hkept a (hnot a ha')) (hkept b (hnot b hb'))

/-- **Adding keeps the index exact**, with every outcome. -/
theorem Filed.addStep {w : UInt64} {version nic : Nat} {r : Bool × TxPool}
    (hcommit : HashCommits e Q) (h : Filed e Q p) (hstep : AddStep e p tx id w relay version nic r)
    (hQ : Q tx) (hid : id = e.getTransactionHash tx)
    (hdiff : (version = nic ∨ e.verNonInputConsensus tx version = true) →
      checkTxInputsKeyimagesDiff tx = true) :
    Filed e Q r.2 := by
  have hI := Filed.stable e Q
  cases hstep with
  | refused same => exact hI.same h same
  | @marked q hit txs weight images =>
    exact hI.rewritten h (.of_sameRow (sameRow_markSeen hit) _) txs weight images
  | filed passes files fails txs _ =>
    refine h.filed_again hcommit hQ hid files ?_ txs
    by_contra hhave
    have hvet : Vetted e Q ⟨id, tx, { weight := w, fee := 0 }⟩ := ⟨hid, hQ, hdiff passes.rules⟩
    have hok := files.ok_of_absent passes hvet.toKey (by simpa using hhave)
    exact absurd ((fails.resolve_right hhave).symm.trans hok) (by simp)
  | known _ _ same => exact (hI.same h same).finishAdd w
  | written passes files row txs _ =>
    exact (h.written hcommit hQ hid (hdiff passes.rules) files row txs).finishAdd w

theorem Filed.readds (hcommit : HashCommits e Q) (ctx : PoolContext) (version : Nat) :
    Stable.Readds e ctx version (Filed e Q) := by
  intro p t relay relayed h hf _
  have hvet := h.vetted hf
  exact (h.removeTx hf).addStep hcommit
    (addTx_step e ctx _ t.tx t.id t.info.weight relay relayed version 0) hvet.among hvet.idEq
    fun _ => hvet.diff

/-! ## Start -/

structure FiledRows (done : List PoolTx) (table : List (KeyImage × List Hash)) : Prop where
  proper : SetMap.Proper table
  mem : ∀ image id, id ∈ keyImageSet table image ↔
    ∃ t ∈ done, t.id = id ∧ image ∈ t.tx.keyImages
  loose : ∀ image, ∀ a ∈ done, ∀ b ∈ done, image ∈ a.tx.keyImages → image ∈ b.tx.keyImages →
    a.id ≠ b.id → a.keptByBlock = true ∨ b.keptByBlock = true

theorem filedRows_nil : FiledRows [] [] :=
  ⟨SetMap.proper_nil, fun image id => by simp [keyImageSet], fun _ _ ha => absurd ha (by simp)⟩

theorem FiledRows.concat {done : List PoolTx} {table table' : List (KeyImage × List Hash)}
    {legacy : Bool} (h : FiledRows done table) (hnew : ∀ u ∈ done, u.id ≠ t.id)
    (hins : insertKeyImages legacy t.id t.info.relayMethod t.tx.vin table = (true, table')) :
    FiledRows (done ++ [t]) table' := by
  have hok : (insertKeyImages legacy t.id t.info.relayMethod t.tx.vin table).1 = true :=
    congrArg Prod.fst hins
  obtain rfl : (insertKeyImages legacy t.id t.info.relayMethod t.tx.vin table).2 = table' :=
    congrArg Prod.snd hins
  -- a row that is there already shares no image with one that is not from a block
  have hapart : ∀ image, ∀ a ∈ done, image ∈ a.tx.keyImages → image ∈ t.tx.keyImages →
      t.keptByBlock = true := by
    intro image a ha hia hit
    by_contra hk
    have hrelay : t.info.relayMethod ≠ .block := by simpa [PoolTx.keptByBlock] using hk
    have hfiled : a.id ∈ keyImageSet
        (insertKeyImages legacy t.id t.info.relayMethod t.tx.vin table).2 image :=
      mem_insertKeyImages_of_mem ((h.mem image a.id).mpr ⟨a, ha, rfl, hia⟩)
    exact hnew a ha ((insertKeyImages_filed hok hit).2 hrelay a.id hfiled)
  refine ⟨proper_insertKeyImages h.proper, fun image id => ⟨fun hid => ?_, ?_⟩, ?_⟩
  · rcases mem_of_mem_insertKeyImages hid with hid | ⟨rfl, hmem⟩
    · obtain ⟨u, hu, heq⟩ := (h.mem image id).mp hid
      exact ⟨u, by simp [hu], heq⟩
    · exact ⟨t, by simp, rfl, hmem⟩
  · rintro ⟨u, hu, rfl, hmem⟩
    rcases List.mem_append.mp hu with hu | hu
    · exact mem_insertKeyImages_of_mem ((h.mem image u.id).mpr ⟨u, hu, rfl, hmem⟩)
    · obtain rfl := List.mem_singleton.mp hu
      exact (insertKeyImages_filed hok hmem).1
  · intro image a ha b hb hia hib hne
    rw [List.mem_append, List.mem_singleton] at ha hb
    rcases ha with ha | rfl
    · rcases hb with hb | rfl
      · exact h.loose image a ha b hb hia hib hne
      · exact .inr (hapart image a ha hia hib)
    · rcases hb with hb | rfl
      · exact .inl (hapart image b hb hib hia)
      · exact absurd rfl hne

theorem FiledRows.filed {done : List PoolTx} (h : FiledRows done p.spentKeyImages)
    (hids : (p.txs.map PoolTx.id).Nodup) (hrows : ∀ t ∈ p.txs, Vetted e Q t)
    (hall : ∀ t, t ∈ done ↔ t ∈ p.txs) : Filed e Q p := by
  have hfind : ∀ {t id}, p.find? id = some t ↔ t ∈ done ∧ t.id = id := fun {t id} => by
    rw [hall]
    refine ⟨fun hf => ⟨Keyed.mem_of_find? hf, Keyed.key_of_find? hf⟩, ?_⟩
    rintro ⟨ht, rfl⟩
    exact Keyed.find?_of_mem hids ht
  have hmem : ∀ image id, id ∈ keyImageSet p.spentKeyImages image ↔ p.Spends image id :=
    fun image id => by
      rw [h.mem]
      simp only [Spends, hfind, and_assoc]
  refine ⟨hids, hrows, h.proper, hmem, fun image a ha b hb hne => ?_⟩
  obtain ⟨t, ht, rfl, hit⟩ := (h.mem image a).mp ha
  obtain ⟨u, hu, rfl, hiu⟩ := (h.mem image b).mp hb
  exact (h.loose image t ht u hu hit hiu hne).imp
    (fun hk => ⟨t, hfind.mpr ⟨ht, rfl⟩, hk⟩) fun hk => ⟨u, hfind.mpr ⟨hu, rfl⟩, hk⟩

end TxPool

namespace TrackedPool

variable {e : Env} {Q : Transaction → Prop} {clock : Nat → Nat} {s s' : TrackedPool}

theorem initRows_filed {kept : Bool} (l done : List PoolTx)
    (hdone : TxPool.FiledRows done s.pool.spentKeyImages)
    (hids : ((done ++ l.filter fun t => t.keptByBlock = kept).map PoolTx.id).Nodup)
    (h : l.foldlM (initRow clock kept) s = some s') :
    s'.pool.txs = s.pool.txs ∧
      TxPool.FiledRows (done ++ l.filter fun t => t.keptByBlock = kept) s'.pool.spentKeyImages := by
  induction l generalizing s done with
  | nil =>
    cases h
    exact ⟨rfl, by simpa using hdone⟩
  | cons t rest ih =>
    rw [List.foldlM_cons] at h
    obtain ⟨s₁, hfirst, hrest⟩ := Option.bind_eq_some_iff.mp h
    rcases initRow_cases hfirst with ⟨hkept, rfl⟩ | ⟨hkept, htxs, -, hins⟩
    · rw [List.filter_cons_of_neg (by simpa using hkept)] at hids ⊢
      exact ih done hdone hids hrest
    · rw [List.filter_cons_of_pos (by simpa using hkept), List.append_cons] at hids ⊢
      have hnew : ∀ u ∈ done, u.id ≠ t.id := fun u hu heq => by
        rw [List.map_append, List.map_append] at hids
        have hdisj := (List.nodup_append.mp (List.nodup_append.mp hids).1).2.2
        exact hdisj u.id (List.mem_map_of_mem hu) t.id (by simp) heq
      obtain ⟨hrows, hfiled⟩ := ih (done ++ [t]) (hdone.concat hnew hins) hids hrest
      exact ⟨hrows.trans htxs, hfiled⟩

theorem filed_init {p : TxPool} (hids : (p.txs.map PoolTx.id).Nodup)
    (hrows : ∀ t ∈ p.txs, TxPool.Vetted e Q t) (h : init clock p = some s) : s.pool.Filed e Q := by
  obtain ⟨s₁, hfirst, hsecond⟩ := Option.bind_eq_some_iff.mp h
  have hperm : ((p.txs.filter fun t : PoolTx => t.keptByBlock = false) ++
      p.txs.filter fun t : PoolTx => t.keptByBlock = true).Perm p.txs := by
    simpa using List.filter_append_perm (fun t : PoolTx => decide (t.keptByBlock = false)) p.txs
  have hnd := (hperm.map PoolTx.id).nodup_iff.mpr hids
  have hnd₁ : (([] ++ p.txs.filter fun t : PoolTx =>
      t.keptByBlock = false).map PoolTx.id).Nodup := by
    rw [List.map_append] at hnd
    exact (List.nodup_append.mp hnd).1
  obtain ⟨htxs₁, hfiled₁⟩ := initRows_filed p.txs [] TxPool.filedRows_nil hnd₁ hfirst
  obtain ⟨htxs, hfiled⟩ := initRows_filed p.txs _ hfiled₁ hnd hsecond
  have hall : s.pool.txs = p.txs := htxs.trans htxs₁
  refine hfiled.filed (hall ▸ hids) (hall ▸ hrows) fun t => ?_
  rw [hall]
  exact hperm.mem_iff

/-! ## Histories -/

/-- A call as `add_tx` is documented, with one of the transactions in question: the id is
its hash, and a version it is said to have passed is one it passes. There is no version
0. -/
def AsDocumented (e : Env) (Q : Transaction → Prop) : PoolCall → Prop
  | .addTx _ tx id _ _ _ version nic =>
    Q tx ∧ id = e.getTransactionHash tx ∧
      (version = nic → e.verNonInputConsensus tx version = true)
  | .validate _ version => version ≠ 0
  | _ => True

theorem filed_call {c : KeyChecks} (hcommit : TxPool.HashCommits (e.withSemantic c) Q)
    (h : s.pool.Filed (e.withSemantic c) Q) {call : PoolCall}
    (hcall : AsDocumented (e.withSemantic c) Q call) :
    (s.call (e.withSemantic c) clock call).pool.Filed (e.withSemantic c) Q := by
  refine call_of_stable (TxPool.Filed.stable _ Q) call h ?_ ?_
  · rintro ctx tx id w relay relayed version nic rfl
    refine h.addStep hcommit (TxPool.addTx_step _ ctx s.pool tx id w relay relayed version nic)
      hcall.1 hcall.2.1 fun hrules => ?_
    exact Env.keyimagesDiff_of_verified (hrules.elim hcall.2.2 fun hpassed => hpassed)
  · rintro ctx version rfl
    exact ⟨hcall, TxPool.Filed.readds hcommit ctx version⟩

/-- **The key-image index is exact.** After any history from `init` an image is related to
the transactions in the pool that spend it and to no others, no image has an empty set,
and of two transactions under one image at least one was kept by a block. -/
theorem key_image_index_exact (e : Env) (c : KeyChecks) (clock : Nat → Nat)
    (Q : Transaction → Prop) (hcommit : TxPool.HashCommits e Q) (p : TxPool)
    (hids : (p.txs.map PoolTx.id).Nodup) (hrows : ∀ t ∈ p.txs, TxPool.Vetted e Q t)
    (s₀ : TrackedPool)
    (hinit : init clock p = some s₀) (cs : List PoolCall)
    (hcs : ∀ call ∈ cs, AsDocumented (e.withSemantic c) Q call) :
    let q := (s₀.calls (e.withSemantic c) clock cs).pool
    (∀ image id, id ∈ TxPool.keyImageSet q.spentKeyImages image ↔
      ∃ t, q.find? id = some t ∧ image ∈ t.tx.keyImages) ∧
    (∀ r ∈ q.spentKeyImages, r.2 ≠ []) ∧
    (∀ image, ∀ a ∈ TxPool.keyImageSet q.spentKeyImages image,
      ∀ b ∈ TxPool.keyImageSet q.spentKeyImages image, a ≠ b →
        (∃ t, q.find? a = some t ∧ t.keptByBlock = true) ∨
          ∃ t, q.find? b = some t ∧ t.keptByBlock = true) := by
  intro q
  have hstart : s₀.pool.Filed (e.withSemantic c) Q :=
    filed_init hids (fun t ht => ⟨(hrows t ht).idEq, (hrows t ht).among, (hrows t ht).diff⟩) hinit
  have hq : q.Filed (e.withSemantic c) Q :=
    List.foldlRecOn cs (call (e.withSemantic c) clock)
      (motive := fun s => s.pool.Filed (e.withSemantic c) Q) hstart
      fun s hs call hmem => filed_call hcommit hs (hcs call hmem)
  exact ⟨hq.mem, hq.proper.nonempty, hq.loose⟩

/-- Another transaction that spends what `regtestTx 1` spends. -/
def rivalTx : Transaction :=
  { regtestTx 2 10 0 1 with vin := (regtestTx 1 10 0 1).vin }

def rivalCalls : List PoolCall :=
  [.addTx lenient (regtestTx 1 10 0 1) 2 100 .fluff false 1 0,
    .addTx lenient rivalTx 3 100 .block true 1 1]

theorem key_image_index_exact_rivals :
    let q := (({} : TrackedPool).calls ((regtest (schedule 1 [])).withSemantic lenientKeyChecks) id
      rivalCalls).pool
    TxPool.keyImageSet q.spentKeyImages 1 = [3, 2] ∧
      ∀ image id, id ∈ TxPool.keyImageSet q.spentKeyImages image ↔
        ∃ t, q.find? id = some t ∧ image ∈ t.tx.keyImages := by
  intro q
  let Q : Transaction → Prop := fun tx => tx = regtestTx 1 10 0 1 ∨ tx = rivalTx
  have hcommit : TxPool.HashCommits (regtest (schedule 1 [])) Q := by
    rintro tx tx' (rfl | rfl) (rfl | rfl) _ <;> rfl
  have hcalls : ∀ call ∈ rivalCalls,
      AsDocumented ((regtest (schedule 1 [])).withSemantic lenientKeyChecks) Q call := by
    intro call hcall
    obtain rfl | rfl : call = _ ∨ call = _ := by simpa [rivalCalls] using hcall
    · exact ⟨.inl rfl, by decide, by decide⟩
    · exact ⟨.inr rfl, by decide, fun _ => by decide +kernel⟩
  exact ⟨by decide +kernel,
    (key_image_index_exact (regtest (schedule 1 [])) lenientKeyChecks id Q hcommit {}
    .nil (fun t ht => absurd ht (by simp)) {} rfl _ hcalls).1⟩

end TrackedPool

end Oxyra
