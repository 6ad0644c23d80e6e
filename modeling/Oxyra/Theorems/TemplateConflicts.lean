import Oxyra.Logic.KeyImages
import Oxyra.Logic.Template
import Oxyra.Logic.Regtest

/-!
# Conflicts inside a template

`fill_block_template` compares the key images of a transaction with those of the ones it
has chosen. It looks at the transaction as `is_transaction_ready_to_go` left it, and that
function does not parse a transaction whose inputs are in the cache: such a one passes
with no inputs at all and leaves no images behind. The cache survives until the chain
changes, so the second template for one chain may hold what the first kept apart.
-/

namespace Oxyra

open TxPool

variable {e : Env} {ctx : PoolContext} {p q : TxPool} {t : PoolTx} {st : FillState} {s : Blockchain}
  {image : KeyImage} {kImages : List KeyImage} {l : List SortedTx} {vin : List TxinV} {x : SortedTx}

/-! ## Key images -/

theorem mem_of_haveKeyImages_false (hkeys : vin.all TxinV.isToKey = true)
    (h : haveKeyImages kImages vin = false) (hmem : image ∈ imagesOf vin) : image ∉ kImages := by
  induction vin with
  | nil => exact absurd hmem (by simp [imagesOf])
  | cons i rest ih =>
    rw [List.all_cons, Bool.and_eq_true] at hkeys
    cases i with
    | toKey amount keyOffsets image' =>
      simp only [haveKeyImages, Bool.or_eq_false_iff, decide_eq_false_iff_not] at h
      rcases mem_imagesOf_cons.mp hmem with rfl | hmem
      · exact h.1
      · exact ih hkeys.2 h.2 hmem
    | gen | toScript | toScripthash => exact absurd hkeys.1 (by simp [TxinV.isToKey])

theorem mem_appendKeyImages_of_mem (vin : List TxinV) (h : image ∈ kImages) :
    image ∈ appendKeyImages kImages vin := by
  induction vin generalizing kImages with
  | nil => exact h
  | cons i rest ih =>
    cases i with
    | toKey amount keyOffsets image' =>
      unfold appendKeyImages
      split
      · exact h
      · exact ih (List.mem_cons_of_mem _ h)
    | gen | toScript | toScripthash => exact h

theorem mem_appendKeyImages (hkeys : vin.all TxinV.isToKey = true) (hnd : (imagesOf vin).Nodup)
    (hnew : ∀ image ∈ imagesOf vin, image ∉ kImages) (hmem : image ∈ imagesOf vin) :
    image ∈ appendKeyImages kImages vin := by
  induction vin generalizing kImages with
  | nil => exact absurd hmem (by simp [imagesOf])
  | cons i rest ih =>
    rw [List.all_cons, Bool.and_eq_true] at hkeys
    cases i with
    | toKey amount keyOffsets image' =>
      have hnd' : image' ∉ imagesOf rest ∧ (imagesOf rest).Nodup := by
        simpa [imagesOf, TxinV.keyImage?] using hnd
      unfold appendKeyImages
      rw [if_neg (hnew image' (mem_imagesOf_cons.mpr (.inl rfl)))]
      rcases mem_imagesOf_cons.mp hmem with rfl | hmem
      · exact mem_appendKeyImages_of_mem rest List.mem_cons_self
      · refine ih hkeys.2 hnd'.2 (fun other hother hin => ?_) hmem
        rcases List.mem_cons.mp hin with rfl | hin
        · exact hnd'.1 hother
        · exact hnew other (mem_imagesOf_cons.mpr (.inr hother)) hin
    | gen | toScript | toScripthash => exact absurd hkeys.1 (by simp [TxinV.isToKey])

theorem unspent_of_rings {now : Nat} {chain : Chain} {hfVersion : Nat}
    {rings : List (List OutputData)}
    (h : checkTxInputRings e now chain hfVersion vin = some rings) :
    vin.all TxinV.isToKey = true ∧ ∀ image ∈ imagesOf vin, chain.hasKeyImage image = false := by
  induction vin generalizing rings with
  | nil => exact ⟨rfl, fun image hmem => absurd hmem (by simp [imagesOf])⟩
  | cons i rest ih =>
    cases i with
    | toKey amount keyOffsets image' =>
      unfold checkTxInputRings at h
      split at h
      · cases h
      split at h
      · cases h
      · rename_i hspent
        obtain ⟨ring, -, h⟩ := Option.bind_eq_some_iff.mp h
        obtain ⟨rest', hrest, -⟩ := Option.map_eq_some_iff.mp h
        obtain ⟨hkeys, himages⟩ := ih hrest
        refine ⟨by rw [List.all_cons, hkeys]; rfl, fun image hmem => ?_⟩
        rcases mem_imagesOf_cons.mp hmem with rfl | hmem
        · simpa using hspent
        · exact himages image hmem
    | gen | toScript | toScripthash => exact absurd h (by simp [checkTxInputRings])

theorem unspent_of_poolContext {tx : Transaction} {r : Nat × Hash}
    (h : (s.poolContext e).checkTxInputs tx false = some r) :
    tx.vin.all TxinV.isToKey = true ∧
      ∀ image ∈ tx.keyImages, s.chain.hasKeyImage image = false := by
  simp only [Blockchain.poolContext, Bool.and_false, Bool.false_eq_true, if_false] at h
  obtain ⟨maxUsed, hinputs, -⟩ := Option.bind_eq_some_iff.mp h
  unfold checkTxInputs at hinputs
  split at hinputs
  · cases hinputs
  · obtain ⟨rings, hrings, -⟩ := Option.bind_eq_some_iff.mp hinputs
    exact unspent_of_rings hrings

/-! ## The pool between calls -/

/-- No row and no entry of the container twice, no transaction with one key image twice,
and no good answer in the cache for what is spent on the chain. -/
structure Orderly (chain : Chain) (p : TxPool) : Prop where
  rows : (p.txs.map PoolTx.id).Nodup
  container : (p.sorted.map SortedTx.id).Nodup
  distinct : ∀ id t, p.find? id = some t → t.tx.keyImages.Nodup
  sound : ∀ id t r, p.find? id = some t → p.inputCache.lookup id = some (some r) →
    ∀ image ∈ t.tx.keyImages, chain.hasKeyImage image = false

/-- No transaction with a good answer in the cache shares a key image with another. -/
def LoneCached (p : TxPool) : Prop :=
  ∀ id t r, p.find? id = some t → p.inputCache.lookup id = some (some r) →
    ∀ id' u, id' ≠ id → p.find? id' = some u → t.tx.keyImages.Disjoint u.tx.keyImages

/-- The chosen transactions spend different key images, none of them spent. -/
def ConflictFree (chain : Chain) (p : TxPool) (ids : List Hash) : Prop :=
  (ids.Pairwise fun a b => ∀ t u, p.find? a = some t → p.find? b = some u →
    t.tx.keyImages.Disjoint u.tx.keyImages) ∧
  ∀ id ∈ ids, ∀ t, p.find? id = some t →
    ∀ image ∈ t.tx.keyImages, chain.hasKeyImage image = false

theorem Orderly.touched (h : Orderly s.chain p) (htouched : Touched (s.poolContext e) t p q)
    (hfind : p.find? t.id = some t) : Orderly s.chain q := by
  obtain ⟨info, hown, -⟩ := htouched.own hfind
  -- every row is that of `p`, up to its meta data
  have hrow : ∀ id u, q.find? id = some u → ∃ u', p.find? id = some u' ∧ u'.tx = u.tx := by
    intro id u hu
    by_cases hid : id = t.id
    · subst hid
      rw [hown] at hu
      cases hu
      exact ⟨t, hfind, rfl⟩
    · exact ⟨u, by rwa [← htouched.rows id hid], rfl⟩
  refine ⟨htouched.ids ▸ h.rows, htouched.sorted ▸ h.container, fun id u hu => ?_,
    fun id u r hu hr => ?_⟩
  · obtain ⟨u', hu', htx⟩ := hrow id u hu
    exact htx ▸ h.distinct id u' hu'
  · obtain ⟨u', hu', htx⟩ := hrow id u hu
    by_cases hid : id = t.id
    · subst hid
      obtain rfl := Option.some.inj (hfind.symm.trans hu')
      rcases htouched.checked with hsame | hchecked
      · exact htx ▸ h.sound t.id t r hfind (hsame ▸ hr)
      · rw [hchecked] at hr
        exact htx ▸ (unspent_of_poolContext (Option.some.inj hr)).2
    · rw [htouched.cache id hid] at hr
      exact htx ▸ h.sound id u' r hu' hr

section Loop

variable {medianWeight maxWeight coins : UInt64} {version : Nat}

theorem Orderly.fillLoop (l : List SortedTx) (h : Orderly s.chain st.pool) :
    Orderly s.chain (fillLoop e (s.poolContext e) medianWeight maxWeight coins version l st).pool :=
  fillLoop_invariant (I := fun st => Orderly s.chain st.pool)
    (fun st t coinbase h hfind _ => h.touched (considerTx_cases _ st t coinbase).1 hfind) l h

/-- The state of the loop, with the entries `l` to come: those are still as in the pool
`p`, and of what is chosen the images are noted unless the cache answered for it. -/
structure Picked (chain : Chain) (p : TxPool) (l : List SortedTx) (st : FillState) : Prop where
  rows : ∀ x ∈ l, st.pool.find? x.id = p.find? x.id
  cache : ∀ x ∈ l, st.pool.inputCache.lookup x.id = p.inputCache.lookup x.id
  fresh : ∀ x ∈ l, x.id ∉ st.txHashes
  noted : ∀ id ∈ st.txHashes, ∀ t, p.find? id = some t →
    (∃ r, p.inputCache.lookup id = some (some r)) ∨ ∀ image ∈ t.tx.keyImages, image ∈ st.kImages
  free : ConflictFree chain p st.txHashes

theorem Picked.skip (h : Picked s.chain p (x :: l) st) :
    Picked s.chain p l st :=
  ⟨fun y hy => h.rows y (List.mem_cons_of_mem _ hy),
    fun y hy => h.cache y (List.mem_cons_of_mem _ hy),
    fun y hy => h.fresh y (List.mem_cons_of_mem _ hy), h.noted, h.free⟩

theorem Picked.disjoint {tx : Transaction} (h : Picked s.chain p (x :: l) st) (hlone : LoneCached p)
    (hid : t.id = x.id) (hfind : p.find? t.id = some t)
    (hready : ReadyBy (s.poolContext e) st.pool t tx)
    (himages : haveKeyImages st.kImages tx.vin = false) {a : Hash} (ha : a ∈ st.txHashes)
    {u : PoolTx} (hu : p.find? a = some u) : u.tx.keyImages.Disjoint t.tx.keyImages := by
  have hne : t.id ≠ a := fun heq => h.fresh x List.mem_cons_self (hid ▸ heq ▸ ha)
  have hcache := h.cache x List.mem_cons_self
  rw [← hid] at hcache
  rcases h.noted a ha u hu with ⟨r, hr⟩ | hnoted
  · exact hlone a u r hu hr t.id t hne hfind
  · rcases hready with ⟨⟨r, hr⟩, -⟩ | ⟨-, ⟨r, hr⟩, rfl⟩
    · exact (hlone t.id t r hfind (hcache ▸ hr) a u hne.symm hu).symm
    · -- both were parsed: the images were compared
      intro image hiu hit
      exact mem_of_haveKeyImages_false (unspent_of_poolContext hr).1 himages hit
        (hnoted image hiu)

theorem Picked.consider {coinbase : UInt64} (h : Picked s.chain p (x :: l) st)
    (ho : Orderly s.chain p) (hlone : LoneCached p) (hnd : ((x :: l).map SortedTx.id).Nodup)
    (hid : t.id = x.id) (hfind : st.pool.find? t.id = some t) :
    Picked s.chain p l (considerTx (s.poolContext e) st t coinbase) := by
  have hrow : p.find? t.id = some t := by
    rw [← hfind, hid]
    exact (h.rows x List.mem_cons_self).symm
  have hcache : st.pool.inputCache.lookup t.id = p.inputCache.lookup t.id :=
    hid ▸ h.cache x List.mem_cons_self
  rw [List.map_cons, List.nodup_cons] at hnd
  have hne : ∀ y ∈ l, y.id ≠ t.id := fun y hy heq =>
    hnd.1 (hid ▸ heq ▸ List.mem_map_of_mem hy)
  obtain ⟨htouched, hcases⟩ := considerTx_cases (s.poolContext e) st t coinbase
  have hrows : ∀ y ∈ l, (considerTx (s.poolContext e) st t coinbase).pool.find? y.id
      = p.find? y.id := fun y hy =>
    (htouched.rows y.id (hne y hy)).trans (h.rows y (List.mem_cons_of_mem _ hy))
  have hcaches : ∀ y ∈ l, (considerTx (s.poolContext e) st t coinbase).pool.inputCache.lookup y.id
      = p.inputCache.lookup y.id := fun y hy =>
    (htouched.cache y.id (hne y hy)).trans (h.cache y (List.mem_cons_of_mem _ hy))
  rcases hcases with heq | ⟨tx, hready, himages, heq⟩
  · refine ⟨hrows, hcaches, ?_, ?_, ?_⟩ <;> rw [heq]
    · exact h.skip.fresh
    · exact h.noted
    · exact h.free
  · refine ⟨hrows, hcaches, ?_, ?_, ?_⟩ <;> rw [heq]
    · intro y hy hmem
      rcases List.mem_append.mp hmem with hmem | hmem
      · exact h.skip.fresh y hy hmem
      · exact hne y hy (List.mem_singleton.mp hmem)
    · intro a ha u hu
      rcases List.mem_append.mp ha with ha | ha
      · exact (h.noted a ha u hu).imp_right fun hnoted image himage =>
          mem_appendKeyImages_of_mem tx.vin (hnoted image himage)
      · -- the new one: from the cache, or its images are appended
        obtain rfl := List.mem_singleton.mp ha
        obtain rfl := Option.some.inj (hrow.symm.trans hu)
        rcases hready with ⟨⟨r, hr⟩, -⟩ | ⟨-, ⟨r, hr⟩, rfl⟩
        · exact .inl ⟨r, hcache ▸ hr⟩
        · have hkeys := (unspent_of_poolContext hr).1
          exact .inr fun image himage => mem_appendKeyImages hkeys (ho.distinct _ _ hrow)
            (fun image => mem_of_haveKeyImages_false hkeys himages) himage
    · refine ⟨List.pairwise_append.mpr ⟨h.free.1, List.pairwise_singleton _ _, ?_⟩, ?_⟩
      · intro a ha b hb u v hu hv
        obtain rfl := List.mem_singleton.mp hb
        obtain rfl := Option.some.inj (hrow.symm.trans hv)
        exact h.disjoint hlone hid hrow hready himages ha hu
      · intro a ha u hu
        rcases List.mem_append.mp ha with ha | ha
        · exact h.free.2 a ha u hu
        · obtain rfl := List.mem_singleton.mp ha
          obtain rfl := Option.some.inj (hrow.symm.trans hu)
          rcases hready with ⟨⟨r, hr⟩, -⟩ | ⟨-, ⟨r, hr⟩, -⟩
          · exact ho.sound t.id t r hrow (hcache ▸ hr)
          · exact (unspent_of_poolContext hr).2

theorem Picked.fillLoop (ho : Orderly s.chain p) (hlone : LoneCached p) (l : List SortedTx)
    (hnd : (l.map SortedTx.id).Nodup) (h : Picked s.chain p l st) :
    ConflictFree s.chain p
      (fillLoop e (s.poolContext e) medianWeight maxWeight coins version l st).txHashes := by
  induction l generalizing st with
  | nil => exact h.free
  | cons x rest ih =>
    have hnd' := (List.nodup_cons.mp (List.map_cons ▸ hnd)).2
    rcases fillLoop_cons with ⟨heq, -⟩ | ⟨heq, -⟩ | ⟨t, coinbase, hfind, hid, -, heq⟩ <;>
      rw [heq]
    · exact ih hnd' h.skip
    · exact h.free
    · exact ih hnd' (h.consider ho hlone hnd hid hfind)

end Loop

/-! ## Sequences of calls -/

/-- The arguments of a call of `fill_block_template`, and the clock at that moment. -/
structure FillCall where
  reads : Nat
  medianWeight : UInt64
  alreadyGeneratedCoins : UInt64
  version : Nat

def FillCall.run (e : Env) (s : Blockchain) (p : TxPool) (c : FillCall) : Option FillState :=
  fillBlockTemplate e (({ s with reads := c.reads } : Blockchain).poolContext e) p c.medianWeight
    c.alreadyGeneratedCoins c.version

/-- Every call of a sequence meets a condition, on the pool it is made on. -/
def EachFill (e : Env) (s : Blockchain) (P : TxPool → FillCall → Prop) :
    TxPool → List FillCall → Prop
  | _, [] => True
  | p, c :: cs => P p c ∧ EachFill e s P (((c.run e s p).map FillState.pool).getD p) cs

theorem Orderly.fill {c : FillCall} (h : Orderly s.chain p) :
    Orderly s.chain (((c.run e s p).map FillState.pool).getD p) := by
  cases hrun : c.run e s p with
  | none => exact h
  | some st =>
    obtain ⟨best, -, rfl⟩ := Option.map_eq_some_iff.mp hrun
    have hstart : Orderly ({ s with reads := c.reads } : Blockchain).chain
        ({ pool := p, bestCoinbase := best } : FillState).pool := h
    exact hstart.fillLoop p.sorted

theorem conflictFree_of_loneCached {c : FillCall} (h : Orderly s.chain p) (hlone : LoneCached p)
    (hrun : c.run e s p = some st) : ConflictFree s.chain p st.txHashes := by
  obtain ⟨best, -, rfl⟩ := Option.map_eq_some_iff.mp hrun
  have hstart : Picked ({ s with reads := c.reads } : Blockchain).chain p p.sorted
      { pool := p, bestCoinbase := best } :=
    ⟨fun _ _ => rfl, fun _ _ => rfl, fun _ _ => List.not_mem_nil,
      fun _ hid => absurd hid List.not_mem_nil, .nil, fun _ hid => absurd hid List.not_mem_nil⟩
  have horderly : Orderly ({ s with reads := c.reads } : Blockchain).chain p := h
  exact hstart.fillLoop horderly hlone _ h.container

/-- **Templates do not conflict**, as long as no transaction whose inputs are in the cache
shares a key image with another one in the pool: in every sequence of calls on one chain
each call chooses transactions with different key images, none of them spent on the
chain. -/
theorem templates_conflict_free (e : Env) (s : Blockchain) (p : TxPool) (h : Orderly s.chain p)
    (cs : List FillCall) (hlone : EachFill e s (fun p _ => LoneCached p) p cs) :
    EachFill e s (fun p c => ∀ st, c.run e s p = some st → ConflictFree s.chain p st.txHashes)
      p cs := by
  induction cs generalizing p with
  | nil => trivial
  | cons c cs ih =>
    exact ⟨fun st hrun => conflictFree_of_loneCached h hlone.1 hrun, ih _ h.fill hlone.2⟩

/-! ## The second template -/

/-- A node at its genesis block whose pool holds two transactions that spend the genesis
output with one key image: the first was relayed, the second came from a block. -/
def rivalNode : Blockchain :=
  let relayed := regtestTx 7 moneySupply 0 5
  let rival := { regtestTx 8 moneySupply 0 5 with vin := relayed.vin }
  { ({} : Blockchain).withGenesis (regtest firstVersion) (regtestGenesis 1 [moneySupply]) {} with
    pool :=
      { txs := [⟨8, relayed, { weight := 100, fee := 5, relayMethod := .fluff }⟩,
          ⟨9, rival, { weight := 100, fee := 5, relayMethod := .block }⟩]
        sorted := [⟨2, 0, 8⟩, ⟨1, 0, 9⟩] } }

def roomyCall : FillCall := ⟨1, 300000, moneySupply, 1⟩

theorem rivalNode_orderly : Orderly rivalNode.chain rivalNode.pool := by
  refine ⟨by decide, by decide, fun id t hf => ?_, fun id t r _ hr => ?_⟩
  · have hmem : t ∈ rivalNode.pool.txs := Keyed.mem_of_find? hf
    have hall : rivalNode.pool.txs.all (fun t => t.tx.keyImages.Nodup) = true := by decide
    simpa using List.all_eq_true.mp hall t hmem
  · cases hr

theorem templates_conflict_free_first :
    EachFill (regtest (schedule 1 [])) rivalNode (fun p c => ∀ st,
      c.run (regtest (schedule 1 [])) rivalNode p = some st →
        ConflictFree rivalNode.chain p st.txHashes) rivalNode.pool [roomyCall] :=
  templates_conflict_free (regtest (schedule 1 [])) rivalNode rivalNode.pool rivalNode_orderly
    [roomyCall] ⟨fun _ _ _ _ hr => absurd hr (by simp [rivalNode]), trivial⟩

def rivalPool : TxPool :=
  ((roomyCall.run (regtest firstVersion) rivalNode rivalNode.pool).map FillState.pool).getD
    rivalNode.pool

/-- The second template, made on the same chain, has both. -/
theorem second_template_conflicts :
    Orderly rivalNode.chain rivalNode.pool ∧
      ¬ EachFill (regtest (schedule 1 [])) rivalNode (fun p c => ∀ st,
        c.run (regtest (schedule 1 [])) rivalNode p = some st →
          ConflictFree rivalNode.chain p st.txHashes) rivalNode.pool [roomyCall, roomyCall] := by
  refine ⟨rivalNode_orderly, fun hfree => ?_⟩
  have hlisted : (roomyCall.run (regtest (schedule 1 [])) rivalNode rivalPool).map
    FillState.txHashes = some [8, 9] := by decide +kernel
  obtain ⟨st, hst, hids⟩ := Option.map_eq_some_iff.mp hlisted
  have hpair := (hfree.2.1 st hst).1
  rw [hids] at hpair
  -- both rows spend the image 7
  have hfirst : (rivalPool.find? 8).map (fun t => t.tx.keyImages) = some [7] := by decide +kernel
  have hsecond : (rivalPool.find? 9).map (fun t => t.tx.keyImages) = some [7] := by decide +kernel
  obtain ⟨t, ht, himages⟩ := Option.map_eq_some_iff.mp hfirst
  obtain ⟨u, hu, himages'⟩ := Option.map_eq_some_iff.mp hsecond
  have hdisjoint := (List.pairwise_cons.mp hpair).1 9 (by simp) t u ht hu
  rw [himages, himages'] at hdisjoint
  exact hdisjoint List.mem_cons_self List.mem_cons_self

end Oxyra
