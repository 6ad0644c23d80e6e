import Oxyra.Logic.Regtest

/-!
# What a refused block does to the pool

The transaction loop takes a block's transactions out of the pool one by one;
every exit after it has to bring them back.

* `returnTxsToPool` brings each one back, kept by a block. It loses something
  only if counting a returned transaction finds the pool over its limit with a
  transaction to evict (`EvictsOnReturn`).
* The exit for pruned transactions without a precomputed weight brings nothing
  back, and like the exit at a zero difficulty sets no flag.
* `refusal_loses_nothing_iff`: these are all the ways to lose something.
-/

namespace Oxyra

open Blockchain

variable {e : Env} {s : Blockchain} {bl : Block} {id : Hash} {ps : PoolSupplement} {fast : Bool}
  {st : TakeState}

def TxPool.tx? (p : TxPool) (id : Hash) : Option Transaction :=
  (p.find? id).map PoolTx.tx

/-! ## Handing transactions back -/

/-- A transaction of the pool `p` that is not in `gone` and that pruning may
remove. -/
def Prunable (p : TxPool) (gone : List Hash) (x : SortedTx) : Prop :=
  x.id ∉ gone ∧ ∃ t, p.find? x.id = some t ∧ t.keptByBlock = false

/-- Whether handing back `taken` evicts something from what is left of the pool
`p`, given the weight and the container it starts with. -/
def EvictsOnReturn (e : Env) (p : TxPool) (gone : List Hash) (now : Nat) :
    List TakenTx → UInt64 → List SortedTx → Prop
  | [], _, _ => False
  | t :: rest, weight, sorted =>
    if t.fromPool then
      let weight := weight + t.weight
      let sorted := TxPool.insertSorted ⟨feePerByte t.fee t.weight, now, t.id⟩ sorted
      (e.txpoolMaxWeight < weight ∧ ∃ x ∈ sorted.tail, Prunable p gone x) ∨
        EvictsOnReturn e p gone now rest weight sorted
    else EvictsOnReturn e p gone now rest weight sorted

/-- The pool in the middle of the loop: `rest` is still to be handed back. -/
structure Returning (p : TxPool) (gone : List Hash) (rest : List TakenTx) (weight : UInt64)
    (sorted : List SortedTx) (q : TxPool) : Prop where
  other : ∀ id, id ∉ gone → q.find? id = p.find? id
  pending : ∀ id ∈ poolIds rest, q.find? id = none ∧ id ∉ q.addedTxsById ∧
    ∀ x ∈ q.sorted, x.id ≠ id
  back : ∀ id ∈ gone, id ∉ poolIds rest →
    ∃ t, q.find? id = some t ∧ t.keptByBlock = true ∧ p.tx? id = some t.tx
  weightEq : q.txpoolWeight = weight
  sortedEq : q.sorted = sorted

variable {p q : TxPool} {gone : List Hash} {rest : List TakenTx} {weight : UInt64}
  {sorted : List SortedTx} {t : TakenTx}

theorem mem_insertSorted {x y : SortedTx} {l : List SortedTx} :
    y ∈ TxPool.insertSorted x l ↔ y = x ∨ y ∈ l := by
  induction l with
  | nil => simp [TxPool.insertSorted]
  | cons z l ih =>
    unfold TxPool.insertSorted
    split
    · simp
    · rw [List.mem_cons, ih, List.mem_cons]
      tauto

theorem Returning.evictable_iff (h : Returning p gone rest weight sorted q) :
    TxPool.Evictable e.txpoolMaxWeight q ↔
      e.txpoolMaxWeight < weight ∧ ∃ x ∈ sorted.tail, Prunable p gone x := by
  unfold TxPool.Evictable
  rw [h.weightEq, h.sortedEq]
  refine and_congr_right fun _ => exists_congr fun x => and_congr_right fun _ => ?_
  constructor
  · rintro ⟨t, hf, hk⟩
    have hout : x.id ∉ gone := by
      intro hin
      by_cases hp : x.id ∈ poolIds rest
      · exact absurd ((h.pending _ hp).1.symm.trans hf) (by simp)
      · -- what has come back is kept by a block
        obtain ⟨t', hf', hk', _⟩ := h.back _ hin hp
        obtain rfl := Option.some.inj (hf.symm.trans hf')
        exact absurd (hk.symm.trans hk') (by simp)
    exact ⟨hout, t, by rw [← h.other _ hout]; exact hf, hk⟩
  · rintro ⟨hout, t, hf, hk⟩
    exact ⟨t, by rw [h.other _ hout]; exact hf, hk⟩

/-- One transaction comes back: the state of the loop before the pool is pruned. -/
theorem Returning.addTx (ctx : PoolContext) (version : Nat) {row : PoolTx}
    (h : Returning p gone (t :: rest) weight sorted q) (hpool : t.fromPool = true)
    (hnew : t.id ∉ poolIds rest) (hgone : t.id ∈ gone) (hrow : p.find? t.id = some row)
    (htx : t.tx = row.tx) (hkeys : t.tx.vin.all TxinV.isToKey = true)
    (hfee : t.fee = getTxFee t.tx) :
    ∃ q', returnTx e ctx version q t = q'.prune e e.txpoolMaxWeight ∧
      Returning p gone rest (weight + t.weight)
        (TxPool.insertSorted ⟨feePerByte t.fee t.weight, ctx.now, t.id⟩ sorted) q' := by
  have hids : poolIds (t :: rest) = t.id :: poolIds rest := by
    simp [poolIds, hpool]
  obtain ⟨hnone, hadded, hsorted⟩ := h.pending t.id (by simp [hids])
  obtain ⟨q₁, r, hadd, hr, htxs, hs, hw, ha⟩ := TxPool.addTx_block_written (e := e) ctx t.weight
    true version hnone hkeys hadded hsorted
  refine ⟨{ q₁ with txpoolWeight := q₁.txpoolWeight + t.weight, cookie := q₁.cookie + 1 }, ?_, ?_⟩
  · unfold returnTx
    rw [if_pos hpool, hadd]
    rfl
  -- the new row is found under its own id and no other
  have hfind : ∀ id, q₁.find? id = if id = t.id then some r else q.find? id := by
    intro id
    unfold TxPool.find?
    rw [htxs, Keyed.find?_append, Keyed.find?_cons, hr.idEq]
    by_cases hid : id = t.id
    · rw [show Keyed.find? PoolTx.id q.txs id = none from hid ▸ hnone]
      simp [hid]
    · simp [hid, Ne.symm hid]
  constructor
  · intro id hid
    have hne : id ≠ t.id := fun heq => hid (heq ▸ hgone)
    exact (hfind id).trans (by rw [if_neg hne, h.other id hid])
  · intro id hid
    have hne : id ≠ t.id := fun heq => hnew (heq ▸ hid)
    obtain ⟨h1, h2, h3⟩ := h.pending id (by simp [hids, hid])
    refine ⟨(hfind id).trans (by rw [if_neg hne, h1]), ?_, ?_⟩
    · show id ∉ q₁.addedTxsById
      simp [ha, hne, h2]
    · intro x hx
      have hx' : x ∈ q₁.sorted := hx
      rw [hs, mem_insertSorted] at hx'
      rcases hx' with rfl | hx'
      · exact Ne.symm hne
      · exact h3 x hx'
  · intro id hin hout
    by_cases hid : id = t.id
    · refine ⟨r, (hfind id).trans (if_pos hid), by simp [hr.kept], ?_⟩
      rw [hid, TxPool.tx?, hrow, hr.txEq, htx]
      rfl
    · obtain ⟨t', h1, h2, h3⟩ := h.back id hin (by simp [hids, hid, hout])
      exact ⟨t', (hfind id).trans (by rw [if_neg hid, h1]), h2, h3⟩
  · show q₁.txpoolWeight + t.weight = _
    rw [hw, h.weightEq]
  · show q₁.sorted = _
    rw [hs, h.sortedEq, hfee]

theorem returnTxsToPool_look_none (ctx : PoolContext) (version : Nat) (taken : List TakenTx)
    (q : TxPool) (hid : id ∉ poolIds taken) (h : q.look id = none) :
    (returnTxsToPool e ctx version q taken).look id = none := by
  unfold returnTxsToPool
  induction taken generalizing q with
  | nil => exact h
  | cons t rest ih =>
    cases hpool : t.fromPool with
    | false =>
      have hsame : returnTx e ctx version q t = q := by simp [returnTx, hpool]
      rw [List.foldl_cons, hsame]
      exact ih q (by simpa [poolIds, hpool] using hid) h
    | true =>
      have hids : poolIds (t :: rest) = t.id :: poolIds rest := by simp [poolIds, hpool]
      rw [hids, List.mem_cons, not_or] at hid
      refine ih _ hid.2 ?_
      unfold returnTx
      rw [if_pos hpool]
      rcases (TxPool.addTx_result e ctx q t.tx t.id t.weight .block true version
        version).look_ne hid.1 with h1 | ⟨h1, _⟩
      · exact h1.trans h
      · exact h1

/-- A record that came out of the pool `p` and belongs to its row there. -/
def FromRow (p : TxPool) (gone : List Hash) (t : TakenTx) : Prop :=
  t.fromPool = true → t.id ∈ gone ∧ t.fee = getTxFee t.tx ∧
    t.tx.vin.all TxinV.isToKey = true ∧ ∃ row, p.find? t.id = some row ∧ t.tx = row.tx

/-- **The loop that hands transactions back** either brings every one back and
touches no other, or evicts one for good. -/
theorem Returning.run (ctx : PoolContext) (version : Nat) (taken : List TakenTx)
    (hsrc : ∀ t ∈ taken, FromRow p gone t) (hnodup : (poolIds taken).Nodup)
    (h : Returning p gone taken weight sorted q) :
    (¬ EvictsOnReturn e p gone ctx.now taken weight sorted →
      ∃ weight sorted, Returning p gone [] weight sorted
        (returnTxsToPool e ctx version q taken)) ∧
    (EvictsOnReturn e p gone ctx.now taken weight sorted →
      ∃ id, p.find? id ≠ none ∧ (returnTxsToPool e ctx version q taken).find? id = none) := by
  induction taken generalizing q weight sorted with
  | nil => exact ⟨fun _ => ⟨weight, sorted, h⟩, fun hev => absurd hev (by simp [EvictsOnReturn])⟩
  | cons t rest ih =>
    have hsrc' : ∀ t ∈ rest, FromRow p gone t := fun u hu => hsrc u (List.mem_cons_of_mem _ hu)
    unfold EvictsOnReturn
    cases hpool : t.fromPool with
    | false =>
      have hids : poolIds (t :: rest) = poolIds rest := by simp [poolIds, hpool]
      have hsame : returnTx e ctx version q t = q := by simp [returnTx, hpool]
      have hrest : returnTxsToPool e ctx version q (t :: rest)
          = returnTxsToPool e ctx version q rest := by
        simp only [returnTxsToPool, List.foldl_cons, hsame]
      rw [hrest]
      simp only [Bool.false_eq_true, if_false]
      exact ih hsrc' (hids ▸ hnodup)
        ⟨h.other, hids ▸ h.pending, hids ▸ h.back, h.weightEq, h.sortedEq⟩
    | true =>
      have hids : poolIds (t :: rest) = t.id :: poolIds rest := by simp [poolIds, hpool]
      rw [hids, List.nodup_cons] at hnodup
      obtain ⟨hgone, hfee, hkeys, row, hrow, htx⟩ := hsrc t List.mem_cons_self hpool
      obtain ⟨q', hq', hret⟩ := h.addTx (e := e) ctx version hpool
        hnodup.1 hgone hrow htx hkeys hfee
      have hstep : returnTxsToPool e ctx version q (t :: rest)
          = returnTxsToPool e ctx version (q'.prune e e.txpoolMaxWeight) rest := by
        simp only [returnTxsToPool, List.foldl_cons, hq']
      rw [hstep]
      simp only [if_true]
      rw [← hret.evictable_iff]
      by_cases hev : TxPool.Evictable e.txpoolMaxWeight q'
      · -- something goes here, and whatever follows does not bring it back
        refine ⟨fun hno => absurd (.inl hev) hno, fun _ => ?_⟩
        obtain ⟨id, u, hu, hk, hlost⟩ := TxPool.prune_of_evictable hev
        have hout : id ∉ gone := by
          intro hin
          by_cases hp : id ∈ poolIds rest
          · exact absurd ((hret.pending _ hp).1.symm.trans hu) (by simp)
          · obtain ⟨u', hu', hk', _⟩ := hret.back _ hin hp
            obtain rfl := Option.some.inj (hu.symm.trans hu')
            exact absurd (hk.symm.trans hk') (by simp)
        refine ⟨id, by rw [← hret.other id hout, hu]; simp, ?_⟩
        have hnot : id ∉ poolIds rest := by
          intro hp
          exact absurd ((hret.pending _ hp).1.symm.trans hu) (by simp)
        have := returnTxsToPool_look_none (e := e) ctx version rest _
          hnot (show (q'.prune e e.txpoolMaxWeight).look id = none by simp [TxPool.look, hlost])
        simpa [TxPool.look] using this
      · rw [TxPool.prune_of_not_evictable hev]
        simp only [hev, false_or]
        exact ih hsrc' hnodup.2 hret

/-- A pool that stays within its limit with everything handed back evicts nothing. -/
theorem not_evictsOnReturn_of_le {now : Nat} (taken : List TakenTx)
    (h : weight.toNat + WordSum.natSum ((taken.filter TakenTx.fromPool).map TakenTx.weight)
      ≤ e.txpoolMaxWeight.toNat) : ¬ EvictsOnReturn e p gone now taken weight sorted := by
  induction taken generalizing weight sorted with
  | nil => simp [EvictsOnReturn]
  | cons t rest ih =>
    unfold EvictsOnReturn
    cases hpool : t.fromPool with
    | false =>
      simp only [Bool.false_eq_true, if_false]
      exact ih (by simpa [hpool] using h)
    | true =>
      simp only [List.filter_cons_of_pos hpool, List.map_cons, WordSum.natSum_cons] at h
      have hmax := e.txpoolMaxWeight.toNat_lt
      have hsum : (weight + t.weight).toNat = weight.toNat + t.weight.toNat := by
        rw [UInt64.toNat_add]
        omega
      simp only [if_true, not_or, not_and]
      refine ⟨fun hlt => ?_, ih (by omega)⟩
      have hlt' : e.txpoolMaxWeight.toNat < (weight + t.weight).toNat := hlt
      omega

/-! ## One call -/

/-- Every transaction of the pool is still there and the flag is set. -/
def KeepsPool (s : Blockchain) (o : Outcome) : Prop :=
  (∀ id tx, s.pool.tx? id = some tx → o.st.pool.tx? id = some tx) ∧
    o.bvc.verifivationFailed = true

/-- The records with which a call that is refused goes to `return_txs_to_pool`: the
loop gave up, or the coinbase or the database said no. -/
def ReturnsTaken (e : Env) (s : Blockchain) (bl : Block) (ps : PoolSupplement) (fast : Bool)
    (st : TakeState) : Prop :=
  (∃ err, s.takeFor e bl ps fast = .error (err, st)) ∨
    s.takeFor e bl ps fast = .ok st ∧ WriteFails e s bl st

/-- Nothing can be lost: the difficulty is not zero where it is looked at, a block
that gets to the weighing of its transactions has a weight, and handing its
transactions back evicts nothing. -/
structure LosesNothing (e : Env) (s : Blockchain) (bl : Block) (id : Hash) (ps : PoolSupplement) :
    Prop where
  overhead : ¬ Overhead e s bl
  weighed : ∀ fast st, HeaderOk e s bl id ps fast → s.takeFor e bl ps fast = .ok st →
    cumulativeBlockWeight e s.height bl st.taken ≠ none
  room : ∀ fast st, HeaderOk e s bl id ps fast → ReturnsTaken e s bl ps fast st →
    ¬ EvictsOnReturn e s.pool (poolIds st.taken) (e.clock (s.reads + 1)) st.taken
      (weightWithout s.pool st.taken) (sortedWithout s.pool st.taken)

theorem Taking.returning (h : Taking e s.pool ps st) :
    Returning s.pool (poolIds st.taken) st.taken (weightWithout s.pool st.taken)
      (sortedWithout s.pool st.taken) st.pool where
  other id hid := by rw [h.pool id, if_neg hid]
  pending id hid := by
    refine ⟨by rw [h.pool id, if_pos hid], h.added id hid, fun x hx heq => ?_⟩
    rw [h.sorted] at hx
    have := (List.mem_filter.mp hx).2
    simp [heq, hid] at this
  back id hin hout := absurd hin hout
  weightEq := h.weight
  sortedEq := h.sorted

theorem Taking.fromRow (hrows : TxPool.RowsOk e s.pool) (h : Taking e s.pool ps st) :
    ∀ t ∈ st.taken, FromRow s.pool (poolIds st.taken) t := by
  intro t ht hpool
  cases h.source t ht with
  | supplement _ heq =>
    rw [heq] at hpool
    exact absurd hpool (by simp)
  | pool row hf heq =>
    have hrow := hrows.row row (Keyed.mem_of_find? hf)
    refine ⟨List.mem_map_of_mem (List.mem_filter.mpr ⟨ht, hpool⟩), ?_, ?_, row, hf, ?_⟩
    · rw [heq]
      exact hrow.fee
    · rw [heq]
      exact hrow.toKey
    · rw [heq]

theorem ReturnsTaken.taking (h : ReturnsTaken e s bl ps fast st) : Taking e s.pool ps st :=
  h.elim (fun ⟨_, ht⟩ => (takeFor_error ht).1) fun ht => (takeFor_ok ht.1).1

theorem ReturnsTaken.unique {st' : TakeState} (h : ReturnsTaken e s bl ps fast st)
    (h' : ReturnsTaken e s bl ps fast st') : st' = st := by
  rcases h with ⟨err, ht⟩ | ⟨ht, _⟩ <;> rcases h' with ⟨err', ht'⟩ | ⟨ht', _⟩
  · exact (Prod.mk.inj (Except.error.inj (ht.symm.trans ht'))).2.symm
  · exact absurd (ht.symm.trans ht') (by simp)
  · exact absurd (ht.symm.trans ht') (by simp)
  · exact (Except.ok.inj (ht.symm.trans ht')).symm

theorem RefusedReturning.keeps_iff (hrows : TxPool.RowsOk e s.pool) {o : Outcome}
    (hret : ReturnsTaken e s bl ps fast st) (h : RefusedReturning e s st o) :
    KeepsPool s o ↔ ¬ EvictsOnReturn e s.pool (poolIds st.taken) (e.clock (s.reads + 1)) st.taken
      (weightWithout s.pool st.taken) (sortedWithout s.pool st.taken) := by
  obtain ⟨invalid, weights, bvc, _, rfl, _, hflag⟩ := h
  have hinv := hret.taking
  obtain ⟨hkeep, hlose⟩ := hinv.returning.run (e := e)
    (({ s.afterHeader e with invalidBlocks := invalid, weights := weights } :
      Blockchain).poolContext e) (s.hfVersion e) st.taken (hinv.fromRow hrows) hinv.nodup
  constructor
  · rintro ⟨hall, _⟩ hev
    obtain ⟨id, hin, hout⟩ := hlose hev
    obtain ⟨t, ht⟩ := Option.ne_none_iff_exists'.mp hin
    have := hall id t.tx (by rw [TxPool.tx?, ht]; rfl)
    rw [TxPool.tx?, hout] at this
    exact absurd this (by simp)
  · intro hno
    obtain ⟨w, l, hfinal⟩ := hkeep hno
    refine ⟨fun id tx htx => ?_, hflag⟩
    by_cases hid : id ∈ poolIds st.taken
    · obtain ⟨t, hf, _, hsame⟩ := hfinal.back id hid (by simp [poolIds])
      rw [htx] at hsame
      rw [TxPool.tx?, hf, hsame]
      rfl
    · rw [TxPool.tx?, hfinal.other id hid]
      exact htx

/-- **A refused block loses no pool transaction** and is flagged, exactly if the
three ways to lose one are excluded. -/
theorem refusal_loses_nothing_iff (hrows : TxPool.RowsOk e s.pool) :
    ((s.handleBlockToMainChain e bl id ps).ret = false →
      KeepsPool s (s.handleBlockToMainChain e bl id ps)) ↔ LosesNothing e s bl id ps := by
  have hexit := handleBlock_exit e s bl id ps
  generalize s.handleBlockToMainChain e bl id ps = o at hexit
  cases hexit with
  | early hn hr =>
    obtain ⟨d, bvc, _, rfl, _, hflag⟩ := hr
    constructor
    · intro h
      refine ⟨fun hov => ?_, fun fast _ hh => absurd hh (hn fast),
        fun fast _ hh => absurd hh (hn fast)⟩
      exact absurd ((h rfl).2.symm.trans (hflag.mpr hov)) (by simp)
    · intro h _
      exact ⟨fun _ _ htx => htx, by simpa [h.overhead] using hflag⟩
  | @returned o fast st hh why hr =>
    have hov : ¬ Overhead e s bl := fun hov => hh.difficulty hov.zero
    have hfalse : o.ret = false := by
      obtain ⟨_, _, _, _, rfl, _⟩ := hr
      rfl
    rw [hfalse]
    simp only [true_implies]
    rw [hr.keeps_iff hrows why]
    constructor
    · intro hno
      refine ⟨hov, fun fast' st' hh' hok hw => ?_, fun fast' st' hh' hret => ?_⟩
      · obtain rfl := hh.fast_unique hh'
        rcases why with ⟨err, ht⟩ | ⟨ht, weight, hsome, _⟩
        · exact absurd (ht.symm.trans hok) (by simp)
        · obtain rfl := Except.ok.inj (ht.symm.trans hok)
          exact absurd (hsome.symm.trans hw) (by simp)
      · obtain rfl := hh.fast_unique hh'
        obtain rfl := ReturnsTaken.unique why hret
        exact hno
    · exact fun h => h.room fast st hh why
  | @bare fast st hh ht hw =>
    constructor
    · exact fun h => absurd (h rfl).2 (by simp [bareOutcome])
    · exact fun h => absurd hw (h.weighed fast st hh ht)
  | @accepted fast st weight r ha =>
    refine ⟨fun _ => ?_, fun _ h => absurd h (by simp [acceptedOutcome])⟩
    refine ⟨fun hov => ha.difficulty hov.zero, fun fast' st' hh' hok => ?_,
      fun fast' st' hh' hret => ?_⟩
    · obtain rfl := ha.toHeaderOk.fast_unique hh'
      obtain rfl := Except.ok.inj (ha.taken.symm.trans hok)
      simp [ha.weighed]
    · -- an accepted block hands nothing back
      obtain rfl := ha.toHeaderOk.fast_unique hh'
      rcases hret with ⟨err, ht⟩ | ⟨ht, weight', hw, hfail⟩
      · exact absurd (ha.taken.symm.trans ht) (by simp)
      · obtain rfl := Except.ok.inj (ha.taken.symm.trans ht)
        obtain rfl := Option.some.inj (ha.weighed.symm.trans hw)
        exact absurd ha.storable (by simp [hfail r ha.reward])

/-- A regression-test node on its genesis block, with one transaction of fee 5 in
the pool. -/
def pooledRegtest : Blockchain :=
  let e := regtest firstVersion
  { ({} : Blockchain).withGenesis e (regtestGenesis 1 [moneySupply]) {} with
    pool :=
      { txs := [⟨8#256, regtestTx 7 moneySupply 0 5, { weight := 100, fee := 5 }⟩]
        sorted := [⟨feePerByte 5 100, 0, 8#256⟩]
        addedTxsById := [8#256]
        txpoolWeight := 100 } }

theorem pooledRegtest_rows : TxPool.RowsOk (regtest (schedule 1 [])) pooledRegtest.pool where
  row t ht := by
    obtain rfl := List.mem_singleton.mp ht
    exact ⟨rfl, by decide, rfl, rfl⟩
  nodup := by decide

/-- A block that lists the transaction but does not claim its fee is refused, and
the transaction is back. -/
theorem refusal_loses_nothing_regtest :
    let e := regtest (schedule 1 [])
    let o := pooledRegtest.handleBlockToMainChain e (regtestBlock 1 1 0 1 [] [8#256]) 2#256 {}
    o.ret = false ∧ KeepsPool pooledRegtest o := by
  have hfalse : (pooledRegtest.handleBlockToMainChain (regtest (schedule 1 []))
      (regtestBlock 1 1 0 1 [] [8#256]) 2#256 {}).ret = false := by decide +kernel
  have htaken : (pooledRegtest.takeFor (regtest (schedule 1 [])) (regtestBlock 1 1 0 1 [] [8#256])
      {} false).toOption.map TakeState.taken
        = some [⟨8#256, regtestTx 7 moneySupply 0 5, 100, 5, false, true⟩] := by decide +kernel
  have hslow : ∀ fast, HeaderOk (regtest (schedule 1 [])) pooledRegtest
      (regtestBlock 1 1 0 1 [] [8#256]) 2#256 {} fast → fast = false := fun fast hh =>
    Option.some.inj (hh.precomputed.symm.trans rfl)
  have hst : ∀ st, pooledRegtest.takeFor (regtest (schedule 1 []))
      (regtestBlock 1 1 0 1 [] [8#256]) {} false = .ok st →
      st.taken = [⟨8#256, regtestTx 7 moneySupply 0 5, 100, 5, false, true⟩] := by
    intro st hok
    rw [hok] at htaken
    exact Option.some.inj htaken
  refine ⟨hfalse, (refusal_loses_nothing_iff pooledRegtest_rows).mpr ⟨?_, ?_, ?_⟩ hfalse⟩
  · exact fun hov => absurd hov.zero (by decide +kernel)
  · intro fast st hh hok
    obtain rfl := hslow fast hh
    rw [hst st hok]
    decide
  · intro fast st hh hret
    obtain rfl := hslow fast hh
    rcases hret with ⟨err, herr⟩ | ⟨hok, _⟩
    · rw [herr] at htaken
      exact absurd htaken (by simp [Except.toOption])
    · rw [hst st hok]
      exact not_evictsOnReturn_of_le _ (by decide +kernel)

/-- A block with a precomputed id and no precomputed weight, as where the peer sent hashes only,
that also lists a pruned transaction of its supplement: it is refused without a flag, and the
pool's transaction is gone. -/
theorem refusal_drops_transaction :
    let e := { regtest (schedule 1 []) with blocksHashCheck := [(1#256, 0), (2#256, 0)] }
    let o := pooledRegtest.handleBlockToMainChain e (regtestBlock 1 1 0 1 [] [8#256, 12#256]) 2#256
      (regtestSupplement { regtestTx 11 moneySupply 0 0 with pruned := true })
    checkPrecomputedHash e pooledRegtest.height 2#256 = some true ∧
      pooledRegtest.pool.haveTx 8#256 = true ∧ o.ret = false ∧
      o.bvc.verifivationFailed = false ∧ o.st.pool.haveTx 8#256 = false := by
  decide +kernel

end Oxyra
