import Oxyra.Lib.Evict
import Oxyra.Theorems.PoolWeight

/-!
# Pruning the pool

`prune` walks the container from its end and erases what it walks over.
-/

namespace Oxyra

namespace TxPool

variable {e : Env} {p : TxPool} {t u : PoolTx} {bytes : UInt64}

/-! ## The loop with its iterator -/

/-- The loop of `prune`: `it` stands at position `i` of the container, and `0` is `begin()`.
Erasing an entry moves none before it, so `it_prev` is the position before in the new container. -/
def pruneFrom (bytes : UInt64) : Nat → TxPool → TxPool
  | 0, p => p
  | i + 1, p =>
    if p.txpoolWeight ≤ bytes then p
    else
      match p.sorted[i + 1]? with
      | none => p
      | some x =>
        match p.find? x.id with
        | none => pruneFrom bytes i p
        | some t =>
          if t.keptByBlock then pruneFrom bytes i p
          else pruneFrom bytes i (p.removeTx t)

def pruneIterated (e : Env) (p : TxPool) (bytes : UInt64) : TxPool :=
  if p.sorted = [] then p
  else pruneFrom (if bytes = 0 then e.txpoolMaxWeight else bytes) (p.sorted.length - 1) p

theorem removeTx_sorted (t : PoolTx) :
    (p.removeTx t).sorted = Keyed.erase SortedTx.id p.sorted t.id := rfl

theorem take_erase {l : List SortedTx} {i : Nat} {x : SortedTx}
    (hnd : (l.map SortedTx.id).Nodup) (hx : l[i]? = some x) :
    (Keyed.erase SortedTx.id l x.id).take i = l.take i := by
  induction l generalizing i with
  | nil => simp at hx
  | cons y l ih =>
    rw [List.map_cons, List.nodup_cons] at hnd
    cases i with
    | zero => rfl
    | succ i =>
      rw [List.getElem?_cons_succ] at hx
      have hne : y.id ≠ x.id := fun h =>
        hnd.1 (h ▸ List.mem_map_of_mem (List.mem_of_getElem? hx))
      rw [Keyed.erase_cons, if_neg hne, List.take_succ_cons, List.take_succ_cons,
        ih hnd.2 hx]

theorem pruneFrom_eq (bytes : UInt64) (i : Nat) (hnd : (p.sorted.map SortedTx.id).Nodup)
    (hi : i < p.sorted.length) :
    pruneFrom bytes i p = pruneLoop bytes (p.sorted.take (i + 1)).tail.reverse p := by
  induction i generalizing p with
  | zero =>
    have htail : (p.sorted.take 1).tail = [] := by
      cases p.sorted <;> rfl
    rw [htail]
    rfl
  | succ i ih =>
    have hwalk : (p.sorted.take (i + 2)).tail.reverse =
        p.sorted[i + 1] :: (p.sorted.take (i + 1)).tail.reverse := by
      rw [List.take_succ_eq_append_getElem hi, List.tail_append_of_ne_nil, List.reverse_append]
      · rfl
      · exact List.ne_nil_of_length_pos (by simp; omega)
    have hat := List.getElem?_eq_getElem hi
    rw [hwalk]
    unfold pruneFrom pruneLoop
    rw [hat]
    split
    · rfl
    · dsimp only
      cases hf : p.find? p.sorted[i + 1].id with
      | none => exact ih hnd (by omega)
      | some t =>
        dsimp only
        split
        · exact ih hnd (by omega)
        · have hid : p.sorted[i + 1].id = t.id := (Keyed.key_of_find? hf).symm
          have htake := take_erase hnd hat
          have hlen : i + 1 ≤ (p.removeTx t).sorted.length := by
            have := congrArg List.length htake
            rw [List.length_take, List.length_take] at this
            rw [removeTx_sorted, ← hid]
            omega
          rw [ih (hnd.sublist (List.filter_sublist.map _)) hlen, removeTx_sorted, ← hid, htake]

/-- **The iterator visits the entries there were at the start.** -/
theorem pruneIterated_eq (hnd : (p.sorted.map SortedTx.id).Nodup) :
    p.pruneIterated e bytes = p.prune e bytes := by
  unfold pruneIterated prune
  split
  · rename_i hnil
    rw [hnil]
    rfl
  · rename_i hne
    have hpos := List.length_pos_iff.mpr hne
    rw [pruneFrom_eq _ _ hnd (by omega), show p.sorted.length - 1 + 1 = p.sorted.length by omega,
      List.take_length]

/-! ## The loop as an eviction -/

/-- The stored transactions that entries of the container stand for. -/
def rowsOf (p : TxPool) (l : List SortedTx) : List PoolTx :=
  l.filterMap fun x => p.find? x.id

def ordered (p : TxPool) : List PoolTx :=
  p.rowsOf p.sorted

def dropped (bytes : UInt64) (p : TxPool) (l : List PoolTx) : List PoolTx :=
  Evict.victims (fun t => t.info.weight.toNat) PoolTx.keptByBlock bytes.toNat
    p.txpoolWeight.toNat l

theorem rowsOf_removeTx {l : List SortedTx} (hl : ∀ x ∈ l, x.id ≠ t.id) :
    (p.removeTx t).rowsOf l = p.rowsOf l :=
  List.filterMap_congr fun x hx => by rw [find?_removeTx, if_neg (hl x hx)]

theorem Weighed.toNat_removeTx (h : Weighed p) (hf : p.find? t.id = some t) :
    (p.removeTx t).txpoolWeight.toNat = p.txpoolWeight.toNat - t.info.weight.toNat := by
  have hsum := weightOnFile_removeTx h.nodup hf
  rw [(h.removeTx hf).weight, h.weight]
  omega

/-- **The loop drops the rows the eviction drops.** -/
theorem pruneLoop_eq (hp : Weighed p) (l : List SortedTx) (hnd : (l.map SortedTx.id).Nodup) :
    pruneLoop bytes l p = (dropped bytes p (p.rowsOf l)).foldl removeTx p := by
  induction l generalizing p with
  | nil => rfl
  | cons x rest ih =>
    rw [List.map_cons, List.nodup_cons] at hnd
    unfold pruneLoop
    cases hf : p.find? x.id with
    | none =>
      have hrows : p.rowsOf (x :: rest) = p.rowsOf rest := List.filterMap_cons_none hf
      rw [hrows]
      split
      · rename_i hle
        rw [dropped, Evict.victims_of_le (UInt64.le_iff_toNat_le.mp hle)]
        rfl
      · exact ih hp hnd.2
    | some t =>
      have hrows : p.rowsOf (x :: rest) = t :: p.rowsOf rest := List.filterMap_cons_some hf
      have hid : t.id = x.id := Keyed.key_of_find? hf
      rw [hrows, dropped, Evict.victims]
      simp only [← UInt64.le_iff_toNat_le]
      split
      · rfl
      · split
        · exact ih hp hnd.2
        · have hfresh : ∀ y ∈ rest, y.id ≠ t.id := fun y hy heq =>
            hnd.1 (List.mem_map.mpr ⟨y, hy, heq.trans hid⟩)
          rw [List.foldl_cons, ih (hp.removeTx (hid ▸ hf)) hnd.2, rowsOf_removeTx hfresh,
            dropped, hp.toNat_removeTx (hid ▸ hf)]

/-! ## Rows in fee order -/

/-- The container holds the ids of the stored transactions, each once. -/
def Sorted (p : TxPool) : Prop :=
  (p.sorted.map SortedTx.id).Perm (p.txs.map PoolTx.id)

theorem map_id_rowsOf {l : List SortedTx} (hl : ∀ x ∈ l, ∃ t ∈ p.txs, t.id = x.id) :
    (p.rowsOf l).map PoolTx.id = l.map SortedTx.id := by
  induction l with
  | nil => rfl
  | cons x rest ih =>
    obtain ⟨t, ht⟩ := Option.isSome_iff_exists.mp
      (Keyed.find?_isSome_iff.mpr (hl x List.mem_cons_self))
    have hrows : p.rowsOf (x :: rest) = t :: p.rowsOf rest := List.filterMap_cons_some ht
    rw [hrows, List.map_cons, List.map_cons, ih fun y hy => hl y (List.mem_cons_of_mem _ hy),
      Keyed.key_of_find? ht]

theorem Sorted.mem (h : Sorted p) : ∀ x ∈ p.sorted, ∃ t ∈ p.txs, t.id = x.id := fun _ hx =>
  List.mem_map.mp (h.mem_iff.mp (List.mem_map_of_mem hx))

theorem Sorted.mem_ordered (h : Sorted p) (hnd : (p.txs.map PoolTx.id).Nodup) :
    t ∈ p.ordered ↔ t ∈ p.txs := by
  constructor
  · intro ht
    obtain ⟨x, -, hf⟩ := List.mem_filterMap.mp ht
    exact Keyed.mem_of_find? hf
  · intro ht
    obtain ⟨x, hx, hid⟩ := List.mem_map.mp (h.mem_iff.mpr (List.mem_map_of_mem ht))
    refine List.mem_filterMap.mpr ⟨x, hx, ?_⟩
    rw [hid]
    exact Keyed.find?_of_mem hnd ht

theorem Sorted.nodup_ordered (h : Sorted p) (hnd : (p.txs.map PoolTx.id).Nodup) :
    (p.ordered.map PoolTx.id).Nodup := by
  rw [ordered, map_id_rowsOf h.mem]
  exact h.nodup_iff.mpr hnd

theorem Sorted.rowsOf_walk (h : Sorted p) :
    p.rowsOf p.sorted.tail.reverse = p.ordered.tail.reverse := by
  have hmem := h.mem
  unfold rowsOf ordered
  rw [List.filterMap_reverse]
  cases hs : p.sorted with
  | nil => simp [rowsOf]
  | cons x rest =>
    rw [hs] at hmem
    obtain ⟨t, ht⟩ := Option.isSome_iff_exists.mp
      (Keyed.find?_isSome_iff.mpr (hmem x List.mem_cons_self))
    have hrows : p.rowsOf (x :: rest) = t :: p.rowsOf rest := List.filterMap_cons_some ht
    rw [hrows]
    rfl

theorem mem_foldl_removeTx {l : List PoolTx} (p : TxPool) :
    u ∈ (l.foldl removeTx p).txs ↔ u ∈ p.txs ∧ ∀ t ∈ l, u.id ≠ t.id := by
  induction l generalizing p with
  | nil => simp
  | cons t rest ih =>
    rw [List.foldl_cons, ih, List.forall_mem_cons, ← and_assoc]
    exact and_congr_left' Keyed.mem_erase_iff

theorem toNat_foldl_removeTx {l : List PoolTx} (hp : Weighed p) (hnd : (l.map PoolTx.id).Nodup)
    (hl : ∀ t ∈ l, p.find? t.id = some t) :
    (l.foldl removeTx p).txpoolWeight.toNat =
      p.txpoolWeight.toNat - (l.map fun t => t.info.weight.toNat).sum := by
  induction l generalizing p with
  | nil => rfl
  | cons t rest ih =>
    rw [List.map_cons, List.nodup_cons] at hnd
    have ht := hl t List.mem_cons_self
    rw [List.foldl_cons, ih (hp.removeTx ht) hnd.2, hp.toNat_removeTx ht, List.map_cons,
      List.sum_cons, Nat.sub_sub]
    intro v hv
    have hne : v.id ≠ t.id := fun heq => hnd.1 (heq ▸ List.mem_map_of_mem hv)
    rw [find?_removeTx, if_neg hne]
    exact hl v (List.mem_cons_of_mem _ hv)

/-! ## The result -/

/-- **Pruning removes the right transactions.** For every pool whose container and counter match
what is stored, and every limit (a limit of zero stands for the configured one). -/
theorem prune_removes_right (e : Env) (p : TxPool) (bytes : UInt64)
    (hids : (p.txs.map PoolTx.id).Nodup) (hsorted : Sorted p)
    (hweight : p.txpoolWeight.toNat = p.weightOnFile) :
    let limit := if bytes = 0 then e.txpoolMaxWeight else bytes
    let q := p.pruneIterated e bytes
    -- only what is not kept by a block goes
    (∀ t ∈ p.txs, t ∉ q.txs → t.keptByBlock = false) ∧
    -- with a transaction goes everything of lower priority that is not kept
    (p.ordered.Pairwise fun t u => t ∉ q.txs → u.keptByBlock = false → u ∉ q.txs) ∧
    -- the first stays
    (∀ t, p.ordered.head? = some t → t ∈ q.txs) ∧
    -- each removal is made while the pool is over the limit
    (∃ removed : List PoolTx, q = removed.foldl removeTx p ∧
      ∀ k < removed.length, limit < ((removed.take k).foldl removeTx p).txpoolWeight) ∧
    -- it stops within the limit, or with nothing to remove behind the first
    (q.txpoolWeight ≤ limit ∨ ∀ t ∈ p.ordered.tail, t ∈ q.txs → t.keptByBlock = true) ∧
    q.txpoolWeight.toNat = q.weightOnFile ∧ ∀ t ∈ q.txs, t ∈ p.txs := by
  intro limit q
  have hp : Weighed p := ⟨hids, hweight⟩
  have hsortedNodup : (p.sorted.map SortedTx.id).Nodup := hsorted.nodup_iff.mpr hids
  have hwalkNodup : (p.sorted.tail.reverse.map SortedTx.id).Nodup := by
    rw [List.map_reverse, List.nodup_reverse]
    exact hsortedNodup.sublist ((List.tail_sublist _).map _)
  have horderedIds := hsorted.nodup_ordered hids
  have hordered : p.ordered.Nodup := .of_map _ horderedIds
  generalize hv : dropped limit p p.ordered.tail.reverse = removed
  have hq : q = removed.foldl removeTx p := by
    show p.pruneIterated e bytes = _
    rw [pruneIterated_eq hsortedNodup, prune, pruneLoop_eq hp _ hwalkNodup, hsorted.rowsOf_walk,
      ← hv]
  have hpre : removed <+: p.ordered.tail.reverse.filter fun t => !t.keptByBlock :=
    hv ▸ Evict.victims_prefix _ _
  have hmemTail : ∀ t ∈ removed, t ∈ p.ordered.tail := fun t ht =>
    List.mem_reverse.mp (List.mem_filter.mp (hpre.subset ht)).1
  have hmem : ∀ t ∈ removed, t ∈ p.txs := fun t ht =>
    (hsorted.mem_ordered hids).mp (List.mem_of_mem_tail (hmemTail t ht))
  -- a row is gone exactly if it is among those removed
  have hgone : ∀ t ∈ p.txs, t ∉ q.txs ↔ t ∈ removed := by
    intro t ht
    rw [hq, mem_foldl_removeTx]
    constructor
    · intro h
      by_contra hnot
      refine h ⟨ht, fun u hu heq => hnot ?_⟩
      rwa [List.inj_on_of_nodup_map hids ht (hmem u hu) heq]
    · exact fun h hand => hand.2 t h rfl
  have hfound : ∀ t ∈ removed, p.find? t.id = some t := fun t ht =>
    Keyed.find?_of_mem hids (hmem t ht)
  have hremovedIds : (removed.map PoolTx.id).Nodup := by
    refine List.Nodup.sublist ((hpre.sublist.trans List.filter_sublist).map _) ?_
    rw [List.map_reverse, List.nodup_reverse]
    exact horderedIds.sublist ((List.tail_sublist _).map _)
  refine ⟨fun t ht hout => ?_, ?_, fun t hhead => ?_, ⟨removed, hq, fun k hk => ?_⟩, ?_, ?_, ?_⟩
  · simpa using (List.mem_filter.mp (hpre.subset ((hgone t ht).mp hout))).2
  · have hbehind : p.ordered.Pairwise fun t u =>
        t ∈ removed → (!u.keptByBlock) = true → u ∈ removed := by
      cases hcase : p.ordered with
      | nil => exact .nil
      | cons first rest =>
        rw [hcase] at hordered hpre hmemTail
        refine List.pairwise_cons.mpr ⟨fun u _ hfirst => ?_,
          Evict.pairwise_of_prefix (List.nodup_cons.mp hordered).2 hpre⟩
        exact absurd (hmemTail first hfirst) (List.nodup_cons.mp hordered).1
    refine hbehind.imp_of_mem fun {t u} ht hu hpair hout hkept => ?_
    rw [hsorted.mem_ordered hids] at ht hu
    exact (hgone u hu).mpr (hpair ((hgone t ht).mp hout) (by simp [hkept]))
  · obtain ⟨rest, hcase⟩ : ∃ rest, p.ordered = t :: rest := by
      cases hcase : p.ordered with
      | nil => simp [hcase] at hhead
      | cons first rest =>
        rw [hcase, List.head?_cons, Option.some.injEq] at hhead
        exact ⟨rest, by rw [hhead]⟩
    rw [hcase] at hordered hmemTail
    have ht : t ∈ p.txs := (hsorted.mem_ordered hids).mp (hcase ▸ List.mem_cons_self)
    by_contra hout
    exact (List.nodup_cons.mp hordered).1 (hmemTail t ((hgone t ht).mp hout))
  · have hsplit : dropped limit p p.ordered.tail.reverse =
        removed.take k ++ removed[k] :: removed.drop (k + 1) := by
      rw [hv, List.getElem_cons_drop, List.take_append_drop]
    have hsub := List.take_sublist k removed
    rw [UInt64.lt_iff_toNat_lt, toNat_foldl_removeTx hp (hremovedIds.sublist (hsub.map _))
      fun t ht => hfound t (hsub.subset ht)]
    exact Evict.over_of_victims hsplit
  · have hdone : p.txpoolWeight.toNat - (removed.map fun t => t.info.weight.toNat).sum ≤
        limit.toNat ∨ removed = p.ordered.tail.reverse.filter fun t => !t.keptByBlock :=
      hv ▸ Evict.victims_done _ _
    refine hdone.imp (fun hle => ?_) fun hall t ht hin => ?_
    · rw [hq, UInt64.le_iff_toNat_le, toNat_foldl_removeTx hp hremovedIds hfound]
      exact hle
    · by_contra hkept
      have ht' : t ∈ p.txs := (hsorted.mem_ordered hids).mp (List.mem_of_mem_tail ht)
      refine (hgone t ht').mpr ?_ hin
      rw [hall]
      exact List.mem_filter.mpr ⟨List.mem_reverse.mpr ht, by simpa using hkept⟩
  · rw [hq]
    exact (Weighed.stable.removeAll hp removed hremovedIds hfound).weight
  · rw [hq]
    exact fun t ht => ((mem_foldl_removeTx p).mp ht).1

/-- A pool of four, all of weight 100: the second of them is kept by a block. -/
def fourPooled : TxPool where
  txs := [⟨1, {}, { weight := 100, fee := 900 }⟩,
    ⟨2, {}, { weight := 100, fee := 800, relayMethod := .block }⟩,
    ⟨3, {}, { weight := 100, fee := 700 }⟩, ⟨4, {}, { weight := 100, fee := 600 }⟩]
  sorted := [⟨9, 0, 1⟩, ⟨8, 0, 2⟩, ⟨7, 0, 3⟩, ⟨6, 0, 4⟩]
  txpoolWeight := 400

/-- Over a limit of 150 the last two go; what is left is over it still, and stays. -/
theorem prune_removes_right_four :
    (fourPooled.pruneIterated (regtest (schedule 1 [])) 150).txs.map PoolTx.id = [1, 2] ∧
      ∀ t, fourPooled.ordered.head? = some t →
        t ∈ (fourPooled.pruneIterated (regtest (schedule 1 [])) 150).txs :=
  ⟨by decide +kernel, (prune_removes_right (regtest (schedule 1 [])) fourPooled 150
    (by decide +kernel) (by unfold Sorted; decide +kernel) (by decide +kernel)).2.2.1⟩

end TxPool

end Oxyra
