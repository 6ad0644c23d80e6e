import Oxyra.Core.RctVerification

/-!
# Batched and cached RingCT verification accepts what it should

* **Batching.** The vector is compacted while it is read, and what stands in front at the end are
  the signatures for the batch (`Compaction.compact_eq`). So the verdict is the conjunction of the
  verdicts of the single signatures (`verMixedRctSemantics_iff`).
* **Caching.** Uncached verification rebuilds every field that the transaction id does not cover
  (`expandTxAndVerRctNonSem_serialized`), so that its verdict belongs to the id and the ring. Each
  entry of the cache is such a verdict (`Justified`), in every state of every run.
-/

namespace Oxyra.Rct

variable {β : Type} {v : Verifier β}

/-! ## Semantics -/

/-- One of the types that a transaction's signature can have. -/
def AllowedType (type : UInt8) : Prop :=
  typeNull < type ∧ type ≤ typeBulletproofPlus

/-- One proof, for between one and sixteen outputs. -/
def OneProof (proofs : List (List Key)) : Prop :=
  ∃ vs, proofs = [vs] ∧ 1 ≤ vs.length ∧ vs.length ≤ 16

/-- The layout rule of the types that have aggregated range proofs. -/
@[mk_iff]
structure CanonicalLayout (rv : RctSig β) : Prop where
  bulletproofs : typeBulletproof ≤ rv.type → rv.type ≤ typeClsag → OneProof rv.bulletproofs
  bulletproofsPlus : rv.type = typeBulletproofPlus → OneProof rv.bulletproofsPlus

/-- The semantics of one signature alone. -/
def ValidSemantics (v : Verifier β) (rv : RctSig β) : Prop :=
  if rv.type = typeFull then v.verRct rv = true else v.verRctSemanticsSimple [rv] = true

theorem isCanonicalLayout_iff {proofs : List (List Key)} :
    isCanonicalLayout 16 proofs = true ↔ OneProof proofs := by
  unfold OneProof
  match proofs with
  | [] => simp [isCanonicalLayout]
  | [vs] =>
    simp only [isCanonicalLayout, Bool.not_eq_true', Bool.or_eq_false_iff, decide_eq_false_iff_not]
    constructor
    · intro h
      exact ⟨vs, rfl, by omega, by omega⟩
    · rintro ⟨_, heq, h1, h2⟩
      cases heq
      exact ⟨by omega, by omega⟩
  | _ :: _ :: _ => simp [isCanonicalLayout]

theorem type_cases (t : UInt8) :
    t = typeNull ∨ t = typeFull ∨ t = typeSimple ∨ t = typeBulletproof ∨ t = typeBulletproof2 ∨
      t = typeClsag ∨ t = typeBulletproofPlus ∨ typeBulletproofPlus < t := by
  simp only [typeNull, typeFull, typeSimple, typeBulletproof, typeBulletproof2, typeClsag,
    typeBulletproofPlus, UInt8.lt_iff_toNat_lt, ← UInt8.toNat_inj]
  have h := t.toNat_lt
  simp
  omega

/-- What the switch decides about one signature, together with the batch's verdict on it. -/
theorem isBatchableRv_iff (rv : RctSig β) :
    ((isBatchableRv v rv).isSome = true ∧
      (isBatchableRv v rv = some true → v.verRctSemanticsSimple [rv] = true)) ↔
      AllowedType rv.type ∧ CanonicalLayout rv ∧ ValidSemantics v rv := by
  have hlayout : isCanonicalBulletproofLayout rv.bulletproofs = true ↔ OneProof rv.bulletproofs :=
    isCanonicalLayout_iff
  have hplus : isCanonicalBulletproofPlusLayout rv.bulletproofsPlus = true ↔
      OneProof rv.bulletproofsPlus := isCanonicalLayout_iff
  rcases type_cases rv.type with h | h | h | h | h | h | h | h
  case inr.inr.inr.inr.inr.inr.inr =>
    -- a type that does not exist
    have hne : ∀ t ≤ typeBulletproofPlus, rv.type ≠ t := fun t ht heq =>
      UInt8.not_le.mpr h (heq ▸ ht)
    have hnone : isBatchableRv v rv = none := by
      simp [isBatchableRv, hne typeNull (by decide), hne typeSimple (by decide),
        hne typeFull (by decide), hne typeBulletproof (by decide), hne typeBulletproof2 (by decide),
        hne typeClsag (by decide), hne typeBulletproofPlus (by decide)]
    have hnot : ¬AllowedType rv.type := fun hallowed => UInt8.not_le.mpr h hallowed.2
    simp [hnone, hnot]
  all_goals
    simp [isBatchableRv, canonicalLayout_iff, AllowedType, ValidSemantics, h, hlayout, hplus,
      typeNull, typeFull, typeSimple, typeBulletproof, typeBulletproof2, typeClsag,
      typeBulletproofPlus]
  all_goals exact .inl

/-- **A mixed list is accepted exactly when each of its signatures is.** -/
theorem verMixedRctSemantics_iff
    (hbatch : ∀ rvv, v.verRctSemanticsSimple rvv = rvv.all fun rv => v.verRctSemanticsSimple [rv])
    (rvv : List (RctSig β)) :
    verMixedRctSemantics v rvv = true ↔
      ∀ rv ∈ rvv, AllowedType rv.type ∧ CanonicalLayout rv ∧ ValidSemantics v rv := by
  have hsplit : verMixedRctSemantics v rvv = true ↔
      (∀ rv ∈ rvv, (isBatchableRv v rv).isSome = true) ∧
        ∀ rv ∈ rvv, isBatchableRv v rv = some true → v.verRctSemanticsSimple [rv] = true := by
    rw [verMixedRctSemantics, Compaction.compact_eq]
    by_cases hall : (rvv.all fun rv => (isBatchableRv v rv).isSome) = true
    · rw [if_pos hall]
      have hall : ∀ rv ∈ rvv, (isBatchableRv v rv).isSome = true := by simpa using hall
      dsimp only
      -- an empty batch is not verified, and holds no signature
      split
      · rename_i hempty
        have hno : ∀ rv ∈ rvv, isBatchableRv v rv ≠ some true := by simpa using hempty
        exact ⟨fun _ => ⟨hall, fun rv hrv h => absurd h (hno rv hrv)⟩, fun _ => rfl⟩
      · rw [hbatch, List.all_filter]
        simp only [Bool.or_eq_true, Bool.not_eq_true', decide_eq_false_iff_not, List.all_eq_true,
          ← imp_iff_not_or]
        exact ⟨fun h => ⟨hall, h⟩, fun h => h.2⟩
    · rw [if_neg hall]
      have hsome : ¬∀ rv ∈ rvv, (isBatchableRv v rv).isSome = true := by simpa using hall
      exact ⟨fun h => by simp at h, fun h => absurd h.1 hsome⟩
  rw [hsplit, ← forall₂_and]
  exact forall₂_congr fun rv _ => isBatchableRv_iff rv

/-! ## What the transaction id covers -/

def MgSig.serialized (sig : MgSig) : MgSig :=
  { sig with ii := [] }

def Clsag.serialized (sig : Clsag) : Clsag :=
  { sig with i := 0 }

/-- A signature without the fields that are rebuilt after parsing, message and ring apart. -/
def RctSig.cleared (rv : RctSig β) : RctSig β :=
  { rv with
    bulletproofs := []
    bulletproofsPlus := []
    mgs := rv.mgs.map MgSig.serialized
    clsags := rv.clsags.map Clsag.serialized }

/-- The part of a transaction that its serialization, and so its id, covers. -/
def Transaction.serialized (tx : Transaction β) : Transaction β :=
  { tx with rctSignatures := { tx.rctSignatures.cleared with message := 0, mixRing := [] } }

theorem expandImages_cleared (tx : Transaction β) (hpruned : tx.pruned = false) (rv : RctSig β) :
    (expandImages tx rv.cleared).map RctSig.ringSig = (expandImages tx rv).map RctSig.ringSig := by
  have htype : rv.cleared.type = rv.type := rfl
  simp only [expandImages, hpruned, htype, Bool.false_eq_true, if_false]
  by_cases hfull : rv.type = typeFull
  · simp only [if_pos hfull, Option.map_map]
    congr 1
    funext images
    have hclsag : isRctClsag rv.type = false := by rw [hfull]; rfl
    cases hmgs : rv.mgs <;> simp [RctSig.ringSig, RctSig.cleared, hclsag, hmgs, MgSig.serialized]
  · simp only [if_neg hfull]
    by_cases hclsag : isRctClsag rv.type = true
    · simp only [if_pos hclsag]
      have hlen : rv.cleared.clsags.length = rv.clsags.length := List.length_map ..
      rw [hlen]
      split
      · rfl
      · simp only [Option.map_map]
        congr 1
        funext images
        simp [RctSig.ringSig, RctSig.cleared, hclsag, List.zipWith_map_left, Clsag.serialized]
    · simp only [if_neg hclsag]
      have hlen : rv.cleared.mgs.length = rv.mgs.length := List.length_map ..
      rw [hlen]
      split
      · rfl
      · simp only [Option.map_map]
        congr 1
        funext images
        simp [RctSig.ringSig, RctSig.cleared, hclsag, List.zipWith_map_left, MgSig.serialized]

theorem checks_congr {tx tx' : Transaction β} {rv rv' : RctSig β} (hvin : tx.vin = tx'.vin)
    (h : rv.ringSig = rv'.ringSig) :
    rv.mixRing = rv'.mixRing ∧
      (if isRctClsag rv.type then rv.clsags.length else rv.mgs.length) =
        (if isRctClsag rv'.type then rv'.clsags.length else rv'.mgs.length) ∧
      imagesMatch tx rv = imagesMatch tx' rv' := by
  have htype : rv.type = rv'.type := congrArg RingSig.type h
  have hclsags := congrArg RingSig.clsags h
  have hmgs := congrArg RingSig.mgs h
  refine ⟨congrArg RingSig.mixRing h, ?_⟩
  simp only [RctSig.ringSig, htype, imagesMatch, hvin] at hclsags hmgs ⊢
  by_cases hclsag : isRctClsag rv'.type = true
  · simp only [if_pos hclsag] at hclsags ⊢
    simp [hclsags]
  · simp only [if_neg hclsag] at hmgs ⊢
    simp [hmgs]

/-- **Uncached verification does not look at what the id leaves out.** -/
theorem expandTxAndVerRctNonSem_serialized (tx : Transaction β) (mixRing : CtKeyM) :
    expandTxAndVerRctNonSem v tx.serialized mixRing = expandTxAndVerRctNonSem v tx mixRing := by
  have hpre : tx.serialized.toTransactionPrefix = tx.toTransactionPrefix := rfl
  have hpruned : tx.serialized.pruned = tx.pruned := rfl
  unfold expandTxAndVerRctNonSem
  rw [hpre, hpruned]
  cases hp : tx.pruned with
  | true => rfl
  | false =>
    generalize v.getTransactionPrefixHash tx.toTransactionPrefix = hash
    have hexpand : (expandTransaction2 tx.serialized hash mixRing).map RctSig.ringSig =
        (expandTransaction2 tx hash mixRing).map RctSig.ringSig := by
      unfold expandTransaction2
      have hversion : tx.serialized.version = tx.version := rfl
      have htype : tx.serialized.rctSignatures.type = tx.rctSignatures.type := rfl
      rw [hversion, htype]
      split
      · rfl
      · cases expandMixRing tx.rctSignatures.type mixRing with
        | none => rfl
        | some ring =>
          exact expandImages_cleared tx hp
            { tx.rctSignatures with message := hash, mixRing := ring }
    cases h : expandTransaction2 tx hash mixRing with
    | none =>
      rw [h, Option.map_none, Option.map_eq_none_iff] at hexpand
      rw [hexpand]
    | some rv =>
      rw [h, Option.map_some, Option.map_eq_some_iff] at hexpand
      obtain ⟨rv', heq, hrv⟩ := hexpand
      obtain ⟨hring, hsize, hmatch⟩ :=
        @checks_congr _ tx.serialized tx rv' rv rfl hrv
      simp only [heq, hring, hsize, hmatch, hrv]

/-! ## Runs over one cache -/

structure Call (β : Type) where
  tx : Transaction β
  mixRing : CtKeyM
  rctTypeToCache : UInt8

/-- Uncached verification of a call's transaction with its ring. -/
def Call.uncached (v : Verifier β) (c : Call β) : Bool :=
  expandTxAndVerRctNonSem v c.tx c.mixRing

def answers (v : Verifier β) (cache : DataCache Hash) : List (Call β) → List Bool
  | [] => []
  | c :: calls =>
    let r := verRctNonSemanticsSimpleCached v c.tx c.mixRing cache c.rctTypeToCache
    r.1 :: answers v r.2 calls

/-- Over the unpruned transactions and the rings that occur, an id belongs to one serialized
transaction, and a hash of id and ring to one such pair. -/
structure CollisionFree (v : Verifier β) (Occurs : Transaction β → CtKeyM → Prop) : Prop where
  unpruned : ∀ tx ring, Occurs tx ring → tx.pruned = false
  id : ∀ tx ring tx' ring', Occurs tx ring → Occurs tx' ring' →
    v.getTransactionHash tx = v.getTransactionHash tx' → tx.serialized = tx'.serialized
  pair : ∀ tx ring tx' ring', Occurs tx ring → Occurs tx' ring' →
    v.txMixringHash (v.getTransactionHash tx) ring =
      v.txMixringHash (v.getTransactionHash tx') ring' →
    v.getTransactionHash tx = v.getTransactionHash tx' ∧ ring = ring'

/-- Every entry of the cache is the hash of a transaction and a ring that verified. -/
def Justified (v : Verifier β) (Occurs : Transaction β → CtKeyM → Prop) (cache : DataCache Hash) :
    Prop :=
  ∀ key, cache.has key = true → ∃ tx ring, Occurs tx ring ∧ key = calcTxMixringHash v tx ring ∧
    expandTxAndVerRctNonSem v tx ring = true

variable {Occurs : Transaction β → CtKeyM → Prop} {cache : DataCache Hash}

theorem justified_empty : Justified v Occurs (.empty nullHash) := by
  intro key h
  simp [DataCache.has, DataCache.empty] at h

theorem Justified.hit (hfree : CollisionFree v Occurs) (hj : Justified v Occurs cache)
    {tx : Transaction β} {ring : CtKeyM} (hoccurs : Occurs tx ring)
    (h : cache.has (calcTxMixringHash v tx ring) = true) :
    expandTxAndVerRctNonSem v tx ring = true := by
  obtain ⟨tx', ring', hoccurs', hkey, hver⟩ := hj _ h
  obtain ⟨hid, hring⟩ := hfree.pair _ _ _ _ hoccurs hoccurs' hkey
  have hser := hfree.id _ _ _ _ hoccurs hoccurs' hid
  rw [← expandTxAndVerRctNonSem_serialized, hser, hring, expandTxAndVerRctNonSem_serialized]
  exact hver

/-- **One call**: it accepts only what verifies uncached, and leaves a justified cache. -/
theorem Justified.step (hfree : CollisionFree v Occurs) (hj : Justified v Occurs cache)
    (c : Call β) (hoccurs : Occurs c.tx c.mixRing) :
    let r := verRctNonSemanticsSimpleCached v c.tx c.mixRing cache c.rctTypeToCache
    (r.1 = true → c.uncached v = true) ∧ Justified v Occurs r.2 := by
  intro r
  have hr : r = verRctNonSemanticsSimpleCached v c.tx c.mixRing cache c.rctTypeToCache := rfl
  unfold verRctNonSemanticsSimpleCached at hr
  split at hr
  · exact hr ▸ ⟨by simp, hj⟩
  · split at hr
    · exact hr ▸ ⟨id, hj⟩
    · split at hr
      · rename_i hhas
        exact hr ▸ ⟨fun _ => hj.hit hfree hoccurs hhas, hj⟩
      · split at hr
        · exact hr ▸ ⟨by simp, hj⟩
        · -- a miss that verified becomes an entry
          rename_i hver
          have hver : c.uncached v = true := by simpa [Call.uncached] using hver
          refine hr ▸ ⟨fun _ => hver, fun key hkey => ?_⟩
          rcases DataCache.has_add hkey with hnew | hold
          · exact ⟨c.tx, c.mixRing, hoccurs, hnew, hver⟩
          · exact hj key hold

/-- **A run**: no call of it accepts what uncached verification refuses. -/
theorem Justified.run (hfree : CollisionFree v Occurs) (calls : List (Call β)) :
    ∀ {cache : DataCache Hash}, Justified v Occurs cache →
      (∀ c ∈ calls, Occurs c.tx c.mixRing) →
      ∀ p ∈ calls.zip (answers v cache calls), p.2 = true → p.1.uncached v = true := by
  induction calls with
  | nil =>
    intro cache _ _ p hp
    simp at hp
  | cons c calls ih =>
    intro cache hj hoccurs p hp
    obtain ⟨hanswer, hnext⟩ := hj.step hfree c (hoccurs c (List.mem_cons_self ..))
    rw [answers, List.zip_cons_cons] at hp
    rcases List.mem_cons.mp hp with rfl | hp
    · exact hanswer
    · exact ih hnext (fun c hc => hoccurs c (List.mem_cons_of_mem _ hc)) p hp

/-- **Batched and cached verification is sound and exact.** The batch verifier is taken to accept a
batch exactly when it accepts every signature of it, and the hashes to be collision free over what
occurs. Then a mixed list is accepted exactly when every signature of it has an allowed type, a
canonical layout and valid semantics; and in every run of cached calls from a new cache, each call
accepts only if uncached verification does. -/
theorem batched_and_cached_exact (v : Verifier β) (Occurs : Transaction β → CtKeyM → Prop)
    (hbatch : ∀ rvv, v.verRctSemanticsSimple rvv = rvv.all fun rv => v.verRctSemanticsSimple [rv])
    (hfree : CollisionFree v Occurs) :
    (∀ rvv, verMixedRctSemantics v rvv = true ↔
      ∀ rv ∈ rvv, AllowedType rv.type ∧ CanonicalLayout rv ∧ ValidSemantics v rv) ∧
    ∀ calls : List (Call β), (∀ c ∈ calls, Occurs c.tx c.mixRing) →
      ∀ p ∈ calls.zip (answers v (.empty nullHash) calls), p.2 = true → p.1.uncached v = true :=
  ⟨verMixedRctSemantics_iff hbatch, fun calls hoccurs => justified_empty.run hfree calls hoccurs⟩

/-- The signature of the transactions below, with a body that tells good from bad ones. -/
def sampleSig (good : Bool) : RctSig Bool where
  type := typeClsag
  message := 0
  mixRing := []
  bulletproofs := [[1]]
  bulletproofsPlus := []
  mgs := []
  clsags := [{}]
  body := good

def sampleTx (good : Bool) : Transaction Bool where
  version := 2
  vin := [.toKey 0 [1] 7]
  body := good
  rctSignatures := sampleSig good

def sampleRing : CtKeyM := [[⟨3, 4⟩]]

/-- A verifier that believes the bodies, with hashes that keep the two transactions apart. -/
def sampleVerifier : Verifier Bool where
  verRct rv := rv.body
  verRctSemanticsSimple rvv := rvv.all fun rv => rv.body
  verRctNonSemanticsSimple rv := rv.body
  getTransactionPrefixHash p := if p.body then 1 else 2
  getTransactionHash tx := if tx.body then 1 else 2
  txMixringHash id ring := id + if ring = sampleRing then 1 else 4

/-- A bad transaction, then a good one twice: the second time out of the cache. -/
def sampleCalls : List (Call Bool) :=
  [⟨sampleTx false, sampleRing, typeClsag⟩, ⟨sampleTx true, sampleRing, typeClsag⟩,
    ⟨sampleTx true, sampleRing, typeClsag⟩]

def SampleOccurs (tx : Transaction Bool) (ring : CtKeyM) : Prop :=
  (tx = sampleTx true ∨ tx = sampleTx false) ∧ ring = sampleRing

theorem sampleVerifier_collisionFree : CollisionFree sampleVerifier SampleOccurs where
  unpruned := by
    rintro tx ring ⟨rfl | rfl, -⟩ <;> rfl
  id := by
    rintro tx ring tx' ring' ⟨rfl | rfl, -⟩ ⟨rfl | rfl, -⟩ h <;>
      first | rfl | exact absurd h (by decide)
  pair := by
    rintro tx ring tx' ring' ⟨rfl | rfl, rfl⟩ ⟨rfl | rfl, rfl⟩ h <;>
      first | exact ⟨rfl, rfl⟩ | exact absurd h (by decide)

theorem batched_and_cached_exact_sample :
    verMixedRctSemantics sampleVerifier [sampleSig true, sampleSig true] = true ∧
      verMixedRctSemantics sampleVerifier [sampleSig true, sampleSig false] = false ∧
      answers sampleVerifier (.empty nullHash) sampleCalls = [false, true, true] ∧
      ∀ p ∈ sampleCalls.zip (answers sampleVerifier (.empty nullHash) sampleCalls),
        p.2 = true → p.1.uncached sampleVerifier = true := by
  refine ⟨by decide +kernel, by decide +kernel, by decide +kernel, ?_⟩
  refine (batched_and_cached_exact sampleVerifier SampleOccurs (fun rvv => by simp [sampleVerifier])
    sampleVerifier_collisionFree).2 sampleCalls ?_
  intro c hc
  simp only [sampleCalls, List.mem_cons, List.not_mem_nil, or_false] at hc
  rcases hc with rfl | rfl | rfl
  · exact ⟨.inr rfl, rfl⟩
  · exact ⟨.inl rfl, rfl⟩
  · exact ⟨.inl rfl, rfl⟩

end Oxyra.Rct
