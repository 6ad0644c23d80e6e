import Oxyra.Core.ScanTable
import Oxyra.Logic.Regtest

/-!
# The prefetched output table changes nothing

* An entry of the table is what the bulk query gave for the input's own ring when the batch came in
  (`Prefetched`): positions in the sorted offsets of an amount are positions in its outputs
  (`outputAt_eq`), and the table is left empty wherever preparing it stops early.
* Outputs are only ever added behind the existing ones (`getOutputKey?_append`), so that the entry
  is a part of the answer at any later time, and the scan completes it (`scan_congr`).
-/

namespace Oxyra

variable {e : Env} {amount : UInt64} {chain : Chain} {off : Nat}

/-! ## Scanning with an entry -/

section Scan

variable {handleOutput : List OutputData → OutputData → Bool}
  {query known : Nat → Option OutputData}

theorem visitOutputs_cons (off : Nat) (rest : List Nat) (count : Nat)
    (visited : List OutputData) :
    visitOutputs handleOutput query [] count (off :: rest) visited =
      match query off with
      | none => none
      | some output =>
        if handleOutput visited output then
          visitOutputs handleOutput query [] (count + 1) rest (visited ++ [output])
        else none := by
  have hnone : ¬ count < ([] : List OutputData).length := by simp
  cases hquery : query off <;> simp only [visitOutputs, if_neg hnone, hquery]

theorem visitOutputs_eq {outputs : List OutputData} (rest : List Nat) :
    ∀ (count : Nat) (visited : List OutputData),
      (∀ i o, outputs[count + i]? = some o → ∃ off, rest[i]? = some off ∧ query off = some o) →
      visitOutputs handleOutput query outputs count rest visited =
        visitOutputs handleOutput query [] count rest visited := by
  induction rest with
  | nil =>
    intro count visited _
    rfl
  | cons off rest ih =>
    intro count visited h
    have hfirst : (if count < outputs.length then outputs[count]? else query off) = query off := by
      split
      · rename_i hlt
        obtain ⟨off', hoff, hq⟩ := h 0 outputs[count] (List.getElem?_eq_getElem hlt)
        rw [List.getElem?_eq_getElem hlt, ← hq]
        simp only [List.getElem?_cons_zero, Option.some.injEq] at hoff
        rw [hoff]
      · rfl
    rw [visitOutputs_cons, visitOutputs, hfirst]
    cases query off with
    | none => rfl
    | some o =>
      dsimp only
      rw [ih (count + 1) (visited ++ [o]) fun i o' ho' => by
        have hnext := h (i + 1) o' (by rw [← ho']; congr 1; omega)
        simpa using hnext]

theorem visitOutputs_none {rest : List Nat} (h : ∃ off ∈ rest, query off = none) :
    ∀ (count : Nat) (visited : List OutputData),
      visitOutputs handleOutput query [] count rest visited = none := by
  induction rest with
  | nil => simp at h
  | cons off rest ih =>
    intro count visited
    rw [visitOutputs_cons]
    cases hq : query off with
    | none => rfl
    | some o =>
      have hrest : ∃ off ∈ rest, query off = none := by
        obtain ⟨off', hmem, hnone⟩ := h
        rcases List.mem_cons.mp hmem with rfl | hmem
        · simp [hq] at hnone
        · exact ⟨off', hmem, hnone⟩
      dsimp only
      split
      · exact ih hrest _ _
      · rfl

/-- **An earlier answer does not show.** A scan with an entry that was a bulk answer of a source
which knew less goes as the scan without one. -/
theorem scan_congr {offsets : List Nat} {entry : Option (List OutputData)}
    (hentry : ∀ outputs, entry = some outputs → outputs = takeSome known offsets)
    (hsub : ∀ off o, known off = some o → chain.getOutputKey? e amount off = some o) :
    ((fetchOutputs e chain entry amount offsets).bind fun outputs =>
        visitOutputs handleOutput (chain.getOutputKey? e amount) outputs 0 offsets []) =
      visitOutputs handleOutput (chain.getOutputKey? e amount) [] 0 offsets [] := by
  have hvisit : ∀ {source : Nat → Option OutputData},
      (∀ off o, source off = some o → chain.getOutputKey? e amount off = some o) →
      visitOutputs handleOutput (chain.getOutputKey? e amount) (takeSome source offsets)
          0 offsets []
        = visitOutputs handleOutput (chain.getOutputKey? e amount) [] 0 offsets [] :=
    fun hsource => visitOutputs_eq offsets 0 [] fun i o ho => by
      rw [Nat.zero_add] at ho
      obtain ⟨off, hoff, hq⟩ := getElem?_takeSome ho
      exact ⟨off, hoff, hsource off o hq⟩
  -- an answer that stays incomplete is no success either way
  have hmissing : ∀ rest : List Nat, (∀ off ∈ rest, off ∈ offsets) →
      rest.length ≠ (chain.getOutputKeys e amount rest).length →
      visitOutputs handleOutput (chain.getOutputKey? e amount) [] 0 offsets [] = none := by
    intro rest hrest hlen
    have hnot : ¬∀ off ∈ rest, (chain.getOutputKey? e amount off).isSome :=
      fun hall => hlen (length_takeSome_eq_iff.mpr hall).symm
    push Not at hnot
    obtain ⟨off, hmem, hnone⟩ := hnot
    exact visitOutputs_none ⟨off, hrest off hmem, by simpa using hnone⟩ 0 []
  cases entry with
  | none =>
    unfold fetchOutputs
    dsimp only
    split
    · rename_i hlen
      exact (hmissing offsets (fun _ h => h) hlen).symm
    · exact hvisit fun _ _ h => h
  | some outputs =>
    obtain rfl := hentry outputs rfl
    unfold fetchOutputs
    dsimp only
    split
    · split
      · rename_i hlen
        exact (hmissing _ (fun _ h => List.mem_of_mem_drop h) hlen).symm
      · -- the entry and its completion are one answer
        rw [Option.bind_some, Chain.getOutputKeys, ← takeSome_complete hsub]
        exact hvisit fun _ _ h => h
    · exact hvisit hsub

end Scan

/-! ## Outputs are added behind the others -/

theorem outputsOfAmount_append (chain added : Chain) (amount : UInt64) :
    ∃ new, (chain ++ added : Chain).outputsOfAmount e amount =
      chain.outputsOfAmount e amount ++ new := by
  simp only [Chain.outputsOfAmount, Chain.outputRows, List.zipIdx_append, List.flatMap_append,
    List.filter_append, List.map_append]
  exact ⟨_, rfl⟩

theorem getOutputKey?_append (added : Chain) {o : OutputData}
    (h : chain.getOutputKey? e amount off = some o) :
    (chain ++ added : Chain).getOutputKey? e amount off = some o := by
  obtain ⟨new, hnew⟩ := @outputsOfAmount_append e chain added amount
  unfold Chain.getOutputKey? at h ⊢
  rw [hnew, List.getElem?_append_left (List.getElem?_eq_some_iff.mp h).1]
  exact h

theorem getOutputKey?_isSome_of_le {a b : Nat} (hle : a ≤ b)
    (h : (chain.getOutputKey? e amount b).isSome) : (chain.getOutputKey? e amount a).isSome := by
  simp only [Chain.getOutputKey?, isSome_getElem?] at h ⊢
  omega

/-! ## Passes over the batch -/

/-- How a pass ends: at a value of which `P` holds, or early with a table of which `E` holds. -/
def Ends {α : Type} (E : ScanTable → Prop) (P : α → Prop) : Except Prepared α → Prop
  | .ok a => P a
  | .error p => E p.table

theorem Ends.bind {α β : Type} {E : ScanTable → Prop} {P : α → Prop} {Q : β → Prop}
    {r : Except Prepared α} {f : α → Except Prepared β} (h : Ends E P r)
    (hf : ∀ a, P a → Ends E Q (f a)) : Ends E Q (r.bind f) := by
  cases r with
  | ok a => exact hf a h
  | error p => exact h

theorem Ends.mono {α : Type} {E : ScanTable → Prop} {P Q : α → Prop} {r : Except Prepared α}
    (h : Ends E P r) (hPQ : ∀ a, P a → Q a) : Ends E Q r := by
  cases r with
  | ok a => exact hPQ a h
  | error p => exact h

/-! ## The first pass -/

section Gather

variable {txPrefixHash : Transaction → Hash} {g g' : Gathered} {done : List Transaction}

/-- What the first pass has collected from the transactions it has seen. -/
structure Collected (txPrefixHash : Transaction → Hash) (done : List Transaction) (g : Gathered) :
    Prop where
  txes : g.txes = done.map fun tx => (tx, txPrefixHash tx)
  keys : ∀ h, (g.table h).isSome = true ↔ h ∈ done.map txPrefixHash
  blank : ∀ h k, g.table.find h k = none
  nodup : (done.map txPrefixHash).Nodup
  amounts : ∀ tx ∈ done, ∀ amount keyOffsets k, .toKey amount keyOffsets k ∈ tx.vin →
    amount.toNat ∈ g.amounts
  offsets : ∀ tx ∈ done, ∀ amount keyOffsets k, .toKey amount keyOffsets k ∈ tx.vin →
    ∀ off ∈ absoluteOffsets keyOffsets, off ∈ g.offsetMap amount

def ScanTable.Blank (table : ScanTable) : Prop :=
  ∀ h k, table.find h k = none

theorem blank_empty : ScanTable.Blank .empty := fun _ _ => rfl

theorem collected_nil : Collected txPrefixHash [] {} where
  txes := rfl
  keys h := by simp [ScanTable.empty]
  blank := blank_empty
  nodup := List.nodup_nil
  amounts := by simp
  offsets := by simp

theorem mem_addOffsets_of_mem {m : UInt64 → List Nat} {i : TxinV} (h : off ∈ m amount) :
    off ∈ addOffsets m i amount := by
  unfold addOffsets
  split
  · split
    · exact List.mem_append_left _ h
    · exact h
  · exact h

theorem mem_foldl_addOffsets (vin : List TxinV) :
    ∀ m : UInt64 → List Nat,
      (off ∈ m amount ∨ ∃ keyOffsets k, .toKey amount keyOffsets k ∈ vin ∧
        off ∈ absoluteOffsets keyOffsets) → off ∈ vin.foldl addOffsets m amount := by
  induction vin with
  | nil =>
    rintro m (h | ⟨_, _, h, _⟩)
    · exact h
    · simp at h
  | cons i vin ih =>
    rintro m (h | ⟨keyOffsets, k, hmem, hoff⟩)
    · exact ih _ (.inl (mem_addOffsets_of_mem h))
    · rcases List.mem_cons.mp hmem with rfl | hmem
      · refine ih _ (.inl ?_)
        simp [addOffsets, hoff]
      · exact ih _ (.inr ⟨keyOffsets, k, hmem, hoff⟩)

theorem find_blank_update {table : ScanTable} (h : table.Blank) (hash : Hash) :
    ScanTable.Blank fun x => if x = hash then some fun _ => none else table x := by
  intro x k
  unfold ScanTable.find
  dsimp only
  split
  · rfl
  · exact h x k

theorem Collected.step (h : Collected txPrefixHash done g) (tx : Option Transaction) :
    Ends ScanTable.Blank (fun g' => ∃ t, tx = some t ∧ Collected txPrefixHash (done ++ [t]) g')
      (gatherTx txPrefixHash g tx) := by
  cases tx with
  | none => exact blank_empty
  | some t =>
    have hblank := find_blank_update h.blank (txPrefixHash t)
    unfold gatherTx
    dsimp only
    by_cases hdup : (g.table (txPrefixHash t)).isSome = true
    · rw [if_pos hdup]
      exact blank_empty
    · rw [if_neg hdup]
      by_cases hkeys : (!t.vin.all TxinV.isToKey) = true
      · rw [if_pos hkeys]
        exact hblank
      · rw [if_neg hkeys]
        refine ⟨t, rfl, ?_, ?_, hblank, ?_, ?_, ?_⟩
        · simp [h.txes]
        · intro x
          rw [List.map_append, List.mem_append, ← h.keys x]
          by_cases hx : x = txPrefixHash t
          · simp [hx]
          · simp [hx]
        · rw [List.map_append]
          refine List.nodup_append.mpr ⟨h.nodup, List.nodup_singleton _, ?_⟩
          rintro x hx y hy rfl
          have hx' : x = txPrefixHash t := by simpa using hy
          exact hdup ((h.keys _).mpr (hx' ▸ hx))
        · intro u hu amount keyOffsets k hin
          refine mem_sortUnique (List.mem_append.mpr ?_)
          rcases List.mem_append.mp hu with hu | hu
          · exact .inl (h.amounts u hu amount keyOffsets k hin)
          · obtain rfl := List.mem_singleton.mp hu
            refine .inr (List.mem_map.mpr ⟨(amount, keyOffsets), ?_, rfl⟩)
            exact List.mem_filterMap.mpr ⟨_, hin, rfl⟩
        · intro u hu amount keyOffsets k hin off hoff
          refine mem_foldl_addOffsets _ _ ?_
          rcases List.mem_append.mp hu with hu | hu
          · exact .inl (h.offsets u hu amount keyOffsets k hin off hoff)
          · obtain rfl := List.mem_singleton.mp hu
            exact .inr ⟨keyOffsets, k, hin, hoff⟩

theorem Collected.txs (txs : List (Option Transaction)) :
    ∀ {done : List Transaction} {g : Gathered}, Collected txPrefixHash done g →
      Ends ScanTable.Blank
        (fun g' => ∃ ts, txs = ts.map some ∧ Collected txPrefixHash (done ++ ts) g')
        (txs.foldlM (gatherTx txPrefixHash) g) := by
  induction txs with
  | nil =>
    intro done g h
    exact ⟨[], rfl, by simpa using h⟩
  | cons tx txs ih =>
    intro done g h
    rw [List.foldlM_cons]
    refine (h.step tx).bind ?_
    rintro g' ⟨t, rfl, hnext⟩
    refine (ih hnext).mono ?_
    rintro g'' ⟨ts, rfl, hts⟩
    exact ⟨t :: ts, rfl, by simpa using hts⟩

/-- **The first pass** collects from every transaction of the batch, or leaves a table in which
nothing is found. -/
theorem Collected.entries (cancel : Nat → Bool) (entries : List IncomingEntry) :
    ∀ {i : Nat} {done : List Transaction} {g : Gathered}, Collected txPrefixHash done g →
      Ends ScanTable.Blank (fun g' => ∃ ts, entries.flatMap IncomingEntry.txs = ts.map some ∧
          Collected txPrefixHash (done ++ ts) g')
        (gatherEntries txPrefixHash cancel i entries g) := by
  induction entries with
  | nil =>
    intro i done g h
    exact ⟨[], rfl, by simpa using h⟩
  | cons entry entries ih =>
    intro i done g h
    unfold gatherEntries
    by_cases hc : cancel i = true
    · rw [if_pos hc]
      exact h.blank
    · rw [if_neg hc]
      refine (Collected.txs entry.txs h).bind ?_
      rintro g' ⟨ts, hts, hnext⟩
      refine (ih hnext).mono ?_
      rintro g'' ⟨us, hus, hall⟩
      refine ⟨ts ++ us, ?_, by simpa using hall⟩
      rw [List.flatMap_cons, hts, hus, List.map_append]

end Gather

/-! ## The second pass -/

section Fill

variable {query : UInt64 → Nat → Option OutputData} {txes : List (Transaction × Hash)}
  {offsetMap : UInt64 → List Nat} {txMap : UInt64 → List OutputData} {table : ScanTable}

/-- Every entry of the table is the bulk answer to the ring of an input it is filed under. -/
def Prefetched (query : UInt64 → Nat → Option OutputData) (txes : List (Transaction × Hash))
    (table : ScanTable) : Prop :=
  ∀ h k outputs, table.find h k = some outputs →
    ∃ tx amount keyOffsets, (tx, h) ∈ txes ∧ .toKey amount keyOffsets k ∈ tx.vin ∧
      outputs = takeSome (query amount) (absoluteOffsets keyOffsets)

theorem Prefetched.of_blank (h : table.Blank) : Prefetched query txes table := by
  intro hash k outputs hfind
  rw [h hash k] at hfind
  simp at hfind

/-- The passes agree: the positions of the offsets of a ring are those of their outputs. -/
def Answered (query : UInt64 → Nat → Option OutputData) (offsetMap : UInt64 → List Nat)
    (txMap : UInt64 → List OutputData) (tx : Transaction) : Prop :=
  ∀ amount keyOffsets k, .toKey amount keyOffsets k ∈ tx.vin →
    ∀ off ∈ absoluteOffsets keyOffsets, outputAt (offsetMap amount) (txMap amount) off =
      query amount off

theorem foldl_fillInput (vin : List TxinV) :
    ∀ {images : KeyImage → Option (List OutputData)} {k : KeyImage} {outputs : List OutputData},
      vin.foldl (fillInput offsetMap txMap) images k = some outputs →
      images k = some outputs ∨ ∃ amount keyOffsets, .toKey amount keyOffsets k ∈ vin ∧
        outputs = takeSome (outputAt (offsetMap amount) (txMap amount))
          (absoluteOffsets keyOffsets) := by
  induction vin with
  | nil =>
    intro images k outputs h
    exact .inl h
  | cons i vin ih =>
    intro images k outputs h
    rcases ih h with hold | ⟨amount, keyOffsets, hmem, hout⟩
    · unfold fillInput at hold
      split at hold
      · split at hold
        · -- the entry is this input's
          rename_i hnew
          simp only [Bool.and_eq_true, decide_eq_true_eq] at hnew
          rw [hnew.1]
          exact .inr ⟨_, _, List.mem_cons_self .., (Option.some.inj hold).symm⟩
        · exact .inl hold
      · exact .inl hold
    · exact .inr ⟨amount, keyOffsets, List.mem_cons_of_mem _ hmem, hout⟩

theorem Prefetched.step (h : Prefetched query txes table) {r : Transaction × Hash} (hr : r ∈ txes)
    (hanswered : Answered query offsetMap txMap r.1) :
    Ends (Prefetched query txes) (Prefetched query txes) (fillTx offsetMap txMap table r) := by
  unfold fillTx
  cases himages : table r.2 with
  | none => exact Prefetched.of_blank blank_empty
  | some images =>
    intro hash k outputs hfind
    by_cases hhash : hash = r.2
    · subst hhash
      simp only [ScanTable.find, if_true, Option.bind_some] at hfind
      rcases foldl_fillInput r.1.vin hfind with hold | ⟨amount, keyOffsets, hmem, rfl⟩
      · exact h r.2 k outputs (by simp [ScanTable.find, himages, hold])
      · exact ⟨r.1, amount, keyOffsets, hr, hmem,
          takeSome_congr (hanswered amount keyOffsets k hmem)⟩
    · simp only [ScanTable.find, if_neg hhash] at hfind
      exact h hash k outputs hfind

theorem Prefetched.txs (l : List (Transaction × Hash)) (hmem : ∀ r ∈ l, r ∈ txes)
    (hanswered : ∀ r ∈ l, Answered query offsetMap txMap r.1) :
    ∀ {table : ScanTable}, Prefetched query txes table →
      Ends (Prefetched query txes) (Prefetched query txes)
        (l.foldlM (fillTx offsetMap txMap) table) := by
  induction l with
  | nil =>
    intro table h
    exact h
  | cons r l ih =>
    intro table h
    rw [List.forall_mem_cons] at hmem hanswered
    rw [List.foldlM_cons]
    exact (h.step hmem.1 hanswered.1).bind fun _ => ih hmem.2 hanswered.2

/-- **The second pass** files bulk answers only, wherever it ends. -/
theorem Prefetched.entries (cancel : Nat → Bool) (entries : List IncomingEntry) :
    ∀ {i : Nat} {l : List (Transaction × Hash)} {table : ScanTable}, Prefetched query txes table →
      (∀ r ∈ l, r ∈ txes) → (∀ r ∈ l, Answered query offsetMap txMap r.1) →
      Ends (Prefetched query txes) (Prefetched query txes)
        (fillEntries offsetMap txMap cancel i entries l table) := by
  induction entries with
  | nil =>
    intro i l table h _ _
    exact h
  | cons entry entries ih =>
    intro i l table h hmem hanswered
    unfold fillEntries
    by_cases hc : cancel i = true
    · rw [if_pos hc]
      exact h
    · rw [if_neg hc]
      refine (Prefetched.txs (l.take entry.txs.length)
        (fun r hr => hmem r (List.mem_of_mem_take hr))
        (fun r hr => hanswered r (List.mem_of_mem_take hr)) h).bind fun _ h' => ?_
      exact ih h' (fun r hr => hmem r (List.mem_of_mem_drop hr))
        fun r hr => hanswered r (List.mem_of_mem_drop hr)

end Fill

/-! ## The table of a batch -/

variable {s : Blockchain} {txPrefixHash : Transaction → Hash} {done : List Transaction}
  {g : Gathered}

theorem outputAt_eq (h : Collected txPrefixHash done g) {tx : Transaction} (htx : tx ∈ done) :
    Answered (s.chain.getOutputKey? e) (fun amount => sortUnique (g.offsetMap amount))
      (queryAmounts e s.chain g) tx := by
  intro amount keyOffsets k hin off hoff
  have hmem : off ∈ sortUnique (g.offsetMap amount) :=
    mem_sortUnique (h.offsets tx htx amount keyOffsets k hin off hoff)
  rw [outputAt, if_pos hmem, queryAmounts, if_pos (h.amounts tx htx amount keyOffsets k hin)]
  exact getElem?_takeSome_idxOf (fun a b hle => getOutputKey?_isSome_of_le hle)
    (pairwise_sortUnique _) hmem

theorem input_unique {vin : List TxinV} (hnd : (vin.filterMap TxinV.keyImage?).Nodup)
    {i j : TxinV} {k : KeyImage} (hi : i ∈ vin) (hj : j ∈ vin) (hik : i.keyImage? = some k)
    (hjk : j.keyImage? = some k) : i = j := by
  induction vin with
  | nil => simp at hi
  | cons a vin ih =>
    have hout : ∀ {b : TxinV}, a.keyImage? = some k → b ∈ vin → b.keyImage? = some k → False := by
      intro b ha hb hbk
      rw [List.filterMap_cons_some ha, List.nodup_cons] at hnd
      exact hnd.1 (List.mem_filterMap.mpr ⟨b, hb, hbk⟩)
    have hrest : (vin.filterMap TxinV.keyImage?).Nodup :=
      hnd.sublist ((List.sublist_cons_self a vin).filterMap _)
    rcases List.mem_cons.mp hi with hia | hiv <;> rcases List.mem_cons.mp hj with hja | hjv
    · rw [hia, hja]
    · exact (hout (hia ▸ hik) hjv hjk).elim
    · exact (hout (hja ▸ hjk) hiv hik).elim
    · exact ih hrest hiv hjv

/-- **What a batch's table has for an input** is the bulk answer to its ring when the batch came
in. -/
theorem find_prepared {threads : Nat} {cancel : Nat → Bool} {entries : List IncomingEntry}
    {tx : Transaction} (htx : some tx ∈ entries.flatMap IncomingEntry.txs)
    (hnd : tx.keyImages.Nodup) {keyOffsets : List UInt64} {k : KeyImage}
    (hin : .toKey amount keyOffsets k ∈ tx.vin) {outputs : List OutputData}
    (h : (prepareHandleIncomingBlocks e s txPrefixHash threads cancel entries .empty).table.find
      (txPrefixHash tx) k = some outputs) :
    outputs = takeSome (s.chain.getOutputKey? e amount) (absoluteOffsets keyOffsets) := by
  unfold prepareHandleIncomingBlocks at h
  split at h
  · simp [ScanTable.find, ScanTable.empty] at h
  · have hgather := Collected.entries cancel entries (@collected_nil txPrefixHash) (i := 1)
    split at h
    · rename_i p hp
      rw [hp] at hgather
      rw [hgather _ k] at h
      simp at h
    · rename_i g hg
      rw [hg] at hgather
      obtain ⟨ts, hts, hcollected⟩ := hgather
      rw [List.nil_append] at hcollected
      have hfilled := Prefetched.entries cancel entries
        (Prefetched.of_blank hcollected.blank : Prefetched (s.chain.getOutputKey? e) g.txes g.table)
        (i := 1 + entries.length) (fun r hr => hr) fun r hr => by
          rw [hcollected.txes] at hr
          obtain ⟨u, hu, rfl⟩ := List.mem_map.mp hr
          exact @outputAt_eq e s txPrefixHash ts g hcollected u hu
      split at h
      all_goals
        rename_i hfill
        rw [hfill] at hfilled
        obtain ⟨tx', amount', keyOffsets', hmem, hin', rfl⟩ := hfilled _ k outputs h
        rw [hcollected.txes] at hmem
        obtain ⟨u, hu, heq⟩ := List.mem_map.mp hmem
        obtain ⟨rfl, hhash⟩ := Prod.mk.inj heq
        -- no other transaction of the batch has this prefix hash
        have htx' : tx ∈ ts := by
          rw [hts] at htx
          obtain ⟨t, ht, hsome⟩ := List.mem_map.mp htx
          exact Option.some.inj hsome ▸ ht
        obtain rfl : u = tx := List.inj_on_of_nodup_map hcollected.nodup hu htx' hhash
        have hinput := input_unique hnd hin' hin rfl rfl
        cases hinput
        rfl

/-- **The prefetched output table changes nothing.** For every chain, every batch of blocks and
every transaction of the batch with distinct key images, at any later time of the batch: a scan of
one of its rings returns the same with the prepared table as with an empty one, and with it the same
outputs visited and the same height. -/
theorem scan_table_transparent (e : Env) (s : Blockchain) (txPrefixHash : Transaction → Hash)
    (threads : Nat) (cancel : Nat → Bool) (entries : List IncomingEntry) (added : Chain)
    (tx : Transaction) (htx : some tx ∈ entries.flatMap IncomingEntry.txs)
    (hnd : tx.keyImages.Nodup) (amount : UInt64) (keyOffsets : List UInt64) (k : KeyImage)
    (hin : .toKey amount keyOffsets k ∈ tx.vin)
    (handleOutput : List OutputData → OutputData → Bool) (maxRelatedBlockHeight : Nat) :
    scanOutputkeysForIndexes e (s.chain ++ added)
        (prepareHandleIncomingBlocks e s txPrefixHash threads cancel entries .empty).table
        handleOutput (txPrefixHash tx) amount keyOffsets k maxRelatedBlockHeight =
      scanOutputkeysForIndexes e (s.chain ++ added) .empty handleOutput (txPrefixHash tx) amount
        keyOffsets k maxRelatedBlockHeight := by
  have hscan : ∀ (entry : Option (List OutputData)) (F : List OutputData → List OutputData × Nat),
      (∀ outputs, entry = some outputs →
        outputs = takeSome (s.chain.getOutputKey? e amount) (absoluteOffsets keyOffsets)) →
      ((fetchOutputs e (s.chain ++ added) entry amount (absoluteOffsets keyOffsets)).bind
        fun outputs => (visitOutputs handleOutput (Chain.getOutputKey? e (s.chain ++ added) amount)
          outputs 0 (absoluteOffsets keyOffsets) []).map F) =
      (visitOutputs handleOutput (Chain.getOutputKey? e (s.chain ++ added) amount) [] 0
        (absoluteOffsets keyOffsets) []).map F := by
    intro entry F hentry
    rw [← scan_congr hentry fun off o ho => getOutputKey?_append added ho, Option.map_bind]
    rfl
  unfold scanOutputkeysForIndexes
  split
  · rfl
  · dsimp only
    rw [hscan _ _ fun outputs h => find_prepared htx hnd hin h,
      hscan (ScanTable.empty.find (txPrefixHash tx) k) _ fun outputs h => by cases h]

def scanNode : Blockchain :=
  { chain := [{ bl := regtestGenesis 1 [5] }] }

/-- A transaction with a ring over the first two outputs of 5. -/
def scanTx : Transaction :=
  { vin := [.toKey 5 [0, 1] 7], signatures := 3 }

/-- Two blocks: the first pays another output of 5, the second has the transaction. -/
def scanBatch : List IncomingEntry :=
  [⟨some (regtestBlock 1 1 0 1 [5] []), []⟩, ⟨some (regtestBlock 1 2 1 2 [5] [4]), [some scanTx]⟩]

def scanAdded : Chain :=
  [{ bl := regtestBlock 1 1 0 1 [5] [] }]

def scanPrepared : Prepared :=
  prepareHandleIncomingBlocks (regtest firstVersion) scanNode
    (fun tx => BitVec.ofNat 256 tx.signatures) 1 (fun _ => false) scanBatch .empty

/-- The entry holds the first output only; the scan has both. -/
theorem scan_table_transparent_partial :
    (scanPrepared.table.find 3 7).map List.length = some 1 ∧
      (scanOutputkeysForIndexes (regtest (schedule 1 [])) (scanNode.chain ++ scanAdded)
        scanPrepared.table (fun _ _ => true) 3 5 [0, 1] 7 0).map
          (fun r => (r.1.map OutputData.height, r.2)) = some ([0, 1], 1) ∧
      scanOutputkeysForIndexes (regtest (schedule 1 [])) (scanNode.chain ++ scanAdded)
          scanPrepared.table (fun _ _ => true) 3 5 [0, 1] 7 0 =
        scanOutputkeysForIndexes (regtest (schedule 1 [])) (scanNode.chain ++ scanAdded)
          .empty (fun _ _ => true) 3 5 [0, 1] 7 0 :=
  ⟨by decide +kernel, by decide +kernel,
    scan_table_transparent (regtest (schedule 1 [])) scanNode
      (fun tx => BitVec.ofNat 256 tx.signatures) 1 (fun _ => false) scanBatch scanAdded scanTx
      (by decide +kernel) (by decide +kernel) 5 [0, 1] 7 (by decide +kernel) (fun _ _ => true) 0⟩

end Oxyra
