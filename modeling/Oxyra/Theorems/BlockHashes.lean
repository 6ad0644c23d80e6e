import Oxyra.Core.BlockHashes

/-!
# Precomputed hashes gate what is filed

* `fileRows_spec`: filing a group over rows that are empty or agree succeeds, and changes just those
  rows.
* `GroupOk`: the rows of a group are empty, or hold data that was hashed to the compiled value.
  `GroupOk.agrees` is where collisions would matter: data that hashes to the same value is the data
  there already.
* `checkGroups_spec` follows the loop over the groups, with the count that starts below zero.
-/

namespace Oxyra

variable {first groups height k size usable : Nat} {group : List Hash}

/-! ## Groups of a vector -/

variable {α : Type}

theorem readGroup_spec {data group : List α} (h : readGroup data k = some group) :
    group.length = 512 ∧ ∀ j < 512, group[j]? = data[k * 512 + j]? := by
  unfold readGroup hashOfHashesStep at h
  split at h
  · rename_i hle
    obtain rfl := Option.some.inj h
    refine ⟨by simp; omega, fun j hj => ?_⟩
    rw [List.getElem?_take_of_lt hj, List.getElem?_drop]
  · cases h

theorem readGroup_isSome {data : List α} (h : k * 512 + 512 ≤ data.length) :
    ∃ group, readGroup data k = some group :=
  ⟨_, if_pos h⟩

theorem eq_of_getElem? {a b : List α} (ha : a.length = 512) (hb : b.length = 512)
    (h : ∀ j < 512, a[j]? = b[j]?) : a = b := by
  refine List.ext_getElem? fun j => ?_
  by_cases hj : j < 512
  · exact h j hj
  · rw [List.getElem?_eq_none (by omega), List.getElem?_eq_none (by omega)]

/-! ## Filing a group -/

section

variable {dataHashes : List Hash} {dataWeights : Option (List UInt64)} {offset : Nat}

def filedWeight (dataWeights : Option (List UInt64)) (offset : Nat) (check : List HashCheck)
    (j : Nat) : Option UInt64 :=
  match dataWeights with
  | none => check[j]?.map Prod.snd
  | some weights => weights[j - offset]?

/-- A row that is empty or agrees with the data. -/
structure Agrees (dataHashes : List Hash) (dataWeights : Option (List UInt64)) (offset : Nat)
    (check : List HashCheck) (j : Nat) : Prop where
  row : ∃ row, check[j]? = some row
  hash : ∃ hash, dataHashes[j - offset]? = some hash ∧
    ∀ row, check[j]? = some row → row.1 = nullHash ∨ row.1 = hash
  weight : ∀ weights, dataWeights = some weights → ∃ weight, weights[j - offset]? = some weight ∧
    ∀ row, check[j]? = some row → row.2 = 0 ∨ row.2 = weight

theorem Agrees.congr {check check' : List HashCheck} {j : Nat}
    (h : Agrees dataHashes dataWeights offset check j) (heq : check'[j]? = check[j]?) :
    Agrees dataHashes dataWeights offset check' j :=
  ⟨heq ▸ h.row, heq ▸ h.hash, heq ▸ h.weight⟩

theorem fileRows_succ (count : Nat) {i : Nat} {check : List HashCheck}
    (h : Agrees dataHashes dataWeights offset check i) :
    ∃ row, fileRows dataHashes dataWeights offset (count + 1) i check =
        fileRows dataHashes dataWeights offset count (i + 1) (check.set i row) ∧
      dataHashes[i - offset]? = some row.1 ∧
      filedWeight dataWeights offset check i = some row.2 := by
  obtain ⟨row, hrow⟩ := h.row
  obtain ⟨hash, hhash, hagree⟩ := h.hash
  have hfirst : ¬ (¬ row.1 = nullHash ∧ ¬ row.1 = hash) := fun hnot =>
    (hagree row hrow).elim hnot.1 hnot.2
  cases hw : dataWeights with
  | none =>
    refine ⟨(hash, row.2), ?_, hhash, by simp [filedWeight, hrow]⟩
    rw [fileRows, hrow, hhash]
    simpa using fun hnull hne => absurd ⟨hnull, hne⟩ hfirst
  | some weights =>
    obtain ⟨weight, hweight, hagree'⟩ := h.weight weights hw
    have hsecond : ¬ (¬ row.2 = 0 ∧ ¬ row.2 = weight) := fun hnot =>
      (hagree' row hrow).elim hnot.1 hnot.2
    refine ⟨(hash, weight), ?_, hhash, hweight⟩
    rw [fileRows, hrow, hhash]
    simp [hweight, if_neg hfirst, if_neg hsecond]

/-- **Filing rows that agree.** -/
theorem fileRows_spec (count : Nat) : ∀ (i : Nat) (check : List HashCheck),
    (∀ j, i ≤ j → j < i + count → Agrees dataHashes dataWeights offset check j) →
    ∃ check', fileRows dataHashes dataWeights offset count i check = some (true, check') ∧
      check'.length = check.length ∧
      (∀ j, i ≤ j → j < i + count → check'[j]?.map Prod.fst = dataHashes[j - offset]? ∧
        check'[j]?.map Prod.snd = filedWeight dataWeights offset check j) ∧
      ∀ j, ¬ (i ≤ j ∧ j < i + count) → check'[j]? = check[j]? := by
  induction count with
  | zero => exact fun i check _ => ⟨check, rfl, rfl, fun j _ _ => by omega, fun _ _ => rfl⟩
  | succ count ih =>
    intro i check hagrees
    obtain ⟨row, hstep, hhash, hweight⟩ :=
      fileRows_succ count (hagrees i (by omega) (by omega))
    have hother : ∀ j, j ≠ i → (check.set i row)[j]? = check[j]? := fun j hj =>
      List.getElem?_set_ne (Ne.symm hj)
    obtain ⟨check', hfiled, hlen, hin, hout⟩ := ih (i + 1) (check.set i row) fun j hj hlt =>
      (hagrees j (by omega) (by omega)).congr (hother j (by omega))
    refine ⟨check', hstep.trans hfiled, hlen.trans (by simp), fun j hj hlt => ?_, fun j hj => ?_⟩
    · by_cases hji : j = i
      · subst hji
        have hbound : j < check.length := by
          obtain ⟨r, hr⟩ := (hagrees j (by omega) (by omega)).row
          exact (List.getElem?_eq_some_iff.mp hr).1
        have hat : check'[j]? = some row := by
          rw [hout j (by omega), List.getElem?_set_self hbound]
        rw [hat, hhash, hweight]
        exact ⟨rfl, rfl⟩
      · obtain ⟨hfst, hsnd⟩ := hin j (by omega) (by omega)
        refine ⟨hfst, hsnd.trans ?_⟩
        unfold filedWeight
        rw [hother j hji]
    · rw [hout j (by omega), hother j (by omega)]

end

/-! ## What is on file -/

section

variable (hasher : GroupHasher) (compiled : CompiledHashes) (Hashed : List Hash → Prop)
  (Weighed : List UInt64 → Prop)

/-- No two of the groups of hashes, and no two of the groups of weights, collide. -/
structure CollisionFree : Prop where
  hashes : ∀ g g', Hashed g → Hashed g' → hasher.hashes g = hasher.hashes g' → g = g'
  weights : ∀ w w', Weighed w → Weighed w' → hasher.weights w = hasher.weights w' → w = w'

def HoldsHashes (check : List HashCheck) (n : Nat) (group : List Hash) : Prop :=
  ∀ j < 512, check[n * 512 + j]?.map Prod.fst = group[j]?

def HoldsWeights (check : List HashCheck) (n : Nat) (group : List UInt64) : Prop :=
  ∀ j < 512, check[n * 512 + j]?.map Prod.snd = group[j]?

/-- The weights of a group are not known, or were hashed to the compiled value. -/
def WeightsOk (check : List HashCheck) (n : Nat) (expected : Hash) : Prop :=
  (∀ j < 512, check[n * 512 + j]?.map Prod.snd = some 0) ∨
    ∃ group, group.length = 512 ∧ Weighed group ∧ hasher.weights group = expected ∧
      HoldsWeights check n group

/-- The rows of a group are empty, or hold what was hashed to the compiled value. -/
def GroupOk (check : List HashCheck) (n : Nat) (expected : Hash × Hash) : Prop :=
  (∀ j < 512, check[n * 512 + j]? = some (nullHash, 0)) ∨
    (∃ group, group.length = 512 ∧ Hashed group ∧ hasher.hashes group = expected.1 ∧
      HoldsHashes check n group) ∧ WeightsOk hasher Weighed check n expected.2

structure TableOk (check : List HashCheck) : Prop where
  size : check.length = compiled.groups.length * 512
  groups : ∀ n expected, compiled.groups[n]? = some expected →
    GroupOk hasher Hashed Weighed check n expected

variable {hasher compiled Hashed Weighed} {check check' : List HashCheck} {n : Nat}
  {expected : Hash × Hash}

theorem GroupOk.congr (h : GroupOk hasher Hashed Weighed check n expected)
    (heq : ∀ j < 512, check'[n * 512 + j]? = check[n * 512 + j]?) :
    GroupOk hasher Hashed Weighed check' n expected := by
  refine h.imp (fun hnull j hj => (heq j hj).trans (hnull j hj)) ?_
  rintro ⟨⟨group, hlen, hhashed, hvalue, hholds⟩, hweights⟩
  refine ⟨⟨group, hlen, hhashed, hvalue, fun j hj => by rw [heq j hj]; exact hholds j hj⟩, ?_⟩
  refine hweights.imp (fun hzero j hj => by rw [heq j hj]; exact hzero j hj) ?_
  rintro ⟨weights, hlen', hweighed, hvalue', hholds'⟩
  exact ⟨weights, hlen', hweighed, hvalue', fun j hj => by rw [heq j hj]; exact hholds' j hj⟩

/-- **Data that hashes to the compiled value agrees with what is on file.** -/
theorem GroupOk.agrees (hfree : CollisionFree hasher Hashed Weighed)
    (hok : GroupOk hasher Hashed Weighed check n expected) (hrows : n * 512 + 512 ≤ check.length)
    {dataHashes : List Hash} {dataWeights : Option (List UInt64)} (hfirst : first ≤ n)
    (hgroup : readGroup dataHashes (n - first) = some group) (hhashed : Hashed group)
    (hvalue : hasher.hashes group = expected.1)
    (hweights : ∀ weights, dataWeights = some weights → ∃ wgroup,
      readGroup weights (n - first) = some wgroup ∧ Weighed wgroup ∧
        hasher.weights wgroup = expected.2) :
    ∀ j, n * 512 ≤ j → j < n * 512 + 512 →
      Agrees dataHashes dataWeights (first * 512) check j := by
  intro j hj hlt
  have hoffset : j - first * 512 = (n - first) * 512 + (j - n * 512) := by
    have := Nat.mul_le_mul_right 512 hfirst
    rw [Nat.sub_mul]
    omega
  have hindex : n * 512 + (j - n * 512) = j := by omega
  obtain ⟨hlen, hdata⟩ := readGroup_spec hgroup
  have hat := hdata (j - n * 512) (by omega)
  have hinside : j - n * 512 < group.length := by omega
  refine ⟨⟨_, List.getElem?_eq_getElem (by omega)⟩, ⟨group[j - n * 512], ?_, ?_⟩, ?_⟩
  · rw [hoffset, ← hat, List.getElem?_eq_getElem hinside]
  · intro row hrow
    rcases hok with hnull | ⟨⟨group', hlen', hhashed', hvalue', hholds⟩, -⟩
    · have := hnull (j - n * 512) (by omega)
      rw [hindex, hrow] at this
      exact .inl (congrArg Prod.fst (Option.some.inj this))
    · obtain rfl := hfree.hashes _ _ hhashed' hhashed (hvalue'.trans hvalue.symm)
      have := hholds (j - n * 512) (by omega)
      rw [hindex, hrow, List.getElem?_eq_getElem hinside] at this
      exact .inr (Option.some.inj this)
  · intro weights hw
    obtain ⟨wgroup, hwgroup, hweighed, hwvalue⟩ := hweights weights hw
    obtain ⟨hwlen, hwdata⟩ := readGroup_spec hwgroup
    have hwat := hwdata (j - n * 512) (by omega)
    have hwinside : j - n * 512 < wgroup.length := by omega
    refine ⟨wgroup[j - n * 512], ?_, ?_⟩
    · rw [hoffset, ← hwat, List.getElem?_eq_getElem hwinside]
    · intro row hrow
      rcases hok with hnull | ⟨-, hzero | ⟨wgroup', hwlen', hweighed', hwvalue', hwholds⟩⟩
      · have := hnull (j - n * 512) (by omega)
        rw [hindex, hrow] at this
        exact .inl (congrArg Prod.snd (Option.some.inj this))
      · have := hzero (j - n * 512) (by omega)
        rw [hindex, hrow] at this
        exact .inl (Option.some.inj this)
      · obtain rfl := hfree.weights _ _ hweighed' hweighed (hwvalue'.trans hwvalue.symm)
        have := hwholds (j - n * 512) (by omega)
        rw [hindex, hrow, List.getElem?_eq_getElem hwinside] at this
        exact .inr (Option.some.inj this)

/-- **Filing a group that hashes to the compiled value keeps the table.** -/
theorem TableOk.file (hfree : CollisionFree hasher Hashed Weighed)
    (htable : TableOk hasher compiled Hashed Weighed check)
    (hexpected : compiled.groups[n]? = some expected) {dataHashes : List Hash}
    {dataWeights : Option (List UInt64)} (hfirst : first ≤ n)
    (hgroup : readGroup dataHashes (n - first) = some group) (hhashed : Hashed group)
    (hvalue : hasher.hashes group = expected.1)
    (hweights : ∀ weights, dataWeights = some weights → ∃ wgroup,
      readGroup weights (n - first) = some wgroup ∧ Weighed wgroup ∧
        hasher.weights wgroup = expected.2) :
    ∃ check', fileRows dataHashes dataWeights (first * 512) 512 (n * 512) check =
        some (true, check') ∧ TableOk hasher compiled Hashed Weighed check' := by
  have hn : n < compiled.groups.length := (List.getElem?_eq_some_iff.mp hexpected).1
  have hok := htable.groups n expected hexpected
  have hrows : n * 512 + 512 ≤ check.length := by
    rw [htable.size]
    omega
  obtain ⟨check', hfiled, hlen, hin, hout⟩ := fileRows_spec 512 (n * 512) check
    (hok.agrees hfree hrows hfirst hgroup hhashed hvalue hweights)
  have hoffset : ∀ j, n * 512 + j - first * 512 = (n - first) * 512 + j := by
    intro j
    have := Nat.mul_le_mul_right 512 hfirst
    rw [Nat.sub_mul]
    omega
  refine ⟨check', hfiled, hlen.trans htable.size, fun m expected' hm => ?_⟩
  by_cases hmn : m = n
  · subst hmn
    obtain rfl := Option.some.inj (hexpected.symm.trans hm)
    obtain ⟨hglen, hdata⟩ := readGroup_spec hgroup
    refine .inr ⟨⟨group, hglen, hhashed, hvalue, fun j hj => ?_⟩, ?_⟩
    · rw [(hin (m * 512 + j) (Nat.le_add_right _ _) (Nat.add_lt_add_left hj _)).1, hoffset,
        hdata j hj]
    · have hafter : ∀ j < 512, check'[m * 512 + j]?.map Prod.snd =
          filedWeight dataWeights (first * 512) check (m * 512 + j) := fun j hj =>
        (hin (m * 512 + j) (Nat.le_add_right _ _) (Nat.add_lt_add_left hj _)).2
      cases hw : dataWeights with
      | none =>
        -- the weights are what they were
        rw [hw] at hafter
        rcases hok with hnull | ⟨-, hzero | ⟨wgroup, hwlen, hweighed, hwvalue, hwholds⟩⟩
        · exact .inl fun j hj => (hafter j hj).trans (by simp [filedWeight, hnull j hj])
        · exact .inl fun j hj => (hafter j hj).trans (hzero j hj)
        · exact .inr ⟨wgroup, hwlen, hweighed, hwvalue,
            fun j hj => (hafter j hj).trans (hwholds j hj)⟩
      | some weights =>
        rw [hw] at hafter
        obtain ⟨wgroup, hwgroup, hweighed, hwvalue⟩ := hweights weights hw
        obtain ⟨hwlen, hwdata⟩ := readGroup_spec hwgroup
        refine .inr ⟨wgroup, hwlen, hweighed, hwvalue, fun j hj => ?_⟩
        rw [hafter j hj, hwdata j hj]
        exact congrArg (weights[·]?) (hoffset j)
  · refine (htable.groups m expected' hm).congr fun j hj => hout _ ?_
    omega

/-! ## The loop over the groups -/

theorem usableResult_le (usable : Nat) : usableResult usable ≤ usable := by
  unfold usableResult
  split <;> omega

/-- The count while the groups are those compiled in: behind a group it is what lies between the
height and the end of the group; at the start it may be below zero. -/
structure CountOk (size height first groups n usable : Nat) : Prop where
  exact : n < groups → usable = (n * 512 + (2 ^ 64 - height)) % 2 ^ 64
  bound : usable ≤ size ∨ n < groups ∧ 2 ^ 64 - 512 ≤ usable

theorem CountOk.result_le {n : Nat} (h : CountOk size height first groups n usable) :
    usableResult usable ≤ size := by
  rcases h.bound with hle | ⟨-, hwrapped⟩
  · exact (usableResult_le usable).trans hle
  · unfold usableResult
    rw [if_neg (by omega)]
    omega

theorem CountOk.filed {n data : Nat} (h : CountOk size height first groups n usable)
    (hn : n < groups) (hfirst : first ≤ n) (hheight : height < first * 512 + 512)
    (hsize : size < 2 ^ 58) (hbig : height < 2 ^ 58) (hdata : first * 512 + data = height + size)
    (hfull : (n - first) * 512 + 512 ≤ data) :
    CountOk size height first groups (n + 1) ((usable + 512) % 2 ^ 64) := by
  have hmul := Nat.sub_mul n first 512
  have hle := Nat.mul_le_mul_right 512 hfirst
  have hexact := h.exact hn
  have hnext : (usable + 512) % 2 ^ 64 = (n + 1) * 512 - height := by omega
  exact ⟨fun _ => by omega, .inl (by omega)⟩

theorem CountOk.beyond {n : Nat} (hn : groups ≤ n) :
    CountOk size height first groups (n + 1)
      (if (usable + 512) % 2 ^ 64 > size then size else (usable + 512) % 2 ^ 64) := by
  refine ⟨fun hlt => by omega, .inl ?_⟩
  split <;> omega

theorem validGroup_ne_none {dataHashes : List Hash} {dataWeights : Option (List UInt64)}
    (hfull : k * 512 + 512 ≤ dataHashes.length)
    (hlengths : ∀ weights, dataWeights = some weights → weights.length = dataHashes.length) :
    validGroup hasher dataHashes dataWeights k expected ≠ none := by
  obtain ⟨group, hgroup⟩ := readGroup_isSome hfull
  unfold validGroup
  rw [hgroup]
  by_cases hvalue : hasher.hashes group = expected.1
  · cases hw : dataWeights with
    | none => simp [hvalue]
    | some weights =>
      obtain ⟨wgroup, hwgroup⟩ := readGroup_isSome ((hlengths weights hw).symm ▸ hfull)
      simp [hvalue, hwgroup]
  · simp [hvalue]

theorem validGroup_spec {dataHashes : List Hash} {dataWeights : Option (List UInt64)}
    (h : validGroup hasher dataHashes dataWeights k expected = some true) :
    ∃ group, readGroup dataHashes k = some group ∧ hasher.hashes group = expected.1 ∧
      ∀ weights, dataWeights = some weights → ∃ wgroup, readGroup weights k = some wgroup ∧
        hasher.weights wgroup = expected.2 := by
  unfold validGroup at h
  cases hgroup : readGroup dataHashes k with
  | none => simp [hgroup] at h
  | some group =>
    by_cases hvalue : hasher.hashes group = expected.1
    · refine ⟨group, rfl, hvalue, fun weights hw => ?_⟩
      subst hw
      cases hwgroup : readGroup weights k with
      | none => simp [hgroup, hvalue, hwgroup] at h
      | some wgroup => exact ⟨wgroup, rfl, by simpa [hgroup, hvalue, hwgroup] using h⟩
    · simp [hgroup, hvalue] at h

/-- **The loop over the groups.** It reads nothing out of range, keeps the table and counts no more
hashes than there are. -/
theorem checkGroups_spec (hfree : CollisionFree hasher Hashed Weighed) {dataHashes : List Hash}
    {dataWeights : Option (List UInt64)} (hheight : height < first * 512 + 512)
    (hsize : size < 2 ^ 58) (hbig : height < 2 ^ 58)
    (hdata : first * 512 + dataHashes.length = height + size)
    (hlengths : ∀ weights, dataWeights = some weights → weights.length = dataHashes.length)
    (hhashed : ∀ k group, readGroup dataHashes k = some group → Hashed group)
    (hweighed : ∀ weights, dataWeights = some weights →
      ∀ k group, readGroup weights k = some group → Weighed group)
    (count : Nat) :
    ∀ {n usable : Nat} {check : List HashCheck}, first ≤ n →
      TableOk hasher compiled Hashed Weighed check →
      CountOk size height first compiled.groups.length n usable →
      ∃ result check', checkGroups hasher compiled size first dataHashes dataWeights count n usable
          check = some (result, check') ∧ result ≤ size ∧
        TableOk hasher compiled Hashed Weighed check' := by
  induction count with
  | zero => exact fun _ htable hcount => ⟨_, _, rfl, hcount.result_le, htable⟩
  | succ count ih =>
    intro n usable check hfirst htable hcount
    have hstop : ∃ result check', some (usableResult usable, check) = some (result, check') ∧
        result ≤ size ∧ TableOk hasher compiled Hashed Weighed check' :=
      ⟨_, _, rfl, hcount.result_le, htable⟩
    unfold checkGroups
    cases hexpected : compiled.groups[n]? with
    | none =>
      have hn := List.getElem?_eq_none_iff.mp hexpected
      exact ih (by omega) htable (.beyond hn)
    | some expected =>
      have hn : n < compiled.groups.length := (List.getElem?_eq_some_iff.mp hexpected).1
      dsimp only
      by_cases hfull : dataHashes.length < (n - first) * hashOfHashesStep + hashOfHashesStep
      · rw [if_pos hfull]
        exact hstop
      · rw [if_neg hfull]
        have hfull : (n - first) * 512 + 512 ≤ dataHashes.length := Nat.le_of_not_lt hfull
        rcases hvalid : validGroup hasher dataHashes dataWeights (n - first) expected with
          - | valid
        · exact absurd hvalid (validGroup_ne_none hfull hlengths)
        · cases valid with
          | false => exact hstop
          | true =>
            obtain ⟨group, hgroup, hvalue, hweights⟩ := validGroup_spec hvalid
            obtain ⟨check', hfiled, htable'⟩ := htable.file hfree hexpected hfirst hgroup
              (hhashed _ _ hgroup) hvalue fun weights hw => by
                obtain ⟨wgroup, hwgroup, hwvalue⟩ := hweights weights hw
                exact ⟨wgroup, hwgroup, hweighed weights hw _ _ hwgroup, hwvalue⟩
            have hcount' := hcount.filed hn hfirst hheight hsize hbig hdata hfull
            obtain ⟨result, check'', hrest, hresult⟩ := ih (by omega) htable' hcount'
            refine ⟨result, check'', ?_, hresult⟩
            simp only [show hashOfHashesStep = 512 from rfl, hfiled]
            exact hrest

end

/-! ## The data of a call -/

namespace Prevalidation

variable {c : Prevalidation}

theorem pushed_eq_drop (pop : Nat) (l : List α) : pushed pop l = l.drop pop := by
  induction l generalizing pop with
  | nil => simp [pushed]
  | cons x l ih =>
    cases pop with
    | zero => rw [pushed, ih, List.drop_zero, List.drop_zero]
    | succ pop => rw [pushed, ih, List.drop_succ_cons]

theorem mapM_isSome {β : Type} {f : α → Option β} (l : List α)
    (h : ∀ x ∈ l, ∃ y, f x = some y) : ∃ ys, l.mapM f = some ys ∧ ys.length = l.length := by
  induction l with
  | nil => exact ⟨[], rfl, rfl⟩
  | cons x l ih =>
    obtain ⟨y, hy⟩ := h x List.mem_cons_self
    obtain ⟨ys, hys, hlen⟩ := ih fun x hx => h x (List.mem_cons_of_mem _ hx)
    exact ⟨y :: ys, by simp [List.mapM_cons, hy, hys], by simp [hlen]⟩

theorem skipsFirst_iff (c : Prevalidation) :
    c.skipsFirst = true ↔ c.chain.length < c.height ∧ c.height % 512 ≠ 0 := by
  unfold skipsFirst hashOfHashesStep
  rw [Bool.and_eq_true, decide_eq_true_eq, decide_eq_true_eq]

/-- **What is borrowed is in the chain.** -/
theorem borrowed_isSome (c : Prevalidation) : ∃ blocks, c.borrowed = some blocks ∧
    blocks.length = if c.skipsFirst then 0 else c.height - c.firstIndex * 512 := by
  unfold borrowed
  cases hskip : c.skipsFirst with
  | true => exact ⟨[], rfl, rfl⟩
  | false =>
    have hin : ¬ (c.chain.length < c.height ∧ c.height % 512 ≠ 0) := by
      rw [← skipsFirst_iff, hskip]
      exact Bool.false_ne_true
    obtain ⟨ys, hys, hlen⟩ := mapM_isSome
      (f := fun i => c.chain[c.firstIndex * hashOfHashesStep + i]?)
      (List.range (c.height - c.firstIndex * hashOfHashesStep)) fun i hi => by
        rw [List.mem_range] at hi
        unfold firstIndex hashOfHashesStep at *
        exact ⟨_, List.getElem?_eq_getElem (by omega)⟩
    exact ⟨ys, hys, hlen.trans (List.length_range)⟩

theorem length_dataHashes (blocks : List (Hash × UInt64)) :
    (c.dataHashes blocks).length = blocks.length + (c.hashes.length - c.popCount) := by
  simp [dataHashes, pushed_eq_drop]

theorem length_dataWeights {blocks : List (Hash × UInt64)} {weights : List UInt64}
    (hsizes : c.weights = [] ∨ c.weights.length = c.hashes.length)
    (h : c.dataWeights blocks = some weights) :
    weights.length = (c.dataHashes blocks).length := by
  unfold dataWeights at h
  split at h
  · cases h
  · rename_i hne
    obtain rfl := Option.some.inj h
    rw [length_dataHashes, ← hsizes.resolve_left hne]
    simp [pushed_eq_drop]

/-- The early return for too few hashes to fill a group. -/
def TooFew (c : Prevalidation) : Prop :=
  c.firstIndex = c.lastIndex ∧ c.hashes.length < hashOfHashesStep ∧
    (c.height + c.hashes.length) % hashOfHashesStep ≠ 0

theorem popCount_le (hbig : c.height < 2 ^ 58) (hfew : ¬ c.TooFew) (hskip : c.skipsFirst = true) :
    c.popCount ≤ c.hashes.length := by
  have hsmall := c.fits
  obtain ⟨-, hmod⟩ := c.skipsFirst_iff.mp hskip
  unfold popCount
  rw [if_pos hskip]
  unfold hashOfHashesStep
  by_contra hlt
  refine hfew ⟨?_, ?_, ?_⟩
  · unfold firstIndex lastIndex hashOfHashesStep
    omega
  · unfold hashOfHashesStep
    omega
  · unfold hashOfHashesStep
    omega

theorem data_reaches (hbig : c.height < 2 ^ 58) (hfew : ¬ c.TooFew)
    {blocks : List (Hash × UInt64)}
    (hblocks : blocks.length = if c.skipsFirst then 0 else c.height - c.firstIndex * 512) :
    c.startIndex * 512 + (c.dataHashes blocks).length = c.height + c.hashes.length := by
  rw [length_dataHashes, hblocks]
  cases hskip : c.skipsFirst with
  | true =>
    have hpop := popCount_le hbig hfew hskip
    unfold popCount at hpop ⊢
    unfold startIndex
    rw [hskip] at hpop ⊢
    unfold firstIndex hashOfHashesStep at *
    simp only [if_true] at hpop ⊢
    omega
  | false =>
    unfold startIndex popCount
    rw [hskip]
    unfold firstIndex hashOfHashesStep
    simp only [Bool.false_eq_true, if_false]
    omega

theorem height_lt (c : Prevalidation) : c.height < c.startIndex * 512 + 512 := by
  unfold startIndex firstIndex hashOfHashesStep
  split <;> omega

theorem countOk_start (hheight : c.height < groups * 512) (hbig : c.height < 2 ^ 58)
    (hfew : ¬ c.TooFew) :
    CountOk c.hashes.length c.height c.startIndex groups c.startIndex
      ((c.startIndex * hashOfHashesStep + (2 ^ 64 - c.height)) % 2 ^ 64) := by
  unfold hashOfHashesStep
  refine ⟨fun _ => rfl, ?_⟩
  cases hskip : c.skipsFirst with
  | true =>
    have hpop := popCount_le hbig hfew hskip
    obtain ⟨-, hmod⟩ := c.skipsFirst_iff.mp hskip
    unfold popCount at hpop
    unfold startIndex
    rw [hskip] at hpop ⊢
    unfold firstIndex hashOfHashesStep at *
    simp only [if_true] at hpop ⊢
    left
    omega
  | false =>
    unfold startIndex
    rw [hskip]
    unfold firstIndex hashOfHashesStep
    simp only [Bool.false_eq_true, if_false]
    by_cases hmod : c.height % 512 = 0
    · left
      omega
    · right
      omega

end Prevalidation

section

variable {hasher : GroupHasher} {compiled : CompiledHashes} {Hashed : List Hash → Prop}
  {Weighed : List UInt64 → Prop}

/-- **One call**, over a table that is right. -/
theorem prevalidateBlockHashes_spec (hfree : CollisionFree hasher Hashed Weighed)
    (c : Prevalidation)
    (hhashed : ∀ blocks k group, c.borrowed = some blocks →
      readGroup (c.dataHashes blocks) k = some group → Hashed group)
    (hweighed : ∀ blocks weights k group, c.borrowed = some blocks →
      c.dataWeights blocks = some weights → readGroup weights k = some group → Weighed group)
    {check : List HashCheck} (htable : TableOk hasher compiled Hashed Weighed check) :
    ∃ result check', prevalidateBlockHashes hasher compiled check c = some (result, check') ∧
      result ≤ c.hashes.length ∧ TableOk hasher compiled Hashed Weighed check' := by
  unfold prevalidateBlockHashes
  split
  · exact ⟨_, _, rfl, Nat.zero_le _, htable⟩
  rename_i hsizes
  split
  · exact ⟨_, _, rfl, Nat.le_refl _, htable⟩
  rename_i hheight
  split
  · exact ⟨_, _, rfl, Nat.le_refl _, htable⟩
  split
  · exact ⟨_, _, rfl, Nat.le_refl _, htable⟩
  rename_i hfew
  have hheight : c.height < compiled.groups.length * 512 := Nat.lt_of_not_le hheight
  have hbig : c.height < 2 ^ 58 := hheight.trans compiled.fits
  obtain ⟨blocks, hborrowed, hblocks⟩ := c.borrowed_isSome
  have hcount := Prevalidation.countOk_start hheight hbig hfew
  have hdata := Prevalidation.data_reaches hbig hfew hblocks
  rw [hborrowed, Option.bind_eq_bind, Option.bind_some]
  exact checkGroups_spec hfree c.height_lt c.fits hbig hdata
    (fun weights hw => Prevalidation.length_dataWeights (not_not.mp hsizes) hw)
    (fun k group hgroup => hhashed blocks k group hborrowed hgroup)
    (fun weights hw k group hgroup => hweighed blocks weights k group hborrowed hw hgroup)
    _ (Nat.le_refl _) htable hcount

end

/-! ## Sequences of calls -/

def HashedIn (calls : List Prevalidation) (group : List Hash) : Prop :=
  ∃ c ∈ calls, ∃ blocks k, c.borrowed = some blocks ∧
    readGroup (c.dataHashes blocks) k = some group

def WeighedIn (calls : List Prevalidation) (group : List UInt64) : Prop :=
  ∃ c ∈ calls, ∃ blocks weights k, c.borrowed = some blocks ∧
    c.dataWeights blocks = some weights ∧ readGroup weights k = some group

section

variable {hasher : GroupHasher} {compiled : CompiledHashes} {Hashed : List Hash → Prop}
  {Weighed : List UInt64 → Prop}

theorem prevalidateAll_spec (hfree : CollisionFree hasher Hashed Weighed)
    (calls : List Prevalidation) (hhashed : ∀ group, HashedIn calls group → Hashed group)
    (hweighed : ∀ group, WeighedIn calls group → Weighed group) :
    ∀ {check : List HashCheck}, TableOk hasher compiled Hashed Weighed check →
      ∃ results check', prevalidateAll hasher compiled check calls = some (results, check') ∧
        List.Forall₂ (fun result c => result ≤ c.hashes.length) results calls ∧
        TableOk hasher compiled Hashed Weighed check' := by
  induction calls with
  | nil => exact fun htable => ⟨[], _, rfl, .nil, htable⟩
  | cons c calls ih =>
    intro check htable
    obtain ⟨result, check₁, hcall, hle, htable₁⟩ := prevalidateBlockHashes_spec hfree c
      (fun blocks k group hb hg => hhashed group ⟨c, List.mem_cons_self, blocks, k, hb, hg⟩)
      (fun blocks weights k group hb hw hg =>
        hweighed group ⟨c, List.mem_cons_self, blocks, weights, k, hb, hw, hg⟩) htable
    obtain ⟨results, check₂, hrest, hall, htable₂⟩ := ih
      (fun group ⟨c', hc', h⟩ => hhashed group ⟨c', List.mem_cons_of_mem _ hc', h⟩)
      (fun group ⟨c', hc', h⟩ => hweighed group ⟨c', List.mem_cons_of_mem _ hc', h⟩) htable₁
    refine ⟨result :: results, check₂, ?_, .cons hle hall, htable₂⟩
    simp [prevalidateAll, hcall, hrest]

theorem tableOk_nullTable : TableOk hasher compiled Hashed Weighed compiled.nullTable := by
  refine ⟨by simp [CompiledHashes.nullTable, hashOfHashesStep], fun n expected hn => .inl ?_⟩
  intro j hj
  have := (List.getElem?_eq_some_iff.mp hn).1
  unfold CompiledHashes.nullTable hashOfHashesStep
  rw [List.getElem?_replicate_of_lt]
  omega

end

def groupHashes (check : List HashCheck) (n : Nat) : List Hash :=
  ((check.drop (n * hashOfHashesStep)).take hashOfHashesStep).map Prod.fst

def groupWeights (check : List HashCheck) (n : Nat) : List UInt64 :=
  ((check.drop (n * hashOfHashesStep)).take hashOfHashesStep).map Prod.snd

theorem getElem?_group {check : List HashCheck} {n j : Nat} (hj : j < 512) :
    ((check.drop (n * hashOfHashesStep)).take hashOfHashesStep)[j]? = check[n * 512 + j]? := by
  unfold hashOfHashesStep
  rw [List.getElem?_take_of_lt hj, List.getElem?_drop]

theorem HoldsHashes.eq {check : List HashCheck} {n : Nat} (h : HoldsHashes check n group)
    (hlen : group.length = 512) (hrows : n * 512 + 512 ≤ check.length) :
    groupHashes check n = group := by
  refine eq_of_getElem? ?_ hlen fun j hj => ?_
  · simp [groupHashes, hashOfHashesStep]
    omega
  · rw [groupHashes, List.getElem?_map, getElem?_group hj]
    exact h j hj

theorem HoldsWeights.eq {check : List HashCheck} {n : Nat} {group : List UInt64}
    (h : HoldsWeights check n group) (hlen : group.length = 512)
    (hrows : n * 512 + 512 ≤ check.length) : groupWeights check n = group := by
  refine eq_of_getElem? ?_ hlen fun j hj => ?_
  · simp [groupWeights, hashOfHashesStep]
    omega
  · rw [groupWeights, List.getElem?_map, getElem?_group hj]
    exact h j hj

/-- **Precomputed hashes gate what is filed.** Over any sequence of calls from the empty table, in
which no two of the groups that are hashed collide: no call reads out of range, none returns more
than the number of hashes it was given, and at the end every hash on file is part of a group that
hashes to the compiled value, and every weight part of one whose weights do. -/
theorem prevalidation_gates (hasher : GroupHasher) (compiled : CompiledHashes)
    (calls : List Prevalidation)
    (hfree : CollisionFree hasher (HashedIn calls) (WeighedIn calls)) :
    ∃ results check,
      prevalidateAll hasher compiled compiled.nullTable calls = some (results, check) ∧
      List.Forall₂ (fun result c => result ≤ c.hashes.length) results calls ∧
      check.length = compiled.groups.length * hashOfHashesStep ∧
      ∀ i row, check[i]? = some row →
        ∃ expected, compiled.groups[i / hashOfHashesStep]? = some expected ∧
          (row.1 ≠ nullHash →
            hasher.hashes (groupHashes check (i / hashOfHashesStep)) = expected.1) ∧
          (row.2 ≠ 0 →
            hasher.weights (groupWeights check (i / hashOfHashesStep)) = expected.2) := by
  have hstart : TableOk hasher compiled (HashedIn calls) (WeighedIn calls) compiled.nullTable :=
    tableOk_nullTable
  obtain ⟨results, check, hrun, hresults, htable⟩ := prevalidateAll_spec hfree calls
    (fun _ h => h) (fun _ h => h) hstart
  refine ⟨results, check, hrun, hresults, htable.size, fun i row hrow => ?_⟩
  have hi : i < compiled.groups.length * 512 :=
    htable.size ▸ (List.getElem?_eq_some_iff.mp hrow).1
  have hn : i / 512 < compiled.groups.length := by omega
  have hsize := htable.size
  have hrows : i / 512 * 512 + 512 ≤ check.length := by omega
  have hindex : i / 512 * 512 + i % 512 = i := by omega
  have hmod : i % 512 < 512 := Nat.mod_lt _ (by decide)
  have hexpected := List.getElem?_eq_getElem hn
  refine ⟨compiled.groups[i / 512], hexpected, fun hnull => ?_, fun hzero => ?_⟩
  · rcases htable.groups _ _ hexpected with hempty | ⟨⟨group, hlen, -, hvalue, hholds⟩, -⟩
    · have := hempty (i % 512) hmod
      rw [hindex, hrow] at this
      exact absurd (congrArg Prod.fst (Option.some.inj this)) hnull
    · rw [show i / hashOfHashesStep = i / 512 from rfl, hholds.eq hlen hrows, hvalue]
  · rcases htable.groups _ _ hexpected with
      hempty | ⟨-, hzeros | ⟨group, hlen, -, hvalue, hholds⟩⟩
    · have := hempty (i % 512) hmod
      rw [hindex, hrow] at this
      exact absurd (congrArg Prod.snd (Option.some.inj this)) hzero
    · have := hzeros (i % 512) hmod
      rw [hindex, hrow] at this
      exact absurd (Option.some.inj this) hzero
    · rw [show i / hashOfHashesStep = i / 512 from rfl, hholds.eq hlen hrows, hvalue]

/-- One group compiled in, of blocks whose hash is 1. -/
def oneGroup : CompiledHashes := ⟨[(1, 0)], by decide⟩

def firstHasher : GroupHasher := ⟨fun l => l.headD 0, fun _ => 0⟩

/-- The blocks of that group are announced to an empty chain. -/
def announced : Prevalidation :=
  ⟨[], 0, List.replicate 512 1, [], by rw [List.length_replicate]; decide⟩

theorem hashedIn_announced (h : HashedIn [announced] group) :
    group = List.replicate 512 1 := by
  obtain ⟨c, hc, blocks, k, hblocks, hgroup⟩ := h
  obtain rfl := List.mem_singleton.mp hc
  obtain rfl : blocks = [] := (Option.some.inj hblocks).symm
  have hdata : announced.dataHashes [] = List.replicate 512 1 :=
    Prevalidation.pushed_eq_drop 0 (List.replicate 512 1)
  rw [hdata] at hgroup
  obtain ⟨hlen, hat⟩ := readGroup_spec hgroup
  refine eq_of_getElem? hlen (List.length_replicate) fun j hj => ?_
  have hin : j < group.length := by omega
  rw [hat j hj, List.getElem?_replicate_of_lt hj]
  have hsome := hat j hj
  rw [List.getElem?_eq_getElem hin] at hsome
  have hmem := List.mem_of_getElem? hsome.symm
  rw [← hsome, List.eq_of_mem_replicate hmem]

theorem prevalidation_gates_announced :
    CollisionFree firstHasher (HashedIn [announced]) (WeighedIn [announced]) ∧
      ∃ results check,
        prevalidateAll firstHasher oneGroup oneGroup.nullTable [announced] = some (results, check) ∧
        List.Forall₂ (fun result c => result ≤ c.hashes.length) results [announced] := by
  have hfree : CollisionFree firstHasher (HashedIn [announced]) (WeighedIn [announced]) := by
    refine ⟨fun g g' hg hg' _ => (hashedIn_announced hg).trans (hashedIn_announced hg').symm, ?_⟩
    rintro w w' ⟨c, hc, blocks, weights, k, -, hnone, -⟩
    obtain rfl := List.mem_singleton.mp hc
    cases hnone
  obtain ⟨results, check, hrun, hresults, -⟩ :=
    prevalidation_gates firstHasher oneGroup [announced] hfree
  exact ⟨hfree, results, check, hrun, hresults⟩

end Oxyra
