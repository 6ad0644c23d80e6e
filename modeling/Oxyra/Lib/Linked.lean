import Oxyra.Lib.Built

/-!
# Lists linked by a key

In a hash chain every entry names the key of the entry before it, and the first
one names a key that no entry has. If keys do not collide, the key of the last
entry determines the whole list (`Linked.unique`): this is what lets a node
recognise a history by its top alone.

`annotate` computes a value for each entry from the values before it, as running
totals and retarget rules do. A stored chain whose entries were computed that way
carries the annotation of its entries (`Built.map_eq_annotate`).
-/

section Linked

variable {α κ : Type} (key link : α → κ) (null : κ)

/-- The key of the last entry, `null` for the empty list. -/
def lastKey (l : List α) : κ :=
  (l.getLast?.map key).getD null

@[simp] theorem lastKey_snoc (l : List α) (x : α) : lastKey key null (l ++ [x]) = key x := by
  simp [lastKey]

/-- Every entry satisfies `Q` and names the key of the entry before it. -/
def Linked (Q : α → Prop) (l : List α) : Prop :=
  Built (fun pre x => Q x ∧ link x = lastKey key null pre) l

variable {key link null} {Q : α → Prop} {l l' : List α}

/-- Keys tell the entries apart, and none of them is the one that marks the start. -/
structure KeysOk (key : α → κ) (null : κ) (Q : α → Prop) : Prop where
  injective : ∀ x y, Q x → Q y → key x = key y → x = y
  notNull : ∀ x, Q x → key x ≠ null

theorem Linked.lastKey_ne_null (hk : KeysOk key null Q) (h : Linked key link null Q l)
    (hne : l ≠ []) : lastKey key null l ≠ null := by
  rcases List.eq_nil_or_concat' l with rfl | ⟨l, x, rfl⟩
  · exact absurd rfl hne
  · rw [lastKey_snoc]
    exact hk.notNull x (Built.snoc_iff.mp h).2.1

/-- **The last key determines the list.** -/
theorem Linked.unique (hk : KeysOk key null Q) (h : Linked key link null Q l)
    (h' : Linked key link null Q l') (heq : lastKey key null l = lastKey key null l') :
    l = l' := by
  induction l using List.reverseRecOn generalizing l' with
  | nil =>
    by_contra hne
    exact h'.lastKey_ne_null hk (Ne.symm hne) heq.symm
  | append_singleton l x ih =>
    rcases List.eq_nil_or_concat' l' with rfl | ⟨l', y, rfl⟩
    · exact absurd heq (h.lastKey_ne_null hk (by simp))
    · obtain ⟨hl, hx, hlink⟩ := Built.snoc_iff.mp h
      obtain ⟨hl', hy, hlink'⟩ := Built.snoc_iff.mp h'
      -- the last entries agree, so they name the same predecessor
      rw [lastKey_snoc, lastKey_snoc] at heq
      obtain rfl := hk.injective x y hx hy heq
      rw [ih hl hl' (hlink.symm.trans hlink')]

/-- Of lists of one length it does so whatever the key that marks the start. -/
theorem Linked.unique_of_length (hinj : ∀ x y, Q x → Q y → key x = key y → x = y)
    (h : Linked key link null Q l) (h' : Linked key link null Q l') (hlen : l.length = l'.length)
    (heq : lastKey key null l = lastKey key null l') : l = l' := by
  induction l using List.reverseRecOn generalizing l' with
  | nil => exact (List.length_eq_zero_iff.mp hlen.symm).symm
  | append_singleton l x ih =>
    rcases List.eq_nil_or_concat' l' with rfl | ⟨l', y, rfl⟩
    · simp at hlen
    · obtain ⟨hl, hx, hlink⟩ := Built.snoc_iff.mp h
      obtain ⟨hl', hy, hlink'⟩ := Built.snoc_iff.mp h'
      rw [lastKey_snoc, lastKey_snoc] at heq
      obtain rfl := hinj x y hx hy heq
      rw [ih hl hl' (by simpa using hlen) (hlink.symm.trans hlink')]

theorem lastKey_take {i : Nat} (hi : i < l.length) :
    lastKey key null (l.take (i + 1)) = key l[i] := by
  rw [List.take_succ_eq_append_getElem hi, lastKey_snoc]

/-- **A shared entry stands at one place**, and everything before it is shared too. -/
theorem Linked.shared (hk : KeysOk key null Q) (h : Linked key link null Q l)
    (h' : Linked key link null Q l') {i j : Nat} (hi : i < l.length) (hj : j < l'.length)
    (heq : key l[i] = key l'[j]) : i = j ∧ l.take (i + 1) = l'.take (i + 1) := by
  have htakes : l.take (i + 1) = l'.take (j + 1) :=
    Linked.unique hk (Built.take h _) (Built.take h' _)
      (by rw [lastKey_take hi, lastKey_take hj, heq])
  have hlengths := congrArg List.length htakes
  rw [List.length_take, List.length_take] at hlengths
  obtain rfl : i = j := by omega
  exact ⟨rfl, htakes⟩

end Linked

section Annotate

variable {α β γ : Type} (f : List β → α → β)

/-- The value of each entry, computed from the values before it. -/
def annotate (l : List α) : List β :=
  l.foldl (fun acc x => acc ++ [f acc x]) []

theorem annotate_snoc (l : List α) (x : α) :
    annotate f (l ++ [x]) = annotate f l ++ [f (annotate f l) x] := by
  simp [annotate]

theorem Built.map_eq_annotate {a : γ → α} {b : γ → β} {l : List γ}
    (h : Built (fun pre x => b x = f (pre.map b) (a x)) l) :
    l.map b = annotate f (l.map a) := by
  induction l using List.reverseRecOn with
  | nil => rfl
  | append_singleton l x ih =>
    obtain ⟨hl, hx⟩ := Built.snoc_iff.mp h
    rw [List.map_append, List.map_append, List.map_singleton, List.map_singleton, annotate_snoc,
      ← ih hl, hx]

end Annotate
