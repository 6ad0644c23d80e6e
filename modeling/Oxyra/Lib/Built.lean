import Mathlib

/-!
# Lists built by appending

A log, a ledger or a block chain grows at its end, and each entry was admitted
against the entries before it. `Built P l` says that every entry `x` of `l`
satisfies `P pre x`, with `pre` what stood before it. It is kept by appending
an admitted entry and by cutting entries off the end, which is all that happens
to such a list.
-/

/-- Every entry was admitted against what stood before it. -/
def Built {α : Type} (P : List α → α → Prop) (l : List α) : Prop :=
  ∀ pre x post, l = pre ++ x :: post → P pre x

namespace Built

variable {α : Type} {P Q : List α → α → Prop} {l l₁ l₂ : List α} {x : α}

theorem nil : Built P [] := by
  intro pre x post h
  exact absurd h (by simp)

theorem of_append (h : Built P (l₁ ++ l₂)) : Built P l₁ := by
  intro pre x post heq
  exact h pre x (post ++ l₂) (by simp [heq])

theorem take (h : Built P l) (n : Nat) : Built P (l.take n) := by
  rw [← List.take_append_drop n l] at h
  exact of_append h

theorem dropLast (h : Built P l) : Built P l.dropLast := by
  rw [List.dropLast_eq_take]
  exact take h _

theorem snoc_iff : Built P (l ++ [x]) ↔ Built P l ∧ P l x := by
  constructor
  · exact fun h => ⟨of_append h, h l x [] rfl⟩
  · rintro ⟨hl, hx⟩ pre y post heq
    rcases List.eq_nil_or_concat post with rfl | ⟨post', z, rfl⟩
    · obtain ⟨rfl, hy⟩ := List.append_inj' heq rfl
      obtain rfl := List.singleton_inj.mp hy
      exact hx
    · have heq' : l ++ [x] = (pre ++ y :: post') ++ [z] := by simpa using heq
      exact hl pre y post' (List.append_inj' heq' rfl).1

theorem snoc (hl : Built P l) (hx : P l x) : Built P (l ++ [x]) :=
  snoc_iff.mpr ⟨hl, hx⟩

theorem mono (h : Built P l) (himp : ∀ pre x, P pre x → Q pre x) : Built Q l :=
  fun pre x post heq => himp pre x (h pre x post heq)

theorem getElem (h : Built P l) (i : Nat) (hi : i < l.length) : P (l.take i) l[i] :=
  h (l.take i) l[i] (l.drop (i + 1)) (by rw [List.cons_getElem_drop_succ, List.take_append_drop])

theorem of_getElem (h : ∀ i (hi : i < l.length), P (l.take i) l[i]) : Built P l := by
  rintro pre x post rfl
  have hlt : pre.length < (pre ++ x :: post).length := by simp
  simpa using h pre.length hlt

theorem nodup_flatMap {β : Type} (keys : α → List β)
    (h : Built (fun pre x => (keys x).Nodup ∧ ∀ k ∈ keys x, ∀ y ∈ pre, k ∉ keys y) l) :
    (l.flatMap keys).Nodup := by
  induction l using List.reverseRecOn with
  | nil => exact List.nodup_nil
  | append_singleton pre x ih =>
    obtain ⟨hpre, hx, hnew⟩ := snoc_iff.mp h
    rw [List.flatMap_append, List.flatMap_singleton]
    refine (ih hpre).append hx fun k hk hkx => ?_
    obtain ⟨y, hy, hky⟩ := List.mem_flatMap.mp hk
    exact hnew k hkx y hy hky

end Built
