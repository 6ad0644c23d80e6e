import Mathlib

/-!
# Perfect binary trees

A tree all of whose leaves have the same depth, folded with an operation on pairs. Folding the tree
and joining the leaves layer by layer in adjacent pairs give the same (`PerfectTree.lower`).
-/

variable {α : Type}

/-- A perfect binary tree of height `n`. -/
inductive PerfectTree (α : Type) : Nat → Type where
  | leaf (x : α) : PerfectTree α 0
  | node {n : Nat} (left right : PerfectTree α n) : PerfectTree α (n + 1)

/-- The elements of a list joined in adjacent pairs. -/
def pairUp (pair : α → α → α) : List α → List α
  | x :: y :: l => pair x y :: pairUp pair l
  | _ => []

theorem getElem?_pairUp (pair : α → α → α) (l : List α) (i : Nat) :
    (pairUp pair l)[i]? = l[2 * i]?.bind fun x => l[2 * i + 1]?.map fun y => pair x y := by
  fun_induction pairUp pair l generalizing i with
  | case1 x y l ih =>
    cases i with
    | zero => rfl
    | succ i =>
      rw [List.getElem?_cons_succ, ih, show 2 * (i + 1) = 2 * i + 1 + 1 by omega]
      rfl
  | case2 l hl =>
    rcases l with _ | ⟨x, _ | ⟨y, l⟩⟩
    · rfl
    · cases i <;> rfl
    · exact absurd rfl (hl x y l)

theorem length_pairUp (pair : α → α → α) (l : List α) : (pairUp pair l).length = l.length / 2 := by
  fun_induction pairUp pair l with
  | case1 x y l ih =>
    rw [List.length_cons, List.length_cons, List.length_cons, ih]
    omega
  | case2 l hl =>
    rcases l with _ | ⟨x, _ | ⟨y, l⟩⟩
    · simp
    · simp
    · exact absurd rfl (hl x y l)

theorem pairUp_append (pair : α → α → α) {l l' : List α} (h : 2 ∣ l.length) :
    pairUp pair (l ++ l') = pairUp pair l ++ pairUp pair l' := by
  fun_induction pairUp pair l with
  | case1 x y l ih =>
    rw [List.length_cons, List.length_cons] at h
    rw [List.cons_append, List.cons_append, pairUp, ih (by omega), List.cons_append]
  | case2 l hl =>
    rcases l with _ | ⟨x, _ | ⟨y, l⟩⟩
    · rfl
    · exact absurd h (by simp)
    · exact absurd rfl (hl x y l)

/-- A relation that goes down through `pair` holds between the joined elements. -/
theorem pairUp_reflects {pair : α → α → α} {R : α → α → Prop}
    (hR : ∀ a b c d, R (pair a b) (pair c d) → R a c ∧ R b d) {l l' : List α}
    (heven : 2 ∣ l.length) (hlen : l.length = l'.length)
    (h : List.Forall₂ R (pairUp pair l) (pairUp pair l')) : List.Forall₂ R l l' := by
  induction l using pairUp.induct generalizing l' with
  | case1 x y l ih =>
    obtain _ | ⟨x', _ | ⟨y', l'⟩⟩ := l'
    · exact absurd hlen (by simp)
    · exact absurd hlen (by simp)
    · simp only [List.length_cons] at heven hlen
      obtain ⟨hhead, htail⟩ := List.forall₂_cons.mp h
      obtain ⟨hx, hy⟩ := hR _ _ _ _ hhead
      exact .cons hx (.cons hy (ih (by omega) (by omega) htail))
  | case2 l hl =>
    rcases l with _ | ⟨x, _ | ⟨y, l⟩⟩
    · rw [List.length_eq_zero_iff.mp hlen.symm]
      exact .nil
    · exact absurd heven (by simp)
    · exact absurd rfl (hl x y l)

namespace PerfectTree

def leaves : {n : Nat} → PerfectTree α n → List α
  | _, .leaf x => [x]
  | _, .node left right => left.leaves ++ right.leaves

def root (pair : α → α → α) : {n : Nat} → PerfectTree α n → α
  | _, .leaf x => x
  | _, .node left right => pair (left.root pair) (right.root pair)

theorem length_leaves {n : Nat} (t : PerfectTree α n) : t.leaves.length = 2 ^ n := by
  induction t with
  | leaf x => rfl
  | node left right ihl ihr =>
    rw [leaves, List.length_append, ihl, ihr]
    omega

theorem exists_leaves {n : Nat} : ∀ {l : List α}, l.length = 2 ^ n →
    ∃ t : PerfectTree α n, t.leaves = l := by
  induction n with
  | zero =>
    intro l hl
    obtain ⟨x, rfl⟩ := List.length_eq_one_iff.mp hl
    exact ⟨.leaf x, rfl⟩
  | succ n ih =>
    intro l hl
    obtain ⟨left, hleft⟩ := @ih (l.take (2 ^ n)) (by rw [List.length_take]; omega)
    obtain ⟨right, hright⟩ := @ih (l.drop (2 ^ n)) (by rw [List.length_drop]; omega)
    exact ⟨.node left right, by rw [leaves, hleft, hright, List.take_append_drop]⟩

/-- **Layer by layer**: joining the leaves takes one layer off and leaves the fold as it is. -/
theorem lower (pair : α → α → α) : {n : Nat} → (t : PerfectTree α (n + 1)) →
    ∃ t' : PerfectTree α n, t'.leaves = pairUp pair t.leaves ∧ t'.root pair = t.root pair
  | 0, .node (.leaf x) (.leaf y) => ⟨.leaf (pair x y), rfl, rfl⟩
  | n + 1, .node left right => by
    obtain ⟨left', hleaves, hroot⟩ := lower pair left
    obtain ⟨right', hleaves', hroot'⟩ := lower pair right
    have heven : 2 ∣ left.leaves.length := by
      rw [length_leaves]
      exact dvd_pow_self 2 (by omega)
    refine ⟨.node left' right', ?_, ?_⟩
    · rw [leaves, leaves, pairUp_append pair heven, hleaves, hleaves']
    · rw [root, root, hroot, hroot']

theorem root_reflects {pair : α → α → α} {R : α → α → Prop}
    (hR : ∀ a b c d, R (pair a b) (pair c d) → R a c ∧ R b d) {n : Nat} {t t' : PerfectTree α n}
    (h : R (t.root pair) (t'.root pair)) : List.Forall₂ R t.leaves t'.leaves := by
  induction t with
  | leaf x => cases t' with | leaf y => exact .cons h .nil
  | node left right ihl ihr =>
    cases t' with
    | node left' right' =>
      obtain ⟨hl, hr⟩ := hR _ _ _ _ h
      exact List.rel_append (ihl hl) (ihr hr)

end PerfectTree
