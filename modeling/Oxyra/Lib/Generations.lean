import Mathlib

/-!
# Duplicates over two generations

A filter that remembers what it has seen in the current generation and in the one before,
and forgets the rest. Entries are admitted for these two generations only, so that nothing
that was admitted once can come again, however often the filter moves on
(`Remembers.admit`).
-/

/-- The number of the current generation, what was seen in it and what was seen in the one
before. -/
structure Generations (α : Type) where
  generation : Nat
  current : List α
  previous : List α

namespace Generations

variable {α : Type} {g : Generations α} {n : Nat} {x : α} {pairs : List (Nat × α)}

def roll (g : Generations α) : Generations α :=
  ⟨g.generation + 1, [], g.current⟩

/-- What was seen in the current generation, or in the one before. -/
def seen (g : Generations α) (isCurrent : Bool) : List α :=
  if isCurrent then g.current else g.previous

def note (g : Generations α) (isCurrent : Bool) (x : α) : Generations α :=
  if isCurrent then { g with current := x :: g.current }
  else { g with previous := x :: g.previous }

/-- Every admitted entry is of an earlier generation, or still remembered. None was admitted
twice. -/
structure Remembers (g : Generations α) (pairs : List (Nat × α)) : Prop where
  nodup : pairs.Nodup
  old : ∀ p ∈ pairs, p.1 ≤ g.generation
  current : ∀ p ∈ pairs, p.1 = g.generation → p.2 ∈ g.current
  previous : ∀ p ∈ pairs, p.1 + 1 = g.generation → p.2 ∈ g.previous

theorem remembers_nil (g : Generations α) : g.Remembers [] :=
  ⟨List.nodup_nil, by simp, by simp, by simp⟩

theorem Remembers.roll (h : g.Remembers pairs) : g.roll.Remembers pairs where
  nodup := h.nodup
  old p hp := Nat.le_succ_of_le (h.old p hp)
  current p hp heq := by
    have := h.old p hp
    have heq : p.1 = g.generation + 1 := heq
    omega
  previous p hp heq := h.current p hp (Nat.succ.inj heq)

theorem Remembers.note (h : g.Remembers pairs) (isCurrent : Bool) (x : α) :
    (g.note isCurrent x).Remembers pairs := by
  cases isCurrent with
  | true =>
    exact ⟨h.nodup, h.old, fun p hp heq => List.mem_cons_of_mem _ (h.current p hp heq),
      h.previous⟩
  | false =>
    exact ⟨h.nodup, h.old, h.current,
      fun p hp heq => List.mem_cons_of_mem _ (h.previous p hp heq)⟩

/-- **An entry that was not seen is admitted for the first time.** -/
theorem Remembers.admit (h : g.Remembers pairs) {isCurrent : Bool}
    (hn : if isCurrent then n = g.generation else n + 1 = g.generation)
    (hfresh : x ∉ g.seen isCurrent) : (g.note isCurrent x).Remembers ((n, x) :: pairs) := by
  have hnote := h.note isCurrent x
  cases isCurrent with
  | true =>
    have hn : n = g.generation := hn
    refine ⟨List.nodup_cons.mpr ⟨fun hmem => hfresh (h.current _ hmem hn), h.nodup⟩, ?_, ?_, ?_⟩
    · exact List.forall_mem_cons.mpr ⟨hn.le, hnote.old⟩
    · exact List.forall_mem_cons.mpr ⟨fun _ => List.mem_cons_self .., hnote.current⟩
    · refine List.forall_mem_cons.mpr ⟨fun heq => ?_, hnote.previous⟩
      have heq : n + 1 = g.generation := heq
      omega
  | false =>
    have hn : n + 1 = g.generation := hn
    refine ⟨List.nodup_cons.mpr ⟨fun hmem => hfresh (h.previous _ hmem hn), h.nodup⟩, ?_, ?_, ?_⟩
    · refine List.forall_mem_cons.mpr ⟨?_, hnote.old⟩
      show n ≤ g.generation
      omega
    · refine List.forall_mem_cons.mpr ⟨fun heq => ?_, hnote.current⟩
      have heq : n = g.generation := heq
      omega
    · exact List.forall_mem_cons.mpr ⟨fun _ => List.mem_cons_self .., hnote.previous⟩

end Generations
