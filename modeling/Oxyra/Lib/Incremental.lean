import Mathlib.Data.List.Basic

/-!
# Incremental parsers

A parser that is fed a stream piece by piece. At each step it looks at the input it
has not used yet and waits for more, uses some of it, or stops for good.
-/

/-- What a parser in a state does with the input it has not used. -/
inductive Move (S E : Type) where
  | wait
  | next (s : S) (out : List E) (used : Nat)
  | stop (out : List E)

namespace Incremental

/-- Where a parser stands: in a state with input it has not used, or stopped. -/
inductive Status (α S : Type) where
  | listening (s : S) (unread : List α)
  | stopped

/-- Where a parser stands and what it has put out so far. -/
structure Run (α S E : Type) where
  status : Status α S
  out : List E

variable {α S E : Type}

def Run.prepend (out : List E) (r : Run α S E) : Run α S E := ⟨r.status, out ++ r.out⟩

theorem Run.prepend_prepend (out out' : List E) (r : Run α S E) :
    (r.prepend out').prepend out = r.prepend (out ++ out') := by
  simp [Run.prepend]

theorem Run.prepend_nil (r : Run α S E) : r.prepend [] = r := rfl

section

variable (step : S → List α → Move S E) (size : S → List α → Nat)

/-- The steps until the parser waits or stops, at most `fuel` of them. -/
def drainN : Nat → S → List α → Run α S E
  | 0, s, input => ⟨.listening s input, []⟩
  | fuel + 1, s, input =>
    match step s input with
    | .wait => ⟨.listening s input, []⟩
    | .stop out => ⟨.stopped, out⟩
    | .next s' out n => (drainN fuel s' (input.drop n)).prepend out

/-- The steps until the parser waits or stops. -/
def drain (s : S) (input : List α) : Run α S E :=
  drainN step (size s input + 1) s input

/-- A run goes on with another piece of the stream. -/
def feed (r : Run α S E) (piece : List α) : Run α S E :=
  match r.status with
  | .stopped => r
  | .listening s unread => (drain step size s (unread ++ piece)).prepend r.out

end

end Incremental

/-- A parser that does not depend on how the stream is cut. -/
structure Incremental {α S E : Type} (step : S → List α → Move S E)
    (size : S → List α → Nat) : Prop where
  next_append : ∀ {s input s' out n}, step s input = .next s' out n →
    n ≤ input.length ∧ ∀ more, step s (input ++ more) = .next s' out n
  stop_append : ∀ {s input out}, step s input = .stop out →
    ∀ more, step s (input ++ more) = .stop out
  shrinks : ∀ {s input s' out n}, step s input = .next s' out n →
    size s' (input.drop n) < size s input

namespace Incremental

variable {α S E : Type} {step : S → List α → Move S E} {size : S → List α → Nat} {s s' : S}
  {input : List α} {out : List E} {n fuel : Nat}

theorem drainN_eq_drain (P : Incremental step size) (h : size s input < fuel) :
    drainN step fuel s input = drain step size s input := by
  have key : ∀ fuel fuel' s input, size s input < fuel → size s input < fuel' →
      drainN step fuel s input = drainN step fuel' s input := by
    intro fuel
    induction fuel with
    | zero => exact fun _ _ _ h => absurd h (Nat.not_lt_zero _)
    | succ fuel ih =>
      intro fuel' s input h h'
      obtain ⟨fuel', rfl⟩ : ∃ k, fuel' = k + 1 := ⟨fuel' - 1, by omega⟩
      rw [drainN, drainN]
      cases hstep : step s input with
      | wait => rfl
      | stop out => rfl
      | next s' out n =>
        have hlt := P.shrinks hstep
        simp only [ih fuel' s' (input.drop n) (by omega) (by omega)]
  exact key fuel _ s input h (Nat.lt_succ_self _)

theorem drain_wait (h : step s input = .wait) :
    drain step size s input = ⟨.listening s input, []⟩ := by
  rw [drain, drainN, h]

theorem drain_stop (h : step s input = .stop out) :
    drain step size s input = ⟨.stopped, out⟩ := by
  rw [drain, drainN, h]

theorem drain_next (P : Incremental step size) (h : step s input = .next s' out n) :
    drain step size s input = (drain step size s' (input.drop n)).prepend out := by
  rw [drain, drainN, h]
  simp only [P.drainN_eq_drain (P.shrinks h)]

theorem feed_prepend (r : Run α S E) (out : List E) (piece : List α) :
    feed step size (r.prepend out) piece = (feed step size r piece).prepend out := by
  obtain ⟨status, out'⟩ := r
  cases status with
  | stopped => rfl
  | listening s unread => exact (Run.prepend_prepend out out' _).symm

/-- **Draining in two goes is draining at once.** -/
theorem drain_append (P : Incremental step size) (s : S) (input more : List α) :
    drain step size s (input ++ more) = feed step size (drain step size s input) more := by
  -- by induction on the steps of the first go
  induction hsize : size s input using Nat.strongRecOn generalizing s input with
  | ind k ih =>
    subst hsize
    cases hstep : step s input with
    | wait =>
      rw [drain_wait hstep]
      exact (Run.prepend_nil _).symm
    | stop out =>
      rw [drain_stop hstep, drain_stop (P.stop_append hstep more)]
      rfl
    | next s' out n =>
      obtain ⟨hn, hmore⟩ := P.next_append hstep
      rw [P.drain_next hstep, P.drain_next (hmore more), List.drop_append_of_le_length hn,
        ih _ (P.shrinks hstep) s' (input.drop n) rfl, feed_prepend]

/-- The rule for what steps keep, given what they put out. -/
theorem drain_invariant (P : Incremental step size) {I : S → Prop} {unread : List α}
    (hstep : ∀ {s input s' out' n}, step s input = .next s' out' n → out' ⊆ out → I s → I s')
    (hdrain : drain step size s input = ⟨.listening s' unread, out⟩) (h : I s) : I s' := by
  induction hsize : size s input using Nat.strongRecOn generalizing s input out with
  | ind k ih =>
    subst hsize
    cases hmove : step s input with
    | wait =>
      rw [drain_wait hmove] at hdrain
      cases hdrain
      exact h
    | stop out =>
      rw [drain_stop hmove] at hdrain
      cases hdrain
    | next s₁ out₁ n =>
      rw [P.drain_next hmove] at hdrain
      generalize hrest : drain step size s₁ (input.drop n) = r at hdrain
      obtain ⟨status, out₂⟩ := r
      cases hdrain
      exact ih _ (P.shrinks hmove)
        (fun h hsub => hstep h (List.subset_append_of_subset_right _ hsub)) hrest
        (hstep hmove (List.subset_append_left _ _) h) rfl

/-- **However the stream is cut, the pieces amount to the whole.** -/
theorem feedAll_drain (P : Incremental step size) (s : S) (input : List α)
    (pieces : List (List α)) :
    pieces.foldl (feed step size) (drain step size s input) =
      drain step size s (input ++ pieces.flatten) := by
  induction pieces generalizing input with
  | nil => rw [List.flatten_nil, List.append_nil, List.foldl_nil]
  | cons piece pieces ih =>
    rw [List.foldl_cons, ← P.drain_append, ih, List.flatten_cons, List.append_assoc]

end Incremental
