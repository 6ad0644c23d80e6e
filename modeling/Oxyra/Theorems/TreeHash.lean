import Oxyra.Core.TreeHash
import Oxyra.Lib.PerfectTree

/-!
# Merkle proofs

* `layerLoop_getD`: a layer joins adjacent pairs, although it is written over the one it is read
  from. With it `tree_hash` is the fold of a perfect tree (`treeHash_perfect`).
* `branchLoop_climbs`: after each layer the branch collected so far leads from the leaf to the node
  that `idx` points to. At the root this is what a proof has to do.
-/

namespace Oxyra

namespace TreeHash

variable {H : Type} {pair : H → H → H} {zero : H} {src : List H → List H}

theorem cntLoop_spec {count : Nat} (fuel : Nat) :
    ∀ {k : Nat}, 2 ^ k < count → count ≤ 2 ^ (k + fuel) →
      ∃ m, k ≤ m ∧ cntLoop fuel (2 ^ k) count = 2 ^ (m + 1) ∧ 2 ^ m < count ∧
        count ≤ 2 ^ (m + 1) := by
  induction fuel with
  | zero =>
    intro k hlow hhigh
    rw [Nat.add_zero] at hhigh
    omega
  | succ fuel ih =>
    intro k hlow hhigh
    rw [cntLoop, if_pos hlow, Nat.shiftLeft_eq, ← Nat.pow_add]
    by_cases hnext : 2 ^ (k + 1) < count
    · obtain ⟨m, hm, heq, hm'⟩ := ih hnext (by rwa [Nat.add_assoc, Nat.add_comm 1])
      exact ⟨m, by omega, heq, hm'⟩
    · refine ⟨k, le_rfl, ?_, hlow, by omega⟩
      cases fuel with
      | zero => rfl
      | succ fuel => rw [cntLoop, if_neg hnext]

theorem treeHashCnt_spec {count : Nat} (hlow : 3 ≤ count) (hhigh : count ≤ 2 ^ 28) :
    ∃ e, treeHashCnt count = 2 ^ (e + 1) ∧ 2 ^ (e + 1) < count ∧ count ≤ 2 ^ (e + 2) ∧ e ≤ 26 := by
  have hfuel : (2 : Nat) ^ 28 ≤ 2 ^ (1 + 64) := Nat.pow_le_pow_right (by omega) (by omega)
  obtain ⟨m, hm, heq, hbelow, habove⟩ := @cntLoop_spec count 64 1 (by omega) (by omega)
  obtain ⟨e, rfl⟩ := Nat.exists_eq_add_of_le hm
  have hexp : 1 + e < 28 := (Nat.pow_lt_pow_iff_right (by omega)).mp (hbelow.trans_le hhigh)
  refine ⟨e, ?_, ?_, ?_, by omega⟩
  · have hstart : cntLoop 64 2 count = 2 ^ (1 + e + 1) := heq
    rw [treeHashCnt, hstart, Nat.shiftRight_eq_div_pow, Nat.pow_div (by omega) (by omega)]
    congr 1
    omega
  · rwa [Nat.add_comm e]
  · rwa [show e + 2 = 1 + e + 1 by omega]

/-! ## A layer -/

/-- Writing a node does not change what is read behind it. -/
def Steady (zero : H) (src : List H → List H) : Prop :=
  ∀ (ints : List H) (j : Nat) (v : H) (a : Nat), j < a →
    (src (ints.set j v)).getD a zero = (src ints).getD a zero

theorem steady_const (hashes : List H) : Steady zero fun _ => hashes := fun _ _ _ _ _ => rfl

theorem getD_set {l : List H} {i k : Nat} {v : H} (hi : i < l.length) :
    (l.set i v).getD k zero = if i = k then v else l.getD k zero := by
  rw [List.getD_eq_getElem?_getD, List.getElem?_set, List.getD_eq_getElem?_getD]
  split <;> rfl

theorem steady_id : Steady zero (id : List H → List H) := by
  intro ints j v a hlt
  rw [id, id, List.getD_eq_getElem?_getD, List.getElem?_set_ne (by omega),
    List.getD_eq_getElem?_getD]

theorem length_layerLoop (src : List H → List H) (n : Nat) :
    ∀ {i j : Nat} {ints : List H}, (layerLoop pair zero src n i j ints).length = ints.length := by
  induction n with
  | zero => exact rfl
  | succ n ih =>
    intro i j ints
    rw [layerLoop, ih, List.length_set]

/-- **A layer joins adjacent pairs.** -/
theorem layerLoop_getD (hsrc : Steady zero src) (n : Nat) :
    ∀ {i j : Nat} {ints : List H} {k : Nat}, j ≤ i → j + n ≤ ints.length →
      (layerLoop pair zero src n i j ints).getD k zero =
        if j ≤ k ∧ k < j + n then
          pair ((src ints).getD (i + 2 * (k - j)) zero) ((src ints).getD (i + 2 * (k - j) + 1) zero)
        else ints.getD k zero := by
  induction n with
  | zero =>
    intro i j ints k _ _
    rw [if_neg (by omega), layerLoop]
  | succ n ih =>
    intro i j ints k hle hlen
    rw [layerLoop, ih (by omega) (by rw [List.length_set]; omega), getD_set (by omega)]
    rcases Nat.lt_trichotomy k j with hk | rfl | hk
    · rw [if_neg (by omega), if_neg (by omega), if_neg (by omega)]
    · rw [if_neg (by omega), if_pos rfl, if_pos (by omega), Nat.sub_self]
      rfl
    · by_cases hin : k < j + (n + 1)
      · rw [if_pos (by omega), if_pos (by omega), hsrc _ _ _ _ (by omega),
          hsrc _ _ _ _ (by omega), show i + 2 + 2 * (k - (j + 1)) = i + 2 * (k - j) by omega]
      · rw [if_neg (by omega), if_neg (by omega), if_neg (by omega)]

/-! ## `tree_hash` -/

theorem getElem?_of_lt {l : List H} {i : Nat} (hi : i < l.length) :
    l[i]? = some (l.getD i zero) := by
  rw [List.getD_eq_getElem _ _ hi, List.getElem?_eq_getElem hi]

theorem take_layerLoop_id {cnt : Nat} {ints : List H} (hlen : 2 * cnt ≤ ints.length) :
    (layerLoop pair zero id cnt 0 0 ints).take cnt = pairUp pair (ints.take (2 * cnt)) := by
  apply List.ext_getElem?
  intro k
  rw [getElem?_pairUp, List.getElem?_take, List.getElem?_take, List.getElem?_take]
  by_cases hk : k < cnt
  · rw [if_pos hk, if_pos (by omega), if_pos (by omega),
      @getElem?_of_lt H zero _ k (by rw [length_layerLoop]; omega),
      layerLoop_getD steady_id cnt le_rfl (by omega), if_pos (by omega),
      @getElem?_of_lt H zero ints (2 * k) (by omega),
      @getElem?_of_lt H zero ints (2 * k + 1) (by omega)]
    simp
  · rw [if_neg hk, if_neg (by omega)]
    rfl

theorem layerLoop_initInts {hashes : List H} {cnt : Nat} (hlow : cnt < hashes.length)
    (hhigh : hashes.length ≤ 2 * cnt) :
    layerLoop pair zero (fun _ => hashes) (cnt - (2 * cnt - hashes.length))
        (2 * cnt - hashes.length) (2 * cnt - hashes.length) (initInts zero hashes cnt) =
      hashes.take (2 * cnt - hashes.length) ++
        pairUp pair (hashes.drop (2 * cnt - hashes.length)) := by
  generalize hstart : 2 * cnt - hashes.length = start
  have hints : (initInts zero hashes cnt).length = cnt := by
    rw [initInts, List.length_append, List.length_take, List.length_replicate, hstart]
    omega
  have htake : (hashes.take start).length = start := by
    rw [List.length_take]
    omega
  apply List.ext_getElem?
  intro k
  by_cases hk : k < cnt
  · rw [@getElem?_of_lt H zero _ k (by rw [length_layerLoop]; omega),
      layerLoop_getD (steady_const hashes) _ le_rfl (by omega)]
    by_cases hjoin : start ≤ k
    · rw [if_pos (by omega), List.getElem?_append_right (by omega), htake, getElem?_pairUp,
        List.getElem?_drop, List.getElem?_drop,
        @getElem?_of_lt H zero hashes (start + 2 * (k - start)) (by omega),
        @getElem?_of_lt H zero hashes (start + (2 * (k - start) + 1)) (by omega)]
      rfl
    · rw [if_neg (by omega), List.getElem?_append_left (by omega), initInts, hstart,
        List.getD_eq_getElem?_getD, List.getElem?_append_left (by omega),
        @getElem?_of_lt H zero (hashes.take start) k (by omega)]
      rfl
  · rw [List.getElem?_eq_none (by rw [length_layerLoop]; omega), List.getElem?_eq_none]
    rw [List.length_append, htake, length_pairUp, List.length_drop]
    omega

theorem two_lt_two_pow (e : Nat) : 2 < 2 ^ (e + 1 + 1) := by
  have := Nat.one_le_two_pow (n := e)
  rw [Nat.pow_succ, Nat.pow_succ]
  omega

theorem two_pow_shiftRight (e : Nat) : 2 ^ (e + 1) >>> 1 = 2 ^ e := by
  rw [Nat.shiftRight_eq_div_pow, Nat.pow_div (by omega) (by omega)]
  rfl

theorem halveLoop_root (fuel : Nat) : ∀ {e : Nat} {ints : List H} (t : PerfectTree H (e + 1)),
    e ≤ fuel → ints.take (2 ^ (e + 1)) = t.leaves →
    pair ((halveLoop pair zero fuel (2 ^ (e + 1)) ints).getD 0 zero)
      ((halveLoop pair zero fuel (2 ^ (e + 1)) ints).getD 1 zero) = t.root pair := by
  -- two nodes are joined by the caller
  have htwo : ∀ {ints : List H} (t : PerfectTree H 1), ints.take 2 = t.leaves →
      pair (ints.getD 0 zero) (ints.getD 1 zero) = t.root pair := by
    rintro ints (_ | ⟨⟨x⟩, ⟨y⟩⟩) hints
    rcases ints with _ | ⟨a, _ | ⟨b, ints⟩⟩
    · simp [PerfectTree.leaves] at hints
    · simp [PerfectTree.leaves] at hints
    · obtain ⟨rfl, rfl⟩ : a = x ∧ b = y := by simpa [PerfectTree.leaves] using hints
      rfl
  induction fuel with
  | zero =>
    intro e ints t he hints
    obtain rfl : e = 0 := by omega
    exact htwo t hints
  | succ fuel ih =>
    intro e ints t he hints
    cases e with
    | zero => exact htwo t hints
    | succ e =>
      have hlen : 2 * 2 ^ (e + 1) ≤ ints.length := by
        have := congrArg List.length hints
        rw [List.length_take, PerfectTree.length_leaves, Nat.pow_succ] at this
        omega
      obtain ⟨t', hleaves, hroot⟩ := t.lower pair
      rw [halveLoop, if_pos (two_lt_two_pow e), two_pow_shiftRight, ← hroot]
      refine ih t' (by omega) ?_
      rw [take_layerLoop_id hlen, hleaves, ← hints, Nat.pow_succ 2 (e + 1), Nat.mul_comm]

/-! ## Climbing -/

theorem turn_toNat {path : UInt32} (h : path.toNat < 2 ^ 31) (idx i : Nat) :
    (turn path idx i).toNat = 2 * path.toNat + if idx = i then 0 else 1 := by
  have hshift : (path <<< 1).toNat = 2 * path.toNat := by
    rw [UInt32.toNat_shiftLeft]
    have hone : (1 : UInt32).toNat % 32 = 1 := rfl
    rw [hone, Nat.shiftLeft_eq, Nat.mod_eq_of_lt (by omega)]
    omega
  unfold turn
  split
  · rw [UInt32.or_zero, hshift, Nat.add_zero]
  · rw [UInt32.toNat_or, hshift]
    exact (Nat.two_pow_add_eq_or_of_lt (i := 1) (by decide) path.toNat).symm

theorem digit_iff (path : UInt32) {k : Nat} (hk : k < 32) :
    (path >>> UInt32.ofNat k) &&& 1 ≠ 0 ↔ path.toNat / 2 ^ k % 2 = 1 := by
  have hnat : ((path >>> UInt32.ofNat k) &&& 1).toNat = path.toNat / 2 ^ k % 2 := by
    rw [UInt32.toNat_and, UInt32.toNat_shiftRight, UInt32.toNat_ofNat',
      Nat.mod_eq_of_lt (show k < 2 ^ 32 by omega), Nat.mod_eq_of_lt hk, Nat.shiftRight_eq_div_pow]
    exact Nat.and_one_is_mod _
  rw [Ne, ← UInt32.toNat_inj, hnat, UInt32.toNat_zero]
  omega

def climbStep (pair : H → H → H) (zero : H) (branch : List H) (depth : Nat) (path : UInt32)
    (part : H) (d : Nat) : H :=
  if (path >>> UInt32.ofNat (depth - d - 1)) &&& 1 ≠ 0 then pair (branch.getD d zero) part
  else pair part (branch.getD d zero)

theorem climbLoop_eq_foldl (branch : List H) (depth : Nat) (path : UInt32) (n : Nat) :
    ∀ {d : Nat} {part : H}, climbLoop pair zero branch depth path n d part =
      (List.range' d n).foldl (climbStep pair zero branch depth path) part := by
  induction n with
  | zero => exact rfl
  | succ n ih =>
    intro d part
    rw [climbLoop, ih, List.range'_succ, List.foldl_cons]
    rfl

/-- **One turn more**: the rounds before read the same digits. -/
theorem treeBranchHash_snoc {hash x : H} {branch : List H} {path : UInt32} {idx i : Nat}
    (hsmall : path.toNat < 2 ^ branch.length) (hdepth : branch.length < 31) :
    treeBranchHash pair zero hash (branch ++ [x]) (branch ++ [x]).length (turn path idx i) =
      if idx = i then pair (treeBranchHash pair zero hash branch branch.length path) x
      else pair x (treeBranchHash pair zero hash branch branch.length path) := by
  have hpow : 2 ^ branch.length ≤ 2 ^ 31 := Nat.pow_le_pow_right (by omega) (by omega)
  have hturn := turn_toNat (hsmall.trans_le hpow) idx i
  have hsame : ∀ part, ∀ d ∈ List.range' 0 branch.length,
      climbStep pair zero (branch ++ [x]) (branch.length + 1) (turn path idx i) part d =
        climbStep pair zero branch branch.length path part d := by
    intro part d hd
    have hd : d < branch.length := by simpa using hd
    have hget : (branch ++ [x]).getD d zero = branch.getD d zero := by
      rw [List.getD_eq_getElem?_getD, List.getElem?_append_left hd, List.getD_eq_getElem?_getD]
    have hdigit : (turn path idx i >>> UInt32.ofNat (branch.length + 1 - d - 1)) &&& 1 ≠ 0 ↔
        (path >>> UInt32.ofNat (branch.length - d - 1)) &&& 1 ≠ 0 := by
      rw [digit_iff _ (by omega), digit_iff _ (by omega), hturn,
        show branch.length + 1 - d - 1 = branch.length - d - 1 + 1 by omega, Nat.pow_succ',
        ← Nat.div_div_eq_div_mul]
      have hhalf : (2 * path.toNat + if idx = i then 0 else 1) / 2 = path.toNat := by
        split <;> omega
      rw [hhalf]
    unfold climbStep
    rw [hget]
    simp only [hdigit]
  unfold treeBranchHash
  rw [climbLoop_eq_foldl, climbLoop_eq_foldl, List.length_append, List.length_singleton,
    List.range'_1_concat, List.foldl_append, List.foldl_cons, List.foldl_nil,
    List.foldl_ext _ _ hash hsame]
  generalize (List.range' 0 branch.length).foldl _ hash = part
  have hlast : (branch ++ [x]).getD (0 + branch.length) zero = x := by
    rw [Nat.zero_add, List.getD_eq_getElem?_getD, List.getElem?_append_right le_rfl, Nat.sub_self]
    rfl
  have hdigit : (turn path idx i >>> UInt32.ofNat (branch.length + 1 - (0 + branch.length) - 1))
      &&& 1 ≠ 0 ↔ idx ≠ i := by
    rw [digit_iff _ (by omega), hturn,
      show branch.length + 1 - (0 + branch.length) - 1 = 0 by omega, Nat.pow_zero, Nat.div_one]
    split <;> omega
  unfold climbStep
  rw [hlast]
  simp only [hdigit, ite_not]

/-! ## The walk of a leaf -/

variable {s : BranchState H} {i j n : Nat}

theorem pathLoop_of_lt (n : Nat) : ∀ {i j idx : Nat} {path : UInt32}, idx < i →
    pathLoop n i j (idx, path) = (idx, path) := by
  induction n with
  | zero => exact fun _ => rfl
  | succ n ih =>
    intro i j idx path hlt
    rw [pathLoop, pathStep, if_neg (by dsimp only; omega), ih (by omega)]

/-- The left of the two nodes that are joined with `idx` in a layer that starts at `i`. -/
def leftOf (i idx : Nat) : Nat := i + 2 * ((idx - i) / 2)

/-- **The walk of a leaf through a layer.** -/
theorem pathLoop_hit (n : Nat) : ∀ {i j idx : Nat} {path : UInt32}, j ≤ i → i ≤ idx →
    idx < i + 2 * n →
    pathLoop n i j (idx, path) = (j + (idx - i) / 2, turn path idx (leftOf i idx)) := by
  induction n with
  | zero => intro i j idx path _ hle hlt; omega
  | succ n ih =>
    intro i j idx path hji hle hlt
    rw [pathLoop, pathStep]
    by_cases hhit : idx = i ∨ idx = i + 1
    · rw [if_pos hhit, pathLoop_of_lt n (by omega), leftOf,
        show (idx - i) / 2 = 0 by omega, Nat.mul_zero, Nat.add_zero, Nat.add_zero]
    · rw [if_neg hhit, ih (by omega) (by omega) (by omega), leftOf, leftOf,
        show (idx - i) / 2 = (idx - (i + 2)) / 2 + 1 by omega,
        show i + 2 + 2 * ((idx - (i + 2)) / 2) = i + 2 * ((idx - (i + 2)) / 2 + 1) by omega,
        show j + 1 + (idx - (i + 2)) / 2 = j + ((idx - (i + 2)) / 2 + 1) by omega]

theorem branchLoop_path (src : List H → List H) (n : Nat) :
    ∀ {i j : Nat} {s : BranchState H},
      ((branchLoop pair zero src n i j s).idx, (branchLoop pair zero src n i j s).path) =
        pathLoop n i j (s.idx, s.path) := by
  induction n with
  | zero => exact rfl
  | succ n ih =>
    intro i j s
    rw [branchLoop, ih, pathLoop]
    congr 1
    unfold branchStep pathStep
    split <;> rfl

theorem branchLoop_ints (src : List H → List H) (n : Nat) :
    ∀ {i j : Nat} {s : BranchState H},
      (branchLoop pair zero src n i j s).ints = layerLoop pair zero src n i j s.ints := by
  induction n with
  | zero => exact rfl
  | succ n ih =>
    intro i j s
    rw [branchLoop, ih, layerLoop]
    congr 1
    unfold branchStep
    split <;> rfl

theorem branchLoop_of_lt (src : List H → List H) (n : Nat) :
    ∀ {i j : Nat} {s : BranchState H}, s.idx < i →
      (branchLoop pair zero src n i j s).branch = s.branch := by
  induction n with
  | zero => exact fun _ => rfl
  | succ n ih =>
    intro i j s hlt
    rw [branchLoop, branchStep, if_neg (by omega), ih (by dsimp only; omega)]

theorem branchLoop_hit (hsrc : Steady zero src) (n : Nat) :
    ∀ {i j : Nat} {s : BranchState H}, j ≤ i → i ≤ s.idx → s.idx < i + 2 * n →
      (branchLoop pair zero src n i j s).branch = s.branch ++
        [(src s.ints).getD (if s.idx = leftOf i s.idx then leftOf i s.idx + 1
          else leftOf i s.idx) zero] := by
  induction n with
  | zero => intro i j s _ hle hlt; omega
  | succ n ih =>
    intro i j s hji hle hlt
    rw [branchLoop, branchStep]
    by_cases hhit : s.idx = i ∨ s.idx = i + 1
    · rw [if_pos hhit, branchLoop_of_lt src n (by dsimp only; omega)]
      have hleft : leftOf i s.idx = i := by
        unfold leftOf
        omega
      rw [hleft]
    · rw [if_neg hhit, ih (by omega) (by dsimp only; omega) (by dsimp only; omega)]
      have hleft : leftOf (i + 2) s.idx = leftOf i s.idx := by
        unfold leftOf
        omega
      have hlow : i + 2 ≤ leftOf (i + 2) s.idx := Nat.le_add_right _ _
      dsimp only
      rw [hsrc _ _ _ _ (by split <;> omega), hleft]

/-- The branch collected so far leads from the leaf to the node `x`. -/
structure Climbs (pair : H → H → H) (zero hash x : H) (s : BranchState H) : Prop where
  small : s.path.toNat < 2 ^ s.branch.length
  value : treeBranchHash pair zero hash s.branch s.branch.length s.path = x

theorem Climbs.snoc {hash x y : H} {idx : Nat} {s s' : BranchState H}
    (h : Climbs pair zero hash x s) (hdepth : s.branch.length < 31)
    (hbranch : s'.branch = s.branch ++ [y]) (hpath : s'.path = turn s.path idx i) :
    Climbs pair zero hash (if idx = i then pair x y else pair y x) s' := by
  constructor
  · have hpow : 2 ^ s.branch.length ≤ 2 ^ 31 := Nat.pow_le_pow_right (by omega) (by omega)
    rw [hpath, turn_toNat (h.small.trans_le hpow), hbranch, List.length_append,
      List.length_singleton, Nat.pow_succ]
    have := h.small
    split <;> omega
  · rw [hbranch, hpath, treeBranchHash_snoc h.small hdepth, h.value]

/-- **One layer up.** -/
theorem branchLoop_climbs (hsrc : Steady zero src) {hash : H} {start : Nat}
    (h : Climbs pair zero hash ((src s.ints).getD s.idx zero) s) (hdepth : s.branch.length < 31)
    (hlow : start ≤ s.idx) (hhigh : s.idx < start + 2 * n) (hlen : start + n ≤ s.ints.length) :
    let s' := branchLoop pair zero src n start start s
    Climbs pair zero hash (s'.ints.getD s'.idx zero) s' ∧
      s'.idx = start + (s.idx - start) / 2 ∧ s'.branch.length = s.branch.length + 1 := by
  intro s'
  have hwalk : (s'.idx, s'.path) = _ :=
    (branchLoop_path src n).trans (pathLoop_hit n le_rfl hlow hhigh)
  obtain ⟨hidx, hpath⟩ := Prod.mk.inj hwalk
  have hbranch : s'.branch = _ := branchLoop_hit hsrc n le_rfl hlow hhigh
  refine ⟨?_, hidx, by rw [hbranch, List.length_append, List.length_singleton]⟩
  have hclimb := h.snoc hdepth hbranch hpath
  have hints : s'.ints = _ := branchLoop_ints src n
  rw [hints, hidx, layerLoop_getD hsrc n le_rfl hlen, if_pos (by omega),
    show start + 2 * (start + (s.idx - start) / 2 - start) = leftOf start s.idx by
      unfold leftOf; omega]
  -- the node is the left or the right one of its pair
  by_cases hleft : s.idx = leftOf start s.idx
  · rw [if_pos hleft, if_pos hleft] at hclimb
    rwa [← hleft] at hclimb ⊢
  · have hright : s.idx = leftOf start s.idx + 1 := by
      unfold leftOf at hleft ⊢
      omega
    rw [if_neg hleft, if_neg hleft] at hclimb
    rwa [← hright]

theorem branchStep_climbs {hash : H} (h : Climbs pair zero hash (s.ints.getD s.idx zero) s)
    (htwo : s.idx < 2) (hdepth : s.branch.length < 31) :
    Climbs pair zero hash (pair (s.ints.getD 0 zero) (s.ints.getD 1 zero))
      (branchStep zero s.ints 0 0 s) := by
  have hstep : branchStep zero s.ints 0 0 s =
      { s with
        idx := 0
        path := turn s.path s.idx 0
        branch := s.branch ++ [s.ints.getD (if s.idx = 0 then 1 else 0) zero] } := by
    rw [branchStep, if_pos (by omega)]
  have hroot := h.snoc hdepth (congrArg BranchState.branch hstep) (congrArg BranchState.path hstep)
  by_cases hleft : s.idx = 0
  · rwa [if_pos hleft, if_pos hleft, hleft] at hroot
  · have hright : s.idx = 1 := by omega
    rwa [if_neg hleft, if_neg hleft, hright] at hroot

/-! ## The halving loops in step -/

theorem branchHalveLoop_path (fuel : Nat) : ∀ {cnt : Nat} {s : BranchState H},
    ((branchHalveLoop pair zero fuel cnt s).idx, (branchHalveLoop pair zero fuel cnt s).path) =
      pathHalveLoop fuel cnt (s.idx, s.path) := by
  induction fuel with
  | zero => exact rfl
  | succ fuel ih =>
    intro cnt s
    unfold branchHalveLoop pathHalveLoop
    split
    · rw [ih, branchLoop_path]
    · rfl

theorem branchHalveLoop_ints (fuel : Nat) : ∀ {cnt : Nat} {s : BranchState H},
    (branchHalveLoop pair zero fuel cnt s).ints = halveLoop pair zero fuel cnt s.ints := by
  induction fuel with
  | zero => exact rfl
  | succ fuel ih =>
    intro cnt s
    unfold branchHalveLoop halveLoop
    split
    · rw [ih, branchLoop_ints]
    · rfl

theorem branchHalveLoop_climbs {hash : H} (fuel : Nat) : ∀ {e : Nat} {s : BranchState H},
    e ≤ fuel → Climbs pair zero hash (s.ints.getD s.idx zero) s → s.branch.length + e < 31 →
    s.idx < 2 ^ (e + 1) → 2 ^ (e + 1) ≤ s.ints.length →
    let s' := branchHalveLoop pair zero fuel (2 ^ (e + 1)) s
    Climbs pair zero hash (s'.ints.getD s'.idx zero) s' ∧ s'.idx < 2 ∧ s'.branch.length < 31 := by
  induction fuel with
  | zero =>
    intro e s he h hdepth hidx hlen
    obtain rfl : e = 0 := by omega
    exact ⟨h, hidx, hdepth⟩
  | succ fuel ih =>
    intro e s he h hdepth hidx hlen
    cases e with
    | zero => exact ⟨h, hidx, hdepth⟩
    | succ e =>
      rw [Nat.pow_succ] at hidx hlen
      obtain ⟨hclimb, hidx', hdepth'⟩ := branchLoop_climbs steady_id h (by omega)
        (Nat.zero_le _) (show s.idx < 0 + 2 * 2 ^ (e + 1) by omega) (by omega)
      rw [branchHalveLoop, if_pos (two_lt_two_pow e), two_pow_shiftRight]
      refine ih (by omega) hclimb (by omega) (by omega) ?_
      rw [branchLoop_ints, length_layerLoop]
      omega

/-! ## The proofs -/

/-- The root, as a tree: the leaves that are left over are joined in pairs first. -/
theorem treeHash_perfect {hashes : List H} (hlow : 2 ≤ hashes.length)
    (hhigh : hashes.length ≤ 2 ^ 28) :
    ∃ e, 2 ^ e < hashes.length ∧ hashes.length ≤ 2 ^ (e + 1) ∧ ∃ t : PerfectTree H e,
      t.leaves = hashes.take (2 * 2 ^ e - hashes.length) ++
        pairUp pair (hashes.drop (2 * 2 ^ e - hashes.length)) ∧
      treeHash pair zero hashes = t.root pair := by
  by_cases htwo : hashes.length = 2
  · obtain ⟨x, y, rfl⟩ := List.length_eq_two.mp htwo
    exact ⟨0, by simp, by simp, .leaf (pair x y), rfl, rfl⟩
  · obtain ⟨e, hcnt, hbelow, habove, he⟩ :=
      treeHashCnt_spec (show 3 ≤ hashes.length by omega) hhigh
    have hdouble : hashes.length ≤ 2 * 2 ^ (e + 1) := by
      rw [Nat.pow_succ 2 (e + 1)] at habove
      omega
    have hnodes : (hashes.take (2 * 2 ^ (e + 1) - hashes.length) ++
        pairUp pair (hashes.drop (2 * 2 ^ (e + 1) - hashes.length))).length = 2 ^ (e + 1) := by
      rw [List.length_append, List.length_take, length_pairUp, List.length_drop]
      omega
    obtain ⟨t, ht⟩ := PerfectTree.exists_leaves hnodes
    refine ⟨e + 1, hbelow, habove, t, ht, ?_⟩
    rw [treeHash]
    dsimp only
    rw [if_neg (by omega), if_neg htwo, hcnt, layerLoop_initInts hbelow hdouble]
    refine halveLoop_root 64 t (by omega) ?_
    rw [ht, List.take_of_length_le hnodes.le]

def firstState (zero : H) (hashes : List H) (cnt idx : Nat) : BranchState H :=
  { idx := idx, path := 0, branch := [], ints := initInts zero hashes cnt }

def firstLayer (pair : H → H → H) (zero : H) (hashes : List H) (cnt idx : Nat) : BranchState H :=
  branchLoop pair zero (fun _ => hashes) (cnt - (2 * cnt - hashes.length))
    (2 * cnt - hashes.length) (2 * cnt - hashes.length) (firstState zero hashes cnt idx)

theorem length_initInts {hashes : List H} {cnt : Nat} (hlow : cnt < hashes.length) :
    (initInts zero hashes cnt).length = cnt := by
  rw [initInts, List.length_append, List.length_take, List.length_replicate]
  omega

/-- The first layer: a leaf that is not joined with another is a node itself. -/
theorem firstLayer_climbs {hashes : List H} {hash : H} {cnt idx : Nat}
    (hlow : cnt < hashes.length) (hhigh : hashes.length ≤ 2 * cnt) (hidx : idx < hashes.length)
    (hhash : hashes.getD idx zero = hash) :
    let s := firstLayer pair zero hashes cnt idx
    Climbs pair zero hash (s.ints.getD s.idx zero) s ∧ s.idx < cnt ∧ s.branch.length ≤ 1 := by
  intro s
  have hleaf : Climbs pair zero hash (hashes.getD idx zero) (firstState zero hashes cnt idx) :=
    ⟨by simp [firstState], hhash.symm⟩
  have hlen : (firstState zero hashes cnt idx).ints.length = cnt := length_initInts hlow
  by_cases hjoin : 2 * cnt - hashes.length ≤ idx
  · obtain ⟨hclimb, hidx', hdepth⟩ := @branchLoop_climbs H pair zero (fun _ => hashes)
      (firstState zero hashes cnt idx) (cnt - (2 * cnt - hashes.length)) (steady_const hashes) hash
      (2 * cnt - hashes.length) hleaf (by simp [firstState]) hjoin
      (show idx < 2 * cnt - hashes.length + 2 * (cnt - (2 * cnt - hashes.length)) by omega)
      (by rw [hlen]; omega)
    refine ⟨hclimb, ?_, hdepth.le⟩
    have hidx' : s.idx = 2 * cnt - hashes.length + (idx - (2 * cnt - hashes.length)) / 2 := hidx'
    omega
  · have hwalk : (s.idx, s.path) = _ :=
      (branchLoop_path _ _).trans (pathLoop_of_lt _ (show idx < _ by omega))
    obtain ⟨hidx', hpath⟩ := Prod.mk.inj hwalk
    have hbranch : s.branch = _ := branchLoop_of_lt _ _ (show idx < _ by omega)
    have hints : s.ints = _ := branchLoop_ints _ _
    have hnode : (initInts zero hashes cnt).getD idx zero = hashes.getD idx zero := by
      rw [initInts, List.getD_eq_getElem?_getD, List.getElem?_append_left, List.getElem?_take,
        if_pos (by omega), List.getD_eq_getElem?_getD]
      rw [List.length_take]
      omega
    have hidx' : s.idx = idx := hidx'
    refine ⟨⟨by rw [hpath, hbranch]; exact hleaf.small, ?_⟩, by omega,
      by rw [hbranch]; simp [firstState]⟩
    rw [hbranch, hpath, hleaf.value, hints, hidx', layerLoop_getD (steady_const hashes) _ le_rfl
      (by rw [hlen]; omega), if_neg (by omega)]
    exact hnode.symm

/-- The variables of `tree_branch` when two nodes are left, for three leaves or more. -/
def lastState (pair : H → H → H) (zero : H) (hashes : List H) (idx : Nat) : BranchState H :=
  branchHalveLoop pair zero 64 (treeHashCnt hashes.length)
    (firstLayer pair zero hashes (treeHashCnt hashes.length) idx)

theorem lastState_climbs {hashes : List H} {hash : H} {idx : Nat} (hlow : 3 ≤ hashes.length)
    (hhigh : hashes.length ≤ 2 ^ 28) (hidx : idx < hashes.length)
    (hhash : hashes.getD idx zero = hash) :
    let s := lastState pair zero hashes idx
    Climbs pair zero hash (s.ints.getD s.idx zero) s ∧ s.idx < 2 ∧ s.branch.length < 31 := by
  obtain ⟨e, hcnt, hbelow, habove, he⟩ := treeHashCnt_spec hlow hhigh
  rw [Nat.pow_succ 2 (e + 1)] at habove
  unfold lastState
  rw [hcnt]
  obtain ⟨hclimb, hidx', hdepth⟩ := @firstLayer_climbs H pair zero hashes hash (2 ^ (e + 1)) idx
    hbelow (by omega) hidx hhash
  refine branchHalveLoop_climbs 64 (by omega) hclimb (by omega) hidx' ?_
  rw [firstLayer, branchLoop_ints, length_layerLoop]
  exact (length_initInts hbelow).ge

theorem treeHash_many {hashes : List H} (hlow : 3 ≤ hashes.length) (idx : Nat) :
    treeHash pair zero hashes = pair ((lastState pair zero hashes idx).ints.getD 0 zero)
      ((lastState pair zero hashes idx).ints.getD 1 zero) := by
  rw [treeHash]
  rw [if_neg (by omega), if_neg (by omega), lastState, branchHalveLoop_ints, firstLayer,
    branchLoop_ints]
  rfl

theorem treePath_many (pair : H → H → H) (zero : H) {hashes : List H} (hlow : 3 ≤ hashes.length)
    (idx : Nat) :
    treePath hashes.length idx = some (pathStep 0 0
      ((lastState pair zero hashes idx).idx, (lastState pair zero hashes idx).path)).2 := by
  rw [treePath]
  rw [if_neg (by omega), if_neg (by omega), if_neg (by omega), lastState, branchHalveLoop_path,
    firstLayer, branchLoop_path]
  rfl

theorem treeBranch_many [DecidableEq H] {hashes : List H} {hash : H} (hlow : 3 ≤ hashes.length)
    (hmem : hash ∈ hashes) :
    let s := lastState pair zero hashes (hashes.idxOf hash)
    let s' := branchStep zero s.ints 0 0 s
    treeBranch pair zero hashes hash = some (s'.branch, s'.branch.length, s'.path) := by
  have hidx : hashes.idxOf hash < hashes.length := List.idxOf_lt_length_iff.mpr hmem
  have hfind : hashes.findIdx (fun x => decide (x = hash)) = hashes.idxOf hash := rfl
  rw [treeBranch]
  rw [if_neg (by omega), hfind, if_neg (by omega), if_neg (by omega), if_neg (by omega)]
  rfl

theorem treeBranch_proves [DecidableEq H] {hashes : List H} {hash : H} (hmem : hash ∈ hashes)
    (hlow : 3 ≤ hashes.length) (hhigh : hashes.length ≤ 2 ^ 28) :
    ∃ branch depth path, treeBranch pair zero hashes hash = some (branch, depth, path) ∧
      treeBranchHash pair zero hash branch depth path = treeHash pair zero hashes ∧
      treePath hashes.length (hashes.idxOf hash) = some path := by
  have hidx : hashes.idxOf hash < hashes.length := List.idxOf_lt_length_iff.mpr hmem
  have hhash : hashes.getD (hashes.idxOf hash) zero = hash := by
    rw [List.getD_eq_getElem _ _ hidx, List.getElem_idxOf]
  obtain ⟨hclimb, htwo, hdepth⟩ := @lastState_climbs H pair zero hashes hash _ hlow hhigh hidx hhash
  refine ⟨_, _, _, treeBranch_many hlow hmem, ?_, ?_⟩
  · rw [treeHash_many hlow (hashes.idxOf hash)]
    exact (branchStep_climbs hclimb htwo hdepth).value
  · rw [treePath_many pair zero hlow]
    generalize lastState pair zero hashes (hashes.idxOf hash) = s at htwo
    rw [pathStep, branchStep, if_pos (by dsimp only; omega), if_pos (by omega)]

/-- **Merkle proofs.** A leaf has a branch, which leads to the root along the path of its first
position, and the root is the fold of a perfect tree over the leaves of which the last ones are
joined in pairs first. -/
theorem merkle_proof [DecidableEq H] {hashes : List H} {hash : H} (hmem : hash ∈ hashes)
    (hhigh : hashes.length ≤ 2 ^ 28) :
    (∃ branch depth path, treeBranch pair zero hashes hash = some (branch, depth, path) ∧
      treeBranchHash pair zero hash branch depth path = treeHash pair zero hashes ∧
      treePath hashes.length (hashes.idxOf hash) = some path) ∧
    (hashes.length = 1 → treeHash pair zero hashes = hash) ∧
    (2 ≤ hashes.length → ∃ e, 2 ^ e < hashes.length ∧ hashes.length ≤ 2 ^ (e + 1) ∧
      ∃ t : PerfectTree H e,
        t.leaves = hashes.take (2 * 2 ^ e - hashes.length) ++
          pairUp pair (hashes.drop (2 * 2 ^ e - hashes.length)) ∧
        treeHash pair zero hashes = t.root pair) := by
  refine ⟨?_, fun hone => ?_, fun hlow => treeHash_perfect hlow hhigh⟩
  · rcases hashes with _ | ⟨x, _ | ⟨y, _ | ⟨z, hashes⟩⟩⟩
    · exact absurd hmem (by simp)
    · obtain rfl : hash = x := by simpa using hmem
      exact ⟨[], 0, 0, by simp [treeBranch], rfl, rfl⟩
    · by_cases hx : x = hash
      · subst hx
        exact ⟨[y], 1, 0, by simp [treeBranch, List.findIdx_cons], rfl, by simp [treePath]⟩
      · obtain rfl : hash = y := by
          rcases List.mem_cons.mp hmem with h | h
          · exact absurd h.symm hx
          · simpa using h
        refine ⟨[x], 1, 1, by simp [treeBranch, List.findIdx_cons, hx], rfl, ?_⟩
        simp [treePath, hx]
    · exact treeBranch_proves hmem (by simp) hhigh
  · obtain ⟨x, rfl⟩ := List.length_eq_one_iff.mp hone
    obtain rfl : hash = x := by simpa using hmem
    rfl

/-- Five leaves over numbers, with `x, y ↦ 10 * x + y`: the last two are joined first. -/
theorem merkle_proof_five :
    let pair := fun x y : Nat => 10 * x + y
    treeBranch pair 0 [1, 2, 3, 4, 5] 5 = some ([4, 3, 12], 3, 7) ∧
      treeBranchHash pair 0 5 [4, 3, 12] 3 7 = treeHash pair 0 [1, 2, 3, 4, 5] ∧
      treePath 5 4 = some 7 := by
  obtain ⟨⟨branch, depth, path, hbranch, hroot, hpath⟩, -⟩ :=
    @merkle_proof Nat (fun x y => 10 * x + y) 0 _ [1, 2, 3, 4, 5] 5 (by decide) (by decide)
  have heq : treeBranch (fun x y : Nat => 10 * x + y) 0 [1, 2, 3, 4, 5] 5 =
      some ([4, 3, 12], 3, 7) := by decide +kernel
  obtain ⟨rfl, rfl, rfl⟩ : branch = [4, 3, 12] ∧ depth = 3 ∧ path = 7 := by
    simpa using Option.some.inj (hbranch.symm.trans heq)
  exact ⟨heq, hroot, hpath⟩

/-! ## Binding -/

/-- A relation that goes down through `pair` goes down from the roots to the leaves. -/
theorem treeHash_reflects {R : H → H → Prop}
    (hR : ∀ a b c d, R (pair a b) (pair c d) → R a c ∧ R b d) {hashes hashes' : List H}
    (hpos : hashes ≠ []) (hhigh : hashes.length ≤ 2 ^ 28) (hlen : hashes.length = hashes'.length)
    (h : R (treeHash pair zero hashes) (treeHash pair zero hashes')) :
    List.Forall₂ R hashes hashes' := by
  by_cases htwo : 2 ≤ hashes.length
  · obtain ⟨e, hlow, hup, t, ht, hr⟩ := @treeHash_perfect H pair zero hashes htwo hhigh
    obtain ⟨e', hlow', hup', t', ht', hr'⟩ :=
      @treeHash_perfect H pair zero hashes' (hlen ▸ htwo) (hlen ▸ hhigh)
    rw [← hlen] at hlow' hup' ht'
    obtain rfl : e = e' := by
      have h₁ := (Nat.pow_lt_pow_iff_right (a := 2) (by omega)).mp (hlow.trans_le hup')
      have h₂ := (Nat.pow_lt_pow_iff_right (a := 2) (by omega)).mp (hlow'.trans_le hup)
      omega
    have hleaves := PerfectTree.root_reflects hR (hr ▸ hr' ▸ h)
    rw [ht, ht'] at hleaves
    set single := 2 * 2 ^ e - hashes.length with hsingle
    rw [Nat.pow_succ] at hup
    have hcut : (hashes.take single).length = single := List.length_take_of_le (by omega)
    have hcut' : (hashes'.take single).length = single := List.length_take_of_le (by omega)
    have htake := List.forall₂_take single hleaves
    have hpairs := List.forall₂_drop single hleaves
    rw [List.take_left' hcut, List.take_left' hcut'] at htake
    rw [List.drop_left' hcut, List.drop_left' hcut'] at hpairs
    have hdrop := pairUp_reflects hR (by rw [List.length_drop]; omega) (by simp [hlen]) hpairs
    rw [← List.take_append_drop single hashes, ← List.take_append_drop single hashes']
    exact List.rel_append htake hdrop
  · have hone : hashes.length = 1 := by
      have := List.length_pos_iff.mpr hpos
      omega
    obtain ⟨x, rfl⟩ := List.length_eq_one_iff.mp hone
    obtain ⟨y, rfl⟩ := List.length_eq_one_iff.mp (hlen.symm.trans hone)
    exact .cons h .nil

/-- A hash of two, with the pairs hashed so far. -/
def logged (pair : H → H → H) (x y : H × List (H × H)) : H × List (H × H) :=
  (pair x.1 y.1, (x.1, y.1) :: (x.2 ++ y.2))

/-- The pairs that `tree_hash` hashes, from a run of it that keeps them. -/
def hashedPairs (pair : H → H → H) (zero : H) (hashes : List H) : List (H × H) :=
  (treeHash (logged pair) (zero, []) (hashes.map (·, []))).2

def Collision (pair : H → H → H) (log log' : List (H × H)) : Prop :=
  ∃ p ∈ log, ∃ q ∈ log', p ≠ q ∧ pair p.1 p.2 = pair q.1 q.2

theorem getD_logged (l : List (H × List (H × H))) (i : Nat) :
    (l.getD i (zero, [])).1 = (l.map Prod.fst).getD i zero :=
  (List.getD_map l (zero, []) Prod.fst).symm

theorem layerLoop_logged {src : List H → List H}
    {src' : List (H × List (H × H)) → List (H × List (H × H))}
    (hsrc : ∀ ints, (src' ints).map Prod.fst = src (ints.map Prod.fst)) (n i j : Nat)
    (ints : List (H × List (H × H))) :
    (layerLoop (logged pair) (zero, []) src' n i j ints).map Prod.fst =
      layerLoop pair zero src n i j (ints.map Prod.fst) := by
  induction n generalizing i j ints with
  | zero => rfl
  | succ n ih =>
    rw [layerLoop, layerLoop, ih, List.map_set, ← hsrc, ← getD_logged, ← getD_logged]
    rfl

theorem halveLoop_logged (fuel cnt : Nat) (ints : List (H × List (H × H))) :
    (halveLoop (logged pair) (zero, []) fuel cnt ints).map Prod.fst =
      halveLoop pair zero fuel cnt (ints.map Prod.fst) := by
  induction fuel generalizing cnt ints with
  | zero => rfl
  | succ fuel ih =>
    rw [halveLoop, halveLoop]
    split
    · exact (ih _ _).trans (congrArg _ (layerLoop_logged (fun _ => rfl) ..))
    · rfl

theorem treeHash_logged (hashes : List H) :
    (treeHash (logged pair) (zero, []) (hashes.map (·, []))).1 = treeHash pair zero hashes := by
  have hmap : (hashes.map fun x => (x, ([] : List (H × H)))).map Prod.fst = hashes :=
    List.map_map.trans (List.map_id hashes)
  simp only [treeHash, List.length_map, logged, apply_ite Prod.fst, getD_logged, halveLoop_logged,
    @layerLoop_logged H pair zero (fun _ => hashes) _ fun _ => hmap, hmap, initInts,
    List.map_append, List.map_take, List.map_replicate]

/-- **The root binds the leaves.** Two lists of leaves of one length with the same root
are equal, or two different pairs with the same hash were hashed on the way to the two
roots. The length has to be known: a root says nothing about the number of its leaves. -/
theorem root_binds_leaves {hashes hashes' : List H} (hpos : hashes ≠ [])
    (hhigh : hashes.length ≤ 2 ^ 28) :
    (hashes.length = hashes'.length → treeHash pair zero hashes = treeHash pair zero hashes' →
      hashes = hashes' ∨
        Collision pair (hashedPairs pair zero hashes) (hashedPairs pair zero hashes')) ∧
    ∀ x y z w, treeHash pair zero [pair x y, pair z w] = treeHash pair zero [x, y, z, w] := by
  refine ⟨fun hlen hroot => or_iff_not_imp_right.mpr fun hfree => ?_, fun _ _ _ _ => ?_⟩
  case refine_2 =>
    have hcnt : treeHashCnt 4 = 2 := by decide
    simp [treeHash, hcnt, layerLoop, initInts, halveLoop]
  -- equal hashes without a collision below them have equal parts, without one below them
  let R := fun x y : H × List (H × H) => x.1 = y.1 ∧ ¬Collision pair x.2 y.2
  have hR : ∀ a b c d, R (logged pair a b) (logged pair c d) → R a c ∧ R b d := by
    intro a b c d ⟨heq, hno⟩
    have hsub : ∀ {l l'}, l ⊆ (logged pair a b).2 → l' ⊆ (logged pair c d).2 →
        ¬Collision pair l l' := fun hl hl' ⟨p, hp, q, hq, h⟩ => hno ⟨p, hl hp, q, hl' hq, h⟩
    have hparts : (a.1, b.1) = (c.1, d.1) := by
      by_contra hne
      exact hno ⟨_, List.mem_cons_self, _, List.mem_cons_self, hne, heq⟩
    exact ⟨⟨(Prod.mk.inj hparts).1, hsub (by simp [logged]) (by simp [logged])⟩,
      (Prod.mk.inj hparts).2, hsub (by simp [logged]) (by simp [logged])⟩
  have hstart : R (treeHash (logged pair) (zero, []) (hashes.map (·, [])))
      (treeHash (logged pair) (zero, []) (hashes'.map (·, []))) :=
    ⟨by rw [treeHash_logged, treeHash_logged, hroot], hfree⟩
  have hleaves := treeHash_reflects hR (by simpa using hpos) (by simpa using hhigh)
    (by simpa using hlen) hstart
  rw [List.forall₂_map_left_iff, List.forall₂_map_right_iff] at hleaves
  exact List.forall₂_eq_eq_eq ▸ hleaves.imp fun _ _ h => h.1

/-- With addition for the hash, equal sums of different leaves show a collision. -/
theorem root_binds_leaves_sum :
    Collision (· + ·) (hashedPairs (· + ·) 0 [1, 2, 3]) (hashedPairs (· + ·) 0 [2, 1, 3]) :=
  ((@root_binds_leaves Nat (· + ·) 0 [1, 2, 3] [2, 1, 3] (by simp) (by simp)).1 rfl
    (by decide)).resolve_left (by decide)

end TreeHash

end Oxyra
