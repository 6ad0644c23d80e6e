import Oxyra.Basic.Types
import Oxyra.Lib.Draw
import Oxyra.Lib.LowerBound

/-!
# The stem map of Dandelion++ (`net/dandelionpp.cpp`)

While a transaction is in its stem phase a node hands it to one outgoing connection only, and what
came from one source always goes to the same one.

* `outMapping` holds the connections in use, the *stems*. A slot whose connection has died is nil.
* `inMapping` gives each source the slot it was assigned, in the order of the sources.
* `usageCount` holds the number of sources of each slot, and its length is the number of stems
  wanted.

The functions take the random words they draw. An access by `at` that throws, or an index outside
its vector, is `none`.
-/

namespace Oxyra

def nilUuid : Uuid := 0

/-- The members of `connection_map`. -/
structure ConnectionMap where
  outMapping : List Uuid
  inMapping : List (Uuid × Nat)
  usageCount : List Nat
deriving DecidableEq, Repr

/-- The loop of `select_stem`: the lowest usage so far, `none` for the largest number, and the slots
that have it. -/
def selectLoop (usage : List Nat) :
    List Uuid → Nat → Option Nat × List Nat → Option Nat × List Nat
  | [], _, s => s
  | out :: outMap, location, (lowest, choices) =>
    selectLoop usage outMap (location + 1)
      (if out = nilUuid then (lowest, choices)
      else
        let count := usage.getD location 0
        if lowest.all (count < ·) then (some count, [location])
        else if lowest = some count then (lowest, choices ++ [location])
        else (lowest, choices))

/-- `select_stem`, `none` for the largest number. -/
def selectStem (r : Nat) (usage : List Nat) (outMap : List Uuid) : Option Nat :=
  if usage.length < outMap.length then none
  else
    let choices := (selectLoop usage outMap 0 (none, [])).2
    match choices with
    | [] => none
    | [choice] => some choice
    | choices => choices[r % choices.length]?

namespace ConnectionMap

/-- The constructor; `std::shuffle` is the shuffle over all positions. -/
def construct (rand : Nat → Nat) (outConnections : List Uuid) (stems : Nat) :
    Option ConnectionMap :=
  if stems = sizeMax then none
  else
    some
      { outMapping :=
          if stems < outConnections.length then
            (shuffleFrom rand stems 0 outConnections).take stems
          else shuffleFrom rand outConnections.length 0 outConnections
        inMapping := []
        usageCount := List.replicate stems 0 }

/-! ## `update` -/

/-- The loop over the stems: a connection that is gone leaves its slot nil, one that is still there
is no candidate for another. Returns the slots, the candidates and `replace`. -/
def keepLoop : List Uuid → List Uuid → List Uuid × List Uuid × Bool
  | [], current => ([], current, false)
  | out :: outMapping, current =>
    let elem := lowerBound BitVec.toNat current out.toNat
    if current[elem]? = some out then
      let (outMapping, current, replace) := keepLoop outMapping (current.eraseIdx elem)
      (out :: outMapping, current, replace)
    else
      let (outMapping, current, _) := keepLoop outMapping current
      (nilUuid :: outMapping, current, true)

/-- The loop that fills the slots from `i` on, `n` of them, while there are candidates. -/
def fillLoop (rand : Nat → Nat) : Nat → Nat → List Uuid → List Uuid → List Uuid
  | 0, _, outMapping, _ => outMapping
  | n + 1, i, outMapping, current =>
    match draw (rand i) current with
    | none => outMapping
    | some (drawn, rest) =>
      match outMapping with
      | [] => drawn :: fillLoop rand n (i + 1) [] rest
      | out :: outMapping =>
        if out = nilUuid then drawn :: fillLoop rand n (i + 1) outMapping rest
        else out :: fillLoop rand n (i + 1) outMapping current

/-- `std::sort` -/
def sortIds (ids : List Uuid) : List Uuid :=
  ids.insertionSort fun a b => a.toNat ≤ b.toNat

def update (rand : Nat → Nat) (current : List Uuid) (m : ConnectionMap) : Bool × ConnectionMap :=
  let (outMapping, current, replace) := keepLoop m.outMapping (sortIds current)
  if !replace && outMapping.length = m.usageCount.length then
    (false, { m with outMapping := outMapping })
  else
    let filled := fillLoop rand m.usageCount.length 0 outMapping current
    (replace || decide (outMapping.length < filled.length), { m with outMapping := filled })

/-! ## `get_stem` -/

def size (m : ConnectionMap) : Nat := m.outMapping.countP (· ≠ nilUuid)

/-- The end of `get_stem` for a source that is given the slot `index`. -/
def assign (inMapping : List (Uuid × Nat)) (index : Nat) (m : ConnectionMap) :
    Option (Uuid × ConnectionMap) := do
  let count ← m.usageCount[index]?
  let out ← m.outMapping[index]?
  some (out, { m with inMapping := inMapping, usageCount := m.usageCount.set index (count + 1) })

def getStem (r : Nat) (source : Uuid) (m : ConnectionMap) : Option (Uuid × ConnectionMap) :=
  let elem := lowerBound (fun p : Uuid × Nat => p.1.toNat) m.inMapping source.toNat
  match LowerBound.found (fun p : Uuid × Nat => p.1.toNat) m.inMapping source.toNat with
  | none =>
    match selectStem r m.usageCount m.outMapping with
    | none => some (nilUuid, m)
    | some index => m.assign (m.inMapping.insertIdx elem (source, index)) index
  | some (_, slot) => do
      let out ← m.outMapping[slot]?
      if out = nilUuid then
        let count ← m.usageCount[slot]?
        let usageCount := m.usageCount.set slot (count - 1)
        match selectStem r usageCount m.outMapping with
        | none =>
          some (nilUuid,
            { m with inMapping := m.inMapping.eraseIdx elem, usageCount := usageCount })
        | some index =>
          assign (m.inMapping.set elem (source, index)) index
            { m with usageCount := usageCount }
      else some (out, m)

/-! ## Histories -/

/-- A call, with the random words it draws. -/
inductive Call where
  | update (rand : Nat → Nat) (current : List Uuid)
  | getStem (r : Nat) (source : Uuid)

/-- The map after a call. -/
def call (m : ConnectionMap) : Call → Option ConnectionMap
  | .update rand current => some (m.update rand current).2
  | .getStem r source => (m.getStem r source).map Prod.snd

/-- The map after a sequence of calls. -/
def run (m : ConnectionMap) (calls : List Call) : Option ConnectionMap :=
  calls.foldlM call m

end ConnectionMap

end Oxyra
