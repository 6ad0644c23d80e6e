import Oxyra.Core.Blockchain

/-!
# Locating a split

A node that wants to sync sends a short list of its block ids, newest first
(`getShortChainHistory`), and the other side looks for the first of them that it has too
(`findBlockchainSupplement`).
-/

namespace Oxyra

variable (e : Env) (chain : Chain)

/-- The loop of `get_short_chain_history`, with the ids it pushes and the flag
`genesis_included` at its end. -/
def shortChainLoop (sz : Nat) :
    Nat → (i currentMultiplier currentBackOffset : Nat) → Bool → List Hash × Bool
  | 0, _, _, _, genesisIncluded => ([], genesisIncluded)
  | fuel + 1, i, currentMultiplier, currentBackOffset, genesisIncluded =>
    if currentBackOffset < sz then
      let included := genesisIncluded || decide (sz - currentBackOffset = 0)
      let rest :=
        if i < 10 then
          shortChainLoop sz fuel (i + 1) currentMultiplier (currentBackOffset + 1) included
        else
          shortChainLoop sz fuel (i + 1) (currentMultiplier * 2)
            (currentBackOffset + currentMultiplier * 2) included
      (chain.idAt e (sz - currentBackOffset) :: rest.1, rest.2)
    else ([], genesisIncluded)

/-- `get_short_chain_history`. The back offset grows by one at least, so the height is
fuel enough. -/
def getShortChainHistory : List Hash :=
  let sz := chain.length
  if sz = 0 then []
  else
    let (ids, genesisIncluded) := shortChainLoop e chain sz sz 0 1 1 false
    if genesisIncluded then ids else ids ++ [chain.idAt e 0]

/-- `find_blockchain_supplement`: the height of the split, or a refusal. -/
def findBlockchainSupplement (qblockIds : List Hash) : Option Nat :=
  match qblockIds.getLast? with
  | none => none
  | some back =>
    if back ≠ chain.idAt e 0 then none
    else qblockIds.findSome? (chain.heightOf? e)

end Oxyra
