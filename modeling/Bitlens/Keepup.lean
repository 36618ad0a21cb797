import Bitlens.Chain

namespace Bitlens
open Lib

inductive FrontPageDataUpdateStrategy where
  | regenerateFromScratch
  | append
  deriving DecidableEq

/-- An entry of the chain watcher's queue. -/
structure QueueEntry where
  number : Nat
  hash : Hash
  strategy : FrontPageDataUpdateStrategy
  deriving DecidableEq

/-- The entries of a fork, from index `i` on. -/
def forkEntries (p : Profile) (firstNumber : Nat) : Nat → List (Hash × Nat) → Outcome (List QueueEntry)
  | _, [] => .ok []
  | i, (hash, _) :: rest => do
    let number ← p.add 64 firstNumber i
    let entries ← forkEntries p firstNumber (i + 1) rest
    pure (⟨number, hash, if i = 0 then .regenerateFromScratch else .append⟩ :: entries)

/-- What `handle_new_header` appends to the queue for the blocks to apply. -/
def entriesFor (p : Profile) (newTopNumber : Nat) (hash : Hash) (blocksToApply : List (Hash × Nat)) :
    Outcome (List QueueEntry) :=
  if blocksToApply.length = 1 then .ok [⟨newTopNumber, hash, .append⟩]
  else do
    let above ← p.sub 64 newTopNumber blocksToApply.length
    let firstNumber ← p.sub 64 above 1
    forkEntries p firstNumber 0 blocksToApply

/-- The chain watcher's state: the chain manager and its queue. -/
structure Watcher where
  chainman : Chainman
  queue : List QueueEntry

/-- A fault poisons the chain lock; the state is what was written before it. -/
def handleNewHeader (p : Profile) (header : BlockHeaderOwned) (s : Watcher) : Watcher × Outcome Unit :=
  if (s.chainman.chain.knownHeaders header.hash).isSome then (s, .ok ())
  else if (s.chainman.chain.knownHeaders header.parent).isNone then (s, .ok ())
  else
    match s.chainman.validateAndApplyHeaderInner p header false with
    | (w, .ok (some result)) =>
      let w := { w with chain := w.chain.updateMostWorkChain result }
      match entriesFor p w.chain.topHeader.number header.hash result.addedBlocks with
      | .ok entries => (⟨w, s.queue ++ entries⟩, .ok ())
      | _ => (⟨w, s.queue⟩, .fault)
    | (w, .fault) => (⟨w, s.queue⟩, .fault)
    | (w, _) => (⟨w, s.queue⟩, .ok ())

end Bitlens
