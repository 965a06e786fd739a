import TreeDelta.Matching
import TreeDelta.Script.Condense
import TreeDelta.Script.Draft
import TreeDelta.Script.Footprint
import TreeDelta.Script.Replay

namespace TreeDelta

structure Diff where
  pairing : Pairing
  script : Script
  condensed : Script
  footprint : Footprint

def Script.between (c : Config) (src dst : Tree) : Except Fault Script := do
  Script.ofPairing src dst (← matching c src dst)

namespace Diff

def between (c : Config) (src dst : Tree) : Except Fault Diff := do
  let pairing ← matching c src dst
  let script ← Script.ofPairing src dst pairing
  let condensed := script.condense src dst
  return ⟨pairing, script, condensed, ← condensed.footprint src dst⟩

def betweenAll (c : Config) (pairs : List (Tree × Tree)) : Except Fault (List Diff) :=
  pairs.mapM fun (src, dst) => between c src dst

end Diff

end TreeDelta
