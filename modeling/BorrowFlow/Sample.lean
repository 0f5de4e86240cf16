import BorrowFlow.Builder.Statement

/-! # Sample bodies

  Small bodies that show the analyses at work: a write to a borrowed variable, a
  reference that is pointed elsewhere on one branch only, a loan that stays live
  around a loop, a branch with and without a third target, and a loan that only
  a destructor may still look at.
-/

namespace BorrowFlow

/-- The sample bodies. -/
inductive Sample where
  | straightLine
  | twoBranchReassign
  | loop
  /-- With or without an edge to its last block. -/
  | branching (extraEdge : Bool)
  /-- The dropped aggregate's destructor touches no region, or any. -/
  | dropping (narrow : Bool)
  deriving DecidableEq

namespace Sample

/-- The scalar type of the samples. -/
def int : Ty := .scalar "i32"

/-- A shared reference to a number. -/
def intRef (r : Region) : Ty := .ref r false int

/-- Declare a local. -/
def localVar (name : String) (ty : Ty) (drops : Option (List Region) := none) : BuildM Unit := do
  let _ ← Builder.declare name ty drops false

/-- `name = const`. -/
def setConst (block name : String) : BuildM Unit := do
  let _ ← Builder.assign block (.ofLocal name) .const

/-- `name = &place`. -/
def share (block name place : String) : BuildM Unit := do
  let _ ← Builder.borrow block (.ofLocal name) (.ofLocal place) false

/-- `use(copy name)`. -/
def useCopy (block name : String) : BuildM Unit := do
  let _ ← Builder.use block [.copy (.ofLocal name)]

/-- Leave the function. -/
def leave (block : String) : BuildM Unit := do
  let _ ← Builder.ret block

/-- Go to a block. -/
def jump (block target : String) : BuildM Unit := do
  let _ ← Builder.goto block target

/-- Go to one of several blocks. -/
def fork (block : String) (targets : List String) : BuildM Unit := do
  let _ ← Builder.branch block targets none

/-- Two numbers and a reference for each. -/
def twoReferences : BuildM Unit := do
  let p ← Builder.declareRegion "'p" false
  let q ← Builder.declareRegion "'q" false
  localVar "x" int
  localVar "y" int
  localVar "p" (intRef p)
  localVar "q" (intRef q)
  ["bb0", "bb1", "bb2", "bb3"].forM fun name => Builder.openBlock name
  share "bb0" "p" "x"
  share "bb0" "q" "y"

/-- The name of a sample's function. -/
def functionName : Sample → String
  | .straightLine => "straight"
  | .twoBranchReassign => "two_branch"
  | .loop => "looping"
  | .branching _ => "branching"
  | .dropping _ => "dropping"

/-- The steps that build a sample. -/
def steps : Sample → BuildM Unit
  | .straightLine => do
    let p ← Builder.declareRegion "'p" false
    localVar "x" int
    localVar "p" (intRef p)
    Builder.openBlock "bb0"
    setConst "bb0" "x"
    share "bb0" "p" "x"
    setConst "bb0" "x"
    useCopy "bb0" "p"
    leave "bb0"
  | .twoBranchReassign => do
    twoReferences
    fork "bb0" ["bb1", "bb2"]
    let _ ← Builder.assign "bb1" (.ofLocal "p") (.copy (.ofLocal "q"))
    setConst "bb1" "x"
    jump "bb1" "bb3"
    setConst "bb2" "y"
    jump "bb2" "bb3"
    setConst "bb3" "y"
    useCopy "bb3" "p"
    leave "bb3"
  | .loop => do
    let t ← Builder.declareRegion "'t" false
    let w ← Builder.declareRegion "'w" false
    localVar "v" int
    localVar "t" (intRef t)
    localVar "w" (.adt "Vec" [intRef w])
    ["bb0", "bb1", "bb2"].forM fun name => Builder.openBlock name
    setConst "bb0" "w"
    jump "bb0" "bb1"
    setConst "bb1" "v"
    share "bb1" "t" "v"
    let _ ← Builder.call "bb1" (.ofLocal "w") "push"
      [.move (.ofLocal "w"), .copy (.ofLocal "t")] [(t, w)]
    fork "bb1" ["bb1", "bb2"]
    useCopy "bb2" "w"
    leave "bb2"
  | .branching extraEdge => do
    twoReferences
    fork "bb0" (if extraEdge then ["bb1", "bb2", "bb3"] else ["bb1", "bb2"])
    useCopy "bb1" "p"
    leave "bb1"
    setConst "bb2" "y"
    leave "bb2"
    useCopy "bb3" "q"
    jump "bb3" "bb1"
  | .dropping narrow => do
    let t ← Builder.declareRegion "'t" false
    let r ← Builder.declareRegion "'r" false
    localVar "x" int
    localVar "t" (intRef t)
    localVar "v" (.adt "Vec" [intRef r]) (if narrow then some [] else none)
    Builder.openBlock "bb0"
    share "bb0" "t" "x"
    let _ ← Builder.call "bb0" (.ofLocal "v") "push" [.copy (.ofLocal "t")] [(t, r)]
    setConst "bb0" "x"
    let _ ← Builder.drop "bb0" "v"
    leave "bb0"

/-- The body of a sample. -/
def body (s : Sample) : Except Builder.FinishError Body :=
  match s.steps.perform { name := s.functionName } with
  | (.error e, _) => .error (.build e)
  | (.ok (), b) => b.finish

end Sample

end BorrowFlow
