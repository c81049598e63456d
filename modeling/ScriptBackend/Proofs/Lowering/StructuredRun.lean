import ScriptBackend.Proofs.Lowering.Run

/-!
The structured reading of statements. A branch takes the first arm whose
condition holds, a selection enters the first case of its value, or else the
default, or else none, and falls through from there. A break leaves the
innermost loop or selection, a continue goes on with the next round of the
innermost loop: with its test, or with the increment of its counter.
-/
namespace ScriptBackend

open Lowering

mutual

/-- Whether a statement has no jump to a label of the program in it, and no
selection with more than one default. -/
def Stmt.isStructured : Stmt → Bool
  | .branch arms otherwise => Stmt.armsStructured arms && Stmt.blockStructured otherwise
  | .loop _ body => Stmt.blockStructured body
  | .countUp _ _ body => Stmt.blockStructured body
  | .select _ cases => Stmt.casesStructured cases
  | .goto _ => false
  | _ => true

def Stmt.blockStructured : List Stmt → Bool
  | [] => true
  | first :: rest => first.isStructured && Stmt.blockStructured rest

def Stmt.armsStructured : List (Expr × List Stmt) → Bool
  | [] => true
  | (_, body) :: rest => Stmt.blockStructured body && Stmt.armsStructured rest

/-- Whether the cases of a selection are structured. No default stands behind
another. -/
def Stmt.casesStructured : List (Option Int32 × List Stmt) → Bool
  | [] => true
  | (value, body) :: rest =>
    (value.isSome || rest.all fun (other, _) => other.isSome) && Stmt.blockStructured body &&
      Stmt.casesStructured rest

end

mutual

/-- The runs of a statement. A jump to a label of the program has none. -/
def Stmt.runs : Stmt → Run
  | .declare id => .perform (.declare id)
  | .assign target op value => .perform (.assign target op value)
  | .branch arms otherwise => Stmt.armsRuns arms (Stmt.blockRuns otherwise)
  | .loop condition body =>
    .looping (.andThen (.perform (.value condition))
      (.decide .tested (Stmt.blockRuns body) (.exiting .broken)))
  | .countUp limit counter body =>
    .andThen (.perform (.assign counter none (.ofInt 0)))
      (.looping (.andThen (.perform (.value counter)) (.andThen (.perform (.value limit))
        (.decide .limited
          (.andThen (.resuming (Stmt.blockRuns body))
            (.perform (.assign counter (some .add) (.ofInt 1))))
          (.exiting .broken)))))
  | .select scrutinee cases =>
    .andThen (.perform (.value scrutinee))
      (.stopping (.choose .selected fun value =>
        ((Stmt.enterCase (· = some value) cases).or (Stmt.enterCase Option.isNone cases)).getD
          (.exiting .finished)))
  | .breakOut => .exiting .broken
  | .continueLoop => .exiting .continued
  | .goto _ => fun _ _ => False
  | .label _ => .exiting .finished
  | .ret none => .leave
  | .ret (some e) => .andThen (.perform (.value e)) .leave
  | .evaluate e => .perform (.evaluate e)

def Stmt.blockRuns : List Stmt → Run
  | [] => .exiting .finished
  | first :: rest => .andThen first.runs (Stmt.blockRuns rest)

/-- The runs of the first arm whose condition holds, or else of what the branch
does otherwise. -/
def Stmt.armsRuns : List (Expr × List Stmt) → Run → Run
  | [], otherwise => otherwise
  | (condition, body) :: rest, otherwise =>
    .andThen (.perform (.value condition))
      (.decide .tested (Stmt.blockRuns body) (Stmt.armsRuns rest otherwise))

/-- The runs of cases that fall through from the first one on. -/
def Stmt.fallThrough : List (Option Int32 × List Stmt) → Run
  | [] => .exiting .finished
  | (_, body) :: rest => .andThen (Stmt.blockRuns body) (Stmt.fallThrough rest)

/-- The runs from the first case on whose value is wanted, if there is one. -/
def Stmt.enterCase (wanted : Option Int32 → Bool) : List (Option Int32 × List Stmt) → Option Run
  | [] => none
  | (value, body) :: rest =>
    if wanted value then some (.andThen (Stmt.blockRuns body) (Stmt.fallThrough rest))
    else Stmt.enterCase wanted rest

end

/-- The runs of a function: those of its body, which returns at its end. -/
def Stmt.functionRuns (body : List Stmt) : Run :=
  .andThen (Stmt.blockRuns body) .leave

end ScriptBackend
