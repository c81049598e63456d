import ScriptBackend.Program.Basic

/-!
The statements inside statements, and what has to hold of them for the labels of
a body to make sense.
-/
namespace ScriptBackend

mutual

def Stmt.parts : Stmt → List Stmt
  | .branch arms otherwise =>
    .branch arms otherwise :: (Stmt.armsParts arms ++ Stmt.blockParts otherwise)
  | .loop condition body => .loop condition body :: Stmt.blockParts body
  | .countUp limit counter body => .countUp limit counter body :: Stmt.blockParts body
  | .select scrutinee cases => .select scrutinee cases :: Stmt.casesParts cases
  | s => [s]

def Stmt.blockParts : List Stmt → List Stmt
  | [] => []
  | first :: rest => first.parts ++ Stmt.blockParts rest

def Stmt.armsParts : List (Expr × List Stmt) → List Stmt
  | [] => []
  | (_, body) :: rest => Stmt.blockParts body ++ Stmt.armsParts rest

def Stmt.casesParts : List (Option Int32 × List Stmt) → List Stmt
  | [] => []
  | (_, body) :: rest => Stmt.blockParts body ++ Stmt.casesParts rest

end

def Stmt.labelName? : Stmt → Option String
  | .label name => some name
  | _ => none

def Stmt.gotoName? : Stmt → Option String
  | .goto name => some name
  | _ => none

/-- Whether a statement that selects has one default at most. -/
def Stmt.hasOneDefault : Stmt → Bool
  | .select _ cases => (cases.map Prod.fst).count none ≤ 1
  | _ => true

def labelNames (statements : List Stmt) : List String :=
  statements.filterMap Stmt.labelName?

def gotoNames (statements : List Stmt) : List String :=
  statements.filterMap Stmt.gotoName?

/-- A body whose labels are different, whose jumps by name have their labels,
and whose selections have one default at most. -/
structure Function.WellLabelled (function : Function) : Prop where
  distinct : (labelNames (Stmt.blockParts function.body)).Nodup
  reached : ∀ name ∈ gotoNames (Stmt.blockParts function.body),
    name ∈ labelNames (Stmt.blockParts function.body)
  defaults : ∀ s ∈ Stmt.blockParts function.body, s.hasOneDefault = true

section

@[simp] theorem labelNames_append (first second : List Stmt) :
    labelNames (first ++ second) = labelNames first ++ labelNames second :=
  List.filterMap_append

theorem gotoNames_cons (first : Stmt) (rest : List Stmt) :
    gotoNames (first :: rest) = first.gotoName?.toList ++ gotoNames rest := by
  cases h : first.gotoName? <;> simp [gotoNames, h]

@[simp] theorem gotoNames_append (first second : List Stmt) :
    gotoNames (first ++ second) = gotoNames first ++ gotoNames second :=
  List.filterMap_append

end
end ScriptBackend
