import ScriptBackend.Proofs.Lowering.Data
import ScriptBackend.Proofs.Lowering.Rules

/-!
Expressions whose types have the sizes that their forms give them: operands are
of types that their operators support, arguments are as large as their
parameters, and constants fold to words of their size.
-/
namespace ScriptBackend.Lowering

def Family.words : Family → Nat
  | .int | .float => 1
  | .vector => 3

def wordLimit : Nat := UInt32.size

/-- A type of values that an operator can take: a vector or a single word. -/
def IsOperand (sizes : Sizes) (ty : Ty) : Prop :=
  ty = .vector ∨ sizes.of ty = 1

/-- Arguments as large as the parameters that they are passed for. References
are passed as addresses. -/
def Passes (sizes : Sizes) (parameters : List Ty) (passed : List Expr) : Prop :=
  List.Forall₂ (fun parameter e => parameter.isRef = false → sizes.of e.ty = sizes.of parameter)
    parameters passed

/-- Expressions whose types have the sizes that their forms give them. -/
inductive Sized (setting : Setting) : Expr → Prop where
  | int {info : Info} {number : Int32} (one : setting.sizes.of info.ty = 1) :
      Sized setting (.int info number)
  | float {info : Info} {number : Binary32} (one : setting.sizes.of info.ty = 1) :
      Sized setting (.float info number)
  | bool {info : Info} {truth : Bool} (one : setting.sizes.of info.ty = 1) :
      Sized setting (.bool info truth)
  | text {info : Info} {content : String} (one : setting.sizes.of info.ty = 1) :
      Sized setting (.text info content)
  | null {info : Info} (one : setting.sizes.of info.ty = 1) : Sized setting (.null info)
  | vector {info : Info} {x y z : Expr} (three : setting.sizes.of info.ty = 3)
      (x_sized : Sized setting x) (x_one : setting.sizes.of x.ty = 1)
      (y_sized : Sized setting y) (y_one : setting.sizes.of y.ty = 1)
      (z_sized : Sized setting z) (z_one : setting.sizes.of z.ty = 1) :
      Sized setting (.vector info x y z)
  | constant {info : Info} {id : Nat} {words : List Datum} (known : info.isConstant = true)
      (folds : fold? setting.program (.var info id) = some words)
      (length_eq : words.length = setting.sizes.of info.ty) : Sized setting (.var info id)
  | variable {info : Info} {id : Nat} {declared : Variable}
      (declaration : setting.declaration id = .ok declared) (storage : declared.storage ≠ .constant)
      (size_eq : setting.sizes.of info.ty = setting.sizes.of declared.ty.target)
      (small : setting.sizes.of info.ty < wordLimit) : Sized setting (.var info id)
  | functionRef {info : Info} {id : Nat} (one : setting.sizes.of info.ty = 1) :
      Sized setting (.functionRef info id)
  | neg {info : Info} {operand : Expr}
      (size_eq : setting.sizes.of info.ty = setting.sizes.of operand.ty)
      (operand_sized : Sized setting operand) (isOperand : IsOperand setting.sizes operand.ty) :
      Sized setting (.neg info operand)
  | not {info : Info} {operand : Expr} (one : setting.sizes.of info.ty = 1)
      (operand_sized : Sized setting operand) (operand_one : setting.sizes.of operand.ty = 1) :
      Sized setting (.not info operand)
  | shortCircuit {info : Info} {op : BinaryOp} {left right : Expr}
      (short : op.isShortCircuit = true) (one : setting.sizes.of info.ty = 1)
      (left_sized : Sized setting left) (left_one : setting.sizes.of left.ty = 1)
      (right_sized : Sized setting right) (right_one : setting.sizes.of right.ty = 1) :
      Sized setting (.binary info op left right)
  | binary {info : Info} {op : BinaryOp} {left right : Expr} (long : op.isShortCircuit = false)
      (size_eq : setting.sizes.of info.ty =
        if op.isLogical then 1 else (Family.ofOperands left.ty right.ty).words)
      (left_sized : Sized setting left) (left_operand : IsOperand setting.sizes left.ty)
      (right_sized : Sized setting right) (right_operand : IsOperand setting.sizes right.ty) :
      Sized setting (.binary info op left right)
  | member {info : Info} {base : Expr} {field : String}
      (small : setting.sizes.of info.ty < wordLimit)
      (base_sized : Sized setting base) (base_small : setting.sizes.of base.ty < wordLimit) :
      Sized setting (.member info base field)
  | index {info : Info} {array position : Expr} (small : setting.sizes.of info.ty < wordLimit)
      (array_sized : Sized setting array) (array_small : setting.sizes.of array.ty < wordLimit)
      (position_sized : Sized setting position) (position_one : setting.sizes.of position.ty = 1) :
      Sized setting (.index info array position)
  | call {info : Info} {id : Nat} {function : Function} {parameters : List Ty} {passed : List Expr}
      (declared : setting.program.functions[id]? = some function)
      (typed : parameterTypes setting function = .ok parameters)
      (size_eq : setting.sizes.of info.ty = setting.sizes.of function.result)
      (passed_sized : ∀ e ∈ passed, Sized setting e)
        (passes : Passes setting.sizes parameters passed) :
      Sized setting (.call info id passed)
  | callNative {info : Info} {id : Nat} {native : NativeSignature} {passed : List Expr}
      (declared : setting.program.natives[id]? = some native)
      (size_eq : setting.sizes.of info.ty = setting.sizes.of native.result)
      (passed_sized : ∀ e ∈ passed, Sized setting e)
      (passes : Passes setting.sizes native.parameters passed) :
      Sized setting (.callNative info id passed)
  | callThrough {info : Info} {target : Expr} {prototype : Prototype} {passed : List Expr}
      (typed : prototypeOf setting target.ty = .ok prototype)
      (size_eq : setting.sizes.of info.ty = setting.sizes.of prototype.result)
      (target_sized : Sized setting target)
      (passed_sized : ∀ e ∈ passed, Sized setting e)
      (passes : Passes setting.sizes prototype.parameters passed) :
      Sized setting (.callThrough info target passed)
  | convert {info : Info} {operand : Expr} (operand_sized : Sized setting operand)
      (folded : ∀ words, fold? setting.program (.convert info operand) = some words →
        words.length = setting.sizes.of info.ty) :
      Sized setting (.convert info operand)

section Folding

variable {setting : Setting} {e : Expr} {words : List Datum}

theorem length_of_single? {word : Datum} (h : single? words = some word) : words.length = 1 := by
  rw [single?_eq_some h]
  rfl

theorem length_mapM {α β : Type} {f : α → Option β} {items : List α} {results : List β}
    (h : items.mapM f = some results) : results.length = items.length := by
  induction items generalizing results with
  | nil =>
      cases h
      rfl
  | cons item rest ih =>
      rw [List.mapM_cons] at h
      obtain ⟨first, _, h⟩ := Option.bind_eq_some_iff.mp h
      obtain ⟨later, hLater, h⟩ := Option.bind_eq_some_iff.mp h
      cases h
      simp [ih hLater]

/-- A type of one word is no vector. -/
theorem ne_vector_of_one {sizes : Sizes} {ty : Ty} (h : sizes.of ty = 1) : ty ≠ .vector := by
  rintro rfl
  cases h

theorem Family.words_ofOperands {left right : Ty} (hLeft : left ≠ .vector)
    (hRight : right ≠ .vector) : (Family.ofOperands left right).words = 1 := by
  unfold Family.ofOperands
  rw [if_neg (by simp [hLeft, hRight])]
  split <;> rfl

theorem constantWithin?_of_not_constant {id : Nat} {declared : Variable} (depth : Nat)
    (hDeclared : setting.declaration id = .ok declared) (hStorage : declared.storage ≠ .constant) :
    constantWithin? setting.program depth id = none := by
  cases depth with
  | zero => rfl
  | succ depth =>
      unfold Setting.declaration at hDeclared
      split at hDeclared
      · next found hFound =>
          cases hDeclared
          simp [constantWithin?, hFound, hStorage]
      · cases hDeclared

/-- A constant expression folds to as many words as its type has. -/
theorem Sized.length_fold (h : Sized setting e) (hFold : fold? setting.program e = some words) :
    words.length = setting.sizes.of e.ty := by
  have hSingle : ∀ {e : Expr} {found : List Datum} {word : Datum},
      (∀ {words}, fold? setting.program e = some words → words.length = setting.sizes.of e.ty) →
      fold? setting.program e = some found → single? found = some word →
      setting.sizes.of e.ty = 1 :=
    fun ih hFound hWord => (ih hFound).symm.trans (length_of_single? hWord)
  induction h generalizing words with
  | int one =>
      cases hFold
      exact one.symm
  | float one =>
      obtain ⟨_, _, rfl⟩ := Option.map_eq_some_iff.mp hFold
      exact one.symm
  | bool one =>
      cases hFold
      exact one.symm
  | text one =>
      cases hFold
      exact one.symm
  | null one =>
      cases hFold
      exact one.symm
  | vector three =>
      simp only [fold?, foldWith, Option.bind_eq_bind, Option.bind_eq_some_iff] at hFold
      obtain ⟨_, _, _, _, _, _, _, _, _, _, _, _, _, _, _, _, _, _, hFold⟩ := hFold
      cases hFold
      exact three.symm
  | constant known folds length_eq =>
      rw [folds] at hFold
      cases hFold
      exact length_eq
  | «variable» declaration storage size_eq small =>
      rw [fold?, foldWith, constantWithin?_of_not_constant _ declaration storage] at hFold
      cases hFold
  | functionRef one =>
      obtain ⟨_, _, rfl⟩ := Option.map_eq_some_iff.mp hFold
      exact one.symm
  | neg size_eq operand_sized isOperand ih =>
      obtain ⟨found, hFound, hNeg⟩ := Option.bind_eq_some_iff.mp hFold
      exact (length_mapM hNeg).trans ((ih hFound).trans size_eq.symm)
  | not one =>
      simp only [fold?, foldWith, Option.bind_eq_bind, Option.bind_eq_some_iff] at hFold
      obtain ⟨_, _, _, _, _, _, hFold⟩ := hFold
      cases hFold
      exact one.symm
  | shortCircuit short one =>
      simp only [fold?, foldWith, Option.bind_eq_bind, Option.bind_eq_some_iff] at hFold
      obtain ⟨_, _, _, _, _, _, _, _, _, _, hFold⟩ := hFold
      cases hFold
      exact one.symm
  | binary long size_eq left_sized left_operand right_sized right_operand left_ih right_ih =>
      simp only [fold?, foldWith, Option.bind_eq_bind, Option.bind_eq_some_iff] at hFold
      obtain ⟨_, hLeft, _, hLeftWord, _, hRight, _, hRightWord, _, _, hFold⟩ := hFold
      cases hFold
      have hLeftOne := hSingle left_ih hLeft hLeftWord
      have hRightOne := hSingle right_ih hRight hRightWord
      have hWords :=
        Family.words_ofOperands (ne_vector_of_one hLeftOne) (ne_vector_of_one hRightOne)
      rw [hWords, ite_self] at size_eq
      exact size_eq.symm
  | member => cases hFold
  | index => cases hFold
  | call => cases hFold
  | callNative => cases hFold
  | callThrough => cases hFold
  | convert operand_sized folded => exact folded words hFold

end Folding
end ScriptBackend.Lowering
