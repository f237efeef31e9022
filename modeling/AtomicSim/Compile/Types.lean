import Mathlib.Data.List.Basic
import Mathlib.Data.Nat.Notation

namespace AtomicSim

inductive FPType where
  | half
  | single
  | double
  | fp128
  | x86FP80
  | ppcFP128
  deriving DecidableEq, Repr

/-- The LLVM types. A named struct is a name only: what it stands for is the business
of the table that holds the definitions. -/
inductive TypeRef where
  | voidType
  | metadataType
  | labelType
  | tokenType
  | x86MMXType
  | integerType (bits : UInt32)
  | pointerType (pointeeType : TypeRef) (addrSpace : ℕ)
  | fpType (fptype : FPType)
  | funcType (resultType : TypeRef) (paramTypes : List TypeRef) (isVarArg : Bool)
  | vectorType (elementType : TypeRef) (numElements : ℕ)
  | arrayType (elementType : TypeRef) (numElements : ℕ)
  | structType (elementTypes : List TypeRef) (isPacked : Bool)
  | namedStructType (name : String)
  deriving Repr

namespace TypeRef

mutual

def beq : TypeRef → TypeRef → Bool
  | voidType, voidType => true
  | metadataType, metadataType => true
  | labelType, labelType => true
  | tokenType, tokenType => true
  | x86MMXType, x86MMXType => true
  | integerType b, integerType b' => b == b'
  | pointerType p a, pointerType p' a' => beq p p' && a == a'
  | fpType t, fpType t' => t == t'
  | funcType r ps v, funcType r' ps' v' => beq r r' && beqList ps ps' && v == v'
  | vectorType e n, vectorType e' n' => beq e e' && n == n'
  | arrayType e n, arrayType e' n' => beq e e' && n == n'
  | structType es p, structType es' p' => beqList es es' && p == p'
  | namedStructType s, namedStructType s' => s == s'
  | _, _ => false

def beqList : List TypeRef → List TypeRef → Bool
  | [], [] => true
  | t :: ts, t' :: ts' => beq t t' && beqList ts ts'
  | _, _ => false

end

mutual

theorem beq_iff (t t' : TypeRef) : beq t t' = true ↔ t = t' := by
  cases t with
  | pointerType p a => cases t' <;> simp [beq, beq_iff p]
  | funcType r ps v => cases t' <;> simp [beq, beq_iff r, beqList_iff ps, and_assoc]
  | vectorType e n => cases t' <;> simp [beq, beq_iff e]
  | arrayType e n => cases t' <;> simp [beq, beq_iff e]
  | structType es p => cases t' <;> simp [beq, beqList_iff es]
  | _ => cases t' <;> simp [beq]

theorem beqList_iff (ts ts' : List TypeRef) : beqList ts ts' = true ↔ ts = ts' := by
  cases ts with
  | nil => cases ts' <;> simp [beqList]
  | cons t ts => cases ts' <;> simp [beqList, beq_iff t, beqList_iff ts]

end

instance : DecidableEq TypeRef := fun t t' => decidable_of_iff _ (beq_iff t t')

end TypeRef
end AtomicSim
