import ActorIsolation.Order

/-! Identifiers, and the types of values as written at their use. -/

set_option autoImplicit false

namespace ActorIsolation

structure DeclId where
  number : Nat
  deriving DecidableEq, Repr, Inhabited

structure ExtensionId where
  number : Nat
  deriving DecidableEq, Repr, Inhabited

structure EdgeId where
  number : Nat
  deriving DecidableEq, Repr, Inhabited

/-- The unit of compilation a declaration belongs to. -/
structure ModuleId where
  number : Nat
  deriving DecidableEq, Repr, Inhabited

def ModuleId.here : ModuleId := ⟨0⟩

def DeclId.text (id : DeclId) : String := s!"#{id.number}"

def ExtensionId.text (id : ExtensionId) : String := s!"ext#{id.number}"

def EdgeId.text (id : EdgeId) : String := s!"edge#{id.number}"

instance : Ranked DeclId := ⟨fun id => [id.number]⟩

instance : Ranked ExtensionId := ⟨fun id => [id.number]⟩

instance : Ranked EdgeId := ⟨fun id => [id.number]⟩

instance : Ranked ModuleId := ⟨fun id => [id.number]⟩

inductive TypeRef where
  /-- A builtin scalar. -/
  | primitive (name : String)
  | nominal (decl : DeclId)
  | tuple (items : List TypeRef)
  | optional (wrapped : TypeRef)
  | function (sendable : Bool)
  deriving Repr, Inhabited

namespace TypeRef

mutual

/-- The declarations a type mentions, from left to right, once for each mention. -/
def nominals : TypeRef → List DeclId
  | .primitive _ => []
  | .nominal decl => [decl]
  | .tuple items => nominalsOfItems items
  | .optional wrapped => wrapped.nominals
  | .function _ => []

def nominalsOfItems : List TypeRef → List DeclId
  | [] => []
  | item :: items => item.nominals ++ nominalsOfItems items

end

mutual

def text : TypeRef → String
  | .primitive name => name
  | .nominal decl => decl.text
  | .tuple items => "(" ++ ", ".intercalate (textsOfItems items) ++ ")"
  | .optional wrapped => wrapped.text ++ "?"
  | .function true => "@Sendable () -> ()"
  | .function false => "() -> ()"

def textsOfItems : List TypeRef → List String
  | [] => []
  | item :: items => item.text :: textsOfItems items

end

mutual

/-- Ranks by kind first, then by content; tuples compare item by item. -/
def order : TypeRef → List Nat
  | .primitive name => 0 :: Rank.text name
  | .nominal decl => 1 :: rank decl
  | .tuple items => 2 :: orderOfItems items
  | .optional wrapped => 3 :: wrapped.order
  | .function sendable => 4 :: Rank.flag sendable

def orderOfItems : List TypeRef → List Nat
  | [] => [0]
  | item :: items => 1 :: item.order ++ orderOfItems items

end

mutual

def decideEq : (left right : TypeRef) → Decidable (left = right)
  | .primitive a, .primitive b => decidable_of_iff (a = b) (by simp)
  | .nominal a, .nominal b => decidable_of_iff (a = b) (by simp)
  | .function a, .function b => decidable_of_iff (a = b) (by simp)
  | .optional a, .optional b =>
    have := decideEq a b
    decidable_of_iff (a = b) (by simp)
  | .tuple a, .tuple b =>
    have := decideItemsEq a b
    decidable_of_iff (a = b) (by simp)
  | .primitive _, .nominal _ | .primitive _, .tuple _ | .primitive _, .optional _
  | .primitive _, .function _ | .nominal _, .primitive _ | .nominal _, .tuple _
  | .nominal _, .optional _ | .nominal _, .function _ | .tuple _, .primitive _
  | .tuple _, .nominal _ | .tuple _, .optional _ | .tuple _, .function _
  | .optional _, .primitive _ | .optional _, .nominal _ | .optional _, .tuple _
  | .optional _, .function _ | .function _, .primitive _ | .function _, .nominal _
  | .function _, .tuple _ | .function _, .optional _ => .isFalse nofun

def decideItemsEq : (left right : List TypeRef) → Decidable (left = right)
  | [], [] => .isTrue rfl
  | [], _ :: _ | _ :: _, [] => .isFalse nofun
  | a :: as, b :: bs =>
    have := decideEq a b
    have := decideItemsEq as bs
    decidable_of_iff (a = b ∧ as = bs) (by simp)

end

instance : DecidableEq TypeRef := decideEq

instance : Ranked TypeRef := ⟨order⟩

end TypeRef

end ActorIsolation
