/-!
# Type annotations

Descriptions of types that check hooks may give for their sites, and their text. The checker of the
host language stays outside: it is known only by what it says about expressions.
-/

namespace MacroEngine

inductive IntrinsicType where
  | string
  | number
  | boolean
  | any
  | null
  | undefined
  | void
  | never
deriving Repr, DecidableEq

def IntrinsicType.label : IntrinsicType → String
  | .string => "string"
  | .number => "number"
  | .boolean => "boolean"
  | .any => "any"
  | .null => "null"
  | .undefined => "undefined"
  | .void => "void"
  | .never => "never"

inductive TypeAnnotation where
  | intrinsic (type : IntrinsicType)
  /-- Members by name; the flag says whether one is optional. -/
  | object (members : List (String × TypeAnnotation × Bool))
  | objectMember (name : String) (type : TypeAnnotation) (isOptional : Bool)
  | array (element : TypeAnnotation)
  | union (types : List TypeAnnotation)
  | intersection (types : List TypeAnnotation)
  | generic (base : TypeAnnotation) (arguments : List TypeAnnotation)
  | reference (name : String) (arity : Nat)
  /-- A type that the checker knows by a number. -/
  | resolved (id : Nat)

namespace TypeAnnotation

/-- Types whose text needs parentheses in front of `[]`. -/
def isCompound : TypeAnnotation → Bool
  | .union _ | .intersection _ => true
  | _ => false

def memberText (name : String) (isOptional : Bool) (type : String) : String :=
  name ++ (if isOptional then "?" else "") ++ ": " ++ type

mutual

def text : TypeAnnotation → String
  | .intrinsic type => type.label
  | .object [] => "\x7b\x7d"
  | .object (m :: ms) => "\x7b " ++ "; ".intercalate (memberTexts (m :: ms)) ++ " \x7d"
  | .objectMember name type isOptional => memberText name isOptional type.text
  | .array element =>
    (if element.isCompound then "(" ++ element.text ++ ")" else element.text) ++ "[]"
  | .union types => " | ".intercalate (texts types)
  | .intersection types => " & ".intercalate (texts types)
  | .generic base arguments => base.text ++ "<" ++ ", ".intercalate (texts arguments) ++ ">"
  | .reference name _ => name
  | .resolved id => "#" ++ toString id

def texts : List TypeAnnotation → List String
  | [] => []
  | t :: ts => t.text :: texts ts

def memberTexts : List (String × TypeAnnotation × Bool) → List String
  | [] => []
  | (name, type, isOptional) :: ms => memberText name isOptional type.text :: memberTexts ms

end

end TypeAnnotation

end MacroEngine
