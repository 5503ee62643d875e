import MacroEngine.Json
import MacroEngine.Tree.Basic

/-!
# Trees as JSON

Every node is an object with its identity, its span and its kind. The kind is an object with one
entry, named for the form of the node, or just that name where there is nothing more to say.
-/

namespace MacroEngine

/-- An object with one entry. -/
def Json.tagged (name : String) (content : Json) : Json := .obj [(name, content)]

def Json.strs (values : List String) : Json := .arr (values.map .str)

def Json.opt (value : Option Json) : Json := value.getD .null

def Span.toJson (span : Span) : Json :=
  .obj [("start", .num span.start), ("end", .num span.stop)]

def Stamp.toJson (stamp : Stamp) (kind : Json) : Json :=
  .obj [("id", .num stamp.id), ("span", stamp.span.toJson), ("kind", kind)]

def MacroKind.toJson : MacroKind → Json
  | .function => .str "Function"
  | .template => .str "TaggedTemplate"
  | .derive => .str "Derive"

def Visibility.toJson : Visibility → Json
  | .internal => .str "None"
  | .named => .str "Named"
  | .default => .str "Default"

def VarKind.toJson : VarKind → Json
  | .constant => .str "Const"
  | .mutable => .str "Let"

def UnaryOp.toJson : UnaryOp → Json
  | .not => .str "Not"
  | .neg => .str "Neg"
  | .void => .str "Void"
  | .typeOf => .str "Typeof"

def BinaryOp.toJson : BinaryOp → Json
  | .or => .str "Or"
  | .and => .str "And"
  | .strictEq => .str "StrictEq"
  | .strictNe => .str "StrictNe"
  | .eq => .str "Eq"
  | .ne => .str "Ne"
  | .le => .str "Le"
  | .ge => .str "Ge"
  | .lt => .str "Lt"
  | .gt => .str "Gt"
  | .add => .str "Add"
  | .sub => .str "Sub"
  | .mul => .str "Mul"
  | .div => .str "Div"
  | .mod => .str "Mod"
  | .pow => .str "Pow"

def FunctionHead.toJson (head : FunctionHead) (body : Json) : Json :=
  .obj [("name", .opt (head.name.map .str)), ("params", .strs head.params), ("body", body),
    ("is_async", .bool head.isAsync), ("macro_kind", .opt (head.macroKind.map (·.toJson))),
    ("export", head.visibility.toJson)]

def arrowJson (params : List String) (isAsync : Bool) (body : Json) : Json :=
  .obj [("params", .strs params), ("body", body), ("is_async", .bool isAsync)]

mutual

def Expr.toJson : Expr → Json
  | .ident s name => s.toJson (.tagged "Ident" (.str name))
  | .number s digits => s.toJson (.tagged "Number" (.str digits))
  | .str s value => s.toJson (.tagged "Str" (.str value))
  | .bool s value => s.toJson (.tagged "Bool" (.bool value))
  | .null s => s.toJson (.str "Null")
  | .this s => s.toJson (.str "This")
  | .template s raw => s.toJson (.tagged "Template" (.str raw))
  | .array s items => s.toJson (.tagged "Array" (.arr (Expr.toJsons items)))
  | .object s ps => s.toJson (.tagged "Object" (.arr (Expr.propertiesToJson ps)))
  | .paren s e => s.toJson (.tagged "Paren" e.toJson)
  | .member s o p => s.toJson (.tagged "Member" (.obj [("object", o.toJson), ("property", .str p)]))
  | .call s c as =>
    s.toJson (.tagged "Call" (.obj [("callee", c.toJson), ("args", .arr (Expr.toJsons as))]))
  | .invoke s n as =>
    s.toJson (.tagged "MacroCall" (.obj [("name", .str n), ("args", .arr (Expr.toJsons as))]))
  | .tagged s t r =>
    s.toJson (.tagged "TaggedTemplate" (.obj [("tag", .str t), ("raw", .str r)]))
  | .unary s o e => s.toJson (.tagged "Unary" (.obj [("op", o.toJson), ("operand", e.toJson)]))
  | .binary s o l r =>
    s.toJson (.tagged "Binary" (.obj [("op", o.toJson), ("lhs", l.toJson), ("rhs", r.toJson)]))
  | .assign s t v =>
    s.toJson (.tagged "Assign" (.obj [("target", t.toJson), ("value", v.toJson)]))
  | .await s e => s.toJson (.tagged "Await" e.toJson)
  | .arrow s p a b => s.toJson (.tagged "Arrow" (arrowJson p a (.tagged "Block" b.toJson)))
  | .arrowExpr s p a e => s.toJson (.tagged "Arrow" (arrowJson p a (.tagged "Expr" e.toJson)))
  | .function s h b => s.toJson (.tagged "Function" (h.toJson b.toJson))

def Expr.toJsons : List Expr → List Json
  | [] => []
  | e :: es => e.toJson :: Expr.toJsons es

def Expr.propertiesToJson : List (String × Expr) → List Json
  | [] => []
  | (k, e) :: ps => .obj [("key", .str k), ("value", e.toJson)] :: Expr.propertiesToJson ps

def Stmt.toJson : Stmt → Json
  | .importNames s names specifier =>
    s.toJson (.tagged "Import" (.obj [("names", .strs names), ("source", .str specifier)]))
  | .function s h b => s.toJson (.tagged "Function" (h.toJson b.toJson))
  | .classDecl s h ms =>
    s.toJson (.tagged "Class" (.obj [("name", .str h.name), ("derives", .strs h.derives),
      ("members", .arr (Member.toJsons ms)), ("export", h.visibility.toJson)]))
  | .binding s k n none v =>
    s.toJson (.tagged "Variable" (.obj [("kind", k.toJson), ("name", .str n), ("init", .null),
      ("export", v.toJson)]))
  | .binding s k n (some e) v =>
    s.toJson (.tagged "Variable" (.obj [("kind", k.toJson), ("name", .str n), ("init", e.toJson),
      ("export", v.toJson)]))
  | .expr s e => s.toJson (.tagged "Expr" e.toJson)
  | .ret s none => s.toJson (.tagged "Return" .null)
  | .ret s (some e) => s.toJson (.tagged "Return" e.toJson)
  | .ifElse s c t none =>
    s.toJson (.tagged "If" (.obj [("condition", c.toJson), ("then_branch", t.toJson),
      ("else_branch", .null)]))
  | .ifElse s c t (some e) =>
    s.toJson (.tagged "If" (.obj [("condition", c.toJson), ("then_branch", t.toJson),
      ("else_branch", e.toJson)]))
  | .whileLoop s c b =>
    s.toJson (.tagged "While" (.obj [("condition", c.toJson), ("body", b.toJson)]))
  | .forOf s k n i b =>
    s.toJson (.tagged "ForOf" (.obj [("kind", k.toJson), ("binding", .str n),
      ("iterable", i.toJson), ("body", b.toJson)]))
  | .block s b => s.toJson (.tagged "Block" b.toJson)
  | .defer s b => s.toJson (.tagged "Defer" b.toJson)
  | .tryFinally s b f =>
    s.toJson (.tagged "Try" (.obj [("block", b.toJson), ("finalizer", f.toJson)]))
  | .throwExpr s e => s.toJson (.tagged "Throw" e.toJson)
  | .empty s => s.toJson (.str "Empty")

def Stmt.toJsons : List Stmt → List Json
  | [] => []
  | s :: ss => s.toJson :: Stmt.toJsons ss

def Member.toJsons : List Member → List Json
  | [] => []
  | .field s n none :: ms =>
    s.toJson (.tagged "Field" (.obj [("name", .str n), ("init", .null)])) :: Member.toJsons ms
  | .field s n (some e) :: ms =>
    s.toJson (.tagged "Field" (.obj [("name", .str n), ("init", e.toJson)])) :: Member.toJsons ms
  | .method s h b :: ms =>
    s.toJson (.tagged "Method" (.obj [("name", .str h.name), ("params", .strs h.params),
      ("body", b.toJson), ("is_async", .bool h.isAsync)])) :: Member.toJsons ms

def Block.toJson : Block → Json
  | ⟨s, ss⟩ =>
    .obj [("id", .num s.id), ("span", s.span.toJson), ("stmts", .arr (Stmt.toJsons ss))]

end

def SourceFile.toJson (file : SourceFile) : Json :=
  .obj [("id", .num file.id), ("path", .str file.path.text),
    ("statements", .arr (Stmt.toJsons file.statements)), ("span", file.span.toJson)]

end MacroEngine
