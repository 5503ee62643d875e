import MacroEngine.Grammar.Infix
import MacroEngine.Grammar.Peg

/-!
# The grammar of the host language

One body per rule. Where an alternative is a shorter form of another, the longer one comes first,
since the first alternative that matches wins.
-/

namespace MacroEngine.Grammar

namespace Host

def nameChar : Peg := .charIf fun c => c.isAlphanum || c = '_' || c = '$'

def nameStart : Peg := .charIf fun c => c.isAlpha || c = '_' || c = '$'

def digit : Peg := .charIf Char.isDigit

/-- A blank inside a rule without gaps. -/
def blank : Peg := .charIf fun c => c = ' ' || c = '\t' || c = '\r' || c = '\n'

/-- A word that no name character follows. -/
def wholeWord (w : String) : Peg := text w ++ Peg.not nameChar

def choice : List Peg → Peg
  | [] => .charIf fun _ => false
  | [e] => e
  | e :: es => .alt e (choice es)

/-- An expression that a gap may come before. -/
def gapFirst (e : Peg) : Peg := text "" ++ e

/-- One element, or several with commas between them. -/
def commaList (e : Peg) : Peg := e ++ Peg.star (text "," ++ e)

def reserved : List String :=
  ["import", "from", "export", "default", "function", "class", "derives", "const", "let", "return",
    "if", "else", "while", "for", "of", "defer", "try", "finally", "throw", "async", "await",
    "macro", "true", "false", "null", "this", "void", "typeof"]

def exportClause : Peg := .alt (.rule .exportDefault) (.rule .exportNamed)

def varKind : Peg := .alt (.rule .varConst) (.rule .varLet)

def classMember : Peg := .alt (.rule .methodMember) (.rule .fieldMember)

def statement : Peg :=
  choice ([.importStmt, .functionDecl, .classDecl, .variableStmt, .returnStmt, .ifStmt, .whileStmt,
    .forOfStmt, .deferStmt, .tryStmt, .throwStmt, .block, .emptyStmt, .exprStmt].map .rule)

/-- The operators in the order in which they are tried: before its own beginning comes each longer
one. -/
def infixOp : Peg :=
  choice ([.or, .and, .strictEq, .strictNe, .eq, .ne, .le, .ge, .lt, .gt, .add, .sub, .pow, .mul,
    .div, .mod].map fun o => .rule (.op o))

def primary : Peg :=
  choice ([.arrowFn, .functionExpr, .macroCall, .taggedTemplate, .number, .string, .template,
    .boolean, .nullLit, .thisLit, .array, .object, .paren, .identifier].map .rule)

/-- The inside of a literal that the character `close` ends: escaped characters and all others but
the backslash and `close`. -/
def literalInside (close : String) : Peg :=
  .star (.alt (text "\\" ++ anyChar) (Peg.not (.alt (text close) (text "\\")) ++ anyChar))

def body : Rule → Peg
  | .endOfInput => .atEnd
  | .program => gapFirst (Peg.star statement) ++ Peg.rule .endOfInput
  | .keyword => choice (reserved.map text) ++ Peg.not nameChar
  | .identifier => Peg.not (.rule .keyword) ++ nameStart ++ Peg.star nameChar
  | .propertyName => nameStart ++ Peg.star nameChar
  | .word spelling => wholeWord spelling
  | .exportNamed => wholeWord "export"
  | .exportDefault => text "export" ++ blank.plus ++ wholeWord "default"
  | .asyncWord => wholeWord "async"
  | .varConst => wholeWord "const"
  | .varLet => wholeWord "let"
  | .macroTemplate => wholeWord "template"
  | .macroDerive => wholeWord "derive"
  | .macroModifier =>
    Peg.rule (.word "macro") ++ Peg.opt (.alt (.rule .macroTemplate) (.rule .macroDerive))
  | .importStmt =>
    Peg.rule (.word "import") ++ text "\x7b" ++ Peg.opt (commaList (.rule .identifier)) ++
      text "\x7d" ++ Peg.rule (.word "from") ++ Peg.rule .string ++ text ";"
  | .functionDecl =>
    Peg.opt exportClause ++ Peg.opt (.rule .macroModifier) ++ Peg.opt (.rule .asyncWord) ++
      Peg.rule (.word "function") ++ Peg.rule .identifier ++ Peg.rule .params ++ Peg.rule .block
  | .params => text "(" ++ Peg.opt (commaList (.rule .identifier)) ++ text ")"
  | .classDecl =>
    Peg.opt exportClause ++ Peg.rule (.word "class") ++ Peg.rule .identifier ++
      Peg.opt (.rule .derivesClause) ++ text "\x7b" ++ Peg.star classMember ++ text "\x7d"
  | .derivesClause => Peg.rule (.word "derives") ++ commaList (.rule .identifier)
  | .methodMember =>
    Peg.opt (.rule .asyncWord) ++ Peg.rule .propertyName ++ Peg.rule .params ++ Peg.rule .block
  | .fieldMember =>
    Peg.rule .propertyName ++ Peg.opt (text "=" ++ Peg.rule .expression) ++ text ";"
  | .variableStmt =>
    Peg.opt exportClause ++ varKind ++ Peg.rule .identifier ++
      Peg.opt (text "=" ++ Peg.rule .expression) ++ text ";"
  | .returnStmt => Peg.rule (.word "return") ++ Peg.opt (.rule .expression) ++ text ";"
  | .ifStmt =>
    Peg.rule (.word "if") ++ text "(" ++ Peg.rule .expression ++ text ")" ++ Peg.rule .block ++
      Peg.opt (Peg.rule (.word "else") ++ Peg.alt (.rule .ifStmt) (.rule .block))
  | .whileStmt =>
    Peg.rule (.word "while") ++ text "(" ++ Peg.rule .expression ++ text ")" ++ Peg.rule .block
  | .forOfStmt =>
    Peg.rule (.word "for") ++ text "(" ++ varKind ++ Peg.rule .identifier ++
      Peg.rule (.word "of") ++ Peg.rule .expression ++ text ")" ++ Peg.rule .block
  | .deferStmt => Peg.rule (.word "defer") ++ Peg.rule .block
  | .tryStmt =>
    Peg.rule (.word "try") ++ Peg.rule .block ++ Peg.rule (.word "finally") ++ Peg.rule .block
  | .throwStmt => Peg.rule (.word "throw") ++ Peg.rule .expression ++ text ";"
  | .emptyStmt => text ";"
  | .exprStmt => Peg.rule .expression ++ text ";"
  | .block => text "\x7b" ++ Peg.star statement ++ text "\x7d"
  | .expression =>
    Peg.rule .binary ++
      Peg.opt (text "=" ++ Peg.not (.alt (text "=") (text ">")) ++ Peg.rule .expression)
  | .binary => Peg.rule .prefixed ++ Peg.star (infixOp ++ Peg.rule .prefixed)
  | .op o => text (spelling o)
  | .prefixed => Peg.star (.rule .prefixOp) ++ Peg.rule .postfixed
  | .prefixOp =>
    choice [text "!", text "-", .rule .awaitWord, .rule .voidWord, .rule .typeofWord]
  | .awaitWord => wholeWord "await"
  | .voidWord => wholeWord "void"
  | .typeofWord => wholeWord "typeof"
  | .postfixed => primary ++ Peg.star (.alt (.rule .callArgs) (.rule .memberAccess))
  | .callArgs => text "(" ++ Peg.opt (commaList (.rule .expression)) ++ text ")"
  | .memberAccess => text "." ++ Peg.rule .propertyName
  | .arrowFn =>
    Peg.opt (.rule .asyncWord) ++ Peg.rule .arrowParams ++ text "=>" ++
      Peg.alt (.rule .block) (.rule .expression)
  | .arrowParams =>
    .alt (text "(" ++ Peg.opt (commaList (.rule .identifier)) ++ text ")") (.rule .identifier)
  | .functionExpr =>
    Peg.opt (.rule .macroModifier) ++ Peg.opt (.rule .asyncWord) ++ Peg.rule (.word "function") ++
      Peg.opt (.rule .identifier) ++ Peg.rule .params ++ Peg.rule .block
  | .macroCall =>
    Peg.rule .identifier ++ (text "!" ++ Peg.not (text "=")) ++ Peg.rule .callArgs
  | .taggedTemplate => Peg.rule .identifier ++ Peg.rule .template
  | .number => digit.plus ++ Peg.opt (text "." ++ digit.plus)
  | .string =>
    .alt (text "\"" ++ Peg.rule .doubleQuoted ++ text "\"")
      (text "'" ++ Peg.rule .singleQuoted ++ text "'")
  | .doubleQuoted => literalInside "\""
  | .singleQuoted => literalInside "'"
  | .template => text "`" ++ Peg.rule .templateRaw ++ text "`"
  | .templateRaw => .star (Peg.not (text "`") ++ anyChar)
  | .boolean => Peg.alt (text "true") (text "false") ++ Peg.not nameChar
  | .nullLit => wholeWord "null"
  | .thisLit => wholeWord "this"
  | .array =>
    text "[" ++ Peg.opt (commaList (.rule .expression)) ++ Peg.opt (text ",") ++ text "]"
  | .object =>
    text "\x7b" ++ Peg.opt (commaList (.rule .property)) ++ Peg.opt (text ",") ++ text "\x7d"
  | .property =>
    Peg.alt (.rule .propertyName) (.rule .string) ++ text ":" ++ Peg.rule .expression
  | .paren => text "(" ++ Peg.rule .expression ++ text ")"

/-- Words, names, numbers and the insides of literals have no gaps and no inner rules; literals
with delimiters have no gaps. -/
def style : Rule → Style
  | .keyword | .identifier | .propertyName | .word _ | .exportNamed | .exportDefault | .asyncWord
  | .varConst | .varLet | .macroTemplate | .macroDerive | .awaitWord | .voidWord | .typeofWord
  | .number | .doubleQuoted | .singleQuoted | .templateRaw | .boolean | .nullLit | .thisLit =>
    .atomic
  | .string | .template => .compound
  | _ => .loose

end Host

def host : Definition := fun r => (Host.style r, Host.body r)

/-- A bound on the depth of a match of a text: no rule comes back to itself without reading a
character, so a constant depth per character is enough. -/
def depthBound (input : List Char) : Nat := 1000 * (input.length + 1)

/-- The tree of rules of a text, or what its failed match says. -/
def recognize (input : List Char) : Except Mismatch Pair :=
  match run host (depthBound input) ⟨.loose, false⟩ (.rule .program) ⟨0, input⟩ .none with
  | (some (_, [p]), _) => .ok p
  | (_, t) => .error ⟨t.offset, t.expected, t.unexpected⟩

end MacroEngine.Grammar
