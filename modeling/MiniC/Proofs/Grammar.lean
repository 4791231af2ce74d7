import MiniC.Stmt
import MiniC.Token

/-!
# The grammar

Which tokens form which trees, as rules of a grammar in layers. A phrase is a list of kinds of tokens; the
trees carry no annotations. The operators between two operands have five levels, and those of one level group
to the left. An operator before its operand binds more tightly than all of them, and indices and calls bind
more tightly still.
-/

namespace MiniC.Grammar

/-- A phrase in parentheses. -/
abbrev parens (ks : List Token.Kind) : List Token.Kind :=
  .punct .leftParen :: (ks ++ [.punct .rightParen])

/-- A phrase in brackets. -/
abbrev brackets (ks : List Token.Kind) : List Token.Kind :=
  .punct .leftBracket :: (ks ++ [.punct .rightBracket])

/-- A phrase in braces. -/
abbrev braces (ks : List Token.Kind) : List Token.Kind :=
  .punct .leftBrace :: (ks ++ [.punct .rightBrace])

/-- One phrase or more, with commas between them. -/
inductive Separated {α : Type} (Item : List Token.Kind → α → Prop) : List Token.Kind → List α → Prop
  | one {ks : List Token.Kind} {a : α} : Item ks a → Separated Item ks [a]
  | more {ks ks' : List Token.Kind} {a : α} {as : List α} :
      Item ks a → Separated Item ks' as → Separated Item (ks ++ .punct .comma :: ks') (a :: as)

/-! ## Expressions -/

/-- The levels of expressions, from the one that binds loosest. -/
inductive Level where
  | disjunction
  | conjunction
  | comparison
  | sum
  | product
  | unary
  | applied
  | primary

/-- The next level that binds more tightly. -/
def Level.tighter : Level → Level
  | .disjunction => .conjunction
  | .conjunction => .comparison
  | .comparison => .sum
  | .sum => .product
  | .product => .unary
  | .unary => .applied
  | .applied | .primary => .primary

/-- The level and the operator of a mark between two operands. -/
def operator? : Punct → Option (Level × BinaryOp)
  | .or => some (.disjunction, .or)
  | .and => some (.conjunction, .and)
  | .eq => some (.comparison, .eq)
  | .notEq => some (.comparison, .notEq)
  | .lt => some (.comparison, .lt)
  | .gt => some (.comparison, .gt)
  | .ltEq => some (.comparison, .ltEq)
  | .gtEq => some (.comparison, .gtEq)
  | .plus => some (.sum, .add)
  | .minus => some (.sum, .sub)
  | .pipe => some (.sum, .bitOr)
  | .tilde => some (.sum, .bitXor)
  | .star => some (.product, .mul)
  | .slash => some (.product, .div)
  | .percent => some (.product, .mod)
  | .ampersand => some (.product, .bitAnd)
  | .shiftLeft => some (.product, .shiftLeft)
  | .shiftRight => some (.product, .shiftRight)
  | _ => none

/-- The operator of a mark before an operand. -/
def sign? : Punct → Option UnaryOp
  | .plus => some .plus
  | .minus => some .neg
  | .tilde => some .bitNot
  | .not => some .not
  | _ => none

/-- The literal that a token stands for. -/
def literal? : Token.Kind → Option Literal
  | .integer value => some (.int value)
  | .float value => some (.float value)
  | .string value => some (.string value)
  | .char value => some (.char value)
  | .keyword .trueK => some (.bool true)
  | .keyword .falseK => some (.bool false)
  | _ => none

/-- Expressions of a level. -/
inductive Expression : Level → List Token.Kind → Expr → Prop
  | tighter {level : Level} {ks : List Token.Kind} {x : Expr} :
      Expression level.tighter ks x → Expression level ks x
  | binary {level : Level} {mark : Punct} {op : BinaryOp} {ks ks' : List Token.Kind} {left right : Expr} :
      operator? mark = some (level, op) → Expression level ks left → Expression level.tighter ks' right →
        Expression level (ks ++ .punct mark :: ks') (.binary op left right)
  | unary {mark : Punct} {op : UnaryOp} {ks : List Token.Kind} {operand : Expr} :
      sign? mark = some op → Expression .unary ks operand →
        Expression .unary (.punct mark :: ks) (.unary op operand)
  | index {ks ks' : List Token.Kind} {base position : Expr} :
      Expression .applied ks base → Expression .disjunction ks' position →
        Expression .applied (ks ++ brackets ks') (.index base position)
  | call {ks : List Token.Kind} {callee : Expr} :
      Expression .applied ks callee → Expression .applied (ks ++ parens []) (.call callee [])
  | callWith {ks ks' : List Token.Kind} {callee : Expr} {arguments : List Expr} :
      Expression .applied ks callee → Separated (Expression .disjunction) ks' arguments →
        Expression .applied (ks ++ parens ks') (.call callee arguments)
  | literal {k : Token.Kind} {value : Literal} :
      literal? k = some value → Expression .primary [k] (.literal value)
  | name {spelling : String} : Expression .primary [.identifier spelling] (.name spelling)
  | parenthesized {ks : List Token.Kind} {x : Expr} :
      Expression .disjunction ks x → Expression .primary (parens ks) x

/-! ## Types and declared names -/

/-- The qualifiers of a type. An array has at least one element. -/
inductive Qualifiers : List Token.Kind → List Qualifier → Prop
  | none : Qualifiers [] []
  | pointer {ks : List Token.Kind} {qs : List Qualifier} :
      Qualifiers ks qs → Qualifiers (.punct .caret :: ks) (.pointer :: qs)
  | array {length : Int32} {ks : List Token.Kind} {qs : List Qualifier} :
      0 < length.toInt → Qualifiers ks qs →
        Qualifiers (brackets [.integer length] ++ ks) (.array length.toInt.toNat :: qs)

/-- Types. -/
inductive WrittenType : List Token.Kind → TypeExpr → Prop
  | intro {name : String} {ks : List Token.Kind} {qs : List Qualifier} :
      Qualifiers ks qs → WrittenType (.identifier name :: ks) ⟨name, qs⟩

/-- Declared names. -/
inductive Declared : List Token.Kind → Declarator → Prop
  | bare {name : String} : Declared [.identifier name] { name }
  | valued {name : String} {ks : List Token.Kind} {value : Expr} :
      Expression .disjunction ks value →
        Declared (.identifier name :: .punct .assign :: ks) { name, init := some value }

/-- Parameters of functions. -/
inductive Formal : List Token.Kind → Parameter → Prop
  | intro {name : String} {ks : List Token.Kind} {ty : TypeExpr} :
      WrittenType ks ty → Formal (.identifier name :: .punct .colon :: ks) { name, ty }

/-- The parameters of a function. -/
inductive Formals : List Token.Kind → List Parameter → Prop
  | none : Formals [] []
  | some {ks : List Token.Kind} {ps : List Parameter} : Separated Formal ks ps → Formals ks ps

/-- The type of a function's result, which is `void` if none is written. -/
inductive Result : List Token.Kind → TypeExpr → Prop
  | missing : Result [] ⟨Primitive.void.name, []⟩
  | written {ks : List Token.Kind} {ty : TypeExpr} :
      WrittenType ks ty → Result (.punct .arrow :: ks) ty

/-! ## Statements -/

/-- Declarations. -/
inductive Declaration : List Token.Kind → Stmt → Prop
  | intro {ks ks' : List Token.Kind} {ty : TypeExpr} {ds : List Declarator} :
      WrittenType ks ty → Separated Declared ks' ds → Declaration (ks ++ ks') (.declare ty ds)

/-- Assignments. -/
inductive Assignment : List Token.Kind → Stmt → Prop
  | intro {ks ks' : List Token.Kind} {target value : Expr} :
      Expression .disjunction ks target → Expression .disjunction ks' value →
        Assignment (ks ++ .punct .assign :: ks') (.assign target value)

/-- What a `for` loop starts with. -/
inductive Start : List Token.Kind → Stmt → Prop
  | declaration {ks : List Token.Kind} {s : Stmt} : Declaration ks s → Start ks s
  | assignment {ks : List Token.Kind} {s : Stmt} : Assignment ks s → Start ks s

/-- Declarations, assignments and expressions, without a semicolon. -/
inductive Simple : List Token.Kind → Stmt → Prop
  | start {ks : List Token.Kind} {s : Stmt} : Start ks s → Simple ks s
  | expression {ks : List Token.Kind} {x : Expr} : Expression .disjunction ks x → Simple ks (.eval x)

/-- The same with their semicolon. -/
inductive SimpleStatement : List Token.Kind → Stmt → Prop
  | intro {ks : List Token.Kind} {s : Stmt} : Simple ks s → SimpleStatement (ks ++ [.punct .semicolon]) s

mutual

/-- Statements. -/
inductive Statement : List Token.Kind → Stmt → Prop
  | simple {ks : List Token.Kind} {s : Stmt} : SimpleStatement ks s → Statement ks s
  | compound {ks : List Token.Kind} {body : Block} : Compound ks body → Statement ks (.block body)
  | conditional {ks : List Token.Kind} {s : Stmt} : Conditional ks s → Statement ks s
  | whileLoop {ks ks' : List Token.Kind} {condition : Expr} {body : Block} :
      Expression .disjunction ks condition → Compound ks' body →
        Statement (.keyword .whileK :: (parens ks ++ ks')) (.whileLoop condition body)
  | doWhile {ks ks' : List Token.Kind} {body : Block} {condition : Expr} :
      Compound ks body → Expression .disjunction ks' condition →
        Statement (.keyword .doK :: (ks ++ .keyword .whileK :: (parens ks' ++ [.punct .semicolon])))
          (.doWhile body condition)
  | forLoop {ks₁ ks₂ ks₃ ks₄ : List Token.Kind} {init : Stmt} {condition : Expr} {step : Stmt} {body : Block} :
      Start ks₁ init → Expression .disjunction ks₂ condition → Assignment ks₃ step → Compound ks₄ body →
        Statement (.keyword .forK ::
            (parens (ks₁ ++ .punct .semicolon :: (ks₂ ++ .punct .semicolon :: ks₃)) ++ ks₄))
          (.forLoop init condition step body)
  | function {name : String} {ks₁ ks₂ ks₃ : List Token.Kind} {parameters : List Parameter}
      {result : TypeExpr} {body : Block} :
      Formals ks₁ parameters → Result ks₂ result → Compound ks₃ body →
        Statement (.keyword .fnK :: .identifier name :: (parens ks₁ ++ (ks₂ ++ ks₃)))
          (.function name parameters result body)
  | print {ks : List Token.Kind} {value : Expr} :
      Expression .disjunction ks value → Statement (.keyword .printK :: (ks ++ [.punct .semicolon])) (.print value)
  | input {ks : List Token.Kind} {target : Expr} :
      Expression .disjunction ks target →
        Statement (.keyword .inputK :: (ks ++ [.punct .semicolon])) (.input target)
  | breakLoop : Statement [.keyword .breakK, .punct .semicolon] .breakLoop
  | continueLoop : Statement [.keyword .continueK, .punct .semicolon] .continueLoop
  | returnNothing : Statement [.keyword .returnK, .punct .semicolon] (.returnValue none)
  | returnValue {ks : List Token.Kind} {value : Expr} :
      Expression .disjunction ks value →
        Statement (.keyword .returnK :: (ks ++ [.punct .semicolon])) (.returnValue (some value))

/-- `if` statements. An `else` takes a block or another `if`. -/
inductive Conditional : List Token.Kind → Stmt → Prop
  | ifThen {ks ks' : List Token.Kind} {condition : Expr} {body : Block} :
      Expression .disjunction ks condition → Compound ks' body →
        Conditional (.keyword .ifK :: (parens ks ++ ks')) (.ifThen condition body)
  | ifElse {ks ks' ks'' : List Token.Kind} {condition : Expr} {body otherwise : Block} :
      Expression .disjunction ks condition → Compound ks' body → Compound ks'' otherwise →
        Conditional (.keyword .ifK :: (parens ks ++ (ks' ++ .keyword .elseK :: ks'')))
          (.ifElse condition body (.block otherwise))
  | elseIf {ks ks' ks'' : List Token.Kind} {condition : Expr} {body : Block} {otherwise : Stmt} :
      Expression .disjunction ks condition → Compound ks' body → Conditional ks'' otherwise →
        Conditional (.keyword .ifK :: (parens ks ++ (ks' ++ .keyword .elseK :: ks'')))
          (.ifElse condition body otherwise)

/-- Blocks. -/
inductive Compound : List Token.Kind → Block → Prop
  | intro {ks : List Token.Kind} {statements : List Stmt} :
      Sequence ks statements → Compound (braces ks) { statements }

/-- Statements, one after another. -/
inductive Sequence : List Token.Kind → List Stmt → Prop
  | nil : Sequence [] []
  | cons {ks ks' : List Token.Kind} {statement : Stmt} {rest : List Stmt} :
      Statement ks statement → Sequence ks' rest → Sequence (ks ++ ks') (statement :: rest)

end

/-- Programs. One that consists of a single block is that block; any other statements become a block. -/
inductive Program : List Token.Kind → Block → Prop
  | compound {ks : List Token.Kind} {body : Block} : Compound ks body → Program ks body
  | sequence {ks : List Token.Kind} {statements : List Stmt} :
      Sequence ks statements → (∀ body, statements ≠ [.block body]) → Program ks { statements }

end MiniC.Grammar
