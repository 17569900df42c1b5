import Scriptlet.Token
import Scriptlet.Tree

/-!
# The grammar

Which kinds of tokens spell which tree. The rules are those of the language:

```
program := stmt*
stmt    := "let" "const"? "static"? type? NAME ("=" expr)? ";"
         | "let" "const"? "static"? "null" NAME ";"
         | NAME "=" expr ";" | NAME "[" expr "]" "=" expr ";" | ("++" | "--") NAME ";"
         | "if" "(" expr ")" block ("elif" "(" expr ")" block)* ("else" block)?
         | "while" "(" expr ")" block | "break" INT? ";" | "continue" ";"
         | "func" "inline"? "tail"? ("void" | type)? NAME "(" params? ")" block
         | "import" (STRING | NAME) ";" | "return" expr? ";" | "exit" ";" | "del" NAME ";"
         | block | expr ";"
block   := "{" stmt* "}"
expr    := or
or      := and ("||" and)*     and     := cmp ("&&" cmp)*    and so on for cmp, add and mul
unary   := ("-" | "!") unary | primary ("[" expr (":" expr)? "]")*
primary := INT | FLOAT | STRING | "true" | "false" | "null"
         | NAME "(" args? ")" | NAME | "(" expr ")" | "[" args? "]"
```

They are relations on kinds and know nothing of readers, positions and complaints; the operators
with their levels and the names of types are tables of their own (`BinaryOp.Spelled`, `Tag.Named`).
A repetition is read from the left: what is spelled by `("||" and)*` is a change of the expression
before it. The rules are ambiguous in one place, since two signs and a name are also an expression:
**a statement that starts with two minus signs is never an expression**.
-/

namespace Scriptlet

/-! ### Operators and types -/

/-- The symbol of a binary operator and the level at which the operator stands, of which there are
five. The operands of an operator are expressions of a higher level, so it binds more tightly. -/
inductive BinaryOp.Spelled : BinaryOp → (level : Nat) → Symbol → Prop where
  | or : Spelled .or 0 .or
  | and : Spelled .and 1 .and
  | equal : Spelled .equal 2 .equalEqual
  | notEqual : Spelled .notEqual 2 .bangEqual
  | less : Spelled (.compare .less) 2 .less
  | lessEqual : Spelled (.compare .lessEqual) 2 .lessEqual
  | greater : Spelled (.compare .greater) 2 .greater
  | greaterEqual : Spelled (.compare .greaterEqual) 2 .greaterEqual
  | add : Spelled .add 3 .plus
  | subtract : Spelled .subtract 3 .minus
  | multiply : Spelled .multiply 4 .star
  | divide : Spelled .divide 4 .slash

/-- The keyword that names a type. There is none for the type of null. -/
inductive Tag.Named : Tag → Keyword → Prop where
  | int : Named .int .int
  | float : Named .float .float
  | bool : Named .bool .bool
  | str : Named .str .str
  | list : Named .list .list
  | auto : Named .auto .auto

/-! ### Expressions -/

/-- A part of an expression together with its tree. -/
inductive Phrase where
  /-- An expression of a level. -/
  | level (level : Nat) (e : Expr)
  /-- Operators of a level and their operands, which turn one expression into another. -/
  | more (level : Nat) (left e : Expr)
  | unary (e : Expr)
  /-- Indices and stretches, which turn one expression into another. -/
  | items (e e' : Expr)
  | primary (e : Expr)
  /-- Expressions with commas between them and a closing symbol behind them. -/
  | args (close : Symbol) (es : List Expr)
  /-- Expressions with a comma before each. -/
  | moreArgs (es : List Expr)

/-- The symbol ends a list of expressions. -/
def Symbol.closes : Symbol → Bool
  | rightParen | rightBracket => true
  | _ => false

/-- Some kinds spell a part of an expression. -/
inductive Phrase.Spelled : Phrase → List Kind → Prop where
  | level {level : Nat} {left e : Expr} {ks ks' : List Kind} (hlevel : level < 5)
      (hleft : Spelled (.level (level + 1) left) ks) (hmore : Spelled (.more level left e) ks') :
      Spelled (.level level e) (ks ++ ks')
  | tightest {level : Nat} {e : Expr} {ks : List Kind} (hlevel : ¬level < 5)
      (h : Spelled (.unary e) ks) : Spelled (.level level e) ks
  | noOperator {level : Nat} {e : Expr} : Spelled (.more level e e) []
  | operator {level : Nat} {s : Symbol} {op : BinaryOp} {left right e : Expr}
      {ks ks' : List Kind} (hs : op.Spelled level s)
      (hright : Spelled (.level (level + 1) right) ks)
      (hmore : Spelled (.more level (.binary op left right) e) ks') :
      Spelled (.more level left e) (.symbol s :: (ks ++ ks'))
  | negate {e : Expr} {ks : List Kind} (h : Spelled (.unary e) ks) :
      Spelled (.unary (.unary .negate e)) (.symbol .minus :: ks)
  | not {e : Expr} {ks : List Kind} (h : Spelled (.unary e) ks) :
      Spelled (.unary (.unary .not e)) (.symbol .bang :: ks)
  | operand {e e' : Expr} {ks ks' : List Kind} (h : Spelled (.primary e) ks)
      (hitems : Spelled (.items e e') ks') : Spelled (.unary e') (ks ++ ks')
  | noItem {e : Expr} : Spelled (.items e e) []
  | index {e i e' : Expr} {ks ks' : List Kind} (hi : Spelled (.level 0 i) ks)
      (hitems : Spelled (.items (.index e i) e') ks') :
      Spelled (.items e e') (.symbol .leftBracket :: (ks ++ .symbol .rightBracket :: ks'))
  | slice {e i j e' : Expr} {ks ks' ks'' : List Kind} (hi : Spelled (.level 0 i) ks)
      (hj : Spelled (.level 0 j) ks') (hitems : Spelled (.items (.slice e i j) e') ks'') :
      Spelled (.items e e') (.symbol .leftBracket ::
        (ks ++ .symbol .colon :: (ks' ++ .symbol .rightBracket :: ks'')))
  | int (n : Int64) : Spelled (.primary (.int n)) [.int n]
  | float (x : Float) : Spelled (.primary (.float x)) [.float x]
  | str (s : String) : Spelled (.primary (.str s)) [.str s]
  | bool (b : Bool) : Spelled (.primary (.bool b)) [.bool b]
  | null : Spelled (.primary .null) [.keyword .null]
  | var (name : String) : Spelled (.primary (.var name)) [.name name]
  | call {name : String} {args : List Expr} {ks : List Kind}
      (hargs : Spelled (.args .rightParen args) ks) :
      Spelled (.primary (.call name args)) (.name name :: .symbol .leftParen :: ks)
  | paren {e : Expr} {ks : List Kind} (h : Spelled (.level 0 e) ks) :
      Spelled (.primary e) (.symbol .leftParen :: (ks ++ [.symbol .rightParen]))
  | list {items : List Expr} {ks : List Kind} (hitems : Spelled (.args .rightBracket items) ks) :
      Spelled (.primary (.list items)) (.symbol .leftBracket :: ks)
  | noArg {close : Symbol} (hclose : close.closes = true) :
      Spelled (.args close []) [.symbol close]
  | args {close : Symbol} {e : Expr} {es : List Expr} {ks ks' : List Kind}
      (hclose : close.closes = true) (h : Spelled (.level 0 e) ks)
      (hmore : Spelled (.moreArgs es) ks') :
      Spelled (.args close (e :: es)) (ks ++ (ks' ++ [.symbol close]))
  | noMoreArg : Spelled (.moreArgs []) []
  | moreArgs {e : Expr} {es : List Expr} {ks ks' : List Kind} (h : Spelled (.level 0 e) ks)
      (hmore : Spelled (.moreArgs es) ks') :
      Spelled (.moreArgs (e :: es)) (.symbol .comma :: (ks ++ ks'))

/-! ### Heads -/

/-- A keyword that may be left out. -/
def Keyword.optional (k : Keyword) (present : Bool) : List Kind :=
  if present then [.keyword k] else []

/-- Some kinds spell the type of a declaration. -/
inductive Tag.Spelled : Tag → List Kind → Prop where
  | omitted : Spelled .auto []
  | given {k : Keyword} {type : Tag} (h : type.Named k) : Spelled type [.keyword k]

/-- Some kinds spell what a function gives back. -/
inductive Returns.Spelled : Returns → List Kind → Prop where
  | void : Spelled .void [.keyword .void]
  | omitted : Spelled .any []
  | auto : Spelled .any [.keyword .auto]
  | typed {k : Keyword} {type : Tag} (h : type.Named k) (htype : type ≠ .auto) :
      Spelled (.typed type) [.keyword k]

/-- How parameters are spelled. -/
def paramKinds : List String → List Kind
  | [] => []
  | [param] => [.name param]
  | param :: params => .name param :: .symbol .comma :: paramKinds params

/-! ### Statements -/

/-- A part of a program that consists of statements. -/
inductive Clause where
  | stmt (s : Stmt)
  /-- What follows an `if` or `elif`: the condition, the body and the alternative. -/
  | condition (s : Stmt)
  | block (ss : List Stmt)
  | stmts (ss : List Stmt)

/-- Some kinds spell a part of a program. -/
inductive Clause.Spelled : Clause → List Kind → Prop where
  | declare (isConst isStatic : Bool) {type : Tag} {name : String} {ks : List Kind}
      (htype : type.Spelled ks) :
      Spelled (.stmt (.declare isConst type name none))
        (.keyword .let_ :: (Keyword.optional .const isConst ++ (Keyword.optional .static isStatic ++
          (ks ++ [.name name, .symbol .semicolon]))))
  | initialise (isConst isStatic : Bool) {type : Tag} {name : String} {e : Expr}
      {ks ks' : List Kind} (htype : type.Spelled ks) (h : Phrase.Spelled (.level 0 e) ks') :
      Spelled (.stmt (.declare isConst type name (some e)))
        (.keyword .let_ :: (Keyword.optional .const isConst ++ (Keyword.optional .static isStatic ++
          (ks ++ .name name :: .symbol .equal :: (ks' ++ [.symbol .semicolon])))))
  | declareNull (isConst isStatic : Bool) {name : String} :
      Spelled (.stmt (.declare isConst .auto name none))
        (.keyword .let_ :: (Keyword.optional .const isConst ++ (Keyword.optional .static isStatic ++
          [.keyword .null, .name name, .symbol .semicolon])))
  | assign {name : String} {value : Expr} {ks : List Kind}
      (h : Phrase.Spelled (.level 0 value) ks) :
      Spelled (.stmt (.assign name value))
        (.name name :: .symbol .equal :: (ks ++ [.symbol .semicolon]))
  | assignAt {name : String} {i value : Expr} {ks ks' : List Kind}
      (hi : Phrase.Spelled (.level 0 i) ks) (h : Phrase.Spelled (.level 0 value) ks') :
      Spelled (.stmt (.assignAt name i value))
        (.name name :: .symbol .leftBracket ::
          (ks ++ .symbol .rightBracket :: .symbol .equal :: (ks' ++ [.symbol .semicolon])))
  | increment {name : String} :
      Spelled (.stmt (.step .add name))
        [.symbol .plus, .symbol .plus, .name name, .symbol .semicolon]
  | decrement {name : String} :
      Spelled (.stmt (.step .subtract name))
        [.symbol .minus, .symbol .minus, .name name, .symbol .semicolon]
  | ifElse {s : Stmt} {ks : List Kind} (h : Spelled (.condition s) ks) :
      Spelled (.stmt s) (.keyword .if_ :: ks)
  | whileLoop {condition : Expr} {body : List Stmt} {ks ks' : List Kind}
      (h : Phrase.Spelled (.level 0 condition) ks) (hbody : Spelled (.block body) ks') :
      Spelled (.stmt (.whileLoop condition body))
        (.keyword .while_ :: .symbol .leftParen :: (ks ++ .symbol .rightParen :: ks'))
  | breakOne : Spelled (.stmt (.breakLoop 1)) [.keyword .break_, .symbol .semicolon]
  | breakLoop (n : Int64) :
      Spelled (.stmt (.breakLoop n.toInt.toNat)) [.keyword .break_, .int n, .symbol .semicolon]
  | continueLoop : Spelled (.stmt .continueLoop) [.keyword .continue_, .symbol .semicolon]
  | function (isInline : Bool) {head : Head} {body : List Stmt} {ks ks' : List Kind}
      (hreturns : head.returns.Spelled ks) (hbody : Spelled (.stmts body) ks') :
      Spelled (.stmt (.function head body))
        (.keyword .func :: (Keyword.optional .inline isInline ++
          (Keyword.optional .tail head.isTail ++ (ks ++ .name head.name :: .symbol .leftParen ::
            (paramKinds head.params ++ .symbol .rightParen :: .symbol .leftBrace ::
              (ks' ++ [.symbol .rightBrace]))))))
  | giveBackNone : Spelled (.stmt (.giveBack none)) [.keyword .return_, .symbol .semicolon]
  | giveBack {value : Expr} {ks : List Kind} (h : Phrase.Spelled (.level 0 value) ks) :
      Spelled (.stmt (.giveBack (some value))) (.keyword .return_ :: (ks ++ [.symbol .semicolon]))
  | exit : Spelled (.stmt .exit) [.keyword .exit, .symbol .semicolon]
  | unset {name : String} :
      Spelled (.stmt (.unset name)) [.keyword .del, .name name, .symbol .semicolon]
  | usesName {target : String} :
      Spelled (.stmt (.uses target)) [.keyword .import_, .name target, .symbol .semicolon]
  | usesText {target : String} :
      Spelled (.stmt (.uses target)) [.keyword .import_, .str target, .symbol .semicolon]
  | nested {body : List Stmt} {ks : List Kind} (hbody : Spelled (.block body) ks) :
      Spelled (.stmt (.block body)) ks
  | eval {e : Expr} {ks : List Kind} (h : Phrase.Spelled (.level 0 e) ks)
      (hstep : ¬[.symbol .minus, .symbol .minus] <+: ks) :
      Spelled (.stmt (.eval e)) (ks ++ [.symbol .semicolon])
  | noElse {c : Expr} {body : List Stmt} {ks ks' : List Kind}
      (h : Phrase.Spelled (.level 0 c) ks) (hbody : Spelled (.block body) ks') :
      Spelled (.condition (.ifElse c body []))
        (.symbol .leftParen :: (ks ++ .symbol .rightParen :: ks'))
  | elseIf {c : Expr} {body : List Stmt} {next : Stmt} {ks ks' ks'' : List Kind}
      (h : Phrase.Spelled (.level 0 c) ks) (hbody : Spelled (.block body) ks')
      (hnext : Spelled (.condition next) ks'') :
      Spelled (.condition (.ifElse c body [next]))
        (.symbol .leftParen :: (ks ++ .symbol .rightParen :: (ks' ++ .keyword .elif :: ks'')))
  | orElse {c : Expr} {body last : List Stmt} {ks ks' ks'' : List Kind}
      (h : Phrase.Spelled (.level 0 c) ks) (hbody : Spelled (.block body) ks')
      (hlast : Spelled (.block last) ks'') :
      Spelled (.condition (.ifElse c body [.block last]))
        (.symbol .leftParen :: (ks ++ .symbol .rightParen :: (ks' ++ .keyword .else_ :: ks'')))
  | block {body : List Stmt} {ks : List Kind} (hbody : Spelled (.stmts body) ks) :
      Spelled (.block body) (.symbol .leftBrace :: (ks ++ [.symbol .rightBrace]))
  | nil : Spelled (.stmts []) []
  | cons {s : Stmt} {ss : List Stmt} {ks ks' : List Kind} (h : Spelled (.stmt s) ks)
      (hs : Spelled (.stmts ss) ks') : Spelled (.stmts (s :: ss)) (ks ++ ks')

/-- Some kinds spell a program. -/
def Program.Spelled (p : Program) (ks : List Kind) : Prop :=
  Clause.Spelled (.stmts p) ks

end Scriptlet
