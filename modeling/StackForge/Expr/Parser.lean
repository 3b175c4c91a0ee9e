import StackForge.Expr
import StackForge.Token.Lexer

/-!
Parsing bodies. A parser takes the words that are left. It either gives a value and the rest, or
a fault that stands at the first word of the rest. A rest never has more words than there were,
and fewer after a value.

    sum     = product { ("+" | "-") product }
    product = unary { ("*" | "/") unary }
    unary   = "-" unary | postfix
    postfix = primary { "." name arguments | "?" }
    primary = number | name [ arguments ] | "(" sum ")"
    arguments = "(" [ sum { "," sum } [ "," ] ] ")"

After a faulty statement of a block the parser goes on behind the next semicolon, or at the next
word that starts a statement.
-/
namespace StackForge

open Token (Kind)

/-- The outcome of a parser on fewer than `bound` words. -/
inductive Parse (α : Type) (bound : Nat) where
  | ok (value : α) (rest : List Token) (fits : rest.length < bound)
  | fail (fault : SyntaxFault) (rest : List Token) (fits : rest.length ≤ bound)

namespace Parse

/-- Go on with the value; an outcome on fewer words is one on more. -/
def map {α β : Type} {n m : Nat} (f : α → β) (h : n ≤ m) : Parse α n → Parse β m
  | .ok a rest fits => .ok (f a) rest (Nat.lt_of_lt_of_le fits h)
  | .fail fault rest fits => .fail fault rest (Nat.le_trans fits h)

/-- The value and the rest, if there is a value. -/
def value? {α : Type} {n : Nat} : Parse α n → Option (α × List Token)
  | .ok a rest _ => some (a, rest)
  | .fail _ _ _ => none

end Parse

/-- The kind of the first word; nothing left counts as the end. -/
def headKind : List Token → Kind
  | [] => .eof
  | t :: _ => t.kind

/-- The place of the first word. -/
def headSpan : List Token → Span
  | [] => Span.point 1 1
  | t :: _ => t.span

namespace Expr

/-- The closing parenthesis, with its place. -/
def parseClose (ts : List Token) : Parse Span ts.length :=
  match ts with
  | t :: rest =>
    if t.kind = .rparen then .ok t.span rest (by simp)
    else .fail (.expected .rparen t.kind) (t :: rest) (by simp)
  | [] => .fail (.expected .rparen .eof) [] (by simp)

/-- The additive operator a word stands for. -/
def sumOp? : Kind → Option BinOp
  | .plus => some .add
  | .minus => some .sub
  | _ => none

/-- The multiplicative operator a word stands for. -/
def productOp? : Kind → Option BinOp
  | .star => some .mul
  | .slash => some .div
  | _ => none

mutual

def parseSum (ts : List Token) : Parse Expr ts.length :=
  match parseProduct ts with
  | .fail f rest fits => .fail f rest fits
  | .ok left rest fits => (parseSumTail left rest).map id (by omega)
  termination_by 8 * ts.length + 6

/-- The operands after the first, joined from the left. -/
def parseSumTail (left : Expr) (ts : List Token) : Parse Expr (ts.length + 1) :=
  match ts with
  | [] => .ok left [] (by simp)
  | t :: rest =>
    match sumOp? t.kind with
    | none => .ok left (t :: rest) (by simp)
    | some op =>
      match parseProduct rest with
      | .fail f rest' fits => .fail f rest' (by simp; omega)
      | .ok right rest' fits =>
        (parseSumTail (join op left right) rest').map id (by simp; omega)
  termination_by 8 * ts.length

def parseProduct (ts : List Token) : Parse Expr ts.length :=
  match parseUnary ts with
  | .fail f rest fits => .fail f rest fits
  | .ok left rest fits => (parseProductTail left rest).map id (by omega)
  termination_by 8 * ts.length + 5

def parseProductTail (left : Expr) (ts : List Token) : Parse Expr (ts.length + 1) :=
  match ts with
  | [] => .ok left [] (by simp)
  | t :: rest =>
    match productOp? t.kind with
    | none => .ok left (t :: rest) (by simp)
    | some op =>
      match parseUnary rest with
      | .fail f rest' fits => .fail f rest' (by simp; omega)
      | .ok right rest' fits =>
        (parseProductTail (join op left right) rest').map id (by simp; omega)
  termination_by 8 * ts.length

def parseUnary (ts : List Token) : Parse Expr ts.length :=
  match ts with
  | [] => parsePostfix []
  | t :: rest =>
    if t.kind = .minus then
      (parseUnary rest).map (fun e => .neg e (t.span.merge e.span)) (by simp)
    else parsePostfix (t :: rest)
  termination_by 8 * ts.length + 4

def parsePostfix (ts : List Token) : Parse Expr ts.length :=
  match parsePrimary ts with
  | .fail f rest fits => .fail f rest fits
  | .ok e rest fits => (parsePostfixTail e rest).map id (by omega)
  termination_by 8 * ts.length + 3

/-- Method calls and failure marks behind an expression. -/
def parsePostfixTail (e : Expr) (ts : List Token) : Parse Expr (ts.length + 1) :=
  match ts with
  | [] => .ok e [] (by simp)
  | t :: rest =>
    if t.kind = .question then
      (parsePostfixTail (.attempt e (e.span.merge t.span)) rest).map id (by simp)
    else if t.kind = .dot then
      match rest with
      | [] => .fail (.expectedIdentifier .eof) [] (by simp)
      | n :: rest' =>
        match n.kind with
        | .identifier name =>
          if headKind rest' = .lparen then
            match parseArgs rest' with
            | .fail f r fits => .fail f r (by simp; omega)
            | .ok (args, close) r fits =>
              (parsePostfixTail (.method e ⟨name, n.span⟩ args (e.span.merge close)) r).map id
                (by simp; omega)
          else .fail (.fieldAccess name) rest' (by simp; omega)
        | other => .fail (.expectedIdentifier other) (n :: rest') (by simp)
    else .ok e (t :: rest) (by simp)
  termination_by 8 * ts.length

def parsePrimary (ts : List Token) : Parse Expr ts.length :=
  match ts with
  | [] => .fail (.expectedExpression .eof) [] (by simp)
  | t :: rest =>
    match t.kind with
    | .number value => .ok (.number value t.span) rest (by simp)
    | .identifier name =>
      if headKind rest = .lparen then
        (parseArgs rest).map
          (fun (args, close) => .call ⟨name, t.span⟩ args (t.span.merge close)) (by simp)
      else .ok (.var ⟨name, t.span⟩) rest (by simp)
    | .lparen =>
      match parseSum rest with
      | .fail f rest' fits => .fail f rest' (by simp; omega)
      | .ok inner rest' fits =>
        (parseClose rest').map (fun close => .paren inner (t.span.merge close)) (by simp; omega)
    | other => .fail (.expectedExpression other) (t :: rest) (by simp)
  termination_by 8 * ts.length + 2

/-- Arguments in parentheses, with the place of the closing one. -/
def parseArgs (ts : List Token) : Parse (List Expr × Span) ts.length :=
  match ts with
  | [] => .fail (.expected .lparen .eof) [] (by simp)
  | t :: rest =>
    if t.kind = .lparen then (parseArgsTail rest).map id (by simp)
    else .fail (.expected .lparen t.kind) (t :: rest) (by simp)
  termination_by 8 * ts.length + 1

/-- The arguments from here on and the closing parenthesis. -/
def parseArgsTail (ts : List Token) : Parse (List Expr × Span) ts.length :=
  if headKind ts = .rparen || headKind ts = .eof then (parseClose ts).map (([], ·)) (by simp)
  else
    match parseSum ts with
    | .fail f rest fits => .fail f rest fits
    | .ok e rest fits =>
      match rest with
      | [] => .fail (.expected .rparen .eof) [] (by simp)
      | t :: rest' =>
        have : rest'.length < ts.length := by simp at fits; omega
        if t.kind = .comma then
          (parseArgsTail rest').map (fun (args, close) => (e :: args, close)) (by omega)
        else (parseClose (t :: rest')).map (([e], ·)) (by omega)
  termination_by 8 * ts.length + 7

end

/-- Parse a text as one expression. There is none if parsing stopped; words after it are an
error. -/
def parse (src : Source) : Option Expr × Log :=
  let (tokens, log) := Token.lex src
  match parseSum tokens with
  | .fail fault rest _ => (none, log.push (fault.diagnostic src (headSpan rest)))
  | .ok e rest _ =>
    let kind := headKind rest
    if kind = .eof then (some e, log)
    else (some e, log.push ((SyntaxFault.trailing kind).diagnostic src (headSpan rest)))

end Expr

namespace Stmt

/-- An equals sign and an expression. -/
def parseValue (ts : List Token) : Parse Expr ts.length :=
  match ts with
  | [] => .fail (.expected .eq .eof) [] (by simp)
  | t :: rest =>
    if t.kind = .eq then (Expr.parseSum rest).map id (by simp)
    else .fail (.expected .eq t.kind) (t :: rest) (by simp)

/-- The statement that starts with this word, or nothing if none does. -/
def parse? (t : Token) (ts : List Token) : Option (Parse Stmt ts.length) :=
  match t.kind with
  | .letWord =>
    match ts with
    | [] => some (.fail (.expectedIdentifier .eof) [] (by simp))
    | n :: rest =>
      match n.kind with
      | .identifier name =>
        some ((parseValue rest).map
          (fun e => .bind ⟨name, n.span⟩ e (t.span.merge e.span)) (by simp))
      | other => some (.fail (.expectedIdentifier other) (n :: rest) (by simp))
  | .returnWord =>
    some ((Expr.parseSum ts).map (fun e => .ret e (t.span.merge e.span)) (by simp))
  | .identifier name =>
    if headKind ts = .eq then
      some ((parseValue ts).map
        (fun e => .assign ⟨name, t.span⟩ e (t.span.merge e.span)) (by simp))
    else none
  | _ => none

end Stmt

namespace Block

/-- The words from which to go on after a fault: behind the next semicolon, or at the next word
that starts a statement. -/
def recover : List Token → List Token
  | [] => []
  | t :: rest =>
    match t.kind with
    | .eof | .letWord | .returnWord => t :: rest
    | .semicolon => rest
    | _ => recover rest

theorem length_recover_le (ts : List Token) : (recover ts).length ≤ ts.length := by
  induction ts with
  | nil => simp [recover]
  | cons t rest ih =>
    unfold recover
    split <;> simp
    omega

/-- All statements up to the end, with what was wrong, and the words left when the log is full. -/
def parseStmts (src : Source) (log : Log) : List Token → List Stmt × Log × List Token
  | [] => ([], log, [])
  | t :: rest =>
    if t.kind = .eof || log.isFull then ([], log, t :: rest)
    else
      have := length_recover_le rest
      match Stmt.parse? t rest with
      | none =>
        let log := log.push ((SyntaxFault.expectedStatement t.kind).diagnostic src t.span)
        if t.kind = .semicolon then parseStmts src log rest else parseStmts src log (recover rest)
      | some (.fail fault rest' _) =>
        have := length_recover_le rest'
        let log := log.push (fault.diagnostic src (headSpan rest'))
        parseStmts src log (recover rest')
      | some (.ok stmt rest' _) =>
        have := length_recover_le rest'
        let kind := headKind rest'
        let (stmts, outcome) :=
          if kind = .semicolon then parseStmts src log rest'.tail
          else if kind = .eof then parseStmts src log rest'
          else
            let fault := SyntaxFault.expected .semicolon kind
            parseStmts src (log.push (fault.diagnostic src (headSpan rest'))) (recover rest')
        (stmt :: stmts, outcome)
  termination_by ts => ts.length

/-- The place of the word before the rest. -/
def lastSpan (tokens rest : List Token) : Span :=
  match (tokens.take (tokens.length - rest.length)).getLast? with
  | some t => t.span
  | none => Span.point 1 1

/-- Parse words as a block, adding to what was already wrong with them. -/
def ofTokens (src : Source) (log : Log) (tokens : List Token) : Block × Log :=
  let (stmts, log, rest) := parseStmts src log tokens
  let span :=
    if stmts.isEmpty then Span.point 1 1
    else (headSpan tokens).merge (lastSpan tokens rest)
  (⟨stmts, span⟩, log)

/-- Parse a text as a block. There is always a block, made of the statements that could be
read. -/
def parse (src : Source) : Block × Log :=
  let (tokens, log) := Token.lex src
  ofTokens src log tokens

end Block
end StackForge
