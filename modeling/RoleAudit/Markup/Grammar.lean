import RoleAudit.Markup.Reader

/-!
# The grammar of documents

```text
document  = element*
element   = "<" name tagItem* "/" ">"
          | "<" name? tagItem* ">" child* "<" "/" name? ">"
name      = word (":" word | ("." word)+)?
tagItem   = word (":" word)? ("=" (quoted | container))?
          | "{" "..." balanced* "}"
child     = element | container | prose
container = "{" (expression | balanced*) "}"
balanced  = "{" balanced* "}" | any token but a brace
```

A container holds an expression if one reaches up to the closing brace; failing
that it is skipped as a balanced group.  The names of the two tags of an element
are equal.

The readers of elements and of expressions need each other.  Each is defined
from readers for what is nested in it, and the two are tied together by a bound
on the depth of nesting.  What is nested is shorter than what it is nested in,
so the number of lexemes is always bound enough.
-/

namespace RoleAudit.Markup.Grammar

open RoleAudit.Text (Span)
open Reader

/-- A name of one part. -/
def word : Reader (String × Span) :=
  accept fun
    | .word text => some text
    | _ => none

/-- A name of an element. -/
def name : Reader Name := do
  let (first, _) ← word
  let namespaced : Reader Name := do
    let _ ← token .colon
    let (second, _) ← word
    return .namespaced first second
  let member : Reader Name := do
    let parts ← many1 do
      let _ ← token .dot
      word
    return .member (first :: parts.map Prod.fst)
  let longer ← optional (namespaced <|> member)
  return longer.getD (.plain first)

/-- One token, or one group in braces, with at most `depth` groups in one another. -/
def balancedTo : Nat → Reader Unit
  | 0, ts => refuse .unexpected ts
  | depth + 1, ts =>
      let group : Reader Unit := do
        let _ ← token .openBrace
        let _ ← many (balancedTo depth)
        let _ ← token .closeBrace
      let single : Reader Unit := do
        let _ ← accept fun t => if t.isBrace then none else some ()
      (group <|> single) ts

/-- One token, or one group in braces. -/
def balanced : Reader Unit := fun ts =>
  balancedTo (ts.length + 1) ts

/-- The literal or the name that a token is by itself. -/
def literal? : Token → Option Expr
  | .quoted value => some (.quoted value)
  | .template value => some (.template value)
  | .number text => some (.number text)
  | .boolean value => some (.boolean value)
  | .null => some .null
  | .word text => some (.name text)
  | _ => none

/-- The operator that a token is before an operand. -/
def unaryOp? : Token → Option UnaryOp
  | .bang => some .not
  | .minus => some .negate
  | .plus => some .plus
  | _ => none

/-- How a token joins the operands of a sum or a difference. -/
def sumOp? : Token → Option (Expr → Expr → Expr)
  | .plus => some (.binary .add)
  | .minus => some (.binary .subtract)
  | _ => none

/-- How a token joins the operands of a comparison. -/
def comparisonOp? : Token → Option (Expr → Expr → Expr)
  | .operator text => some (.binary (.other text))
  | _ => none

/-- How a token joins the operands of a conjunction. -/
def conjunctionOp? : Token → Option (Expr → Expr → Expr)
  | .and => some (.logical .and)
  | _ => none

/-- How a token joins the operands of a disjunction. -/
def disjunctionOp? : Token → Option (Expr → Expr → Expr)
  | .or => some (.logical .or)
  | .coalesce => some (.logical .coalesce)
  | _ => none

section Expressions

variable (element : Reader Element) (expr : Reader Expr)

/-- A literal or a name. -/
def literal : Reader Expr := do
  let (value, _) ← accept literal?
  return value

/-- An operand that no operator is part of. -/
def atom : Reader Expr :=
  let grouped : Reader Expr := do
    let _ ← token .openParen
    let inner ← expr
    let _ ← token .closeParen
    return inner
  literal <|> grouped <|> (do return Expr.element (← element))

/-- The arguments of a call in their parentheses.  A comma may follow the last. -/
def arguments : Reader (List Expr) := do
  let _ ← token .openParen
  let first ← optional expr
  let all ← match first with
    | none => pure []
    | some first => do
        let others ← many do
          let _ ← token .comma
          expr
        let _ ← optional (token .comma)
        pure (first :: others)
  let _ ← token .closeParen
  return all

/-- What may follow an operand: a property or the arguments of a call. -/
def suffix : Reader (Expr → Expr) :=
  let property : Reader (Expr → Expr) := do
    let _ ← token .dot
    let (name, _) ← word
    return fun object => .member object name
  property <|> (do
    let all ← arguments expr
    return fun callee => .call callee all)

/-- An operand with the properties and calls after it, which group to the left. -/
def postfixed : Reader Expr := do
  let first ← atom element expr
  let suffixes ← many (suffix expr)
  return suffixes.foldl (fun object apply => apply object) first

/-- The operators before an operand. -/
def unaryOp : Reader UnaryOp := do
  let (op, _) ← accept unaryOp?
  return op

/-- An operand with the operators before it, which group to the right. -/
def unary : Reader Expr := do
  let ops ← many unaryOp
  let operand ← postfixed element expr
  return ops.foldr Expr.unary operand

/-- An operator and the operand after it. -/
def joined (operand : Reader Expr) (join? : Token → Option (Expr → Expr → Expr)) :
    Reader ((Expr → Expr → Expr) × Expr) := do
  let (join, _) ← accept join?
  let right ← operand
  return (join, right)

/-- Operands with operators of one level between them, which group to the left. -/
def level (operand : Reader Expr) (join? : Token → Option (Expr → Expr → Expr)) :
    Reader Expr := do
  let first ← operand
  let others ← many (joined operand join?)
  return others.foldl (fun left next => next.1 left next.2) first

/-- Sums and differences. -/
def additive : Reader Expr :=
  level (unary element expr) sumOp?

/-- Comparisons, and whatever else is spelled as one operator. -/
def comparison : Reader Expr :=
  level (additive element expr) comparisonOp?

/-- Conjunctions. -/
def conjunction : Reader Expr :=
  level (comparison element expr) conjunctionOp?

/-- Disjunctions, of either kind. -/
def disjunction : Reader Expr :=
  level (conjunction element expr) disjunctionOp?

/-- An expression, given how to read the elements and the expressions nested in it. -/
def exprWith : Reader Expr := do
  let test ← disjunction element expr
  let branches ← optional do
    let _ ← token .question
    let yes ← expr
    let _ ← token .colon
    let no ← expr
    return (yes, no)
  return match branches with
    | none => test
    | some (yes, no) => .conditional test yes no

end Expressions

section Elements

variable (element : Reader Element) (expr : Reader Expr)

/-- What stands in a pair of braces, up to the closing one. -/
def content : Reader Content :=
  let covered : Reader Content := do
    let inner ← expr
    let _ ← ahead (token .closeBrace)
    return .expr inner
  let skipped : Reader Content := do
    let _ ← many1 balanced
    return .other
  covered <|> skipped <|> pure .empty

/-- A pair of braces with what stands in it. -/
def container : Reader Container := do
  let left ← token .openBrace
  let inner ← content expr
  let right ← token .closeBrace
  return ⟨inner, ⟨left.start, right.stop⟩⟩

/-- The value of an attribute. -/
def attributeValue : Reader AttributeValue :=
  let quoted : Reader AttributeValue := do
    let (value, span) ← accept fun
      | .quoted value => some value
      | _ => none
    return .quoted value span
  quoted <|> (do return .braced (← container expr))

/-- An attribute that is written out. -/
def writtenAttribute : Reader Attribute := do
  let (first, firstSpan) ← word
  let second ← optional do
    let _ ← token .colon
    word
  let value ← optional do
    let _ ← token .equals
    attributeValue expr
  let nameStop := (second.map fun part => part.2.stop).getD firstSpan.stop
  let stop := (value.map fun v => v.span.stop).getD nameStop
  return match second with
    | none => ⟨none, first, value, ⟨firstSpan.start, stop⟩⟩
    | some (name, _) => ⟨some first, name, value, ⟨firstSpan.start, stop⟩⟩

/-- Attributes that are spread from a value. -/
def spread : Reader Span := do
  let left ← token .openBrace
  let _ ← token .spread
  let _ ← many balanced
  let right ← token .closeBrace
  return ⟨left.start, right.stop⟩

/-- What a tag holds after its name. -/
def tagItem : Reader TagItem :=
  (do return .plain (← writtenAttribute expr)) <|> (do return .spread (← spread))

/-- What stands between an opening and a closing tag. -/
def child : Reader Child :=
  let prose : Reader Child := do
    let (_, span) ← accept fun
      | .prose _ => some ()
      | _ => none
    return .prose span
  (do return .element (← element)) <|> (do return .braced (← container expr)) <|> prose

/-- A closing tag, with the name in it. -/
def closingTag : Reader (Name × Span) := do
  let left ← token .less
  let _ ← token .slash
  let closed ← optional name
  let right ← token .greater
  return (closed.getD .fragment, ⟨left.start, right.stop⟩)

/-- An element, given how to read the elements and the expressions nested in it. -/
def elementWith : Reader Element := do
  let left ← token .less
  let written ← optional name
  let items ← many (tagItem expr)
  let opened := written.getD .fragment
  let single : Reader Element := do
    if written.isNone then refuse .unexpected
    let _ ← token .slash
    let right ← token .greater
    return .single ⟨opened, items, ⟨left.start, right.stop⟩⟩
  let pair : Reader Element := do
    let right ← token .greater
    let children ← many (child element expr)
    let (closed, closing) ← closingTag
    if opened = closed then
      return .pair ⟨opened, items, ⟨left.start, right.stop⟩⟩ children closing
    else
      refuse (.mismatch opened closed ⟨closing.start, max closing.start closing.stop⟩)
  single <|> pair

end Elements

mutual

/-- An element with at most `depth` levels of nesting. -/
def elementTo : Nat → Reader Element
  | 0, ts => refuse .unexpected ts
  | depth + 1, ts => elementWith (elementTo depth) (exprTo depth) ts

/-- An expression with at most `depth` levels of nesting. -/
def exprTo : Nat → Reader Expr
  | 0, ts => refuse .unexpected ts
  | depth + 1, ts => exprWith (elementWith (elementTo depth) (exprTo depth)) (exprTo depth) ts

end

/-- A document whose elements have at most `depth` levels of nesting. -/
def documentTo (depth : Nat) : Reader Document := do
  let elements ← many (elementTo depth)
  let _ ← atEnd
  return ⟨elements⟩

/-- A document, which takes up all lexemes. -/
def document : Reader Document := fun ts =>
  documentTo (ts.length + 1) ts

end RoleAudit.Markup.Grammar
