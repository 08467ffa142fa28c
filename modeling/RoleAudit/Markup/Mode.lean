import RoleAudit.Markup.Scanner

/-!
# Modes of lexing

Which scanner reads the next piece of a source depends on the pieces before it,
through a stack of modes.  `<` opens a tag; the `>` of an opening tag turns the
text after it into prose, the `>` of a closing tag ends that prose, and `/>`
goes back to what surrounds the tag.  A brace opens code until the brace that
closes it.  An empty stack reads code.

`trace` records every bite with the stack before and after it; `lexemes` is
what the trace keeps: the tokens, without those of blank prose.
-/

namespace RoleAudit.Markup

open RoleAudit.Text (Span)

/-- What a tag has shown so far. -/
structure TagState where
  /-- Whether nothing has been read since the `<`. -/
  fresh : Bool := true
  /-- Whether a slash came right after the `<`. -/
  closing : Bool := false
  /-- Whether the last token was a slash. -/
  afterSlash : Bool := false
  deriving DecidableEq, Repr

/-- The contexts in which text is read. -/
inductive Mode where
  | tag (state : TagState)
  | code
  | prose
  deriving DecidableEq, Repr

namespace TagState

/-- The state of a tag after one more token that does not end it. -/
def next (state : TagState) (token : Token) : TagState where
  fresh := false
  closing := state.closing || (state.fresh && token = .slash)
  afterSlash := token = .slash

end TagState

/-- A stack of modes, the innermost first. -/
abbrev Modes := List Mode

namespace Modes

/-- The scanner for the next piece. -/
def scanner : Modes → Scanner
  | .prose :: _ => .prose
  | .tag _ :: _ => .tag
  | _ => .code

/-- The stack after the `>` of a tag that the stack `outer` surrounds. -/
def afterTag (state : TagState) (outer : Modes) : Modes :=
  if state.closing then
    match outer with
    | .prose :: below => below
    | _ => outer
  else if state.afterSlash then outer
  else .prose :: outer

/-- The stack after a token. -/
def after : Modes → Token → Modes
  | .tag state :: outer, .greater => afterTag state outer
  | .tag state :: outer, .openBrace => .code :: .tag (state.next .openBrace) :: outer
  | .tag state :: outer, token => .tag (state.next token) :: outer
  | .prose :: outer, .closeBrace => .prose :: outer
  | modes, .less => .tag {} :: modes
  | modes, .openBrace => .code :: modes
  | modes, .closeBrace => modes.tail
  | modes, _ => modes

end Modes

/-- One bite of the lexing of a source, with the modes around it. -/
structure Step where
  before : Modes
  token : Option Token
  span : Span
  after : Modes
  deriving DecidableEq, Repr

namespace Step

/-- Whether a token is a run of prose that holds no character but blanks. -/
def isBlankProse : Token → Bool
  | .prose text => text.toList.all Text.isBlank
  | _ => false

/-- The lexeme of a step, unless the piece means nothing. -/
def lexeme? (step : Step) : Option Lexeme :=
  match step.token with
  | some token => if isBlankProse token then none else some ⟨token, step.span⟩
  | none => none

end Step

/-- The steps of lexing a text that starts at `offset` under a stack of modes. -/
def traceFrom (modes : Modes) (offset : Nat) (text : List Char) : List Step :=
  match _h : modes.scanner.bite text with
  | none => []
  | some b =>
      let next := match b.token with
        | some token => modes.after token
        | none => modes
      ⟨modes, b.token, ⟨offset, offset + b.width⟩, next⟩ ::
        traceFrom next (offset + b.width) b.rest
termination_by text.length
decreasing_by exact modes.scanner.shorter _h

/-- The steps of lexing a source. -/
def trace (source : String) : List Step :=
  traceFrom [] 0 source.toList

/-- The lexemes of a source. -/
def lexemes (source : String) : List Lexeme :=
  (trace source).filterMap Step.lexeme?

/-- The stack of modes at the end of a source. -/
def finalModes (source : String) : Modes :=
  ((trace source).getLast?.map Step.after).getD []

end RoleAudit.Markup
