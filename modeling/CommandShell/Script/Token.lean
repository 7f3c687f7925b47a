import CommandShell.Script.Tree

/-!
# Tokens

What the text of a script is cut into before commands are recognised: words, operators,
redirection operators with the number written before them, newlines, and the end of the input.
-/

namespace CommandShell.Script

/-- The kinds of tokens. -/
inductive TokenKind where
  | word (w : Word)
  | semi | doubleSemi | amp | andIf | orIf | pipe | leftParen | rightParen | newline
  /-- A redirection operator, with the descriptor written before it. -/
  | redirect (fd : Option Nat) (op : RedirectOp)
  | endOfInput

/-- A token and the line it starts on. -/
structure Token where
  kind : TokenKind
  line : Nat

namespace TokenKind

/-- The token as error messages show it. -/
def describe : TokenKind → Text
  | word w => '"' :: w.text ++ "\""
  | semi => "\";\""
  | doubleSemi => "\";;\""
  | amp => "\"&\""
  | andIf => "\"&&\""
  | orIf => "\"||\""
  | pipe => "\"|\""
  | leftParen => "\"(\""
  | rightParen => "\")\""
  | newline => "newline"
  | redirect _ op => '"' :: op.text ++ "\""
  | endOfInput => "end of file"

end TokenKind

namespace Token

/-- The token as a word. -/
def word? (tk : Token) : Option Word :=
  match tk.kind with
  | .word w => some w
  | _ => none

/-- The text of a token that is one run of unquoted characters. -/
def literal? (tk : Token) : Option Text := tk.word?.bind Word.literal?

/-- Whether the token is the given keyword. -/
def isKeyword (tk : Token) (kw : Text) : Bool := tk.literal? == some kw

/-- Whether the token is a newline. -/
def isNewline (tk : Token) : Bool :=
  match tk.kind with
  | .newline => true
  | _ => false

/-- Whether the token closes a parenthesis. -/
def isRightParen (tk : Token) : Bool :=
  match tk.kind with
  | .rightParen => true
  | _ => false

/-- Whether the token opens a parenthesis. -/
def isLeftParen (tk : Token) : Bool :=
  match tk.kind with
  | .leftParen => true
  | _ => false

end Token

/-- The words with a meaning of their own where a command may start. No alias replaces them. -/
def keywords : List Text :=
  ["if", "then", "else", "elif", "fi", "while", "until", "for", "in", "do", "done", "case",
    "esac", "\x7b", "\x7d", "!"]

/-- The keywords that close a list of commands. -/
def listEnders : List Text := ["then", "else", "elif", "fi", "do", "done", "esac", "\x7d"]

/-- Whether a list of commands ends before the token. -/
def Token.endsList (tk : Token) : Bool :=
  match tk.kind with
  | .endOfInput | .rightParen | .doubleSemi => true
  | .word w => w.literal?.any listEnders.contains
  | _ => false

end CommandShell.Script
