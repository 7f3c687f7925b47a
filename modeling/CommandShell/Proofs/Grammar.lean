import CommandShell.Script.Grammar

/-!
# The grammar of scripts

Which sequences of tokens spell a command, and which one, with no regard to how they are read.
`Derives` says it for every kind of phrase; a whole command line is a `CommandLine`. A phrase is
spelled by the tokens of its parts in order, each of them once.

Words end where operators start, but nothing ends a word list before a keyword: `then` after `echo`
is one more argument. So a phrase knows whether it is open, that is, whether a word after it would
belong to it, and only a phrase that is not open goes before a keyword.

Here-documents are not covered, since their bodies do not stand where their operators do.
-/

namespace CommandShell.Script

/-! ## Small phrases -/

/-- Newlines, where they mean nothing. -/
def Newlines (ts : List Token) : Prop := ∀ tk ∈ ts, tk.kind = .newline

/-- Whether the operator starts a here-document. -/
def RedirectOp.isHereDoc : RedirectOp → Bool
  | hereDoc | hereDocStrip => true
  | _ => false

/-- A redirection: an operator and a word. -/
inductive Redirection : Redirect → List Token → Prop
  | mk {op target : Token} {fd : Option Nat} {o : RedirectOp} {w : Word}
    (hop : op.kind = .redirect fd o) (hplain : o.isHereDoc = false)
    (htarget : target.kind = .word w) :
    Redirection (.word (fd.getD o.defaultFd) o w) [op, target]

/-- Redirections in a row. -/
inductive Redirections : List Redirect → List Token → Prop
  | nil : Redirections [] []
  | cons {r : Redirect} {rs : List Redirect} {ts us : List Token} (hr : Redirection r ts)
    (hrs : Redirections rs us) : Redirections (r :: rs) (ts ++ us)

/-- The assignments, words and redirections of a simple command, in any order. After a word there
are no more assignments; `started` says that there was one. -/
inductive Elements : Bool → List Word → List Word → List Redirect → List Token → Prop
  | nil {started : Bool} : Elements started [] [] [] []
  | assignment {tk : Token} {w : Word} {as ws : List Word} {rs : List Redirect} {ts : List Token}
    (htk : tk.kind = .word w) (hw : w.isAssignment = true) (hrest : Elements false as ws rs ts) :
    Elements false (w :: as) ws rs (tk :: ts)
  | word {started : Bool} {tk : Token} {w : Word} {as ws : List Word} {rs : List Redirect}
    {ts : List Token} (htk : tk.kind = .word w) (hw : started = false → w.isAssignment = false)
    (hrest : Elements true as ws rs ts) : Elements started as (w :: ws) rs (tk :: ts)
  | redirection {started : Bool} {r : Redirect} {as ws : List Word} {rs : List Redirect}
    {ts us : List Token} (hr : Redirection r ts) (hrest : Elements started as ws rs us) :
    Elements started as ws (r :: rs) (ts ++ us)

/-- The keywords that start a command. -/
def compoundStarters : List Text := ["\x7b", "if", "while", "until", "for", "case"]

/-- A simple command may start with the token: a redirection, or a word that is no keyword there. -/
def Token.StartsSimple (tk : Token) : Prop :=
  (∃ fd op, tk.kind = .redirect fd op) ∨
    ∃ w, tk.kind = .word w ∧ ∀ kw ∈ w.literal?, kw ∉ compoundStarters ∧ kw ∉ listEnders

/-- A compound command starts with the token. -/
def Token.StartsCompound (tk : Token) : Prop :=
  tk.kind = .leftParen ∨ ∃ kw ∈ compoundStarters, tk.isKeyword kw = true

/-- What a `for` goes through: the words after `in`, or nothing is said. -/
inductive ForItems : Option (List Word) → List Token → Prop
  | words {kwIn stop : Token} {ws : List Word} {ts : List Token}
    (hin : kwIn.isKeyword "in" = true)
    (hws : ts.map Token.kind = ws.map .word)
    (hstop : stop.kind = .semi ∨ stop.kind = .newline) :
    ForItems (some ws) (kwIn :: ts ++ [stop])
  | semi {tk : Token} (h : tk.kind = .semi) : ForItems none [tk]
  | none : ForItems none []

/-- The patterns of an arm, up to the parenthesis after them. -/
inductive Patterns : List Word → List Token → Prop
  | last {tk closer : Token} {w : Word} (htk : tk.kind = .word w)
    (hclose : closer.kind = .rightParen) : Patterns [w] [tk, closer]
  | cons {tk bar : Token} {w : Word} {ws : List Word} {ts : List Token} (htk : tk.kind = .word w)
    (hbar : bar.kind = .pipe) (hrest : Patterns ws ts) : Patterns (w :: ws) (tk :: bar :: ts)

/-- The patterns of an arm, with the parenthesis before them or without one. Without one the first
pattern is not the keyword that ends the arms. -/
inductive ArmPatterns : List Word → List Token → Prop
  | parenthesized {tk : Token} {ws : List Word} {ts : List Token} (htk : tk.kind = .leftParen)
    (hws : Patterns ws ts) : ArmPatterns ws (tk :: ts)
  | bare {tk : Token} {ws : List Word} {ts : List Token} (hne : tk.isKeyword "esac" = false)
    (hws : Patterns ws (tk :: ts)) : ArmPatterns ws (tk :: ts)

/-- What separates the commands of a list, and makes a command one in the background or leaves it as
it is. A command line has no newlines in it. -/
inductive Separator (top : Bool) : Node → Node → List Token → Prop
  | semi {tk : Token} {ts : List Token} {n : Node} (htk : tk.kind = .semi) (hts : Newlines ts)
    (htop : top = true → ts = []) : Separator top n n (tk :: ts)
  | amp {tk : Token} {ts : List Token} {n : Node} (htk : tk.kind = .amp) (hts : Newlines ts)
    (htop : top = true → ts = []) : Separator top n (.mk (.background n) n.line) (tk :: ts)
  | newline {tk : Token} {ts : List Token} {n : Node} (htk : tk.kind = .newline)
    (hts : Newlines ts) (htop : top = false) : Separator top n n (tk :: ts)

/-- The commands of a pipeline as one command. -/
def pipelineOf (line : Nat) : List Node → Node
  | [n] => n
  | ns => .mk (.pipeline ns) line

/-! ## Commands -/

/-- The kinds of phrases, each with the tree that it stands for. -/
inductive Phrase where
  | command (n : Node) (isOpen : Bool)
  /-- A compound command without redirections after it. -/
  | compound (n : Node)
  /-- Commands joined by `|`. -/
  | stages (ns : List Node) (isOpen : Bool)
  | pipeline (n : Node) (isOpen : Bool)
  /-- What follows `left` and makes it `n`. -/
  | chain (left : Node) (leftOpen : Bool) (n : Node) (isOpen : Bool)
  /-- Pipelines joined by `&&` and `||`. -/
  | andOr (n : Node) (isOpen : Bool)
  /-- The commands of a list, on a command line or inside a compound command. -/
  | items (top : Bool) (ns : List Node) (isOpen : Bool)
  /-- A list inside a compound command. -/
  | block (n : Node) (isOpen : Bool)
  /-- What follows `if` or `elif`. -/
  | branches (n : Node)
  /-- What follows the patterns of an arm. -/
  | armBody (body : Option Node) (isOpen : Bool)
  | arms (arms : List CaseArm)

/-- The tokens that spell a phrase. -/
inductive Derives : Phrase → List Token → Prop
  | simple {first : Token} {as ws : List Word} {rs : List Redirect} {ts : List Token}
    (hfirst : first.StartsSimple) (hel : Elements false as ws rs (first :: ts)) :
    Derives (.command (.mk (.simple as ws rs) first.line) true) (first :: ts)
  | subshell {opener closer : Token} {body : Node} {isOpen : Bool} {rs : List Redirect}
    {ts us : List Token} (hopen : opener.kind = .leftParen)
    (hbody : Derives (.block body isOpen) ts) (hclose : closer.kind = .rightParen)
    (hrs : Redirections rs us) :
    Derives (.command (.mk (.subshell body rs) opener.line) false)
      (opener :: ts ++ closer :: us)
  | unredirected {n : Node} {ts : List Token} (h : Derives (.compound n) ts) :
    Derives (.command n false) ts
  | redirected {n : Node} {r : Redirect} {rs : List Redirect} {ts us : List Token}
    (h : Derives (.compound n) ts) (hrs : Redirections (r :: rs) us) :
    Derives (.command (.mk (.redirected n (r :: rs)) n.line) false) (ts ++ us)
  | function {name opener closer first : Token} {w : Word} {fname : Text} {body : Node}
    {nl ts : List Token} (hname : name.kind = .word w) (hfree : name.StartsSimple)
    (hfname : w.literal? = some fname) (hid : Text.isName fname = true)
    (hopen : opener.kind = .leftParen) (hclose : closer.kind = .rightParen) (hnl : Newlines nl)
    (hfirst : first.StartsCompound) (hbody : Derives (.command body false) (first :: ts)) :
    Derives (.command (.mk (.function fname body) name.line) false)
      (name :: opener :: closer :: nl ++ first :: ts)
  | brace {opener closer : Token} {body : Node} {ts : List Token}
    (hopen : opener.isKeyword "\x7b" = true) (hbody : Derives (.block body false) ts)
    (hclose : closer.isKeyword "\x7d" = true) :
    Derives (.compound (.mk (.brace body) opener.line)) (opener :: ts ++ [closer])
  | ifThen {kw : Token} {n : Node} {ts : List Token} (hkw : kw.isKeyword "if" = true)
    (hrest : Derives (.branches n) ts) (hline : n.line = kw.line) :
    Derives (.compound n) (kw :: ts)
  | whileDo {kw kwDo kwDone : Token} {cond body : Node} {ts us : List Token}
    (hkw : kw.isKeyword "while" = true) (hcond : Derives (.block cond false) ts)
    (hdo : kwDo.isKeyword "do" = true) (hbody : Derives (.block body false) us)
    (hdone : kwDone.isKeyword "done" = true) :
    Derives (.compound (.mk (.whileDo cond body) kw.line)) (kw :: ts ++ kwDo :: us ++ [kwDone])
  | untilDo {kw kwDo kwDone : Token} {cond body : Node} {ts us : List Token}
    (hkw : kw.isKeyword "until" = true) (hcond : Derives (.block cond false) ts)
    (hdo : kwDo.isKeyword "do" = true) (hbody : Derives (.block body false) us)
    (hdone : kwDone.isKeyword "done" = true) :
    Derives (.compound (.mk (.untilDo cond body) kw.line)) (kw :: ts ++ kwDo :: us ++ [kwDone])
  | forIn {kw name kwDo kwDone : Token} {var : Text} {items : Option (List Word)} {body : Node}
    {nl ts nl' us : List Token} (hkw : kw.isKeyword "for" = true) (hvar : name.literal? = some var)
    (hid : Text.isName var = true) (hnl : Newlines nl) (hitems : ForItems items ts)
    (hnl' : Newlines nl') (hdo : kwDo.isKeyword "do" = true)
    (hbody : Derives (.block body false) us) (hdone : kwDone.isKeyword "done" = true) :
    Derives (.compound (.mk (.forIn var items body) kw.line))
      (kw :: name :: nl ++ ts ++ nl' ++ kwDo :: us ++ [kwDone])
  | caseOf {kw word kwIn : Token} {subject : Word} {arms : List CaseArm} {nl ts : List Token}
    (hkw : kw.isKeyword "case" = true) (hword : word.kind = .word subject) (hnl : Newlines nl)
    (hin : kwIn.isKeyword "in" = true) (harms : Derives (.arms arms) ts) :
    Derives (.compound (.mk (.caseOf subject arms) kw.line)) (kw :: word :: nl ++ kwIn :: ts)
  | thenFi {kwThen kwFi : Token} {cond body : Node} {line : Nat} {ts us : List Token}
    (hcond : Derives (.block cond false) ts) (hthen : kwThen.isKeyword "then" = true)
    (hbody : Derives (.block body false) us) (hfi : kwFi.isKeyword "fi" = true) :
    Derives (.branches (.mk (.ifThen cond body none) line)) (ts ++ kwThen :: us ++ [kwFi])
  | thenElse {kwThen kwElse kwFi : Token} {cond body other : Node} {line : Nat}
    {ts us vs : List Token}
    (hcond : Derives (.block cond false) ts) (hthen : kwThen.isKeyword "then" = true)
    (hbody : Derives (.block body false) us) (helse : kwElse.isKeyword "else" = true)
    (hother : Derives (.block other false) vs) (hfi : kwFi.isKeyword "fi" = true) :
    Derives (.branches (.mk (.ifThen cond body (some other)) line))
      (ts ++ kwThen :: us ++ kwElse :: vs ++ [kwFi])
  | thenElif {kwThen kwElif : Token} {cond body rest : Node} {line : Nat} {ts us vs : List Token}
    (hcond : Derives (.block cond false) ts) (hthen : kwThen.isKeyword "then" = true)
    (hbody : Derives (.block body false) us) (helif : kwElif.isKeyword "elif" = true)
    (hrest : Derives (.branches rest) vs) (hline : rest.line = kwElif.line) :
    Derives (.branches (.mk (.ifThen cond body (some rest)) line))
      (ts ++ kwThen :: us ++ kwElif :: vs)
  | emptyArm {nl : List Token} (hnl : Newlines nl) : Derives (.armBody none false) nl
  | fullArm {n : Node} {isOpen : Bool} {ts : List Token} (h : Derives (.block n isOpen) ts) :
    Derives (.armBody (some n) isOpen) ts
  | noArms {kwEsac : Token} {nl : List Token} (hnl : Newlines nl)
    (hesac : kwEsac.isKeyword "esac" = true) : Derives (.arms []) (nl ++ [kwEsac])
  | lastArm {kwEsac : Token} {ps : List Word} {body : Option Node} {nl ts us : List Token}
    (hnl : Newlines nl) (hps : ArmPatterns ps ts) (hbody : Derives (.armBody body false) us)
    (hesac : kwEsac.isKeyword "esac" = true) :
    Derives (.arms [.mk ps body]) (nl ++ ts ++ us ++ [kwEsac])
  | arm {stop : Token} {ps : List Word} {body : Option Node} {isOpen : Bool} {as : List CaseArm}
    {nl ts us vs : List Token} (hnl : Newlines nl) (hps : ArmPatterns ps ts)
    (hbody : Derives (.armBody body isOpen) us) (hstop : stop.kind = .doubleSemi)
    (has : Derives (.arms as) vs) :
    Derives (.arms (.mk ps body :: as)) (nl ++ ts ++ us ++ stop :: vs)
  | lastStage {n : Node} {isOpen : Bool} {ts : List Token} (h : Derives (.command n isOpen) ts) :
    Derives (.stages [n] isOpen) ts
  | stage {bar : Token} {n : Node} {ns : List Node} {isOpen isOpen' : Bool} {ts nl us : List Token}
    (h : Derives (.command n isOpen) ts) (hbar : bar.kind = .pipe) (hnl : Newlines nl)
    (hns : Derives (.stages ns isOpen') us) :
    Derives (.stages (n :: ns) isOpen') (ts ++ bar :: nl ++ us)
  | plain {first : Token} {ns : List Node} {isOpen : Bool} {ts : List Token}
    (hfirst : first.isKeyword "!" = false) (h : Derives (.stages ns isOpen) (first :: ts)) :
    Derives (.pipeline (pipelineOf first.line ns) isOpen) (first :: ts)
  | negated {bang : Token} {ns : List Node} {isOpen : Bool} {ts : List Token}
    (hbang : bang.isKeyword "!" = true) (h : Derives (.stages ns isOpen) ts) :
    Derives (.pipeline (.mk (.not (pipelineOf bang.line ns)) bang.line) isOpen) (bang :: ts)
  | chainEnd {n : Node} {isOpen : Bool} : Derives (.chain n isOpen n isOpen) []
  | chainAnd {op : Token} {left right n : Node} {leftOpen rightOpen isOpen : Bool}
    {nl ts us : List Token} (hop : op.kind = .andIf) (hnl : Newlines nl)
    (hright : Derives (.pipeline right rightOpen) ts)
    (hrest : Derives (.chain (.mk (.and left right) left.line) rightOpen n isOpen) us) :
    Derives (.chain left leftOpen n isOpen) (op :: nl ++ ts ++ us)
  | chainOr {op : Token} {left right n : Node} {leftOpen rightOpen isOpen : Bool}
    {nl ts us : List Token} (hop : op.kind = .orIf) (hnl : Newlines nl)
    (hright : Derives (.pipeline right rightOpen) ts)
    (hrest : Derives (.chain (.mk (.or left right) left.line) rightOpen n isOpen) us) :
    Derives (.chain left leftOpen n isOpen) (op :: nl ++ ts ++ us)
  | andOr {first n : Node} {firstOpen isOpen : Bool} {ts us : List Token}
    (hfirst : Derives (.pipeline first firstOpen) ts)
    (hrest : Derives (.chain first firstOpen n isOpen) us) : Derives (.andOr n isOpen) (ts ++ us)
  | lastItem {top : Bool} {n : Node} {isOpen : Bool} {ts : List Token}
    (h : Derives (.andOr n isOpen) ts) : Derives (.items top [n] isOpen) ts
  | closedItem {top : Bool} {n n' : Node} {isOpen : Bool} {ts us : List Token}
    (h : Derives (.andOr n isOpen) ts) (hsep : Separator top n n' us) :
    Derives (.items top [n'] false) (ts ++ us)
  | item {top : Bool} {n n' : Node} {ns : List Node} {isOpen isOpen' : Bool}
    {ts us vs : List Token} (h : Derives (.andOr n isOpen) ts) (hsep : Separator top n n' us)
    (hns : Derives (.items top ns isOpen') vs) :
    Derives (.items top (n' :: ns) isOpen') (ts ++ us ++ vs)
  | block {ns : List Node} {n : Node} {isOpen : Bool} {nl ts : List Token} (hnl : Newlines nl)
    (hns : Derives (.items false ns isOpen) ts) (hn : Node.ofList ns = some n) :
    Derives (.block n isOpen) (nl ++ ts)

/-- The tokens of a line of commands at the top level, up to the newline after it. -/
def CommandLine (n : Node) (ts : List Token) : Prop :=
  ∃ ns isOpen, Derives (.items true ns isOpen) ts ∧ Node.ofList ns = some n

end CommandShell.Script
