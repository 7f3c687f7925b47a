import CommandShell.Script.Tree

/-!
# Trees as source

A command is printed as one line of source, followed by the bodies of its here-documents, each
closed by a delimiter that none of its lines equals. Words are printed as they were written.
Job listings and function listings show commands this way.
-/

namespace CommandShell.Script

/-- The first of `EOF`, `EOF_`, `EOF__`, … that is no line of the body. -/
def delimiterFor (body : Text) : Text :=
  let lines := Text.splitAt '\n' body
  let candidates := (List.range (lines.length + 1)).map fun k =>
    ("EOF" : Text) ++ List.replicate k '_'
  (candidates.find? fun d => !lines.contains d).getD "EOF"

/-- The number of a redirected descriptor, left out when it is the operator's own. -/
def descriptorText (fd : Nat) (op : RedirectOp) : Text :=
  if fd = op.defaultFd then [] else Text.ofNat fd

/-- Whether the body of a here-document is taken as it stands. -/
def Word.isVerbatim (w : Word) : Bool :=
  match w.parts with
  | [.singleQuoted _] => true
  | _ => false

/-- A redirection as source, without the body of a here-document. -/
def Redirect.source : Redirect → Text
  | .word fd op w => descriptorText fd op ++ op.text ++ w.text
  | .hereDoc fd op (.body w) =>
    descriptorText fd op ++ op.text ++
      if w.isVerbatim then '\'' :: delimiterFor w.text ++ "'" else delimiterFor w.text
  | .hereDoc fd op (.pending _) => descriptorText fd op ++ op.text ++ "EOF"

/-- Redirections after a command, each after a blank. -/
def redirectsSource (rs : List Redirect) : Text := rs.flatMap fun r => ' ' :: r.source

/-- The words of a list with blanks between them. -/
def wordsSource (ws : List Word) : Text := Text.join " " (ws.map Word.text)

mutual

/-- The line of source of a command. -/
def Node.line1 : Node → Text
  | .mk c _ => c.line1

/-- The line of source of a kind of command. -/
def Command.line1 : Command → Text
  | .simple [] [] rs => Text.join " " (rs.map Redirect.source)
  | .simple assigns argv rs => wordsSource (assigns ++ argv) ++ redirectsSource rs
  | .pipeline ns => Text.join " | " (Node.lines1 ns)
  | .not n => "! " ++ n.line1
  | .and l r => l.line1 ++ " && " ++ r.line1
  | .or l r => l.line1 ++ " || " ++ r.line1
  | .list (.mk (.background n) _) r => n.line1 ++ " & " ++ r.line1
  | .list l r => l.line1 ++ "; " ++ r.line1
  | .background n => n.line1 ++ " &"
  | .ifThen c t e => "if " ++ c.line1 ++ "; then " ++ t.line1 ++ "; " ++ Node.elseLine e ++ "fi"
  | .whileDo c b => "while " ++ c.line1 ++ "; do " ++ b.line1 ++ "; done"
  | .untilDo c b => "until " ++ c.line1 ++ "; do " ++ b.line1 ++ "; done"
  | .forIn v none b => "for " ++ v ++ "; do " ++ b.line1 ++ "; done"
  | .forIn v (some ws) b =>
    "for " ++ v ++ " in" ++ ws.flatMap (fun w => ' ' :: w.text) ++ "; do " ++ b.line1 ++ "; done"
  | .caseOf w as => "case " ++ w.text ++ " in" ++ CaseArm.lines1 as ++ " esac"
  | .subshell b rs => '(' :: b.line1 ++ ")" ++ redirectsSource rs
  | .brace b => "\x7b " ++ b.line1 ++ "; \x7d"
  | .redirected b rs => b.line1 ++ redirectsSource rs
  | .function name b => name ++ "() " ++ b.line1

/-- The branches of a conditional after the first. -/
def Node.elseLine : Option Node → Text
  | none => []
  | some (.mk (.ifThen c t e) _) =>
    "elif " ++ c.line1 ++ "; then " ++ t.line1 ++ "; " ++ Node.elseLine e
  | some n => "else " ++ n.line1 ++ "; "

/-- The lines of source of several commands. -/
def Node.lines1 : List Node → List Text
  | [] => []
  | n :: ns => n.line1 :: Node.lines1 ns

/-- The arms of a `case`, each after a blank. -/
def CaseArm.lines1 : List CaseArm → Text
  | [] => []
  | .mk ps none :: as => ' ' :: Text.join "|" (ps.map Word.text) ++ ");;" ++ CaseArm.lines1 as
  | .mk ps (some n) :: as =>
    ' ' :: Text.join "|" (ps.map Word.text) ++ ") " ++ n.line1 ++ ";;" ++ CaseArm.lines1 as

end

/-- The bodies of the here-documents among redirections. -/
def hereDocsOf (rs : List Redirect) : List Word :=
  rs.filterMap fun
    | .hereDoc _ _ (.body w) => some w
    | _ => none

mutual

/-- The bodies of a command's here-documents in the order in which they follow it. -/
def Node.hereDocs : Node → List Word
  | .mk c _ => c.hereDocs

/-- The bodies of the here-documents of a kind of command. -/
def Command.hereDocs : Command → List Word
  | .simple _ _ rs => hereDocsOf rs
  | .pipeline ns => Node.allHereDocs ns
  | .not n | .background n | .brace n | .function _ n | .forIn _ _ n => n.hereDocs
  | .and l r | .or l r | .list l r | .whileDo l r | .untilDo l r => l.hereDocs ++ r.hereDocs
  | .ifThen c t none => c.hereDocs ++ t.hereDocs
  | .ifThen c t (some e) => c.hereDocs ++ t.hereDocs ++ e.hereDocs
  | .caseOf _ as => CaseArm.allHereDocs as
  | .subshell b rs | .redirected b rs => b.hereDocs ++ hereDocsOf rs

/-- The bodies of the here-documents of several commands. -/
def Node.allHereDocs : List Node → List Word
  | [] => []
  | n :: ns => n.hereDocs ++ Node.allHereDocs ns

/-- The bodies of the here-documents of the arms of a `case`. -/
def CaseArm.allHereDocs : List CaseArm → List Word
  | [] => []
  | .mk _ none :: as => CaseArm.allHereDocs as
  | .mk _ (some n) :: as => n.hereDocs ++ CaseArm.allHereDocs as

end

/-- A body with its delimiter, on lines of their own. -/
def hereDocSource (w : Word) : Text :=
  let t := w.text
  '\n' :: t ++ (if t.isEmpty || t.getLast? = some '\n' then [] else ['\n']) ++ delimiterFor t

/-- A command as source. -/
def Node.source (n : Node) : Text := n.line1 ++ n.hereDocs.flatMap hereDocSource

end CommandShell.Script
