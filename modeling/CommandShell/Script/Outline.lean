import CommandShell.Script.Printer
import CommandShell.Text.Name

/-!
# Outlines

The shape of a tree, one line for each command, indented by depth.
-/

namespace CommandShell.Script

/-- One line of an outline at a depth. -/
def outlineLine (depth : Nat) (t : Text) : Text :=
  (List.replicate depth ("|   " : Text)).flatten ++ t ++ "\n"

/-- Words as a list of quoted texts. -/
def showWords (ws : List Word) : Text := Text.showList (ws.map Word.text)

/-- Redirections as a list of quoted texts. -/
def showRedirects (rs : List Redirect) : Text := Text.showList (rs.map Redirect.source)

mutual

/-- The outline of a command at a depth. -/
def Node.outlineAt (d : Nat) : Node → Text
  | .mk c _ => c.outlineAt d

/-- The outline of a kind of command at a depth. -/
def Command.outlineAt (d : Nat) : Command → Text
  | .simple assigns argv rs =>
    outlineLine d ("Command (assigns: " ++ showWords assigns ++ ", args: " ++ showWords argv
      ++ ", redirs: " ++ showRedirects rs ++ ")")
  | .pipeline ns => outlineLine d "Pipeline" ++ Node.outlinesAt (d + 1) ns
  | .not n => outlineLine d "Not" ++ n.outlineAt (d + 1)
  | .and l r => outlineLine d "And" ++ l.outlineAt (d + 1) ++ r.outlineAt (d + 1)
  | .or l r => outlineLine d "Or" ++ l.outlineAt (d + 1) ++ r.outlineAt (d + 1)
  | .list l r => outlineLine d "List" ++ l.outlineAt (d + 1) ++ r.outlineAt (d + 1)
  | .background n => outlineLine d "Background" ++ n.outlineAt (d + 1)
  | .ifThen c t none =>
    outlineLine d "If" ++ outlineLine d "|--- Condition" ++ c.outlineAt (d + 2)
      ++ outlineLine d "|--- Body" ++ t.outlineAt (d + 2)
  | .ifThen c t (some e) =>
    outlineLine d "If" ++ outlineLine d "|--- Condition" ++ c.outlineAt (d + 2)
      ++ outlineLine d "|--- Body" ++ t.outlineAt (d + 2)
      ++ outlineLine d "|--- Else" ++ e.outlineAt (d + 2)
  | .whileDo c b =>
    outlineLine d "While" ++ outlineLine d "|--- Condition" ++ c.outlineAt (d + 2)
      ++ outlineLine d "|--- Body" ++ b.outlineAt (d + 2)
  | .untilDo c b =>
    outlineLine d "Until" ++ outlineLine d "|--- Condition" ++ c.outlineAt (d + 2)
      ++ outlineLine d "|--- Body" ++ b.outlineAt (d + 2)
  | .forIn v items b =>
    outlineLine d ("For (var: " ++ v ++ ", items: "
      ++ Text.showList? (items.map fun ws => ws.map Word.text) ++ ")") ++ b.outlineAt (d + 1)
  | .caseOf w as => outlineLine d ("Case (subject: " ++ w.text ++ ")") ++ CaseArm.outlinesAt d as
  | .subshell b rs =>
    outlineLine d ("Subshell (redirs: " ++ Text.ofNat rs.length ++ ")") ++ b.outlineAt (d + 1)
  | .brace b => outlineLine d "Brace" ++ b.outlineAt (d + 1)
  | .redirected b rs =>
    outlineLine d ("Redirected (redirs: " ++ showRedirects rs ++ ")") ++ b.outlineAt (d + 1)
  | .function name b =>
    outlineLine d ("Function Definition (name: " ++ name ++ ")") ++ b.outlineAt (d + 1)

/-- The outlines of several commands at a depth. -/
def Node.outlinesAt (d : Nat) : List Node → Text
  | [] => []
  | n :: ns => n.outlineAt d ++ Node.outlinesAt d ns

/-- The outlines of the arms of a `case`. -/
def CaseArm.outlinesAt (d : Nat) : List CaseArm → Text
  | [] => []
  | .mk ps none :: as =>
    outlineLine d ("|--- Pattern: " ++ showWords ps) ++ CaseArm.outlinesAt d as
  | .mk ps (some n) :: as =>
    outlineLine d ("|--- Pattern: " ++ showWords ps) ++ n.outlineAt (d + 2)
      ++ CaseArm.outlinesAt d as

end

/-- The outline of a command. -/
def Node.outline (n : Node) : Text := n.outlineAt 0

end CommandShell.Script
