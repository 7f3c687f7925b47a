import CommandShell.Script.Tree
import CommandShell.Table

/-!
# Definitions

What a shell has been taught: functions, aliases, and the paths of commands that were found in
`PATH` before.
-/

namespace CommandShell

/-- Functions, aliases and remembered paths of commands. -/
structure Definitions where
  functions : Table Script.Node := .empty
  aliases : Table Text := .empty
  /-- Paths by command name. -/
  paths : Table Text := .empty

instance : Inhabited Definitions := ⟨{}⟩

namespace Definitions

/-- Defines a function. -/
def setFunction (d : Definitions) (name : Text) (body : Script.Node) : Definitions :=
  { d with functions := d.functions.insert name body }

/-- Removes a function. -/
def removeFunction (d : Definitions) (name : Text) : Definitions :=
  { d with functions := d.functions.erase name }

/-- Defines an alias. -/
def setAlias (d : Definitions) (name value : Text) : Definitions :=
  { d with aliases := d.aliases.insert name value }

/-- Removes an alias. -/
def removeAlias (d : Definitions) (name : Text) : Definitions :=
  { d with aliases := d.aliases.erase name }

/-- Removes all aliases. -/
def clearAliases (d : Definitions) : Definitions := { d with aliases := .empty }

/-- Remembers the path of a command. -/
def remember (d : Definitions) (name path : Text) : Definitions :=
  { d with paths := d.paths.insert name path }

/-- Forgets the path of a command. -/
def forget (d : Definitions) (name : Text) : Definitions :=
  { d with paths := d.paths.erase name }

/-- Forgets all paths. -/
def forgetAll (d : Definitions) : Definitions := { d with paths := .empty }

/-- Forgets the paths that depend on the working directory. -/
def forgetRelative (d : Definitions) : Definitions :=
  { d with paths := d.paths.filter fun p => p.head? == some '/' }

end Definitions

end CommandShell
