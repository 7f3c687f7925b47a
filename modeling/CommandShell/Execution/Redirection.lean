import CommandShell.Expansion.Words

/-!
# Redirections

Redirections are applied from left to right. Around a construct that hands control back to the
shell, what each descriptor stood for is put aside at a high number first, once for each
construct, and put back afterwards, newest first. When one of them fails the construct does not
run, and what was done up to there is undone all the same.
-/

namespace CommandShell.Shell

open Script (Redirect RedirectOp HereDoc)
open Expansion (wordText hereDocText)

/-- Descriptors from this number on are the shell's own. -/
def saveFloor : Nat := 10

/-- A copy of a descriptor among the shell's own. -/
def copyHigh (fd : Nat) : ShellM Nat := do
  match ← ask (.duplicate fd saveFloor) with
  | .ok copy => return copy
  | .error e => fail (.inputOutput e)

/-- Puts aside what a descriptor stands for, unless the newest construct did so already. -/
def saveDescriptor (fd : Nat) : ShellM Unit := do
  match (← get).saved with
  | [] => return
  | frame :: rest =>
    if frame.any fun s => s.fd == fd then return
    let copy ← if ← ask (.isOpen fd) then some <$> copyHigh fd else pure none
    modify fun sh => { sh with saved := ({ fd, copy } :: frame) :: rest }

/-- Starts to put aside the descriptors of a new construct. -/
def openSaved : ShellM Unit := modify fun sh => { sh with saved := [] :: sh.saved }

/-- Puts one descriptor back. -/
def restoreDescriptor (s : SavedDescriptor) : ShellM Unit := do
  match s.copy with
  | some copy =>
    let _ ← duplicateOnto copy s.fd
    let _ ← ask (.close copy)
  | none =>
    let _ ← ask (.close s.fd)

/-- Puts back the descriptors of the newest construct. -/
def closeSaved : ShellM Unit := do
  match (← get).saved with
  | [] => return
  | frame :: rest =>
    modify fun sh => { sh with saved := rest }
    frame.forM restoreDescriptor

/-- The error of a file that could not be opened. -/
def openFault (verb path : Text) (e : Errno) : Fault :=
  .redirection ("cannot " ++ verb ++ " " ++ path ++ ": " ++ e.description)

/-- Opens a file or fails. -/
def openOrFail (verb path : Text) (flags : Host.OpenFlags) : ShellM Nat := do
  match ← openFile path flags with
  | .ok fd => return fd
  | .error e => fail (openFault verb path e)

/-- Opens an existing file that is not to be overwritten. It is refused if it turns out to be a
regular file. -/
def openIrregular (path : Text) : ShellM Nat := do
  let fd ← openOrFail "create" path { writes := true }
  match ← ask (.descriptorStatus fd) with
  | .error e => fail (.system e)
  | .ok st =>
    if st.kind = .regular then
      closeOrFail fd
      fail (openFault "create" path .exists_)
    return fd

/-- Opens a file for writing without touching an existing regular file. What is asked before is
asked again of the open file, in case another one took its place. The first question spells the
path out, so that a character that stands for a single byte is asked for under another name than
the one that is opened. -/
def openNoClobber (path : Text) : ShellM Nat := do
  match ← statusAt (plainPathBytes? path) true with
  | .ok st => if st.kind = .regular then fail (openFault "create" path .exists_)
  | .error _ => pure ()
  match ← openFile path { writes := true, creates := true, exclusive := true } with
  | .ok fd => return fd
  | .error e => if e = .exists_ then openIrregular path else fail (openFault "create" path e)

/-- Here-documents up to this size go into the pipe at once. -/
def hereDocUnit : Nat := 4096

/-- Feeds a long here-document from a child of its own. -/
def feedFromChild (readEnd writeEnd : Nat) (data : Host.Bytes) : ShellM Nat := do
  match ← ask .fork with
  | .error e => fail (.execution ("cannot fork: " ++ e.description))
  | .ok .child =>
    let _ ← ask (.close readEnd)
    let written ← attempt (writeBytes writeEnd data)
    leave (if written.isOk then 0 else 1)
  | .ok (.parent _) =>
    closeOrFail writeEnd
    return readEnd

/-- A descriptor from which a here-document can be read. -/
def hereDocPipe (text : Text) : ShellM Nat := do
  match ← ask .pipe with
  | .error e => fail (.inputOutput e)
  | .ok (readEnd, writeEnd) =>
    if Text.utf8Length text ≤ hereDocUnit then
      write writeEnd text
      closeOrFail writeEnd
      return readEnd
    feedFromChild readEnd writeEnd (Text.encode text)

/-- A copy of the descriptor that the word after `>&` or `<&` names, or that descriptor itself if
it is the redirected one. -/
def copyNamed (fd : Nat) (word : Text) : ShellM Nat := do
  match Numeral.int32? word with
  | none => fail (.redirection (word ++ ": Bad fd number"))
  | some (.negSucc n) => fail (.badDescriptor (Text.ofInt (.negSucc n)))
  | some (.ofNat source) =>
    if !(← ask (.isOpen source)) then fail (.badDescriptor (Text.ofNat source))
    if source = fd then return source
    copyHigh source

/-- Opens what a redirection names; none when its descriptor is to be closed. -/
def openWord (fd : Nat) (op : RedirectOp) (word : Text) : ShellM (Option Nat) := do
  match op with
  | .input => some <$> openOrFail "open" word { reads := true }
  | .output =>
    if (← get).has .noclobber then some <$> openNoClobber word
    else some <$> openOrFail "create" word { writes := true, creates := true, truncates := true }
  | .clobber =>
    some <$> openOrFail "create" word { writes := true, creates := true, truncates := true }
  | .append =>
    some <$> openOrFail "create" word { writes := true, creates := true, appends := true }
  | .readWrite =>
    some <$> openOrFail "open" word { reads := true, writes := true, creates := true }
  | .dupIn | .dupOut => if word = ['-'] then return none else some <$> copyNamed fd word
  | .hereDoc | .hereDocStrip => fail (.internal "here-document without a body")

/-- Opens the target of a redirection. -/
def openTarget (ev : Evaluator) : Redirect → ShellM (Option Nat)
  | .hereDoc _ _ (.body w) => do some <$> hereDocPipe (← hereDocText ev w)
  | .hereDoc _ _ (.pending _) => fail (.internal "here-document body was never read")
  | .word fd op w => do openWord fd op (← wordText ev w)

/-- Makes a descriptor stand for what was opened for it. -/
def moveInto (fd : Nat) : Option Nat → ShellM Unit
  | none => do
    let _ ← ask (.close fd)
  | some source => do
    if source = fd then ask (.keepOnExec fd)
    else
      match ← duplicateOnto source fd with
      | .error e => fail (.inputOutput e)
      | .ok () => closeOrFail source

/-- Applies redirections from left to right. With `save`, what they change can be put back. -/
def applyRedirects (ev : Evaluator) (save : Bool) : List Redirect → ShellM Unit
  | [] => return
  | r :: rs => do
    if save then saveDescriptor r.fd
    moveInto r.fd (← openTarget ev r)
    applyRedirects ev save rs

/-- Runs a computation with redirections in effect and puts the descriptors back. -/
def withRedirects (ev : Evaluator) (rs : List Redirect) (body : ShellM Unit) : ShellM Unit := do
  if rs.isEmpty then body
  else
    openSaved
    match ← attempt (applyRedirects ev true rs) with
    | .ok () =>
      let result ← attempt body
      closeSaved
      resume result
    | .error s =>
      closeSaved
      if s.isJump then throw s
      reportStop s
      setStatus 1

end CommandShell.Shell
