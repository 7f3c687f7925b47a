import CommandShell.Commands.Control
import CommandShell.Proofs.Sources
import CommandShell.Proofs.Surroundings

/-!
# Scripts by lines and as a whole

A script that comes from a descriptor is decoded one line at a time, and one that a command reads from a
file is decoded as a whole and cut into lines afterwards. The newline is a byte that no character goes on
with, so that it does not matter which of them comes first: the decoding of lines in a row is the
decodings of the lines in a row (`decode_flatten`).

`readings` has a file that reads give from its start on, in chunks of any size, and `Draws` says of a
computation what it gives and what it leaves of the file. Both ways to read a file give the reader the
same lines (`lines_or_whole`).
-/

namespace CommandShell

/-! ## Lines of bytes and lines of text -/

namespace Text

variable {bs rest : List Byte}

theorem decode_newline_cons (bs : List Byte) : decode (0x0A :: bs) = '\n' :: decode bs :=
  decode_ascii_cons (c := '\n') (by decide) bs

theorem decode_concat_newline (bs : List Byte) : decode (bs ++ [0x0A]) = decode bs ++ ['\n'] := by
  rw [decode_append (by decide), decode_newline_cons, decode]

/-- A line is decoded on its own, whatever follows its newline. -/
theorem decode_newline_append (bs rest : List Byte) :
    decode (bs ++ 0x0A :: rest) = decode (bs ++ [0x0A]) ++ decode rest := by
  rw [decode_append (by decide), decode_newline_cons, decode_concat_newline, List.append_assoc,
    List.singleton_append]

/-- Lines in a row, of which only the last one may lack its newline, are decoded line by line. -/
theorem decode_flatten {ls : List (List Byte)} (h : ∀ l ∈ ls.dropLast, l.getLast? = some 0x0A) :
    decode ls.flatten = ls.flatMap decode := by
  induction ls with
  | nil => rw [List.flatten_nil, decode, List.flatMap_nil]
  | cons l ls ih =>
      cases ls with
      | nil => simp
      | cons m ls =>
          rw [List.dropLast_cons_of_ne_nil (List.cons_ne_nil _ _)] at h
          obtain ⟨hl, hls⟩ := List.forall_mem_cons.mp h
          obtain ⟨before, rfl⟩ := List.getLast?_eq_some_iff.mp hl
          rw [List.flatten_cons, List.append_assoc, List.singleton_append, decode_newline_append, ih hls]
          exact List.flatMap_cons.symm

theorem notMem_decode (h : 0x0A ∉ bs) : '\n' ∉ decode bs := by
  have hline := (Shell.isLine_decode h).2.newline
  rwa [decode_concat_newline, List.dropLast_concat] at hline

/-- The first line of a text is what the bytes up to the first newline are decoded to. -/
theorem lines_decode_newline (h : 0x0A ∉ bs) (rest : List Byte) :
    (decode (bs ++ 0x0A :: rest)).lines = decode (bs ++ [0x0A]) :: (decode rest).lines := by
  rw [decode_newline_append, decode_concat_newline, List.append_assoc, List.singleton_append]
  exact Script.lines_append_newline (notMem_decode h) _

theorem lines_decode_last (hne : bs ≠ []) (h : 0x0A ∉ bs) : (decode bs).lines = [decode bs] :=
  Script.lines_of_notMem ((Shell.isLine_decode h).1 hne).ne_nil (notMem_decode h)

end Text

/-! ## A file that is read -/

namespace Shell

open Host (Bytes Call Event Surroundings)
open Host.Program (Comes)
open Script (Input)

/-- A file is read, of which the given bytes are left. A read may be interrupted or fail, and gives no
bytes at the end only. -/
def readings : Surroundings Bytes where
  drifts _ _ := False
  answers
    | left, ⟨.read _ count, .ok chunk⟩, left' =>
      left = chunk ++ left' ∧ chunk.length ≤ count ∧ (chunk = [] → left = [])
    | left, _, left' => left' = left

theorem eq_of_drifts {left left' : Bytes} (h : readings.Drifts left left') : left' = left := by
  induction h with
  | refl => rfl
  | tail _ hstep _ => exact False.elim hstep

/-- A computation that makes no read. -/
abbrev ReadsNothing {α : Type} (x : ShellM α) : Prop :=
  OnlyAsks (fun c => ∀ fd count, c ≠ .read fd count) x

/-- Every result of a computation that starts with the given bytes of the file, and what is left of them
then, satisfy `Q`. -/
def Draws {α : Type} (left : Bytes) (x : ShellM α) (Q : α → Bytes → Prop) : Prop :=
  ∀ s, Ensures readings x s left fun r _ left' => ∀ a, r = .ok a → Q a left'

namespace Draws

variable {τ α β : Type} {left : Bytes} {Q : α → Bytes → Prop}

protected theorem pure {a : α} (h : Q a left) : Draws left (pure a) Q := by
  refine fun s => Ensures.pure fun left' hd => ?_
  rintro _ ⟨⟩
  exact eq_of_drifts hd ▸ h

protected theorem throw (e : Stop) : Draws left (throw e) Q :=
  fun _ => Ensures.throw fun _ _ => nofun

protected theorem bind {x : ShellM β} {f : β → ShellM α} {R : β → Bytes → Prop} (hx : Draws left x R)
    (hf : ∀ b left', R b left' → Draws left' (f b) Q) : Draws left (x >>= f) Q :=
  fun s => Ensures.bind (hx s) (fun b t left' h => hf b left' (h b rfl) t) fun _ _ _ _ => nofun

protected theorem get_bind {f : Shell → ShellM α} (h : ∀ s, Draws left (f s) Q) :
    Draws left (get >>= f) Q :=
  fun s => Ensures.get_bind (h s s)

theorem mono {x : ShellM α} {Q' : α → Bytes → Prop} (hx : Draws left x Q)
    (h : ∀ a left', Q a left' → Q' a left') : Draws left x Q' :=
  fun s => (hx s).mono fun _ _ _ hr a ha => h _ _ (hr a ha)

/-- What makes no read leaves the file alone. -/
theorem of_readsNothing {x : ShellM α} (h : ReadsNothing x) :
    Draws left x fun _ left' => left' = left := by
  intro s es r t left' hes htakes _ _
  obtain ⟨-, hasked⟩ := (h s).of_reaches hes
  refine htakes.keeps (P := (· = left)) (fun _ _ hd => False.elim hd) (fun w e w' he ha hw => ?_) rfl
  have hnot := hasked e he
  obtain ⟨c, r⟩ := e
  cases c with
  | read fd count => exact absurd rfl (hnot fd count)
  | _ => exact Eq.trans ha hw

/-- What follows a call goes on from the answer. -/
theorem ask_bind {c : Call} {f : Host.Reply c → ShellM α}
    (h : ∀ r left', readings.answers left ⟨c, r⟩ left' → Draws left' (f r) Q) :
    Draws left (ask c >>= f) Q := by
  refine fun s => Ensures.ask_bind fun left₁ r left' hd ha => ?_
  obtain rfl := eq_of_drifts hd
  exact h r left' ha s

/-- A loop keeps an invariant from round to round, and gives what its last round gives. -/
protected theorem iterate {step : τ → ShellM (τ ⊕ α)} {I : τ → Bytes → Prop}
    (hstep : ∀ a left, I a left → Draws left (step a) fun
      | .inl a', left' => I a' left'
      | .inr b, left' => Q b left')
    {a : τ} (h : I a left) : Draws left (iterate step a) Q := by
  have hn : ∀ n a left, I a left → Draws left (iterateFor step n a) Q := by
    intro n
    induction n with
    | zero => exact fun a left _ => Draws.throw _
    | succ n ih =>
        intro a left h
        refine (hstep a left h).bind fun r left' hr => ?_
        cases r with
        | inl a' => exact ih a' left' hr
        | inr b => exact Draws.pure hr
  exact hn roundLimit a left h

end Draws

variable {left : Bytes}

theorem readsNothing_quietly_writeErr (t : Text) :
    ReadsNothing (quietly (writeErr t)) :=
  .quietly (.writeBytes (fun _ => nofun) _)

/-- A prompt asks for the name of the user at most. -/
theorem readsNothing_prompt (raw : Text) : ReadsNothing (Expansion.prompt raw) := by
  refine .bind .get fun s => ?_
  dsimp only
  split
  · exact .pure _
  · exact .bind (.ask (by rintro _ _ ⟨⟩)) fun _ => .pure _

theorem readsNothing_promptFor (first : Bool) : ReadsNothing (promptFor first) := by
  refine .bind .get fun s => ?_
  split
  · exact readsNothing_prompt _
  · exact .pure _

/-! ## What is read -/

theorem draws_readSome (fd count : Nat) :
    Draws left (readSome fd count) fun r left' => ∀ chunk, r = .ok chunk →
      left = chunk ++ left' ∧ chunk.length ≤ count ∧ (chunk = [] → left = []) := by
  -- no attempt that was interrupted took bytes from the file
  refine Draws.iterate (I := fun _ rest => rest = left) ?_ rfl
  rintro _ rest rfl
  refine Draws.ask_bind fun r left' ha => ?_
  cases r with
  | ok chunk =>
      refine Draws.pure ?_
      rintro _ ⟨⟩
      exact ha
  | error e =>
      dsimp only
      split
      · exact Draws.pure ha
      · exact Draws.pure fun _ => nofun

/-- A line that is read is the first line of what is left, and the end of the input is that nothing is
left. -/
theorem draws_readLine (fd : Nat) :
    Draws left (readLine fd) fun line left' =>
      (line = none → left = []) ∧
        ∀ l, line = some l → (Text.decode left).lines = l :: (Text.decode left').lines := by
  -- the bytes of the line so far hold no newline
  refine Draws.iterate
    (I := fun line rest => left = line.reverse ++ rest ∧ 0x0A ∉ line.reverse) ?_
    ⟨rfl, List.not_mem_nil⟩
  rintro line rest ⟨rfl, hline⟩
  refine (draws_readSome fd 1).bind fun r rest' hr => ?_
  rcases r with e | chunk
  · exact Draws.throw _
  obtain ⟨rfl, hlength, hend⟩ := hr chunk rfl
  cases chunk with
  | nil =>
      obtain rfl : rest' = [] := hend rfl
      refine Draws.pure ?_
      cases line with
      | nil => exact ⟨fun _ => rfl, by rintro _ ⟨⟩⟩
      | cons b line =>
          refine ⟨by rintro ⟨⟩, ?_⟩
          rintro _ ⟨⟩
          simpa [Text.decode, Text.lines] using Text.lines_decode_last (by simp) hline
  | cons b chunk =>
      obtain rfl : chunk = [] := List.length_eq_zero_iff.mp (by simpa using hlength)
      dsimp only
      split
      · rename_i hb
        refine Draws.pure ⟨by rintro ⟨⟩, ?_⟩
        rintro _ ⟨⟩
        rw [hb, List.reverse_cons]
        exact Text.lines_decode_newline hline rest'
      · rename_i hb
        refine Draws.pure ⟨by simp, ?_⟩
        rw [List.reverse_cons]
        simp only [List.mem_append, List.mem_singleton, not_or]
        exact ⟨hline, Ne.symm hb⟩

theorem draws_nextLine {src : ScriptSource} {fd : Nat} (hfd : src.descriptor = some fd) (first : Bool) :
    Draws left (nextLine src first) fun line left' =>
      (line = none → left = []) ∧
        ∀ l, line = some l → (Text.decode left).lines = l :: (Text.decode left').lines := by
  have hline : Draws left (do
      let line ← readLine fd
      if (← get).has .verbose then quietly (writeErr (line.getD []))
      return line) fun line left' => (line = none → left = []) ∧
        ∀ l, line = some l → (Text.decode left).lines = l :: (Text.decode left').lines := by
    refine (draws_readLine fd).bind fun line rest h => Draws.get_bind fun s => ?_
    split
    · refine (Draws.of_readsNothing (readsNothing_quietly_writeErr _)).bind ?_
      rintro _ _ rfl
      exact Draws.pure h
    · exact Draws.pure h
  unfold nextLine
  rw [hfd]
  dsimp only
  split
  · refine (Draws.of_readsNothing (readsNothing_promptFor first)).bind ?_
    rintro prompt _ rfl
    refine (Draws.of_readsNothing (.writeBytes (fun _ => by rintro _ _ ⟨⟩) _)).bind ?_
    rintro _ _ rfl
    exact hline
  · exact hline

/-- The lines that are read from a source one after the other up to the end of its input. -/
inductive ReadLines (src : ScriptSource) : Bytes → List Text → Prop
  | closed {left left' : Bytes} {first : Bool} {es : List Event} {s t : Shell}
    (hline : ((nextLine src first).startedIn s).Comes es (.done (.ok none, t)))
    (htakes : readings.Takes left es left') : ReadLines src left []
  | line {left left' : Bytes} {first : Bool} {es : List Event} {s t : Shell} {l : Text}
    {ls : List Text} (hline : ((nextLine src first).startedIn s).Comes es (.done (.ok (some l), t)))
    (htakes : readings.Takes left es left') (hmore : ReadLines src left' ls) :
    ReadLines src left (l :: ls)

/-- The lines of a source are the lines of the text that its bytes are decoded to. -/
theorem ReadLines.eq_lines {src : ScriptSource} {fd : Nat} (hfd : src.descriptor = some fd)
    {ls : List Text} (h : ReadLines src left ls) : ls = (Text.decode left).lines := by
  induction h with
  | closed hline htakes =>
      obtain ⟨hend, -⟩ := draws_nextLine hfd _ _ hline htakes _ rfl
      rw [hend rfl, Text.decode]
      rfl
  | line hline htakes _ ih =>
      obtain ⟨-, hfirst⟩ := draws_nextLine hfd _ _ hline htakes _ rfl
      rw [hfirst _ rfl, ih]

theorem draws_readAll (fd : Nat) :
    Draws left (readAll fd) fun r _ => ∀ data, r = .ok data → data = left := by
  -- the chunks so far are what was there before the rest
  refine Draws.iterate (I := fun chunks rest => left = chunks.reverse.flatten ++ rest) ?_ rfl
  rintro chunks rest rfl
  refine (draws_readSome fd chunkSize).bind fun r rest' hr => ?_
  rcases r with e | chunk
  · exact Draws.pure fun _ => nofun
  obtain ⟨rfl, -, hend⟩ := hr chunk rfl
  cases chunk with
  | nil =>
      obtain rfl : rest' = [] := hend rfl
      refine Draws.pure ?_
      rintro _ ⟨⟩
      simp
  | cons b chunk =>
      refine Draws.pure ?_
      simp

theorem draws_readFile (path : Text) :
    Draws left (readFile path) fun r _ => ∀ data, r = .ok data → data = left := by
  have hopen : ReadsNothing (openFile path { reads := true }) := by
    unfold openFile
    split
    · exact .ask (by rintro _ _ ⟨⟩)
    · exact .pure _
  refine (Draws.of_readsNothing hopen).bind ?_
  rintro (e | fd) _ rfl
  · exact Draws.pure (by rintro _ ⟨⟩)
  · refine (draws_readAll fd).bind fun r left' hr => Draws.ask_bind fun _ _ _ => ?_
    exact Draws.pure hr

theorem readsNothing_sourcePath (name : Text) :
    ReadsNothing (Commands.sourcePath name) := by
  have hregular : ∀ path, ReadsNothing (isRegularFile path) := by
    intro path
    refine .bind ?_ fun r => ?_
    · unfold fileStatus statusAt
      split
      · exact .ask (by rintro _ _ ⟨⟩)
      · exact .pure _
    · cases r with
      | ok st => exact .pure _
      | error e => exact .pure _
  have hfirst : ∀ paths, ReadsNothing (Commands.firstRegular? paths) := by
    intro paths
    induction paths with
    | nil => exact .pure _
    | cons path paths ih =>
        refine .bind (hregular path) fun b => ?_
        split
        · exact .pure _
        · exact ih
  unfold Commands.sourcePath
  split
  · exact .pure _
  · exact .bind .get fun s => .bind (hfirst _) fun _ => .pure _

theorem draws_sourceText (name : Text) :
    Draws left (Commands.sourceText name) fun text _ => text = Text.decode left := by
  refine (Draws.of_readsNothing (readsNothing_sourcePath name)).bind ?_
  rintro path _ rfl
  refine (draws_readFile path).bind fun r left' hr => ?_
  cases r with
  | ok data =>
      obtain rfl := hr data rfl
      exact Draws.pure rfl
  | error e => exact Draws.throw _

/-- Bytes that are cut after newlines are decoded to the same text as on the whole. The lines of a file
that are read from a descriptor are the lines of the text of the same file that is read at once. -/
theorem lines_or_whole :
    (∀ ls : List Bytes, (∀ l ∈ ls.dropLast, l.getLast? = some 0x0A) →
      Text.decode ls.flatten = ls.flatMap Text.decode) ∧
    ∀ (src : ScriptSource) (fd : Nat) (file left : Bytes) (ls : List Text) (name text : Text)
      (es : List Event) (s t : Shell), src.descriptor = some fd → ReadLines src file ls →
      ((Commands.sourceText name).startedIn s).Comes es (.done (.ok text, t)) →
      readings.Takes file es left → (Input.ofText text).queue = ls ∧ ls.flatten = text := by
  refine ⟨fun ls => Text.decode_flatten, ?_⟩
  intro src fd file left ls name text es s t hfd hlines htext htakes
  obtain rfl := draws_sourceText name s htext htakes text rfl
  obtain rfl := hlines.eq_lines hfd
  exact ⟨rfl, Script.lines_flatten _⟩

/-- A script whose first line ends in the middle of a character, and whose last line has no newline. -/
def brokenScript : Bytes := [0xE2, 0x82, 0x0A, 0x61]

/-- The standard input is read byte by byte. -/
def bytesRead (chunks : List Bytes) : List Event := chunks.map fun chunk => ⟨.read 0 1, .ok chunk⟩

theorem readLines_brokenScript : ReadLines (.ofDescriptor 0 false) brokenScript
    [Text.decode [0xE2, 0x82, 0x0A], Text.decode [0x61]] := by
  have hfirst : ((nextLine (.ofDescriptor 0 false) true).startedIn {}).Comes
      (bytesRead [[0xE2], [0x82], [0x0A]]) (.done (.ok (some (Text.decode [0xE2, 0x82, 0x0A])), {})) :=
    .step (.step (.step (.here _)))
  have htakesFirst : readings.Takes brokenScript (bytesRead [[0xE2], [0x82], [0x0A]]) [0x61] :=
    .call .refl ⟨rfl, by decide, nofun⟩ (.call .refl ⟨rfl, by decide, nofun⟩
      (.call .refl ⟨rfl, by decide, nofun⟩ (.idle .refl)))
  have hsecond : ((nextLine (.ofDescriptor 0 false) true).startedIn {}).Comes
      (bytesRead [[0x61], []]) (.done (.ok (some (Text.decode [0x61])), {})) :=
    .step (.step (.here _))
  have htakesSecond : readings.Takes [0x61] (bytesRead [[0x61], []]) [] :=
    .call .refl ⟨rfl, by decide, nofun⟩ (.call .refl ⟨rfl, by decide, fun _ => rfl⟩ (.idle .refl))
  have hend : ((nextLine (.ofDescriptor 0 false) true).startedIn {}).Comes
      (bytesRead [[]]) (.done (.ok none, {})) :=
    .step (.here _)
  have htakesEnd : readings.Takes [] (bytesRead [[]]) [] :=
    .call .refl ⟨rfl, by decide, fun _ => rfl⟩ (.idle .refl)
  exact .line hfirst htakesFirst (.line hsecond htakesSecond (.closed hend htakesEnd))

/-- Both ways to read the script above. -/
theorem lines_or_whole_brokenScript :
    Text.decode [[0xE2, 0x82, 0x0A], [0x61]].flatten =
        [[0xE2, 0x82, 0x0A], [0x61]].flatMap Text.decode ∧
      ∃ text, (∃ es t left, ((Commands.sourceText "./f").startedIn {}).Comes es (.done (.ok text, t)) ∧
        readings.Takes brokenScript es left) ∧
        (Input.ofText text).queue = [Text.decode [0xE2, 0x82, 0x0A], Text.decode [0x61]] ∧
        [Text.decode [0xE2, 0x82, 0x0A], Text.decode [0x61]].flatten = text := by
  refine ⟨lines_or_whole.1 _ (by decide), Text.decode brokenScript, ?_⟩
  let es : List Event := [⟨.openFile (Text.encode "./f") { reads := true }, .ok 3⟩,
    ⟨.read 3 chunkSize, .ok brokenScript⟩, ⟨.read 3 chunkSize, .ok []⟩, ⟨.close 3, .ok ()⟩]
  have hcomes : ((Commands.sourceText "./f").startedIn {}).Comes es
      (.done (.ok (Text.decode brokenScript), {})) :=
    .step (.step (.step (.step (.here _))))
  have htakes : readings.Takes brokenScript es [] :=
    .call .refl rfl (.call .refl ⟨rfl, by decide, nofun⟩
      (.call .refl ⟨rfl, by decide, fun _ => rfl⟩ (.call .refl rfl (.idle .refl))))
  exact ⟨⟨es, {}, [], hcomes, htakes⟩,
    lines_or_whole.2 (.ofDescriptor 0 false) 0 brokenScript [] _ _ _ es {} {} rfl
      readLines_brokenScript hcomes htakes⟩

end Shell

end CommandShell
