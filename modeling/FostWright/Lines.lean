import FostWright.Capacity
import FostWright.Lib.Framing

/-!
# Job lines as bytes

What goes through the pipes of a child: `childproc::write` puts a command and a newline into its stdin, `childproc::read` takes a
line of its stdout without the newline and without NULs. The stdin loop of the manager drops both bytes, so the text of a job that
it submits has none; an `execute` packet may bring any text.
-/

namespace FostWright

open Lib

/-- The text of a job that is a single line. -/
structure JobText where
  text : Line
  noNewline : newline ∉ text

/-- The bytes that `childproc::write` writes for a command. -/
def writeLine (command : Line) : List Byte := command ++ [newline]

/-- The lines that a worker reads of a job. -/
def linesIn (text : Line) : List Line := (unframe newline (writeLine text)).1

/-- A job that is answered by one line that matches it: it is not empty, and has no newline and no NUL. -/
def Answerable (text : Line) : Prop := text ≠ [] ∧ newline ∉ text ∧ nul ∉ text

instance (text : Line) : Decidable (Answerable text) := inferInstanceAs (Decidable (_ ∧ _ ∧ _))

/-- The line that `childproc::read` makes of the bytes up to a newline. -/
def readLine (bytes : List Byte) : Line := bytes.filter (fun next => next ≠ nul ∧ next ≠ newline)

/-- The loop over the bytes of a line, in the stdin loop of `exec_helper` and in `childproc::read`: the line, and what is left in the
buffer. `sbumpc` on an empty buffer gives -1. -/
def bump : Nat → List Byte → Line × List Byte
  | 0, buffer => ([], buffer)
  | bytes + 1, [] => let (line, buffer) := bump bytes []; (eofByte :: line, buffer)
  | bytes + 1, next :: buffer =>
    let (line, buffer) := bump bytes buffer
    (if next = nul ∨ next = newline then line else next :: line, buffer)

/-- The bytes that there are, up to a newline and with it, become a line. -/
theorem bump_append_newline (w rest : List Byte) : bump (w.length + 1) (w ++ newline :: rest) = (readLine w, rest) := by
  induction w with
  | nil => rfl
  | cons next w ih =>
    rw [List.length_cons, List.cons_append, bump, ih]
    by_cases h : next = nul ∨ next = newline
    · rcases h with rfl | rfl <;> rfl
    · have hkeep : readLine (next :: w) = next :: readLine w := by
        rw [not_or] at h
        simp [readLine, h.1, h.2]
      simp only [if_neg h, hkeep]

/-- Writing one command after the other. -/
theorem frames_eq_writeLine (commands : List Line) : frames newline commands = commands.flatMap writeLine := rfl

/-- A line without NULs is read as it is. -/
theorem readLine_eq_self {bytes : List Byte} (hnul : nul ∉ bytes) (hnewline : newline ∉ bytes) : readLine bytes = bytes := by
  unfold readLine
  rw [List.filter_eq_self]
  intro x hx
  have h0 : x ≠ nul := fun h => hnul (h ▸ hx)
  have h10 : x ≠ newline := fun h => hnewline (h ▸ hx)
  simp [h0, h10]

/-- A line that was read has neither a newline nor a NUL. -/
theorem not_mem_readLine (bytes : List Byte) : newline ∉ readLine bytes ∧ nul ∉ readLine bytes := by
  unfold readLine
  constructor <;> simp

/-! ## The jobs of a child as lines -/

/-- The bytes of a job are the lines that the worker reads of it. -/
theorem frames_linesIn (text : Line) : frames newline (linesIn text) = writeLine text := by
  have hrest : (unframe newline (writeLine text)).2 = [] := by
    have hfree := (not_mem_unframe newline text).2
    unfold writeLine
    rw [unframe_append, unframe_frame hfree]
    rfl
  have h := frames_unframe newline (writeLine text)
  rw [hrest, List.append_nil] at h
  exact h

theorem not_mem_linesIn {text w : Line} (hw : w ∈ linesIn text) : newline ∉ w :=
  (not_mem_unframe newline (writeLine text)).1 w hw

/-- A job that is answerable is one line. -/
theorem linesIn_of_answerable {text : Line} (h : Answerable text) : linesIn text = [text] := by
  unfold linesIn writeLine
  rw [unframe_frame h.2.1]
  rfl

/-- And so are jobs that are, one after the other. -/
theorem flatMap_linesIn {texts : List Line} (h : ∀ text ∈ texts, Answerable text) : texts.flatMap linesIn = texts := by
  induction texts with
  | nil => rfl
  | cons text texts ih =>
    rw [List.flatMap_cons, linesIn_of_answerable (h text List.mem_cons_self), ih (fun t ht => h t (List.mem_cons_of_mem _ ht))]
    rfl

/-- The answer to an answerable job is read as it is. -/
theorem readLine_of_answerable {text : Line} (h : Answerable text) : readLine text = text := readLine_eq_self h.2.2 h.2.1

end FostWright
