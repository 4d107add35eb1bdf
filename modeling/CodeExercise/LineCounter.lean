import CodeExercise.TextStreams

/-!
`handle_file` of `line_counter/main.c`, one character at a time, against the lines that have code outside
comments. The machine forgets a slash that starts no comment and the character behind it, and an even number of
stars does not close a comment.
-/
namespace CodeExercise.LineCounter
open TextStreams

inductive Mode where
  | init
  | comment1
  | oneLineComment
  | multiLineCommentBegin
  | multiLineCommentWaitEnd
  deriving DecidableEq

structure State where
  mode : Mode
  needCount : Bool
  noOfLine : Nat

def State.start : State := ⟨.init,false,0⟩
/-- The end of a line, counted when it is needed. -/
def State.newline (s : State) (mode : Mode) : State := ⟨mode,false,if s.needCount then s.noOfLine + 1 else s.noOfLine⟩

/-- The body of the loop of `handle_file`. -/
def step (s : State) (c : Char) : State :=
  match s.mode with
  | .init =>
    if c = '/' then { s with mode := .comment1 }
    else if !isspace c then { s with needCount := true }
    else if c = '\n' then s.newline .init
    else s
  | .comment1 =>
    if c = '/' then { s with mode := .oneLineComment }
    else if c = '*' then { s with mode := .multiLineCommentBegin }
    else if c = '\n' then ⟨.init,false,s.noOfLine + 1⟩
    else { s with mode := .init }
  | .oneLineComment => if c = '\n' then s.newline .init else s
  | .multiLineCommentBegin =>
    if c = '*' then { s with mode := .multiLineCommentWaitEnd }
    else if c = '\n' then s.newline .multiLineCommentBegin
    else s
  | .multiLineCommentWaitEnd =>
    if c = '/' then { s with mode := .init }
    else if c = '\n' then s.newline .multiLineCommentBegin
    else { s with mode := .multiLineCommentBegin }

inductive Within where
  | code
  | line
  | block

/-- The lines ended by a newline, the first of which may have begun. -/
def lines (begun : List Char) : List Char → List (List Char)
  | [] => []
  | c::rest => if c = '\n' then begun :: lines [] rest else lines (begun++[c]) rest

/-- Nothing but spaces, and slashes each with a character behind it. -/
def divided : List Char → Bool
  | [] => true
  | '/'::_::rest => divided rest
  | c::rest => isspace c && divided rest

/-- What a mode holds back. -/
@[simp] def Mode.held : Mode → List Char
  | .comment1 => ['/']
  | .multiLineCommentWaitEnd => ['*']
  | _ => []

@[simp] def Mode.within : Mode → Within
  | .init | .comment1 => .code
  | .oneLineComment => .line
  | .multiLineCommentBegin | .multiLineCommentWaitEnd => .block

/-- What was read of a line is divided unless the line is needed, whatever follows. -/
def Reads (line : List Char) (need : Bool) : Prop := ∀ more, divided (line++more) = (!need && divided more)

lemma Reads.char {line : List Char} {need : Bool} {c : Char} (reads : Reads line need) (other : c ≠ '/') :
    Reads (line++[c]) (need || !isspace c) := by
  intro more
  have here : divided (c::more) = (isspace c && divided more) := by simp [divided,other]
  rw [List.append_assoc,List.singleton_append,reads,here]
  cases need <;> simp

lemma Reads.pair {line : List Char} {need : Bool} (reads : Reads line need) (c : Char) : Reads (line++['/']++[c]) need := by
  intro more
  rw [List.append_assoc,List.append_assoc,reads]
  rfl

lemma Reads.divided {line : List Char} {need : Bool} (reads : Reads line need) : divided line = !need := by
  simpa [LineCounter.divided] using reads []

end CodeExercise.LineCounter
