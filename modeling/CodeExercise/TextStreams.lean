import Mathlib.Algebra.Order.Group.Nat
import Mathlib.Data.List.TakeWhile

/-!
Reading text with the extraction operators of an input stream: words, unsigned numbers, single
characters and lines. Once the fail bit is set, every extraction leaves its variable as it was. What
was written in front of a separator is read back, whatever follows.
-/
namespace CodeExercise.TextStreams
open List

structure Istream where
  rest : List Char
  failed : Bool
  deriving DecidableEq

/-- `std::isspace` of the C locale. -/
def isspace (c : Char) : Bool := c = ' ' || c = '\t' || c = '\n' || c = '\x0b' || c = '\x0c' || c = '\r'
lemma isspace_blank : isspace ' ' = true := by decide
lemma isspace_newline : isspace '\n' = true := by decide

/-- `stream >> s` for a string that holds `old`. -/
def Istream.word (stream : Istream) (old : String) : String × Istream :=
  if stream.failed then (old,stream)
  else match stream.rest.dropWhile isspace with
    | [] => (old,⟨[],true⟩)
    | text => (String.ofList (text.takeWhile (fun c => !isspace c)),⟨text.dropWhile (fun c => !isspace c),false⟩)

/-- `stream >> n` for an `unsigned` that holds `old`. Digits are read without a
sign; what is no number gives 0 and what is too large gives the largest. -/
def Istream.unsignedInt (stream : Istream) (old : Nat) : Nat × Istream :=
  if stream.failed then (old,stream)
  else match stream.rest.dropWhile isspace with
    | [] => (old,⟨[],true⟩)
    | text =>
      let digits := text.takeWhile Char.isDigit
      let rest := text.dropWhile Char.isDigit
      if digits = [] then (0,⟨rest,true⟩)
      else if Nat.ofDigitChars 10 digits 0 < 2^32 then (Nat.ofDigitChars 10 digits 0,⟨rest,false⟩)
      else (2^32-1,⟨rest,true⟩)

/-- `stream.get()`. -/
def Istream.get (stream : Istream) : Istream :=
  if stream.failed then stream
  else match stream.rest with
    | [] => ⟨[],true⟩
    | _::rest => ⟨rest,false⟩

/-- `getline(stream, s)` for a string that holds `old`. -/
def Istream.getline (stream : Istream) (old : String) : String × Istream :=
  if stream.failed then (old,stream)
  else match stream.rest with
    | [] => ("",⟨[],true⟩)
    | text => (String.ofList (text.takeWhile (· != '\n')),⟨(text.dropWhile (· != '\n')).tail,false⟩)

/-- A string that `>>` reads as one word. -/
def Word (s : String) : Prop := s.toList ≠ [] ∧ ∀ c ∈ s.toList, isspace c = false
/-- A string that `getline` reads as one line. -/
def Line (s : String) : Prop := '\n' ∉ s.toList
deriving Decidable
instance (s : String) : Decidable (Word s) :=
  have : Decidable (∀ c ∈ s.toList, isspace c = false) := List.decidableBAll _ _
  inferInstanceAs (Decidable (_ ∧ _))

section
variable {rest : List Char} {stop : Char}

lemma word_space (old : String) (space : isspace stop = true) :
    Istream.word ⟨stop::rest,false⟩ old = Istream.word ⟨rest,false⟩ old := by
  simp [Istream.word,space]

lemma word_append (old : String) (isWord : Word s) (space : isspace stop = true) :
    Istream.word ⟨s.toList++stop::rest,false⟩ old = (s,⟨stop::rest,false⟩) := by
  obtain ⟨filled,solid⟩ := isWord
  obtain ⟨first,more,text⟩ := exists_cons_of_ne_nil filled
  have start : (s.toList++stop::rest).dropWhile isspace = s.toList++stop::rest := by
    have head : isspace first = false := solid first (by simp [text])
    simp [text,head]
  have taken : (s.toList++stop::rest).takeWhile (fun c => !isspace c) = s.toList := by
    rw [takeWhile_append_of_pos (by simpa using solid)]
    simp [space]
  have dropped : (s.toList++stop::rest).dropWhile (fun c => !isspace c) = stop::rest := by
    rw [dropWhile_append_of_pos (by simpa using solid)]
    simp [space]
  simp only [Istream.word,start]
  rw [if_neg (by decide)]
  split
  · next none => simp [text] at none
  · rw [taken,dropped,String.ofList_toList]

lemma word_end (old : String) (isWord : Word s) :
    Istream.word ⟨s.toList,false⟩ old = (s,⟨[],false⟩) := by
  obtain ⟨filled,solid⟩ := isWord
  obtain ⟨first,more,text⟩ := exists_cons_of_ne_nil filled
  have start : s.toList.dropWhile isspace = s.toList := by
    have head : isspace first = false := solid first (by simp [text])
    simp [text,head]
  have taken : s.toList.takeWhile (fun c => !isspace c) = s.toList := by
    rw [takeWhile_eq_self_iff]
    simpa using solid
  have dropped : s.toList.dropWhile (fun c => !isspace c) = [] := by
    rw [dropWhile_eq_nil_iff]
    simpa using solid
  simp only [Istream.word,start]
  rw [if_neg (by decide)]
  rw [taken,dropped,String.ofList_toList]

lemma isspace_of_isDigit (digit : c.isDigit = true) : isspace c = false := by
  unfold isspace
  simp only [Bool.or_eq_false_iff,decide_eq_false_iff_not]
  refine ⟨⟨⟨⟨⟨?_,?_⟩,?_⟩,?_⟩,?_⟩,?_⟩ <;> (rintro rfl; exact absurd digit (by decide))

lemma unsignedInt_append (old : Nat) (range : n < 2^32) (stops : stop.isDigit = false) :
    Istream.unsignedInt ⟨' '::(Nat.toDigits 10 n ++ stop::rest),false⟩ old = (n,⟨stop::rest,false⟩) := by
  have digits : ∀ c ∈ Nat.toDigits 10 n, c.isDigit = true :=
    fun c mem => Nat.isDigit_of_mem_toDigits (by decide) (by decide) mem
  obtain ⟨first,more,text⟩ := exists_cons_of_ne_nil (Nat.toDigits_ne_nil (n := n) (b := 10))
  have start : (' '::(Nat.toDigits 10 n ++ stop::rest)).dropWhile isspace = Nat.toDigits 10 n ++ stop::rest := by
    have head : isspace first = false := isspace_of_isDigit (digits first (by simp [text]))
    have space : isspace ' ' = true := by decide
    simp [text,head,space]
  have taken : (Nat.toDigits 10 n ++ stop::rest).takeWhile Char.isDigit = Nat.toDigits 10 n := by
    rw [takeWhile_append_of_pos digits]
    simp [stops]
  have dropped : (Nat.toDigits 10 n ++ stop::rest).dropWhile Char.isDigit = stop::rest := by
    rw [dropWhile_append_of_pos digits]
    simp [stops]
  simp only [Istream.unsignedInt,start]
  rw [if_neg (by decide)]
  split
  · next none => simp [text] at none
  · rw [taken,dropped,if_neg Nat.toDigits_ne_nil,Nat.ofDigitChars_ten_toDigits,if_pos range]

lemma getline_append (old : String) (isLine : Line s) :
    Istream.getline ⟨s.toList ++ '\n' :: rest,false⟩ old = (s,⟨rest,false⟩) := by
  have solid : ∀ c ∈ s.toList, (c != '\n') = true := by
    intro c mem
    simp only [bne_iff_ne,ne_eq]
    rintro rfl
    exact isLine mem
  have taken : (s.toList ++ '\n' :: rest).takeWhile (· != '\n') = s.toList := by
    rw [takeWhile_append_of_pos solid]
    simp
  have dropped : (s.toList ++ '\n' :: rest).dropWhile (· != '\n') = '\n' :: rest := by
    rw [dropWhile_append_of_pos solid]
    simp
  simp only [Istream.getline]
  rw [if_neg (by decide)]
  split
  · next none => simp at none
  · rw [taken,dropped,String.ofList_toList]
    rfl

end
end CodeExercise.TextStreams
