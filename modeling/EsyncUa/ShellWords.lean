import Mathlib.Data.List.DropRight
import Mathlib.Logic.Basic
import Mathlib.Tactic.Basic
import Mathlib.Tactic.SplitIfs

/-!
How a shell reads a command line: one character after another, with quotes removed, into words
and runs of operator characters. The characters that start an expansion are marked in their
word and not expanded. A text is read literally if the shell goes on after it as after the same
text in quotes; the texts that are read so in each state of the reader are described here.
-/
namespace EsyncUa.ShellWords

/-- A character of a word, which stands for itself or starts an expansion. -/
inductive Piece
  | lit (c : Char)
  | active (c : Char)
  deriving DecidableEq

inductive Token
  | word (pieces : List Piece)
  | op (chars : List Char)
  deriving DecidableEq

/-- What is being read: nothing yet, a word or operator characters. -/
inductive Current
  | gap
  | word (pieces : List Piece)
  | op (chars : List Char)
  deriving DecidableEq

/-- Outside quotes, after a backslash there, in single quotes, in double quotes, after a
backslash in double quotes, or in a comment. -/
inductive Mode
  | plain | escape | single | double | doubleEscape | comment
  deriving DecidableEq

def Mode.inQuotes : Mode → Bool
  | single | double | doubleEscape => true
  | plain | escape | comment => false

structure Reader where
  tokens : List Token
  current : Current
  mode : Mode
  deriving DecidableEq

def backquote : Char := Char.ofNat 96

def isBlank (c : Char) : Bool := c = ' ' || c = '\t'

/-- The characters of operators; the end of a line is one. -/
def isOperator (c : Char) : Bool := c ∈ [';', '&', '|', '<', '>', '(', ')', '\n']

/-- The characters that start an expansion in a word. -/
def isActive (c : Char) : Bool := c ∈ ['$', backquote, '*', '?', '[']

/-- The characters that start an expansion in double quotes. -/
def isDoubleActive (c : Char) : Bool := c ∈ ['$', backquote]

/-- The characters that a backslash quotes in double quotes. -/
def isDoubleEscaped (c : Char) : Bool := c ∈ ['$', backquote, '"', '\\', '\n']

namespace Current

def finish : Current → List Token
  | gap => []
  | word pieces => [.word pieces]
  | op chars => [.op chars]

def inWord : Current → Bool
  | word _ => true
  | _ => false

end Current

namespace Reader

def start : Reader := ⟨[], .gap, .plain⟩

/-- What is being read is complete. -/
def close (s : Reader) : Reader :=
  { s with tokens := s.tokens ++ s.current.finish, current := .gap }

/-- More of a word, or a word that begins. -/
def add (s : Reader) (pieces : List Piece) : Reader :=
  match s.current with
  | .word before => { s with current := .word (before ++ pieces) }
  | _ => { s.close with current := .word pieces }

def addOperator (s : Reader) (c : Char) : Reader :=
  match s.current with
  | .op before => { s with current := .op (before ++ [c]) }
  | _ => { s.close with current := .op [c] }

def setMode (s : Reader) (mode : Mode) : Reader := { s with mode := mode }

/-- A character outside quotes. -/
def stepPlain (s : Reader) (c : Char) : Reader :=
  if isBlank c then s.close
  else if isOperator c then s.addOperator c
  else if c = '\\' then s.setMode .escape
  else if c = '\'' then (s.add []).setMode .single
  else if c = '"' then (s.add []).setMode .double
  else if isActive c then s.add [.active c]
  else if s.current.inWord then s.add [.lit c]
  else if c = '#' then s.close.setMode .comment
  else if c = '~' then s.add [.active c]
  else s.add [.lit c]

def step (s : Reader) (c : Char) : Reader :=
  match s.mode with
  | .plain => s.stepPlain c
  | .escape => if c = '\n' then s.setMode .plain else (s.add [.lit c]).setMode .plain
  | .single => if c = '\'' then s.setMode .plain else s.add [.lit c]
  | .double =>
      if c = '"' then s.setMode .plain
      else if c = '\\' then s.setMode .doubleEscape
      else if isDoubleActive c then s.add [.active c]
      else s.add [.lit c]
  | .doubleEscape =>
      if c = '\n' then s.setMode .double
      else if isDoubleEscaped c then (s.add [.lit c]).setMode .double
      else (s.add [.lit '\\', .lit c]).setMode .double
  | .comment => if c = '\n' then (s.addOperator c).setMode .plain else s

def read (s : Reader) (text : List Char) : Reader := text.foldl step s

/-- The words and operators of what has been read. -/
def finish (s : Reader) : List Token := s.close.tokens

/-- The reader after the text as a part of one word, every character standing for itself; a
comment has no words. -/
def literal (s : Reader) (text : List Char) : Reader :=
  match s.mode with
  | .plain | .escape => (s.add (text.map .lit)).setMode .plain
  | .single | .double => s.add (text.map .lit)
  | .doubleEscape => (s.add (.lit '\\' :: text.map .lit)).setMode .double
  | .comment => s

end Reader

/-- A character that stands for itself outside quotes, in a word or at its beginning. -/
def Ordinary (inWord : Bool) (c : Char) : Prop :=
  isBlank c = false ∧ isOperator c = false ∧ c ≠ '\\' ∧ c ≠ '\'' ∧ c ≠ '"' ∧ isActive c = false ∧
    (inWord = true ∨ c ≠ '#' ∧ c ≠ '~')

/-- The texts that are read literally in a mode, within a word or not. -/
def Tame : Mode → Bool → List Char → Prop
  | .plain, inWord, [] => inWord = true
  | .plain, inWord, c :: text => Ordinary inWord c ∧ Tame .plain true text
  | .escape, _, [] => False
  | .escape, _, c :: text => c ≠ '\n' ∧ Tame .plain true text
  | .single, _, [] => True
  | .single, _, c :: text => c ≠ '\'' ∧ Tame .single true text
  | .double, _, [] => True
  | .double, _, c :: text =>
      if c = '\\' then Tame .doubleEscape true text
      else c ≠ '"' ∧ isDoubleActive c = false ∧ Tame .double true text
  | .doubleEscape, _, [] => False
  | .doubleEscape, _, c :: text => isDoubleEscaped c = false ∧ Tame .double true text
  | .comment, _, text => '\n' ∉ text

/-- How many characters of a word stand for themselves. -/
def litCount : List Piece → Nat
  | [] => 0
  | .lit _ :: pieces => litCount pieces + 1
  | .active _ :: pieces => litCount pieces

theorem litCount_append (a b : List Piece) : litCount (a ++ b) = litCount a + litCount b := by
  induction a with
  | nil => simp [litCount]
  | cons p a ih => cases p <;> simp [litCount, ih] <;> omega

@[simp] theorem litCount_lits (text : List Char) : litCount (text.map .lit) = text.length := by
  induction text with
  | nil => rfl
  | cons c text ih => simp [litCount, ih]

namespace Token

def lits : Token → Nat
  | word pieces => litCount pieces
  | op _ => 0

def ops : Token → Nat
  | word _ => 0
  | op chars => chars.length

def total (count : Token → Nat) : List Token → Nat
  | [] => 0
  | token :: tokens => count token + total count tokens

@[simp] theorem total_nil (count : Token → Nat) : total count [] = 0 := rfl

@[simp] theorem total_cons (count : Token → Nat) (token : Token) (tokens : List Token) :
    total count (token :: tokens) = count token + total count tokens := rfl

@[simp] theorem total_append (count : Token → Nat) (tokens tokens' : List Token) :
    total count (tokens ++ tokens') = total count tokens + total count tokens' := by
  induction tokens with
  | nil => exact (Nat.zero_add _).symm
  | cons token tokens ih => rw [List.cons_append, total_cons, total_cons, ih, Nat.add_assoc]

end Token

namespace Reader

/-- In quotes a word is being read. -/
def Sound (s : Reader) : Prop := s.mode.inQuotes = true → s.current.inWord = true

/-- How many characters have been read that stand for themselves. -/
def lits (s : Reader) : Nat := Token.total Token.lits (s.tokens ++ s.current.finish)

/-- How many operator characters have been read. -/
def ops (s : Reader) : Nat := Token.total Token.ops (s.tokens ++ s.current.finish)

/-- A backslash in double quotes stands for itself if no character follows that it quotes. -/
def pending : Mode → Nat
  | .doubleEscape => 1
  | _ => 0

def weight (s : Reader) : Nat := s.lits + pending s.mode

variable {s : Reader}

@[simp] theorem mode_close (s : Reader) : s.close.mode = s.mode := rfl

@[simp] theorem mode_add (s : Reader) (pieces : List Piece) : (s.add pieces).mode = s.mode := by
  unfold add
  split <;> rfl

@[simp] theorem mode_addOperator (s : Reader) (c : Char) : (s.addOperator c).mode = s.mode := by
  unfold addOperator
  split <;> rfl

@[simp] theorem mode_setMode (s : Reader) (mode : Mode) : (s.setMode mode).mode = mode := rfl

@[simp] theorem inWord_add (s : Reader) (pieces : List Piece) :
    (s.add pieces).current.inWord = true := by
  unfold add
  split <;> rfl

@[simp] theorem current_setMode (s : Reader) (mode : Mode) :
    (s.setMode mode).current = s.current := rfl

@[simp] theorem lits_close (s : Reader) : s.close.lits = s.lits := by
  simp [lits, close, Current.finish]

@[simp] theorem ops_close (s : Reader) : s.close.ops = s.ops := by
  simp [ops, close, Current.finish]

@[simp] theorem lits_setMode (s : Reader) (mode : Mode) : (s.setMode mode).lits = s.lits := rfl

@[simp] theorem ops_setMode (s : Reader) (mode : Mode) : (s.setMode mode).ops = s.ops := rfl

@[simp] theorem lits_add (s : Reader) (pieces : List Piece) :
    (s.add pieces).lits = s.lits + litCount pieces := by
  unfold add
  split
  · rename_i before hcurrent
    simp [lits, Current.finish, hcurrent, Token.lits, litCount_append]
    omega
  · simp [lits, close, Current.finish, Token.lits]
    omega

@[simp] theorem ops_add (s : Reader) (pieces : List Piece) : (s.add pieces).ops = s.ops := by
  unfold add
  split
  · rename_i before hcurrent
    simp [ops, Current.finish, hcurrent, Token.ops]
  · simp [ops, close, Current.finish, Token.ops]

@[simp] theorem lits_addOperator (s : Reader) (c : Char) : (s.addOperator c).lits = s.lits := by
  unfold addOperator
  split
  · rename_i before hcurrent
    simp [lits, Current.finish, hcurrent, Token.lits]
  · simp [lits, close, Current.finish, Token.lits]

@[simp] theorem ops_addOperator (s : Reader) (c : Char) : (s.addOperator c).ops = s.ops + 1 := by
  unfold addOperator
  split
  · rename_i before hcurrent
    simp [ops, Current.finish, hcurrent, Token.ops]
    omega
  · simp [ops, close, Current.finish, Token.ops]
    omega

/-- Two parts of a word are one. -/
theorem add_add (s : Reader) (a b : List Piece) : (s.add a).add b = s.add (a ++ b) := by
  cases s with
  | mk tokens current mode => cases current <;> simp [add, close]

theorem add_nil (hword : s.current.inWord = true) : s.add [] = s := by
  cases s with
  | mk tokens current mode =>
      cases current with
      | word pieces => simp [add]
      | gap => cases hword
      | op chars => cases hword

/-- What a character outside quotes does that does not stand for itself. -/
inductive Departs (s : Reader) (c : Char) : Reader → Prop
  | blank : Departs s c s.close
  | operator : Departs s c (s.addOperator c)
  | escape : Departs s c (s.setMode .escape)
  | single : Departs s c ((s.add []).setMode .single)
  | double : Departs s c ((s.add []).setMode .double)
  | active : Departs s c (s.add [.active c])
  | comment : Departs s c (s.close.setMode .comment)

/-- A character outside quotes stands for itself or does one of these things. -/
theorem stepPlain_cases (s : Reader) (c : Char) :
    (Ordinary s.current.inWord c ∧ s.stepPlain c = s.add [.lit c]) ∨
      (¬ Ordinary s.current.inWord c ∧ Departs s c (s.stepPlain c)) := by
  unfold stepPlain
  cases hblank : isBlank c with
  | true => exact .inr ⟨fun h => absurd (hblank.symm.trans h.1) (by decide), .blank⟩
  | false =>
    cases hoperator : isOperator c with
    | true => exact .inr ⟨fun h => absurd (hoperator.symm.trans h.2.1) (by decide), .operator⟩
    | false =>
      simp only [Bool.false_eq_true, if_false]
      split
      · rename_i hslash
        exact .inr ⟨fun h => h.2.2.1 hslash, .escape⟩
      rename_i hslash
      split
      · rename_i hsingle
        exact .inr ⟨fun h => h.2.2.2.1 hsingle, .single⟩
      rename_i hsingle
      split
      · rename_i hdouble
        exact .inr ⟨fun h => h.2.2.2.2.1 hdouble, .double⟩
      rename_i hdouble
      cases hactive : isActive c with
      | true =>
        exact .inr ⟨fun h => absurd (hactive.symm.trans h.2.2.2.2.2.1) (by decide), .active⟩
      | false =>
        have hordinary : ∀ {w}, (w = true ∨ c ≠ '#' ∧ c ≠ '~') → Ordinary w c :=
          fun hstart => ⟨hblank, hoperator, hslash, hsingle, hdouble, hactive, hstart⟩
        simp only [Bool.false_eq_true, if_false]
        split
        · rename_i hword
          exact .inl ⟨hordinary (.inl hword), rfl⟩
        rename_i hword
        split
        · rename_i hhash
          exact .inr ⟨fun h => (h.2.2.2.2.2.2.resolve_left hword).1 hhash, .comment⟩
        rename_i hhash
        split
        · rename_i htilde
          exact .inr ⟨fun h => (h.2.2.2.2.2.2.resolve_left hword).2 htilde, .active⟩
        rename_i htilde
        exact .inl ⟨hordinary (.inr ⟨hhash, htilde⟩), rfl⟩

theorem Departs.lits_le {s' : Reader} {c : Char} (h : Departs s c s') : s'.lits ≤ s.lits := by
  cases h <;> simp [litCount]

theorem Departs.ops_le {s' : Reader} {c : Char} (h : Departs s c s') : s.ops ≤ s'.ops := by
  cases h <;> simp

theorem Departs.mode_ne {s' : Reader} {c : Char} (h : Departs s c s') (hmode : s.mode = .plain) :
    s'.mode ≠ .doubleEscape := by
  cases h <;> simp [hmode]

theorem mode_stepPlain (c : Char) (hmode : s.mode = .plain) :
    (s.stepPlain c).mode ≠ .doubleEscape := by
  rcases stepPlain_cases s c with ⟨-, heq⟩ | ⟨-, hdeparts⟩
  · rw [heq, mode_add, hmode]
    decide
  · exact hdeparts.mode_ne hmode

theorem lits_stepPlain_le (c : Char) : (s.stepPlain c).lits ≤ s.lits + 1 := by
  rcases stepPlain_cases s c with ⟨-, heq⟩ | ⟨-, hdeparts⟩
  · refine Nat.le_of_eq ?_
    rw [heq, lits_add]
    rfl
  · exact Nat.le_succ_of_le hdeparts.lits_le

theorem weight_plain (hmode : s.mode ≠ .doubleEscape) : s.weight = s.lits := by
  unfold weight pending
  split
  · rename_i heq
    exact absurd heq hmode
  · rfl

/-- A character stands for itself at most once. -/
theorem weight_step_le (s : Reader) (c : Char) : (s.step c).weight ≤ s.weight + 1 := by
  unfold step
  split
  · rename_i hmode
    rw [weight_plain (mode_stepPlain c hmode), weight_plain (by rw [hmode]; decide)]
    exact lits_stepPlain_le c
  · rename_i hmode
    split <;> simp [weight, pending, hmode, litCount]
  · rename_i hmode
    split <;> simp [weight, pending, hmode, litCount]
  · rename_i hmode
    split_ifs <;> simp [weight, pending, hmode, litCount]
  · rename_i hmode
    split_ifs <;> simp [weight, pending, hmode, litCount]
    omega
  · rename_i hmode
    split <;> simp [weight, pending, hmode]

theorem weight_read_le (s : Reader) (text : List Char) :
    (s.read text).weight ≤ s.weight + text.length := by
  induction text generalizing s with
  | nil => exact Nat.le_refl _
  | cons c text ih =>
      have hstep := weight_step_le s c
      have hrest := ih (s.step c)
      rw [List.length_cons]
      exact Nat.le_trans hrest (by omega)

/-- A text that is read literally stands for itself. -/
theorem weight_literal (text : List Char) (hmode : s.mode ≠ .comment) :
    (s.literal text).weight = s.weight + text.length := by
  unfold literal
  split
  · rename_i heq
    simp [weight, pending, heq]
  · rename_i heq
    simp [weight, pending, heq]
  · rename_i heq
    simp [weight, pending, heq]
  · rename_i heq
    simp [weight, pending, heq]
  · rename_i heq
    simp [weight, pending, heq, litCount]
    omega
  · rename_i heq
    exact absurd heq hmode

/-- After a character that does not stand for itself a text is no longer read literally. -/
theorem read_ne_literal {c : Char} (hmode : s.mode ≠ .comment)
    (hstuck : (s.step c).weight ≤ s.weight) (text : List Char) :
    s.read (c :: text) ≠ s.literal (c :: text) := by
  intro heq
  have hread : (s.read (c :: text)).weight ≤ s.weight + text.length :=
    Nat.le_trans (weight_read_le (s.step c) text) (by omega)
  rw [heq, weight_literal _ hmode, List.length_cons] at hread
  omega

theorem setMode_eq {m : Mode} (h : s.mode = m) : s.setMode m = s := by
  subst h
  rfl

theorem add_setMode (s : Reader) (pieces : List Piece) (m : Mode) :
    (s.setMode m).add pieces = (s.add pieces).setMode m := by
  cases s with
  | mk tokens current mode => cases current <;> rfl

theorem setMode_setMode (s : Reader) (m m' : Mode) : (s.setMode m).setMode m' = s.setMode m' := rfl

theorem literal_plain (h : s.mode = .plain) (text : List Char) :
    s.literal text = s.add (text.map .lit) := by
  rw [literal, h]
  exact setMode_eq (by rw [mode_add, h])

theorem literal_escape (h : s.mode = .escape) (text : List Char) :
    s.literal text = (s.add (text.map .lit)).setMode .plain := by
  rw [literal, h]

theorem literal_single (h : s.mode = .single) (text : List Char) :
    s.literal text = s.add (text.map .lit) := by
  rw [literal, h]

theorem literal_double (h : s.mode = .double) (text : List Char) :
    s.literal text = s.add (text.map .lit) := by
  rw [literal, h]

theorem literal_doubleEscape (h : s.mode = .doubleEscape) (text : List Char) :
    s.literal text = (s.add (.lit '\\' :: text.map .lit)).setMode .double := by
  rw [literal, h]

theorem literal_comment (h : s.mode = .comment) (text : List Char) : s.literal text = s := by
  rw [literal, h]

theorem sound_add (s : Reader) (pieces : List Piece) (m : Mode) :
    ((s.add pieces).setMode m).Sound := fun _ => inWord_add s pieces

theorem sound_added (s : Reader) (pieces : List Piece) : (s.add pieces).Sound :=
  fun _ => inWord_add s pieces

/-- Nothing is read literally where it leaves a word behind. -/
theorem read_nil_iff (hs : s.Sound) :
    s.read [] = s.literal [] ↔ Tame s.mode s.current.inWord [] := by
  show s = s.literal [] ↔ _
  cases hmode : s.mode with
  | plain =>
      rw [literal_plain hmode, List.map_nil, Tame]
      constructor
      · intro h
        rw [h, inWord_add]
      · intro h
        exact (add_nil h).symm
  | escape =>
      rw [literal_escape hmode, Tame, iff_false]
      intro h
      have hplain := congrArg Reader.mode h
      rw [hmode, mode_setMode] at hplain
      cases hplain
  | single =>
      rw [literal_single hmode, List.map_nil, add_nil (hs (by rw [hmode]; rfl)), Tame]
      exact iff_of_true rfl trivial
  | double =>
      rw [literal_double hmode, List.map_nil, add_nil (hs (by rw [hmode]; rfl)), Tame]
      exact iff_of_true rfl trivial
  | doubleEscape =>
      rw [literal_doubleEscape hmode, Tame, iff_false]
      intro h
      have hdouble := congrArg Reader.mode h
      rw [hmode, mode_setMode] at hdouble
      cases hdouble
  | comment =>
      rw [literal_comment hmode, Tame]
      exact iff_of_true rfl List.not_mem_nil

theorem ops_step_le (s : Reader) (c : Char) : s.ops ≤ (s.step c).ops := by
  unfold step
  split
  · rcases stepPlain_cases s c with ⟨-, heq⟩ | ⟨-, hdeparts⟩
    · refine Nat.le_of_eq ?_
      rw [heq, ops_add]
    · exact hdeparts.ops_le
  all_goals split_ifs <;> simp

theorem ops_read_le (s : Reader) (text : List Char) : s.ops ≤ (s.read text).ops := by
  induction text generalizing s with
  | nil => exact Nat.le_refl _
  | cons c text ih => exact Nat.le_trans (ops_step_le s c) (ih (s.step c))

/-- A comment goes on to the end of the line. -/
theorem read_comment_iff (hmode : s.mode = .comment) (text : List Char) :
    s.read text = s ↔ '\n' ∉ text := by
  induction text with
  | nil => exact iff_of_true rfl List.not_mem_nil
  | cons c text ih =>
      show (s.step c).read text = s ↔ _
      by_cases hline : c = '\n'
      · have hstep : s.step c = (s.addOperator c).setMode .plain := by
          rw [step, hmode]
          exact if_pos hline
        refine iff_of_false (fun h => ?_) fun h => h (hline ▸ List.mem_cons_self)
        have hmore := ops_read_le (s.step c) text
        rw [h, hstep, ops_setMode, ops_addOperator] at hmore
        omega
      · have hstep : s.step c = s := by
          rw [step, hmode]
          exact if_neg hline
        rw [hstep, ih, List.mem_cons, not_or]
        exact (and_iff_right fun h => hline h.symm).symm

/-- The reading of a text is settled for all readers. -/
def Settled (text : List Char) : Prop :=
  ∀ {s : Reader}, s.Sound → (s.read text = s.literal text ↔ Tame s.mode s.current.inWord text)

section Characters

variable {c : Char} {text : List Char} (ih : Settled text)

include ih

theorem read_cons_plain (hmode : s.mode = .plain) :
    (s.step c).read text = s.literal (c :: text) ↔
      Tame .plain s.current.inWord (c :: text) := by
  have hstep : s.step c = s.stepPlain c := by rw [step, hmode]
  rw [Tame]
  rcases stepPlain_cases s c with ⟨hordinary, heq⟩ | ⟨hordinary, hdeparts⟩
  · have hadded : (s.add [.lit c]).mode = .plain := by rw [mode_add, hmode]
    have htext := ih (sound_added s [.lit c])
    rw [literal_plain hadded, add_add, hadded, inWord_add] at htext
    rw [hstep, heq, literal_plain hmode, and_iff_right hordinary]
    exact htext
  · refine iff_of_false (read_ne_literal (by rw [hmode]; decide) ?_ text) fun h =>
      hordinary h.1
    rw [hstep, weight_plain (mode_stepPlain c hmode), weight_plain (by rw [hmode]; decide)]
    exact hdeparts.lits_le

theorem read_cons_escape (hmode : s.mode = .escape) :
    (s.step c).read text = s.literal (c :: text) ↔
      Tame .escape s.current.inWord (c :: text) := by
  rw [Tame]
  by_cases hline : c = '\n'
  · have hstep : s.step c = s.setMode .plain := by
      rw [step, hmode]
      exact if_pos hline
    refine iff_of_false (read_ne_literal (by rw [hmode]; decide) ?_ text) fun h =>
      h.1 hline
    rw [hstep]
    simp [weight, pending, hmode]
  · have hstep : s.step c = (s.add [.lit c]).setMode .plain := by
      rw [step, hmode]
      exact if_neg hline
    have htext := ih (sound_add s [.lit c] .plain)
    rw [literal_plain rfl, add_setMode, add_add, mode_setMode, current_setMode,
      inWord_add] at htext
    rw [hstep, literal_escape hmode, and_iff_right hline]
    exact htext

theorem read_cons_single (hmode : s.mode = .single) :
    (s.step c).read text = s.literal (c :: text) ↔
      Tame .single s.current.inWord (c :: text) := by
  have hadded : (s.add [.lit c]).mode = .single := by rw [mode_add, hmode]
  rw [Tame]
  by_cases hquote : c = '\''
  · have hstep : s.step c = s.setMode .plain := by
      rw [step, hmode]
      exact if_pos hquote
    refine iff_of_false (read_ne_literal (by rw [hmode]; decide) ?_ text) fun h =>
      h.1 hquote
    rw [hstep]
    simp [weight, pending, hmode]
  · have hstep : s.step c = s.add [.lit c] := by
      rw [step, hmode]
      exact if_neg hquote
    have htext := ih (sound_added s [.lit c])
    rw [literal_single hadded, add_add, hadded, inWord_add] at htext
    rw [hstep, literal_single hmode, and_iff_right hquote]
    exact htext

theorem read_cons_double (hs : s.Sound) (hmode : s.mode = .double) :
    (s.step c).read text = s.literal (c :: text) ↔
      Tame .double s.current.inWord (c :: text) := by
  have hstuck := read_ne_literal (s := s) (c := c) (by rw [hmode]; decide)
  have hadded : (s.add [.lit c]).mode = .double := by rw [mode_add, hmode]
  have hstep : s.step c = if c = '"' then s.setMode .plain
      else if c = '\\' then s.setMode .doubleEscape
      else if isDoubleActive c then s.add [.active c] else s.add [.lit c] := by
    rw [step, hmode]
  rw [Tame]
  by_cases hslash : c = '\\'
  · subst hslash
    have hstep : s.step '\\' = s.setMode .doubleEscape := hstep
    have hword : s.current.inWord = true := hs (by rw [hmode]; rfl)
    have hsound : (s.setMode .doubleEscape).Sound := fun _ => hword
    have htext := ih hsound
    have hself : (s.add (.lit '\\' :: text.map .lit)).setMode .double =
        s.add (.lit '\\' :: text.map .lit) := setMode_eq (by rw [mode_add, hmode])
    rw [literal_doubleEscape rfl, add_setMode, setMode_setMode, hself, mode_setMode,
      current_setMode, hword] at htext
    rw [if_pos rfl, hstep, literal_double hmode]
    exact htext
  · rw [if_neg hslash]
    rw [if_neg hslash] at hstep
    by_cases hquote : c = '"'
    · rw [if_pos hquote] at hstep
      refine iff_of_false (hstuck ?_ text) fun h => h.1 hquote
      rw [hstep]
      simp [weight, pending, hmode]
    · rw [if_neg hquote] at hstep
      by_cases hactive : isDoubleActive c = true
      · rw [if_pos hactive] at hstep
        refine iff_of_false (hstuck ?_ text) fun h => ?_
        · rw [hstep]
          simp [weight, hmode, litCount]
        · rw [hactive] at h
          exact Bool.noConfusion h.2.1
      · rw [if_neg hactive] at hstep
        have htext := ih (sound_added s [.lit c])
        rw [literal_double hadded, add_add, hadded, inWord_add] at htext
        rw [hstep, literal_double hmode, and_iff_right hquote,
          and_iff_right (Bool.eq_false_iff.mpr hactive)]
        exact htext

theorem read_cons_doubleEscape (hmode : s.mode = .doubleEscape) :
    (s.step c).read text = s.literal (c :: text) ↔
      Tame .doubleEscape s.current.inWord (c :: text) := by
  rw [Tame]
  by_cases hescaped : isDoubleEscaped c = true
  · refine iff_of_false (read_ne_literal (by rw [hmode]; decide) ?_ text) fun h => ?_
    · rw [step, hmode]
      by_cases hline : c = '\n'
      · simp [hline, weight, pending, hmode]
      · simp [hline, hescaped, weight, pending, hmode, litCount]
    · rw [hescaped] at h
      exact Bool.noConfusion h.1
  · have hline : c ≠ '\n' := by
      rintro rfl
      exact hescaped (by decide)
    have hstep : s.step c = (s.add [.lit '\\', .lit c]).setMode .double := by
      rw [step, hmode]
      simp only [if_neg hline, if_neg hescaped]
    have htext := ih (sound_add s [.lit '\\', .lit c] .double)
    rw [literal_double rfl, add_setMode, add_add, mode_setMode, current_setMode,
      inWord_add] at htext
    rw [hstep, literal_doubleEscape hmode,
      and_iff_right (Bool.eq_false_iff.mpr hescaped)]
    exact htext

end Characters

/-- The texts that are read literally. -/
theorem read_eq_literal_iff (hs : s.Sound) (text : List Char) :
    s.read text = s.literal text ↔ Tame s.mode s.current.inWord text := by
  induction text generalizing s with
  | nil => exact read_nil_iff hs
  | cons c text ih =>
      show (s.step c).read text = s.literal (c :: text) ↔ _
      have ih : Settled text := ih
      cases hmode : s.mode with
      | plain => exact read_cons_plain ih hmode
      | escape => exact read_cons_escape ih hmode
      | single => exact read_cons_single ih hmode
      | double => exact read_cons_double ih hs hmode
      | doubleEscape => exact read_cons_doubleEscape ih hmode
      | comment =>
          rw [literal_comment hmode, Tame]
          exact read_comment_iff hmode (c :: text)

theorem sound_start : start.Sound := fun h => Bool.noConfusion h

theorem sound_outside (h : s.mode.inQuotes = false) : s.Sound := by
  intro hquotes
  rw [h] at hquotes
  cases hquotes

theorem sound_stepPlain (hmode : s.mode = .plain) (c : Char) : (s.stepPlain c).Sound := by
  have houtside : s.mode.inQuotes = false := by rw [hmode]; rfl
  rcases stepPlain_cases s c with ⟨-, heq⟩ | ⟨-, hdeparts⟩
  · rw [heq]
    exact sound_added s _
  · generalize s.stepPlain c = s' at hdeparts
    cases hdeparts with
    | blank => exact sound_outside houtside
    | operator => exact sound_outside (by rw [mode_addOperator]; exact houtside)
    | escape => exact sound_outside rfl
    | single => exact sound_add s _ _
    | double => exact sound_add s _ _
    | active => exact sound_added s _
    | comment => exact sound_outside rfl

theorem sound_step (hs : s.Sound) (c : Char) : (s.step c).Sound := by
  unfold step
  split
  · rename_i hmode
    exact sound_stepPlain hmode c
  · split_ifs
    · exact sound_outside rfl
    · exact sound_outside rfl
  · split_ifs
    · exact sound_outside rfl
    · exact sound_added s _
  · rename_i hmode
    split_ifs
    · exact sound_outside rfl
    · exact fun _ => hs (by rw [hmode]; rfl)
    · exact sound_added s _
    · exact sound_added s _
  · rename_i hmode
    split_ifs
    · exact fun _ => hs (by rw [hmode]; rfl)
    · exact sound_add s _ _
    · exact sound_add s _ _
  · split_ifs
    · exact sound_outside rfl
    · exact hs

theorem sound_literal (hs : s.Sound) (text : List Char) : (s.literal text).Sound := by
  unfold literal
  split
  · exact sound_add s _ _
  · exact sound_add s _ _
  · exact sound_added s _
  · exact sound_added s _
  · exact sound_add s _ _
  · exact hs

end Reader

/-- Outside quotes a text of ordinary characters is read literally, if it does not begin a word
as a comment or an expansion, and is not a word without characters. -/
theorem tame_plain_iff (inWord : Bool) (text : List Char) :
    Tame .plain inWord text ↔
      (inWord = true ∨ ∃ c rest, text = c :: rest ∧ c ≠ '#' ∧ c ≠ '~') ∧
        ∀ c ∈ text, Ordinary true c := by
  have hweak : ∀ {w c}, Ordinary w c ↔ (w = true ∨ c ≠ '#' ∧ c ≠ '~') ∧ Ordinary true c := by
    intro w c
    constructor
    · rintro ⟨h₁, h₂, h₃, h₄, h₅, h₆, h₇⟩
      exact ⟨h₇, h₁, h₂, h₃, h₄, h₅, h₆, .inl rfl⟩
    · rintro ⟨h₇, h₁, h₂, h₃, h₄, h₅, h₆, -⟩
      exact ⟨h₁, h₂, h₃, h₄, h₅, h₆, h₇⟩
  induction text generalizing inWord with
  | nil => simp [Tame]
  | cons c text ih =>
      rw [Tame]
      constructor
      · rintro ⟨hc, htext⟩
        obtain ⟨hstart, hc⟩ := hweak.mp hc
        obtain ⟨-, hrest⟩ := (ih true).mp htext
        exact ⟨hstart.imp id fun h => ⟨c, text, rfl, h⟩, List.forall_mem_cons.mpr ⟨hc, hrest⟩⟩
      · rintro ⟨hstart, hall⟩
        obtain ⟨hc, hrest⟩ := List.forall_mem_cons.mp hall
        refine ⟨hweak.mpr ⟨hstart.imp id ?_, hc⟩, (ih true).mpr ⟨.inl rfl, hrest⟩⟩
        rintro ⟨c', rest, heq, hplain⟩
        cases heq
        exact hplain

namespace Ordinary

variable {inWord : Bool} {c : Char}

theorem ne_line (h : Ordinary inWord c) : c ≠ '\n' := by
  rintro rfl
  exact Bool.noConfusion h.2.1

theorem not_doubleActive (h : Ordinary inWord c) : isDoubleActive c = false := by
  refine Bool.eq_false_iff.mpr fun hactive => ?_
  have hmem : c ∈ ['$', backquote] := by simpa [isDoubleActive] using hactive
  have hexpands : isActive c = true := by
    rcases List.mem_cons.mp hmem with rfl | hmem
    · rfl
    · rw [List.mem_singleton.mp hmem]
      rfl
  rw [h.2.2.2.2.2.1] at hexpands
  cases hexpands

theorem not_doubleEscaped (h : Ordinary inWord c) : isDoubleEscaped c = false := by
  have hactive := h.not_doubleActive
  have hline := h.ne_line
  obtain ⟨-, -, hslash, -, hdouble, -⟩ := h
  simp_all [isDoubleEscaped, isDoubleActive]

end Ordinary

theorem tame_comment_iff {inWord : Bool} {text : List Char} :
    Tame .comment inWord text ↔ '\n' ∉ text := by
  cases text <;> rfl

/-- Ordinary characters are read literally in a word, in quotes and in a comment. -/
theorem tame_ordinary {text : List Char} (h : ∀ c ∈ text, Ordinary true c) (inWord : Bool) :
    Tame .plain true text ∧ Tame .single inWord text ∧ Tame .double inWord text ∧
      Tame .comment inWord text := by
  refine ⟨(tame_plain_iff true text).mpr ⟨.inl rfl, h⟩, ?_, ?_, ?_⟩
  · induction text generalizing inWord with
    | nil => trivial
    | cons c text ih =>
        obtain ⟨hc, htext⟩ := List.forall_mem_cons.mp h
        exact ⟨hc.2.2.2.1, ih htext true⟩
  · induction text generalizing inWord with
    | nil => trivial
    | cons c text ih =>
        obtain ⟨hc, htext⟩ := List.forall_mem_cons.mp h
        rw [Tame, if_neg hc.2.2.1]
        exact ⟨hc.2.2.2.2.1, hc.not_doubleActive, ih htext true⟩
  · exact tame_comment_iff.mpr fun hmem => (h _ hmem).ne_line rfl

/-- A text of ordinary characters that can begin a word is read literally everywhere. -/
theorem tame_of_ordinary {c : Char} {text : List Char} (hc : Ordinary false c)
    (htext : ∀ d ∈ text, Ordinary true d) (mode : Mode) (inWord : Bool) :
    Tame mode inWord (c :: text) := by
  have hfirst : Ordinary true c := ⟨hc.1, hc.2.1, hc.2.2.1, hc.2.2.2.1, hc.2.2.2.2.1,
    hc.2.2.2.2.2.1, .inl rfl⟩
  have hall := List.forall_mem_cons.mpr ⟨hfirst, htext⟩
  cases mode with
  | plain =>
      refine (tame_plain_iff inWord _).mpr ⟨.inr ⟨c, text, rfl, ?_⟩, hall⟩
      exact hc.2.2.2.2.2.2.resolve_left (by decide)
  | escape => exact ⟨hc.ne_line, (tame_ordinary htext true).1⟩
  | single => exact (tame_ordinary hall inWord).2.1
  | double => exact (tame_ordinary hall inWord).2.2.1
  | doubleEscape => exact ⟨hc.not_doubleEscaped, (tame_ordinary htext true).2.2.1⟩
  | comment => exact (tame_ordinary hall inWord).2.2.2

/-! The words of a command without operators and expansions. -/

def Piece.char? : Piece → Option Char
  | lit c => some c
  | active _ => none

def Token.word? : Token → Option String
  | word pieces => (pieces.mapM Piece.char?).map String.ofList
  | op _ => none

def Token.endsLine : Token → Bool
  | word _ => false
  | op chars => chars.all (· = '\n')

/-- The words of a line that is one command; it may end in line ends. -/
def simpleCommand (line : String) : Option (List String) :=
  let s := Reader.start.read line.toList
  if s.mode = .plain then (s.finish.rdropWhile Token.endsLine).mapM Token.word? else none

theorem Token.word?_lits (text : List Char) :
    (Token.word (text.map .lit)).word? = some (String.ofList text) := by
  have hchars : (text.map Piece.lit).mapM Piece.char? = some text := by
    induction text with
    | nil => rfl
    | cons c text ih => simp [List.mapM_cons, ih, Piece.char?]
  rw [Token.word?, hchars, Option.map_some]

/-- The first word of a command is the first token of its line. -/
theorem word_of_simpleCommand {line word : String} {words : List String}
    (h : simpleCommand line = some (word :: words)) :
    ∃ token tokens, (Reader.start.read line.toList).finish = token :: tokens ∧
      token.word? = some word := by
  unfold simpleCommand at h
  dsimp only at h
  split at h
  · obtain ⟨rest, hrest⟩ := List.rdropWhile_prefix Token.endsLine
      (l := (Reader.start.read line.toList).finish)
    generalize (Reader.start.read line.toList).finish.rdropWhile Token.endsLine = kept at h hrest
    cases kept with
    | nil => cases h
    | cons token kept =>
        refine ⟨token, kept ++ rest, hrest.symm, ?_⟩
        cases hword : token.word? with
        | none => simp [List.mapM_cons, hword] at h
        | some found =>
            cases hothers : kept.mapM Token.word? with
            | none => simp [List.mapM_cons, hword, hothers] at h
            | some others =>
                simp only [List.mapM_cons, hword, hothers, Option.pure_def, Option.bind_eq_bind,
                  Option.bind_some, Option.some.injEq, List.cons.injEq] at h
                rw [h.1]
  · cases h

end EsyncUa.ShellWords
