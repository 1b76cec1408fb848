import EsyncUa.CStrings
import Mathlib.Tactic.Ring

/-!
expand_tool_args with its buffer. The size of the buffer is computed from the numbers of
placeholders in the template, which are counted before the loop that replaces them.
-/
namespace EsyncUa.ToolArguments

open EsyncUa.CStrings

/-- OFA, NFA and PFA. -/
def ofa : List Byte := [123, 111, 125]
def nfa : List Byte := [123, 110, 125]
def pfa : List Byte := [123, 112, 125]

/-- tolower in the C locale. -/
def tolower (b : Byte) : Byte := if 65 ≤ b ∧ b ≤ 90 then b + 32 else b

def startsWith (needle text : List Byte) : Bool :=
  (text.take needle.length).map tolower = needle.map tolower

def strcasestr (needle : List Byte) : List Byte → Option (List Byte)
  | [] => if startsWith needle [] then some [] else none
  | b :: text =>
      if startsWith needle (b :: text) then some (b :: text) else strcasestr needle text

/-- The loop of __substrcnt. -/
def substrcntFrom (c : List Byte) : Nat → List Byte → Nat → Option Nat
  | 0, _, _ => none
  | fuel + 1, p, r =>
      match strcasestr c p with
      | none => some r
      | some p => (int (r + 1)).bind (substrcntFrom c fuel (p.drop c.length))

/-- __substrcnt; every round of its loop takes at least one byte. -/
def substrcnt (s : CString) (c : List Byte) : Option Nat :=
  substrcntFrom c (s.strlen + 1) s.bytes 0

/-- The first bytes of a buffer with more text behind them, if there is room for it. -/
def put (size : Nat) (res text : List Byte) : Option (List Byte) :=
  if (res ++ text).length ≤ size then some (res ++ text) else none

section Expansion

variable (old new diff : Option CString)

/-- What one placeholder adds to the size of the buffer. -/
def grown (args : CString) (rp : Option CString) (ex : List Byte) : Option Int :=
  match rp with
  | none => some 0
  | some rp =>
      (substrcnt args ex).map fun (cnt : Nat) => cnt * (rp.strlen - ex.length : Int)

def allocated (args : CString) : Option Nat := do
  let o ← grown args old ofa
  let n ← grown args new nfa
  let p ← grown args diff pfa
  return sizeT (args.strlen + 1 + o + n + p)

def candidate (rp : Option CString) (ex s : List Byte) : Option (CString × List Byte) :=
  rp.bind fun rp => if strcasestr ex s = some s then some (rp, ex) else none

/-- The condition in the loop of expand_tool_args, with what it leaves in rp and ex. -/
def replacement (s : List Byte) : Option (CString × List Byte) :=
  (candidate old ofa s).or ((candidate new nfa s).or (candidate diff pfa s))

/-- The loop of expand_tool_args and the terminator behind it; the first number is that of the
bytes by which s goes on. -/
def fill (size : Nat) : Nat → List Byte → List Byte → Option (List Byte)
  | _, [], res => put size res [0]
  | skip + 1, _ :: s, res => fill size skip s res
  | 0, c :: s, res =>
      match replacement old new diff (c :: s) with
      | some (rp, ex) => do
          let written ← put size res rp.memory
          let i ← int (res.length + rp.strlen)
          fill size (ex.length - 1) s (written.take i)
      | none => do
          let written ← put size res [c]
          let i ← int (res.length + 1)
          fill size 0 s (written.take i)

/-- expand_tool_args: what is in the buffer, and its size. -/
def expandToolArgs (args : CString) : Option (List Byte × Nat) := do
  let size ← allocated old new diff args
  let res ← fill old new diff size 0 args.bytes []
  return (res, size)

/-- A string that is present, and its placeholder. -/
def Replaces (rp : CString) (ex : List Byte) : Prop :=
  (old = some rp ∧ ex = ofa) ∨ (new = some rp ∧ ex = nfa) ∨ (diff = some rp ∧ ex = pfa)

/-- The text that a template stands for, read from left to right. -/
inductive Expansion : List Byte → List Byte → Prop
  | nil : Expansion [] []
  | replace {rp : CString} {ex found s out : List Byte} (h : Replaces old new diff rp ex)
      (hfound : found.map tolower = ex) (hs : Expansion s out) :
      Expansion (found ++ s) (rp.bytes ++ out)
  | keep {c : Byte} {s out : List Byte}
      (h : ∀ rp ex, Replaces old new diff rp ex →
        ∀ found rest, c :: s = found ++ rest → found.map tolower ≠ ex)
      (hs : Expansion s out) : Expansion (c :: s) (c :: out)

/-- At how many positions of the text the needle stands. -/
def occurrences (ex : List Byte) : List Byte → Nat
  | [] => 0
  | b :: s => occurrences ex s + if startsWith ex (b :: s) then 1 else 0

def growth (s : List Byte) (rp : Option CString) (ex : List Byte) : Int :=
  match rp with
  | none => 0
  | some rp => occurrences ex s * (rp.strlen - ex.length : Int)

/-- The length of the text that a template stands for. -/
def expandedLength (s : List Byte) : Int :=
  s.length + growth s old ofa + growth s new nfa + growth s diff pfa

/-- The buffer holds the text of the template and a terminator, and no byte more. -/
def Expands (args : CString) (result : Option (List Byte × Nat)) : Prop :=
  ∃ text, Expansion old new diff args.bytes text ∧
    result = some (text ++ [0], text.length + 1)

/-- The text of the template and the numbers of its placeholders can be counted in an int. -/
def Fits (args : CString) : Prop :=
  expandedLength old new diff args.bytes < 2 ^ 31 ∧
    ∀ rp ex, Replaces old new diff rp ex → occurrences ex args.bytes < 2 ^ 31

end Expansion

theorem startsWith_iff {ex s : List Byte} :
    startsWith ex s = true ↔
      ∃ found rest, s = found ++ rest ∧ found.map tolower = ex.map tolower := by
  rw [startsWith, decide_eq_true_eq, ← map_take_eq_iff, List.length_map]

theorem strcasestr_some {ex s p : List Byte} (h : strcasestr ex s = some p) :
    startsWith ex p = true ∧ ∃ front, s = front ++ p := by
  induction s with
  | nil =>
      simp only [strcasestr] at h
      split at h
      · cases h
        exact ⟨‹_›, [], rfl⟩
      · cases h
  | cons b s ih =>
      simp only [strcasestr] at h
      split at h
      · cases h
        exact ⟨‹_›, [], rfl⟩
      · obtain ⟨hp, front, rfl⟩ := ih h
        exact ⟨hp, b :: front, rfl⟩

theorem strcasestr_self_iff {ex s : List Byte} :
    strcasestr ex s = some s ↔ startsWith ex s = true := by
  constructor
  · exact fun h => (strcasestr_some h).1
  · intro h
    cases s with
    | nil => simp [strcasestr, h]
    | cons b s => simp [strcasestr, h]

section Placeholders

/-- The form of the placeholders, which keeps them from overlapping. -/
def Braced (ex : List Byte) : Prop := ∃ x, tolower x = x ∧ x ≠ 123 ∧ ex = [123, x, 125]

theorem braced_ofa : Braced ofa := ⟨111, by decide, by decide, rfl⟩

theorem braced_nfa : Braced nfa := ⟨110, by decide, by decide, rfl⟩

theorem braced_pfa : Braced pfa := ⟨112, by decide, by decide, rfl⟩

theorem replaces_braced {old new diff : Option CString} {rp : CString} {ex : List Byte}
    (h : Replaces old new diff rp ex) : Braced ex := by
  rcases h with ⟨-, rfl⟩ | ⟨-, rfl⟩ | ⟨-, rfl⟩
  · exact braced_ofa
  · exact braced_nfa
  · exact braced_pfa

theorem Braced.map_tolower {ex : List Byte} (h : Braced ex) : ex.map tolower = ex := by
  obtain ⟨x, hx, -, rfl⟩ := h
  have hopen : tolower 123 = 123 := by decide
  have hclose : tolower 125 = 125 := by decide
  simp [hx, hopen, hclose]

theorem Braced.length {ex : List Byte} (h : Braced ex) : ex.length = 3 := by
  obtain ⟨x, -, -, rfl⟩ := h
  rfl

theorem Braced.startsWith_iff {ex s : List Byte} (h : Braced ex) :
    startsWith ex s = true ↔ ∃ found rest, s = found ++ rest ∧ found.map tolower = ex := by
  rw [ToolArguments.startsWith_iff, h.map_tolower]

/-- Only an opening brace begins a placeholder. -/
theorem Braced.startsWith_head {ex s : List Byte} {b : Byte} (h : Braced ex)
    (hb : tolower b ≠ 123) : startsWith ex (b :: s) = false := by
  obtain ⟨x, -, -, rfl⟩ := h
  have hopen : tolower 123 = 123 := by decide
  simp [startsWith, hopen, hb]

/-- Where a placeholder stands no other one does, nor one within it. -/
theorem occurrences_found {ex ex' found s : List Byte} (h : Braced ex) (h' : Braced ex')
    (hfound : found.map tolower = ex) :
    occurrences ex' (found ++ s) = occurrences ex' s + if ex' = ex then 1 else 0 := by
  obtain ⟨x, hx, hne, rfl⟩ := h
  obtain ⟨a, found, rfl, ha, hfound⟩ := List.map_eq_cons_iff.mp hfound
  obtain ⟨b, found, rfl, hb, hfound⟩ := List.map_eq_cons_iff.mp hfound
  obtain ⟨c, found, rfl, hc, hfound⟩ := List.map_eq_cons_iff.mp hfound
  rw [List.map_eq_nil_iff] at hfound
  subst hfound
  have hsecond : startsWith ex' (b :: c :: s) = false := h'.startsWith_head (hb ▸ hx ▸ hne)
  have hthird : startsWith ex' (c :: s) = false := by
    refine h'.startsWith_head ?_
    rw [hc]
    decide
  have hfirst : startsWith ex' (a :: b :: c :: s) = decide (ex' = [123, x, 125]) := by
    obtain ⟨x', hx', -, rfl⟩ := h'
    have hopen : tolower 123 = 123 := by decide
    have hclose : tolower 125 = 125 := by decide
    simp [startsWith, ha, hb, hc, hx', hopen, hclose, eq_comm]
  simp only [List.cons_append, List.nil_append, occurrences, hfirst, hsecond, hthird,
    decide_eq_true_eq, Bool.false_eq_true, if_false, Nat.add_zero]

theorem occurrences_absent {ex s : List Byte} (h : strcasestr ex s = none) :
    occurrences ex s = 0 := by
  induction s with
  | nil => rfl
  | cons b s ih =>
      simp only [strcasestr] at h
      split at h
      · cases h
      · rename_i hnot
        simp [occurrences, ih h, hnot]

theorem occurrences_first {ex s p : List Byte} (h : strcasestr ex s = some p) :
    occurrences ex s = occurrences ex p := by
  induction s with
  | nil =>
      obtain ⟨-, front, hs⟩ := strcasestr_some h
      rw [(List.append_eq_nil_iff.mp hs.symm).2]
  | cons b s ih =>
      simp only [strcasestr] at h
      split at h
      · cases h
        rfl
      · rename_i hnot
        simp [occurrences, ih h, hnot]

/-- The count of __substrcnt is the number of positions, if that is an int. -/
theorem substrcntFrom_eq {ex : List Byte} (hex : Braced ex) (fuel : Nat) (p : List Byte) (r : Nat)
    (hfuel : p.length < fuel) (hr : r < 2 ^ 31) :
    substrcntFrom ex fuel p r = int (r + occurrences ex p) := by
  induction fuel generalizing p r with
  | zero => omega
  | succ fuel ih =>
      simp only [substrcntFrom]
      cases hfind : strcasestr ex p with
      | none =>
          rw [occurrences_absent hfind]
          exact (int_of_lt hr).symm
      | some q =>
          obtain ⟨hq, front, hp⟩ := strcasestr_some hfind
          obtain ⟨found, rest, rfl, hfound⟩ := hex.startsWith_iff.mp hq
          have hlen : found.length = ex.length := by simpa using congrArg List.length hfound
          have hshort : rest.length < fuel := by
            have htotal := congrArg List.length hp
            have hthree := hex.length
            simp only [List.length_append] at htotal
            omega
          have hcount : occurrences ex p = occurrences ex rest + 1 := by
            rw [occurrences_first hfind, occurrences_found hex hex hfound, if_pos rfl]
          have hdrop : (found ++ rest).drop ex.length = rest := by rw [← hlen, List.drop_left]
          simp only [hdrop]
          rw [hcount]
          by_cases hnext : r + 1 < 2 ^ 31
          · rw [int_of_lt hnext, Option.bind_some, ih rest (r + 1) hshort hnext]
            congr 1
            omega
          · have hover : ¬ r + (occurrences ex rest + 1) < 2 ^ 31 := by omega
            rw [int_of_not_lt hover, int_of_not_lt hnext]
            rfl

theorem substrcnt_eq {ex : List Byte} (hex : Braced ex) (s : CString) :
    substrcnt s ex = int (occurrences ex s.bytes) := by
  have hcount := substrcntFrom_eq hex (s.strlen + 1) s.bytes 0 (Nat.lt_succ_self _) (by omega)
  rw [substrcnt, hcount, Nat.zero_add]

end Placeholders

section Results

variable {old new diff : Option CString}

theorem candidate_some {rp : Option CString} {ex s : List Byte} {r : CString × List Byte}
    (h : candidate rp ex s = some r) : rp = some r.1 ∧ r.2 = ex ∧ startsWith ex s = true := by
  obtain ⟨rp, rfl, hfound⟩ := Option.bind_eq_some_iff.mp h
  split at hfound
  · cases hfound
    exact ⟨rfl, rfl, strcasestr_self_iff.mp ‹_›⟩
  · cases hfound

theorem candidate_none {rp : CString} {ex s : List Byte} (h : candidate (some rp) ex s = none) :
    startsWith ex s = false := by
  unfold candidate at h
  rw [Option.bind_some] at h
  split at h
  · cases h
  · rename_i hnot
    rw [strcasestr_self_iff] at hnot
    simpa using hnot

theorem replacement_some {s : List Byte} {rp : CString} {ex : List Byte}
    (h : replacement old new diff s = some (rp, ex)) :
    Replaces old new diff rp ex ∧ startsWith ex s = true := by
  unfold replacement at h
  rcases Option.or_eq_some_iff.mp h with h | ⟨-, h⟩
  · obtain ⟨hrp, rfl, hstart⟩ := candidate_some h
    exact ⟨.inl ⟨hrp, rfl⟩, hstart⟩
  · rcases Option.or_eq_some_iff.mp h with h | ⟨-, h⟩
    · obtain ⟨hrp, rfl, hstart⟩ := candidate_some h
      exact ⟨.inr (.inl ⟨hrp, rfl⟩), hstart⟩
    · obtain ⟨hrp, rfl, hstart⟩ := candidate_some h
      exact ⟨.inr (.inr ⟨hrp, rfl⟩), hstart⟩

theorem replacement_none {s : List Byte} (h : replacement old new diff s = none) {rp : CString}
    {ex : List Byte} (hrp : Replaces old new diff rp ex) : startsWith ex s = false := by
  simp only [replacement, Option.or_eq_none_iff] at h
  obtain ⟨ho, hn, hp⟩ := h
  rcases hrp with ⟨rfl, rfl⟩ | ⟨rfl, rfl⟩ | ⟨rfl, rfl⟩
  · exact candidate_none ho
  · exact candidate_none hn
  · exact candidate_none hp

theorem growth_nil (rp : Option CString) (ex : List Byte) : growth [] rp ex = 0 := by
  cases rp with
  | none => rfl
  | some rp => simp [growth, occurrences]

theorem growth_found {ex ex' found s : List Byte} (h : Braced ex) (h' : Braced ex')
    (hfound : found.map tolower = ex) (rp : Option CString) :
    growth (found ++ s) rp ex' = growth s rp ex' +
      if ex' = ex then rp.elim 0 fun rp => (rp.strlen : Int) - 3 else 0 := by
  cases rp with
  | none => simp [growth]
  | some rp =>
      simp only [growth, occurrences_found h h' hfound, h'.length, Option.elim_some]
      split
      · push_cast
        ring
      · simp

theorem growth_kept {ex s : List Byte} {c : Byte} (h : startsWith ex (c :: s) = false)
    (rp : Option CString) : growth (c :: s) rp ex = growth s rp ex := by
  cases rp with
  | none => rfl
  | some rp => simp [growth, occurrences, h]

/-- The counts of the placeholders give the length of the text. -/
theorem expansion_length {s out : List Byte} (h : Expansion old new diff s out) :
    (out.length : Int) = expandedLength old new diff s := by
  induction h with
  | nil => simp [expandedLength, growth_nil]
  | @replace rp ex found s out hrp hfound hs ih =>
      have hex := replaces_braced hrp
      have hlen : found.length = 3 := by rw [← hex.length, ← hfound, List.length_map]
      unfold expandedLength at ih ⊢
      rw [growth_found hex braced_ofa hfound, growth_found hex braced_nfa hfound,
        growth_found hex braced_pfa hfound, List.length_append, List.length_append, hlen]
      have hon : ofa ≠ nfa := by decide
      have hop : ofa ≠ pfa := by decide
      have hnp : nfa ≠ pfa := by decide
      rcases hrp with ⟨rfl, rfl⟩ | ⟨rfl, rfl⟩ | ⟨rfl, rfl⟩
      · simp only [if_true, if_neg hon.symm, if_neg hop.symm, Option.elim_some, CString.strlen]
        omega
      · simp only [if_true, if_neg hon, if_neg hnp.symm, Option.elim_some, CString.strlen]
        omega
      · simp only [if_true, if_neg hop, if_neg hnp, Option.elim_some, CString.strlen]
        omega
  | @keep c s out hnot hs ih =>
      have hkept : ∀ (rp : Option CString) (ex : List Byte),
          (∀ rp', rp = some rp' → Replaces old new diff rp' ex) →
            growth (c :: s) rp ex = growth s rp ex := by
        intro rp ex hrp
        cases rp with
        | none => rfl
        | some rp =>
            apply growth_kept
            have hex := replaces_braced (hrp rp rfl)
            rw [← Bool.not_eq_true, hex.startsWith_iff]
            rintro ⟨found, rest, hs, hfound⟩
            exact hnot rp ex (hrp rp rfl) found rest hs hfound
      unfold expandedLength at ih ⊢
      rw [hkept old ofa fun rp h => .inl ⟨h, rfl⟩,
        hkept new nfa fun rp h => .inr (.inl ⟨h, rfl⟩),
        hkept diff pfa fun rp h => .inr (.inr ⟨h, rfl⟩), List.length_cons, List.length_cons]
      omega

theorem replaces_unique {rp rp' : CString} {ex : List Byte} (h : Replaces old new diff rp ex)
    (h' : Replaces old new diff rp' ex) : rp = rp' := by
  have hon : ofa ≠ nfa := by decide
  have hop : ofa ≠ pfa := by decide
  have hnp : nfa ≠ pfa := by decide
  unfold Replaces at h h'
  grind

/-- The text that a template stands for is the only one. -/
theorem Expansion.unique {s out out' : List Byte} (h : Expansion old new diff s out)
    (h' : Expansion old new diff s out') : out = out' := by
  induction h generalizing out' with
  | nil =>
      generalize hs : ([] : List Byte) = s at h'
      cases h' with
      | nil => rfl
      | @replace rp ex found s out hrp hfound _ =>
          have hlen := (replaces_braced hrp).length
          rw [← hfound, List.length_map] at hlen
          have hnil := congrArg List.length hs
          rw [List.length_append, List.length_nil] at hnil
          omega
      | keep _ _ => cases hs
  | @replace rp ex found s out hrp hfound _ ih =>
      have hlen := (replaces_braced hrp).length
      rw [← hfound, List.length_map] at hlen
      generalize hs : found ++ s = s₂ at h'
      cases h' with
      | nil =>
          have hnil := congrArg List.length hs
          rw [List.length_append, List.length_nil] at hnil
          omega
      | @replace rp' ex' found' s' out' hrp' hfound' hout' =>
          have hlen' := (replaces_braced hrp').length
          rw [← hfound', List.length_map] at hlen'
          obtain ⟨rfl, rfl⟩ := List.append_inj hs (hlen.trans hlen'.symm)
          rw [ih hout', replaces_unique hrp (hfound.symm.trans hfound' ▸ hrp')]
      | keep hnot _ => exact absurd hfound (hnot rp ex hrp found s hs.symm)
  | @keep c s out hnot _ ih =>
      generalize hs : c :: s = s₂ at h'
      cases h' with
      | nil => cases hs
      | @replace rp' ex' found' s' out' hrp' hfound' _ =>
          exact absurd hfound' (hnot rp' ex' hrp' found' s' hs)
      | keep _ hout' =>
          cases hs
          rw [ih hout']

/-- The end of the loop, if the buffer and an int are large enough for the whole text. -/
def finish (size : Nat) (res out : List Byte) : Option (List Byte) :=
  if res.length + out.length + 1 ≤ size ∧ res.length + out.length < 2 ^ 31 then
    some (res ++ out ++ [0])
  else none

/-- Text is written, perhaps with a terminator that the rest of the loop overwrites. -/
theorem finish_written {size : Nat} {res out : List Byte} (text tail : List Byte)
    {next : List Byte → Option (List Byte)} (htail : tail.length ≤ 1)
    (hnext : (res ++ text).length < 2 ^ 31 → next (res ++ text) = finish size (res ++ text) out) :
    ((put size res (text ++ tail)).bind fun written =>
        (int (res.length + text.length)).bind fun i => next (written.take i)) =
      finish size res (text ++ out) := by
  have htake : (res ++ (text ++ tail)).take (res.length + text.length) = res ++ text := by
    rw [← List.append_assoc, ← List.length_append, List.take_left]
  by_cases hi : res.length + text.length < 2 ^ 31
  · by_cases hput : (res ++ (text ++ tail)).length ≤ size
    · rw [put, if_pos hput, int_of_lt hi, Option.bind_some, Option.bind_some, htake,
        hnext (by rwa [List.length_append])]
      simp only [finish, List.length_append, List.append_assoc, Nat.add_assoc]
    · have hsize : ¬ res.length + (text ++ out).length + 1 ≤ size := by
        simp only [List.length_append] at hput ⊢
        omega
      rw [put, if_neg hput, finish, if_neg fun h => hsize h.1]
      rfl
  · have hlong : ¬ res.length + (text ++ out).length < 2 ^ 31 := by
      rw [List.length_append]
      omega
    rw [finish, if_neg fun h => hlong h.2, int_of_not_lt hi]
    cases put size res (text ++ tail) <;> rfl

variable (old new diff) in
/-- The loop writes the text of what is left of the template. -/
theorem fill_eq (skip : Nat) (s : List Byte) :
    ∃ out, Expansion old new diff (s.drop skip) out ∧
      ∀ (size : Nat) (res : List Byte), res.length < 2 ^ 31 →
        fill old new diff size skip s res = finish size res out := by
  induction s generalizing skip with
  | nil =>
      refine ⟨[], by simpa using Expansion.nil, fun size res hres => ?_⟩
      have hend : fill old new diff size skip [] res = put size res [0] := by
        cases skip <;> rfl
      rw [hend]
      unfold put finish
      simp only [List.length_append, List.length_cons, List.length_nil, Nat.add_zero, hres,
        and_true, List.append_nil]
  | cons c s ih =>
      cases skip with
      | succ skip => exact ih skip
      | zero =>
          rw [List.drop_zero]
          cases hr : replacement old new diff (c :: s) with
          | some r =>
              obtain ⟨rp, ex⟩ := r
              obtain ⟨hrp, hstart⟩ := replacement_some hr
              have hex := replaces_braced hrp
              obtain ⟨found, rest, hsplit, hfound⟩ := hex.startsWith_iff.mp hstart
              have hlen : found.length = ex.length := by rw [← hfound, List.length_map]
              have hrest : s.drop (ex.length - 1) = rest := by
                have hdrop : (c :: s).drop ex.length = rest := by
                  rw [hsplit, ← hlen, List.drop_left]
                rwa [hex.length] at hdrop ⊢
              obtain ⟨out, hout, hfill⟩ := ih (ex.length - 1)
              rw [hrest] at hout
              refine ⟨rp.bytes ++ out, ?_, fun size res _ => ?_⟩
              · rw [hsplit]
                exact .replace hrp hfound hout
              · simp only [fill, hr]
                exact finish_written rp.bytes [0] (Nat.le_refl 1) (hfill _ _)
          | none =>
              have hnot : ∀ rp ex, Replaces old new diff rp ex →
                  ∀ found rest, c :: s = found ++ rest → found.map tolower ≠ ex := by
                intro rp ex hrp found rest hsplit hfound
                have habsent := replacement_none hr hrp
                rw [← Bool.not_eq_true, (replaces_braced hrp).startsWith_iff] at habsent
                exact habsent ⟨found, rest, hsplit, hfound⟩
              obtain ⟨out, hout, hfill⟩ := ih 0
              refine ⟨c :: out, .keep hnot hout, fun size res _ => ?_⟩
              simp only [fill, hr]
              exact finish_written [c] [] (Nat.zero_le 1) (hfill _ _)

theorem grown_some {args : CString} {rp : Option CString} {ex : List Byte} (hex : Braced ex)
    {g : Int} (h : grown args rp ex = some g) (rp' : CString) (hrp : rp = some rp') :
    occurrences ex args.bytes < 2 ^ 31 := by
  subst hrp
  simp only [grown, substrcnt_eq hex, Option.map_eq_some_iff, int_eq_some_iff] at h
  obtain ⟨cnt, ⟨hlt, -⟩, -⟩ := h
  exact hlt

theorem grown_of_lt {args : CString} {rp : Option CString} {ex : List Byte} (hex : Braced ex)
    (h : ∀ rp', rp = some rp' → occurrences ex args.bytes < 2 ^ 31) :
    grown args rp ex = some (growth args.bytes rp ex) := by
  cases rp with
  | none => rfl
  | some rp =>
      simp only [grown, substrcnt_eq hex, int_of_lt (h rp rfl), Option.map_some]
      rfl

/-- The size of the buffer is that of the text and a terminator. -/
theorem allocated_eq {args : CString} (h : ∀ rp ex, Replaces old new diff rp ex →
    occurrences ex args.bytes < 2 ^ 31) :
    allocated old new diff args =
      some (sizeT (expandedLength old new diff args.bytes + 1)) := by
  unfold allocated
  rw [grown_of_lt braced_ofa fun rp hrp => h rp ofa (.inl ⟨hrp, rfl⟩),
    grown_of_lt braced_nfa fun rp hrp => h rp nfa (.inr (.inl ⟨hrp, rfl⟩)),
    grown_of_lt braced_pfa fun rp hrp => h rp pfa (.inr (.inr ⟨hrp, rfl⟩))]
  simp only [Option.bind_eq_bind, Option.bind_some, Option.pure_def, expandedLength,
    CString.strlen]
  congr 2
  ring

/-- Where expand_tool_args comes to its end, everything was counted in ints. -/
theorem fits_of_some {args : CString} {result : List Byte × Nat}
    (h : expandToolArgs old new diff args = some result) : Fits old new diff args := by
  simp only [expandToolArgs, Option.bind_eq_bind, Option.bind_eq_some_iff] at h
  obtain ⟨size, hsize, res, hres, -⟩ := h
  simp only [allocated, Option.bind_eq_bind, Option.bind_eq_some_iff] at hsize
  obtain ⟨o, ho, n, hn, p, hp, -⟩ := hsize
  constructor
  · obtain ⟨out, hout, hfill⟩ := fill_eq old new diff 0 args.bytes
    rw [List.drop_zero] at hout
    rw [hfill size [] (by simp), finish] at hres
    split at hres
    · rename_i hfits
      rw [← expansion_length hout]
      have hlength := hfits.2
      simp only [List.length_nil, Nat.zero_add] at hlength
      exact_mod_cast hlength
    · cases hres
  · rintro rp ex (⟨hrp, rfl⟩ | ⟨hrp, rfl⟩ | ⟨hrp, rfl⟩)
    · exact grown_some braced_ofa ho rp hrp
    · exact grown_some braced_nfa hn rp hrp
    · exact grown_some braced_pfa hp rp hrp

/-- With counts that are ints the buffer is filled up to its last byte. -/
theorem expands_of_fits {args : CString} (h : Fits old new diff args) :
    Expands old new diff args (expandToolArgs old new diff args) := by
  obtain ⟨out, hout, hfill⟩ := fill_eq old new diff 0 args.bytes
  rw [List.drop_zero] at hout
  have hlength := expansion_length hout
  have hshort : out.length < 2 ^ 31 := by
    have hbound := h.1
    rw [← hlength] at hbound
    exact_mod_cast hbound
  refine ⟨out, hout, ?_⟩
  have hsize : sizeT (expandedLength old new diff args.bytes + 1) = out.length + 1 := by
    rw [← hlength, ← Nat.cast_succ]
    exact sizeT_of_lt (by omega)
  simp only [expandToolArgs, allocated_eq h.2, hsize, Option.bind_eq_bind, Option.bind_some]
  rw [hfill (out.length + 1) [] (by simp), finish, if_pos (by simpa using hshort)]
  rfl

end Results

/-- expand_tool_args fills the buffer it allocates with the text of the template, exactly if
everything can be counted in ints. -/
theorem expands_iff (old new diff : Option CString) (args : CString) :
    Expands old new diff args (expandToolArgs old new diff args) ↔ Fits old new diff args := by
  constructor
  · rintro ⟨text, -, hresult⟩
    exact fits_of_some hresult
  · exact expands_of_fits

def oldTemplate : CString where
  bytes := ofa
  unterminated := by decide

/-- The index in the buffer is an int: a longer text has no place. -/
theorem long_text_has_no_index :
    ¬ ∀ (old new diff : Option CString) (args : CString),
      Expands old new diff args (expandToolArgs old new diff args) := by
  intro h
  obtain ⟨text, -, hresult⟩ := h (some longString) none none oldTemplate
  have hfits := (fits_of_some hresult).1
  have hcount : occurrences ofa oldTemplate.bytes = 1 := by decide
  simp only [expandedLength, growth, hcount, strlen_longString] at hfits
  simp [oldTemplate, ofa] at hfits

end EsyncUa.ToolArguments
