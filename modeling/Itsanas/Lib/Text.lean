/-
# Lines, words and numbers of a text

A text is a list of characters. `trim` takes the blanks off both ends, and leaves alone what has
none there (`trim_of_tight`). Numbers are printed with `Nat.toDigits` and read back by
`parseUnsigned`, which takes what the text says if it is a number within bounds
(`parseUnsigned_toDigits`). A line that was written with a newline after it is read back
(`lines_line`), and so is what was written before and after a separator (`splitOnce_append`).
-/
import Mathlib.Data.List.DropRight
import Mathlib.Data.Nat.Digits.Defs
import Mathlib.Data.List.TakeWhile

namespace Text

/-! ### Blanks -/

/-- The characters with the Unicode property `White_Space`. -/
def isBlank (c : Char) : Bool :=
  let n := c.toNat
  (9 ≤ n && n ≤ 13) || n == 0x20 || n == 0x85 || n == 0xA0 || n == 0x1680 ||
    (0x2000 ≤ n && n ≤ 0x200A) ||
    n == 0x2028 || n == 0x2029 || n == 0x202F || n == 0x205F || n == 0x3000

def trim (l : List Char) : List Char := (l.dropWhile isBlank).rdropWhile isBlank

/-- No blank at either end. -/
def Tight (l : List Char) : Prop :=
  (∀ c, l.head? = some c → isBlank c = false) ∧ ∀ c, l.getLast? = some c → isBlank c = false

variable {l : List Char}

theorem dropWhile_of_head (h : ∀ c, l.head? = some c → isBlank c = false) :
    l.dropWhile isBlank = l := by
  cases l with
  | nil => rfl
  | cons c l => rw [List.dropWhile_cons_of_neg (by simp [h c rfl])]

theorem rdropWhile_of_last (h : ∀ c, l.getLast? = some c → isBlank c = false) :
    l.rdropWhile isBlank = l := by
  rw [List.rdropWhile, dropWhile_of_head fun c hc => h c (by rwa [List.head?_reverse] at hc),
    List.reverse_reverse]

/-- **What has no blank at its ends is left alone.** -/
theorem trim_of_tight (h : Tight l) : trim l = l := by
  rw [trim, dropWhile_of_head h.1, rdropWhile_of_last h.2]

theorem tight_of_forall (h : ∀ c ∈ l, isBlank c = false) : Tight l :=
  ⟨fun c hc => h c (List.mem_of_mem_head? hc), fun c hc => h c (List.mem_of_mem_getLast? hc)⟩

/-! ### Numbers -/

/-- An unsigned number up to `most`: digits, with a plus sign or without. -/
def parseUnsigned (most : ℕ) (l : List Char) : Option ℕ :=
  let digits := if l.head? = some '+' then l.tail else l
  if digits = [] ∨ ¬digits.all Char.isDigit then none
  else
    let n := Nat.ofDigitChars 10 digits 0
    if n ≤ most then some n else none

variable {c : Char}

theorem isDigit_toDigits {n : ℕ} (h : c ∈ Nat.toDigits 10 n) : c.isDigit = true :=
  Nat.isDigit_of_mem_toDigits (by decide) (by decide) h

theorem all_isDigit_toDigits (n : ℕ) : (Nat.toDigits 10 n).all Char.isDigit = true :=
  List.all_eq_true.mpr fun _ h => isDigit_toDigits h

theorem isBlank_of_isDigit (h : c.isDigit = true) : isBlank c = false := by
  have hbounds : 48 ≤ c.toNat ∧ c.toNat ≤ 57 := by
    simp only [Char.isDigit, Bool.and_eq_true, decide_eq_true_eq] at h
    exact ⟨UInt32.le_iff_toNat_le.mp h.1, UInt32.le_iff_toNat_le.mp h.2⟩
  simp only [isBlank, Bool.or_eq_false_iff, Bool.and_eq_false_iff, decide_eq_false_iff_not,
    beq_eq_false_iff_ne]
  omega

theorem tight_toDigits (n : ℕ) : Tight (Nat.toDigits 10 n) :=
  tight_of_forall fun _ h => isBlank_of_isDigit (isDigit_toDigits h)

theorem parseUnsigned_of_digits {most : ℕ} (hne : l ≠ []) (hdigits : l.all Char.isDigit = true) :
    parseUnsigned most l =
      if Nat.ofDigitChars 10 l 0 ≤ most then some (Nat.ofDigitChars 10 l 0) else none := by
  have hplus : l.head? ≠ some '+' := fun h => by
    have := List.all_eq_true.mp hdigits _ (List.mem_of_mem_head? h)
    revert this
    decide
  unfold parseUnsigned
  rw [if_neg hplus]
  dsimp only
  rw [if_neg (by simp [hne, hdigits])]

/-- **A printed number is read back.** -/
theorem parseUnsigned_toDigits {most n : ℕ} (h : n ≤ most) :
    parseUnsigned most (Nat.toDigits 10 n) = some n := by
  rw [parseUnsigned_of_digits Nat.toDigits_ne_nil (all_isDigit_toDigits n),
    Nat.ofDigitChars_toDigits (by decide) (by decide), if_pos h]

/-! ### Lines -/

/-- A carriage return before the newline belongs to the line's end; the line stands reversed
here. -/
def chopReturn : List Char → List Char
  | '\r' :: line => line
  | line => line

/-- The lines of a text, the first of which has begun with `line`, reversed. -/
def linesFrom (line : List Char) : List Char → List (List Char)
  | [] => if line = [] then [] else [line.reverse]
  | c :: rest => if c = '\n' then (chopReturn line).reverse :: linesFrom [] rest else linesFrom
      (c :: line) rest

def lines (l : List Char) : List (List Char) := linesFrom [] l

theorem chopReturn_of_head {line : List Char} (h : line.head? ≠ some '\r') :
    chopReturn line = line := by
  unfold chopReturn
  split
  · exact absurd rfl h
  · rfl

theorem linesFrom_line (rest : List Char) : ∀ line begun : List Char, '\n' ∉ line →
    (begun.reverse ++ line).getLast? ≠ some '\r' →
    linesFrom begun (line ++ '\n' :: rest) = (begun.reverse ++ line) :: lines rest
  | [], begun, _, hreturn => by
    rw [List.append_nil, List.getLast?_reverse] at hreturn
    rw [List.nil_append, linesFrom, if_pos rfl, chopReturn_of_head hreturn, List.append_nil, lines]
  | c :: line, begun, hline, hreturn => by
    have hc : c ≠ '\n' := fun he => hline (he ▸ List.mem_cons_self)
    have hsplit : (c :: begun).reverse ++ line = begun.reverse ++ c :: line := by simp
    rw [List.cons_append, linesFrom, if_neg hc,
      linesFrom_line rest line (c :: begun) (fun h => hline (List.mem_cons_of_mem _ h))
        (hsplit ▸ hreturn), hsplit]

/-- **A line that was written is read back.** -/
theorem lines_line {line : List Char} (hline : '\n' ∉ line) (hreturn : line.getLast? ≠ some '\r')
    (rest : List Char) : lines (line ++ '\n' :: rest) = line :: lines rest :=
  linesFrom_line rest line [] hline hreturn

/-- What stands before and after the first `c`. -/
def splitOnce (c : Char) : List Char → Option (List Char × List Char)
  | [] => none
  | x :: l => if x = c then some ([], l) else (splitOnce c l).map fun (a, b) => (x :: a, b)

theorem splitOnce_append (b : List Char) :
    ∀ {a : List Char}, c ∉ a → splitOnce c (a ++ c :: b) = some (a, b)
  | [], _ => by rw [List.nil_append, splitOnce, if_pos rfl]
  | x :: a, h => by
    have hx : x ≠ c := fun he => h (he ▸ List.mem_cons_self)
    rw [List.cons_append, splitOnce, if_neg hx, splitOnce_append b fun hmem =>
      h (List.mem_cons_of_mem _ hmem)]
    rfl

end Text
