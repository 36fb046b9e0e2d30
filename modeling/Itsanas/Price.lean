/-
# What room costs

`accounting.rs` of `itsanas-coord` and the sizes of `config.rs` in `itsanas-node`: how much room a
pledge earns, how much must be pledged for some room, and how the price is printed for a person
to type back. Both roundings go against the member, the two functions are adjoint all the same
(`Split.exactPrice_le_iff`), and a printed price is rounded up to a whole unit, so that it buys what
it was quoted for.
-/
import Itsanas.Owners
import Itsanas.Lib.Text

namespace Itsanas

/-! ### The bargain -/

/-- How a machine's commitment divides between its owner and the network: parts, both above zero. -/
structure Split where
  own : ℕ
  network : ℕ
  own_pos : 0 < own
  network_pos : 0 < network
  deriving DecidableEq

namespace Split

/-- Three parts in ten. -/
def default : Split := ⟨30, 70, Nat.succ_pos 29, Nat.succ_pos 69⟩

/-- How much of their own data a member earns by a pledge. -/
def roomEarned (split : Split) (pledged : ℕ) : ℕ := min (pledged * split.own / split.network) u64Max

/-- How much must be pledged to earn `keep`, rounded up. -/
def pledgeNeededFor (split : Split) (keep : ℕ) : ℕ :=
  let needed := keep * split.network
  min (needed / split.own + if needed % split.own ≠ 0 then 1 else 0) u64Max

theorem roomEarned_default (pledged : ℕ) :
    default.roomEarned pledged = Itsanas.roomEarned pledged := rfl

/-- The price before it is cut to a `u64`. -/
def exactPrice (split : Split) (keep : ℕ) : ℕ :=
  keep * split.network / split.own + if keep * split.network % split.own ≠ 0 then 1 else 0

theorem pledgeNeededFor_eq (split : Split) (keep : ℕ) :
    split.pledgeNeededFor keep = min (split.exactPrice keep) u64Max := rfl

/-- A quotient rounded up is the least number whose product is enough. -/
theorem roundUp_le_iff {n o p : ℕ} (ho : 0 < o) :
    (n / o + if n % o ≠ 0 then 1 else 0) ≤ p ↔ n ≤ p * o := by
  have hdiv := Nat.div_add_mod n o
  have hmod := Nat.mod_lt n ho
  split_ifs with hrest
  · rw [Nat.add_one_le_iff, Nat.div_lt_iff_lt_mul ho]
    refine ⟨le_of_lt, fun hle => lt_of_le_of_ne hle fun heq => hrest ?_⟩
    rw [heq, Nat.mul_mod_left]
  · have hzero : n % o = 0 := not_not.mp hrest
    have hn : n = n / o * o := (Nat.div_mul_cancel (Nat.dvd_of_mod_eq_zero hzero)).symm
    rw [Nat.add_zero]
    constructor
    · intro hle
      calc n = n / o * o := hn
        _ ≤ p * o := Nat.mul_le_mul_right o hle
    · intro hle
      exact Nat.div_le_of_le_mul (by rwa [mul_comm])

/-- **A price is within reach just when the room is earned.** -/
theorem exactPrice_le_iff (split : Split) (p k : ℕ) :
    split.exactPrice k ≤ p ↔ k ≤ p * split.own / split.network := by
  rw [exactPrice, roundUp_le_iff split.own_pos, Nat.le_div_iff_mul_le split.network_pos]

end Split

/-! ### Sizes as text -/

def kib : ℕ := 1024
def mib : ℕ := 1024 * kib
def gib : ℕ := 1024 * mib
def tib : ℕ := 1024 * gib

/-- Why a text is not a size. -/
inductive SizeError
  | noNumber (text : Str)
  | notValid (text : Str)
  | unknownSuffix (suffix : Str)
  | overflows (text : Str)
  deriving DecidableEq

def multiplier (suffix : Str) : Option ℕ :=
  let word := String.ofList suffix
  if word ∈ ["", "B"] then some 1
  else if word ∈ ["K", "KB", "KIB"] then some kib
  else if word ∈ ["M", "MB", "MIB"] then some mib
  else if word ∈ ["G", "GB", "GIB"] then some gib
  else if word ∈ ["T", "TB", "TIB"] then some tib
  else none

/-- Read a size such as `500M`, `2G`, `1TB`, or a plain byte count. -/
def parseSize (text : Str) : Except SizeError ℕ :=
  let trimmed := Text.trim text
  let number := trimmed.takeWhile Char.isDigit
  if number = [] then .error (.noNumber text)
  else
    match Text.parseUnsigned u64Max number with
    | none => .error (.notValid text)
    | some number =>
      let suffix := (Text.trim (trimmed.dropWhile Char.isDigit)).map Char.toUpper
      match multiplier suffix with
      | none => .error (.unknownSuffix suffix)
      | some multiplier =>
        if number * multiplier ≤ u64Max then .ok (number * multiplier) else .error (.overflows text)

/-- A byte count as an argument `parseSize` reads back as no less. Terabytes only when exact. -/
def sizeArgument (bytes : ℕ) : Str :=
  if tib ≤ bytes ∧ tib ∣ bytes then Nat.toDigits 10 (bytes / tib) ++ ['T']
  else if gib ≤ bytes then Nat.toDigits 10 (bytes ⌈/⌉ gib) ++ ['G']
  else if mib ≤ bytes then Nat.toDigits 10 (bytes ⌈/⌉ mib) ++ ['M']
  else if kib ≤ bytes then Nat.toDigits 10 (bytes ⌈/⌉ kib) ++ ['K']
  else Nat.toDigits 10 bytes

/-- The unit a price is printed in. -/
def printedUnit (bytes : ℕ) : ℕ :=
  if tib ≤ bytes ∧ tib ∣ bytes then tib
  else if gib ≤ bytes then gib
  else if mib ≤ bytes then mib
  else if kib ≤ bytes then kib
  else 1

/-- Digits and the letter of a unit read back as so many units. -/
theorem parseSize_digits {n unit : ℕ} {suffix : Str} (hn : n * unit ≤ u64Max) (hunit : 0 < unit)
    (hsuffix : multiplier (suffix.map Char.toUpper) = some unit)
    (hdigit : ∀ c ∈ suffix, c.isDigit = false) (hblank : ∀ c ∈ suffix, Text.isBlank c = false) :
    parseSize (Nat.toDigits 10 n ++ suffix) = .ok (n * unit) := by
  have hdigits : ∀ c ∈ Nat.toDigits 10 n, c.isDigit = true := fun c h => Text.isDigit_toDigits h
  have htight : Text.trim (Nat.toDigits 10 n ++ suffix) = Nat.toDigits 10 n ++ suffix := by
    refine Text.trim_of_tight (Text.tight_of_forall fun c hc => ?_)
    rcases List.mem_append.mp hc with h | h
    · exact Text.isBlank_of_isDigit (hdigits c h)
    · exact hblank c h
  have htake : (Nat.toDigits 10 n ++ suffix).takeWhile Char.isDigit = Nat.toDigits 10 n := by
    rw [List.takeWhile_append_of_pos hdigits]
    cases suffix with
    | nil => simp
    | cons c rest => simp [hdigit c List.mem_cons_self]
  have hdrop : (Nat.toDigits 10 n ++ suffix).dropWhile Char.isDigit = suffix := by
    rw [List.dropWhile_append_of_pos hdigits]
    cases suffix with
    | nil => simp
    | cons c rest => simp [hdigit c List.mem_cons_self]
  have hle : n ≤ u64Max := le_trans (Nat.le_mul_of_pos_right n hunit) hn
  unfold parseSize
  dsimp only
  rw [htight, htake, hdrop, if_neg Nat.toDigits_ne_nil, Text.parseUnsigned_toDigits hle,
    Text.trim_of_tight (Text.tight_of_forall hblank)]
  dsimp only
  rw [hsuffix]
  dsimp only
  rw [if_pos hn]

theorem parseSize_letter {n unit : ℕ} {c : Char} (hn : n * unit ≤ u64Max) (hunit : 0 < unit)
    (hletter : multiplier [c.toUpper] = some unit) (hdigit : c.isDigit = false)
    (hblank : Text.isBlank c = false) :
    parseSize (Nat.toDigits 10 n ++ [c]) = .ok (n * unit) :=
  parseSize_digits hn hunit hletter (by simpa using hdigit) (by simpa using hblank)

theorem ceilDiv_bounds (bytes : ℕ) {unit : ℕ} (hunit : 0 < unit) :
    bytes ≤ bytes ⌈/⌉ unit * unit ∧ bytes ⌈/⌉ unit * unit < bytes + unit := by
  have hle : bytes ≤ unit * (bytes ⌈/⌉ unit) := (ceilDiv_le_iff_le_mul hunit).mp le_rfl
  rw [Nat.ceilDiv_eq_add_pred_div] at hle ⊢
  have hdiv := Nat.div_mul_le_self (bytes + unit - 1) unit
  rw [mul_comm] at hle
  exact ⟨hle, by omega⟩

/-- **A printed price is read back as no less, and by less than a unit more.** -/
theorem parseSize_sizeArgument {bytes : ℕ} (h : bytes < 2 ^ 64 - 2 ^ 30) :
    ∃ amount, parseSize (sizeArgument bytes) = .ok amount ∧ bytes ≤ amount ∧
      amount < bytes + printedUnit bytes := by
  have hgib : gib = 2 ^ 30 := rfl
  have hrounded : ∀ unit, 0 < unit → unit ≤ gib → ∀ c : Char, multiplier [c.toUpper] = some unit →
      c.isDigit = false → Text.isBlank c = false →
      ∃ amount, parseSize (Nat.toDigits 10 (bytes ⌈/⌉ unit) ++ [c]) = .ok amount ∧ bytes ≤ amount ∧
        amount < bytes + unit := by
    intro unit hpos hle c hletter hdigit hblank
    obtain ⟨hlow, hhigh⟩ := ceilDiv_bounds bytes hpos
    refine ⟨_, parseSize_letter ?_ hpos hletter hdigit hblank, hlow, hhigh⟩
    rw [u64Max]
    omega
  unfold sizeArgument printedUnit
  split_ifs with htib hg hm hk
  · have hexact : bytes / tib * tib = bytes := Nat.div_mul_cancel htib.2
    refine ⟨bytes / tib * tib, parseSize_letter ?_ (by decide +kernel) (by decide +kernel)
      (by decide) (by decide), hexact.ge, ?_⟩
    · rw [hexact, u64Max]
      omega
    · rw [hexact]
      exact Nat.lt_add_of_pos_right (by decide)
  · exact hrounded gib (by decide) le_rfl 'G' (by decide) (by decide) (by decide)
  · exact hrounded mib (by decide) (by decide) 'M' (by decide) (by decide) (by decide)
  · exact hrounded kib (by decide) (by decide) 'K' (by decide) (by decide) (by decide)
  · have hplain : parseSize (Nat.toDigits 10 bytes ++ []) = .ok (bytes * 1) :=
      parseSize_digits (by rw [u64Max]; omega) Nat.one_pos (by decide)
        (fun _ h => absurd h List.not_mem_nil) (fun _ h => absurd h List.not_mem_nil)
    rw [List.append_nil, Nat.mul_one] at hplain
    exact ⟨bytes, hplain, le_rfl, Nat.lt_succ_self _⟩

/-- **A quoted price always buys.** Where nothing is cut to a `u64`, a pledge is enough for some
room just when the room is earned by it; and a price that is printed and typed back earns the
room it was quoted for, and is less than one printed unit above the price. -/
theorem Split.price_buys (split : Split) (p k : ℕ) (hk : k ≤ u64Max) :
    (p * split.own / split.network ≤ u64Max → split.exactPrice k ≤ u64Max →
      (split.pledgeNeededFor k ≤ p ↔ k ≤ split.roomEarned p)) ∧
    (split.pledgeNeededFor k < 2 ^ 64 - 2 ^ 30 →
      ∃ amount, parseSize (sizeArgument (split.pledgeNeededFor k)) = .ok amount ∧
        k ≤ split.roomEarned amount ∧ split.pledgeNeededFor k ≤ amount ∧
        amount < split.pledgeNeededFor k + printedUnit (split.pledgeNeededFor k)) := by
  constructor
  · intro hroom hprice
    rw [split.pledgeNeededFor_eq, roomEarned, min_eq_left hprice, min_eq_left hroom]
    exact split.exactPrice_le_iff p k
  · intro hprice
    obtain ⟨amount, hread, hle, hlt⟩ := parseSize_sizeArgument hprice
    refine ⟨amount, hread, le_min ?_ hk, hle, hlt⟩
    have hexact : split.exactPrice k = split.pledgeNeededFor k := by
      rw [split.pledgeNeededFor_eq] at hprice ⊢
      rw [u64Max] at hprice ⊢
      omega
    exact (split.exactPrice_le_iff amount k).mp (hexact ▸ hle)

/-- Room for 31 GiB costs 72.33 at thirty for seventy, and the 73 that are printed buy it. -/
theorem Split.price_buys_rounded :
    31 * gib ≤ u64Max ∧ ∃ amount, parseSize (sizeArgument (default.pledgeNeededFor (31 * gib))) =
      .ok amount ∧
      31 * gib ≤ default.roomEarned amount ∧ default.pledgeNeededFor (31 * gib) ≤ amount ∧
      amount < default.pledgeNeededFor (31 * gib) + printedUnit (default.pledgeNeededFor (31 * gib)) :=
  ⟨by decide +kernel, (price_buys default 0 (31 * gib) (by decide +kernel)).2 (by decide +kernel)⟩

example : sizeArgument (Split.default.pledgeNeededFor (31 * gib)) = "73G".toList := by decide +kernel

end Itsanas
