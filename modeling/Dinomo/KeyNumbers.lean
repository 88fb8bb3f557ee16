import Mathlib.Data.List.TakeWhile
import Mathlib.Data.Nat.Digits.Lemmas

/-!
# Keys and their numbers

A data key is a text.  The rings place the text, while logs, caches and the index use the number that
`stoul(key, nullptr, 0)` reads from it: after white space and a sign, the longest run of digits, in the base that
the first characters select, and whatever follows is ignored.  A negative number wraps round.
-/

namespace Dinomo

open List

/-- A key as the client sends it. -/
abbrev KeyText := List Char

/-- What `stoul` throws. -/
inductive StoulError
  | invalidArgument
  | outOfRange
deriving DecidableEq, Repr

/-- The numbers below this one fit into an `unsigned long`. -/
def wordSize : ℕ := 2 ^ 64

namespace KeyText

/-- `isspace`. -/
def isSpace (c : Char) : Bool := c = ' ' ∨ (9 ≤ c.toNat ∧ c.toNat ≤ 13)

/-- The value of a character as a digit, at least `36` if it is none. -/
def digitValue (c : Char) : ℕ :=
  if '0' ≤ c ∧ c ≤ '9' then c.toNat - '0'.toNat
  else if 'a' ≤ c ∧ c ≤ 'z' then c.toNat - 'a'.toNat + 10
  else if 'A' ≤ c ∧ c ≤ 'Z' then c.toNat - 'A'.toNat + 10
  else 36

/-- A digit in a base. -/
def isDigit (base : ℕ) (c : Char) : Bool := digitValue c < base

/-- The sign in front of a number. -/
def takeSign : KeyText → Bool × KeyText
  | '+' :: k => (false, k)
  | '-' :: k => (true, k)
  | k => (false, k)

/-- The base that the first characters select. -/
def takeBase : KeyText → ℕ × KeyText
  | '0' :: x :: d :: k => if (x = 'x' ∨ x = 'X') ∧ isDigit 16 d then (16, d :: k) else (8, '0' :: x :: d :: k)
  | '0' :: k => (8, '0' :: k)
  | k => (10, k)

/-- The loop over the digits; `none` if the number does not fit into 64 bits. -/
def accumulate (base : ℕ) : ℕ → KeyText → Option ℕ
  | acc, [] => some acc
  | acc, c :: k =>
    if isDigit base c then
      if acc * base + digitValue c < wordSize then accumulate base (acc * base + digitValue c) k else none
    else some acc

/-- `stoul(key, nullptr, 0)`. -/
def stoul (k : KeyText) : Except StoulError ℕ :=
  let signed := takeSign (k.dropWhile isSpace)
  let number := takeBase signed.2
  if (number.2.takeWhile (isDigit number.1)).isEmpty then .error .invalidArgument
  else
    match accumulate number.1 0 number.2 with
    | none => .error .outOfRange
    | some n => .ok (if signed.1 then (wordSize - n) % wordSize else n)

/-- The number that digits denote. -/
def value (base : ℕ) (digits : KeyText) : ℕ := Nat.ofDigits base (digits.reverse.map digitValue)

/-- A text has digits in a base: hexadecimal behind `0x` if a digit follows, octal if it begins with `0` otherwise, and
else decimal. -/
inductive Based : KeyText → ℕ → KeyText → Prop
  | hex (x : Char) (k : KeyText) (hx : x = 'x' ∨ x = 'X') (hk : ∃ d ∈ k.head?, isDigit 16 d = true) :
      Based ('0' :: x :: k) 16 k
  | octal (k : KeyText) (hhex : ∀ x d l, k = x :: d :: l → x = 'x' ∨ x = 'X' → isDigit 16 d = false) :
      Based ('0' :: k) 8 ('0' :: k)
  | decimal (k : KeyText) (hk : k.head? ≠ some '0') : Based k 10 k

/-- A key spells a number: white space, a sign, digits in a base, and a rest that does not go on with a digit. -/
structure Spells (k : KeyText) (negative : Bool) (base : ℕ) (digits : KeyText) : Prop where
  digits_ne : digits ≠ []
  digits_ok : ∀ c ∈ digits, isDigit base c = true
  key : ∃ blank sign number rest, k = blank ++ (sign ++ number) ∧ (∀ c ∈ blank, isSpace c = true) ∧
    sign ∈ (if negative then [['-']] else [[], ['+']]) ∧ Based number base (digits ++ rest) ∧
      ∀ c ∈ rest.head?, isDigit base c = false

/-- A number with its sign, modulo the word size. -/
def wrapped (negative : Bool) (n : ℕ) : ℕ := if negative then (wordSize - n) % wordSize else n

section Reading

variable {base acc : ℕ} {k digits rest : KeyText}

/-- The digits read from the first to the last, behind those that were read before. -/
theorem ofDigits_append_eq (base acc : ℕ) (c : Char) (digits : KeyText) :
    acc * base ^ (c :: digits).length + value base (c :: digits) =
      (acc * base + digitValue c) * base ^ digits.length + value base digits := by
  simp only [value, reverse_cons, map_append, map_cons, map_nil, Nat.ofDigits_append,
    Nat.ofDigits_singleton, length_map, length_reverse, length_cons, pow_succ]
  ring

/-- The loop over the digits reads their number if it fits. -/
theorem accumulate_eq (hdigits : ∀ c ∈ digits, isDigit base c = true) (hrest : ∀ c ∈ rest.head?, isDigit base c = false)
    (hbase : 1 ≤ base) (hacc : acc < wordSize) :
    accumulate base acc (digits ++ rest) =
      if acc * base ^ digits.length + value base digits < wordSize then some (acc * base ^ digits.length + value base digits)
      else none := by
  induction digits generalizing acc with
  | nil =>
    have hvalue : acc * base ^ ([] : KeyText).length + value base [] = acc := by simp [value]
    rw [hvalue, if_pos hacc, nil_append]
    cases rest with
    | nil => rfl
    | cons c rest => simp only [accumulate, hrest c rfl, Bool.false_eq_true, if_false]
  | cons c digits ih =>
    have hc : isDigit base c = true := hdigits c mem_cons_self
    rw [ofDigits_append_eq, cons_append, accumulate, if_pos hc]
    by_cases hlt : acc * base + digitValue c < wordSize
    · rw [if_pos hlt, ih (fun d hd => hdigits d (mem_cons_of_mem _ hd)) hlt]
    · -- what has been read is no larger than the whole
      have hle : acc * base + digitValue c ≤ (acc * base + digitValue c) * base ^ digits.length :=
        Nat.le_mul_of_pos_right _ (Nat.pow_pos hbase)
      rw [if_neg hlt, if_neg (by omega)]

/-- `takeBase` finds the base and the digits. -/
theorem takeBase_eq_iff : takeBase k = (base, rest) ↔ Based k base rest := by
  constructor
  · intro h
    unfold takeBase at h
    split at h
    · rename_i x d l
      split_ifs at h with hx
      · cases h
        exact .hex x (d :: l) hx.1 ⟨d, rfl, hx.2⟩
      · cases h
        refine .octal (x :: d :: l) ?_
        rintro x' d' l' heq hx'
        cases heq
        exact Bool.eq_false_iff.mpr fun hd => hx ⟨hx', hd⟩
    · rename_i l hshort
      cases h
      refine .octal l ?_
      rintro x d l' rfl -
      exact (hshort x d l' rfl).elim
    · rename_i hne
      cases h
      refine .decimal k fun hk => ?_
      obtain ⟨l, rfl⟩ := List.head?_eq_some_iff.mp hk
      exact hne l rfl
  · rintro (⟨x, l, hx, d, hd, hdigit⟩ | ⟨l, hhex⟩ | ⟨_, hk⟩)
    · obtain ⟨l', rfl⟩ := List.head?_eq_some_iff.mp hd
      exact if_pos ⟨hx, hdigit⟩
    · match l with
      | [] => rfl
      | [x] => rfl
      | x :: d :: l' =>
        refine if_neg fun hx => ?_
        simp [hhex x d l' rfl hx.1] at hx
    · unfold takeBase
      split
      · exact (hk rfl).elim
      · exact (hk rfl).elim
      · rfl

/-- A text with digits begins with a decimal digit. -/
theorem Based.head {c : Char} (h : Based k base (c :: rest)) (hc : isDigit base c = true) :
    ∃ d l, k = d :: l ∧ isDigit 10 d = true := by
  rcases h with _ | _ | hk
  · exact ⟨_, _, rfl, by decide⟩
  · exact ⟨_, _, rfl, by decide⟩
  · exact ⟨c, rest, rfl, hc⟩

/-- Decimal digits are the characters from `0` to `9`. -/
theorem toNat_of_isDigit {c : Char} (h : isDigit 10 c = true) : 48 ≤ c.toNat ∧ c.toNat ≤ 57 := by
  have hlt : digitValue c < 10 := by simpa [isDigit] using h
  unfold digitValue at hlt
  split_ifs at hlt with hc
  · exact ⟨hc.1, hc.2⟩
  · omega
  · omega
  · omega

/-- A digit is no white space. -/
theorem isSpace_of_isDigit {c : Char} (h : isDigit 10 c = true) : isSpace c = false := by
  have hc := toNat_of_isDigit h
  have hne : c ≠ ' ' := by
    rintro rfl
    simp at hc
  simp only [isSpace, hne, false_or, decide_eq_false_iff_not]
  omega

/-- The sign is taken off in front of a digit. -/
theorem takeSign_append {negative : Bool} {sign : KeyText} {d : Char} {l : KeyText}
    (hsign : sign ∈ (if negative then [['-']] else [[], ['+']])) (hd : isDigit 10 d = true) :
    takeSign (sign ++ d :: l) = (negative, d :: l) := by
  have hc := toNat_of_isDigit hd
  cases negative with
  | true =>
    obtain rfl : sign = ['-'] := by simpa using hsign
    rfl
  | false =>
    obtain rfl | rfl : sign = [] ∨ sign = ['+'] := by simpa using hsign
    · rw [nil_append]
      unfold takeSign
      split
      · rename_i heq
        obtain ⟨rfl, -⟩ := List.cons.inj heq
        simp at hc
      · rename_i heq
        obtain ⟨rfl, -⟩ := List.cons.inj heq
        simp at hc
      · rfl
    · rfl

/-- A text is its sign and the rest. -/
theorem exists_sign (k : KeyText) :
    ∃ sign ∈ (if (takeSign k).1 then [['-']] else [[], ['+']]), k = sign ++ (takeSign k).2 := by
  unfold takeSign
  split
  · exact ⟨['+'], by simp, rfl⟩
  · exact ⟨['-'], by simp, rfl⟩
  · exact ⟨[], by simp, rfl⟩

end Reading

section Numbers

variable {k : KeyText} {n : ℕ} {z : ℤ}

/-- What `stoul` reads is what the key spells. -/
theorem stoul_of_spells {negative : Bool} {base : ℕ} {digits : KeyText} (h : Spells k negative base digits) :
    stoul k = if value base digits < wordSize then .ok (wrapped negative (value base digits))
      else .error .outOfRange := by
  obtain ⟨blank, sign, number, rest, rfl, hblank, hsign, hbased, hrest⟩ := h.key
  obtain ⟨c, digits, rfl⟩ := exists_cons_of_ne_nil h.digits_ne
  have hc : isDigit base c = true := h.digits_ok c mem_cons_self
  obtain ⟨d, l, rfl, hd⟩ := hbased.head hc
  -- neither white space nor a sign is left in front of the number
  have hdrop : (blank ++ (sign ++ d :: l)).dropWhile isSpace = sign ++ d :: l := by
    rw [dropWhile_append_of_pos hblank]
    cases negative with
    | true =>
      obtain rfl : sign = ['-'] := by simpa using hsign
      exact dropWhile_cons_of_neg (by decide)
    | false =>
      obtain rfl | rfl : sign = [] ∨ sign = ['+'] := by simpa using hsign
      · exact dropWhile_cons_of_neg (by simp [isSpace_of_isDigit hd])
      · exact dropWhile_cons_of_neg (by decide)
  have hbase : 1 ≤ base := by
    have : digitValue c < base := by simpa [isDigit] using hc
    omega
  have hread := accumulate_eq h.digits_ok hrest hbase (show 0 < wordSize by decide)
  rw [Nat.zero_mul, Nat.zero_add, cons_append] at hread
  simp only [stoul, hdrop, takeSign_append hsign hd, takeBase_eq_iff.mpr hbased, hread, cons_append,
    takeWhile_cons, hc, if_true, isEmpty_cons, Bool.false_eq_true, if_false]
  by_cases hlt : value base (c :: digits) < wordSize
  · rw [if_pos hlt, if_pos hlt]
    rfl
  · rw [if_neg hlt, if_neg hlt]

/-- A key that `stoul` takes for a number spells one. -/
theorem exists_spells (h : stoul k ≠ .error .invalidArgument) :
    ∃ negative base digits, Spells k negative base digits := by
  have hempty : ¬ ((takeBase (takeSign (k.dropWhile isSpace)).2).2.takeWhile
      (isDigit (takeBase (takeSign (k.dropWhile isSpace)).2).1)).isEmpty = true := fun hempty => h (if_pos hempty)
  obtain ⟨sign, hsign, hnumber⟩ := exists_sign (k.dropWhile isSpace)
  rcases hs : takeSign (k.dropWhile isSpace) with ⟨negative, number⟩
  rw [hs] at hsign hnumber hempty
  rcases hb : takeBase number with ⟨base, text⟩
  rw [hb] at hempty
  refine ⟨negative, base, text.takeWhile (isDigit base), by simpa using hempty, fun c hc => mem_takeWhile_imp hc,
    k.takeWhile isSpace, sign, number, text.dropWhile (isDigit base), ?_, fun c hc => mem_takeWhile_imp hc, hsign, ?_,
    fun c hc => ?_⟩
  · rw [← hnumber, takeWhile_append_dropWhile]
  · rw [takeWhile_append_dropWhile]
    exact takeBase_eq_iff.mp hb
  · have := List.head?_dropWhile_not (isDigit base) text
    rw [Option.mem_def.mp hc] at this
    simpa using this

/-- A key denotes an integer that fits into a word without its sign. -/
def Denotes (k : KeyText) (z : ℤ) : Prop :=
  ∃ negative base digits, Spells k negative base digits ∧ value base digits < wordSize ∧
    z = if negative then -(value base digits : ℤ) else (value base digits : ℤ)

/-- A wrapped number is the number modulo the word size. -/
theorem wrapped_modEq {negative : Bool} (hn : n < wordSize) :
    (wrapped negative n : ℤ) ≡ (if negative then -(n : ℤ) else (n : ℤ)) [ZMOD wordSize] := by
  cases negative with
  | false => rfl
  | true =>
    simp only [wrapped, if_true, Int.natCast_mod, Nat.cast_sub hn.le]
    calc ((wordSize : ℤ) - n) % wordSize ≡ (wordSize : ℤ) - n [ZMOD wordSize] := Int.mod_modEq _ _
      _ ≡ 0 - n [ZMOD wordSize] := (Int.modEq_zero_iff_dvd.mpr dvd_rfl).sub_right _
      _ = -n := by ring

/-- A wrapped number fits. -/
theorem wrapped_lt {negative : Bool} (hn : n < wordSize) : wrapped negative n < wordSize := by
  cases negative with
  | false => exact hn
  | true => exact Nat.mod_lt _ (by decide)

/-- The number of a key is the integer it denotes, modulo the word size. -/
theorem modEq_of_stoul (h : stoul k = .ok n) (hz : Denotes k z) : n < wordSize ∧ (n : ℤ) ≡ z [ZMOD wordSize] := by
  obtain ⟨negative, base, digits, hspells, hlt, rfl⟩ := hz
  rw [stoul_of_spells hspells, if_pos hlt] at h
  cases h
  exact ⟨wrapped_lt hlt, wrapped_modEq hlt⟩

/-- A key with a number denotes an integer. -/
theorem exists_denotes (h : stoul k = .ok n) : ∃ z, Denotes k z := by
  obtain ⟨negative, base, digits, hspells⟩ := exists_spells (k := k) (by simp [h])
  rw [stoul_of_spells hspells] at h
  split_ifs at h with hlt
  exact ⟨_, negative, base, digits, hspells, hlt, rfl⟩

end Numbers

/-- `split`: the items between the delimiters, without an empty one at the end. -/
def split (delim : Char) : KeyText → List KeyText
  | [] => []
  | c :: k =>
    if c = delim then [] :: split delim k
    else
      match split delim k with
      | [] => [[c]]
      | item :: items => (c :: item) :: items

/-- `is_metadata`; `none` if it reads `v[0]` of an empty vector. -/
def isMetadata (k : KeyText) : Option Bool :=
  (split '|' k).head?.map fun item => item = "ANNA_METADATA".toList

/-- The number under which logs, caches and the index hold a data key that the thread accepts. -/
def keyNumber (k : KeyText) : Option ℕ := if isMetadata k = some false then (stoul k).toOption else none

/-- An accepted key has its number from `stoul`. -/
theorem stoul_of_keyNumber {k : KeyText} {n : ℕ} (h : keyNumber k = some n) : stoul k = .ok n := by
  simp only [keyNumber] at h
  split_ifs at h
  cases hs : stoul k with
  | error e => simp [hs, Except.toOption] at h
  | ok m => simpa [hs, Except.toOption] using h

/-- Numbers below the word size are equal if they are equal modulo it. -/
theorem modEq_wordSize_iff {n m : ℕ} (hn : n < wordSize) (hm : m < wordSize) : (n : ℤ) ≡ m [ZMOD wordSize] ↔ n = m := by
  rw [Int.natCast_modEq_iff]
  exact ⟨fun h => Nat.ModEq.eq_of_lt_of_lt h hn hm, fun h => h ▸ rfl⟩

/-- Two accepted keys have two different numbers, none of them `0`, exactly if the integers they denote differ from each
other and from `0` modulo the word size. -/
theorem keys_keep_identity_iff {k₁ k₂ : KeyText} {n₁ n₂ : ℕ} (h₁ : keyNumber k₁ = some n₁) (h₂ : keyNumber k₂ = some n₂) :
    (n₁ ≠ n₂ ∧ n₁ ≠ 0 ∧ n₂ ≠ 0) ↔ ∀ z₁ z₂, Denotes k₁ z₁ → Denotes k₂ z₂ →
      ¬ z₁ ≡ z₂ [ZMOD wordSize] ∧ ¬ z₁ ≡ 0 [ZMOD wordSize] ∧ ¬ z₂ ≡ 0 [ZMOD wordSize] := by
  have hread₁ := stoul_of_keyNumber h₁
  have hread₂ := stoul_of_keyNumber h₂
  -- over the integers that the keys denote, the two sides say the same
  have hiff : ∀ z₁ z₂, Denotes k₁ z₁ → Denotes k₂ z₂ → ((n₁ ≠ n₂ ∧ n₁ ≠ 0 ∧ n₂ ≠ 0) ↔
      ¬ z₁ ≡ z₂ [ZMOD wordSize] ∧ ¬ z₁ ≡ 0 [ZMOD wordSize] ∧ ¬ z₂ ≡ 0 [ZMOD wordSize]) := by
    intro z₁ z₂ hz₁ hz₂
    obtain ⟨hn₁, hmod₁⟩ := modEq_of_stoul hread₁ hz₁
    obtain ⟨hn₂, hmod₂⟩ := modEq_of_stoul hread₂ hz₂
    have hzero : (0 : ℕ) < wordSize := by decide
    have hne : z₁ ≡ z₂ [ZMOD wordSize] ↔ n₁ = n₂ := by
      rw [← modEq_wordSize_iff hn₁ hn₂]
      exact ⟨fun h => (hmod₁.trans h).trans hmod₂.symm, fun h => (hmod₁.symm.trans h).trans hmod₂⟩
    have hzero₁ : z₁ ≡ 0 [ZMOD wordSize] ↔ n₁ = 0 := by
      rw [← modEq_wordSize_iff hn₁ hzero]
      exact ⟨hmod₁.trans, hmod₁.symm.trans⟩
    have hzero₂ : z₂ ≡ 0 [ZMOD wordSize] ↔ n₂ = 0 := by
      rw [← modEq_wordSize_iff hn₂ hzero]
      exact ⟨hmod₂.trans, hmod₂.symm.trans⟩
    rw [hne, hzero₁, hzero₂]
  refine ⟨fun h z₁ z₂ hz₁ hz₂ => (hiff z₁ z₂ hz₁ hz₂).mp h, fun h => ?_⟩
  obtain ⟨z₁, hz₁⟩ := exists_denotes hread₁
  obtain ⟨z₂, hz₂⟩ := exists_denotes hread₂
  exact (hiff z₁ z₂ hz₁ hz₂).mpr (h z₁ z₂ hz₁ hz₂)

/-- The keys `10` and `11`. -/
theorem keys_keep_identity_decimal : keyNumber "10".toList = some 10 ∧ keyNumber "11".toList = some 11 ∧
    ∀ z₁ z₂, Denotes "10".toList z₁ → Denotes "11".toList z₂ →
      ¬ z₁ ≡ z₂ [ZMOD wordSize] ∧ ¬ z₁ ≡ 0 [ZMOD wordSize] ∧ ¬ z₂ ≡ 0 [ZMOD wordSize] :=
  have h₁ : keyNumber "10".toList = some 10 := by decide
  have h₂ : keyNumber "11".toList = some 11 := by decide
  ⟨h₁, h₂, (keys_keep_identity_iff h₁ h₂).mp (by decide)⟩

/-- The key `10` and its hexadecimal spelling have one number, and the key `0` has the number of an empty slot. -/
theorem hexadecimal_key_shares_number : "10".toList ≠ "0xa".toList ∧ keyNumber "10".toList = some 10 ∧
    keyNumber "0xa".toList = some 10 ∧ keyNumber "0".toList = some 0 := by
  decide

section Decimal

variable {n : ℕ} {k : KeyText}

/-- The digit of a number below ten. -/
theorem digitValue_digitChar (hn : n < 10) : digitValue n.digitChar = n ∧ (n ≠ 0 → n.digitChar ≠ '0') := by
  interval_cases n <;> decide

/-- What is printed in decimal is read back, and begins with `0` only for `0`. -/
theorem value_toDigits (n : ℕ) : value 10 (Nat.toDigits 10 n) = n ∧ (∀ c ∈ Nat.toDigits 10 n, isDigit 10 c = true) ∧
    (n ≠ 0 → (Nat.toDigits 10 n).head? ≠ some '0') := by
  induction n using Nat.strong_induction_on with
  | _ n ih =>
    by_cases hn : n < 10
    · obtain ⟨hvalue, hhead⟩ := digitValue_digitChar hn
      rw [Nat.toDigits_of_lt_base hn]
      refine ⟨by simp [value, hvalue], fun c hc => ?_, fun h0 => by simpa using hhead h0⟩
      rw [mem_singleton.mp hc]
      simpa [isDigit, hvalue] using hn
    · have hdiv : n / 10 < n := Nat.div_lt_self (by omega) (by decide)
      obtain ⟨hvalue, hdigits, hhead⟩ := ih (n / 10) hdiv
      obtain ⟨hlast, -⟩ := digitValue_digitChar (Nat.mod_lt n (show 0 < 10 by decide))
      rw [Nat.toDigits_of_base_le (by decide) (Nat.le_of_not_lt hn)]
      refine ⟨?_, fun c hc => ?_, fun _ => ?_⟩
      · rw [value] at hvalue
        rw [value, reverse_append, map_append, reverse_singleton, map_singleton, hlast,
          singleton_append, Nat.ofDigits_cons, hvalue]
        omega
      · rcases mem_append.mp hc with hc | hc
        · exact hdigits c hc
        · rw [mem_singleton.mp hc]
          simp [isDigit, hlast, Nat.mod_lt]
      · rw [List.head?_append_of_ne_nil _ Nat.toDigits_ne_nil]
        exact hhead (by omega)

/-- A text without delimiter is its own first item. -/
theorem split_of_notMem {delim : Char} (hk : delim ∉ k) (hne : k ≠ []) : split delim k = [k] := by
  induction k with
  | nil => exact absurd rfl hne
  | cons c k ih =>
    have hc : c ≠ delim := fun h => hk (h ▸ mem_cons_self)
    rw [split, if_neg hc]
    cases k with
    | nil => rfl
    | cons d k => rw [ih (fun h => hk (mem_cons_of_mem _ h)) (cons_ne_nil _ _)]

end Decimal

end KeyText

end Dinomo
