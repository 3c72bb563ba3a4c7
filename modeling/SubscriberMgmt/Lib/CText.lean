import Mathlib.Data.Nat.Digits.Lemmas
import Mathlib.Data.List.TakeWhile
import Mathlib.Tactic.Common

/-!
# Text of the C library

Character classes of the C locale, decimal numbers as `printf` writes them,
the conversions of `scanf` as functions from an input to the text converted
and the rest, and the pieces that repeated calls of `fgets` deliver.
-/

namespace CText

abbrev Bytes := List UInt8

/-! ### Character classes -/

def isDigit (c : UInt8) : Bool := 48 ≤ c && c ≤ 57

def isCntrl (c : UInt8) : Bool := c < 32 || c == 127

def isSpace (c : UInt8) : Bool := c == 32 || (9 ≤ c && c ≤ 13)

def newline : UInt8 := 10
def carriageReturn : UInt8 := 13
def comma : UInt8 := 44

/-- The C string at the start of a buffer: the bytes before the first NUL. -/
def cString (buf : Bytes) : Bytes := buf.takeWhile (· != 0)

theorem isDigit_not_space {c : UInt8} (h : isDigit c = true) : isSpace c = false := by
  have h1 := h
  simp only [isDigit, Bool.and_eq_true, decide_eq_true_eq, UInt8.le_iff_toNat_le] at h1
  have h48 : (48 : UInt8).toNat = 48 := rfl
  have hne : c ≠ 32 := by
    intro he
    subst he
    exact absurd h1.1 (by decide)
  have hgt : ¬ c ≤ 13 := by
    rw [UInt8.le_iff_toNat_le]
    have : (13 : UInt8).toNat = 13 := rfl
    omega
  simp [isSpace, hne, hgt]

/-! ### Decimal numbers -/

def digit (d : ℕ) : UInt8 := UInt8.ofNat (48 + d)

/-- `%u`, `%llu` -/
def decimal (n : ℕ) : Bytes := if n = 0 then [digit 0] else ((Nat.digits 10 n).map digit).reverse

/-- `%ld`, `%lld` -/
def signedDecimal (z : ℤ) : Bytes := if z < 0 then 45 :: decimal z.natAbs else decimal z.natAbs

def digitsValue (s : Bytes) : ℕ := s.foldl (fun v c => v * 10 + (c.toNat - 48)) 0

theorem digit_toNat {d : ℕ} (h : d < 10) : (digit d).toNat = 48 + d := by
  simp only [digit, UInt8.toNat_ofNat']
  omega

theorem isDigit_digit {d : ℕ} (h : d < 10) : isDigit (digit d) = true := by
  have h48 : (48 : UInt8).toNat = 48 := rfl
  have h57 : (57 : UInt8).toNat = 57 := rfl
  simp only [isDigit, Bool.and_eq_true, decide_eq_true_eq, UInt8.le_iff_toNat_le, digit_toNat h]
  omega

theorem decimal_isDigit (n : ℕ) : ∀ c ∈ decimal n, isDigit c = true := by
  intro c hc
  unfold decimal at hc
  split at hc
  · rw [List.mem_singleton.mp hc]
    exact isDigit_digit (by decide)
  · simp only [List.mem_reverse, List.mem_map] at hc
    obtain ⟨d, hd, rfl⟩ := hc
    exact isDigit_digit (Nat.digits_lt_base (by decide) hd)

theorem decimal_ne_nil (n : ℕ) : decimal n ≠ [] := by
  unfold decimal
  split
  · simp
  · rename_i hn
    simp only [ne_eq, List.reverse_eq_nil_iff, List.map_eq_nil_iff]
    exact fun h => hn (Nat.digits_eq_nil_iff_eq_zero.mp h)

theorem decimal_length {n k : ℕ} (hk : 0 < k) (h : n < 10 ^ k) : (decimal n).length ≤ k := by
  unfold decimal
  split
  · exact hk
  · rw [List.length_reverse, List.length_map]
    exact (Nat.digits_length_le_iff (by decide) n).mpr h

theorem digitsValue_decimal (n : ℕ) : digitsValue (decimal n) = n := by
  unfold decimal
  split
  · rename_i hn
    rw [hn]
    rfl
  · have hd : ∀ d ∈ Nat.digits 10 n, d < 10 := fun d hd => Nat.digits_lt_base (by decide) hd
    have hv : ∀ l : List ℕ, (∀ d ∈ l, d < 10) →
        digitsValue ((l.map digit).reverse) = Nat.ofDigits 10 l := by
      intro l
      induction l with
      | nil => intro _; rfl
      | cons d l ih =>
        intro hl
        have hrec := ih fun x hx => hl x (List.mem_cons_of_mem _ hx)
        have h10 := digit_toNat (hl d (List.mem_cons_self ..))
        simp only [digitsValue] at hrec
        simp only [digitsValue, List.map_cons, List.reverse_cons, List.foldl_append, List.foldl_cons,
          List.foldl_nil, hrec, h10, Nat.ofDigits_cons]
        omega
    rw [hv _ hd, Nat.ofDigits_digits]

/-! ### Conversions of `scanf` -/

/-- `%w[...]`: between one and `width` characters of a set. -/
def scanSet (width : ℕ) (p : UInt8 → Bool) (s : Bytes) : Option (Bytes × Bytes) :=
  let t := (s.take width).takeWhile p
  if t.isEmpty then none else some (t, s.drop t.length)

/-- `%ws`: white space, then between one and `width` other characters. -/
def scanWord (width : ℕ) (s : Bytes) : Option (Bytes × Bytes) :=
  scanSet width (fun c => !isSpace c) (s.dropWhile isSpace)

def scanChar (c : UInt8) : Bytes → Option Bytes
  | [] => none
  | d :: s => if d = c then some s else none

def scanSign : Bytes → Bool × Bytes
  | [] => (false, [])
  | c :: s => if c = 45 then (true, s) else if c = 43 then (false, s) else (false, c :: s)

/-- `%ld`, `%lld`, with values outside `lo … hi` replaced by the nearer bound. -/
def scanInt (lo hi : ℤ) (s : Bytes) : Option (ℤ × Bytes) :=
  let sign := scanSign (s.dropWhile isSpace)
  let ds := sign.2.takeWhile isDigit
  if ds.isEmpty then none
  else
    let v : ℤ := if sign.1 then -(digitsValue ds : ℤ) else digitsValue ds
    some (max lo (min hi v), sign.2.drop ds.length)

/-- `%u` for a type of `2 ^ bits` values. The digits are read as `strtoul`
reads them: a number too large becomes `ULONG_MAX`, a minus sign negates, and
what does not fit the type is cut off. -/
def scanUInt (bits : ℕ) (s : Bytes) : Option (ℕ × Bytes) :=
  let sign := scanSign (s.dropWhile isSpace)
  let ds := sign.2.takeWhile isDigit
  if ds.isEmpty then none
  else
    let m := min (digitsValue ds) (2 ^ 64 - 1)
    let v := if sign.1 ∧ digitsValue ds < 2 ^ 64 then (2 ^ 64 - m) % 2 ^ 64 else m
    some (v % 2 ^ bits, sign.2.drop ds.length)

def hexDigit (c : UInt8) : Option ℕ :=
  if isDigit c then some (c.toNat - 48)
  else if 97 ≤ c && c ≤ 102 then some (c.toNat - 87)
  else if 65 ≤ c && c ≤ 70 then some (c.toNat - 55)
  else none

def skipHexPrefix : Bytes → Bytes
  | c :: d :: e :: s => if c = 48 ∧ (d = 120 ∨ d = 88) then e :: s else c :: d :: e :: s
  | s => s

/-- `%wx`: white space, then at most `width` characters of a number in base 16,
with an optional sign and prefix. The value is negative after a minus sign. `0x` and
nothing more is a matching failure, as in ISO C; glibc before 2.42 takes it for 0. -/
def scanHex (width : ℕ) (s : Bytes) : Option ℤ :=
  let sign := scanSign ((s.dropWhile isSpace).take width)
  let body := skipHexPrefix sign.2
  let ds := body.takeWhile fun c => (hexDigit c).isSome
  -- `0x` and nothing more is only the start of a number
  if ds.isEmpty || (ds = [48] && (body.getD 1 0 == 120 || body.getD 1 0 == 88)) then none
  else
    let v := ds.foldl (fun v c => v * 16 + (hexDigit c).getD 0) 0
    some (if sign.1 then -(v : ℤ) else v)

/-! ### Two characters in base 16 -/

theorem hexDigit_class {c : UInt8} (h : (hexDigit c).isSome) :
    isSpace c = false ∧ c ≠ 45 ∧ c ≠ 43 ∧ c ≠ 0 := by
  have hall : ∀ n : Fin 256, (hexDigit (UInt8.ofNat n)).isSome →
      isSpace (UInt8.ofNat n) = false ∧ UInt8.ofNat n ≠ 45 ∧ UInt8.ofNat n ≠ 43 ∧
        UInt8.ofNat n ≠ 0 := by decide +kernel
  have hc := hall ⟨c.toNat, c.toNat_lt⟩
  rw [UInt8.ofNat_toNat] at hc
  exact hc h

theorem hexDigit_lt {c : UInt8} {d : ℕ} (h : hexDigit c = some d) : d < 16 := by
  have hall : ∀ n : Fin 256, (hexDigit (UInt8.ofNat n)).getD 0 < 16 := by decide +kernel
  have hc := hall ⟨c.toNat, c.toNat_lt⟩
  rw [UInt8.ofNat_toNat, h] at hc
  exact hc

theorem scanHex_pair {a b : UInt8} {x y : ℕ} (ha : hexDigit a = some x) (hb : hexDigit b = some y)
    (s : Bytes) : scanHex 2 (a :: b :: s) = some ((16 * x + y : ℕ) : ℤ) := by
  obtain ⟨hsp, hminus, hplus, -⟩ := hexDigit_class (Option.isSome_of_eq_some ha)
  have hdrop : (a :: b :: s).dropWhile isSpace = a :: b :: s := by simp [hsp]
  have hsign : scanSign [a, b] = (false, [a, b]) := by simp [scanSign, hminus, hplus]
  have hdigits : [a, b].takeWhile (fun c => (hexDigit c).isSome) = [a, b] := by simp [ha, hb]
  simp only [scanHex, hdrop, List.take_succ_cons, List.take_zero, hsign, skipHexPrefix, hdigits]
  simp [ha, hb, Nat.mul_comm]

/-- There is no number for `%2x`: nothing behind the white space, a character that
is no digit, a sign without one, or the start of `0x` (by ISO C; see `scanHex`). -/
def noHexPair (s : Bytes) : Bool :=
  match s.dropWhile isSpace with
  | [] => true
  | c :: s =>
    if c = 45 ∨ c = 43 then (s.head?.bind hexDigit).isNone
    else (hexDigit c).isNone || (c == 48 && (s.head? == some 120 || s.head? == some 88))

theorem scanHex_eq_none_iff (s : Bytes) : scanHex 2 s = none ↔ noHexPair s = true := by
  unfold scanHex noHexPair
  cases s.dropWhile isSpace with
  | nil => simp [scanSign, skipHexPrefix]
  | cons c s =>
    have hshort : ∀ l : Bytes, l.length ≤ 2 → skipHexPrefix l = l := by
      intro l hl
      match l, hl with
      | [], _ => rfl
      | [_], _ => rfl
      | [_, _], _ => rfl
    by_cases hsign : c = 45 ∨ c = 43
    · have hscan : ∃ neg, scanSign ((c :: s).take 2) = (neg, s.take 1) := by
        cases hsign with
        | inl h => exact ⟨true, by simp [scanSign, h]⟩
        | inr h => exact ⟨false, by simp [scanSign, h]⟩
      obtain ⟨neg, hscan⟩ := hscan
      simp only [hscan, if_pos hsign, hshort (s.take 1) (by simp)]
      cases s with
      | nil => simp
      | cons d s => cases hd : hexDigit d <;> simp [hd]
    · have hscan : scanSign ((c :: s).take 2) = (false, c :: s.take 1) := by
        simp only [not_or] at hsign
        simp [scanSign, hsign]
      simp only [hscan, if_neg hsign, hshort (c :: s.take 1) (by simp)]
      cases hc : hexDigit c with
      | none => simp [hc]
      | some x =>
        cases s with
        | nil => simp [hc]
        | cons d s =>
          cases hd : hexDigit d with
          | none =>
            by_cases h120 : d = 120
            · rw [h120] at hd
              simp [hc, hd, h120]
            · simp [hc, hd, h120]
          | some y =>
            have h120 : d ≠ 120 := by
              intro he
              rw [he] at hd
              cases hd
            have h88 : d ≠ 88 := by
              intro he
              rw [he] at hd
              cases hd
            simp [hc, hd, h120, h88]

theorem scanSet_append {width : ℕ} {p : UInt8 → Bool} {s rest : Bytes} {c : UInt8}
    (hne : s ≠ []) (hlen : s.length ≤ width) (hs : ∀ x ∈ s, p x = true) (hc : p c = false) :
    scanSet width p (s ++ c :: rest) = some (s, c :: rest) := by
  have htake : ((s ++ c :: rest).take width).takeWhile p = s := by
    rw [List.take_append, List.take_of_length_le hlen, List.takeWhile_append_of_pos hs]
    cases width - s.length with
    | zero => simp
    | succ k => simp [hc]
  have hemp : s.isEmpty = false := by simpa using hne
  simp only [scanSet, htake, hemp, List.drop_left, Bool.false_eq_true, if_false]

theorem takeWhile_append_stop {p : UInt8 → Bool} {s rest : Bytes} (hs : ∀ x ∈ s, p x = true)
    (hrest : ∀ x ∈ rest.head?, p x = false) : (s ++ rest).takeWhile p = s := by
  rw [List.takeWhile_append_of_pos hs]
  cases rest with
  | nil => simp
  | cons c rest => simp [hrest c (by simp)]

theorem digit_head (s : Bytes) (hs : s ≠ []) (hd : ∀ c ∈ s, isDigit c = true) (rest : Bytes) :
    scanSign ((s ++ rest).dropWhile isSpace) = (false, s ++ rest) := by
  cases s with
  | nil => exact absurd rfl hs
  | cons c s =>
    have hc := hd c (List.mem_cons_self ..)
    have h45 : c ≠ 45 := by
      intro he
      subst he
      simp [isDigit] at hc
    have h43 : c ≠ 43 := by
      intro he
      subst he
      simp [isDigit] at hc
    simp [isDigit_not_space hc, scanSign, h45, h43]

theorem scanInt_signedDecimal {lo hi z : ℤ} (hlo : lo ≤ z) (hhi : z ≤ hi) {rest : Bytes}
    (hrest : ∀ x ∈ rest.head?, isDigit x = false) :
    scanInt lo hi (signedDecimal z ++ rest) = some (z, rest) := by
  have hd := decimal_isDigit z.natAbs
  have hne := decimal_ne_nil z.natAbs
  have htw := takeWhile_append_stop hd hrest
  have hemp : (decimal z.natAbs).isEmpty = false := by simpa using hne
  have hv := digitsValue_decimal z.natAbs
  unfold signedDecimal
  split
  · rename_i hz
    have h45 : isSpace 45 = false := by decide
    have hs : scanSign ((45 :: decimal z.natAbs ++ rest).dropWhile isSpace) =
        (true, decimal z.natAbs ++ rest) := by
      simp [h45, scanSign]
    simp only [scanInt, hs, htw, hemp, hv, List.drop_left, Bool.false_eq_true, if_false, if_true]
    have habs : -((z.natAbs : ℕ) : ℤ) = z := by omega
    rw [habs, min_eq_right hhi, max_eq_right hlo]
  · rename_i hz
    have hs := digit_head _ hne hd rest
    simp only [scanInt, hs, htw, hemp, hv, List.drop_left, Bool.false_eq_true, if_false]
    have habs : ((z.natAbs : ℕ) : ℤ) = z := by omega
    rw [habs, min_eq_right hhi, max_eq_right hlo]

theorem scanInt_range {lo hi v : ℤ} {s rest : Bytes} (hle : lo ≤ hi)
    (h : scanInt lo hi s = some (v, rest)) : lo ≤ v ∧ v ≤ hi := by
  simp only [scanInt] at h
  split at h
  · cases h
  · cases h
    exact ⟨le_max_left _ _, max_le hle (min_le_left _ _)⟩

/-! ### Unsigned numerals -/

/-- Digits with white space around them. -/
def Numeral (s : Bytes) (n : ℕ) : Prop :=
  ∃ pre ds post, s = pre ++ (ds ++ post) ∧ (∀ c ∈ pre, isSpace c = true) ∧
    (∀ c ∈ post, isSpace c = true) ∧ ds ≠ [] ∧ (∀ c ∈ ds, isDigit c = true) ∧ digitsValue ds = n

/-- The value of `strtoull` for a sign and digits. -/
def unsignedValue (sign ds : Bytes) : ℕ :=
  if 2 ^ 64 ≤ digitsValue ds then 2 ^ 64 - 1
  else if sign = [45] then (2 ^ 64 - digitsValue ds) % 2 ^ 64
  else digitsValue ds

/-- White space, an optional sign and as many digits as there are: what
`strtoull` takes from the start of a text. -/
def Converts (s : Bytes) (n : ℕ) : Prop :=
  ∃ pre sign ds rest, s = pre ++ (sign ++ (ds ++ rest)) ∧ (∀ c ∈ pre, isSpace c = true) ∧
    (sign = [] ∨ sign = [43] ∨ sign = [45]) ∧ ds ≠ [] ∧ (∀ c ∈ ds, isDigit c = true) ∧
    (∀ c ∈ rest.head?, isDigit c = false) ∧ unsignedValue sign ds = n

theorem scanSign_split (s : Bytes) : ∃ sign, s = sign ++ (scanSign s).2 ∧
    (sign = [] ∨ sign = [43] ∨ sign = [45]) ∧ (scanSign s).1 = decide (sign = [45]) := by
  cases s with
  | nil => exact ⟨[], rfl, Or.inl rfl, by simp [scanSign]⟩
  | cons c s =>
    by_cases h45 : c = 45
    · exact ⟨[45], by simp [scanSign, h45], Or.inr (Or.inr rfl), by simp [scanSign, h45]⟩
    · by_cases h43 : c = 43
      · exact ⟨[43], by simp [scanSign, h43], Or.inr (Or.inl rfl), by simp [scanSign, h43]⟩
      · exact ⟨[], by simp [scanSign, h45, h43], Or.inl rfl, by simp [scanSign, h45, h43]⟩

/-- A sign and digits after white space are scanned as they stand. -/
theorem scanSign_signed {pre sign ds rest : Bytes} (hpre : ∀ c ∈ pre, isSpace c = true)
    (hsign : sign = [] ∨ sign = [43] ∨ sign = [45]) (hne : ds ≠ [])
    (hds : ∀ c ∈ ds, isDigit c = true) :
    scanSign ((pre ++ (sign ++ (ds ++ rest))).dropWhile isSpace) =
      (decide (sign = [45]), ds ++ rest) := by
  rw [List.dropWhile_append_of_pos hpre]
  rcases hsign with rfl | rfl | rfl
  · exact digit_head ds hne hds rest
  · simp [scanSign, isSpace]
  · simp [scanSign, isSpace]

theorem unsignedValue_lt (sign ds : Bytes) : unsignedValue sign ds < 2 ^ 64 := by
  unfold unsignedValue
  split
  · omega
  · split
    · exact Nat.mod_lt _ (by omega)
    · omega

theorem unsignedValue_eq (sign ds : Bytes) :
    (if decide (sign = [45]) = true ∧ digitsValue ds < 2 ^ 64 then
        (2 ^ 64 - min (digitsValue ds) (2 ^ 64 - 1)) % 2 ^ 64
      else min (digitsValue ds) (2 ^ 64 - 1)) = unsignedValue sign ds := by
  simp only [decide_eq_true_eq, unsignedValue]
  by_cases hbig : 2 ^ 64 ≤ digitsValue ds
  · rw [if_pos hbig, if_neg (fun h => absurd h.2 (Nat.not_lt.mpr hbig))]
    omega
  · have hlt : digitsValue ds < 2 ^ 64 := Nat.lt_of_not_le hbig
    have hmin : min (digitsValue ds) (2 ^ 64 - 1) = digitsValue ds := by omega
    simp only [if_neg hbig, hlt, and_true, hmin]

theorem scanUInt_converts {s : Bytes} {n : ℕ} :
    (scanUInt 64 s).map Prod.fst = some n ↔ Converts s n := by
  constructor
  · intro h
    obtain ⟨sign, hsplit, hsign, hminus⟩ := scanSign_split (s.dropWhile isSpace)
    simp only [scanUInt, hminus] at h
    generalize (scanSign (s.dropWhile isSpace)).2 = t at h hsplit
    split at h
    case isTrue => cases h
    case isFalse hne =>
      rw [Bool.not_eq_true, List.isEmpty_eq_false_iff] at hne
      simp only [Option.map_some, Option.some.injEq, unsignedValue_eq,
        Nat.mod_eq_of_lt (unsignedValue_lt _ _)] at h
      refine ⟨s.takeWhile isSpace, sign, t.takeWhile isDigit, t.dropWhile isDigit, ?_,
        fun c hc => List.mem_takeWhile_imp hc, hsign, hne, fun c hc => List.mem_takeWhile_imp hc,
        fun c hc => ?_, h⟩
      · rw [List.takeWhile_append_dropWhile, ← hsplit, List.takeWhile_append_dropWhile]
      · have hstop := List.head?_dropWhile_not isDigit t
        rw [Option.mem_def.mp hc] at hstop
        exact hstop
  · intro h
    obtain ⟨pre, sign, ds, rest, rfl, hpre, hsign, hne, hds, hrest, rfl⟩ := h
    have hemp : ds.isEmpty = false := by simpa using hne
    simp only [scanUInt, scanSign_signed hpre hsign hne hds, takeWhile_append_stop hds hrest, hemp,
      Bool.false_eq_true, if_false, Option.map_some, unsignedValue_eq,
      Nat.mod_eq_of_lt (unsignedValue_lt sign ds)]

theorem Numeral.converts {s : Bytes} {n : ℕ} (h : Numeral s n) (hn : n < 2 ^ 64) :
    Converts s n := by
  obtain ⟨pre, ds, post, rfl, hpre, hpost, hne, hds, rfl⟩ := h
  refine ⟨pre, [], ds, post, rfl, hpre, Or.inl rfl, hne, hds, fun c hc => ?_, ?_⟩
  · have hspace := hpost c (List.mem_of_mem_head? hc)
    by_contra hd
    rw [isDigit_not_space (Bool.eq_true_of_not_eq_false hd)] at hspace
    cases hspace
  · rw [unsignedValue, if_neg (Nat.not_le.mpr hn), if_neg (by decide)]

theorem Numeral.chars {s : Bytes} {n : ℕ} (h : Numeral s n) :
    ∀ c ∈ s, (isSpace c || isDigit c) = true := by
  obtain ⟨pre, ds, post, rfl, hpre, hpost, -, hds, -⟩ := h
  intro c hc
  rw [List.mem_append, List.mem_append] at hc
  rw [Bool.or_eq_true]
  rcases hc with hc | hc | hc
  · exact Or.inl (hpre c hc)
  · exact Or.inr (hds c hc)
  · exact Or.inl (hpost c hc)

theorem Converts.unique {s : Bytes} {m n : ℕ} (hm : Converts s m) (hn : Converts s n) : m = n := by
  rw [← scanUInt_converts] at hm hn
  exact Option.some.inj (hm.symm.trans hn)

theorem scanSet_some {width : ℕ} {p : UInt8 → Bool} {s t rest : Bytes}
    (h : scanSet width p s = some (t, rest)) :
    t = (s.take width).takeWhile p ∧ t ≠ [] ∧ t.length ≤ width := by
  simp only [scanSet] at h
  split at h
  case isTrue => cases h
  case isFalse hne =>
    cases h
    refine ⟨rfl, by simpa using hne, ?_⟩
    exact (List.takeWhile_prefix _).length_le.trans (List.length_take_le _ _)

/-! ### Words separated by single blanks -/

def joinWords : List Bytes → Bytes
  | [] => []
  | w :: ws => w ++ ws.flatMap (32 :: ·)

def IsWord (w : Bytes) : Prop := w ≠ [] ∧ ∀ c ∈ w, isSpace c = false

/-- What `%ws` converts of a text of words: a long word is cut. -/
def firstPiece (width : ℕ) (ws : List Bytes) : Bytes := (ws.headD []).take width

/-- The words after `%ws`: what is left of a long word comes next. -/
def dropPiece (width : ℕ) : List Bytes → List Bytes
  | [] => []
  | w :: ws => if w.length ≤ width then ws else w.drop width :: ws

@[simp] theorem dropPiece_nil (width : ℕ) : dropPiece width [] = [] := rfl

/-- How many times `%ws` succeeds on a text of words. -/
def pieceCount (width : ℕ) (ws : List Bytes) : ℕ :=
  (ws.map fun w => (w.length + (width - 1)) / width).sum

theorem IsWord.drop {w : Bytes} (hw : IsWord w) {n : ℕ} (hn : n < w.length) :
    IsWord (w.drop n) := by
  constructor
  · intro h
    have hlen := congrArg List.length h
    simp only [List.length_drop, List.length_nil] at hlen
    omega
  · exact fun c hc => hw.2 c (List.mem_of_mem_drop hc)

theorem dropPiece_words (width : ℕ) {ws : List Bytes} (h : ∀ w ∈ ws, IsWord w) :
    ∀ w ∈ dropPiece width ws, IsWord w := by
  cases ws with
  | nil => exact h
  | cons v ws =>
    have hws : ∀ w ∈ ws, IsWord w := fun w hw => h w (List.mem_cons_of_mem _ hw)
    simp only [dropPiece]
    split
    case isTrue => exact hws
    case isFalse hlong =>
      intro w hw
      cases List.mem_cons.mp hw with
      | inl he =>
        rw [he]
        exact (h v (List.mem_cons_self ..)).drop (by omega)
      | inr hw => exact hws w hw

theorem joinWords_dropWhile {ws : List Bytes} (h : ∀ w ∈ ws, IsWord w) :
    (joinWords ws).dropWhile isSpace = joinWords ws := by
  cases ws with
  | nil => rfl
  | cons w ws =>
    obtain ⟨hne, hw⟩ := h w (List.mem_cons_self ..)
    cases w with
    | nil => exact absurd rfl hne
    | cons c w => simp [joinWords, hw c (List.mem_cons_self ..)]

/-- The text after a word begins with the blank that separates the next one. -/
theorem dropWhile_flatMap {p : UInt8 → Bool} (hp : p 32 = true) {ws : List Bytes}
    (h : (joinWords ws).dropWhile p = joinWords ws) :
    (ws.flatMap (32 :: ·)).dropWhile p = joinWords ws := by
  cases ws with
  | nil => rfl
  | cons w ws =>
    simp only [List.flatMap_cons, List.cons_append, List.dropWhile_cons, hp, if_true]
    exact h

theorem joinWords_dropPiece {width : ℕ} {w : Bytes} {ws : List Bytes}
    (h : ∀ v ∈ w :: ws, IsWord v) :
    (w.drop width ++ ws.flatMap (32 :: ·)).dropWhile isSpace =
      joinWords (dropPiece width (w :: ws)) := by
  have hws : ∀ v ∈ ws, IsWord v := fun v hv => h v (List.mem_cons_of_mem _ hv)
  simp only [dropPiece]
  split
  case isTrue hshort =>
    rw [List.drop_eq_nil_of_le hshort, List.nil_append]
    exact dropWhile_flatMap (by decide) (joinWords_dropWhile hws)
  case isFalse hlong =>
    have hw := (h w (List.mem_cons_self ..)).drop (n := width) (by omega)
    have hall : ∀ v ∈ w.drop width :: ws, IsWord v := by
      intro v hv
      cases List.mem_cons.mp hv with
      | inl he => rwa [he]
      | inr hv => exact hws v hv
    exact joinWords_dropWhile hall

theorem scanWord_nil {width : ℕ} {s : Bytes} (h : s.dropWhile isSpace = []) :
    scanWord width s = none := by
  simp [scanWord, scanSet, h]

theorem scanWord_join {width : ℕ} (hwidth : 0 < width) {s w : Bytes} {ws : List Bytes}
    (hs : s.dropWhile isSpace = joinWords (w :: ws)) (hw : IsWord w) :
    scanWord width s = some (w.take width, w.drop width ++ ws.flatMap (32 :: ·)) := by
  have hword : (joinWords (w :: ws)).takeWhile (fun c => !isSpace c) = w := by
    refine takeWhile_append_stop (fun c hc => by simp [hw.2 c hc]) fun c hc => ?_
    cases ws with
    | nil => simp at hc
    | cons v ws =>
      simp only [List.flatMap_cons, List.cons_append, List.head?_cons, Option.mem_some_iff] at hc
      rw [← hc]
      rfl
  have htake : ((joinWords (w :: ws)).take width).takeWhile (fun c => !isSpace c) =
      w.take width := by
    rw [← List.take_takeWhile, hword]
  have hne : (w.take width).isEmpty = false := by
    have hlen : 0 < w.length := List.length_pos_iff.mpr hw.1
    rw [List.isEmpty_eq_false_iff, ← List.length_pos_iff, List.length_take]
    omega
  have hdrop : (joinWords (w :: ws)).drop (w.take width).length =
      w.drop width ++ ws.flatMap (32 :: ·) := by
    have hle : (w.take width).length ≤ w.length := List.length_take_le' ..
    rw [joinWords, List.drop_append_of_le_length hle, List.length_take]
    congr 1
    cases Nat.le_total width w.length with
    | inl h => rw [Nat.min_eq_left h]
    | inr h => rw [Nat.min_eq_right h, List.drop_length, List.drop_eq_nil_of_le h]
  simp only [scanWord, scanSet, hs, htake, hne, hdrop, Bool.false_eq_true, if_false]

/-- `%ws` on a text of words, with white space in front. -/
theorem scanWord_words {width : ℕ} (hwidth : 0 < width) {s : Bytes} {ws : List Bytes}
    (hs : s.dropWhile isSpace = joinWords ws) (hws : ∀ w ∈ ws, IsWord w) :
    ws = [] ∧ scanWord width s = none ∨
      ws ≠ [] ∧ ∃ rest, scanWord width s = some (firstPiece width ws, rest) ∧
        rest.dropWhile isSpace = joinWords (dropPiece width ws) := by
  cases ws with
  | nil => exact Or.inl ⟨rfl, scanWord_nil hs⟩
  | cons w ws =>
    have h := scanWord_join hwidth hs (hws w (List.mem_cons_self ..))
    exact Or.inr ⟨by simp, _, h, joinWords_dropPiece hws⟩

theorem pieceCount_dropPiece {width : ℕ} (hwidth : 0 < width) {ws : List Bytes}
    (h : ∀ w ∈ ws, IsWord w) :
    pieceCount width (dropPiece width ws) = pieceCount width ws - 1 := by
  cases ws with
  | nil => rfl
  | cons w ws =>
    have hpos : 0 < w.length := List.length_pos_iff.mpr (h w (List.mem_cons_self ..)).1
    simp only [dropPiece]
    split
    case isTrue hshort =>
      have hone : (w.length + (width - 1)) / width = 1 :=
        Nat.div_eq_of_lt_le (by omega) (by omega)
      simp only [pieceCount, List.map_cons, List.sum_cons, hone]
      omega
    case isFalse hlong =>
      have hsucc : (w.length + (width - 1)) / width =
          (w.length - width + (width - 1)) / width + 1 := by
        rw [← Nat.add_div_right _ hwidth]
        congr 1
        omega
      simp only [pieceCount, List.map_cons, List.sum_cons, List.length_drop, hsucc]
      rw [Nat.add_right_comm, Nat.add_sub_cancel]

/-- A word is one piece at least. -/
theorem length_le_pieceCount {width : ℕ} (hwidth : 0 < width) {ws : List Bytes}
    (h : ∀ w ∈ ws, IsWord w) : ws.length ≤ pieceCount width ws := by
  induction ws with
  | nil => exact Nat.zero_le _
  | cons w ws ih =>
    have hpos : 0 < w.length := List.length_pos_iff.mpr (h w (List.mem_cons_self ..)).1
    have hone : 1 ≤ (w.length + (width - 1)) / width :=
      (Nat.le_div_iff_mul_le hwidth).mpr (by omega)
    have hrest := ih fun v hv => h v (List.mem_cons_of_mem _ hv)
    simp only [pieceCount] at hrest
    simp only [pieceCount, List.map_cons, List.sum_cons, List.length_cons]
    omega

theorem pieceCount_eq_zero {width : ℕ} (hwidth : 0 < width) {ws : List Bytes}
    (h : ∀ w ∈ ws, IsWord w) : pieceCount width ws = 0 ↔ ws = [] := by
  constructor
  · intro hzero
    have hle := length_le_pieceCount hwidth h
    rw [hzero] at hle
    exact List.length_eq_zero_iff.mp (Nat.le_zero.mp hle)
  · rintro rfl
    rfl

/-! ### Lines -/

/-- One call of `fgets` with room for `room` bytes before the NUL. -/
def fgets : ℕ → Bytes → Bytes × Bytes
  | 0, s => ([], s)
  | _, [] => ([], [])
  | room + 1, c :: s =>
    if c = newline then ([c], s)
    else
      let r := fgets room s
      (c :: r.1, r.2)

theorem fgets_append (room : ℕ) (s : Bytes) : (fgets room s).1 ++ (fgets room s).2 = s := by
  fun_induction fgets room s with
  | case1 => rfl
  | case2 => rfl
  | case3 => rfl
  | case4 room c s _ r ih => exact congrArg (c :: ·) ih

theorem fgets_rest_lt {room : ℕ} (hroom : 0 < room) (c : UInt8) (s : Bytes) :
    (fgets room (c :: s)).2.length < (c :: s).length := by
  obtain ⟨k, rfl⟩ : ∃ k, room = k + 1 := ⟨room - 1, by omega⟩
  simp only [fgets]
  split
  · simp
  · have h := congrArg List.length (fgets_append k s)
    simp only [List.length_append] at h
    simp only [List.length_cons]
    omega

/-- All pieces that `fgets` with a buffer of `room + 2` bytes reads from a file. -/
def fgetsAll (room : ℕ) (s : Bytes) : List Bytes :=
  match s with
  | [] => []
  | c :: t =>
    let r := fgets (room + 1) (c :: t)
    r.1 :: fgetsAll room r.2
termination_by s.length
decreasing_by exact fgets_rest_lt (Nat.succ_pos _) c t

theorem fgetsAll_length_le (room : ℕ) (s : Bytes) : (fgetsAll room s).length ≤ s.length := by
  fun_induction fgetsAll room s with
  | case1 => exact le_rfl
  | case2 c t r ih =>
    have hlt : r.2.length < (c :: t).length := fgets_rest_lt (Nat.succ_pos room) c t
    rw [List.length_cons]
    omega

theorem fgets_line {room : ℕ} {body : Bytes} (hbody : newline ∉ body)
    (hlen : body.length < room) (rest : Bytes) :
    fgets room (body ++ newline :: rest) = (body ++ [newline], rest) := by
  induction body generalizing room with
  | nil =>
    obtain ⟨k, rfl⟩ : ∃ k, room = k + 1 := ⟨room - 1, by omega⟩
    simp [fgets]
  | cons c body ih =>
    obtain ⟨k, rfl⟩ : ∃ k, room = k + 1 := ⟨room - 1, by omega⟩
    simp only [List.mem_cons, not_or, List.length_cons] at hbody hlen
    have hrec := ih hbody.2 (Nat.lt_of_succ_lt_succ hlen)
    simp only [List.cons_append, fgets, Ne.symm hbody.1, if_false, hrec]

theorem fgetsAll_line {room : ℕ} {body : Bytes} (hbody : newline ∉ body)
    (hlen : body.length ≤ room) (rest : Bytes) :
    fgetsAll room (body ++ newline :: rest) = (body ++ [newline]) :: fgetsAll room rest := by
  have hline := fgets_line hbody (Nat.lt_succ_of_le hlen) rest
  cases hb : body ++ newline :: rest with
  | nil => simp at hb
  | cons c t => rw [fgetsAll, ← hb, hline]

theorem fgetsAll_lines {room : ℕ} (bodies : List Bytes)
    (h : ∀ b ∈ bodies, newline ∉ b ∧ b.length ≤ room) :
    fgetsAll room (bodies.flatMap (· ++ [newline])) = bodies.map (· ++ [newline]) := by
  induction bodies with
  | nil => simp [fgetsAll]
  | cons b bodies ih =>
    obtain ⟨hnl, hlen⟩ := h b (List.mem_cons_self ..)
    rw [List.flatMap_cons, List.append_assoc, List.singleton_append, fgetsAll_line hnl hlen,
      ih fun x hx => h x (List.mem_cons_of_mem _ hx), List.map_cons]

end CText
