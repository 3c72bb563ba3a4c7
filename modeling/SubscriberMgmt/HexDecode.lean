import SubscriberMgmt.Sha256

/-!
# Reading hexadecimal text (`sha256.c:127-135`)

`sm_hex_decode` makes one conversion for each byte, at every second position. The
memory behind the string is part of its input.
-/

namespace SubscriberMgmt
open CText

/-- Hexadecimal digits only, in either case. -/
def IsHex (s : Str) : Prop := ∀ c ∈ s, (hexDigit c).isSome

instance (s : Str) : Decidable (IsHex s) := inferInstanceAs (Decidable (∀ c ∈ s, _))

/-- The bytes that pairs of digits denote. -/
def hexBytes : Str → List UInt8
  | a :: b :: s => UInt8.ofNat (16 * (hexDigit a).getD 0 + (hexDigit b).getD 0) :: hexBytes s
  | _ => []

/-! ### One conversion after the other -/

theorem smHexDecode_isSome_iff (mem : Str) (len : ℕ) : (smHexDecode mem len).isSome ↔
    ∀ i < len, (scanHex 2 (cString (mem.drop (2 * i)))).isSome := by
  induction len with
  | zero => simp [smHexDecode]
  | succ len ih =>
    rw [Nat.forall_lt_succ_right, ← ih, smHexDecode]
    cases smHexDecode mem len with
    | none => simp
    | some v => cases scanHex 2 (cString (mem.drop (2 * len))) <;> simp

theorem cString_drop {s : Str} (hs : (0 : UInt8) ∉ s) (beyond : Str) {k : ℕ} (hk : k ≤ s.length) :
    cString ((s ++ 0 :: beyond).drop k) = s.drop k := by
  rw [List.drop_append_of_le_length hk, cString, List.takeWhile_append_of_pos]
  · simp
  · intro c hc
    simpa using ne_of_mem_of_not_mem (List.mem_of_mem_drop hc) hs

theorem hexBytes_take {s : Str} {k : ℕ} (hk : 2 * k + 1 < s.length) :
    hexBytes (s.take (2 * (k + 1))) = hexBytes (s.take (2 * k)) ++
      [UInt8.ofNat (16 * (hexDigit s[2 * k]).getD 0 + (hexDigit s[2 * k + 1]).getD 0)] := by
  induction k generalizing s with
  | zero =>
    match s, hk with
    | a :: b :: s, _ => rfl
  | succ k ih =>
    match s, hk with
    | a :: b :: s, hk =>
      have hlen : 2 * k + 1 < s.length := by
        simp only [List.length_cons] at hk
        omega
      have hrec := ih hlen
      have htwo : ∀ j, (a :: b :: s).take (2 * (j + 1)) = a :: b :: s.take (2 * j) := by
        intro j
        rw [Nat.mul_succ, List.take_succ_cons, List.take_succ_cons]
      rw [htwo (k + 1), htwo k, hexBytes, hexBytes, hrec]
      rfl

/-- Digits of the right number are decoded to the bytes they denote. -/
theorem smHexDecode_digits {s : Str} (hs : IsHex s) (beyond : Str) {len : ℕ}
    (hlen : 2 * len ≤ s.length) :
    ∃ v, smHexDecode (s ++ 0 :: beyond) len = some v ∧ v.toList = hexBytes (s.take (2 * len)) := by
  have hz : (0 : UInt8) ∉ s := fun h => (hexDigit_class (hs 0 h)).2.2.2 rfl
  induction len with
  | zero => exact ⟨#v[], rfl, rfl⟩
  | succ len ih =>
    obtain ⟨v, hv, hbytes⟩ := ih (by omega)
    obtain ⟨x, hx⟩ := Option.isSome_iff_exists.mp (hs s[2 * len] (List.getElem_mem (by omega)))
    obtain ⟨y, hy⟩ := Option.isSome_iff_exists.mp (hs s[2 * len + 1] (List.getElem_mem (by omega)))
    have hscan : scanHex 2 (cString ((s ++ 0 :: beyond).drop (2 * len))) =
        some ((16 * x + y : ℕ) : ℤ) := by
      rw [cString_drop hz beyond (by omega), List.drop_eq_getElem_cons (by omega),
        List.drop_eq_getElem_cons (by omega)]
      exact scanHex_pair hx hy _
    have hbyte : (((16 * x + y : ℕ) : ℤ) % 256).toNat = 16 * x + y := by
      have hx16 := hexDigit_lt hx
      have hy16 := hexDigit_lt hy
      omega
    refine ⟨v.push (UInt8.ofNat (16 * x + y)), ?_, ?_⟩
    · simp only [smHexDecode, hv, hscan, hbyte]
    · rw [Vector.toList_push, hbytes, hexBytes_take (by omega), hx, hy]
      rfl

/-- What `sm_hex_encode` writes for a byte. -/
theorem hexDigit_hexChar (b : UInt8) : ∃ x y, hexDigit (hexChar ((b >>> 4) &&& 0x0F)) = some x ∧
    hexDigit (hexChar (b &&& 0x0F)) = some y ∧ 16 * x + y = b.toNat := by
  have hall : ∀ n : Fin 256, let hi := hexDigit (hexChar ((UInt8.ofNat n >>> 4) &&& 0x0F))
      let lo := hexDigit (hexChar (UInt8.ofNat n &&& 0x0F))
      hi = some (hi.getD 0) ∧ lo = some (lo.getD 0) ∧ 16 * hi.getD 0 + lo.getD 0 = n := by
    decide +kernel
  have h := hall ⟨b.toNat, b.toNat_lt⟩
  rw [UInt8.ofNat_toNat] at h
  exact ⟨_, _, h⟩

theorem smHexEncode_digits (data : List UInt8) :
    IsHex (smHexEncode data) ∧ hexBytes (smHexEncode data) = data := by
  induction data with
  | nil => exact ⟨fun c hc => (by cases hc), rfl⟩
  | cons b data ih =>
    obtain ⟨hhex, hbytes⟩ := ih
    obtain ⟨x, y, hx, hy, hval⟩ := hexDigit_hexChar b
    constructor
    · intro c hc
      rcases List.mem_cons.mp hc with rfl | hc
      · rw [hx]
        rfl
      · rcases List.mem_cons.mp hc with rfl | hc
        · rw [hy]
          rfl
        · exact hhex c hc
    · simp only [smHexEncode] at hbytes
      simp only [smHexEncode, List.flatMap_cons, List.cons_append, List.nil_append, hexBytes, hx,
        hy, Option.getD_some, hval, hbytes, UInt8.ofNat_toNat]

theorem smHexDecode_vector {n : ℕ} (v : Vector UInt8 n) (stale : Str) :
    smHexDecode (smHexEncode v.toList ++ 0 :: stale) n = some v := by
  obtain ⟨hhex, hbytes⟩ := smHexEncode_digits v.toList
  have hlen : (smHexEncode v.toList).length = 2 * n := by
    rw [smHexEncode_length, Vector.length_toList]
  obtain ⟨w, hw, hdecoded⟩ := smHexDecode_digits hhex stale hlen.ge
  rw [← hlen, List.take_length, hbytes] at hdecoded
  rw [hw, Vector.toList_inj.mp hdecoded]

/-! ### Exactness -/

/-- Exactly the strings of `2 * len` digits are accepted, as the bytes they denote, and
no conversion starts behind the terminating NUL. The `i`-th conversion is made when the
ones before have succeeded. -/
structure DecodesExactly (s beyond : Str) (len : ℕ) : Prop where
  accepts : (smHexDecode (s ++ 0 :: beyond) len).isSome ↔ s.length = 2 * len ∧ IsHex s
  value : ∀ v, smHexDecode (s ++ 0 :: beyond) len = some v → v.toList = hexBytes s
  inside : ∀ i < len, (smHexDecode (s ++ 0 :: beyond) i).isSome → 2 * i ≤ s.length

/-- `sm_hex_decode` is exact on a string of digits, and on one with a conversion, not
behind the NUL, that finds no number. -/
theorem smHexDecode_exact_iff {s : Str} (hs : (0 : UInt8) ∉ s) (beyond : Str) (len : ℕ) :
    DecodesExactly s beyond len ↔ (s.length = 2 * len ∧ IsHex s) ∨
      ∃ i < len, 2 * i ≤ s.length ∧ noHexPair (s.drop (2 * i)) = true := by
  have hscan : ∀ i, 2 * i ≤ s.length → ((scanHex 2 (cString ((s ++ 0 :: beyond).drop
      (2 * i)))).isSome ↔ ¬ noHexPair (s.drop (2 * i)) = true) := by
    intro i hi
    rw [cString_drop hs beyond hi, ← scanHex_eq_none_iff, Option.isSome_iff_ne_none]
  constructor
  · intro h
    by_contra hcon
    simp only [not_or, not_exists, not_and] at hcon
    obtain ⟨hstrict, hnum⟩ := hcon
    have hall : (smHexDecode (s ++ 0 :: beyond) len).isSome := by
      rw [smHexDecode_isSome_iff]
      intro i
      induction i using Nat.strongRecOn with
      | _ i ih =>
        intro hi
        have hreached : (smHexDecode (s ++ 0 :: beyond) i).isSome :=
          (smHexDecode_isSome_iff _ i).mpr fun j hj => ih j hj (by omega)
        have hin := h.inside i hi hreached
        exact (hscan i hin).mpr (hnum i hi hin)
    exact hstrict (h.accepts.mp hall).1 (h.accepts.mp hall).2
  · intro h
    cases h with
    | inl h =>
      obtain ⟨hlen, hhex⟩ := h
      obtain ⟨v, hv, hbytes⟩ := smHexDecode_digits hhex beyond (le_of_eq hlen.symm)
      rw [← hlen, List.take_length] at hbytes
      refine ⟨?_, ?_, fun i hi _ => by omega⟩
      · rw [hv]
        exact iff_of_true rfl ⟨hlen, hhex⟩
      · intro w hw
        rw [hv, Option.some.injEq] at hw
        rw [← hw, hbytes]
    | inr h =>
      obtain ⟨i, hi, hin, hnone⟩ := h
      have hstop : ∀ k, i < k → ¬ (smHexDecode (s ++ 0 :: beyond) k).isSome := by
        intro k hk hsome
        exact (hscan i hin).mp ((smHexDecode_isSome_iff _ k).mp hsome i hk) hnone
      refine ⟨iff_of_false (hstop len hi) ?_, ?_, ?_⟩
      · intro hstrict
        obtain ⟨v, hv, -⟩ := smHexDecode_digits hstrict.2 beyond (le_of_eq hstrict.1.symm)
        exact hstop len hi (by rw [hv]; rfl)
      · intro v hv
        exact absurd (by rw [hv]; rfl) (hstop len hi)
      · intro k hk hreached
        by_contra hout
        exact hstop k (by omega) hreached

theorem smHexDecode_exact_digits : DecodesExactly (lit "0aFf") [] 2 := by
  exact (smHexDecode_exact_iff (by decide) [] 2).mpr (Or.inl ⟨rfl, by decide +kernel⟩)

/-- A sign and a digit are taken for a byte, and so is the end of a string of odd
length, after which the conversions go on behind the NUL. -/
theorem smHexDecode_inexact : ¬ DecodesExactly (lit "-1") [] 1 ∧ ¬ DecodesExactly (lit "7") [] 2 := by
  constructor
  · intro h
    have haccepts := h.accepts.mp (by decide)
    exact absurd haccepts.2 (by decide)
  · intro h
    have hinside := h.inside 1 (by decide) (by decide)
    exact absurd hinside (by decide)

end SubscriberMgmt
