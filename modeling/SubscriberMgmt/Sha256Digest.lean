import SubscriberMgmt.AuthStore
import SubscriberMgmt.Lib.Sha2
import SubscriberMgmt.Lib.ByteMemory

/-!
# The digests are those of the standard (`sha256.c:28-115`)

A context that has absorbed some bytes holds the hash value of their whole
blocks and the rest in its buffer.
-/

namespace SubscriberMgmt
open Sha2 ByteMemory

/-! ### The 64 rounds -/

def ShaWords.toState (s : ShaWords) : State :=
  ⟨s.a.toBitVec, s.b.toBitVec, s.c.toBitVec, s.d.toBitVec, s.e.toBitVec, s.f.toBitVec,
    s.g.toBitVec, s.h.toBitVec⟩

theorem shaK_eq {t : ℕ} {x : UInt32} (hx : shaK[t]? = some x) : x.toBitVec = k t := by
  have htable : (List.range 64).map k = shaK.map UInt32.toBitVec := by decide +kernel
  have hlt : t < 64 := (List.getElem?_eq_some_iff.mp hx).1
  have hget := congrArg (fun l => l[t]?) htable
  simp only [List.getElem?_map, List.getElem?_range hlt, hx, Option.map_some] at hget
  exact (Option.some.inj hget).symm

theorem initial_eq : smSha256Init.state.toState = initial := by decide +kernel

theorem shaRound_toState (s : ShaWords) {kw : UInt32 × UInt32} {w : ℕ → Word} {t : ℕ}
    (hk : kw.1.toBitVec = k t) (hw : kw.2.toBitVec = w t) :
    (shaRound s kw).toState = Sha2.round w s.toState t := by
  have hT1 : (s.h + bsig1 s.e + shaCh s.e s.f s.g + kw.1 + kw.2).toBitVec =
      s.h.toBitVec + bigSigma1 s.e.toBitVec + ch s.e.toBitVec s.f.toBitVec s.g.toBitVec + k t +
        w t := by
    rw [← hk, ← hw]
    rfl
  simp only [shaRound, Sha2.round, ShaWords.toState, UInt32.toBitVec_add] at hT1 ⊢
  rw [hT1]
  rfl

theorem rounds_toState (s : ShaWords) (w : ℕ → Word) (l : List (UInt32 × UInt32))
    (hl : ∀ t kw, l[t]? = some kw → kw.1.toBitVec = k t ∧ kw.2.toBitVec = w t) :
    (l.foldl shaRound s).toState = (List.range l.length).foldl (Sha2.round w) s.toState := by
  induction l using List.reverseRecOn with
  | nil => rfl
  | append_singleton l kw ih =>
    have hlast := hl l.length kw (by simp)
    have hinit : ∀ t kw', l[t]? = some kw' → kw'.1.toBitVec = k t ∧ kw'.2.toBitVec = w t := by
      intro t kw' ht
      have hlt := (List.getElem?_eq_some_iff.mp ht).1
      exact hl t kw' (by rw [List.getElem?_append_left hlt, ht])
    rw [List.foldl_append, List.length_append, List.length_singleton, List.range_succ,
      List.foldl_append, ← ih hinit]
    exact shaRound_toState _ hlast.1 hlast.2

/-! ### The message words -/

theorem shiftLeft_byte (b : UInt8) {n : UInt32} (hn : n.toNat ≤ 24) :
    (b.toUInt32 <<< n).toNat = 2 ^ n.toNat * b.toNat := by
  have hb := b.toNat_lt
  have hpow : 2 ^ n.toNat ≤ 2 ^ 24 := Nat.pow_le_pow_right (by decide) hn
  have hmul : b.toNat * 2 ^ n.toNat ≤ 255 * 2 ^ 24 := Nat.mul_le_mul (by omega) hpow
  have hmod : n.toNat % 32 = n.toNat := by omega
  rw [UInt32.toNat_shiftLeft, UInt8.toNat_toUInt32, Nat.shiftLeft_eq, hmod,
    Nat.mod_eq_of_lt (by omega), Nat.mul_comm]

/-- Four bytes, most significant first. -/
theorem bytesWord (b0 b1 b2 b3 : UInt8) :
    ((b0.toUInt32 <<< 24) ||| (b1.toUInt32 <<< 16) ||| (b2.toUInt32 <<< 8) |||
      b3.toUInt32).toBitVec = BitVec.ofNat 32 (ofBits (bytesBits [b0, b1, b2, b3])) := by
  have h0 := b0.toNat_lt
  have h1 := b1.toNat_lt
  have h2 := b2.toNat_lt
  have h3 := b3.toNat_lt
  have hbits : ofBits (bytesBits [b0, b1, b2, b3]) =
      2 ^ 8 * (2 ^ 16 * b0.toNat + 2 ^ 8 * b1.toNat + b2.toNat) + b3.toNat := by
    simp only [bytesBits, List.flatMap_cons, List.flatMap_nil, List.append_nil, ofBits_append,
      ofBits_natBits, List.length_append, natBits_length]
    omega
  have e0 : (b0.toUInt32 <<< 24).toNat = 2 ^ 24 * b0.toNat := shiftLeft_byte b0 (by decide)
  have e1 : (b1.toUInt32 <<< 16).toNat = 2 ^ 16 * b1.toNat := shiftLeft_byte b1 (by decide)
  have e2 : (b2.toUInt32 <<< 8).toNat = 2 ^ 8 * b2.toNat := shiftLeft_byte b2 (by decide)
  have s1 : 2 ^ 24 * b0.toNat ||| 2 ^ 16 * b1.toNat = 2 ^ 16 * (2 ^ 8 * b0.toNat + b1.toNat) := by
    rw [← Nat.two_pow_add_eq_or_of_lt (by omega)]
    omega
  have s2 : 2 ^ 16 * (2 ^ 8 * b0.toNat + b1.toNat) ||| 2 ^ 8 * b2.toNat =
      2 ^ 8 * (2 ^ 16 * b0.toNat + 2 ^ 8 * b1.toNat + b2.toNat) := by
    rw [← Nat.two_pow_add_eq_or_of_lt (by omega)]
    omega
  apply BitVec.eq_of_toNat_eq
  rw [hbits, BitVec.toNat_ofNat, UInt32.toNat_toBitVec, UInt32.toNat_or, UInt32.toNat_or,
    UInt32.toNat_or, e0, e1, e2, UInt8.toNat_toUInt32, s1, s2,
    ← Nat.two_pow_add_eq_or_of_lt (by omega)]
  omega

theorem blockWords_length (bs : List UInt8) : (blockWords bs).length = bs.length / 4 := by
  induction bs using blockWords.induct with
  | case1 b0 b1 b2 b3 bs ih =>
    simp only [blockWords, List.length_cons, ih]
    omega
  | case2 bs hshort =>
    have hfew : bs.length < 4 := by
      match bs, hshort with
      | [], _ | [_], _ | [_, _], _ | [_, _, _], _ => simp
      | b0 :: b1 :: b2 :: b3 :: bs, hshort => exact absurd rfl (hshort b0 b1 b2 b3 bs)
    rw [blockWords, List.length_nil]
    · omega
    · exact hshort

theorem blockWords_eq (bs : List UInt8) {t : ℕ} {x : UInt32} (hx : (blockWords bs)[t]? = some x) :
    x.toBitVec = messageWord (bytesBits bs) t := by
  induction bs using blockWords.induct generalizing t with
  | case1 b0 b1 b2 b3 bs ih =>
    have hsplit : bytesBits (b0 :: b1 :: b2 :: b3 :: bs) =
        bytesBits [b0, b1, b2, b3] ++ bytesBits bs := bytesBits_append [b0, b1, b2, b3] bs
    have hfour : (bytesBits [b0, b1, b2, b3]).length = 32 := bytesBits_length _
    cases t with
    | zero =>
      simp only [blockWords, List.getElem?_cons_zero, Option.some.injEq] at hx
      rw [← hx, bytesWord, messageWord, hsplit, Nat.mul_zero, List.drop_zero, ← hfour,
        List.take_left]
    | succ t =>
      have hdrop : (bytesBits [b0, b1, b2, b3] ++ bytesBits bs).drop (32 * (t + 1)) =
          (bytesBits bs).drop (32 * t) := by
        rw [List.drop_append, List.drop_eq_nil_of_le (by omega), hfour, List.nil_append]
        congr 1
      simp only [blockWords, List.getElem?_cons_succ] at hx
      rw [ih hx, messageWord, messageWord, hsplit, hdrop]
  | case2 bs hshort =>
    rw [blockWords] at hx
    · cases hx
    · exact hshort

theorem extendWords_length (n : ℕ) (w : List UInt32) :
    (extendWords n w).length = w.length + n := by
  induction n generalizing w with
  | zero => rfl
  | succ n ih =>
    rw [extendWords, ih, List.length_append, List.length_singleton]
    omega

theorem extendWords_eq (m : ℕ → Word) (n : ℕ) (w : List UInt32) (hlen : 16 ≤ w.length)
    (hw : ∀ t x, w[t]? = some x → x.toBitVec = schedule m t) :
    ∀ t x, (extendWords n w)[t]? = some x → x.toBitVec = schedule m t := by
  induction n generalizing w with
  | zero => exact hw
  | succ n ih =>
    have hget : ∀ j, 1 ≤ j → j ≤ 16 →
        (w.getD (w.length - j) 0).toBitVec = schedule m (w.length - j) := by
      intro j h1 h16
      have hlt : w.length - j < w.length := by omega
      have hsome := List.getElem?_eq_getElem hlt
      rw [List.getD_eq_getElem?_getD, hsome]
      exact hw _ _ hsome
    rw [extendWords]
    apply ih _ (by rw [List.length_append]; omega)
    intro t x hx
    by_cases ht : t < w.length
    · rw [List.getElem?_append_left ht] at hx
      exact hw t x hx
    · have hlt := (List.getElem?_eq_some_iff.mp hx).1
      rw [List.length_append, List.length_singleton] at hlt
      have heq : t = w.length := by omega
      subst heq
      rw [List.getElem?_append_right le_rfl, Nat.sub_self, List.getElem?_cons_zero] at hx
      rw [← Option.some.inj hx, schedule_next m hlen, ← hget 2 (by omega) (by omega),
        ← hget 7 (by omega) (by omega), ← hget 15 (by omega) (by omega),
        ← hget 16 (by omega) (by omega)]
      rfl

theorem add_toState (s t : ShaWords) : (s.add t).toState = t.toState.add s.toState := by
  simp only [ShaWords.add, State.add, ShaWords.toState, UInt32.toBitVec_add, State.mk.injEq]
  refine ⟨?_, ?_, ?_, ?_, ?_, ?_, ?_, ?_⟩ <;> exact BitVec.add_comm _ _

theorem sha256Transform_toState (s : ShaWords) {block : List UInt8} (hlen : block.length = 64) :
    (sha256Transform s block).toState = compress s.toState (bytesBits block) := by
  have hinput : (blockWords block).length = 16 := by rw [blockWords_length, hlen]
  have hwords := extendWords_length 48 (blockWords block)
  rw [hinput] at hwords
  have hsched := extendWords_eq (messageWord (bytesBits block)) 48 (blockWords block)
    hinput.ge fun t x hx => by
      have hlt := (List.getElem?_eq_some_iff.mp hx).1
      rw [schedule_input _ (by omega)]
      exact blockWords_eq block hx
  have hrounds := rounds_toState s (schedule (messageWord (bytesBits block)))
    (shaK.zip (extendWords 48 (blockWords block))) fun t kw hkw => by
      obtain ⟨hk, hw⟩ := List.getElem?_zip_eq_some.mp hkw
      exact ⟨shaK_eq hk, hsched t _ hw⟩
  have hzip : (shaK.zip (extendWords 48 (blockWords block))).length = 64 := by
    rw [List.length_zip, hwords]
    rfl
  rw [hzip] at hrounds
  rw [sha256Transform, add_toState, hrounds, compress]

/-! ### Contexts -/

/-- What a context holds after the bytes of `m`. -/
def Absorbed (m : List UInt8) (ctx : ShaCtx) : Prop :=
  ctx.bitlen = UInt64.ofNat (8 * m.length) ∧
    ∃ full, m = full ++ ctx.buffer ∧ 64 ∣ full.length ∧
      ctx.state.toState = hashBlocks initial (bytesBits full)

theorem absorbed_init : Absorbed [] smSha256Init := by
  refine ⟨rfl, [], rfl, Nat.dvd_zero _, ?_⟩
  rw [initial_eq]
  rfl

theorem Absorbed.buffer_length {m : List UInt8} {ctx : ShaCtx} (h : Absorbed m ctx) :
    ctx.buffer.length = m.length % 64 := by
  obtain ⟨-, full, hm, hfull, -⟩ := h
  have hfits := ctx.fits
  have hlen := congrArg List.length hm
  rw [List.length_append] at hlen
  omega

/-- Hashing one more block of whole bytes. -/
theorem hashBlocks_bytes {full block : List UInt8} (hfull : 64 ∣ full.length)
    (hblock : block.length = 64) :
    hashBlocks initial (bytesBits (full ++ block)) =
      compress (hashBlocks initial (bytesBits full)) (bytesBits block) := by
  have hp : 512 ∣ (bytesBits full).length := by
    rw [bytesBits_length]
    omega
  have hq : (bytesBits block).length = 512 := by rw [bytesBits_length, hblock]
  rw [bytesBits_append, hashBlocks_append initial hp hq]

theorem Absorbed.absorb {m : List UInt8} {ctx : ShaCtx} (h : Absorbed m ctx) {chunk : List UInt8}
    (hroom : ctx.buffer.length + chunk.length ≤ 64) : Absorbed (m ++ chunk) (ctx.absorb chunk) := by
  obtain ⟨hbits, full, hm, hfull, hstate⟩ := h
  have hcount : ctx.bitlen + UInt64.ofNat chunk.length * 8 =
      UInt64.ofNat (8 * (m ++ chunk).length) := by
    have h8 : (8 : UInt64) = UInt64.ofNat 8 := rfl
    rw [hbits, List.length_append, h8, ← UInt64.ofNat_mul, ← UInt64.ofNat_add]
    congr 1
    omega
  have hmsg : m ++ chunk = full ++ (ctx.buffer ++ chunk) := by rw [hm, List.append_assoc]
  by_cases hlt : (ctx.buffer ++ chunk).length < 64
  · rw [ShaCtx.absorb, dif_pos hlt]
    exact ⟨hcount, full, hmsg, hfull, hstate⟩
  · have hblock : (ctx.buffer ++ chunk).length = 64 := by
      rw [List.length_append] at hlt ⊢
      omega
    rw [ShaCtx.absorb, dif_neg hlt]
    refine ⟨hcount, full ++ (ctx.buffer ++ chunk), by rw [List.append_nil, hmsg], ?_, ?_⟩
    · rw [List.length_append, hblock]
      exact Nat.dvd_add hfull ⟨1, rfl⟩
    · rw [sha256Transform_toState _ hblock, hashBlocks_bytes hfull hblock, hstate]

theorem update_absorbed (ctx : ShaCtx) (data : List UInt8) :
    ∀ m, Absorbed m ctx → Absorbed (m ++ data) (smSha256Update ctx data) := by
  fun_induction smSha256Update ctx data with
  | case1 ctx =>
    intro m h
    rwa [List.append_nil]
  | case2 ctx b bs take ih =>
    intro m h
    have hfits := ctx.fits
    have hle := List.length_take_le take (b :: bs)
    have hroom : ctx.buffer.length + ((b :: bs).take take).length ≤ 64 := by omega
    have hnext := ih _ (h.absorb hroom)
    rw [List.append_assoc, List.take_append_drop] at hnext
    exact hnext

theorem Absorbed.update {m : List UInt8} {ctx : ShaCtx} (h : Absorbed m ctx) (data : List UInt8) :
    Absorbed (m ++ data) (smSha256Update ctx data) := update_absorbed ctx data m h

theorem Absorbed.updates (chunks : List (List UInt8)) {m : List UInt8} {ctx : ShaCtx}
    (h : Absorbed m ctx) :
    Absorbed (m ++ chunks.flatten) (chunks.foldl smSha256Update ctx) := by
  induction chunks generalizing m ctx with
  | nil => simpa using h
  | cons data chunks ih =>
    rw [List.flatten_cons, ← List.append_assoc]
    exact ih (h.update data)

/-- The loop of `sm_sha256_final` stops within its fuel, at 56 buffered bytes. -/
theorem Absorbed.zeros (n : ℕ) {m : List UInt8} {ctx : ShaCtx} (h : Absorbed m ctx)
    (hfuel : (120 - m.length % 64) % 64 ≤ n) :
    Absorbed (m ++ List.replicate ((120 - m.length % 64) % 64) 0) (padZeros n ctx) := by
  have hlen := h.buffer_length
  induction n generalizing m ctx with
  | zero =>
    have hzero : (120 - m.length % 64) % 64 = 0 := by omega
    rw [hzero, List.replicate_zero, List.append_nil]
    exact h
  | succ n ih =>
    rw [padZeros]
    by_cases hfull : ctx.buffer.length = 56
    · have hzero : (120 - m.length % 64) % 64 = 0 := by omega
      rw [if_pos hfull, hzero, List.replicate_zero, List.append_nil]
      exact h
    · have hnext := h.update [0]
      have hmod : (m ++ [(0 : UInt8)]).length = m.length + 1 := by simp
      have hone : (120 - m.length % 64) % 64 =
          (120 - (m ++ [(0 : UInt8)]).length % 64) % 64 + 1 := by
        omega
      have hrest := ih hnext (by omega) hnext.buffer_length
      rw [List.append_assoc, List.singleton_append, ← List.replicate_succ, ← hone] at hrest
      rw [if_neg hfull]
      exact hrest

/-! ### Padding and digest -/

theorem lengthBytes_bits (x : UInt64) : bytesBits (lengthBytes x) = natBits 64 x.toNat := by
  have hbyte : ∀ n : UInt64, n.toNat < 64 →
      natBits 8 (x >>> n).toUInt8.toNat = natBits 8 (x.toNat >>> n.toNat) := by
    intro n hn
    rw [UInt64.toNat_toUInt8, natBits_mod, UInt64.toNat_shiftRight, Nat.mod_eq_of_lt hn]
  have hlow : natBits 8 x.toUInt8.toNat = natBits 8 x.toNat := by
    rw [UInt64.toNat_toUInt8, natBits_mod]
  simp only [lengthBytes, bytesBits, List.flatMap_cons, List.flatMap_nil, List.append_nil, hlow]
  rw [hbyte 56 (by decide), hbyte 48 (by decide), hbyte 40 (by decide), hbyte 32 (by decide),
    hbyte 24 (by decide), hbyte 16 (by decide), hbyte 8 (by decide)]
  rw [natBits_append 8 56, natBits_append 8 48, natBits_append 8 40, natBits_append 8 32,
    natBits_append 8 24, natBits_append 8 16, natBits_append 8 8]
  rfl

theorem wordBytes_bits (x : UInt32) : bytesBits (wordBytes x) = natBits 32 x.toNat := by
  have hbyte : ∀ n : UInt32, n.toNat < 32 →
      natBits 8 (x >>> n).toUInt8.toNat = natBits 8 (x.toNat >>> n.toNat) := by
    intro n hn
    rw [UInt32.toNat_toUInt8, natBits_mod, UInt32.toNat_shiftRight, Nat.mod_eq_of_lt hn]
  have hlow : natBits 8 x.toUInt8.toNat = natBits 8 x.toNat := by
    rw [UInt32.toNat_toUInt8, natBits_mod]
  simp only [wordBytes, bytesBits, List.flatMap_cons, List.flatMap_nil, List.append_nil, hlow]
  rw [hbyte 24 (by decide), hbyte 16 (by decide), hbyte 8 (by decide)]
  rw [natBits_append 8 24, natBits_append 8 16, natBits_append 8 8]
  rfl

theorem digest_bits (s : ShaWords) : bytesBits s.digest.toList = s.toState.bits := by
  have hbytes : s.digest.toList = wordBytes s.a ++ wordBytes s.b ++ wordBytes s.c ++
      wordBytes s.d ++ wordBytes s.e ++ wordBytes s.f ++ wordBytes s.g ++ wordBytes s.h := rfl
  rw [hbytes]
  simp only [bytesBits_append, wordBytes_bits, List.append_assoc, State.bits, List.flatMap_cons,
    List.flatMap_nil, List.append_nil]
  rfl

/-- The bytes that `sm_sha256_final` appends are the padding of the standard. -/
theorem pad_bytesBits (m : List UInt8) :
    pad (bytesBits m) = bytesBits (m ++ [0x80] ++
      List.replicate ((120 - (m ++ [(0x80 : UInt8)]).length % 64) % 64) 0 ++
        lengthBytes (UInt64.ofNat (8 * m.length))) := by
  have hzeros : ∀ z, bytesBits (List.replicate z 0) = List.replicate (8 * z) false := by
    intro z
    induction z with
    | zero => rfl
    | succ z ih =>
      have hsum : 8 * (z + 1) = 8 + 8 * z := by omega
      rw [List.replicate_succ, hsum, List.replicate_add 8, ← ih]
      rfl
  have hmark : bytesBits [0x80] = true :: List.replicate 7 false := by decide
  have hlen : (m ++ [(0x80 : UInt8)]).length = m.length + 1 := by simp
  have hcount : zeroBits (8 * m.length) = 7 + 8 * ((120 - (m.length + 1) % 64) % 64) := by
    rw [zeroBits]
    omega
  rw [bytesBits_append, bytesBits_append, bytesBits_append, hzeros, hmark, lengthBytes_bits, hlen,
    pad, bytesBits_length, hcount, List.replicate_add, UInt64.toNat_ofNat', natBits_mod]
  simp only [List.append_assoc, List.cons_append]

theorem Absorbed.final {m : List UInt8} {ctx : ShaCtx} (h : Absorbed m ctx) :
    bytesBits (smSha256Final ctx).toList = sha256 (bytesBits m) := by
  have hpad := (h.update [0x80]).zeros 64 (by omega)
  have hbuffer := hpad.buffer_length
  obtain ⟨-, full, hmsg, hfull, hstate⟩ := hpad
  have hlength : (lengthBytes ctx.bitlen).length = 8 := rfl
  have hblock : ((padZeros 64 (smSha256Update ctx [0x80])).buffer ++
      lengthBytes ctx.bitlen).length = 64 := by
    rw [List.length_append, hbuffer, hlength, List.length_append, List.length_replicate]
    omega
  rw [smSha256Final, digest_bits, sha256Transform_toState _ hblock, hstate,
    ← hashBlocks_bytes hfull hblock, ← List.append_assoc, ← hmsg, sha256, pad_bytesBits, h.1]

/-! ### Memory -/

/-- The loop of `sm_sha256_update` on `len` bytes at `data`, from index `i` on. -/
def smSha256UpdateAt (mem : Memory) (ctx : ShaCtx) (data len i : ℕ) : ShaCtx :=
  if i < len then
    let take := min (64 - ctx.buffer.length) (len - i)
    smSha256UpdateAt mem (ctx.absorb (readBytes mem (data + i) take)) data len (i + take)
  else ctx
termination_by len - i
decreasing_by
  have := ctx.fits
  omega

/-- `sm_sha256`; the context is a local variable. -/
def smSha256At (mem : Memory) (data len out : ℕ) : Memory :=
  writeBytes mem out (smSha256Final (smSha256UpdateAt mem smSha256Init data len 0)).toList

/-- `hash_password`; `buf` is a local array, `out` is where the caller wants the digest. -/
def hashPasswordAt (mem : Memory) (buf out : ℕ) (salt : Salt) (password : Str) : Memory :=
  let capped := password.take 200
  let filled := writeBytes (writeBytes mem buf salt.toList) (buf + smAuthSaltBytes) capped
  (fun mem => smSha256At mem out 32 out)^[smAuthHashIterations - 1]
    (smSha256At filled buf (smAuthSaltBytes + capped.length) out)

/-- The loop takes the bytes in the order in which they lie in memory. -/
theorem smSha256UpdateAt_eq (mem : Memory) (ctx : ShaCtx) (data len i : ℕ) :
    smSha256UpdateAt mem ctx data len i =
      smSha256Update ctx (readBytes mem (data + i) (len - i)) := by
  fun_induction smSha256UpdateAt mem ctx data len i with
  | case1 ctx i hi take ih =>
    have hcons := List.cons_head_tail (l := readBytes mem (data + i) (len - i)) (by
      apply List.ne_nil_of_length_pos
      rw [readBytes_length]
      omega)
    have htail : len - (i + take) = len - i - (64 - ctx.buffer.length) := by omega
    rw [ih, ← hcons, smSha256Update, hcons, readBytes_take, readBytes_drop, Nat.add_assoc, htail]
  | case2 ctx i hi =>
    have hnone : len - i = 0 := by omega
    rw [hnone, readBytes, List.range_zero, List.map_nil, smSha256Update]

theorem smSha256At_digest (mem : Memory) (data len out : ℕ) :
    readBytes (smSha256At mem data len out) out 32 = (smSha256 (readBytes mem data len)).toList := by
  have hwritten := readBytes_writeBytes
    (smSha256Final (smSha256UpdateAt mem smSha256Init data len 0)).toList mem out
  rw [Vector.length_toList] at hwritten
  rw [smSha256At, hwritten, smSha256UpdateAt_eq, smSha256, Nat.add_zero, Nat.sub_zero]

theorem smSha256At_outside (mem : Memory) (data len : ℕ) {out a : ℕ} (ha : a < out ∨ out + 32 ≤ a) :
    smSha256At mem data len out a = mem a := by
  apply writeBytes_outside
  rw [Vector.length_toList]
  exact ha

/-- The iterations over `out` in place compute the password hash, wherever `out` lies. -/
theorem hashPasswordAt_digest (mem : Memory) (buf out : ℕ) (salt : Salt) (password : Str) :
    readBytes (hashPasswordAt mem buf out salt password) out 32 =
      (hashPassword salt password).toList := by
  have hloop : ∀ n (mem : Memory) (d : Digest), readBytes mem out 32 = d.toList →
      readBytes ((fun mem => smSha256At mem out 32 out)^[n] mem) out 32 =
        ((fun d : Digest => smSha256 d.toList)^[n] d).toList := by
    intro n
    induction n with
    | zero =>
      intro mem d hd
      exact hd
    | succ n ih =>
      intro mem d hd
      rw [Function.iterate_succ_apply, Function.iterate_succ_apply]
      apply ih
      rw [smSha256At_digest, hd]
  have hsalt := readBytes_writeBytes salt.toList mem buf
  rw [Vector.length_toList] at hsalt
  have hfilled : readBytes (writeBytes (writeBytes mem buf salt.toList) (buf + smAuthSaltBytes)
      (password.take 200)) buf (smAuthSaltBytes + (password.take 200).length) =
        salt.toList ++ password.take 200 := by
    rw [readBytes_add, readBytes_writeBytes]
    congr 1
    refine Eq.trans (Agree.readBytes ?_) hsalt
    intro a _ hlt
    exact writeBytes_outside _ _ (Or.inl hlt)
  have hfirst : readBytes (smSha256At (writeBytes (writeBytes mem buf salt.toList)
      (buf + smAuthSaltBytes) (password.take 200)) buf
        (smAuthSaltBytes + (password.take 200).length) out) out 32 =
          (smSha256 (salt.toList ++ password.take 200)).toList := by
    rw [smSha256At_digest, hfilled]
  unfold hashPassword hashPasswordAt
  exact hloop (smAuthHashIterations - 1) _ _ hfirst

/-- For every list of chunks and, in memory, also when `out` overlaps the input. -/
theorem smSha256_standard (chunks : List (List UInt8)) :
    bytesBits (smSha256Final (chunks.foldl smSha256Update smSha256Init)).toList =
        sha256 (bytesBits chunks.flatten) ∧
      ∀ (mem : Memory) (data len out : ℕ),
        bytesBits (readBytes (smSha256At mem data len out) out 32) =
            sha256 (bytesBits (readBytes mem data len)) ∧
          ∀ a, a < out ∨ out + 32 ≤ a → smSha256At mem data len out a = mem a := by
  constructor
  · exact (absorbed_init.updates chunks).final
  · intro mem data len out
    refine ⟨?_, fun a ha => smSha256At_outside mem data len ha⟩
    rw [smSha256At_digest, smSha256]
    exact (absorbed_init.update _).final

example : smHexEncode (smSha256 (lit "abc")).toList =
    lit "ba7816bf8f01cfea414140de5dae2223b00361a396177a9cb410ff61f20015ad" := by
  decide +kernel

end SubscriberMgmt
