import SubscriberMgmt.Common
import SubscriberMgmt.Lib.Machine
import SubscriberMgmt.Lib.XorShift

/-!
# Salts and session tokens (`auth.c:88-148`)

Each thread draws from a xorshift64* generator of its own, which its first call
seeds. `g_rng_seed_counter` is shared; the callers hold `g_auth_lock`, so calls of
different threads come one after the other.
-/

namespace SubscriberMgmt

/-! ### The generator -/

/-- `xorshift64star`: the next state and the number drawn. -/
def xorshift64star (state : UInt64) : UInt64 × UInt64 :=
  let x := state
  let x := x ^^^ (x >>> 12)
  let x := x ^^^ (x <<< 25)
  let x := x ^^^ (x >>> 27)
  (x, x * 0x2545F4914F6CDD1D)

structure ThreadRng where
  tRngState : UInt64
  tRngSeeded : Bool
  deriving DecidableEq

/-- What a seed is made from: `time(NULL)`, `clock()` and the address of `t_rng_state`. -/
structure SeedSources where
  time : UInt64
  clock : UInt64
  address : UInt64

/-- `ensure_thread_rng_seeded`; the first component is `g_rng_seed_counter`. -/
def ensureThreadRngSeeded (src : SeedSources) (counter : UInt64) (rng : ThreadRng) :
    UInt64 × ThreadRng :=
  if rng.tRngSeeded then (counter, rng)
  else
    let seed := src.time
    let seed := seed ^^^ (src.clock <<< 16)
    let seed := seed ^^^ src.address
    let counter := counter + 1
    let seed := seed ^^^ (counter * 0x9E3779B97F4A7C15)
    let seed := if seed = 0 then 0x9E3779B97F4A7C15 else seed
    (counter, ⟨seed, true⟩)

/-- The inner loop of `fill_random`: up to `left` of the bytes of `r`, lowest first. -/
def splitBytes (r : UInt64) (left : ℕ) : List UInt8 :=
  (List.range (min 8 left)).map fun b => (r >>> UInt64.ofNat (8 * b)).toUInt8

/-- The outer loop of `fill_random`, with `left = len - i`. -/
def fillLoop (state : UInt64) (left : ℕ) : UInt64 × List UInt8 :=
  if left = 0 then (state, [])
  else
    let draw := xorshift64star state
    let rest := fillLoop draw.1 (left - 8)
    (rest.1, splitBytes draw.2 left ++ rest.2)
termination_by left
decreasing_by omega

/-- `fill_random`: the bytes written, or nothing for the result `-1`. -/
def fillRandom (src : SeedSources) (counter : UInt64) (rng : ThreadRng) (bufOk : Bool) (len : ℕ) :
    Option (List UInt8) × UInt64 × ThreadRng :=
  if !bufOk then (none, counter, rng)
  else
    let seeded := ensureThreadRngSeeded src counter rng
    let filled := fillLoop seeded.2.tRngState len
    (some filled.2, seeded.1, { seeded.2 with tRngState := filled.1 })

/-! ### Calls of several threads -/

structure Rngs (T : Type*) where
  gRngSeedCounter : UInt64
  thread : T → ThreadRng

structure FillCall (T : Type*) where
  caller : T
  src : SeedSources
  bufOk : Bool
  len : ℕ

def rngStep {T : Type*} [DecidableEq T] (s : Rngs T) (call : FillCall T) :
    Rngs T × Option (List UInt8) :=
  let r := fillRandom call.src s.gRngSeedCounter (s.thread call.caller) call.bufOk call.len
  (⟨r.2.1, Function.update s.thread call.caller r.2.2⟩, r.1)

/-- The state that the first draw of a call starts from. -/
def startState (src : SeedSources) (counter : UInt64) (rng : ThreadRng) : UInt64 :=
  (ensureThreadRngSeeded src counter rng).2.tRngState

theorem startState_seeded (src : SeedSources) (counter : UInt64) {rng : ThreadRng}
    (h : rng.tRngSeeded = true) : startState src counter rng = rng.tRngState := by
  rw [startState, ensureThreadRngSeeded, if_pos h]

/-! ### One draw -/

def mix : BitVec 64 → BitVec 64 := XorShift.right 27 ∘ XorShift.left 25 ∘ XorShift.right 12

theorem xorshift64star_state (s : UInt64) : (xorshift64star s).1.toBitVec = mix s.toBitVec := by
  simp [xorshift64star, mix, XorShift.right, XorShift.left]

theorem mix_linear : XorShift.Linear mix :=
  (XorShift.right_linear 27).comp ((XorShift.left_linear 25).comp (XorShift.right_linear 12))

theorem mix_injective : Function.Injective mix :=
  (XorShift.right_injective (by decide)).comp
    ((XorShift.left_injective (by decide)).comp (XorShift.right_injective (by decide)))

theorem xorshift64star_state_injective : Function.Injective fun s => (xorshift64star s).1 := by
  intro s s' h
  have hmix : mix s.toBitVec = mix s'.toBitVec := by
    rw [← xorshift64star_state, ← xorshift64star_state]
    exact congrArg UInt64.toBitVec h
  exact UInt64.toBitVec_inj.mp (mix_injective hmix)

theorem xorshift64star_draw_injective : Function.Injective fun s => (xorshift64star s).2 := by
  intro s s' h
  have hmul : (xorshift64star s).1.toBitVec * 0x2545F4914F6CDD1D =
      (xorshift64star s').1.toBitVec * 0x2545F4914F6CDD1D := congrArg UInt64.toBitVec h
  have hstate := XorShift.mul_injective (by decide) hmul
  exact xorshift64star_state_injective (UInt64.toBitVec_inj.mp hstate)

theorem xorshift64star_ne_zero {s : UInt64} (h : s ≠ 0) : (xorshift64star s).1 ≠ 0 := by
  intro hzero
  have hs : s.toBitVec ≠ 0 := fun hs => h (UInt64.toBitVec_inj.mp hs)
  refine mix_linear.ne_zero mix_injective hs ?_
  rw [← xorshift64star_state, hzero]
  rfl

/-! ### The loop -/

theorem fillLoop_ne_zero {state : UInt64} (h : state ≠ 0) (left : ℕ) :
    (fillLoop state left).1 ≠ 0 := by
  fun_induction fillLoop state left with
  | case1 state => exact h
  | case2 state left hleft draw rest ih => exact ih (xorshift64star_ne_zero h)

theorem splitBytes_injective {left : ℕ} (hleft : 8 ≤ left) {r r' : UInt64}
    (h : splitBytes r left = splitBytes r' left) : r = r' := by
  rw [splitBytes, splitBytes, Nat.min_eq_left hleft] at h
  have hbyte : ∀ b < 8, (r >>> UInt64.ofNat (8 * b)).toUInt8 =
      (r' >>> UInt64.ofNat (8 * b)).toUInt8 := fun b hb =>
    List.map_inj_left.mp h b (List.mem_range.mpr hb)
  refine UInt64.toBitVec_inj.mp (XorShift.eq_of_bytes (n := 8) (Nat.le_refl _) fun b hb => ?_)
  have hword := congrArg UInt8.toBitVec (hbyte b hb)
  have hshift : 8 * b % 64 = 8 * b := Nat.mod_eq_of_lt (by omega)
  simpa [hshift] using hword

theorem length_splitBytes (r : UInt64) (left : ℕ) : (splitBytes r left).length = min 8 left := by
  rw [splitBytes, List.length_map, List.length_range]

theorem fillLoop_injective {left : ℕ} (hleft : 8 ≤ left) {state state' : UInt64}
    (h : (fillLoop state left).2 = (fillLoop state' left).2) : state = state' := by
  rw [fillLoop, fillLoop, if_neg (by omega), if_neg (by omega)] at h
  have hlen : (splitBytes (xorshift64star state).2 left).length =
      (splitBytes (xorshift64star state').2 left).length := by
    rw [length_splitBytes, length_splitBytes]
  have hfirst := (List.append_inj h hlen).1
  exact xorshift64star_draw_injective (splitBytes_injective hleft hfirst)

/-! ### Calls -/

theorem startState_ne_zero (src : SeedSources) (counter : UInt64) {rng : ThreadRng}
    (h : rng.tRngSeeded = true → rng.tRngState ≠ 0) : startState src counter rng ≠ 0 := by
  unfold startState ensureThreadRngSeeded
  cases hs : rng.tRngSeeded with
  | true => exact h hs
  | false =>
    simp only [Bool.false_eq_true, if_false]
    split
    case isTrue => decide
    case isFalse hseed => exact hseed

theorem fillRandom_ne_zero (src : SeedSources) (counter : UInt64) {rng : ThreadRng}
    (h : rng.tRngState ≠ 0) (bufOk : Bool) (len : ℕ) :
    (fillRandom src counter rng bufOk len).2.2.tRngState ≠ 0 := by
  unfold fillRandom
  cases bufOk with
  | false => exact h
  | true => exact fillLoop_ne_zero (startState_ne_zero src counter fun _ => h) len

theorem fillRandom_seeded (src : SeedSources) (counter : UInt64) {rng : ThreadRng}
    (h : rng.tRngSeeded = true → rng.tRngState ≠ 0) (bufOk : Bool) (len : ℕ)
    (hseeded : (fillRandom src counter rng bufOk len).2.2.tRngSeeded = true) :
    (fillRandom src counter rng bufOk len).2.2.tRngState ≠ 0 := by
  unfold fillRandom at hseeded ⊢
  cases bufOk with
  | false => exact h hseeded
  | true => exact fillLoop_ne_zero (startState_ne_zero src counter h) len

section Threads

variable {T : Type*} [DecidableEq T]

theorem rngStep_keeps {P : ThreadRng → Prop}
    (hfill : ∀ src counter rng bufOk len, P rng → P (fillRandom src counter rng bufOk len).2.2)
    {s : Rngs T} {i : T} (h : P (s.thread i)) (call : FillCall T) :
    P ((rngStep s call).1.thread i) := by
  show P (Function.update s.thread call.caller _ i)
  by_cases hi : i = call.caller
  · subst hi
    rw [Function.update_self]
    exact hfill _ _ _ _ _ h
  · rwa [Function.update_of_ne hi]

theorem rngRun_keeps {P : ThreadRng → Prop}
    (hfill : ∀ src counter rng bufOk len, P rng → P (fillRandom src counter rng bufOk len).2.2)
    {s : Rngs T} {i : T} (h : P (s.thread i)) (calls : List (FillCall T)) :
    P ((Machine.final rngStep s calls).thread i) :=
  Machine.final_invariant (P := fun s : Rngs T => P (s.thread i))
    (fun _ call hs => rngStep_keeps hfill hs call) h calls

/-- From the start of the process on, no seeded generator is in state zero. -/
theorem seeded_never_zero (counter : UInt64) (calls : List (FillCall T)) (i : T)
    (hseeded : ((Machine.final rngStep (⟨counter, fun _ => ⟨0, false⟩⟩ : Rngs T) calls).thread
      i).tRngSeeded = true) :
    ((Machine.final rngStep (⟨counter, fun _ => ⟨0, false⟩⟩ : Rngs T) calls).thread
      i).tRngState ≠ 0 :=
  rngRun_keeps (P := fun rng => rng.tRngSeeded = true → rng.tRngState ≠ 0)
    (fun src counter _ bufOk len h => fillRandom_seeded src counter h bufOk len)
    (fun h => by cases h) calls hseeded

/-- The next state and the draw determine the state, zero comes only from zero, also over
the calls of many threads, and eight equal bytes come from equal states. -/
theorem token_generator :
    (∀ s : UInt64, s ≠ 0 → (xorshift64star s).1 ≠ 0) ∧
      (Function.Injective fun s => (xorshift64star s).1) ∧
      (Function.Injective fun s => (xorshift64star s).2) ∧
      (∀ (s : Rngs T) (calls : List (FillCall T)) (i : T), (s.thread i).tRngState ≠ 0 →
        ((Machine.final rngStep s calls).thread i).tRngState ≠ 0) ∧
      ∀ src counter rng src' counter' rng' len, 8 ≤ len →
        (fillRandom src counter rng true len).1 = (fillRandom src' counter' rng' true len).1 →
        startState src counter rng = startState src' counter' rng' := by
  refine ⟨fun s => xorshift64star_ne_zero, xorshift64star_state_injective,
    xorshift64star_draw_injective, fun s calls i h => ?_, ?_⟩
  · exact rngRun_keeps (P := fun rng => rng.tRngState ≠ 0)
      (fun src counter _ bufOk len h => fillRandom_ne_zero src counter h bufOk len) h calls
  · intro src counter rng src' counter' rng' len hlen h
    have hbytes : (fillLoop (startState src counter rng) len).2 =
        (fillLoop (startState src' counter' rng') len).2 := Option.some.inj h
    exact fillLoop_injective hlen hbytes

end Threads

/-- Tokens drawn from the states 1 and 2 differ, and the second draw is not from state zero. -/
theorem token_generator_tokens :
    let src : SeedSources := ⟨1700000000, 5000, 0x7f00deadbe00⟩
    let token (state : UInt64) := (fillRandom src 0 ⟨state, true⟩ true 16).1
    let s : Rngs (Fin 2) := ⟨0, fun i => ⟨if i = 0 then 1 else 2, true⟩⟩
    token 1 ≠ token 2 ∧
      ((Machine.final rngStep s [⟨0, src, true, 16⟩, ⟨1, src, true, 16⟩]).thread 0).tRngState ≠
        0 := by
  intro src token s
  have hspec := token_generator (T := Fin 2)
  refine ⟨fun h => ?_, hspec.2.2.2.1 s _ 0 (by decide)⟩
  have hsame := hspec.2.2.2.2 src 0 ⟨1, true⟩ src 0 ⟨2, true⟩ 16 (by decide) h
  rw [startState_seeded _ _ rfl, startState_seeded _ _ rfl] at hsame
  exact absurd hsame (by decide)

end SubscriberMgmt
