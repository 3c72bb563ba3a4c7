import Mathlib.Tactic.NormNum.Prime
import SubscriberMgmt.AuthRandom
import SubscriberMgmt.Lib.LinearPeriod

/-!
# How long the random bytes of a thread differ (`auth.c:105-148`)

The three shifts of `xorshift64star` are a linear map of the states. Its states
other than zero form one cycle, so two calls of a thread write the same bytes
exactly when a multiple of `2 ^ 64 - 1` numbers were drawn between them.
-/

namespace SubscriberMgmt
open LinearPeriod

/-! ### The cycle of the states -/

/-- The characteristic polynomial of `mix`, less `x ^ 64`. -/
def mixPolynomial : BitVec 64 := 0x18B73AA7CC9B71

def statePeriod : ℕ := 2 ^ 64 - 1

/-- The primes of the period, each with an inverse of `x ^ (statePeriod / p) + 1`. -/
def periodPrimes : List (ℕ × BitVec 64) :=
  [(3, 0x60E71579575698B8), (5, 0x2DFD563D8DF4DACB), (17, 0xE1ABB9B6D5614B7),
    (257, 0x1934106F6E3C47A3), (641, 0x52D7E7E1FC2212EF), (65537, 0x6E23C80B59C2BAA2),
    (6700417, 0x77BD2FDF157C6FC9)]

theorem mix_reduces : Reduces mix mixPolynomial :=
  reduces_of_bits mix_linear (by decide +kernel)

theorem power_statePeriod :
    power mixPolynomial 64 statePeriod (mulX mixPolynomial 1) = 1 := by decide +kernel

theorem periodPrimes_invert :
    ∀ c ∈ periodPrimes, Inverts mixPolynomial (statePeriod / c.1) c.2 := by decide +kernel

theorem periodPrimes_prime : ∀ p ∈ periodPrimes.map Prod.fst, p.Prime := by
  simp only [periodPrimes, List.map_cons, List.map_nil, List.forall_mem_cons, List.not_mem_nil,
    false_imp_iff, implies_true]
  norm_num

theorem minimalPeriod_mix {x : BitVec 64} (hx : x ≠ 0) :
    Function.minimalPeriod mix x = statePeriod := by
  refine minimalPeriod_eq mix_linear mix_reduces (by decide) (by decide) power_statePeriod
    periodPrimes_prime (by decide) (fun p hp => ?_) hx
  obtain ⟨c, hc, rfl⟩ := List.mem_map.mp hp
  exact ⟨c.2, periodPrimes_invert c hc⟩

theorem iterate_mix_eq_self_iff {x : BitVec 64} (hx : x ≠ 0) (n : ℕ) :
    mix^[n] x = x ↔ statePeriod ∣ n := by
  rw [← minimalPeriod_mix hx]
  exact Function.isPeriodicPt_iff_minimalPeriod_dvd

theorem toBitVec_iterate (n : ℕ) (s : UInt64) :
    ((fun s => (xorshift64star s).1)^[n] s).toBitVec = mix^[n] s.toBitVec := by
  induction n generalizing s with
  | zero => rfl
  | succ n ih => rw [Function.iterate_succ_apply, ih, xorshift64star_state,
      ← Function.iterate_succ_apply mix]

/-! ### The numbers that a call draws -/

theorem fillLoop_state (state : UInt64) (left : ℕ) :
    (fillLoop state left).1.toBitVec = mix^[(left + 7) / 8] state.toBitVec := by
  fun_induction fillLoop state left with
  | case1 state => rfl
  | case2 state left hleft draw rest ih =>
    have hdraws : (left + 7) / 8 = (left - 8 + 7) / 8 + 1 := by omega
    rw [hdraws, Function.iterate_succ_apply, ← xorshift64star_state]
    exact ih

section Threads

variable {T : Type*} [DecidableEq T]

/-- The numbers that thread `i` draws in a call. -/
def FillCall.draws (i : T) (call : FillCall T) : ℕ :=
  if call.caller = i ∧ call.bufOk = true then (call.len + 7) / 8 else 0

def totalDraws (i : T) (calls : List (FillCall T)) : ℕ := (calls.map (FillCall.draws i)).sum

theorem rngStep_drawn (s : Rngs T) {call : FillCall T} (hbuf : call.bufOk = true) :
    ((rngStep s call).1.thread call.caller).tRngSeeded = true ∧
      ((rngStep s call).1.thread call.caller).tRngState.toBitVec =
        mix^[(call.len + 7) / 8] (startState call.src s.gRngSeedCounter
          (s.thread call.caller)).toBitVec := by
  have hstep : (rngStep s call).1.thread call.caller =
      (fillRandom call.src s.gRngSeedCounter (s.thread call.caller) call.bufOk call.len).2.2 :=
    Function.update_self ..
  rw [hstep, hbuf]
  refine ⟨?_, fillLoop_state _ _⟩
  show (ensureThreadRngSeeded _ _ _).2.tRngSeeded = true
  unfold ensureThreadRngSeeded
  split
  case isTrue h => exact h
  case isFalse => rfl

theorem rngStep_state {s : Rngs T} {i : T} (hseeded : (s.thread i).tRngSeeded = true)
    (call : FillCall T) :
    ((rngStep s call).1.thread i).tRngSeeded = true ∧
      ((rngStep s call).1.thread i).tRngState.toBitVec =
        mix^[call.draws i] (s.thread i).tRngState.toBitVec := by
  by_cases hi : call.caller = i
  · subst hi
    by_cases hbuf : call.bufOk = true
    · have hdrawn := rngStep_drawn s hbuf
      rw [startState_seeded _ _ hseeded] at hdrawn
      rwa [FillCall.draws, if_pos ⟨rfl, hbuf⟩]
    · have hstep : (rngStep s call).1.thread call.caller = s.thread call.caller := by
        show Function.update s.thread call.caller _ call.caller = _
        rw [Function.update_self, fillRandom]
        simp [hbuf]
      rw [hstep, FillCall.draws, if_neg fun h => hbuf h.2]
      exact ⟨hseeded, rfl⟩
  · have hstep : (rngStep s call).1.thread i = s.thread i :=
      Function.update_of_ne (Ne.symm hi) ..
    rw [hstep, FillCall.draws, if_neg fun h => hi h.1]
    exact ⟨hseeded, rfl⟩

theorem rngRun_state {s : Rngs T} {i : T} (hseeded : (s.thread i).tRngSeeded = true)
    (calls : List (FillCall T)) :
    ((Machine.final rngStep s calls).thread i).tRngSeeded = true ∧
      ((Machine.final rngStep s calls).thread i).tRngState.toBitVec =
        mix^[totalDraws i calls] (s.thread i).tRngState.toBitVec := by
  induction calls generalizing s with
  | nil => exact ⟨hseeded, rfl⟩
  | cons call calls ih =>
    obtain ⟨hnext, hstate⟩ := rngStep_state hseeded call
    obtain ⟨hlast, hfinal⟩ := ih hnext
    refine ⟨hlast, ?_⟩
    rw [Machine.final_cons, hfinal, hstate, ← Function.iterate_add_apply, Nat.add_comm]
    rfl

/-- The start of the process. -/
def Rngs.start (T : Type*) (counter : UInt64) : Rngs T := ⟨counter, fun _ => ⟨0, false⟩⟩

theorem startState_run_ne_zero (counter : UInt64) (calls : List (FillCall T)) (call : FillCall T) :
    startState call.src (Machine.final rngStep (Rngs.start T counter) calls).gRngSeedCounter
      ((Machine.final rngStep (Rngs.start T counter) calls).thread call.caller) ≠ 0 :=
  startState_ne_zero _ _ fun h => seeded_never_zero counter calls call.caller h

/-- From the start of the process, with calls of other threads in between: two calls of one
thread for eight bytes or more write the same bytes exactly when the numbers it drew from the
first call to the second are a multiple of `2 ^ 64 - 1`. -/
theorem thread_bytes_repeat_iff (counter : UInt64) (before between : List (FillCall T))
    (first second : FillCall T) (hfirst : first.bufOk = true) (hsecond : second.bufOk = true)
    (hcaller : second.caller = first.caller) (hlen : second.len = first.len)
    (height : 8 ≤ first.len) :
    let s := Machine.final rngStep (Rngs.start T counter) before
    (rngStep (Machine.final rngStep s (first :: between)) second).2 = (rngStep s first).2 ↔
      statePeriod ∣ totalDraws first.caller (first :: between) := by
  intro s
  let start := startState first.src s.gRngSeedCounter (s.thread first.caller)
  have hstart : start.toBitVec ≠ 0 := fun h =>
    startState_run_ne_zero counter before first (UInt64.toBitVec_inj.mp h)
  obtain ⟨hseeded, hstate⟩ := rngStep_drawn s hfirst
  obtain ⟨hlater, hreached⟩ := rngRun_state hseeded between
  have htotal : totalDraws first.caller (first :: between) =
      totalDraws first.caller between + (first.len + 7) / 8 := by
    rw [totalDraws, List.map_cons, List.sum_cons, FillCall.draws, if_pos ⟨rfl, hfirst⟩,
      Nat.add_comm]
    rfl
  let later := (Machine.final rngStep s (first :: between)).thread first.caller
  have hlaterState : later.tRngState.toBitVec =
      mix^[totalDraws first.caller (first :: between)] start.toBitVec := by
    rw [htotal, Function.iterate_add_apply, ← hstate]
    exact hreached
  have hone : (rngStep s first).2 = some (fillLoop start first.len).2 := by
    show (fillRandom _ _ _ first.bufOk _).1 = _
    rw [hfirst]
    rfl
  have htwo : (rngStep (Machine.final rngStep s (first :: between)) second).2 =
      some (fillLoop later.tRngState first.len).2 := by
    show (fillRandom _ _ _ second.bufOk _).1 = _
    rw [hsecond, hcaller, hlen]
    have hsame := startState_seeded second.src
      (Machine.final rngStep s (first :: between)).gRngSeedCounter hlater
    exact congrArg (fun x => some (fillLoop x first.len).2) hsame
  rw [hone, htwo, ← iterate_mix_eq_self_iff hstart, ← hlaterState]
  constructor
  · intro h
    exact congrArg UInt64.toBitVec (fillLoop_injective height (Option.some.inj h))
  · intro h
    rw [UInt64.toBitVec_inj.mp h]

/-- Two tokens of one thread with a salt of another in between differ. -/
theorem thread_bytes_differ :
    let src : SeedSources := ⟨1700000000, 5000, 0x7f00deadbe00⟩
    let s := Machine.final rngStep (Rngs.start (Fin 2) 0) []
    (rngStep (Machine.final rngStep s [⟨0, src, true, 32⟩, ⟨1, src, true, 16⟩])
      ⟨0, src, true, 32⟩).2 ≠ (rngStep s ⟨0, src, true, 32⟩).2 := by
  intro src s h
  have hdvd := (thread_bytes_repeat_iff (T := Fin 2) 0 [] [⟨1, src, true, 16⟩] ⟨0, src, true, 32⟩
    ⟨0, src, true, 32⟩ rfl rfl rfl rfl (by decide)).mp h
  exact absurd hdvd (by decide)

/-- The generators of two threads read one cyclic sequence from two places of it. -/
theorem threads_share_cycle (counter : UInt64) (calls : List (FillCall T)) (i j : T)
    (hi : ((Machine.final rngStep (Rngs.start T counter) calls).thread i).tRngSeeded = true)
    (hj : ((Machine.final rngStep (Rngs.start T counter) calls).thread j).tRngSeeded = true) :
    ∃ n < statePeriod, (fun s => (xorshift64star s).1)^[n]
        ((Machine.final rngStep (Rngs.start T counter) calls).thread i).tRngState =
      ((Machine.final rngStep (Rngs.start T counter) calls).thread j).tRngState := by
  have hne : ∀ k, ((Machine.final rngStep (Rngs.start T counter) calls).thread k).tRngSeeded =
      true → ((Machine.final rngStep (Rngs.start T counter) calls).thread k).tRngState.toBitVec ≠
        0 := fun k hk h => seeded_never_zero counter calls k hk (UInt64.toBitVec_inj.mp h)
  obtain ⟨n, hn, hiter⟩ := exists_iterate_eq mix_linear mix_injective (hne i hi)
    (minimalPeriod_mix (hne i hi)) (hne j hj)
  refine ⟨n, hn, UInt64.toBitVec_inj.mp ?_⟩
  rw [toBitVec_iterate, hiter]

end Threads

/-- Two threads that each drew a salt. -/
theorem threads_share_cycle_salts :
    let src : SeedSources := ⟨1700000000, 5000, 0x7f00deadbe00⟩
    let s := Machine.final rngStep (Rngs.start (Fin 2) 0) [⟨0, src, true, 16⟩, ⟨1, src, true, 16⟩]
    ∃ n < statePeriod, (fun s => (xorshift64star s).1)^[n] (s.thread 0).tRngState =
      (s.thread 1).tRngState := by
  intro src s
  exact threads_share_cycle (T := Fin 2) 0 [⟨0, src, true, 16⟩, ⟨1, src, true, 16⟩] 0 1 rfl rfl

end SubscriberMgmt
