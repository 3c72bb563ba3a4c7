import Mathlib.Logic.Function.Basic
import Mathlib.Data.Nat.Notation
import Mathlib.Tactic.Common
import Mathlib.Algebra.Order.Ring.Int
import Mathlib.Data.List.Induction

/-!
# Leases that a use prolongs

A lease is issued under a fresh key and holds for `ttl` units of time after its
issue or its latest use. The ledger says for each key who holds it and when it
was last used; a table of slots, in which expired leases may be overwritten,
tracks it.
-/

namespace Lease

variable {I K U : Type*}

/-- Holder and time of the last use of each key that was issued and not dropped. -/
abbrev Ledger (K U : Type*) := K → Option (U × ℤ)

inductive Event (K U : Type*) where
  | issued (k : K) (u : U) (now : ℤ)
  | used (k : K) (now : ℤ)
  | dropped (k : K)
  | cleared
  deriving DecidableEq

/-- The ledger after an event. -/
def Ledger.apply [DecidableEq K] (h : Ledger K U) : Event K U → Ledger K U
  | .issued k u now => Function.update h k (some (u, now))
  | .used k now => Function.update h k ((h k).map fun e => (e.1, now))
  | .dropped k => Function.update h k none
  | .cleared => fun _ => none

/-- The ledger after a list of events. -/
def Ledger.applyAll [DecidableEq K] (h : Ledger K U) (es : List (Event K U)) : Ledger K U :=
  es.foldl Ledger.apply h

/-- The key is held by `u` and was used within the last `ttl`. -/
def Ledger.Valid (ttl : ℤ) (h : Ledger K U) (k : K) (u : U) (t : ℤ) : Prop :=
  ∃ last, h k = some (u, last) ∧ t ≤ last + ttl

/-- The keys issued by a list of events. -/
def issuedKeys (es : List (Event K U)) : List K :=
  es.filterMap fun
    | .issued k _ _ => some k
    | _ => none

theorem Ledger.applyAll_append [DecidableEq K] (h : Ledger K U) (es es' : List (Event K U)) :
    h.applyAll (es ++ es') = (h.applyAll es).applyAll es' := List.foldl_append

theorem issuedKeys_append (es es' : List (Event K U)) :
    issuedKeys (es ++ es') = issuedKeys es ++ issuedKeys es' := List.filterMap_append

theorem issuedKeys_nodup_left {es es' : List (Event K U)} (h : (issuedKeys (es ++ es')).Nodup) :
    (issuedKeys es).Nodup := by
  rw [issuedKeys_append] at h
  exact (List.nodup_append.mp h).1

@[simp] theorem Ledger.applyAll_concat [DecidableEq K] (h : Ledger K U) (es : List (Event K U))
    (e : Event K U) : h.applyAll (es ++ [e]) = (h.applyAll es).apply e :=
  Ledger.applyAll_append h es [e]

theorem mem_issuedKeys {es : List (Event K U)} {k : K} {u : U} {now : ℤ}
    (h : Event.issued k u now ∈ es) : k ∈ issuedKeys es :=
  List.mem_filterMap.mpr ⟨_, h, rfl⟩

/-- A key that is issued at most once has one holder. -/
theorem holder_unique {es : List (Event K U)} (hn : (issuedKeys es).Nodup) {k : K} {u u' : U}
    {now now' : ℤ} (h : Event.issued k u now ∈ es) (h' : Event.issued k u' now' ∈ es) : u = u' := by
  induction es with
  | nil => cases h
  | cons e es ih =>
    have hes : (issuedKeys es).Nodup := by
      cases e with
      | issued => exact (List.nodup_cons.mp hn).2
      | used | dropped | cleared => exact hn
    rcases List.mem_cons.mp h with rfl | h1 <;> rcases List.mem_cons.mp h' with he | h2
    · cases he
      rfl
    · exact absurd (mem_issuedKeys h2) (List.nodup_cons.mp hn).1
    · subst he
      exact absurd (mem_issuedKeys h1) (List.nodup_cons.mp hn).1
    · exact ih hes h1 h2

/-! ### What the ledger says about the history -/

section History

variable [DecidableEq K]

def lastUse (k : K) (t : ℤ) (es : List (Event K U)) : ℤ :=
  es.foldl (fun t e => match e with
    | .used k' now => if k' = k then now else t
    | _ => t) t

def Event.Ends (k : K) : Event K U → Prop
  | .issued k' _ _ => k' = k
  | .used _ _ => False
  | .dropped k' => k' = k
  | .cleared => True

/-- Some issue of `k` went to `u`, the key was not issued again, dropped or
cleared since, and `last` is the time of that issue or of the last use since. -/
def Held (es : List (Event K U)) (k : K) (u : U) (last : ℤ) : Prop :=
  ∃ before now after, es = before ++ .issued k u now :: after ∧
    (∀ e ∈ after, ¬ e.Ends k) ∧ last = lastUse k now after

variable {es : List (Event K U)} {e : Event K U} {k : K} {u : U} {last : ℤ}

theorem held_nil : ¬ Held ([] : List (Event K U)) k u last := by
  intro h
  obtain ⟨before, now, after, he, -⟩ := h
  simp at he

theorem Held.issued_mem (h : Held es k u last) : ∃ now, Event.issued k u now ∈ es := by
  obtain ⟨before, now, after, rfl, -⟩ := h
  exact ⟨now, by simp⟩

theorem lastUse_append (k : K) (t : ℤ) (es es' : List (Event K U)) :
    lastUse k t (es ++ es') = lastUse k (lastUse k t es) es' := List.foldl_append

theorem held_append_singleton :
    Held (es ++ [e]) k u last ↔
      e = .issued k u last ∨ (¬ e.Ends k ∧ ∃ t, Held es k u t ∧ last = lastUse k t [e]) := by
  constructor
  · intro h
    obtain ⟨before, now, after, he, hafter, rfl⟩ := h
    rcases List.eq_nil_or_concat after with rfl | ⟨after, e', rfl⟩
    · left
      simpa [lastUse] using (List.append_inj' he rfl).2
    · right
      rw [List.concat_eq_append] at he hafter ⊢
      rw [← List.cons_append, ← List.append_assoc] at he
      obtain ⟨hes, hlast⟩ := List.append_inj' he rfl
      obtain rfl : e = e' := by simpa using hlast
      refine ⟨hafter e (by simp), lastUse k now after, ?_, lastUse_append ..⟩
      exact ⟨before, now, after, hes, fun e' hm => hafter e' (by simp [hm]), rfl⟩
  · intro h
    obtain rfl | ⟨hends, t, ⟨before, now, after, rfl, hafter, rfl⟩, rfl⟩ := h
    · exact ⟨es, last, [], rfl, by simp, rfl⟩
    · refine ⟨before, now, after ++ [e], by simp, ?_, (lastUse_append ..).symm⟩
      intro e' hm
      rcases List.mem_append.mp hm with hm | hm
      · exact hafter e' hm
      · rwa [List.mem_singleton.mp hm]

theorem applyAll_eq_some_iff :
    Ledger.applyAll (fun _ => none) es k = some (u, last) ↔ Held es k u last := by
  induction es using List.reverseRecOn generalizing last with
  | nil => simpa [Ledger.applyAll] using held_nil
  | append_singleton es e ih =>
    rw [held_append_singleton, Ledger.applyAll_append]
    simp only [← ih]
    generalize Ledger.applyAll (fun _ => none) es = h
    cases e with
    | issued k' u' now =>
      by_cases hk : k' = k
      · subst hk
        simp [Ledger.applyAll, Ledger.apply, Event.Ends]
      · simp [Ledger.applyAll, Ledger.apply, Event.Ends, Function.update_of_ne (Ne.symm hk), hk,
          lastUse]
    | used k' now =>
      by_cases hk : k' = k
      · subst hk
        cases hh : h k' with
        | none => simp [Ledger.applyAll, Ledger.apply, Event.Ends, hh]
        | some v =>
          simp [Ledger.applyAll, Ledger.apply, Event.Ends, lastUse, hh, Prod.ext_iff, eq_comm]
      · simp [Ledger.applyAll, Ledger.apply, Event.Ends, Function.update_of_ne (Ne.symm hk), hk,
          lastUse]
    | dropped k' =>
      by_cases hk : k' = k
      · subst hk
        simp [Ledger.applyAll, Ledger.apply, Event.Ends]
      · simp [Ledger.applyAll, Ledger.apply, Event.Ends, Function.update_of_ne (Ne.symm hk), hk,
          lastUse]
    | cleared => simp [Ledger.applyAll, Ledger.apply, Event.Ends]

/-- A key that is issued at most once and was dropped after its issue is not held. -/
theorem not_held_of_dropped {es' : List (Event K U)} (hn : (issuedKeys (es ++ es')).Nodup)
    (hissued : k ∈ issuedKeys es) (hdropped : .dropped k ∈ es') : ¬ Held (es ++ es') k u last := by
  intro h
  obtain ⟨before, now, after, he, hafter, -⟩ := h
  rw [he, issuedKeys_append] at hn
  have hfirst : k ∉ issuedKeys before := fun hm =>
    (List.nodup_append.mp hn).2.2 k hm k (List.mem_cons_self ..) rfl
  rcases List.append_eq_append_iff.mp he with ⟨mid, rfl, hes'⟩ | ⟨mid, rfl, hes⟩
  · -- the issue of `k` is the one before the drop
    exact hfirst (by rw [issuedKeys_append]; exact List.mem_append_left _ hissued)
  · cases mid with
    | nil => exact hfirst (by simpa using hissued)
    | cons e mid =>
      rw [List.cons_append, List.cons.injEq] at hes
      exact hafter (.dropped k) (by rw [hes.2]; exact List.mem_append_right _ hdropped) rfl

theorem valid_iff_held {ttl t : ℤ} :
    Ledger.Valid ttl (Ledger.applyAll (fun _ => none) es) k u t ↔
      ∃ last, Held es k u last ∧ t ≤ last + ttl := by
  simp only [Ledger.Valid, applyAll_eq_some_iff]

end History

/-! ### Tables of slots -/

structure Entry (K U : Type*) where
  key : K
  holder : U
  expiry : ℤ

abbrev Table (I K U : Type*) := I → Option (Entry K U)

/-- The table holds every lease that is still valid and nothing that the ledger
does not know. `times` are the clock values seen so far. -/
structure Tracks (ttl : ℤ) (tab : Table I K U) (h : Ledger K U) (keys : List K)
    (times : List ℤ) : Prop where
  recorded : ∀ j l, tab j = some l → h l.key = some (l.holder, l.expiry - ttl)
  issued : ∀ j l, tab j = some l → l.key ∈ keys
  distinct : ∀ i j l l', tab i = some l → tab j = some l' → l.key = l'.key → i = j
  present : ∀ k u t, (∀ x ∈ times, x ≤ t) → h.Valid ttl k u t → ∃ j l, tab j = some l ∧ l.key = k

namespace Tracks

variable {ttl : ℤ} {tab : Table I K U} {h : Ledger K U} {keys : List K} {times : List ℤ}

theorem empty (ttl : ℤ) (keys : List K) (times : List ℤ) :
    Tracks ttl (fun _ => none : Table I K U) (fun _ => none) keys times :=
  ⟨fun _ _ hl => (by cases hl), fun _ _ hl => (by cases hl), fun _ _ _ _ hl => (by cases hl),
    fun _ _ _ _ hv => by
      obtain ⟨_, hh, _⟩ := hv
      cases hh⟩

theorem mono (ht : Tracks ttl tab h keys times) {keys' : List K} {times' : List ℤ}
    (hk : ∀ k ∈ keys, k ∈ keys') (htimes : ∀ x ∈ times, x ∈ times') :
    Tracks ttl tab h keys' times' :=
  ⟨ht.recorded, fun j l hl => hk _ (ht.issued j l hl), ht.distinct,
    fun k u t hx hv => ht.present k u t (fun x hm => hx x (htimes x hm)) hv⟩

theorem valid_iff (ht : Tracks ttl tab h keys times) {t : ℤ} (hx : ∀ x ∈ times, x ≤ t) {k : K}
    {u : U} :
    h.Valid ttl k u t ↔ ∃ j l, tab j = some l ∧ l.key = k ∧ l.holder = u ∧ t ≤ l.expiry := by
  constructor
  · intro h
    obtain ⟨last, hh, hle⟩ := h
    obtain ⟨j, l, hl, rfl⟩ := ht.present k u t hx ⟨last, hh, hle⟩
    have hrec := ht.recorded j l hl
    rw [hh] at hrec
    cases hrec
    exact ⟨j, l, hl, rfl, rfl, by omega⟩
  · intro h
    obtain ⟨j, l, hl, rfl, rfl, hle⟩ := h
    exact ⟨_, ht.recorded j l hl, by omega⟩

variable [DecidableEq I] [DecidableEq K]

omit [DecidableEq K] in
/-- Writing a slot. What it held before has the same key, or has expired. -/
theorem put (ht : Tracks ttl tab h keys times) {h' : Ledger K U} {keys' : List K}
    {times' : List ℤ} {j : I} {l : Entry K U} (hself : h' l.key = some (l.holder, l.expiry - ttl))
    (hother : ∀ k, k ≠ l.key → h' k = h k)
    (hfree : ∀ i l', i ≠ j → tab i = some l' → l'.key ≠ l.key) (hkey : l.key ∈ keys')
    (hkeys : ∀ k ∈ keys, k ∈ keys') (htimes : ∀ x ∈ times, x ∈ times')
    (hlost : ∀ l', tab j = some l' → l'.key = l.key ∨ ∃ now ∈ times', l'.expiry < now) :
    Tracks ttl (Function.update tab j (some l)) h' keys' times' := by
  constructor
  · intro i l' hl'
    by_cases hi : i = j
    · subst hi
      rw [Function.update_self] at hl'
      cases hl'
      exact hself
    · rw [Function.update_of_ne hi] at hl'
      rw [hother _ (hfree i l' hi hl')]
      exact ht.recorded i l' hl'
  · intro i l' hl'
    by_cases hi : i = j
    · subst hi
      rw [Function.update_self] at hl'
      cases hl'
      exact hkey
    · rw [Function.update_of_ne hi] at hl'
      exact hkeys _ (ht.issued i l' hl')
  · intro i i' a b ha hb he
    by_cases hi : i = j <;> by_cases hi' : i' = j
    · rw [hi, hi']
    · rw [hi, Function.update_self] at ha
      rw [Function.update_of_ne hi'] at hb
      cases ha
      exact absurd he.symm (hfree i' b hi' hb)
    · rw [hi', Function.update_self] at hb
      rw [Function.update_of_ne hi] at ha
      cases hb
      exact absurd he (hfree i a hi ha)
    · rw [Function.update_of_ne hi] at ha
      rw [Function.update_of_ne hi'] at hb
      exact ht.distinct i i' a b ha hb he
  · intro k u t hx hv
    by_cases hk : k = l.key
    · exact ⟨j, l, Function.update_self .., hk.symm⟩
    · obtain ⟨last, hh, hle⟩ := hv
      rw [hother k hk] at hh
      obtain ⟨i, l', hl', rfl⟩ := ht.present k u t (fun x hm => hx x (htimes x hm))
        ⟨last, hh, hle⟩
      have hij : i ≠ j := by
        intro he
        subst he
        rcases hlost l' hl' with he | ⟨now, hnow, hexp⟩
        · exact hk he
        · have hrec := ht.recorded i l' hl'
          rw [hh] at hrec
          cases hrec
          have hlate := hx now hnow
          omega
      exact ⟨i, l', by rw [Function.update_of_ne hij]; exact hl', rfl⟩

theorem issue (ht : Tracks ttl tab h keys times) {j : I} {now : ℤ}
    (hj : ∀ l, tab j = some l → l.expiry < now) {k : K} (hk : k ∉ keys) (u : U) :
    Tracks ttl (Function.update tab j (some ⟨k, u, now + ttl⟩)) (h.apply (.issued k u now))
      (k :: keys) (now :: times) := by
  have hfree : ∀ i l', i ≠ j → tab i = some l' → l'.key ≠ k := by
    intro i l' _ hl' he
    have hmem := ht.issued i l' hl'
    rw [he] at hmem
    exact hk hmem
  refine ht.put ?_ (fun k' hk' => Function.update_of_ne hk' _ _) hfree (List.mem_cons_self ..)
    (fun _ => List.mem_cons_of_mem _) (fun _ => List.mem_cons_of_mem _)
    fun l hl => Or.inr ⟨now, List.mem_cons_self .., hj l hl⟩
  simp [Ledger.apply]

theorem use (ht : Tracks ttl tab h keys times) {j : I} {l : Entry K U} (hl : tab j = some l)
    (now : ℤ) :
    Tracks ttl (Function.update tab j (some { l with expiry := now + ttl }))
      (h.apply (.used l.key now)) keys (now :: times) := by
  refine ht.put ?_ (fun k' hk' => Function.update_of_ne hk' _ _)
    (fun i l' hi hl' he => hi (ht.distinct i j l' l hl' hl he)) (ht.issued j l hl)
    (fun _ hm => hm) (fun _ => List.mem_cons_of_mem _) fun l' hl' => Or.inl ?_
  · simp [Ledger.apply, ht.recorded j l hl]
  · rw [hl] at hl'
    cases hl'
    rfl

omit [DecidableEq K] in
theorem update_none {i j : I} {l : Entry K U} :
    Function.update tab j none i = some l ↔ i ≠ j ∧ tab i = some l := by
  by_cases hi : i = j
  · subst hi
    simp
  · simp [hi]

omit [DecidableEq K] in
theorem expire (ht : Tracks ttl tab h keys times) {j : I} {l : Entry K U} (hl : tab j = some l)
    {now : ℤ} (hexp : l.expiry < now) :
    Tracks ttl (Function.update tab j none) h keys (now :: times) := by
  constructor
  · exact fun i l' hl' => ht.recorded i l' (update_none.mp hl').2
  · exact fun i l' hl' => ht.issued i l' (update_none.mp hl').2
  · exact fun i i' a b ha hb he =>
      ht.distinct i i' a b (update_none.mp ha).2 (update_none.mp hb).2 he
  · intro k u t hx hv
    obtain ⟨i, l', hl', rfl⟩ := ht.present k u t
      (fun x hm => hx x (List.mem_cons_of_mem _ hm)) hv
    refine ⟨i, l', update_none.mpr ⟨?_, hl'⟩, rfl⟩
    intro he
    subst he
    rw [hl] at hl'
    cases hl'
    obtain ⟨last, hh, hle⟩ := hv
    rw [ht.recorded i l hl] at hh
    cases hh
    have hlate := hx now (List.mem_cons_self ..)
    omega

theorem drop (ht : Tracks ttl tab h keys times) {j : I} {l : Entry K U} (hl : tab j = some l) :
    Tracks ttl (Function.update tab j none) (h.apply (.dropped l.key)) keys times := by
  have hother : ∀ {i l'}, i ≠ j → tab i = some l' → l'.key ≠ l.key := fun hi hl' he =>
    hi (ht.distinct _ j _ l hl' hl he)
  constructor
  · intro i l' hl'
    obtain ⟨hi, hl'⟩ := update_none.mp hl'
    simp only [Ledger.apply, Function.update_of_ne (hother hi hl')]
    exact ht.recorded i l' hl'
  · exact fun i l' hl' => ht.issued i l' (update_none.mp hl').2
  · exact fun i i' a b ha hb he =>
      ht.distinct i i' a b (update_none.mp ha).2 (update_none.mp hb).2 he
  · intro k u t hx hv
    obtain ⟨last, hh, hle⟩ := hv
    by_cases hk : k = l.key
    · simp [Ledger.apply, hk] at hh
    · simp only [Ledger.apply, Function.update_of_ne hk] at hh
      obtain ⟨i, l', hl', rfl⟩ := ht.present k u t hx ⟨last, hh, hle⟩
      refine ⟨i, l', update_none.mpr ⟨?_, hl'⟩, rfl⟩
      intro he
      subst he
      rw [hl] at hl'
      cases hl'
      exact hk rfl

omit [DecidableEq I] in
theorem drop_absent (ht : Tracks ttl tab h keys times) {k : K}
    (hk : ∀ j l, tab j = some l → l.key ≠ k) :
    Tracks ttl tab (h.apply (.dropped k)) keys times := by
  refine ⟨fun i l hl => ?_, ht.issued, ht.distinct, fun k' u t hx hv => ?_⟩
  · simp only [Ledger.apply, Function.update_of_ne (hk i l hl)]
    exact ht.recorded i l hl
  · obtain ⟨last, hh, hle⟩ := hv
    by_cases hkk : k' = k
    · simp [Ledger.apply, hkk] at hh
    · simp only [Ledger.apply, Function.update_of_ne hkk] at hh
      exact ht.present k' u t hx ⟨last, hh, hle⟩

end Tracks

end Lease
