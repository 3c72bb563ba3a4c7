import Mathlib.Logic.Function.Basic
import Mathlib.Tactic.Common
import Mathlib.Data.Nat.Notation

/-!
# Files, streams and their history

A disk maps paths to contents and remembers every content it has had, so that
a statement about each moment of a call, or about a stop between two of its
operations, is a statement about the history. Two paths name two files. What
the operating system does is an input of each operation.
-/

/-- Contents by path, and earlier contents, latest first. -/
structure Disk (Path : Type*) where
  files : Path → Option (List UInt8)
  past : List (Path → Option (List UInt8))

/-- What a call on a stream reports, and how many of the bytes buffered by then
reach the file. -/
structure WriteOutcome where
  ok : Bool
  reach : ℕ

inductive RemoveResult where
  | removed
  | noEntry
  | failed
  deriving DecidableEq

structure OutStream (Path : Type*) where
  disk : Disk Path
  path : Path
  pending : List UInt8

namespace Disk

variable {Path : Type*} [DecidableEq Path]

def start (files : Path → Option (List UInt8)) : Disk Path := ⟨files, []⟩

def moments (d : Disk Path) : List (Path → Option (List UInt8)) := d.files :: d.past

def set (d : Disk Path) (p : Path) (c : Option (List UInt8)) : Disk Path :=
  ⟨Function.update d.files p c, d.files :: d.past⟩

/-- `remove(p)`; `ok` is the outcome when the file exists. -/
def remove (d : Disk Path) (ok : Bool) (p : Path) : RemoveResult × Disk Path :=
  if d.files p = none then (.noEntry, d)
  else if ok then (.removed, d.set p none)
  else (.failed, d)

/-- `rename(a, b)`, atomic when it succeeds; it fails when `a` does not exist. -/
def rename (d : Disk Path) (ok : Bool) (a b : Path) : Bool × Disk Path :=
  match d.files a with
  | none => (false, d)
  | some c =>
    if ok then
      (true, ⟨Function.update (Function.update d.files a none) b (some c), d.files :: d.past⟩)
    else (false, d)

def openWrite (d : Disk Path) (ok : Bool) (p : Path) : Option (OutStream Path) :=
  if ok then some ⟨d.set p (some []), p, []⟩ else none

/-- The content of `p` has been `old` at every moment. -/
def Steady (d : Disk Path) (p : Path) (old : Option (List UInt8)) : Prop :=
  ∀ m ∈ d.moments, m p = old

omit [DecidableEq Path] in
theorem start_steady (files : Path → Option (List UInt8)) (p : Path) :
    (start files).Steady p (files p) := by
  intro m hm
  rw [List.mem_singleton.mp hm]
  rfl

omit [DecidableEq Path] in
theorem Steady.now {d : Disk Path} {p : Path} {old : Option (List UInt8)} (h : d.Steady p old) :
    d.files p = old := h _ (List.mem_cons_self ..)

theorem Steady.set {d : Disk Path} {p q : Path} {old c : Option (List UInt8)}
    (h : d.Steady p old) (hpq : p ≠ q) : (d.set q c).Steady p old := by
  intro m hm
  rcases List.mem_cons.mp hm with rfl | hm
  · simp only [Disk.set, Function.update_of_ne hpq]
    exact h.now
  · exact h m hm

theorem Steady.remove {d : Disk Path} {p q : Path} {old : Option (List UInt8)}
    (h : d.Steady p old) (hpq : p ≠ q) (ok : Bool) : (d.remove ok q).2.Steady p old := by
  unfold Disk.remove
  split
  · exact h
  · split
    · exact h.set hpq
    · exact h

theorem Steady.rename {d : Disk Path} {p a b : Path} {old : Option (List UInt8)}
    (h : d.Steady p old) (ha : p ≠ a) (hb : p ≠ b) (ok : Bool) :
    (d.rename ok a b).2.Steady p old := by
  unfold Disk.rename
  split
  · exact h
  · split
    · intro m hm
      rcases List.mem_cons.mp hm with rfl | hm
      · simp only [Function.update_of_ne hb, Function.update_of_ne ha]
        exact h.now
      · exact h m hm
    · exact h

theorem remove_files {d : Disk Path} {p q : Path} (hpq : p ≠ q) (ok : Bool) :
    (d.remove ok q).2.files p = d.files p := by
  unfold Disk.remove
  split
  · rfl
  · split
    · exact Function.update_of_ne hpq _ _
    · rfl

/-! ### The history only grows -/

theorem moments_set {d : Disk Path} {m : Path → Option (List UInt8)} (hm : m ∈ d.moments)
    (p : Path) (c : Option (List UInt8)) : m ∈ (d.set p c).moments :=
  List.mem_cons_of_mem _ hm

theorem moments_remove {d : Disk Path} {m : Path → Option (List UInt8)} (hm : m ∈ d.moments)
    (ok : Bool) (p : Path) : m ∈ (d.remove ok p).2.moments := by
  unfold Disk.remove
  split
  · exact hm
  · split
    · exact moments_set hm p none
    · exact hm

theorem moments_rename {d : Disk Path} {m : Path → Option (List UInt8)} (hm : m ∈ d.moments)
    (ok : Bool) (p q : Path) : m ∈ (d.rename ok p q).2.moments := by
  unfold Disk.rename
  split
  · exact hm
  · split
    · exact List.mem_cons_of_mem _ hm
    · exact hm

omit [DecidableEq Path] in
theorem files_mem_moments (d : Disk Path) : d.files ∈ d.moments := List.mem_cons_self ..

end Disk

namespace OutStream

variable {Path : Type*} [DecidableEq Path]

def drain (f : OutStream Path) (n : ℕ) : OutStream Path :=
  { f with
    disk := f.disk.set f.path (some ((f.disk.files f.path).getD [] ++ f.pending.take n))
    pending := f.pending.drop n }

def write (f : OutStream Path) (o : WriteOutcome) (bytes : List UInt8) :
    Bool × OutStream Path :=
  (o.ok, { f with pending := f.pending ++ bytes }.drain o.reach)

def flush (f : OutStream Path) (o : WriteOutcome) : Bool × OutStream Path :=
  if o.ok then (true, f.drain f.pending.length) else (false, f.drain o.reach)

def writeAll (f : OutStream Path) (o : ℕ → WriteOutcome) :
    List (List UInt8) → Bool × OutStream Path
  | [] => (true, f)
  | b :: bs =>
    match f.write (o 0) b with
    | (true, f) => writeAll f (fun i => o (i + 1)) bs
    | (false, f) => (false, f)

/-! ### Other paths -/

theorem drain_steady {f : OutStream Path} {p : Path} {old : Option (List UInt8)}
    (h : f.disk.Steady p old) (hp : p ≠ f.path) (n : ℕ) : (f.drain n).disk.Steady p old :=
  h.set hp

theorem write_steady {f : OutStream Path} {p : Path} {old : Option (List UInt8)}
    (h : f.disk.Steady p old) (hp : p ≠ f.path) (o : WriteOutcome) (b : List UInt8) :
    (f.write o b).2.disk.Steady p old :=
  drain_steady (f := { f with pending := f.pending ++ b }) h hp _

theorem flush_steady {f : OutStream Path} {p : Path} {old : Option (List UInt8)}
    (h : f.disk.Steady p old) (hp : p ≠ f.path) (o : WriteOutcome) :
    (f.flush o).2.disk.Steady p old := by
  unfold flush
  split
  · exact drain_steady h hp _
  · exact drain_steady h hp _

@[simp] theorem flush_path (f : OutStream Path) (o : WriteOutcome) :
    (f.flush o).2.path = f.path := by
  unfold flush
  split <;> rfl

@[simp] theorem writeAll_path (f : OutStream Path) (o : ℕ → WriteOutcome)
    (bs : List (List UInt8)) : (f.writeAll o bs).2.path = f.path := by
  induction bs generalizing f o with
  | nil => rfl
  | cons b bs ih =>
    simp only [writeAll, write]
    cases (o 0).ok with
    | true => exact ih _ _
    | false => rfl

theorem writeAll_steady {f : OutStream Path} {p : Path} {old : Option (List UInt8)}
    (h : f.disk.Steady p old) (hp : p ≠ f.path) (o : ℕ → WriteOutcome)
    (bs : List (List UInt8)) : (f.writeAll o bs).2.disk.Steady p old := by
  induction bs generalizing f o with
  | nil => exact h
  | cons b bs ih =>
    have hb := write_steady h hp (o 0) b
    simp only [writeAll, write] at hb ⊢
    cases (o 0).ok with
    | true => exact ih (f := { f with pending := f.pending ++ b }.drain (o 0).reach) hb hp _
    | false => exact hb

theorem drain_files {f : OutStream Path} {p : Path} (hp : p ≠ f.path) (n : ℕ) :
    (f.drain n).disk.files p = f.disk.files p := Function.update_of_ne hp _ _

theorem flush_files {f : OutStream Path} {p : Path} (hp : p ≠ f.path) (o : WriteOutcome) :
    (f.flush o).2.disk.files p = f.disk.files p := by
  unfold flush
  split
  · exact drain_files hp _
  · exact drain_files hp _

theorem write_files {f : OutStream Path} {p : Path} (hp : p ≠ f.path) (o : WriteOutcome)
    (b : List UInt8) : (f.write o b).2.disk.files p = f.disk.files p :=
  drain_files (f := { f with pending := f.pending ++ b }) hp _

theorem writeAll_files {f : OutStream Path} {p : Path} (hp : p ≠ f.path) (o : ℕ → WriteOutcome)
    (bs : List (List UInt8)) : (f.writeAll o bs).2.disk.files p = f.disk.files p := by
  induction bs generalizing f o with
  | nil => rfl
  | cons b bs ih =>
    have hb := write_files hp (o 0) b
    simp only [writeAll, write] at hb ⊢
    cases (o 0).ok with
    | true => exact (ih (f := { f with pending := f.pending ++ b }.drain (o 0).reach) hp _).trans hb
    | false => exact hb

/-! ### The stream's own file -/

def text (f : OutStream Path) : List UInt8 := (f.disk.files f.path).getD [] ++ f.pending

@[simp] theorem drain_text (f : OutStream Path) (n : ℕ) : (f.drain n).text = f.text := by
  simp [text, drain, Disk.set]

@[simp] theorem write_text (f : OutStream Path) (o : WriteOutcome) (b : List UInt8) :
    (f.write o b).2.text = f.text ++ b := by
  rw [write, drain_text]
  simp [text]

theorem writeAll_text {f : OutStream Path} {o : ℕ → WriteOutcome} {bs : List (List UInt8)}
    (hok : (f.writeAll o bs).1 = true) : (f.writeAll o bs).2.text = f.text ++ bs.flatten := by
  induction bs generalizing f o with
  | nil => simp [writeAll]
  | cons b bs ih =>
    have ht := write_text f (o 0) b
    simp only [writeAll, write] at hok ht ⊢
    cases ho : (o 0).ok with
    | false => simp [ho] at hok
    | true =>
      simp only [ho] at hok ⊢
      rw [ih hok, ht]
      simp

theorem flush_file {f : OutStream Path} {o : WriteOutcome} (hok : o.ok = true) :
    (f.flush o).2.disk.files f.path = some f.text ∧ (f.flush o).2.pending = [] := by
  simp [flush, hok, drain, Disk.set, text]

theorem flush_empty {f : OutStream Path} {c : List UInt8} (hp : f.pending = [])
    (hc : f.disk.files f.path = some c) (o : WriteOutcome) :
    (f.flush o).2.disk.files f.path = some c := by
  unfold flush
  split <;> simp [drain, Disk.set, hp, hc]

theorem writeAll_ok_iff (f : OutStream Path) (o : ℕ → WriteOutcome) (bs : List (List UInt8)) :
    (f.writeAll o bs).1 = true ↔ ∀ i < bs.length, (o i).ok = true := by
  induction bs generalizing f o with
  | nil => simp [writeAll]
  | cons b bs ih =>
    simp only [writeAll, write]
    cases h0 : (o 0).ok with
    | false =>
      apply iff_of_false Bool.false_ne_true
      intro h
      rw [h 0 (by simp)] at h0
      cases h0
    | true =>
      rw [ih]
      constructor
      · intro h i hi
        cases i with
        | zero => exact h0
        | succ i => exact h i (by simp only [List.length_cons] at hi; omega)
      · exact fun h i hi => h (i + 1) (by simp only [List.length_cons]; omega)

/-! ### The history only grows -/

theorem drain_moments {f : OutStream Path} {m : Path → Option (List UInt8)}
    (hm : m ∈ f.disk.moments) (n : ℕ) : m ∈ (f.drain n).disk.moments :=
  Disk.moments_set hm _ _

theorem flush_moments {f : OutStream Path} {m : Path → Option (List UInt8)}
    (hm : m ∈ f.disk.moments) (o : WriteOutcome) : m ∈ (f.flush o).2.disk.moments := by
  unfold flush
  split
  · exact drain_moments hm _
  · exact drain_moments hm _

theorem writeAll_moments {f : OutStream Path} {m : Path → Option (List UInt8)}
    (hm : m ∈ f.disk.moments) (o : ℕ → WriteOutcome) (bs : List (List UInt8)) :
    m ∈ (f.writeAll o bs).2.disk.moments := by
  induction bs generalizing f o with
  | nil => exact hm
  | cons b bs ih =>
    have hb := drain_moments (f := { f with pending := f.pending ++ b }) hm (o 0).reach
    simp only [writeAll, write]
    cases (o 0).ok with
    | true => exact ih hb _
    | false => exact hb

/-! ### A file that stays empty -/

/-- The file has been empty at every moment and the buffer is not. -/
structure Idle (f : OutStream Path) : Prop where
  steady : f.disk.Steady f.path (some [])
  pending : f.pending ≠ []

def Started (f : OutStream Path) : Prop := ∃ c cs, f.disk.files f.path = some (c :: cs)

theorem Started.drain {f : OutStream Path} (h : f.Started) (n : ℕ) : (f.drain n).Started := by
  obtain ⟨c, cs, hc⟩ := h
  exact ⟨c, cs ++ f.pending.take n, by simp [OutStream.drain, Disk.set, hc]⟩

theorem Started.flush {f : OutStream Path} (h : f.Started) (o : WriteOutcome) :
    (f.flush o).2.Started := by
  unfold OutStream.flush
  split
  · exact h.drain _
  · exact h.drain _

theorem Started.writeAll {f : OutStream Path} (h : f.Started) (o : ℕ → WriteOutcome)
    (bs : List (List UInt8)) : (f.writeAll o bs).2.Started := by
  induction bs generalizing f o with
  | nil => exact h
  | cons b bs ih =>
    obtain ⟨c, cs, hc⟩ := h
    have hb : Started { f with pending := f.pending ++ b } := ⟨c, cs, hc⟩
    simp only [OutStream.writeAll, write]
    cases (o 0).ok with
    | true => exact ih (hb.drain _) _
    | false => exact hb.drain _

theorem Idle.drain {f : OutStream Path} (h : f.Idle) (n : ℕ) :
    (n = 0 ∧ (f.drain n).Idle) ∨ (n ≠ 0 ∧ (f.drain n).Started) := by
  obtain ⟨c, cs, hp⟩ := List.exists_cons_of_ne_nil h.pending
  cases n with
  | zero =>
    refine Or.inl ⟨rfl, fun m hm => ?_, by simpa [OutStream.drain] using h.pending⟩
    rcases List.mem_cons.mp hm with rfl | hm
    · simp [OutStream.drain, Disk.set, h.steady.now]
    · exact h.steady m hm
  | succ n =>
    exact Or.inr ⟨Nat.succ_ne_zero n, c, cs.take n, by
      simp [OutStream.drain, Disk.set, h.steady.now, hp]⟩

theorem Idle.flush {f : OutStream Path} (h : f.Idle) (o : WriteOutcome) :
    ((o.ok = false ∧ o.reach = 0) ∧ (f.flush o).2.Idle) ∨
      (¬ (o.ok = false ∧ o.reach = 0) ∧ (f.flush o).2.Started) := by
  unfold OutStream.flush
  have hlen : f.pending.length ≠ 0 := fun he => h.pending (List.length_eq_zero_iff.mp he)
  cases hok : o.ok with
  | true =>
    rcases h.drain f.pending.length with ⟨hz, -⟩ | ⟨-, hs⟩
    · exact absurd hz hlen
    · exact Or.inr ⟨by simp, hs⟩
  | false =>
    rcases h.drain o.reach with ⟨hz, hi⟩ | ⟨hz, hs⟩
    · exact Or.inl ⟨⟨rfl, hz⟩, hi⟩
    · exact Or.inr ⟨by simp [hz], hs⟩

/-- Writes that move nothing: none of those made reaches the file. -/
def QuietWrites (o : ℕ → WriteOutcome) (n : ℕ) : Prop :=
  ∀ i < n, (∀ j < i, (o j).ok = true) → (o i).reach = 0

theorem Idle.writeAll {f : OutStream Path} (h : f.Idle) (o : ℕ → WriteOutcome)
    (bs : List (List UInt8)) :
    (QuietWrites o bs.length ∧ (f.writeAll o bs).2.Idle) ∨
      (¬ QuietWrites o bs.length ∧ (f.writeAll o bs).2.Started) := by
  induction bs generalizing f o with
  | nil => exact Or.inl ⟨fun i hi => absurd hi (Nat.not_lt_zero i), h⟩
  | cons b bs ih =>
    have hb : Idle { f with pending := f.pending ++ b } := ⟨h.steady, by simp [h.pending]⟩
    simp only [OutStream.writeAll, write]
    rcases hb.drain (o 0).reach with ⟨hz, hi⟩ | ⟨hz, hs⟩
    · cases hok : (o 0).ok with
      | false =>
        refine Or.inl ⟨fun i hi hall => ?_, hi⟩
        cases i with
        | zero => exact hz
        | succ i =>
          rw [hall 0 (Nat.succ_pos i)] at hok
          cases hok
      | true =>
        have hiff : QuietWrites o (b :: bs).length ↔
            QuietWrites (fun i => o (i + 1)) bs.length := by
          constructor
          · intro hq i hi hall
            apply hq (i + 1) (Nat.succ_lt_succ hi)
            intro j hj
            cases j with
            | zero => exact hok
            | succ j => exact hall j (Nat.lt_of_succ_lt_succ hj)
          · intro hq i hi hall
            cases i with
            | zero => exact hz
            | succ i =>
              exact hq i (Nat.lt_of_succ_lt_succ hi) fun j hj => hall (j + 1) (Nat.succ_lt_succ hj)
        rw [hiff]
        exact ih hi _
    · refine Or.inr ⟨fun hq => hz (hq 0 (by simp) fun j hj => absurd hj (Nat.not_lt_zero j)), ?_⟩
      cases (o 0).ok with
      | true => exact hs.writeAll _ _
      | false => exact hs

/-- The stream is still idle if `q` holds, and has started if not. -/
def Phase (f : OutStream Path) (q : Prop) : Prop := (q ∧ f.Idle) ∨ (¬ q ∧ f.Started)

theorem Phase.flush {q : Prop} {f : OutStream Path} (h : f.Phase q) (o : WriteOutcome) :
    (f.flush o).2.Phase (q ∧ o.ok = false ∧ o.reach = 0) := by
  rcases h with ⟨hq, hi⟩ | ⟨hq, hs⟩
  · rcases hi.flush o with ⟨ho, hi'⟩ | ⟨ho, hs'⟩
    · exact Or.inl ⟨⟨hq, ho⟩, hi'⟩
    · exact Or.inr ⟨fun hc => ho hc.2, hs'⟩
  · exact Or.inr ⟨fun hc => hq hc.1, hs.flush o⟩

theorem Phase.writeAll {q : Prop} {f : OutStream Path} (h : f.Phase q) (o : ℕ → WriteOutcome)
    (bs : List (List UInt8)) : (f.writeAll o bs).2.Phase (q ∧ QuietWrites o bs.length) := by
  rcases h with ⟨hq, hi⟩ | ⟨hq, hs⟩
  · rcases hi.writeAll o bs with ⟨ho, hi'⟩ | ⟨ho, hs'⟩
    · exact Or.inl ⟨⟨hq, ho⟩, hi'⟩
    · exact Or.inr ⟨fun hc => ho hc.2, hs'⟩
  · exact Or.inr ⟨fun hc => hq hc.1, hs.writeAll o bs⟩

omit [DecidableEq Path] in
theorem Phase.file {q : Prop} {f : OutStream Path} (h : f.Phase q) :
    (q ∧ f.disk.Steady f.path (some [])) ∨
      (¬ q ∧ ∃ c, c ≠ [] ∧ f.disk.files f.path = some c) := by
  rcases h with ⟨hq, hi⟩ | ⟨hq, c, cs, hc⟩
  · exact Or.inl ⟨hq, hi.steady⟩
  · exact Or.inr ⟨hq, c :: cs, List.cons_ne_nil c cs, hc⟩

end OutStream
