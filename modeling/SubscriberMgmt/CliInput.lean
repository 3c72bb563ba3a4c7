import SubscriberMgmt.SubscriberCsv

/-!
# Typed input of the menu program (`main.c:97-150`)

Standard input is a string of bytes that ends; a read error is taken for its end.
-/

namespace SubscriberMgmt
open CText

/-- `getchar` up to a newline, which is read too, or to the end. -/
def drainLine (stdin : Str) : Str := (stdin.dropWhile (· != newline)).drop 1

/-- The line that is typed next, without its newline. -/
def typedLine (stdin : Str) : Str := stdin.takeWhile (· != newline)

/-- `read_line(buf, len)`: the string in the buffer and what is left to read. -/
def readLineFrom (len : ℕ) (stdin : Str) : Str × Str :=
  match stdin with
  | [] => ([], [])
  | _ =>
    let r := fgets (len - 1) stdin
    let buf := (cString r.1).takeWhile fun c => c != carriageReturn && c != newline
    if buf.length = len - 1 then (buf, drainLine r.2) else (buf, r.2)

/-- `strtol(raw, &end, 10)` with the test for `end == raw`. -/
def menuChoice (raw : Str) : ℤ :=
  match scanInt longMin longMax raw with
  | some (val, _) => val
  | none => -1

/-- `strtoull(raw, NULL, 10)` -/
def typedId (raw : Str) : UInt64 :=
  match scanUInt 64 raw with
  | some (val, _) => UInt64.ofNat val
  | none => 0

theorem fgets_takeWhile (room : ℕ) (s : Str) (q : UInt8 → Bool) (hq : q newline = false) :
    (fgets room s).1.takeWhile q = ((s.takeWhile (· != newline)).take room).takeWhile q := by
  fun_induction fgets room s with
  | case1 => simp
  | case2 => simp
  | case3 room s => simp [hq]
  | case4 room c s hc r ih =>
    have hc' : (c != newline) = true := by simpa using hc
    simp only [List.takeWhile_cons, hc', if_true, List.take_succ_cons]
    split
    · rw [ih]
    · rfl

end SubscriberMgmt
