import SubscriberMgmt.Common
import SubscriberMgmt.Lib.CText

/-!
# The lines of a connection (`server.c:94-109`, `server.c:224-233`)

One buffer serves all lines of a connection. What it holds before a line is
read matters when the line is not terminated again.
-/

namespace SubscriberMgmt
open CText

def smSrvLineMax : ℕ := 1024

structure LineBuffer where
  bytes : Str
  size : bytes.length = smSrvLineMax

def LineBuffer.store (out : LineBuffer) (i : ℕ) (c : UInt8) : LineBuffer :=
  ⟨out.bytes.set i c, by rw [List.length_set, out.size]⟩

inductive RecvEnd where
  | eof
  | error
  deriving DecidableEq

/-- The loop of `conn_recv_line` with `i` bytes stored: the value returned, the
buffer and the rest of the stream. At the end of the stream nothing is stored
after the last byte. -/
def recvLoop (last : RecvEnd) : Str → LineBuffer → ℕ → ℤ × LineBuffer × Str
  | [], out, i =>
    match last with
    | .eof => (if i = 0 then 0 else i, out, [])
    | .error => (-1, out, [])
  | ch :: s, out, i =>
    if ch = newline then (i, out.store i 0, s)
    else if ch ≠ carriageReturn ∧ i + 1 < smSrvLineMax then
      recvLoop last s (out.store i ch) (i + 1)
    else recvLoop last s out i

def connRecvLine (last : RecvEnd) (s : Str) (out : LineBuffer) : ℤ × LineBuffer × Str :=
  recvLoop last s out 0

theorem recvLoop_length (last : RecvEnd) (s : Str) (out : LineBuffer) (i : ℕ) :
    (recvLoop last s out i).2.2.length ≤ s.length - 1 := by
  induction s generalizing out i with
  | nil => cases last <;> simp [recvLoop]
  | cons ch s ih =>
    simp only [recvLoop]
    split
    · simp
    · split
      · exact Nat.le_trans (ih _ _) (by simp only [List.length_cons]; omega)
      · exact Nat.le_trans (ih _ _) (by simp only [List.length_cons]; omega)

theorem connRecvLine_rest_lt {last : RecvEnd} {s : Str} {out : LineBuffer}
    (h : 0 < (connRecvLine last s out).1) : (connRecvLine last s out).2.2.length < s.length := by
  cases s with
  | nil => cases last <;> simp [connRecvLine, recvLoop] at h
  | cons ch s =>
    have hle := recvLoop_length last (ch :: s) out 0
    simp only [connRecvLine, List.length_cons] at hle ⊢
    omega

/-- `sscanf(line, "%15s%n", cmd, &consumed)`: the command word and the rest. -/
def commandWord (line : Str) : Option (Str × Str) := scanWord 15 line

def isQuit (line : Str) : Bool :=
  match commandWord line with
  | some (cmd, _) => cmd = lit "QUIT"
  | none => false

/-- The strings that `client_thread` parses, in order. `beyond` is the memory
after the buffer, which a string without a NUL runs into. -/
def clientCommands (last : RecvEnd) (beyond : Str) (s : Str) (line : LineBuffer) : List Str :=
  let r := connRecvLine last s line
  if h : 0 < r.1 then
    let cmd := cString (r.2.1.bytes ++ beyond)
    have : r.2.2.length < s.length := connRecvLine_rest_lt h
    cmd :: if isQuit cmd then [] else clientCommands last beyond r.2.2 r.2.1
  else []
termination_by s.length

/-! ### One line -/

/-- The bytes of a line that are kept: no carriage returns, cut to the buffer. -/
def lineText (l : Str) : Str := (l.filter (· != carriageReturn)).take (smSrvLineMax - 1)

theorem lineText_length (l : Str) : (lineText l).length < smSrvLineMax := by
  simp only [lineText, List.length_take, smSrvLineMax]
  omega

theorem lineText_mem {l : Str} {c : UInt8} (h : c ∈ lineText l) : c ∈ l :=
  List.mem_of_mem_filter (List.mem_of_mem_take h)

/-- The loop over bytes that do not end a line. -/
theorem recvLoop_append (last : RecvEnd) {l : Str} (hl : newline ∉ l) (s : Str)
    (out : LineBuffer) {i : ℕ} (hi : i < smSrvLineMax) :
    let t := (out.bytes.take i ++ l.filter (· != carriageReturn)).take (smSrvLineMax - 1)
    ∃ out' : LineBuffer, out'.bytes = t ++ out.bytes.drop t.length ∧
      recvLoop last (l ++ s) out i = recvLoop last s out' t.length := by
  induction l generalizing out i with
  | nil =>
    have hlen : (out.bytes.take i).length = i := by
      rw [List.length_take, out.size]
      omega
    have ht : (out.bytes.take i ++ []).take (smSrvLineMax - 1) = out.bytes.take i := by
      rw [List.append_nil, List.take_of_length_le (by omega)]
    simp only [List.filter_nil, ht, hlen, List.nil_append]
    exact ⟨out, (List.take_append_drop i out.bytes).symm, rfl⟩
  | cons c l ih =>
    simp only [List.mem_cons, not_or] at hl
    have hlen : (out.bytes.take i).length = i := by
      rw [List.length_take, out.size]
      omega
    simp only [List.cons_append, recvLoop, if_neg (Ne.symm hl.1)]
    by_cases hc : c = carriageReturn
    · have hf : (c :: l).filter (· != carriageReturn) = l.filter (· != carriageReturn) := by
        simp [hc]
      rw [hf, if_neg fun h => h.1 hc]
      exact ih hl.2 out hi
    · have hf : (c :: l).filter (· != carriageReturn) = c :: l.filter (· != carriageReturn) := by
        simp [hc]
      by_cases hroom : i + 1 < smSrvLineMax
      · -- the byte is stored, and everything up to it stays as it is
        have htake : (out.store i c).bytes.take (i + 1) = out.bytes.take i ++ [c] := by
          rw [LineBuffer.store, List.take_set, List.take_add_one,
            List.getElem?_eq_getElem (by rw [out.size]; omega), Option.toList_some,
            List.set_append_right _ _ (by omega), hlen, Nat.sub_self, List.set_cons_zero]
        obtain ⟨out', hout, hrun⟩ := ih hl.2 (out.store i c) hroom
        rw [htake, List.append_assoc, List.singleton_append] at hout hrun
        rw [hf, if_pos ⟨hc, hroom⟩]
        refine ⟨out', ?_, hrun⟩
        rw [hout, LineBuffer.store, List.drop_set_of_lt]
        simp only [List.length_take, List.length_append, List.length_cons, hlen]
        omega
      · -- the buffer is full, the byte is dropped
        have hfull : ∀ m, (out.bytes.take i ++ m).take (smSrvLineMax - 1) = out.bytes.take i := by
          intro m
          have hmax : smSrvLineMax - 1 = i := by omega
          rw [hmax, List.take_append_of_le_length (by omega), List.take_take, Nat.min_self]
        obtain ⟨out', hout, hrun⟩ := ih hl.2 out hi
        rw [hfull] at hout hrun
        rw [hf, if_neg fun h => hroom h.2, hfull]
        exact ⟨out', hout, hrun⟩

theorem connRecvLine_line (last : RecvEnd) {l : Str} (hl : newline ∉ l) (rest : Str)
    (out : LineBuffer) :
    let r := connRecvLine last (l ++ newline :: rest) out
    r.1 = (lineText l).length ∧ r.2.2 = rest ∧
      r.2.1.bytes = lineText l ++ 0 :: out.bytes.drop ((lineText l).length + 1) := by
  obtain ⟨out', hout, hrun⟩ := recvLoop_append last hl (newline :: rest) out (i := 0) (by decide)
  rw [List.take_zero, List.nil_append] at hout hrun
  have hlen : (lineText l).length < out.bytes.length := by
    rw [out.size]
    exact lineText_length l
  have hcons : out'.bytes = lineText l ++
      out.bytes[(lineText l).length] :: out.bytes.drop ((lineText l).length + 1) := by
    rw [List.getElem_cons_drop]
    exact hout
  simp only [connRecvLine, hrun, recvLoop, if_true, LineBuffer.store]
  refine ⟨rfl, trivial, ?_⟩
  show out'.bytes.set (lineText l).length 0 = _
  rw [hcons, List.set_append_right _ _ (Nat.le_refl _), Nat.sub_self, List.set_cons_zero]

theorem connRecvLine_eof {l : Str} (hl : newline ∉ l) (out : LineBuffer) :
    let r := connRecvLine .eof l out
    r.1 = (lineText l).length ∧ r.2.2 = [] ∧
      r.2.1.bytes = lineText l ++ out.bytes.drop (lineText l).length := by
  obtain ⟨out', hout, hrun⟩ := recvLoop_append .eof hl [] out (i := 0) (by decide)
  rw [List.take_zero, List.nil_append] at hout hrun
  rw [List.append_nil] at hrun
  simp only [connRecvLine, hrun, recvLoop]
  refine ⟨?_, trivial, hout⟩
  split
  · rename_i h
    exact (congrArg Nat.cast h).symm
  · rfl

theorem connRecvLine_error {l : Str} (hl : newline ∉ l) (out : LineBuffer) :
    (connRecvLine .error l out).1 = -1 := by
  obtain ⟨out', -, hrun⟩ := recvLoop_append .error hl [] out (i := 0) (by decide)
  rw [List.take_zero, List.nil_append, List.append_nil] at hrun
  simp only [connRecvLine, hrun, recvLoop]

/-! ### The strings of a connection -/

theorem cString_append_zero {t : Str} (ht : (0 : UInt8) ∉ t) (rest : Str) :
    cString (t ++ 0 :: rest) = t := by
  rw [cString, List.takeWhile_append_of_pos fun c hc => by
    simpa using ne_of_mem_of_not_mem hc ht]
  simp

theorem cString_append_nul (t rest : Str) : cString (t ++ 0 :: rest) = cString t := by
  rw [cString, List.takeWhile_append]
  split
  case isTrue h =>
    have hall : t.takeWhile (· != 0) = t := (List.takeWhile_prefix _).eq_of_length h
    simp [cString, hall]
  case isFalse => rfl

theorem cString_append_iff {t : Str} (ht : (0 : UInt8) ∉ t) (c : UInt8) (rest : Str) :
    cString (t ++ c :: rest) = t ↔ c = 0 := by
  constructor
  · intro h
    by_contra hc
    have hlen := congrArg List.length h
    rw [cString, List.takeWhile_append_of_pos fun c hc => by
      simpa using ne_of_mem_of_not_mem hc ht] at hlen
    simp [hc] at hlen
  · intro he
    subst he
    exact cString_append_zero ht rest

/-- The string that a terminated line leaves in the buffer. -/
theorem connRecvLine_command (last : RecvEnd) {l : Str} (hl : newline ∉ l) (rest : Str)
    (out : LineBuffer) (beyond : Str) :
    cString ((connRecvLine last (l ++ newline :: rest) out).2.1.bytes ++ beyond) =
      cString (lineText l) := by
  rw [(connRecvLine_line last hl rest out).2.2, List.append_assoc]
  exact cString_append_nul _ _

/-- The lines of a stream that end with a newline, and what follows the last
newline. -/
def splitLines : Str → List Str × Str
  | [] => ([], [])
  | c :: s =>
    let r := splitLines s
    if c = newline then ([] :: r.1, r.2)
    else
      match r.1 with
      | [] => ([], c :: r.2)
      | l :: ls => ((c :: l) :: ls, r.2)

theorem splitLines_join (s : Str) :
    s = (splitLines s).1.flatMap (· ++ [newline]) ++ (splitLines s).2 := by
  induction s with
  | nil => rfl
  | cons c s ih =>
    simp only [splitLines]
    split
    · rename_i h
      simp only [List.flatMap_cons, List.nil_append, List.cons_append, h]
      rw [← ih]
    · rcases hr : splitLines s with ⟨_ | ⟨l, ls⟩, frag⟩
      · rw [hr] at ih
        simpa using ih
      · rw [hr] at ih
        simpa using ih

theorem splitLines_no_newline (s : Str) :
    (∀ l ∈ (splitLines s).1, newline ∉ l) ∧ newline ∉ (splitLines s).2 := by
  induction s with
  | nil => simp [splitLines]
  | cons c s ih =>
    simp only [splitLines]
    split
    · simpa using ih
    · rename_i hc
      rcases hr : splitLines s with ⟨_ | ⟨l, ls⟩, frag⟩
      · rw [hr] at ih
        simpa [Ne.symm hc] using ih
      · rw [hr] at ih
        simpa [Ne.symm hc] using ih

def streamLines (s : Str) : List Str :=
  let r := splitLines s
  if r.2.isEmpty then r.1 else r.1 ++ [r.2]

def EndsLoop (t : Str) : Prop := t = [] ∨ isQuit t = true

/-- Byte `i` of the buffer is NUL after the texts, latest first: the last one
that reaches that far ends there. -/
def NulAt (line : LineBuffer) (i : ℕ) : List Str → Prop
  | [] => line.bytes[i]? = some 0
  | t :: ts => t.length = i ∨ (t.length < i ∧ NulAt line i ts)

theorem nulAt_append {line line' : LineBuffer} {t : Str} (ht : (0 : UInt8) ∉ t)
    (hline : line'.bytes = t ++ 0 :: line.bytes.drop (t.length + 1)) (i : ℕ) (ts : List Str) :
    NulAt line' i ts ↔ NulAt line i (ts ++ [t]) := by
  induction ts with
  | nil =>
    simp only [NulAt, List.nil_append, hline]
    rcases Nat.lt_trichotomy i t.length with h | h | h
    · rw [List.getElem?_append_left h, List.getElem?_eq_getElem h]
      refine iff_of_false (fun he => ht ?_) (by omega)
      rw [← Option.some.inj he]
      exact List.getElem_mem h
    · rw [h, List.getElem?_append_right (Nat.le_refl _), Nat.sub_self]
      simp
    · obtain ⟨k, rfl⟩ : ∃ k, i = t.length + 1 + k := ⟨i - (t.length + 1), by omega⟩
      have hk : t.length + 1 + k - t.length = k + 1 := by omega
      rw [List.getElem?_append_right (by omega), hk, List.getElem?_cons_succ, List.getElem?_drop]
      constructor
      · exact fun he => Or.inr ⟨h, he⟩
      · intro h
        obtain he | he := h
        · omega
        · exact he.2
  | cons u ts ih => simp only [NulAt, List.cons_append, ih]

section Run

variable {last : RecvEnd} {beyond : Str} {line : LineBuffer}

theorem clientCommands_stop {s : Str} (h : ¬ 0 < (connRecvLine last s line).1) :
    clientCommands last beyond s line = [] := by
  rw [clientCommands]
  simp only [h, dite_false]

theorem clientCommands_go {s : Str} (h : 0 < (connRecvLine last s line).1) :
    clientCommands last beyond s line =
      cString ((connRecvLine last s line).2.1.bytes ++ beyond) ::
        if isQuit (cString ((connRecvLine last s line).2.1.bytes ++ beyond)) then []
        else clientCommands last beyond (connRecvLine last s line).2.2
          (connRecvLine last s line).2.1 := by
  rw [clientCommands]
  simp only [h, dite_true]

theorem clientCommands_nil : clientCommands last beyond [] line = [] := by
  apply clientCommands_stop
  cases last <;> simp [connRecvLine, recvLoop]

theorem clientCommands_line {l : Str} (hl : newline ∉ l) (hz : (0 : UInt8) ∉ l) (rest : Str) :
    ∃ line' : LineBuffer,
      line'.bytes = lineText l ++ 0 :: line.bytes.drop ((lineText l).length + 1) ∧
      (EndsLoop (lineText l) ∧ clientCommands last beyond (l ++ newline :: rest) line <+:
          [lineText l] ∨
        ¬ EndsLoop (lineText l) ∧ clientCommands last beyond (l ++ newline :: rest) line =
          lineText l :: clientCommands last beyond rest line') := by
  obtain ⟨hn, hrest, hbytes⟩ := connRecvLine_line last hl rest line
  have hzt : (0 : UInt8) ∉ lineText l := fun h => hz (lineText_mem h)
  have hcmd := connRecvLine_command last hl rest line beyond
  rw [← cString_append_nul (lineText l) [], cString_append_zero hzt] at hcmd
  refine ⟨_, hbytes, ?_⟩
  by_cases hemp : lineText l = []
  · refine Or.inl ⟨Or.inl hemp, ?_⟩
    rw [clientCommands_stop (by rw [hn, hemp]; simp)]
    exact List.nil_prefix
  · have hpos : 0 < (connRecvLine last (l ++ newline :: rest) line).1 := by
      rw [hn]
      exact Int.natCast_pos.mpr (List.length_pos_iff.mpr hemp)
    rw [clientCommands_go hpos, hcmd, hrest]
    cases hq : isQuit (lineText l) with
    | true => exact Or.inl ⟨Or.inr hq, by simp⟩
    | false =>
      refine Or.inr ⟨?_, by simp⟩
      intro h
      obtain h | h := h
      · exact hemp h
      · exact Bool.false_ne_true (hq.symm.trans h)

theorem clientCommands_fragment {l : Str} (hl : newline ∉ l) (hz : (0 : UInt8) ∉ l) :
    clientCommands last beyond l line <+: (if l.isEmpty then [] else [lineText l]) ↔
      last = .error ∨ lineText l = [] ∨ NulAt line (lineText l).length [] := by
  have hzt : (0 : UInt8) ∉ lineText l := fun h => hz (lineText_mem h)
  cases last with
  | error =>
    refine iff_of_true ?_ (Or.inl rfl)
    rw [clientCommands_stop (by rw [connRecvLine_error hl]; decide)]
    exact List.nil_prefix
  | eof =>
    obtain ⟨hn, hrest, hbytes⟩ := connRecvLine_eof hl line
    by_cases hemp : lineText l = []
    · refine iff_of_true ?_ (Or.inr (Or.inl hemp))
      rw [clientCommands_stop (by rw [hn, hemp]; simp)]
      exact List.nil_prefix
    · have hpos : 0 < (connRecvLine .eof l line).1 := by
        rw [hn]
        exact Int.natCast_pos.mpr (List.length_pos_iff.mpr hemp)
      have hne : l.isEmpty = false := by
        cases l with
        | nil => exact absurd rfl hemp
        | cons => rfl
      have hlen : (lineText l).length < line.bytes.length := by
        rw [line.size]
        exact lineText_length l
      have hone : ∀ c : Str, (c :: if isQuit c then []
          else clientCommands .eof beyond [] (connRecvLine .eof l line).2.1) = [c] := by
        intro c
        rw [clientCommands_nil, ite_self]
      rw [clientCommands_go hpos, hrest, hone, hbytes, List.append_assoc,
        ← List.getElem_cons_drop hlen, List.cons_append, hne]
      simp only [Bool.false_eq_true, if_false, List.cons_prefix_cons, List.prefix_rfl, and_true,
        cString_append_iff hzt, NulAt, List.getElem?_eq_getElem hlen, hemp, false_or,
        Option.some.injEq, reduceCtorEq]

theorem clientCommands_lines {ls : List Str} {frag : Str}
    (hls : ∀ l ∈ ls, newline ∉ l ∧ (0 : UInt8) ∉ l) (hnl : newline ∉ frag)
    (hz : (0 : UInt8) ∉ frag) :
    clientCommands last beyond (ls.flatMap (· ++ [newline]) ++ frag) line <+:
        ls.map lineText ++ (if frag.isEmpty then [] else [lineText frag]) ↔
      last = .error ∨ lineText frag = [] ∨ (∃ l ∈ ls, EndsLoop (lineText l)) ∨
        NulAt line (lineText frag).length (ls.reverse.map lineText) := by
  induction ls generalizing line with
  | nil =>
    rw [List.map_nil, List.nil_append, List.flatMap_nil, List.nil_append,
      clientCommands_fragment hnl hz]
    simp
  | cons l ls ih =>
    obtain ⟨hl, hzl⟩ := hls l (List.mem_cons_self ..)
    have hrec := fun line' => @ih line' fun x hx => hls x (List.mem_cons_of_mem _ hx)
    obtain ⟨line', hbytes, hcase⟩ := @clientCommands_line last beyond line _ hl hzl
      (ls.flatMap (· ++ [newline]) ++ frag)
    have hzt : (0 : UInt8) ∉ lineText l := fun h => hzl (lineText_mem h)
    simp only [List.flatMap_cons, List.append_assoc, List.cons_append, List.nil_append,
      List.map_cons, List.reverse_cons, List.map_append, List.map_nil]
    rw [← nulAt_append hzt hbytes]
    rcases hcase with ⟨hend, hpre⟩ | ⟨hend, heq⟩
    · refine iff_of_true (hpre.trans ?_) ?_
      · simp
      · exact Or.inr (Or.inr (Or.inl ⟨l, List.mem_cons_self .., hend⟩))
    · rw [heq, List.cons_prefix_cons, hrec line']
      simp [hend]

end Run

/-- The commands of a connection are its lines unless the stream ends within a
line that finds another byte than NUL behind its end in the buffer. -/
theorem commands_are_lines_iff (last : RecvEnd) (beyond : Str) (line : LineBuffer) (s : Str)
    (hz : (0 : UInt8) ∉ s) :
    clientCommands last beyond s line <+: (streamLines s).map lineText ↔
      last = .error ∨ lineText (splitLines s).2 = [] ∨
        (∃ l ∈ (splitLines s).1, EndsLoop (lineText l)) ∨
        NulAt line (lineText (splitLines s).2).length ((splitLines s).1.reverse.map lineText) := by
  have hjoin := splitLines_join s
  obtain ⟨hls, hfrag⟩ := splitLines_no_newline s
  have hsub : ∀ c, c ∈ (splitLines s).1.flatMap (· ++ [newline]) ++ (splitLines s).2 → c ∈ s :=
    fun c hc => by rwa [← hjoin] at hc
  have hzls : ∀ l ∈ (splitLines s).1, newline ∉ l ∧ (0 : UInt8) ∉ l := by
    refine fun l hl => ⟨hls l hl, fun h => hz (hsub 0 ?_)⟩
    exact List.mem_append_left _ (List.mem_flatMap.mpr ⟨l, hl, List.mem_append_left _ h⟩)
  have hzfrag : (0 : UInt8) ∉ (splitLines s).2 := fun h => hz (hsub 0 (List.mem_append_right _ h))
  have hmain := @clientCommands_lines last beyond line _ _ hzls hfrag hzfrag
  rw [← hjoin] at hmain
  have hlines : (streamLines s).map lineText = (splitLines s).1.map lineText ++
      (if (splitLines s).2.isEmpty then [] else [lineText (splitLines s).2]) := by
    simp only [streamLines]
    split <;> simp
  rw [hlines]
  exact hmain

theorem commands_are_lines_list :
    let line : LineBuffer := ⟨List.replicate smSrvLineMax 0xAA, List.length_replicate⟩
    clientCommands .eof [] (lit "LOGIN a b\r\nLIST\n") line <+: [lit "LOGIN a b", lit "LIST"] := by
  intro line
  have h := (commands_are_lines_iff .eof [] line (lit "LOGIN a b\r\nLIST\n") (by decide)).mpr
    (Or.inr (Or.inl (by decide)))
  exact h

/-- `DELETE 1` without a newline after `SEARCH 12`: the command is
`DELETE 12`. -/
theorem command_from_two_lines :
    let line : LineBuffer := ⟨List.replicate smSrvLineMax 0, List.length_replicate⟩
    clientCommands .eof [] (lit "SEARCH 12\nDELETE 1") line =
        [lit "SEARCH 12", lit "DELETE 12"] ∧
      ¬ clientCommands .eof [] (lit "SEARCH 12\nDELETE 1") line <+:
        (streamLines (lit "SEARCH 12\nDELETE 1")).map lineText := by
  intro line
  constructor <;> decide +kernel

end SubscriberMgmt
