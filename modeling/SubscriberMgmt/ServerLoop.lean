import SubscriberMgmt.ServerLine

/-!
# The loop of a connection (`server.c:224-278`)

`conn_recv_line` returns 0 at the end of the stream and for an empty line, and the
loop ends on either. That a send to a closed peer may end the process (SIGPIPE) is
not modelled.
-/

namespace SubscriberMgmt
open CText

/-- How `client_thread` leaves its loop: on QUIT, or when `conn_recv_line` returns no
line from what is left of the stream. -/
inductive LoopExit where
  | quit
  | noLine (rest : Str)
  deriving DecidableEq

def clientExit (last : RecvEnd) (beyond : Str) (s : Str) (line : LineBuffer) : LoopExit :=
  let r := connRecvLine last s line
  if h : 0 < r.1 then
    have : r.2.2.length < s.length := connRecvLine_rest_lt h
    if isQuit (cString (r.2.1.bytes ++ beyond)) then .quit
    else clientExit last beyond r.2.2 r.2.1
  else .noLine s
termination_by s.length

/-- The client has left, or its stream is at an end. -/
def LoopExit.Left : LoopExit → Prop
  | .quit => True
  | .noLine rest => newline ∉ rest

/-- The strings of lines up to the first QUIT, empty lines skipped. -/
def upToQuit : List Str → List Str
  | [] => []
  | l :: ls =>
    if lineText l = [] then upToQuit ls
    else cString (lineText l) :: if isQuit (cString (lineText l)) then [] else upToQuit ls

/-- Every terminated line up to the first QUIT is handled, in order, and the loop ends
when the client leaves. What may follow is a line that the stream ends in. -/
structure ServedUntilLeft (last : RecvEnd) (beyond : Str) (line : LineBuffer) (s : Str) : Prop where
  served : ∃ tail, clientCommands last beyond s line = upToQuit (splitLines s).1 ++ tail ∧
    tail.length ≤ 1 ∧ ((upToQuit (splitLines s).1).any isQuit = true → tail = [])
  leaves : (clientExit last beyond s line).Left

/-- Some line before the first QUIT has no other characters than carriage returns. -/
def EmptyBeforeQuit : List Str → Prop
  | [] => False
  | l :: ls =>
    lineText l = [] ∨ isQuit (cString (lineText l)) = false ∧ EmptyBeforeQuit ls

section Run

variable {last : RecvEnd} {beyond : Str} {line : LineBuffer}

theorem clientExit_stop {s : Str} (h : ¬ 0 < (connRecvLine last s line).1) :
    clientExit last beyond s line = .noLine s := by
  rw [clientExit]
  simp only [h, dite_false]

theorem clientExit_go {s : Str} (h : 0 < (connRecvLine last s line).1) :
    clientExit last beyond s line =
      if isQuit (cString ((connRecvLine last s line).2.1.bytes ++ beyond)) then .quit
      else clientExit last beyond (connRecvLine last s line).2.2
        (connRecvLine last s line).2.1 := by
  rw [clientExit]
  simp only [h, dite_true]

/-- What one terminated line does to the commands and to the end of the loop. -/
theorem client_line {l : Str} (hl : newline ∉ l) (rest : Str) :
    (lineText l = [] ∧ clientCommands last beyond (l ++ newline :: rest) line = [] ∧
      clientExit last beyond (l ++ newline :: rest) line = .noLine (l ++ newline :: rest)) ∨
    (lineText l ≠ [] ∧ ∃ line' : LineBuffer,
      clientCommands last beyond (l ++ newline :: rest) line =
        cString (lineText l) :: (if isQuit (cString (lineText l)) then []
          else clientCommands last beyond rest line') ∧
      clientExit last beyond (l ++ newline :: rest) line =
        if isQuit (cString (lineText l)) then .quit else clientExit last beyond rest line') := by
  obtain ⟨hn, hrest, -⟩ := connRecvLine_line last hl rest line
  have hcmd := connRecvLine_command last hl rest line beyond
  by_cases hemp : lineText l = []
  · have hstop : ¬ 0 < (connRecvLine last (l ++ newline :: rest) line).1 := by
      rw [hn, hemp]
      simp
    exact Or.inl ⟨hemp, clientCommands_stop hstop, clientExit_stop hstop⟩
  · have hpos : 0 < (connRecvLine last (l ++ newline :: rest) line).1 := by
      rw [hn]
      exact Int.natCast_pos.mpr (List.length_pos_iff.mpr hemp)
    refine Or.inr ⟨hemp, (connRecvLine last (l ++ newline :: rest) line).2.1, ?_, ?_⟩
    · rw [clientCommands_go hpos, hcmd, hrest]
    · rw [clientExit_go hpos, hcmd, hrest]

theorem client_fragment {l : Str} (hl : newline ∉ l) :
    (clientCommands last beyond l line).length ≤ 1 ∧ (clientExit last beyond l line).Left := by
  by_cases hpos : 0 < (connRecvLine last l line).1
  · have hrest : (connRecvLine last l line).2.2 = [] := by
      cases last with
      | eof => exact (connRecvLine_eof hl line).2.1
      | error =>
        rw [connRecvLine_error hl line] at hpos
        exact absurd hpos (by decide)
    have hend : ∀ line' : LineBuffer, clientExit last beyond [] line' = .noLine [] := by
      intro line'
      apply clientExit_stop
      cases last <;> simp [connRecvLine, recvLoop]
    rw [clientCommands_go hpos, clientExit_go hpos, hrest, clientCommands_nil, hend]
    split
    · exact ⟨le_rfl, trivial⟩
    · exact ⟨le_rfl, List.not_mem_nil⟩
  · rw [clientCommands_stop hpos, clientExit_stop hpos]
    exact ⟨Nat.zero_le _, hl⟩

/-- Without empty lines before QUIT the loop goes through all lines. -/
theorem client_serves {ls : List Str} {frag : Str} (hls : ∀ l ∈ ls, newline ∉ l)
    (hfrag : newline ∉ frag) (hno : ¬ EmptyBeforeQuit ls) :
    (∃ tail, clientCommands last beyond (ls.flatMap (· ++ [newline]) ++ frag) line =
        upToQuit ls ++ tail ∧ tail.length ≤ 1 ∧ ((upToQuit ls).any isQuit = true → tail = [])) ∧
      (clientExit last beyond (ls.flatMap (· ++ [newline]) ++ frag) line).Left := by
  induction ls generalizing line with
  | nil =>
    obtain ⟨hshort, hleft⟩ := @client_fragment last beyond line frag hfrag
    exact ⟨⟨_, rfl, hshort, fun h => by cases h⟩, hleft⟩
  | cons l ls ih =>
    have hl := hls l (List.mem_cons_self ..)
    have hrec := fun line' => @ih line' fun x hx => hls x (List.mem_cons_of_mem _ hx)
    have hstep := @client_line last beyond line l hl (ls.flatMap (· ++ [newline]) ++ frag)
    simp only [EmptyBeforeQuit, not_or, not_and] at hno
    simp only [List.flatMap_cons, List.append_assoc, List.cons_append, List.nil_append]
    cases hstep with
    | inl h => exact absurd h.1 hno.1
    | inr h =>
      obtain ⟨hne, line', hcommands, hexit⟩ := h
      rw [hcommands, hexit, upToQuit, if_neg hne]
      cases hq : isQuit (cString (lineText l)) with
      | true =>
        simp only [if_true]
        exact ⟨⟨[], rfl, Nat.zero_le _, fun _ => rfl⟩, trivial⟩
      | false =>
        obtain ⟨⟨tail, hrun, hshort, hquit⟩, hleft⟩ := hrec line' (hno.2 hq)
        simp only [Bool.false_eq_true, if_false]
        refine ⟨⟨tail, by rw [hrun]; rfl, hshort, ?_⟩, hleft⟩
        simpa [hq] using hquit

/-- An empty line before QUIT ends the loop. -/
theorem client_ends {ls : List Str} (frag : Str) (hls : ∀ l ∈ ls, newline ∉ l)
    (hempty : EmptyBeforeQuit ls) :
    ¬ (clientExit last beyond (ls.flatMap (· ++ [newline]) ++ frag) line).Left := by
  induction ls generalizing line with
  | nil => exact hempty.elim
  | cons l ls ih =>
    have hl := hls l (List.mem_cons_self ..)
    have hrec := fun line' => @ih line' fun x hx => hls x (List.mem_cons_of_mem _ hx)
    have hstep := @client_line last beyond line l hl (ls.flatMap (· ++ [newline]) ++ frag)
    simp only [List.flatMap_cons, List.append_assoc, List.cons_append, List.nil_append]
    cases hstep with
    | inl h =>
      rw [h.2.2]
      exact fun hleft => hleft (by simp)
    | inr h =>
      obtain ⟨hne, line', -, hexit⟩ := h
      obtain ⟨hq, hrest⟩ := hempty.resolve_left hne
      rw [hexit, hq]
      exact hrec line' hrest

end Run

/-- A connection is served until the client leaves unless it sends an empty line before
its first QUIT. -/
theorem served_until_left_iff (last : RecvEnd) (beyond : Str) (line : LineBuffer) (s : Str) :
    ServedUntilLeft last beyond line s ↔ ¬ EmptyBeforeQuit (splitLines s).1 := by
  obtain ⟨hls, hfrag⟩ := splitLines_no_newline s
  have hjoin := splitLines_join s
  constructor
  · intro h hempty
    have hleaves := h.leaves
    rw [hjoin] at hleaves
    exact client_ends _ hls hempty hleaves
  · intro hno
    obtain ⟨hserved, hleft⟩ := @client_serves last beyond line _ _ hls hfrag hno
    rw [← hjoin] at hserved hleft
    exact ⟨hserved, hleft⟩

/-- After the empty line LIST is not read any more. -/
theorem empty_line_disconnects :
    let line : LineBuffer := ⟨List.replicate smSrvLineMax 0, List.length_replicate⟩
    clientCommands .eof [] (lit "LOGIN a b\n\r\nLIST\n") line = [lit "LOGIN a b"] ∧
      ¬ ServedUntilLeft .eof [] line (lit "LOGIN a b\n\r\nLIST\n") := by
  intro line
  refine ⟨by decide +kernel, fun h => ?_⟩
  have hexit : clientExit .eof [] (lit "LOGIN a b\n\r\nLIST\n") line =
      .noLine (lit "\r\nLIST\n") := by decide +kernel
  have hleaves := h.leaves
  rw [hexit] at hleaves
  exact hleaves (by decide)

end SubscriberMgmt
