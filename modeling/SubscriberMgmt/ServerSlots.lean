import SubscriberMgmt.Lib.Machine
import Mathlib.Data.List.Perm.Basic

/-!
# The slots of the clients (`server.c:274-278`, `server.c:331-356`)

The accept loop takes a slot from a semaphore for each connection and starts a thread
with it. The thread gives the slot back as its last act, and the loop does when the
thread cannot be started.
-/

namespace SubscriberMgmt

def smSrvMaxClients : ℕ := 10

/-! ### The accept loop and its threads -/

/-- Where `main` is: at the loop condition, in `accept`, in `sem_wait`, before `malloc`,
before `pthread_create`, or behind the loop. -/
inductive AcceptPoint where
  | condition
  | accepting
  | waiting (clientFd : ℕ)
  | allocating (clientFd : ℕ)
  | creating (clientFd : ℕ)
  | left
  deriving DecidableEq

def AcceptPoint.clientFd : AcceptPoint → List ℕ
  | .waiting fd => [fd]
  | .allocating fd => [fd]
  | .creating fd => [fd]
  | _ => []

def AcceptPoint.between (p : AcceptPoint) : Bool := p.clientFd.isEmpty

/-- `main` is behind the wait, and owes its slot to a thread or to the semaphore. -/
def AcceptPoint.slot : AcceptPoint → ℕ
  | .allocating _ => 1
  | .creating _ => 1
  | _ => 0

theorem AcceptPoint.slot_between {p : AcceptPoint} (h : p.between = true) : p.slot = 0 := by
  cases p with
  | allocating fd => cases h
  | creating fd => cases h
  | _ => rfl

/-- `slots` is the value of `g_client_slots`; the threads are known by the `fd` of their
connection, and run until they have given their slot back. -/
structure SlotState where
  shutdown : Bool
  slots : ℕ
  point : AcceptPoint
  threads : List ℕ
  openFds : List ℕ

def SlotState.start : SlotState := ⟨false, smSrvMaxClients, .condition, [], []⟩

inductive AcceptOutcome where
  | connection (fd : ℕ)
  | interrupted
  | failed

/-- The outcome of the call that `main` is in, a signal that no call of `main` notices,
or the end of a client. -/
inductive SlotOp where
  | test
  | accept (o : AcceptOutcome)
  | semWait (interrupted : Bool)
  | malloc (ok : Bool)
  | pthreadCreate (ok : Bool)
  | signal
  | clientEnds (fd : ℕ)

/-- `sem_wait` returned without a slot. -/
inductive SlotEvent where
  | noSlot
  deriving DecidableEq

/-- `close(client_fd); sem_post(&g_client_slots);` -/
def SlotState.giveBack (s : SlotState) (fd : ℕ) : SlotState :=
  { s with slots := s.slots + 1, openFds := s.openFds.erase fd }

/-- The handlers of both signals that are caught set `g_srv_shutdown`. A call that
`main` is not in, a `sem_wait` without a slot and the end of a thread that does not
run do not happen. -/
def slotStep (s : SlotState) : SlotOp → SlotState × List SlotEvent
  | .test =>
    match s.point with
    | .condition => ({ s with point := if s.shutdown then .left else .accepting }, [])
    | _ => (s, [])
  | .accept o =>
    match s.point, o with
    | .accepting, .connection fd =>
      ({ s with point := .waiting fd, openFds := fd :: s.openFds }, [])
    | .accepting, .interrupted => ({ s with point := .condition, shutdown := true }, [])
    | .accepting, .failed => ({ s with point := .left }, [])
    | _, _ => (s, [])
  | .semWait interrupted =>
    match s.point, interrupted with
    -- the result of the wait is not looked at
    | .waiting fd, true => ({ s with point := .allocating fd, shutdown := true }, [.noSlot])
    | .waiting fd, false =>
      if 0 < s.slots then ({ s with point := .allocating fd, slots := s.slots - 1 }, [])
      else (s, [])
    | _, _ => (s, [])
  | .malloc ok =>
    match s.point, ok with
    | .allocating fd, true => ({ s with point := .creating fd }, [])
    | .allocating fd, false => ({ s.giveBack fd with point := .condition }, [])
    | _, _ => (s, [])
  | .pthreadCreate ok =>
    match s.point, ok with
    | .creating fd, true => ({ s with point := .condition, threads := fd :: s.threads }, [])
    | .creating fd, false => ({ s.giveBack fd with point := .condition }, [])
    | _, _ => (s, [])
  | .signal => ({ s with shutdown := true }, [])
  | .clientEnds fd =>
    if fd ∈ s.threads then ({ s.giveBack fd with threads := s.threads.erase fd }, [])
    else (s, [])

/-- What a step can do: nothing, move `main` without a slot or a connection, take a
connection or a slot, go on without one, give both back, start a thread, end one. -/
inductive SlotCase (s : SlotState) : SlotState × List SlotEvent → Prop
  | same : SlotCase s (s, [])
  | moves (p : AcceptPoint) (b : Bool) (hslot : p.slot = s.point.slot)
      (hfd : p.clientFd = s.point.clientFd) : SlotCase s ({ s with point := p, shutdown := b }, [])
  | connects (fd : ℕ) (hp : s.point = .accepting) :
      SlotCase s ({ s with point := .waiting fd, openFds := fd :: s.openFds }, [])
  | takes (fd : ℕ) (hp : s.point = .waiting fd) (hslots : 0 < s.slots) :
      SlotCase s ({ s with point := .allocating fd, slots := s.slots - 1 }, [])
  | goesOn (fd : ℕ) (hp : s.point = .waiting fd) :
      SlotCase s ({ s with point := .allocating fd, shutdown := true }, [.noSlot])
  | givesBack (fd : ℕ) (hslot : s.point.slot = 1) (hfd : s.point.clientFd = [fd]) :
      SlotCase s ({ s.giveBack fd with point := .condition }, [])
  | starts (fd : ℕ) (hp : s.point = .creating fd) :
      SlotCase s ({ s with point := .condition, threads := fd :: s.threads }, [])
  | ends (fd : ℕ) (hfd : fd ∈ s.threads) :
      SlotCase s ({ s.giveBack fd with threads := s.threads.erase fd }, [])

theorem slotStep_cases (s : SlotState) (op : SlotOp) : SlotCase s (slotStep s op) := by
  obtain ⟨shutdown, slots, point, threads, openFds⟩ := s
  cases op with
  | signal => exact .moves point true rfl rfl
  | clientEnds fd =>
    by_cases hfd : fd ∈ threads
    · simp only [slotStep, hfd, if_true]
      exact .ends fd hfd
    · simp only [slotStep, hfd, if_false]
      exact .same
  | test =>
    cases point with
    | condition => cases shutdown <;> exact .moves _ _ rfl rfl
    | _ => exact .same
  | accept o =>
    cases point with
    | accepting =>
      cases o with
      | connection fd => exact .connects fd rfl
      | interrupted => exact .moves _ _ rfl rfl
      | failed => exact .moves _ _ rfl rfl
    | _ => exact .same
  | semWait interrupted =>
    cases point with
    | waiting fd =>
      cases interrupted with
      | true => exact .goesOn fd rfl
      | false =>
        by_cases hslots : 0 < slots
        · simp only [slotStep, hslots, if_true]
          exact .takes fd rfl hslots
        · simp only [slotStep, hslots, if_false]
          exact .same
    | _ => exact .same
  | malloc ok =>
    cases point with
    | allocating fd =>
      cases ok with
      | true => exact .moves _ _ rfl rfl
      | false => exact .givesBack fd rfl rfl
    | _ => exact .same
  | pthreadCreate ok =>
    cases point with
    | creating fd =>
      cases ok with
      | true => exact .starts fd rfl
      | false => exact .givesBack fd rfl rfl
    | _ => exact .same

/-! ### The law of the slots -/

/-- Slots, threads and what `main` owes are the slots of the start and one more for each
wait that returned without one; and each open connection is in one pair of hands. -/
structure SlotInv (s : SlotState) (log : List SlotEvent) : Prop where
  law : s.slots + s.threads.length + s.point.slot = smSrvMaxClients + log.length
  fds : s.openFds.Perm (s.point.clientFd ++ s.threads)

theorem SlotInv.start : SlotInv .start [] := ⟨rfl, .nil⟩

theorem SlotInv.step {s : SlotState} {log : List SlotEvent} (h : SlotInv s log) (op : SlotOp) :
    SlotInv (slotStep s op).1 (log ++ (slotStep s op).2) := by
  obtain ⟨hlaw, hfds⟩ := h
  have hcase := slotStep_cases s op
  generalize slotStep s op = r at hcase ⊢
  cases hcase with
  | same => exact ⟨by simpa using hlaw, hfds⟩
  | moves p b hslot hfd =>
    rw [← hslot] at hlaw
    rw [← hfd] at hfds
    exact ⟨by simpa using hlaw, hfds⟩
  | connects fd hp =>
    rw [hp] at hlaw hfds
    exact ⟨by simpa [AcceptPoint.slot] using hlaw, hfds.cons fd⟩
  | takes fd hp hslots =>
    rw [hp] at hlaw hfds
    refine ⟨?_, hfds⟩
    simp only [AcceptPoint.slot, List.append_nil] at hlaw ⊢
    omega
  | goesOn fd hp =>
    rw [hp] at hlaw hfds
    refine ⟨?_, hfds⟩
    simp only [AcceptPoint.slot, List.length_append, List.length_singleton] at hlaw ⊢
    omega
  | givesBack fd hslot hfd =>
    rw [hslot] at hlaw
    rw [hfd] at hfds
    constructor
    · simp only [SlotState.giveBack, AcceptPoint.slot, List.append_nil]
      omega
    · have herase := hfds.erase fd
      rwa [List.singleton_append, List.erase_cons_head] at herase
  | starts fd hp =>
    rw [hp] at hlaw hfds
    refine ⟨?_, hfds⟩
    simp only [AcceptPoint.slot, List.length_cons, List.append_nil] at hlaw ⊢
    omega
  | ends fd hfd =>
    constructor
    · have hlen := List.length_erase_of_mem hfd
      have hpos := List.length_pos_of_mem hfd
      simp only [SlotState.giveBack, List.append_nil]
      omega
    · have herase := (hfds.trans List.perm_append_comm).erase fd
      rw [List.erase_append_left _ hfd] at herase
      exact herase.trans List.perm_append_comm

theorem slotRun_inv (ops : List SlotOp) :
    SlotInv (Machine.final slotStep .start ops)
      (Machine.outputs slotStep .start ops).flatten := by
  have hstep : ∀ s log op, SlotInv s log → True →
      SlotInv (slotStep s op).1 (log ++ (slotStep s op).2) := fun _ _ op h _ => h.step op
  have hall : Machine.Along slotStep (fun _ _ => True) .start ops :=
    .of_forall (fun _ _ _ => trivial) _
  exact Machine.along_invariant hstep SlotInv.start hall

theorem openFds_between (ops : List SlotOp) :
    let s := Machine.final slotStep .start ops
    s.point.between = true → s.openFds.Perm s.threads := by
  intro s hbetween
  have hfds := (slotRun_inv ops).fds
  rwa [show s.point.clientFd = [] from List.isEmpty_iff.mp hbetween] at hfds

/-- The waits of the run that returned without a slot. -/
def slotsMissed (ops : List SlotOp) : ℕ := (Machine.outputs slotStep .start ops).flatten.length

/-- In a run in which no wait returns without a slot there are never more threads than
slots, and between connections slots and threads make up the maximum; a wait that
returns without one unbalances them for good. The open descriptors are those of the
threads. -/
theorem client_slots_conserved_iff (ops : List SlotOp) :
    let s := Machine.final slotStep .start ops
    (slotsMissed ops = 0 → s.threads.length ≤ smSrvMaxClients) ∧
      (s.point.between = true →
        (s.slots + s.threads.length = smSrvMaxClients ↔ slotsMissed ops = 0) ∧
          s.openFds.Perm s.threads) := by
  intro s
  have hlaw := (slotRun_inv ops).law
  change s.slots + s.threads.length + s.point.slot = smSrvMaxClients + slotsMissed ops at hlaw
  refine ⟨fun hnone => by omega, fun hbetween => ?_⟩
  rw [AcceptPoint.slot_between hbetween] at hlaw
  exact ⟨by omega, openFds_between ops hbetween⟩

/-- A connection whose slot the wait takes or does not. -/
def serveClient (interrupted : Bool) (fd : ℕ) : List SlotOp :=
  [.test, .accept (.connection fd), .semWait interrupted, .malloc true, .pthreadCreate true]

set_option maxRecDepth 2048 in
/-- With ten clients a signal ends the wait for a slot, and the eleventh thread starts. -/
theorem eleven_clients :
    let ops := (List.range 10).flatMap (serveClient false) ++ serveClient true 10
    let s := Machine.final slotStep .start ops
    s.threads.length = 11 ∧ s.point.between = true ∧
      s.slots + s.threads.length ≠ smSrvMaxClients ∧ slotsMissed ops = 1 := by
  refine ⟨rfl, rfl, ?_, rfl⟩
  show 0 + 11 ≠ smSrvMaxClients
  decide

end SubscriberMgmt
