import Kryos.Lib.Interleaving
import Mathlib.Data.Nat.Notation
import Mathlib.Tactic.SplitIfs

/-!
# Closing a channel

A channel is a queue behind a mutex, a condition variable `not_empty` and an atomic flag `closed`.
`kryos_chan_send` tests the flag before it takes the lock and `kryos_chan_close` sets it without
taking the lock at all, so neither is ordered against a critical section of the queue.

A state is the shared data and the control point of every call of `kryos_chan_send`,
`kryos_chan_recv` and `kryos_chan_close`; there may be any number of calls. An action is one atomic
load or store of the flag, one critical section, one park or one notification. A receiver holds the
lock from its test of the queue until it parks or returns, so it has a control point in between. A
parked receiver may also wake spuriously.

Two races follow. A sender that has found the channel open may push, and report success, after a
receiver has already reported closed and empty; and a receiver that has found the channel open may
park after `notify_all` was called, and then nobody wakes it.

## Main results

* `Channel.closing_is_clean` — in the runs that take neither race, both guarantees hold
* `Channel.closing_races` — each race breaks its guarantee
-/

namespace Kryos.Runtime.Channel

/-- The bytes of one message. -/
abbrev Message := List UInt8

/-- Where a call stands. -/
inductive Point where
  | idle
  /-- `kryos_chan_send` has found the channel open and is about to push -/
  | sending (data : Message)
  /-- the message is in the queue, `notify_one` still to come -/
  | pushed
  /-- `kryos_chan_send` returned 0 -/
  | sent
  /-- `kryos_chan_send` returned -1 -/
  | refused
  /-- `kryos_chan_recv` holds the lock, at the top of its loop -/
  | holding
  /-- `kryos_chan_recv` has found the queue empty and the channel open, and still holds the lock -/
  | parking
  /-- `kryos_chan_recv` waits on `not_empty` -/
  | parked
  /-- `kryos_chan_recv` is woken and has to take the lock again -/
  | woken
  /-- `kryos_chan_recv` returned the first `buf_len` bytes of a message -/
  | received (data : Message)
  /-- `kryos_chan_recv` returned 0: closed and empty -/
  | sawClosed
  /-- `kryos_chan_close` has set the flag, `notify_all` still to come -/
  | closing
  /-- `kryos_chan_close` returned -/
  | closeDone
  deriving DecidableEq, Repr

/-- The call has passed the test of `closed` in `kryos_chan_send` and has not pushed. -/
def Point.isSending : Point → Bool
  | .sending _ => true
  | _ => false

/-- The call has put its message into the queue. -/
def Point.hasPushed : Point → Bool
  | .pushed | .sent => true
  | _ => false

/-- The channel and the calls on it. -/
structure State where
  elemSize : ℕ
  queue : List Message
  lock : Option ℕ
  /-- the receivers in the wait queue of `not_empty` -/
  waiters : List ℕ
  closed : Bool
  call : ℕ → Point

/-- The atomic steps, with the call that takes them. -/
inductive Action where
  | sendTest (i : ℕ) (data : Message)
  | sendPush (i : ℕ)
  /-- `notify_one` by call `i`, which wakes receiver `j` if any is waiting -/
  | sendNotify (i j : ℕ)
  | recvLock (i : ℕ)
  | recvTest (i : ℕ) (bufLen : ℕ)
  | recvPark (i : ℕ)
  | recvSpurious (i : ℕ)
  | closeStore (i : ℕ)
  | closeNotify (i : ℕ)
  deriving DecidableEq, Repr

def enabled (s : State) : Action → Prop
  | .sendTest i _ => s.call i = .idle
  | .sendPush i => (s.call i).isSending ∧ s.lock = none
  | .sendNotify i j => s.call i = .pushed ∧ (j ∈ s.waiters ∨ s.waiters = [])
  | .recvLock i => (s.call i = .idle ∨ s.call i = .woken) ∧ s.lock = none
  | .recvTest i _ => s.call i = .holding
  | .recvPark i => s.call i = .parking
  | .recvSpurious i => i ∈ s.waiters
  | .closeStore i => s.call i = .idle
  | .closeNotify i => s.call i = .closing

instance (s : State) : (a : Action) → Decidable (enabled s a)
  | .sendTest _ _ | .recvTest _ _ | .recvPark _ | .closeStore _ | .closeNotify _ =>
    inferInstanceAs (Decidable (_ = _))
  | .sendPush _ | .sendNotify _ _ | .recvLock _ => inferInstanceAs (Decidable (_ ∧ _))
  | .recvSpurious _ => inferInstanceAs (Decidable (_ ∈ _))

/-- Move a call to another control point. -/
def State.move (s : State) (i : ℕ) (p : Point) : State :=
  { s with call := Function.update s.call i p }

/-- The tests at the start of `kryos_chan_send`. -/
def sendTest (s : State) (i : ℕ) (data : Message) : State :=
  if s.closed then s.move i .refused
  else if data.length ≠ s.elemSize then s.move i .refused
  else s.move i (.sending data)

/-- The critical section of `kryos_chan_send`. -/
def sendPush (s : State) (i : ℕ) : State :=
  match s.call i with
  | .sending data => { s.move i .pushed with queue := s.queue ++ [data] }
  | _ => s

/-- Wake the waiting receivers in a list. -/
def wake (s : State) (js : List ℕ) : State :=
  { s with
    call := fun j => if j ∈ js ∧ j ∈ s.waiters then .woken else s.call j
    waiters := s.waiters.filter (· ∉ js) }

/-- One turn of the loop of `kryos_chan_recv`, up to the wait. -/
def recvTest (s : State) (i bufLen : ℕ) : State :=
  match s.queue with
  | data :: rest => { s.move i (.received (data.take bufLen)) with queue := rest, lock := none }
  | [] => if s.closed then { s.move i .sawClosed with lock := none } else s.move i .parking

def effect (s : State) : Action → State
  | .sendTest i data => sendTest s i data
  | .sendPush i => sendPush s i
  | .sendNotify i j => (wake s [j]).move i .sent
  | .recvLock i => { s.move i .holding with lock := some i }
  | .recvTest i bufLen => recvTest s i bufLen
  | .recvPark i => { s.move i .parked with lock := none, waiters := s.waiters ++ [i] }
  | .recvSpurious i => wake s [i]
  | .closeStore i => { s.move i .closing with closed := true }
  | .closeNotify i => (wake s s.waiters).move i .closeDone

/-- `kryos_chan_new`. -/
def initial (elemSize : ℕ) : State where
  elemSize := elemSize
  queue := []
  lock := none
  waiters := []
  closed := false
  call _ := .idle

/-- The channel: any interleaving of the steps of any number of calls. -/
def channel (elemSize : ℕ) : Protocol State Action :=
  Protocol.guarded (· = initial elemSize) enabled effect

/-! ## The two guarantees -/

/-- The channel is closed and empty, a receiver is parked, and no call is left to wake it. -/
def Stranded (s : State) : Prop :=
  s.closed = true ∧ s.queue = [] ∧ (∃ i, s.call i = .parked) ∧ ∀ j, s.call j ≠ .closing

/-- Some receiver has reported closed and empty. -/
def Drained (s : State) : Prop :=
  ∃ i, s.call i = .sawClosed

/-- The steps that take neither race: the flag is not set while a receiver is between its test of
the flag and its park, and a receiver does not report closed and empty while a sender is between
its test of the flag and its push. -/
def Clean (s : State) : Action → Prop
  | .closeStore _ => ∀ j, s.call j ≠ .parking
  | .recvTest _ _ => s.queue = [] → s.closed = true → ∀ j, (s.call j).isSending = false
  | _ => True

/-! ## The invariant of the clean runs -/

/-- Once the flag is set nobody is about to park, and a parked receiver has a `notify_all` coming;
once a receiver has reported closed and empty nobody is about to push. -/
structure Inv (s : State) : Prop where
  waiters_iff : ∀ i, i ∈ s.waiters ↔ s.call i = .parked
  closed_parking : s.closed = true → ∀ i, s.call i ≠ .parking
  closed_parked : s.closed = true → (∀ j, s.call j ≠ .closing) → ∀ i, s.call i ≠ .parked
  drained_closed : ∀ i, s.call i = .sawClosed → s.closed = true
  drained_sending : ∀ i j, s.call i = .sawClosed → (s.call j).isSending = false

theorem inv_initial (elemSize : ℕ) : Inv (initial elemSize) := by
  constructor <;> simp [initial]

variable {s s' : State} {n : ℕ} {a : Action}

section Steps

variable {i j bufLen : ℕ} {data : Message}

/-- Only an open channel lets a sender on. -/
theorem Inv.sendTest (hs : Inv s) (hen : s.call i = .idle) : Inv (sendTest s i data) := by
  obtain ⟨h1, h2, h3, h4, h5⟩ := hs
  simp only [Channel.sendTest, State.move]
  split_ifs <;> constructor <;> simp only [Function.update_apply] <;> grind [Point.isSending]

theorem Inv.sendPush (hs : Inv s) : Inv (sendPush s i) := by
  obtain ⟨h1, h2, h3, h4, h5⟩ := hs
  simp only [Channel.sendPush, State.move]
  split
  · constructor <;> simp only [Function.update_apply] <;> grind [Point.isSending]
  · exact ⟨h1, h2, h3, h4, h5⟩

theorem Inv.wake_move (hs : Inv s) (hen : s.call i = .pushed) : Inv ((wake s [j]).move i .sent) := by
  obtain ⟨h1, h2, h3, h4, h5⟩ := hs
  simp only [wake, State.move]
  constructor <;> simp only [Function.update_apply] <;> grind [Point.isSending]

theorem Inv.recvLock (hs : Inv s) (hen : s.call i = .idle ∨ s.call i = .woken) :
    Inv { s.move i .holding with lock := some i } := by
  obtain ⟨h1, h2, h3, h4, h5⟩ := hs
  simp only [State.move]
  constructor <;> simp only [Function.update_apply] <;> grind [Point.isSending]

/-- A message, closed and empty, or on to the park. -/
theorem Inv.recvTest (hs : Inv s) (hen : s.call i = .holding)
    (hok : s.queue = [] → s.closed = true → ∀ j, (s.call j).isSending = false) :
    Inv (recvTest s i bufLen) := by
  obtain ⟨h1, h2, h3, h4, h5⟩ := hs
  simp only [Channel.recvTest, State.move]
  split
  · constructor <;> simp only [Function.update_apply] <;> grind [Point.isSending]
  · split_ifs <;> constructor <;> simp only [Function.update_apply] <;> grind [Point.isSending]

theorem Inv.recvPark (hs : Inv s) (hen : s.call i = .parking) :
    Inv { s.move i .parked with lock := none, waiters := s.waiters ++ [i] } := by
  obtain ⟨h1, h2, h3, h4, h5⟩ := hs
  simp only [State.move]
  constructor <;> simp only [Function.update_apply] <;> grind [Point.isSending]

theorem Inv.wake (hs : Inv s) : Inv (wake s [i]) := by
  obtain ⟨h1, h2, h3, h4, h5⟩ := hs
  simp only [Channel.wake]
  constructor <;> grind [Point.isSending]

theorem Inv.closeStore (hs : Inv s) (hen : s.call i = .idle) (hok : ∀ j, s.call j ≠ .parking) :
    Inv { s.move i .closing with closed := true } := by
  obtain ⟨h1, h2, h3, h4, h5⟩ := hs
  simp only [State.move]
  constructor <;> simp only [Function.update_apply] <;> grind [Point.isSending]

theorem Inv.closeNotify (hs : Inv s) :
    Inv ((Channel.wake s s.waiters).move i .closeDone) := by
  obtain ⟨h1, h2, h3, h4, h5⟩ := hs
  simp only [Channel.wake, State.move]
  constructor <;> simp only [Function.update_apply] <;> grind [Point.isSending]

end Steps

/-- **One clean step preserves the invariant.** -/
theorem Inv.step (hs : Inv s) (hok : Clean s a) (h : (channel n).step s a = some s') : Inv s' := by
  obtain ⟨hen, rfl⟩ := Protocol.guarded_step_eq_some.mp h
  cases a with
  | sendTest i data => exact hs.sendTest hen
  | sendPush i => exact hs.sendPush
  | sendNotify i j => exact hs.wake_move hen.1
  | recvLock i => exact hs.recvLock hen.1
  | recvTest i bufLen => exact hs.recvTest hen hok
  | recvPark i => exact hs.recvPark hen
  | recvSpurious i => exact hs.wake
  | closeStore i => exact hs.closeStore hen hok
  | closeNotify i => exact hs.closeNotify

theorem inv_of_reachable (h : (channel n).ReachableWhen Clean s) : Inv s :=
  h.invariant (fun _ h₀ => h₀ ▸ inv_initial n) fun _ _ _ hs hok hst => hs.step hok hst

theorem Inv.not_stranded (hs : Inv s) : ¬ Stranded s := by
  rintro ⟨hclosed, -, ⟨i, hi⟩, hno⟩
  exact hs.closed_parked hclosed hno i hi

/-! ## A drained channel accepts nothing more -/

/-- What keeps a call from ever pushing: the channel is closed and no sender is past the test. -/
structure Shut (c : ℕ) (s : State) : Prop where
  closed : s.closed = true
  no_sending : ∀ i, (s.call i).isSending = false
  not_pushed : (s.call c).hasPushed = false

/-- Moving a call to a point where it neither sends nor has sent leaves the channel shut. -/
theorem Shut.move {c i : ℕ} {p : Point} {t : State} (hs : Shut c s) (hclosed : t.closed = s.closed)
    (ht : t.call = Function.update s.call i p) (hp : p.isSending = false)
    (hq : p.hasPushed = false) : Shut c t := by
  obtain ⟨h1, h2, h3⟩ := hs
  constructor <;> simp only [ht, hclosed, Function.update_apply] <;> grind

theorem Shut.wake {c : ℕ} (hs : Shut c s) (js : List ℕ) : Shut c (wake s js) := by
  obtain ⟨h1, h2, h3⟩ := hs
  constructor <;> simp only [Channel.wake] <;> grind [Point.isSending, Point.hasPushed]

/-- The flag is never cleared, so a channel once shut to a call stays shut to it. -/
theorem Shut.step {c : ℕ} (hs : Shut c s) (h : (channel n).step s a = some s') : Shut c s' := by
  obtain ⟨hen, rfl⟩ := Protocol.guarded_step_eq_some.mp h
  cases a with
  | sendTest i data =>
    simp only [effect, sendTest, hs.closed, if_true]
    exact hs.move rfl rfl rfl rfl
  | sendPush i => exact absurd hen.1 (by simp [hs.no_sending i])
  | sendNotify i j =>
    obtain ⟨h1, h2, h3⟩ := hs.wake [j]
    have hne : c ≠ i := by
      rintro rfl
      exact absurd hs.not_pushed (by simp [hen.1, Point.hasPushed])
    refine ⟨h1, fun k => ?_, ?_⟩
    · rcases eq_or_ne k i with rfl | hk
      · simp [effect, State.move, Point.isSending]
      · simpa [effect, State.move, hk] using h2 k
    · simpa [effect, State.move, hne] using h3
  | recvLock i | recvPark i => exact hs.move rfl rfl rfl rfl
  | recvTest i bufLen =>
    simp only [effect, recvTest, hs.closed, if_true]
    split <;> exact hs.move rfl rfl rfl rfl
  | recvSpurious i => exact hs.wake [i]
  | closeStore i => exact hs.move hs.closed.symm rfl rfl rfl
  | closeNotify i => exact (hs.wake s.waiters).move rfl rfl rfl rfl

theorem Inv.shut (hs : Inv s) (hd : Drained s) {c : ℕ} (hc : (s.call c).hasPushed = false) :
    Shut c s := by
  obtain ⟨i, hi⟩ := hd
  exact ⟨hs.drained_closed i hi, fun j => hs.drained_sending i j hi, hc⟩

/-- **Closing without the races.** In every state of every run that takes neither race, no receiver
is stranded; and once a receiver has reported closed and empty, no send that had not yet pushed
its message ever returns success. -/
theorem closing_is_clean (h : (channel n).ReachableWhen Clean s) :
    ¬ Stranded s ∧
    ∀ t, (channel n).RunWhen Clean s t → Drained s → ∀ c, (s.call c).hasPushed = false →
      t.call c ≠ .sent := by
  have hs := inv_of_reachable h
  refine ⟨hs.not_stranded, fun t hrun hd c hc hsent => ?_⟩
  have hshut : Shut c t := hrun.invariant (fun _ _ _ hu _ hst => hu.step hst) (hs.shut hd hc)
  exact absurd hshut.not_pushed (by simp [hsent, Point.hasPushed])

/-- Call 0 sends, call 1 closes, call 2 receives the message and call 3 the end. -/
def drain : List Action :=
  [.sendTest 0 [7], .sendPush 0, .closeStore 1, .recvLock 2, .recvTest 2 1, .recvLock 3,
    .recvTest 3 1]

theorem closing_is_clean_drain : ∃ s, (channel 1).schedule (initial 1) drain = some s ∧
    s.call 2 = .received [7] ∧ s.call 3 = .sawClosed ∧ ¬ Stranded s := by
  have h : (channel 1).schedule (initial 1) drain = some _ := rfl
  have hok : (channel 1).Admits Clean (initial 1) drain := by
    refine ⟨trivial, trivial, ?_, trivial, nofun, trivial, ?_, trivial⟩
    · rintro (_ | j) <;> nofun
    · rintro - - (_ | _ | _ | _ | j) <;> rfl
  exact ⟨_, h, rfl, rfl, (closing_is_clean (Protocol.reachableWhen_of_schedule rfl h hok)).1⟩

/-- Call 0 finds the channel open; call 1 closes it; call 2 reports closed and empty. -/
def lateSend : List Action :=
  [.sendTest 0 [7], .closeStore 1, .closeNotify 1, .recvLock 2, .recvTest 2 1]

/-- Call 0 finds the channel empty and open; call 1 closes it and notifies; call 0 parks. -/
def latePark : List Action :=
  [.recvLock 0, .recvTest 0 1, .closeStore 1, .closeNotify 1, .recvPark 0]

/-- **Both guarantees fail.** A send that had not pushed returns success after a receiver has
reported closed and empty, and a receiver parks on a closed empty channel with nobody left to wake
it. -/
theorem closing_races :
    (∃ s t, (channel 1).Reachable s ∧ (channel 1).Run s t ∧
      Drained s ∧ (s.call 0).hasPushed = false ∧ t.call 0 = .sent) ∧
    (∃ s, (channel 1).Reachable s ∧ Stranded s) := by
  constructor
  · obtain ⟨s, t, hs, ht, hd, hc, hsent⟩ : ∃ s t,
        (channel 1).schedule (initial 1) lateSend = some s ∧
        (channel 1).schedule s [.sendPush 0, .sendNotify 0 2] = some t ∧
        Drained s ∧ (s.call 0).hasPushed = false ∧ t.call 0 = .sent :=
      ⟨_, _, rfl, rfl, ⟨2, rfl⟩, rfl, rfl⟩
    exact ⟨s, t, Protocol.reachable_of_schedule rfl hs, Protocol.run_of_schedule ht, hd, hc, hsent⟩
  · have h : (channel 1).schedule (initial 1) latePark = some _ := rfl
    refine ⟨_, Protocol.reachable_of_schedule rfl h, rfl, rfl, ⟨0, rfl⟩, ?_⟩
    rintro (_ | _ | j) <;> nofun

end Kryos.Runtime.Channel
