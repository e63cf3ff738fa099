import Kryos.Lib.Interleaving
import Mathlib.Data.Nat.Notation
import Mathlib.Tactic.SplitIfs
import Mathlib.Data.List.Basic

/-!
# Actor mailboxes

A message to an actor is a tag and its arguments, sent word by word with `kryos_actor_send`. The
sender brackets the words by `kryos_actor_lock` and `kryos_actor_unlock`, a spinlock that keeps
other senders out; whether a word is accepted is decided per word, under the mailbox's own mutex,
and the words after a refused one are still sent. `kryos_actor_wait_all` closes the mailbox under
the mutex only, so it may do so between two words of a message.

A state is the actor's registry entry, the control point of every sending thread, and what has
happened so far: the messages each thread has set out to send, the messages whose tag was accepted,
the accepted words and the received ones. An action is one acquisition or release of the send lock,
one critical section of the mailbox, or the receipt of one word.

## Main results

* `Actor.mailbox_delivers_whole` — if the mailbox is closed only between messages, the actor
  receives whole messages, every accepted word exactly once, in every sender's order
* `Actor.closing_splits_a_message` — closed between the tag and the argument, it receives half a
  message
-/

namespace Kryos.Runtime.Actor

/-- One eight-byte word of a message. -/
abbrev Word := BitVec 64

/-- A message: the handler's tag and its arguments. -/
structure Message where
  tag : Word
  args : List Word
  deriving DecidableEq, Repr

/-- The words in the order they are sent. -/
def Message.words (m : Message) : List Word :=
  m.tag :: m.args

/-- Where a sending thread stands. -/
inductive Point where
  | idle
  /-- spinning in `kryos_actor_lock` -/
  | locking (m : Message)
  /-- holds the send lock, nothing sent yet -/
  | holding (m : Message)
  /-- holds the send lock, these arguments still to send -/
  | sending (m : Message) (rest : List Word)
  deriving DecidableEq, Repr

structure State where
  queue : List Word
  closed : Bool
  sendLocked : Bool
  sender : ℕ → Point
  /-- `kryos_actor_recv` has reported closed and empty -/
  ended : Bool
  /-- the messages each thread has set out to send, in its program order -/
  sent : ℕ → List Message
  /-- the messages whose tag was accepted, with their sender -/
  begun : List (ℕ × Message)
  /-- the words for which `kryos_actor_send` returned 0 -/
  accepted : List Word
  /-- the words `kryos_actor_recv` has returned -/
  received : List Word

inductive Action where
  | call (i : ℕ) (m : Message)
  | actorLock (i : ℕ)
  | sendTag (i : ℕ)
  | sendArg (i : ℕ)
  | actorUnlock (i : ℕ)
  | recv
  /-- the section of `kryos_actor_wait_all` that closes this mailbox -/
  | close
  deriving DecidableEq, Repr

/-- Move a sending thread to another control point. -/
def State.move (s : State) (i : ℕ) (p : Point) : State :=
  { s with sender := Function.update s.sender i p }

/-- `kryos_actor_send` of one word: refused when the mailbox is closed. -/
def State.send (s : State) (w : Word) : State :=
  if s.closed then s else { s with queue := s.queue ++ [w], accepted := s.accepted ++ [w] }

/-- One atomic step; `none` where the thread is not at the step's control point, the send lock is
taken, or the actor has nothing to receive yet. -/
def step (s : State) : Action → Option State
  | .call i m =>
    if s.sender i = .idle then
      some { s.move i (.locking m) with sent := Function.update s.sent i (s.sent i ++ [m]) }
    else none
  | .actorLock i =>
    match s.sender i with
    | .locking m => if s.sendLocked then none else some { s.move i (.holding m) with
        sendLocked := true }
    | _ => none
  | .sendTag i =>
    match s.sender i with
    | .holding m => some { (s.send m.tag).move i (.sending m m.args) with
        begun := if s.closed then s.begun else s.begun ++ [(i, m)] }
    | _ => none
  | .sendArg i =>
    match s.sender i with
    | .sending m (w :: rest) => some ((s.send w).move i (.sending m rest))
    | _ => none
  | .actorUnlock i =>
    match s.sender i with
    | .sending _ [] => some { s.move i .idle with sendLocked := false }
    | _ => none
  | .recv =>
    match s.queue with
    | w :: rest => some { s with queue := rest, received := s.received ++ [w] }
    | [] => if s.closed then some { s with ended := true } else none
  | .close => some { s with closed := true }

/-- A freshly registered actor. -/
def initial : State where
  queue := []
  closed := false
  sendLocked := false
  sender _ := .idle
  ended := false
  sent _ := []
  begun := []
  accepted := []
  received := []

/-- The mailbox under any interleaving of any number of senders. -/
def mailbox : Protocol State Action where
  Init := (· = initial)
  step := step

/-! ## The guarantees -/

/-- The words of a sequence of messages. -/
def wordsOf (ms : List (ℕ × Message)) : List Word :=
  (ms.map fun p => p.2.words).flatten

/-- The messages of one sender. -/
def messagesOf (i : ℕ) (ms : List (ℕ × Message)) : List Message :=
  ms.filterMap fun p => if p.1 = i then some p.2 else none

/-- The arguments a thread has still to send of a message whose tag it has sent. -/
def Point.remaining : Point → List Word
  | .sending _ rest => rest
  | _ => []

/-- The steps that close the mailbox between messages only: an open mailbox is not closed while a
sender has sent the tag of a message and not all of its arguments. -/
def Whole (s : State) : Action → Prop
  | .close => s.closed = false → ∀ i, (s.sender i).remaining = []
  | _ => True

@[simp] theorem wordsOf_append (ms ns : List (ℕ × Message)) :
    wordsOf (ms ++ ns) = wordsOf ms ++ wordsOf ns := by
  simp [wordsOf]

@[simp] theorem wordsOf_singleton (i : ℕ) (m : Message) : wordsOf [(i, m)] = m.words := by
  simp [wordsOf]

@[simp] theorem messagesOf_append (i : ℕ) (ms ns : List (ℕ × Message)) :
    messagesOf i (ms ++ ns) = messagesOf i ms ++ messagesOf i ns := by
  simp [messagesOf]

@[simp] theorem messagesOf_singleton (i j : ℕ) (m : Message) :
    messagesOf i [(j, m)] = if j = i then [m] else [] := by
  by_cases h : j = i <;> simp [messagesOf, h]

/-! ## What every run keeps -/

/-- The message a thread has set out to send and not begun. -/
def Point.waiting : Point → List Message
  | .locking m => [m]
  | .holding m => [m]
  | _ => []

/-- The thread holds the send lock. -/
def Point.inside : Point → Bool
  | .holding _ => true
  | .sending _ _ => true
  | _ => false

/-- The facts that do not depend on when the mailbox is closed: the send lock excludes, the mailbox
is a queue, and the messages begun by a sender are an initial part of those it sent. -/
structure Inv (s : State) : Prop where
  locked : ∀ i, (s.sender i).inside = true → s.sendLocked = true
  unique : ∀ i j, (s.sender i).inside = true → (s.sender j).inside = true → i = j
  fifo : s.accepted = s.received ++ s.queue
  ended : s.ended = true → s.closed = true ∧ s.queue = []
  order : ∀ i, s.closed = false → s.sent i = messagesOf i s.begun ++ (s.sender i).waiting
  initial_part : ∀ i, messagesOf i s.begun <+: s.sent i

theorem inv_initial : Inv initial := by
  constructor <;> simp [initial, Point.inside, Point.waiting, messagesOf]

variable {s s' : State} {a : Action}

theorem Inv.call {i : ℕ} {m : Message} (hs : Inv s) (h : step s (.call i m) = some s') : Inv s' := by
  obtain ⟨h1, h2, h3, h4, h5, h6⟩ := hs
  simp only [Actor.step, State.move] at h
  split_ifs at h
  obtain rfl := Option.some.inj h
  constructor <;> simp only [Function.update_apply] <;>
    grind [Point.inside, Point.waiting, List.prefix_append_of_prefix]

theorem Inv.actorLock {i : ℕ} (hs : Inv s) (h : step s (.actorLock i) = some s') : Inv s' := by
  obtain ⟨h1, h2, h3, h4, h5, h6⟩ := hs
  simp only [Actor.step, State.move] at h
  split at h
  · split_ifs at h
    obtain rfl := Option.some.inj h
    constructor <;> simp only [Function.update_apply] <;> grind [Point.inside, Point.waiting]
  · exact absurd h (by simp)

theorem Inv.sendTag {i : ℕ} (hs : Inv s) (h : step s (.sendTag i) = some s') : Inv s' := by
  obtain ⟨h1, h2, h3, h4, h5, h6⟩ := hs
  simp only [Actor.step, State.send, State.move] at h
  split at h
  · obtain rfl := Option.some.inj h
    split_ifs <;> constructor <;>
      simp only [Function.update_apply, messagesOf_append, messagesOf_singleton] <;>
      grind [Point.inside, Point.waiting]
  · exact absurd h (by simp)

theorem Inv.sendArg {i : ℕ} (hs : Inv s) (h : step s (.sendArg i) = some s') : Inv s' := by
  obtain ⟨h1, h2, h3, h4, h5, h6⟩ := hs
  simp only [Actor.step, State.send, State.move] at h
  split at h
  · obtain rfl := Option.some.inj h
    split_ifs <;> constructor <;> simp only [Function.update_apply] <;>
      grind [Point.inside, Point.waiting]
  · exact absurd h (by simp)

theorem Inv.actorUnlock {i : ℕ} (hs : Inv s) (h : step s (.actorUnlock i) = some s') : Inv s' := by
  obtain ⟨h1, h2, h3, h4, h5, h6⟩ := hs
  simp only [Actor.step, State.move] at h
  split at h
  · obtain rfl := Option.some.inj h
    constructor <;> simp only [Function.update_apply] <;> grind [Point.inside, Point.waiting]
  · exact absurd h (by simp)

theorem Inv.recv (hs : Inv s) (h : step s .recv = some s') : Inv s' := by
  obtain ⟨h1, h2, h3, h4, h5, h6⟩ := hs
  simp only [Actor.step] at h
  split at h
  · obtain rfl := Option.some.inj h
    constructor <;> grind [Point.inside, Point.waiting]
  · split_ifs at h
    obtain rfl := Option.some.inj h
    constructor <;> grind [Point.inside, Point.waiting]

theorem Inv.close (hs : Inv s) (h : step s .close = some s') : Inv s' := by
  obtain rfl := Option.some.inj h
  exact ⟨hs.locked, hs.unique, hs.fifo, fun he => ⟨rfl, (hs.ended he).2⟩,
    fun _ hopen => absurd hopen (by simp), hs.initial_part⟩

/-- **One step preserves the lock, the queue and the order.** -/
theorem Inv.step (hs : Inv s) (h : step s a = some s') : Inv s' := by
  cases a with
  | call i m => exact hs.call h
  | actorLock i => exact hs.actorLock h
  | sendTag i => exact hs.sendTag h
  | sendArg i => exact hs.sendArg h
  | actorUnlock i => exact hs.actorUnlock h
  | recv => exact hs.recv h
  | close => exact hs.close h

/-! ## What the runs keep that close between messages -/

/-- The accepted words are those of the messages begun, up to the arguments that the holder of the
send lock has still to send; a closed mailbox has no such rest. -/
structure WholeInv (s : State) : Prop where
  closed_words : s.closed = true → s.accepted = wordsOf s.begun
  open_words : s.closed = false → (∀ i, (s.sender i).remaining = []) → s.accepted = wordsOf s.begun
  open_rest : s.closed = false → ∀ i, (s.sender i).remaining ≠ [] →
    s.accepted ++ (s.sender i).remaining = wordsOf s.begun

theorem wholeInv_initial : WholeInv initial := by
  constructor <;> simp [initial, wordsOf, Point.remaining]

/-- Only the holder of the send lock has arguments left to send. -/
theorem Inv.remaining_of_ne (hs : Inv s) {i j : ℕ} (hi : (s.sender i).inside = true) (hne : j ≠ i) :
    (s.sender j).remaining = [] := by
  rcases hj : s.sender j with _ | _ | _ | ⟨m, rest⟩
  case sending => exact absurd (hs.unique j i (by simp [hj, Point.inside]) hi) hne
  all_goals rfl

/-- **One step that does not close within a message keeps the messages whole.** -/
theorem WholeInv.step (hw : WholeInv s) (hs : Inv s) (hok : Whole s a) (h : step s a = some s') :
    WholeInv s' := by
  obtain ⟨h1, h2, h3⟩ := hw
  rcases a with ⟨i, m⟩ | i | i | i | i | _ | _ <;>
    simp only [Actor.step, State.send, State.move, Whole] at h hok
  · split_ifs at h
    obtain rfl := Option.some.inj h
    constructor <;> simp only [Function.update_apply] <;> grind [Point.remaining]
  · split at h
    · split_ifs at h
      obtain rfl := Option.some.inj h
      constructor <;> simp only [Function.update_apply] <;> grind [Point.remaining]
    · exact absurd h (by simp)
  · split at h
    · next m hi =>
      have hothers : ∀ j, j ≠ i → (s.sender j).remaining = [] :=
        fun j => hs.remaining_of_ne (by simp [hi, Point.inside])
      obtain rfl := Option.some.inj h
      clear h
      split_ifs <;> constructor <;>
        simp only [Function.update_apply, wordsOf_append, wordsOf_singleton] <;>
        grind [Point.remaining, Message.words]
    · exact absurd h (by simp)
  · split at h
    · next m w rest hi =>
      have hothers : ∀ j, j ≠ i → (s.sender j).remaining = [] :=
        fun j => hs.remaining_of_ne (by simp [hi, Point.inside])
      obtain rfl := Option.some.inj h
      clear h
      split_ifs <;> constructor <;> simp only [Function.update_apply] <;> grind [Point.remaining]
    · exact absurd h (by simp)
  · split at h
    · obtain rfl := Option.some.inj h
      constructor <;> simp only [Function.update_apply] <;> grind [Point.remaining]
    · exact absurd h (by simp)
  · split at h
    · obtain rfl := Option.some.inj h
      exact ⟨h1, h2, h3⟩
    · split_ifs at h
      obtain rfl := Option.some.inj h
      exact ⟨h1, h2, h3⟩
  · obtain rfl := Option.some.inj h
    constructor <;> grind

theorem inv_of_reachable {ok : State → Action → Prop} (h : mailbox.ReachableWhen ok s) : Inv s :=
  h.invariant (fun _ h₀ => h₀ ▸ inv_initial) fun _ _ _ hs _ hst => hs.step hst

theorem wholeInv_of_reachable (h : mailbox.ReachableWhen Whole s) : WholeInv s :=
  h.invariant_of (fun _ => inv_of_reachable) (fun _ h₀ => h₀ ▸ wholeInv_initial)
    fun _ _ _ hs _ hw hok hst => hw.step hs hok hst

/-- What is still to be sent of the messages begun is the rest of the one message whose sender
holds the lock. -/
theorem WholeInv.pending (hw : WholeInv s) (hs : Inv s) :
    ∃ pending, s.received ++ s.queue ++ pending = wordsOf s.begun ∧
      (pending ≠ [] → s.closed = false ∧ ∃ i, (s.sender i).remaining = pending) := by
  rw [← hs.fifo]
  rcases hc : s.closed with _ | _
  · by_cases hrest : ∀ i, (s.sender i).remaining = []
    · exact ⟨[], by simpa using hw.open_words hc hrest, by simp⟩
    · obtain ⟨i, hi⟩ := not_forall.mp hrest
      exact ⟨_, hw.open_rest hc i hi, fun _ => ⟨rfl, i, rfl⟩⟩
  · exact ⟨[], by simpa using hw.closed_words hc, by simp⟩

/-- **A mailbox closed between messages delivers whole messages exactly once.** In every state of
every such run: the words received, followed by those queued, are the words of the messages begun,
one message after another, up to the arguments that the current holder of the send lock has still
to send to the open mailbox; every accepted word is received or queued, once and in order; every
message of a sender that has begun was sent by it, in its order and without gaps; and when
`kryos_actor_recv` has reported closed and empty, the words received are exactly the accepted ones
and exactly those of the messages begun. -/
theorem mailbox_delivers_whole (h : mailbox.ReachableWhen Whole s) :
    (∃ pending, s.received ++ s.queue ++ pending = wordsOf s.begun ∧
      (pending ≠ [] → s.closed = false ∧ ∃ i, (s.sender i).remaining = pending)) ∧
    s.accepted = s.received ++ s.queue ∧
    (∀ i, messagesOf i s.begun <+: s.sent i) ∧
    (s.ended = true → s.received = s.accepted ∧ s.received = wordsOf s.begun) := by
  have hs := inv_of_reachable h
  have hw := wholeInv_of_reachable h
  refine ⟨hw.pending hs, hs.fifo, hs.initial_part, fun hend => ?_⟩
  obtain ⟨hclosed, hqueue⟩ := hs.ended hend
  have hall : s.received = s.accepted := by rw [hs.fifo, hqueue, List.append_nil]
  exact ⟨hall, hall.trans (hw.closed_words hclosed)⟩

/-- Two senders, one message each, received to the end. -/
def twoSenders : List Action :=
  [.call 0 ⟨1, [5]⟩, .call 1 ⟨2, []⟩, .actorLock 0, .sendTag 0, .sendArg 0, .actorUnlock 0,
    .actorLock 1, .sendTag 1, .close, .recv, .recv, .recv, .recv]

theorem mailbox_delivers_whole_twoSenders : ∃ s, mailbox.schedule initial twoSenders = some s ∧
    s.ended = true ∧ s.received = [1, 5, 2] ∧ s.received = wordsOf s.begun := by
  have h : mailbox.schedule initial twoSenders = some _ := rfl
  have hok : mailbox.Admits Whole initial twoSenders := by
    refine ⟨trivial, trivial, trivial, trivial, trivial, trivial, trivial, trivial, ?_, trivial,
      trivial, trivial, trivial, trivial⟩
    rintro - (_ | _ | i) <;> rfl
  exact ⟨_, h, rfl, rfl,
    ((mailbox_delivers_whole (Protocol.reachableWhen_of_schedule rfl h hok)).2.2.2 rfl).2⟩

/-- The mailbox is closed after the tag and before the argument. -/
def splitMessage : List Action :=
  [.call 0 ⟨1, [5]⟩, .actorLock 0, .sendTag 0, .close, .sendArg 0, .actorUnlock 0, .recv, .recv]

/-- **Closing can split a message.** The actor has received the tag and the end of the mailbox, and
no sequence of messages that were sent has these words. -/
theorem closing_splits_a_message :
    ∃ s, mailbox.Reachable s ∧ s.ended = true ∧ s.received = [1] ∧
      ∀ ms : List (ℕ × Message), (∀ p ∈ ms, p.2 ∈ s.sent p.1) → wordsOf ms ≠ s.received := by
  have h : mailbox.schedule initial splitMessage = some _ := rfl
  refine ⟨_, Protocol.reachable_of_schedule rfl h, rfl, rfl, fun ms hms => ?_⟩
  rcases ms with _ | ⟨⟨i, m⟩, ms⟩
  · simp [wordsOf]
  · have hm : m = ⟨1, [5]⟩ := by
      rcases i with _ | i
      · have hmem : m ∈ [(⟨1, [5]⟩ : Message)] := hms (0, m) (by simp)
        simpa using hmem
      · have hmem : m ∈ ([] : List Message) := hms (i + 1, m) (by simp)
        simp at hmem
    rw [hm]
    show wordsOf ((i, ⟨1, [5]⟩) :: ms) ≠ [1]
    simp [wordsOf, Message.words]

end Kryos.Runtime.Actor
