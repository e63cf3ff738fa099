import Kryos.Lib.Interleaving
import Mathlib.Data.Finset.Erase
import Mathlib.Data.Finset.Insert
import Mathlib.Data.List.Nodup

/-!
# The polling executor

A task of the executor is a poll function with its state. A poll function is any program: between
its entry and its return it may change the memory that all of them share, spawn tasks, and call
`kryos_async_block_on` or `kryos_async_run` itself, so that executor loops nest to any depth. The
executor is one thread, and its data is only touched between two calls into poll functions.

A state of the machine is the data of the executor, the shared memory and the call stack. The types
of the stack know what can call what: a poll runs on behalf of one of the two loops, and a loop was
entered by a poll or by the main program. A task sets its result as the last thing before it
returns `KRYOS_READY`, so the two are one request here.

The log and the `before` of a loop belong to no data of the source. They record what happened, and
what the stack of current tasks was when the loop was entered.

## Main results

* `AsyncExecutor.Inv.step`: one step keeps the tasks apart, and keeps the target of every
  `kryos_async_block_on` either ready, or being polled by that very call, or completed
* `AsyncExecutor.executor_returns_own_results`: what that means for the calls
-/

namespace Kryos.Runtime.AsyncExecutor

/-- A spawned task. The ids count the tasks from `1`. -/
structure Task (F S : Type*) where
  id : ℕ
  pollFn : F
  state : S

/-- The data of the executor, `current` with the innermost poll first. -/
structure Executor (F S : Type*) where
  nextId : ℕ
  ready : List (Task F S)
  waiters : List (Task F S)
  lastResult : Int64
  current : List ℕ
  completed : Finset ℕ

/-- What a poll function, or the main program, does next, and how it goes on from there. -/
inductive Request (F S K : Type*) where
  | spawnTask (pollFn : F) (state : S) (k : ℕ → K)
  | run (k : K)
  | blockOn (pollFn : F) (state : S) (k : Int64 → K)
  | wake (taskId : ℕ) (k : K)
  | currentTask (k : ℕ → K)
  | takeResult (k : Int64 → K)
  | parkCurrent (k : ℕ → K)
  | yieldNow (k : K)
  /-- return anything but `KRYOS_READY` -/
  | pending
  /-- `kryos_async_set_result(value)`, then return `KRYOS_READY` -/
  | ready (value : Int64)

/-- The code of the poll functions, over control points `K` and a memory `M`. -/
structure Program (F S K M : Type*) where
  enter : F → S → K
  next : K → M → Request F S K × M

/-- A loop of the executor: where its caller goes on, and the current tasks when it was entered. -/
inductive Loop (K : Type*) where
  | run (k : K) (before : List ℕ)
  | blockOn (id : ℕ) (k : Int64 → K) (before : List ℕ)

/-- Code that runs: the main program, or a poll of a task that a loop was entered by other code to
make. -/
inductive Code (F S K : Type*) where
  | main (k : K)
  | poll (task : Task F S) (k : K) (loop : Loop K) (caller : Code F S K)

/-- What is on top of the stack: code, a loop about to pick a task, or a loop whose poll is over. -/
inductive Control (F S K : Type*) where
  | running (code : Code F S K)
  | picking (loop : Loop K) (caller : Code F S K)
  | polled (loop : Loop K) (caller : Code F S K)

inductive Event where
  | pollStarted (id : ℕ)
  | completed (id : ℕ) (value : Int64)
  | blockOnReturned (id : ℕ) (value : Int64)
  | runReturned
  deriving DecidableEq

/-- The machine, the latest event first. -/
structure Machine (F S K M : Type*) where
  executor : Executor F S
  memory : M
  control : Control F S K
  log : List Event

variable {F S K M : Type*}

namespace Executor

/-- The executor of a thread that has not called it yet. -/
def empty : Executor F S where
  nextId := 0
  ready := []
  waiters := []
  lastResult := 0
  current := []
  completed := ∅

/-- `kryos_async_spawn_task`, which answers the new `nextId`. -/
def spawnTask (ex : Executor F S) (pollFn : F) (state : S) : Executor F S :=
  { ex with
    nextId := ex.nextId + 1
    ready := ex.ready ++ [⟨ex.nextId + 1, pollFn, state⟩] }

def wake (ex : Executor F S) (taskId : ℕ) : Executor F S :=
  match ex.waiters.find? fun t => t.id == taskId with
  | some task =>
    { ex with
      waiters := ex.waiters.eraseP fun t => t.id == taskId
      ready := ex.ready ++ [task] }
  | none => ex

def currentTask (ex : Executor F S) : ℕ := ex.current.head?.getD 0

def popFront (ex : Executor F S) : Option (Task F S × Executor F S) :=
  match ex.ready with
  | task :: rest => some (task, { ex with ready := rest })
  | [] => none

/-- The task that a loop polls next: the oldest one that is ready, except that
`kryos_async_block_on` prefers its own. -/
def pick (ex : Executor F S) : Loop K → Option (Task F S × Executor F S)
  | .run _ _ => ex.popFront
  | .blockOn id _ _ =>
    match ex.ready.findIdx? fun t => t.id == id with
    | some pos => ex.ready[pos]?.map fun task => (task, { ex with ready := ex.ready.eraseIdx pos })
    | none => ex.popFront

end Executor

/-- The control point of running code. -/
def Code.point : Code F S K → K
  | .main k => k
  | .poll _ k _ _ => k

/-- The same code at another control point. -/
def Code.goto (k : K) : Code F S K → Code F S K
  | .main _ => .main k
  | .poll task _ loop caller => .poll task k loop caller

/-- The tasks with a poll in progress, the innermost first. -/
def Code.polling : Code F S K → List (Task F S)
  | .main _ => []
  | .poll task _ _ caller => task :: caller.polling

def Control.polling : Control F S K → List (Task F S)
  | .running code | .picking _ code | .polled _ code => code.polling

namespace Machine

/-- Go on with running code. -/
def continueAt (m : Machine F S K M) (ex : Executor F S) (code : Code F S K) : Machine F S K M :=
  { m with executor := ex, control := .running code }

/-- Enter a loop. -/
def enterLoop (m : Machine F S K M) (ex : Executor F S) (loop : Loop K) (caller : Code F S K) :
    Machine F S K M :=
  { m with executor := ex, control := .picking loop caller }

/-- One request of running code. -/
def request (m : Machine F S K M) (code : Code F S K) : Request F S K → Option (Machine F S K M)
  | .spawnTask pollFn state k =>
    let ex := m.executor.spawnTask pollFn state
    some (m.continueAt ex (code.goto (k ex.nextId)))
  | .run k => some (m.enterLoop m.executor (.run k m.executor.current) code)
  | .blockOn pollFn state k =>
    let ex := m.executor.spawnTask pollFn state
    some (m.enterLoop ex (.blockOn ex.nextId k ex.current) code)
  | .wake taskId k => some (m.continueAt (m.executor.wake taskId) (code.goto k))
  | .currentTask k => some (m.continueAt m.executor (code.goto (k m.executor.currentTask)))
  | .takeResult k => some (m.continueAt m.executor (code.goto (k m.executor.lastResult)))
  | .parkCurrent k => some (m.continueAt m.executor (code.goto (k m.executor.currentTask)))
  | .yieldNow k => some (m.continueAt m.executor (code.goto k))
  | .pending =>
    match code with
    | .main _ => none
    | .poll task _ loop caller =>
      some { m with
        executor := { m.executor with
          current := m.executor.current.tail
          ready := m.executor.ready ++ [task] }
        control := .polled loop caller }
  | .ready value =>
    match code with
    | .main _ => none
    | .poll task _ loop caller =>
      some { m with
        executor := { m.executor with
          lastResult := value
          current := m.executor.current.tail
          completed := insert task.id m.executor.completed }
        control := .polled loop caller
        log := .completed task.id value :: m.log }

/-- The first half of `poll_task`. -/
def startPoll (P : Program F S K M) (m : Machine F S K M) (loop : Loop K) (caller : Code F S K)
    (task : Task F S) (ex : Executor F S) : Machine F S K M :=
  { m with
    executor := { ex with current := task.id :: ex.current }
    control := .running (.poll task (P.enter task.pollFn task.state) loop caller)
    log := .pollStarted task.id :: m.log }

/-- The end of a loop. -/
def leaveLoop (m : Machine F S K M) (caller : Code F S K) : Loop K → Machine F S K M
  | .run k _ => { m with control := .running (caller.goto k), log := .runReturned :: m.log }
  | .blockOn id k _ =>
    { m with
      executor := { m.executor with completed := m.executor.completed.erase id }
      control := .running (caller.goto (k m.executor.lastResult))
      log := .blockOnReturned id m.executor.lastResult :: m.log }

/-- `kryos_async_block_on` stops as soon as its target has completed. -/
def stopsAfterPoll (m : Machine F S K M) : Loop K → Bool
  | .run _ _ => false
  | .blockOn id _ _ => id ∈ m.executor.completed

/-- One step. The machine halts when the main program returns. -/
def step (P : Program F S K M) (m : Machine F S K M) : Option (Machine F S K M) :=
  match m.control with
  | .running code =>
    let (request, memory) := P.next code.point m.memory
    { m with memory := memory }.request code request
  | .picking loop caller =>
    match m.executor.pick loop with
    | some (task, ex) => some (startPoll P m loop caller task ex)
    | none => some (m.leaveLoop caller loop)
  | .polled loop caller =>
    if m.stopsAfterPoll loop then some (m.leaveLoop caller loop)
    else some { m with control := .picking loop caller }

end Machine

/-- A program from its start at `k`, on a thread that has not called the executor yet. -/
def executing (P : Program F S K M) (k : K) (memory : M) : Protocol (Machine F S K M) Unit where
  Init m := m = ⟨.empty, memory, .running (.main k), []⟩
  step m _ := m.step P

variable {P : Program F S K M} {m m' : Machine F S K M}

/-! ## The invariant -/

def ids (tasks : List (Task F S)) : List ℕ := tasks.map Task.id

@[simp] theorem ids_append (ts us : List (Task F S)) : ids (ts ++ us) = ids ts ++ ids us :=
  List.map_append

@[simp] theorem polling_goto (k : K) (code : Code F S K) : (code.goto k).polling = code.polling := by
  cases code <;> rfl

/-- The task that a loop polls is its target, if it has one. -/
def Loop.Polls : Loop K → Task F S → Prop
  | .run _ _, _ => True
  | .blockOn id _ _, task => task.id = id

def Loop.before : Loop K → List ℕ
  | .run _ before | .blockOn _ _ before => before

/-- Every loop on the stack polls its target, and remembers the polls below it. -/
def Code.Nested : Code F S K → Prop
  | .main _ => True
  | .poll task _ loop caller =>
    loop.Polls task ∧ loop.before = ids caller.polling ∧ caller.Nested

@[simp] theorem nested_goto (k : K) (code : Code F S K) : (code.goto k).Nested ↔ code.Nested := by
  cases code <;> exact Iff.rfl

def Control.Nested : Control F S K → Prop
  | .running code => code.Nested
  | .picking loop caller | .polled loop caller =>
    loop.before = ids caller.polling ∧ caller.Nested

/-- Before a loop picks, its target is ready. -/
def Loop.TargetReady (ex : Executor F S) : Loop K → Prop
  | .run _ _ => True
  | .blockOn id _ _ => id ∈ ids ex.ready

/-- After a poll, the target of the loop is ready again, or the last result is its own. -/
def Machine.TargetSettled (m : Machine F S K M) : Control F S K → Prop
  | .running _ => True
  | .picking loop _ => loop.TargetReady m.executor
  | .polled (.run _ _) _ => True
  | .polled (.blockOn id _ _) _ =>
    id ∈ ids m.executor.ready ∨
      id ∈ m.executor.completed ∧ .completed id m.executor.lastResult ∈ m.log

/-- Each task is accounted for once: it is unfinished, or the log has its one result. -/
structure Accounts (nextId : ℕ) (unfinished : List ℕ) (completed : Finset ℕ) (log : List Event) :
    Prop where
  nodup : unfinished.Nodup
  spawned : ∀ id ∈ unfinished, id ≤ nextId
  no_result : ∀ id ∈ unfinished, ∀ v, .completed id v ∉ log
  result_spawned : ∀ id v, .completed id v ∈ log → id ≤ nextId
  result_unique : ∀ id v w, .completed id v ∈ log → .completed id w ∈ log → v = w
  completed_result : ∀ id ∈ completed, ∃ v, .completed id v ∈ log

namespace Accounts

variable {n id : ℕ} {us ws : List ℕ} {done : Finset ℕ} {log : List Event}

theorem empty : Accounts 0 [] ∅ [] where
  nodup := List.nodup_nil
  spawned := nofun
  no_result := nofun
  result_spawned := nofun
  result_unique := nofun
  completed_result id h := absurd h (Finset.notMem_empty id)

theorem perm (h : Accounts n us done log) (hp : us.Perm ws) : Accounts n ws done log :=
  { h with
    nodup := hp.nodup_iff.mp h.nodup
    spawned := fun id hid => h.spawned id (hp.mem_iff.mpr hid)
    no_result := fun id hid => h.no_result id (hp.mem_iff.mpr hid) }

theorem spawn (h : Accounts n us done log) : Accounts (n + 1) ((n + 1) :: us) done log where
  nodup := by
    refine List.nodup_cons.mpr ⟨fun hmem => ?_, h.nodup⟩
    exact absurd (h.spawned _ hmem) (Nat.not_succ_le_self n)
  spawned id hid := by
    rcases List.mem_cons.mp hid with rfl | hid
    · exact le_rfl
    · exact (h.spawned id hid).trans (Nat.le_succ n)
  no_result id hid v hv := by
    rcases List.mem_cons.mp hid with rfl | hid
    · exact absurd (h.result_spawned _ v hv) (Nat.not_succ_le_self n)
    · exact h.no_result id hid v hv
  result_spawned id v hv := (h.result_spawned id v hv).trans (Nat.le_succ n)
  result_unique := h.result_unique
  completed_result := h.completed_result

/-- The task has no result before, and is not unfinished afterwards. -/
theorem finish (h : Accounts n (id :: us) done log) (v : Int64) :
    Accounts n us (insert id done) (.completed id v :: log) where
  nodup := (List.nodup_cons.mp h.nodup).2
  spawned i hi := h.spawned i (List.mem_cons_of_mem id hi)
  no_result i hi w hw := by
    rcases List.mem_cons.mp hw with heq | hw
    · obtain ⟨rfl, -⟩ := Event.completed.inj heq
      exact (List.nodup_cons.mp h.nodup).1 hi
    · exact h.no_result i (List.mem_cons_of_mem id hi) w hw
  result_spawned i w hw := by
    rcases List.mem_cons.mp hw with heq | hw
    · obtain ⟨rfl, -⟩ := Event.completed.inj heq
      exact h.spawned i List.mem_cons_self
    · exact h.result_spawned i w hw
  result_unique i w x hw hx := by
    have hnone := h.no_result id List.mem_cons_self
    rcases List.mem_cons.mp hw with hfirst | hold <;> rcases List.mem_cons.mp hx with hnew | hlog
    · exact (Event.completed.inj hfirst).2.trans (Event.completed.inj hnew).2.symm
    · obtain ⟨rfl, -⟩ := Event.completed.inj hfirst
      exact absurd hlog (hnone x)
    · obtain ⟨rfl, -⟩ := Event.completed.inj hnew
      exact absurd hold (hnone w)
    · exact h.result_unique i w x hold hlog
  completed_result i hi := by
    rcases Finset.mem_insert.mp hi with rfl | hi
    · exact ⟨v, List.mem_cons_self⟩
    · obtain ⟨w, hw⟩ := h.completed_result i hi
      exact ⟨w, List.mem_cons_of_mem _ hw⟩

theorem forget (h : Accounts n us done log) (id : ℕ) : Accounts n us (done.erase id) log :=
  { h with completed_result := fun i hi => h.completed_result i (Finset.mem_of_mem_erase hi) }

/-- Any other event leaves the results as they are. -/
theorem other (h : Accounts n us done log) {e : Event} (he : ∀ id v, e ≠ .completed id v) :
    Accounts n us done (e :: log) := by
  have hmem : ∀ {id v}, Event.completed id v ∈ e :: log ↔ .completed id v ∈ log := by
    intro id v
    rw [List.mem_cons]
    exact or_iff_right (he id v).symm
  exact
    { nodup := h.nodup
      spawned := h.spawned
      no_result := fun i hi v hv => h.no_result i hi v (hmem.mp hv)
      result_spawned := fun i v hv => h.result_spawned i v (hmem.mp hv)
      result_unique := fun i v w hv hw => h.result_unique i v w (hmem.mp hv) (hmem.mp hw)
      completed_result := fun i hi => (h.completed_result i hi).imp fun v => hmem.mpr }

end Accounts

/-- What holds between two steps. -/
structure Inv (m : Machine F S K M) : Prop where
  current : m.executor.current = ids m.control.polling
  waiters : m.executor.waiters = []
  accounts : Accounts m.executor.nextId (ids m.executor.ready ++ ids m.control.polling)
    m.executor.completed m.log
  nested : m.control.Nested
  settled : m.TargetSettled m.control

theorem inv_initial (k : K) (memory : M) :
    Inv (⟨.empty, memory, .running (.main k), []⟩ : Machine F S K M) where
  current := rfl
  waiters := rfl
  accounts := .empty
  nested := trivial
  settled := trivial

/-! ## One step -/

theorem Inv.withMemory (h : Inv m) (memory : M) : Inv { m with memory := memory } :=
  ⟨h.current, h.waiters, h.accounts, h.nested, h.settled⟩

variable {code : Code F S K}

/-- Running code goes on at another point. -/
theorem Inv.goto (h : Inv m) (hc : m.control = .running code) (k : K) :
    Inv (m.continueAt m.executor (code.goto k)) := by
  obtain ⟨hcurrent, hwaiters, haccounts, hnested, -⟩ := h
  rw [hc] at hcurrent haccounts hnested
  constructor
  case current => exact hcurrent.trans (congrArg ids (polling_goto k code)).symm
  case waiters => exact hwaiters
  case accounts =>
    show Accounts _ (_ ++ ids (code.goto k).polling) _ _
    rw [polling_goto]
    exact haccounts
  case nested => exact (nested_goto k code).mpr hnested
  case settled => trivial

/-- A new task is ready. -/
theorem Inv.spawnTask (h : Inv m) (hc : m.control = .running code) (pollFn : F) (state : S) :
    Inv (m.continueAt (m.executor.spawnTask pollFn state) code) := by
  obtain ⟨hcurrent, hwaiters, haccounts, hnested, -⟩ := h
  rw [hc] at hcurrent haccounts hnested
  constructor
  case current => exact hcurrent
  case waiters => exact hwaiters
  case accounts =>
    show Accounts (m.executor.nextId + 1)
      (ids (m.executor.ready ++ [⟨m.executor.nextId + 1, pollFn, state⟩]) ++ ids code.polling) _ _
    refine haccounts.spawn.perm ?_
    rw [ids_append, List.append_assoc]
    exact List.perm_middle.symm
  case nested => exact hnested
  case settled => trivial

/-- Nothing ever waits. -/
theorem Inv.wake_eq (h : Inv m) (taskId : ℕ) : m.executor.wake taskId = m.executor := by
  rw [Executor.wake, h.waiters]
  rfl

theorem Inv.enterLoop (h : Inv m) (hc : m.control = .running code) (loop : Loop K)
    (hbefore : loop.before = m.executor.current) (hready : loop.TargetReady m.executor) :
    Inv (m.enterLoop m.executor loop code) := by
  obtain ⟨hcurrent, hwaiters, haccounts, hnested, -⟩ := h
  rw [hc] at hcurrent haccounts hnested
  exact ⟨hcurrent, hwaiters, haccounts, ⟨hbefore.trans hcurrent, hnested⟩, hready⟩

variable {task : Task F S} {loop : Loop K}

variable {caller : Code F S K}

/-- The poll that is over was the innermost one, and its task is ready again. -/
theorem Inv.pending {k : K} (h : Inv m) (hc : m.control = .running (.poll task k loop caller))
    (hs : m.request (.poll task k loop caller) .pending = some m') : Inv m' := by
  obtain ⟨hcurrent, hwaiters, haccounts, hnested, -⟩ := h
  rw [hc] at hcurrent haccounts hnested
  obtain ⟨hpolls, hbefore, hcaller⟩ := hnested
  obtain rfl := Option.some.inj hs
  constructor
  case current => exact congrArg List.tail hcurrent
  case waiters => exact hwaiters
  case accounts =>
    refine haccounts.perm ?_
    show (ids m.executor.ready ++ task.id :: ids caller.polling).Perm
      (ids (m.executor.ready ++ [task]) ++ ids caller.polling)
    rw [ids_append, List.append_assoc]
    exact .refl _
  case nested => exact ⟨hbefore, hcaller⟩
  case settled =>
    cases loop with
    | run => trivial
    | blockOn id =>
      refine .inl ?_
      show id ∈ ids (m.executor.ready ++ [task])
      rw [ids_append]
      exact List.mem_append_right _ (hpolls ▸ List.mem_cons_self)

/-- The poll that is over was the innermost one, and its result is the last. -/
theorem Inv.ready {k : K} (h : Inv m) (hc : m.control = .running (.poll task k loop caller))
    (value : Int64) (hs : m.request (.poll task k loop caller) (.ready value) = some m') :
    Inv m' := by
  obtain ⟨hcurrent, hwaiters, haccounts, hnested, -⟩ := h
  rw [hc] at hcurrent haccounts hnested
  obtain ⟨hpolls, hbefore, hcaller⟩ := hnested
  obtain rfl := Option.some.inj hs
  constructor
  case current => exact congrArg List.tail hcurrent
  case waiters => exact hwaiters
  case accounts => exact (haccounts.perm List.perm_middle).finish value
  case nested => exact ⟨hbefore, hcaller⟩
  case settled =>
    cases loop with
    | run => trivial
    | blockOn id =>
      obtain rfl : task.id = id := hpolls
      exact .inr ⟨Finset.mem_insert_self _ _, List.mem_cons_self⟩

/-! ### What a loop polls next -/

variable {ex : Executor F S}

theorem popFront_eq_some {ex' : Executor F S} (h : ex.popFront = some (task, ex')) :
    ∃ rest, ex.ready = task :: rest ∧ ex' = { ex with ready := rest } := by
  rw [Executor.popFront] at h
  split at h
  · rename_i t rest hready
    obtain ⟨rfl, rfl⟩ := Prod.mk.inj (Option.some.inj h)
    exact ⟨rest, hready, rfl⟩
  · cases h

theorem popFront_eq_none : ex.popFront = none ↔ ex.ready = [] := by
  rw [Executor.popFront]
  split
  · rename_i hready
    rw [hready]
    exact iff_of_false nofun nofun
  · rename_i hready
    exact iff_of_true rfl hready

/-- A call that waits for a task finds it among the ready ones. -/
theorem pick_blockOn {id : ℕ} (k : Int64 → K) (before : List ℕ) (hready : id ∈ ids ex.ready) :
    ∃ task rest, ex.pick (.blockOn id k before) = some (task, { ex with ready := rest }) ∧
      task.id = id ∧ ex.ready.Perm (task :: rest) := by
  obtain ⟨t, ht, htid⟩ := List.mem_map.mp hready
  have hfound : (ex.ready.findIdx? fun t => t.id == id).isSome := by
    rw [List.findIdx?_isSome, List.any_eq_true]
    exact ⟨t, ht, beq_iff_eq.mpr htid⟩
  obtain ⟨pos, hpos⟩ := Option.isSome_iff_exists.mp hfound
  obtain ⟨hlt, hid, -⟩ := List.findIdx?_eq_some_iff_getElem.mp hpos
  refine ⟨ex.ready[pos], ex.ready.eraseIdx pos, ?_, beq_iff_eq.mp hid, ?_⟩
  · rw [Executor.pick, hpos]
    simp only [List.getElem?_eq_getElem hlt, Option.map_some]
  · exact (List.getElem_cons_eraseIdx_perm hlt).symm

/-- A pick takes one task out of the ready ones, the target of the loop if it has one. -/
theorem pick_eq_some {ex' : Executor F S} (hready : loop.TargetReady ex)
    (h : ex.pick loop = some (task, ex')) :
    loop.Polls task ∧ ∃ rest, ex' = { ex with ready := rest } ∧ ex.ready.Perm (task :: rest) := by
  cases loop with
  | run k before =>
    obtain ⟨rest, hrest, rfl⟩ := popFront_eq_some h
    exact ⟨trivial, rest, rfl, .of_eq hrest⟩
  | blockOn id k before =>
    obtain ⟨t, rest, hpick, hid, hperm⟩ := pick_blockOn k before hready
    obtain ⟨rfl, rfl⟩ := Prod.mk.inj (Option.some.inj (hpick.symm.trans h))
    exact ⟨hid, rest, rfl, hperm⟩

theorem pick_eq_none (hready : loop.TargetReady ex) (h : ex.pick loop = none) :
    ex.ready = [] ∧ ∃ k before, loop = .run k before := by
  cases loop with
  | run k before => exact ⟨popFront_eq_none.mp h, k, before, rfl⟩
  | blockOn id k before =>
    obtain ⟨t, rest, hpick, -⟩ := pick_blockOn k before hready
    rw [hpick] at h
    cases h

theorem Inv.startPoll (h : Inv m) (hc : m.control = .picking loop caller)
    (hpick : m.executor.pick loop = some (task, ex)) :
    Inv (Machine.startPoll P m loop caller task ex) := by
  obtain ⟨hcurrent, hwaiters, haccounts, hnested, hsettled⟩ := h
  rw [hc] at hcurrent haccounts hnested hsettled
  obtain ⟨hpolls, rest, rfl, hperm⟩ := pick_eq_some hsettled hpick
  constructor
  case current => exact congrArg (task.id :: ·) hcurrent
  case waiters => exact hwaiters
  case accounts =>
    refine (haccounts.perm ?_).other nofun
    show (ids m.executor.ready ++ ids caller.polling).Perm
      (ids rest ++ task.id :: ids caller.polling)
    exact ((hperm.map Task.id).append_right _).trans List.perm_middle.symm
  case nested => exact ⟨hpolls, hnested.1, hnested.2⟩
  case settled => trivial

theorem Inv.leaveLoop (h : Inv m) (hpolling : m.control.polling = caller.polling)
    (hcaller : caller.Nested) : Inv (m.leaveLoop caller loop) := by
  obtain ⟨hcurrent, hwaiters, haccounts, -, -⟩ := h
  rw [hpolling] at hcurrent haccounts
  cases loop with
  | run k before =>
    constructor
    case current => exact hcurrent.trans (congrArg ids (polling_goto k caller)).symm
    case waiters => exact hwaiters
    case accounts =>
      show Accounts _ (_ ++ ids (caller.goto k).polling) _ _
      rw [polling_goto]
      exact haccounts.other nofun
    case nested => exact (nested_goto k caller).mpr hcaller
    case settled => trivial
  | blockOn id k before =>
    constructor
    case current => exact hcurrent.trans (congrArg ids (polling_goto _ caller)).symm
    case waiters => exact hwaiters
    case accounts =>
      show Accounts _ (_ ++ ids (caller.goto (k m.executor.lastResult)).polling) _ _
      rw [polling_goto]
      exact (haccounts.forget id).other nofun
    case nested => exact (nested_goto _ caller).mpr hcaller
    case settled => trivial

/-! ### Steps and runs -/

theorem Inv.request (h : Inv m) (hc : m.control = .running code) {r : Request F S K}
    (hs : m.request code r = some m') : Inv m' := by
  cases r with
  | spawnTask pollFn state k =>
    obtain rfl := Option.some.inj hs
    exact (h.spawnTask hc pollFn state).goto rfl _
  | run k =>
    obtain rfl := Option.some.inj hs
    exact h.enterLoop hc _ rfl trivial
  | blockOn pollFn state k =>
    obtain rfl := Option.some.inj hs
    refine (h.spawnTask hc pollFn state).enterLoop rfl _ rfl ?_
    show m.executor.nextId + 1 ∈ ids (m.executor.ready ++ [⟨m.executor.nextId + 1, pollFn, state⟩])
    rw [ids_append]
    exact List.mem_append_right _ List.mem_cons_self
  | wake taskId k =>
    rw [Machine.request, h.wake_eq] at hs
    obtain rfl := Option.some.inj hs
    exact h.goto hc k
  | currentTask k | takeResult k | parkCurrent k | yieldNow k =>
    obtain rfl := Option.some.inj hs
    exact h.goto hc _
  | pending =>
    cases code with
    | main k => cases hs
    | poll task k loop caller => exact h.pending hc hs
  | ready value =>
    cases code with
    | main k => cases hs
    | poll task k loop caller => exact h.ready hc value hs

/-- **One step keeps the invariant.** -/
theorem Inv.step (h : Inv m) (hs : m.step P = some m') : Inv m' := by
  rw [Machine.step] at hs
  split at hs
  · rename_i code hc
    exact (h.withMemory (P.next code.point m.memory).2).request hc hs
  · rename_i loop caller hc
    have hnested := h.nested
    rw [hc] at hnested
    split at hs
    · rename_i task ex hpick
      obtain rfl := Option.some.inj hs
      exact h.startPoll hc hpick
    · obtain rfl := Option.some.inj hs
      exact h.leaveLoop (congrArg Control.polling hc) hnested.2
  · rename_i loop caller hc
    have hnested := h.nested
    rw [hc] at hnested
    split at hs
    · obtain rfl := Option.some.inj hs
      exact h.leaveLoop (congrArg Control.polling hc) hnested.2
    · rename_i hstop
      obtain rfl := Option.some.inj hs
      obtain ⟨hcurrent, hwaiters, haccounts, -, hsettled⟩ := h
      rw [hc] at hcurrent haccounts hsettled
      refine ⟨hcurrent, hwaiters, haccounts, hnested, ?_⟩
      cases loop with
      | run k before => trivial
      | blockOn id k before =>
        refine hsettled.resolve_right fun hdone => hstop ?_
        exact decide_eq_true hdone.1

/-- Every run keeps the invariant. -/
theorem inv_of_reachable {k : K} {memory : M} (h : (executing P k memory).Reachable m) : Inv m :=
  h.invariant (fun _ h₀ => h₀ ▸ inv_initial k memory) fun _ _ _ hm _ hs => hm.step hs

/-! ## What the calls are promised -/

/-- The requests of running code that the log tells apart. -/
theorem request_log {r : Request F S K} (hs : m.request code r = some m') :
    m'.log = m.log ∨ ∃ id v, m'.log = .completed id v :: m.log := by
  cases r with
  | pending =>
    cases code with
    | main k => cases hs
    | poll task k loop caller =>
      obtain rfl := Option.some.inj hs
      exact .inl rfl
  | ready value =>
    cases code with
    | main k => cases hs
    | poll task k loop caller =>
      obtain rfl := Option.some.inj hs
      exact .inr ⟨task.id, value, rfl⟩
  | _ =>
    obtain rfl := Option.some.inj hs
    exact .inl rfl

/-- The steps that the log tells apart. -/
theorem step_cases (hs : m.step P = some m') :
    m'.log = m.log ∨ (∃ id v, m'.log = .completed id v :: m.log) ∨
      (∃ loop caller task ex, m.control = .picking loop caller ∧
        m.executor.pick loop = some (task, ex) ∧ m' = Machine.startPoll P m loop caller task ex) ∨
      ∃ loop caller, m' = m.leaveLoop caller loop ∧
        (m.control = .picking loop caller ∧ m.executor.pick loop = none ∨
          m.control = .polled loop caller ∧ m.stopsAfterPoll loop) := by
  rw [Machine.step] at hs
  split at hs
  · rcases request_log hs with hsame | hdone
    · exact .inl hsame
    · exact .inr (.inl hdone)
  · rename_i loop caller hc
    split at hs
    · rename_i task ex hpick
      exact .inr (.inr (.inl ⟨loop, caller, task, ex, hc, hpick, (Option.some.inj hs).symm⟩))
    · rename_i hpick
      exact .inr (.inr (.inr ⟨loop, caller, (Option.some.inj hs).symm, .inl ⟨hc, hpick⟩⟩))
  · rename_i loop caller hc
    split at hs
    · rename_i hstop
      exact .inr (.inr (.inr ⟨loop, caller, (Option.some.inj hs).symm, .inr ⟨hc, hstop⟩⟩))
    · obtain rfl := Option.some.inj hs
      exact .inl rfl

/-- A poll starts: the task is the next one that its loop is to poll, and it has neither completed
nor is it being polled. -/
theorem Inv.poll_started (h : Inv m) (hs : m.step P = some m') {id : ℕ}
    (hlog : m'.log = .pollStarted id :: m.log) :
    (∀ v, .completed id v ∉ m.log) ∧ id ∉ ids m.control.polling ∧
      ((∃ k before caller, m.control = .picking (.run k before) caller ∧
          (ids m.executor.ready).head? = some id) ∨
        ∃ k before caller, m.control = .picking (.blockOn id k before) caller) := by
  rcases step_cases hs with hsame | ⟨i, v, hdone⟩ | ⟨loop, caller, task, ex, hc, hpick, rfl⟩ |
    ⟨loop, caller, rfl, -⟩
  · rw [hsame] at hlog
    exact absurd hlog.symm (List.cons_ne_self _ _)
  · rw [hdone] at hlog
    cases hlog
  · obtain rfl : task.id = id := Event.pollStarted.inj (List.cons.inj hlog).1
    have hsettled := h.settled
    rw [hc] at hsettled
    obtain ⟨hpolls, rest, rfl, hperm⟩ := pick_eq_some hsettled hpick
    have hmem : task.id ∈ ids m.executor.ready :=
      (hperm.map Task.id).mem_iff.mpr List.mem_cons_self
    refine ⟨h.accounts.no_result _ (List.mem_append_left _ hmem), fun hpolling => ?_, ?_⟩
    · exact (List.nodup_append.mp h.accounts.nodup).2.2 _ hmem _ hpolling rfl
    · cases loop with
      | run k before =>
        obtain ⟨rest', hready, -⟩ := popFront_eq_some hpick
        exact .inl ⟨k, before, caller, hc, by rw [hready]; rfl⟩
      | blockOn id k before =>
        obtain rfl : task.id = id := hpolls
        exact .inr ⟨k, before, caller, hc⟩
  · cases loop <;> cases hlog

/-- A `kryos_async_block_on` returns: with the one result of its own task, to the code that called
it. -/
theorem Inv.blockOn_returned (h : Inv m) (hs : m.step P = some m') {id : ℕ} {v : Int64}
    (hlog : m'.log = .blockOnReturned id v :: m.log) :
    .completed id v ∈ m.log ∧ (∀ w, .completed id w ∈ m.log → w = v) ∧
      ∃ k before caller, m.control = .polled (.blockOn id k before) caller ∧
        m'.control = .running (caller.goto (k v)) ∧ m'.executor.current = before := by
  rcases step_cases hs with hsame | ⟨i, v, hdone⟩ | ⟨loop, caller, task, ex, hc, hpick, rfl⟩ |
    ⟨loop, caller, rfl, hwhen⟩
  · rw [hsame] at hlog
    exact absurd hlog.symm (List.cons_ne_self _ _)
  · rw [hdone] at hlog
    cases hlog
  · cases hlog
  cases loop with
  | run k before => cases hlog
  | blockOn target k before =>
    obtain ⟨rfl, rfl⟩ := Event.blockOnReturned.inj (List.cons.inj hlog).1
    have hsettled := h.settled
    have hnested := h.nested
    have hcurrent := h.current
    rcases hwhen with ⟨hc, hpick⟩ | ⟨hc, hstop⟩
    · rw [hc] at hsettled
      have hready : (Loop.blockOn target k before).TargetReady m.executor := hsettled
      obtain ⟨-, k', before', heq⟩ := pick_eq_none hready hpick
      cases heq
    · rw [hc] at hsettled hnested hcurrent
      have hresult : .completed target m.executor.lastResult ∈ m.log := by
        rcases hsettled with hready | ⟨-, hresult⟩
        · -- A task that is ready has no result, and the call stopped because its task has one.
          obtain ⟨w, hw⟩ := h.accounts.completed_result target (of_decide_eq_true hstop)
          exact absurd hw (h.accounts.no_result target (List.mem_append_left _ hready) w)
        · exact hresult
      refine ⟨hresult, fun w hw => h.accounts.result_unique _ _ _ hw hresult, ?_⟩
      exact ⟨k, before, caller, hc, rfl, hcurrent.trans hnested.1.symm⟩

/-- A `kryos_async_run` returns: no task is ready. -/
theorem Inv.run_returned (h : Inv m) (hs : m.step P = some m')
    (hlog : m'.log = .runReturned :: m.log) :
    m.executor.ready = [] ∧ ∃ k before caller, m.control = .picking (.run k before) caller ∧
      m'.control = .running (caller.goto k) ∧ m'.executor = m.executor ∧
        m.executor.current = before := by
  rcases step_cases hs with hsame | ⟨i, v, hdone⟩ | ⟨loop, caller, task, ex, hc, hpick, rfl⟩ |
    ⟨loop, caller, rfl, hwhen⟩
  · rw [hsame] at hlog
    exact absurd hlog.symm (List.cons_ne_self _ _)
  · rw [hdone] at hlog
    cases hlog
  · cases hlog
  cases loop with
  | blockOn target k before => cases hlog
  | run k before =>
    rcases hwhen with ⟨hc, hpick⟩ | ⟨hc, hstop⟩
    · have hnested := h.nested
      have hcurrent := h.current
      rw [hc] at hnested hcurrent
      exact ⟨popFront_eq_none.mp hpick, k, before, caller, hc, rfl, rfl,
        hcurrent.trans hnested.1.symm⟩
    · cases hstop

/-- **Every call returns the result of its own task.** In every run of every program, however its
tasks call the executor: a `kryos_async_block_on` that returns gives its caller the one value that
the task it spawned has set; a poll starts with the task whose turn it is, which has never returned
`KRYOS_READY` and has no other poll in progress; a `kryos_async_run` that returns leaves no task
ready; and the current tasks are those with a poll in progress, so that either call leaves them as
it found them. -/
theorem executor_returns_own_results {k : K} {memory : M}
    (h : (executing P k memory).Reachable m) (hs : m.step P = some m') :
    (∀ id v, m'.log = .blockOnReturned id v :: m.log →
      .completed id v ∈ m.log ∧ (∀ w, .completed id w ∈ m.log → w = v) ∧
        ∃ k before caller, m.control = .polled (.blockOn id k before) caller ∧
          m'.control = .running (caller.goto (k v)) ∧ m'.executor.current = before) ∧
    (∀ id, m'.log = .pollStarted id :: m.log →
      (∀ v, .completed id v ∉ m.log) ∧ id ∉ ids m.control.polling ∧
        ((∃ k before caller, m.control = .picking (.run k before) caller ∧
            (ids m.executor.ready).head? = some id) ∨
          ∃ k before caller, m.control = .picking (.blockOn id k before) caller)) ∧
    (m'.log = .runReturned :: m.log →
      m.executor.ready = [] ∧ ∃ k before caller, m.control = .picking (.run k before) caller ∧
        m'.control = .running (caller.goto k) ∧ m'.executor = m.executor ∧
          m.executor.current = before) ∧
    m.executor.current = ids m.control.polling ∧ m'.executor.current = ids m'.control.polling := by
  have hm := inv_of_reachable h
  exact ⟨fun id v => hm.blockOn_returned hs, fun id => hm.poll_started hs, hm.run_returned hs,
    hm.current, (hm.step hs).current⟩

/-- The main program spawns task `1`, which needs two polls, and blocks on task `2`; that one blocks
on task `3` and adds to its result. -/
def nestedCalls : Program ℕ Unit (ℕ × Int64) ℕ where
  enter pollFn _ := (10 * pollFn, 0)
  next
    | (0, _), polls => (.spawnTask 1 () fun _ => (1, 0), polls)
    | (1, _), polls => (.blockOn 2 () fun v => (2, v), polls)
    | (2, _), polls => (.run (3, 0), polls)
    | (10, _), 0 => (.pending, 1)
    | (10, _), polls => (.ready 7, polls)
    | (20, _), polls => (.blockOn 3 () fun v => (21, v), polls)
    | (21, v), polls => (.ready (v + 1), polls)
    | (30, _), polls => (.ready 5, polls)
    | _, polls => (.pending, polls)

theorem nestedCalls_returns_own_results :
    ∃ m m', (executing nestedCalls (0, 0) 0).Reachable m ∧ m.step nestedCalls = some m' ∧
      m'.log = .blockOnReturned 2 6 :: m.log ∧ ∀ w, .completed 2 w ∈ m.log → w = 6 := by
  have h : (executing nestedCalls (0, 0) 0).schedule ⟨.empty, 0, .running (.main (0, 0)), []⟩
      (List.replicate 8 ()) = some _ := rfl
  exact ⟨_, _, Protocol.reachable_of_schedule rfl h, rfl, rfl,
    ((executor_returns_own_results (Protocol.reachable_of_schedule rfl h) rfl).1 2 6 rfl).2.1⟩

end Kryos.Runtime.AsyncExecutor
