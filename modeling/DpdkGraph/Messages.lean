import DpdkGraph.SubNode
import DpdkGraph.Transition

/-!
# The messages to the sub nodes

The main node tells each sub node what the intervals are (`PreInfo`) and
which shards are its duty (`Duty`), sends it the shovels of these shards
(`Shovel`), and tells it when that was all (`Reshard`). `AddTask` starts a
thread for each message, and only for some of them the main node waits until
the thread is through. On the sub node each message has a thread of its own
as well, and `sharder_handle` works on what all of them share.

A message is through when its handler has returned and the answer has come
back, or when the connection could not be made. The state says of each
message where it is, and for each sub node what its handlers have done.
-/

namespace MessageOrder

/-- The messages. A shovel has the number of its shard, and the packets of a
shard are numbered. -/
inductive Message where
  | preInfo (n : ℕ)
  | duty (n : ℕ)
  | shovel (k j : ℕ)
  | reshard (n : ℕ)
deriving DecidableEq

/-- **Where a message is.** -/
inductive Phase where
  /-- `AddTask` has not been called. -/
  | unsent
  /-- Its thread has been started. -/
  | sending
  /-- It waits to be accepted. -/
  | connected
  /-- Its handler has come to a point. -/
  | handling (pc : ℕ)
  /-- Its handler has returned. -/
  | answered
  /-- Its thread has ended, and the flag is set. -/
  | through
deriving DecidableEq

/-- Its handler has not begun. -/
def Phase.early : Phase → Bool
  | unsent | sending | connected | handling 0 => true
  | _ => false

/-- What the main node does. -/
inductive Op where
  /-- `AddTask`. -/
  | addTask (m : Message)
  /-- `while(done == 0)`. -/
  | await (m : Message)
deriving DecidableEq

/-- **What the main node has to do.** -/
structure Job where
  /-- `IPs.size()`, the number of sub nodes. -/
  subs : ℕ
  /-- `nshards`. -/
  nshards : ℕ
  /-- The shards whose buffers get full in `reshovel`, one after the
  other. -/
  flushes : List ℕ
  /-- They are shards. -/
  lt : ∀ k ∈ flushes, k < nshards

namespace Job

variable (job : Job)

/-- The sub node of a shard; the last one is the main node. -/
def nodeOf (k : ℕ) : ℕ := k % (job.subs + 1)

/-- The shards of a node. -/
def duties (n : ℕ) : List ℕ := (List.range job.nshards).filter fun k => job.nodeOf k = n

/-- The shards of the packets that are sent: when a buffer is full
(`finish_reshovel_block`), and at the end (`finish_reshovel`). -/
def sends : List ℕ :=
  (job.flushes ++ List.range job.nshards).filter fun k => job.nodeOf k ≠ job.subs

end Job

/-- The packets, numbered from `packages` on. -/
def shovelsFrom (packages : ℕ → ℕ) : List ℕ → List Message
  | [] => []
  | k :: l => .shovel k (packages k) ::
    shovelsFrom (Function.update packages k (packages k + 1)) l

namespace Job

variable (job : Job)

/-- The messages with edges. -/
def shovels : List Message := shovelsFrom (fun _ => 0) job.sends

/-- What the `Reshard` message says: the number of packets of each duty. -/
def packs (n : ℕ) : List ℕ := (job.duties n).map fun k => job.sends.count k

/-- The node that gets a message. -/
def node : Message → ℕ
  | .preInfo n | .duty n | .reshard n => n
  | .shovel k _ => job.nodeOf k

/-- `write_shards` up to the end of the reshovel, except `Reshard`. -/
def sending : List Op :=
  (List.range job.subs).flatMap (fun n =>
      [.addTask (.preInfo n), .addTask (.duty n), .await (.preInfo n)])
    ++ job.shovels.flatMap fun m => [.addTask m, .await m]

/-- The main node's program. -/
def script : List Op :=
  job.sending ++ (List.range job.subs).map fun n => .addTask (.reshard n)

end Job

/-! ## The state -/

/-- **A sub node**, as its handlers see it. -/
structure Node where
  /-- `interval_done`. -/
  intervalDone : Bool
  /-- The shards in `duties`. -/
  duties : List ℕ
  /-- For how many duties there is memory in `shovel_mem`, or a file in
  `fds`. -/
  slots : ℕ
  /-- `packages` and `edges` are there. -/
  counters : Bool
  /-- The packets that have been stored: the shard whose slot it is, and the
  number of the packet. -/
  stored : List (ℕ × ℕ)
  /-- `packages`, by the index of the duty. -/
  packages : ℕ → ℕ
  /-- Something has been used before it was there. -/
  spoiled : Bool
  /-- `sub_done`. -/
  subDone : Bool
  /-- `receivers`. -/
  receivers : List Message

/-- **The main node and the sub nodes.** -/
structure State where
  /-- What the main node has yet to do. -/
  todo : List Op
  /-- `senders`. -/
  senders : List Message
  /-- Where the messages are. -/
  phase : Message → Phase
  /-- The sub nodes. -/
  node : ℕ → Node

/-- A sub node that waits for data. -/
def Node.new : Node := ⟨false, [], 0, false, [], fun _ => 0, false, false, []⟩

/-- Nothing has been sent. -/
def init (job : Job) : State := ⟨job.script, [], fun _ => .unsent, fun _ => Node.new⟩

/-- A message goes on. -/
def State.setPhase (s : State) (m : Message) (p : Phase) : State :=
  { s with phase := Function.update s.phase m p }

/-- A sub node goes on. -/
def State.setNode (s : State) (n : ℕ) (x : Node) : State :=
  { s with node := Function.update s.node n x }

/-! ## The handlers -/

/-- `finish_receive` at the duty with index `i`. -/
def finishReceive (packs : List ℕ) (i : ℕ) (x : Node) : Option (Node × Phase) :=
  if i < x.duties.length then
    if x.counters then
      if packs.getD i 0 ≤ x.packages i then some (x, .handling (i + 1)) else none
    else some ({ x with spoiled := true }, .handling (i + 1))
  else some ({ x with subDone := true }, .answered)

/-- `__sync_add_and_fetch(&packages[i], 1)`. -/
def Node.count (x : Node) (i : ℕ) : Node :=
  { x with packages := Function.update x.packages i (x.packages i + 1) }

/-- **`sharder_handle`**, from one point to the next. -/
def handler (job : Job) : Message → ℕ → Node → Option (Node × Phase)
  -- `set_intervals`
  | .preInfo _, 0, x => some (x, .handling 1)
  | .preInfo _, _, x => some ({ x with intervalDone := true }, .answered)
  -- `set_duties`
  | .duty n, 0, x => some ({ x with duties := job.duties n }, .handling 1)
  | .duty _, 1, x => if x.intervalDone then some (x, .handling 2) else none
  | .duty _, i + 2, x =>
    if i < x.duties.length then some ({ x with slots := i + 1 }, .handling (i + 3))
    else some ({ x with counters := true, packages := fun _ => 0 }, .answered)
  -- `write_shovel_data`
  | .shovel k j, 0, x =>
    if x.duties.idxOf k < x.slots then
      some ({ x with stored := x.stored ++ [(k, j)] }, .handling 1)
    else some ({ x with spoiled := true }, .handling 1)
  | .shovel k _, _, x =>
    if x.counters then some (x.count (x.duties.idxOf k), .answered)
    else some ({ x with spoiled := true }, .answered)
  | .reshard n, i, x => finishReceive (job.packs n) i x

/-! ## The steps -/

/-- Who goes on. -/
inductive Action where
  /-- The main node. -/
  | main
  /-- The message's thread gets a connection. -/
  | connect (m : Message)
  /-- It gets none, and gives up. -/
  | fail (m : Message)
  /-- The sub node takes the connection, and starts a thread. -/
  | accept (m : Message)
  /-- That thread. -/
  | handle (m : Message)
  /-- The answer comes back, and the message's thread ends. -/
  | reply (m : Message)
deriving DecidableEq

/-- The handler has returned, so that its thread ends. -/
def Phase.returned : Phase → Bool
  | answered | through => true
  | _ => false

/-- The threads that are kept when one more is started: when there are more
than four, all of them have to end first. -/
def joined (ended : Message → Bool) (threads : List Message) : Option (List Message) :=
  if 4 < threads.length then if threads.all ended then some [] else none
  else some threads

/-- The main node's next step. -/
def mainStep (s : State) : Option State :=
  match s.todo with
  | [] => none
  | .addTask m :: todo =>
    (joined (fun m => s.phase m = .through) s.senders).map fun senders =>
      { s.setPhase m .sending with todo := todo, senders := senders ++ [m] }
  | .await m :: todo => if s.phase m = .through then some { s with todo := todo } else none

/-- A handler's next step. -/
def handleStep (job : Job) (s : State) (m : Message) : Option State :=
  match s.phase m with
  | .handling pc =>
    (handler job m pc (s.node (job.node m))).map fun x =>
      (s.setPhase m x.2).setNode (job.node m) x.1
  | _ => none

/-- The sub node's waiter starts a thread for a message. -/
def acceptStep (job : Job) (s : State) (m : Message) : Option State :=
  if s.phase m = .connected then
    (joined (fun m => (s.phase m).returned) (s.node (job.node m)).receivers).map
      fun receivers => (s.setPhase m (.handling 0)).setNode (job.node m)
        { s.node (job.node m) with receivers := receivers ++ [m] }
  else none

/-- **One step.** -/
def step (job : Job) (s : State) : Action → Option State
  | .main => mainStep s
  | .connect m => if s.phase m = .sending then some (s.setPhase m .connected) else none
  | .fail m => if s.phase m = .sending then some (s.setPhase m .through) else none
  | .accept m => acceptStep job s m
  | .handle m => handleStep job s m
  | .reply m => if s.phase m = .answered then some (s.setPhase m .through) else none

/-- **What a step does.** -/
inductive Next (job : Job) (s : State) : Action → State → Prop
  | addTask (m : Message) (todo : List Op) (senders : List Message)
      (htodo : s.todo = .addTask m :: todo) :
      Next job s .main { s.setPhase m .sending with todo := todo, senders := senders }
  | await (m : Message) (todo : List Op) (htodo : s.todo = .await m :: todo)
      (hm : s.phase m = .through) : Next job s .main { s with todo := todo }
  | connect (m : Message) (hm : s.phase m = .sending) :
      Next job s (.connect m) (s.setPhase m .connected)
  | fail (m : Message) (hm : s.phase m = .sending) :
      Next job s (.fail m) (s.setPhase m .through)
  | accept (m : Message) (receivers : List Message) (hm : s.phase m = .connected) :
      Next job s (.accept m) ((s.setPhase m (.handling 0)).setNode (job.node m)
        { s.node (job.node m) with receivers := receivers })
  | handle (m : Message) (pc : ℕ) (x : Node) (p : Phase) (hm : s.phase m = .handling pc)
      (hx : handler job m pc (s.node (job.node m)) = some (x, p)) :
      Next job s (.handle m) ((s.setPhase m p).setNode (job.node m) x)
  | reply (m : Message) (hm : s.phase m = .answered) :
      Next job s (.reply m) (s.setPhase m .through)

variable {job : Job} {s s' : State} {a : Action} {m : Message} {n : ℕ}

/-- What a step of the protocol does: the cases of `step`, with what its guards
ask for. -/
theorem next_of_step (h : step job s a = some s') : Next job s a s' := by
  cases a with
  | main =>
    rw [step, mainStep] at h
    split at h
    · cases h
    · next m todo htodo =>
      obtain ⟨senders, -, rfl⟩ := Option.map_eq_some_iff.mp h
      exact .addTask m todo _ htodo
    · next m todo htodo =>
      split at h
      · next hm =>
        cases h
        exact .await m todo htodo hm
      · cases h
  | connect m =>
    rw [step] at h
    split at h
    · next hm =>
      cases h
      exact .connect m hm
    · cases h
  | fail m =>
    rw [step] at h
    split at h
    · next hm =>
      cases h
      exact .fail m hm
    · cases h
  | accept m =>
    rw [step, acceptStep] at h
    split at h
    · next hm =>
      obtain ⟨receivers, -, rfl⟩ := Option.map_eq_some_iff.mp h
      exact .accept m _ hm
    · cases h
  | handle m =>
    rw [step, handleStep] at h
    split at h
    · next pc hm =>
      obtain ⟨⟨x, p⟩, hx, rfl⟩ := Option.map_eq_some_iff.mp h
      exact .handle m pc x p hm hx
    · cases h
  | reply m =>
    rw [step] at h
    split at h
    · next hm =>
      cases h
      exact .reply m hm
    · cases h

@[simp] theorem phase_setNode (s : State) (n : ℕ) (x : Node) :
    (s.setNode n x).phase = s.phase := rfl

@[simp] theorem node_setPhase (s : State) (m : Message) (p : Phase) :
    (s.setPhase m p).node = s.node := rfl

@[simp] theorem phase_setPhase_self (s : State) (m : Message) (p : Phase) :
    (s.setPhase m p).phase m = p := Function.update_self ..

theorem phase_setPhase_of_ne (s : State) {m m' : Message} (h : m' ≠ m) (p : Phase) :
    (s.setPhase m p).phase m' = s.phase m' := Function.update_of_ne h ..

@[simp] theorem node_setNode_self (s : State) (n : ℕ) (x : Node) :
    (s.setNode n x).node n = x := Function.update_self ..

theorem node_setNode_of_ne (s : State) {n n' : ℕ} (h : n' ≠ n) (x : Node) :
    (s.setNode n x).node n' = s.node n' := Function.update_of_ne h ..

end MessageOrder
