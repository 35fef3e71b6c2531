import LinuxFibers.Gsm.Channel

/-!
# The GSM cell simulation

`ProcessEvent` and `pack_event` of `multi_thread/src/model.c`, `recompute_ta` of
`channel.c`, `Expent` of `numerical.c` and the loop of `main_loop` in `main.c`.

* The queue of a fiber is the list of its pending events, and a turn of the loop
  says which of them `calqueue_get` returns.
* Times are exact rationals.
* The state that `FlsGetValue(state_idx)` points to is part of the loop, since no
  other fiber has its pointer.
-/

namespace LinuxFibers.Gsm

open LinuxFibers.Lib

def completeCalls : Word := 15000

def channelsPerCell : ℤ := 1000

/-- `TA`. -/
def interarrival : ℚ := 16 / 100

/-- `TA_DURATION`. -/
def duration : ℚ := 60

/-- `INIT`. -/
def initEvent : ℤ := 0

def startCall : ℤ := 20

def endCall : ℤ := 21

/-- `msg_t`. -/
structure Msg where
  sender : Word
  receiver : Word
  type : ℤ
  timestamp : ℚ
  channel : ℤ
  deriving DecidableEq

/-- `pack_event`. -/
def packEvent (cell : Word) (type : ℤ) (stamp : ℚ) (ch : ℤ) : Msg :=
  ⟨cell, cell, type, stamp, ch⟩

/-- `Expent`, with the value for the mean 1. -/
def expent (mean draw : ℚ) : Except Fault ℚ :=
  if mean < 0 then .error .negativeMean else .ok (mean * draw)

def hour : ℤ := 3600

def day : ℤ := 24 * hour

def week : ℤ := 7 * day

/-- `recompute_ta`. -/
def recomputeTa (refTa timeNow : ℚ) : ℚ :=
  let now := ((ExactDouble.fin timeNow).toInt 32).tmod week
  if 5 * day < now then refTa * 5
  else
    let now := now.tmod day
    if now < 85 / 10 * (hour : ℚ) then refTa * 4
    else if now < 13 * hour then refTa * (8 / 10)
    else if now < 15 * hour then refTa * (25 / 10)
    else if now < 19 * hour then refTa * 2
    else if now < 21 * hour then refTa * (22 / 10)
    else refTa * (45 / 10)

/-- The state that `INIT` makes.  The loop clears the words of `channel_state` up
to the one of the last channel. -/
def initState (d : Draws) : LpState where
  channelCounter := BitVec.ofInt 32 channelsPerCell
  arrivingCalls := 0
  completeCalls := 0
  blockedOnSetup := 0
  executedEvents := 0
  lvt := 0
  ta := interarrival
  refTa := interarrival
  taDuration := duration
  channelsPerCell := channelsPerCell
  channelState := fun i =>
    if i < (BitVec.ofInt 32 channelsPerCell).toNat / 32 + 1 then 0 else d.channelState i
  channels := none
  heap := fun _ => none
  brk := 0

/-- What `ProcessEvent` returns: 0, 1, or the address of a new state. -/
inductive Ret where
  | zero
  | one
  | state (s : LpState)

/-- The value as a pointer to a state. -/
def Ret.pointer : Ret → Option LpState
  | .state s => some s
  | _ => none

/-- The value as a condition. -/
def Ret.nonzero : Ret → Bool
  | .zero => false
  | _ => true

/-- The case `START_CALL`. -/
def startCallEvent (me : Word) (now : ℚ) (s : LpState) (q : List Msg) (d : Draws) :
    Except Fault (LpState × List Msg) := do
  let s := { s with arrivingCalls := s.arrivingCalls + 1 }
  let (s, q) ←
    if s.channelCounter = 0 then
      pure ({ s with blockedOnSetup := s.blockedOnSetup + 1 }, q)
    else do
      let s := { s with channelCounter := s.channelCounter - 1 }
      let timestamp := now + (← expent s.taDuration d.duration)
      let (ch, s) ← s.allocation d
      pure (s, q ++ [packEvent me endCall timestamp ch])
  let s := { s with ta := recomputeTa s.refTa now }
  let timestamp := now + (← expent s.ta d.arrival)
  return (s, q ++ [packEvent me startCall timestamp (-1)])

/-- The case `END_CALL`. -/
def endCallEvent (ch : ℤ) (s : LpState) (d : Draws) : Except Fault (Ret × LpState) := do
  let s := { s with
    channelCounter := s.channelCounter + 1
    completeCalls := s.completeCalls + 1 }
  let s ← s.deallocation ch d
  return (if s.completeCalls = completeCalls then .one else .zero, s)

/-- `ProcessEvent`: what it returns, the state behind its argument and the queue. -/
def processEvent (msg : Msg) (state : Option LpState) (q : List Msg) (d : Draws) :
    Except Fault (Ret × Option LpState × List Msg) :=
  let me := msg.receiver
  let now := msg.timestamp
  let state := state.map fun s => { s with lvt := now, executedEvents := s.executedEvents + 1 }
  if msg.type = initEvent then
    .ok (.state (initState d), state, q ++ [packEvent me startCall (20 * d.start) (-1)])
  else if msg.type = startCall then
    match state with
    | none => .error .nullPointer
    | some s => do
        let (s, q) ← startCallEvent me now s q d
        return (.zero, some s, q)
  else if msg.type = endCall then
    match state with
    | none => .error .nullPointer
    | some s => do
        let (ret, s) ← endCallEvent msg.channel s d
        return (ret, some s, q)
  else .error (.unknownType msg.type)

/-- The loop of a fiber: its identifier, the state in its local storage, its
pending events, and whether it has left the loop. -/
structure Loop where
  id : Word
  state : Option LpState
  pending : List Msg
  stopped : Bool

/-- `main_loop` up to the loop.  The event has the time and the channel that
`malloc` left in it. -/
def Loop.start (id : Word) (timestamp : ℚ) (channel : ℤ) : Loop :=
  ⟨id, none, [⟨id, id, initEvent, timestamp, channel⟩], false⟩

/-- A turn of the loop: the pending event that `calqueue_get` returns, and the
random values. -/
structure Turn where
  pick : ℕ
  draws : Draws

/-- A turn of the loop of `main_loop`. -/
def Loop.exec (s : Loop) (t : Turn) : Except Fault Loop :=
  if s.stopped then .error .misuse
  else if s.pending = [] then .error .noEvents
  else
    match s.pending[t.pick]? with
    | none => .error .misuse
    | some event =>
        if event.receiver ≠ s.id then .error .wrongReceiver
        else do
          let (ret, state, q) ← processEvent event s.state (s.pending.eraseIdx t.pick) t.draws
          if event.type = initEvent then
            return { s with state := ret.pointer, pending := q }
          else
            return { s with state := state, pending := q, stopped := ret.nonzero }

/-- The turns of the loop of a fiber. -/
def Step (s : Loop) (t : Turn) (u : Loop) : Prop := s.exec t = .ok u

end LinuxFibers.Gsm
