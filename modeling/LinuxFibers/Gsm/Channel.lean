import LinuxFibers.Lib.ExactDouble
import LinuxFibers.Lib.LinkedList

/-!
# The channels of a GSM cell

`multi_thread/src/channel.c` and the macros on channels of `model.h`.

* The list `channels` is a heap of nodes.  `malloc` succeeds and gives out the
  addresses in order, and `sir_data` is a part of its node, which allocates and
  frees it.
* A loop over the list has as much fuel as nodes were ever allocated.  A list
  with more nodes has no end.
* The random values are the argument `Draws`: what `Random`, `Expent` and the two
  gains return in one call of `ProcessEvent`, for a mean of 1.  In a loop there is
  one for each node.
* A power is an `ExactDouble`, since it is the result of a division.
-/

namespace LinuxFibers.Gsm

open LinuxFibers.Lib LinkedList

/-- `unsigned int`. -/
abbrev Word := BitVec 32

/-- `sir_data_per_cell`. -/
structure SirData where
  fading : ExactDouble
  power : ExactDouble

/-- `channel`, without its pointers. -/
structure Channel where
  channelId : ℤ
  sirData : SirData

/-- `lp_state_type`, with the nodes of its list and the next address. -/
structure LpState where
  channelCounter : Word
  arrivingCalls : Word
  completeCalls : Word
  blockedOnSetup : Word
  executedEvents : Word
  lvt : ℚ
  ta : ℚ
  refTa : ℚ
  taDuration : ℚ
  channelsPerCell : ℤ
  channelState : ℕ → Word
  channels : Option ℕ
  heap : Heap Channel
  brk : ℕ

/-- The random values of a call, and what `malloc` leaves in the memory that it
returns. -/
structure Draws where
  /-- `Random()` for the first call. -/
  start : ℚ
  /-- `Expent` for the duration of a call. -/
  duration : ℚ
  /-- `Expent` for the next arrival. -/
  arrival : ℚ
  /-- `Expent(1.0)` for each node that the new channel disturbs. -/
  fading : ℕ → ℚ
  /-- `generate_cross_path_gain()` for each of these nodes. -/
  crossPathGain : ℕ → ℚ
  /-- `Expent(1.0)` for the new channel. -/
  newFading : ℚ
  /-- `generate_path_gain()`. -/
  pathGain : ℚ
  /-- `Expent(1.0)` for each node in `fading_recheck`. -/
  recheck : ℕ → ℚ
  /-- The memory for `sir_data`. -/
  sirData : SirData
  /-- The memory for `channel_state`. -/
  channelState : ℕ → Word

/-- What ends the program. -/
inductive Fault where
  | unableToAllocate
  | unableToDeallocate
  | unknownType (type : ℤ)
  | negativeMean
  | noEvents
  | wrongReceiver
  | nullPointer
  | memory (e : Stuck)
  | misuse
  deriving DecidableEq

/-- The access to a pointer. -/
def access {α : Type} (x : Except Stuck α) : Except Fault α := x.mapError .memory

@[simp] theorem access_ok {α : Type} (x : α) : access (.ok x) = .ok x := rfl

@[simp] theorem ok_bind {ε α β : Type} (x : α) (f : α → Except ε β) :
    (Except.ok x >>= f) = f x := rfl

def minPower : ℚ := 3

def maxPower : ℚ := 3000

def sirAim : ℚ := 10

/-- `MSK << K`, for the bit of a channel in its word. -/
def channelBit (i : ℕ) : Word := 1#32 <<< (i % 32)

/-- `CHECK_CHANNEL`. -/
def checkChannel (channelState : ℕ → Word) (i : ℕ) : Bool :=
  channelState (i / 32) &&& channelBit i != 0

/-- `SET_CHANNEL`. -/
def setChannel (channelState : ℕ → Word) (i : ℕ) : ℕ → Word :=
  Function.update channelState (i / 32) (channelState (i / 32) ||| channelBit i)

/-- `RESET_CHANNEL`. -/
def resetChannel (channelState : ℕ → Word) (i : ℕ) : ℕ → Word :=
  Function.update channelState (i / 32) (channelState (i / 32) &&& ~~~channelBit i)

namespace LpState

/-- `fading_recheck`. -/
def fadingRecheck (s : LpState) (d : Draws) : Except Fault LpState := do
  let (heap, _) ← access <| forEach
    (fun a c () => ({ c with sirData := { c.sirData with fading := .fin (d.recheck a) } }, ()))
    s.brk s.heap s.channels ()
  return { s with heap := heap }

/-- The loop of `allocation` over the channels behind the new one. -/
def interference (d : Draws) (a : ℕ) (c : Channel) (summ : ExactDouble) :
    Channel × ExactDouble :=
  let c := { c with sirData := { c.sirData with fading := .fin (d.fading a) } }
  (c, summ + .fin (d.crossPathGain a) * c.sirData.power * c.sirData.fading)

/-- The signal data of the new channel. -/
def newSirData (d : Draws) (summ : ExactDouble) (sir : SirData) : SirData :=
  if summ = .fin 0 then { sir with power := .fin minPower }
  else
    let fading := .fin d.newFading
    let power := (.fin sirAim * summ) / (.fin d.pathGain * fading)
    let power := if power.lt (.fin minPower) then .fin minPower else power
    let power := if ExactDouble.lt (.fin maxPower) power then .fin maxPower else power
    ⟨fading, power⟩

/-- The first free channel. -/
def firstFree (s : LpState) : Option ℕ :=
  (List.range s.channelsPerCell.toNat).find? fun i => !checkChannel s.channelState i

/-- `allocation`. -/
def allocation (s : LpState) (d : Draws) : Except Fault (ℤ × LpState) :=
  match s.firstFree with
  | none => .error .unableToAllocate
  | some index => do
      let c := s.brk
      let new : Channel := ⟨index, d.sirData⟩
      let heap := Function.update s.heap c (some ⟨new, none, s.channels⟩)
      let heap ← access <| setNext heap s.channels (some c)
      let (heap, summ) ← access <| forEach (interference d) s.brk heap s.channels (.fin 0)
      let node ← access <| load heap c
      let value := { node.value with sirData := newSirData d summ node.value.sirData }
      let s := { s with
        channelState := setChannel s.channelState index
        channels := some c
        heap := Function.update heap c (some { node with value := value })
        brk := c + 1 }
      let s ← s.fadingRecheck d
      return (index, s)

/-- The removal of a node from the list in `deallocation`. -/
def unlink (s : LpState) (c : ℕ) : Except Fault LpState := do
  let node ← access <| load s.heap c
  if s.channels = some c then
    let heap ← access <| setNext s.heap node.prev none
    return { s with channels := node.prev, heap := heap }
  else
    let heap ← access <| setPrev s.heap node.next node.prev
    let node ← access <| load heap c
    let heap ← access <| setNext heap node.prev node.next
    return { s with heap := heap }

/-- `deallocation`. -/
def deallocation (s : LpState) (ch : ℤ) (d : Draws) : Except Fault LpState := do
  match ← access <| find? (fun c => c.channelId == ch) s.brk s.heap s.channels with
  | none => .error .unableToDeallocate
  | some c =>
      let s ← s.unlink c
      let s := { s with
        channelState := resetChannel s.channelState ch.toNat
        heap := free s.heap c }
      s.fadingRecheck d

end LpState

end LinuxFibers.Gsm
