import LinuxFibers.Lib.ExactDouble

/-!
# The calendar queue of `multi_thread/src/calqueue.c`

One definition for each function of the file, under its name.  The priorities
are exact rationals, the widths and bucket tops are `ExactDouble`s, and the
`int` fields are integers.  `malloc` always succeeds.

* A bucket is the list of its nodes.  The `next` field of a node is the tail
  of the list.
* `calq` is the array of buckets and `calendar` is the window of `nbuckets`
  buckets that starts at `firstsub`.  A read or write of `calendar[i]` with `i`
  outside of `[0, nbuckets)` is a `Fault` and ends the run of the model.  The C
  call does not check the index: it uses the slot and goes on.  Such a slot was
  never written, or keeps pointers to freed nodes, or holds a usable list from a
  window that was left.  `held` marks the usable ones and `localinit` marks none,
  so the runs here end at the first index outside of the window.
  `LinuxFibers.CalQueue.Stray` keeps the marks and follows the calls further.
* The use of a node that is not there is a `Fault` too.
* A payload is a value of any type.  `calqueue_get` returns the pointer
  that was put, which is `none` when it is `NULL`.
* The thresholds are declared `double` and only ever hold whole numbers.

`calqueue_put` and `calqueue_deq` call `resize`, which calls both of them, in
`new_width` and to copy the nodes.  Both take the `resize` that they call as an
argument, and `resize` counts the levels of calls that are left.  A call below
the last level is the fault `nestedResize`, and no run meets it.
-/

namespace LinuxFibers.CalQueue

open LinuxFibers.Lib

/-- What stops a call. -/
inductive Fault where
  | calendarIndex (i : ℤ)
  | nullNode
  | nestedResize
  deriving DecidableEq

/-- `calqueue_node`, without its `next` field. -/
structure Node (α : Type) where
  priority : ℚ
  payload : α
  deriving DecidableEq

/-- `CALQSPACE`, the number of buckets of `calq`. -/
def calqspace : ℤ := 65536

/-- `MAXNBUCKETS`, the maximum number of buckets of the calendar. -/
def maxnbuckets : ℤ := 32768

/-- `calqueue`.  The pointer `calendar` always equals `calq + firstsub`, so it
is no field of its own.  `held` is no field of the source: it marks the slots
outside of the window that a call may use. -/
structure Calqueue (α : Type) where
  calq : ℤ → List (Node α)
  held : ℤ → Bool
  firstsub : ℤ
  nbuckets : ℤ
  qsize : ℤ
  lastbucket : ℤ
  resizeEnabled : Bool
  topThreshold : ℤ
  botThreshold : ℤ
  lastprio : ℚ
  buckettop : ExactDouble
  cwidth : ExactDouble

variable {α : Type}

namespace Calqueue

/-- The slot of the bucket `i` of the window, whatever `i` is. -/
def bucket (q : Calqueue α) (i : ℤ) : List (Node α) := q.calq (q.firstsub + i)

/-- The read of `calendar[i]`. -/
def calendar (q : Calqueue α) (i : ℤ) : Except Fault (List (Node α)) :=
  if 0 ≤ i ∧ i < q.nbuckets ∨ q.held (q.firstsub + i) = true then .ok (q.bucket i)
  else .error (.calendarIndex i)

/-- The write of `calendar[i]`, which follows a read of the same bucket. -/
def setCalendar (q : Calqueue α) (i : ℤ) (l : List (Node α)) : Calqueue α :=
  { q with calq := Function.update q.calq (q.firstsub + i) l }

end Calqueue

/-- `localinit`: an empty window of `nbucks` buckets at `qbase`, and no slot to
use outside of it. -/
def localinit (q : Calqueue α) (qbase nbucks : ℤ) (bwidth : ExactDouble)
    (startprio : ℚ) : Calqueue α :=
  let n := (ExactDouble.fin startprio / bwidth).toInt 64
  { calq := fun k => if qbase ≤ k ∧ k < qbase + nbucks then [] else q.calq k
    held := fun _ => false
    firstsub := qbase
    nbuckets := nbucks
    qsize := 0
    lastbucket := n.tmod nbucks
    resizeEnabled := q.resizeEnabled
    topThreshold := 2 * nbucks
    botThreshold := nbucks.tdiv 2 - 2
    lastprio := startprio
    buckettop := .fin (n + 1) * bwidth + .fin (1 / 2) * bwidth
    cwidth := bwidth }

/-- `calqueue_init` on any memory for the queue. -/
def calqueueInit (q : Calqueue α) : Calqueue α :=
  { localinit q 0 2 (.fin 1) 0 with resizeEnabled := true }

/-- `calqueue_empty`. -/
def calqueueEmpty (q : Calqueue α) : Bool := decide (q.qsize = 0)

/-! ## `calqueue_put` -/

/-- The scan of `calqueue_put` behind a node that stays in front: the new node
goes after the last node with a priority that is not greater. -/
def placeAfter (n : Node α) : List (Node α) → List (Node α)
  | [] => [n]
  | t :: rest => if t.priority ≤ n.priority then t :: placeAfter n rest else n :: t :: rest

/-- The new list of a bucket: the head case, and the scan behind the head. -/
def place (n : Node α) : List (Node α) → List (Node α)
  | [] => [n]
  | t :: rest => if n.priority < t.priority then n :: t :: rest else t :: placeAfter n rest

/-- The number of the bucket for a priority. -/
def bucketOf (q : Calqueue α) (priority : ℚ) : ℤ :=
  ((ExactDouble.fin priority / q.cwidth).toInt 32).tmod q.nbuckets

/-- `calqueue_put` up to the update of the size. -/
def insertNode (q : Calqueue α) (n : Node α) : Except Fault (Calqueue α) := do
  let i := bucketOf q n.priority
  let traverse ← q.calendar i
  return { q.setCalendar i (place n traverse) with qsize := q.qsize + 1 }

/-- Whether `calqueue_put` doubles the calendar. -/
def growing (q : Calqueue α) : Bool :=
  decide (q.topThreshold < q.qsize) && decide (q.nbuckets < maxnbuckets)

/-- `calqueue_put` over the `resize` that it calls. -/
def putWith (resize : Calqueue α → ℤ → Except Fault (Calqueue α)) (q : Calqueue α)
    (n : Node α) : Except Fault (Calqueue α) := do
  let q ← insertNode q n
  if growing q then resize q (2 * q.nbuckets) else return q

/-! ## `calqueue_deq` -/

/-- Whether the head of a bucket is below the top of the bucket. -/
def headBelow (top : ExactDouble) : List (Node α) → Bool
  | [] => false
  | e :: _ => (ExactDouble.fin e.priority).lt top

/-- The loop of `calqueue_deq` over the buckets of one year: the bucket to take
from, if one is found, and the bucket top at the end.  The loop ends when it is
back at `lastbucket`, so `nbuckets` rounds are enough for a `lastbucket` in the
window.  For another one the loop may go on, and the model stops there. -/
def scan (q : Calqueue α) : ℕ → ℤ → ExactDouble → Except Fault (Option ℤ × ExactDouble)
  | 0, _, _ => .error (.calendarIndex q.lastbucket)
  | rounds + 1, i, top => do
      let l ← q.calendar i
      if headBelow top l then return (some i, top)
      let next := if i + 1 = q.nbuckets then 0 else i + 1
      if next = q.lastbucket then return (none, top + q.cwidth)
      scan q rounds next (top + q.cwidth)

/-- One round of the direct search: `temp2` and `lowest` after bucket `i`. -/
def lowerHead (l : List (Node α)) (i : ℤ) (acc : ℤ × ℚ) : ℤ × ℚ :=
  match l with
  | [] => acc
  | e :: _ => if acc.1 = -1 ∨ e.priority < acc.2 then (i, e.priority) else acc

/-- The direct search for the minimum over the first `k` buckets.  `lowest`
starts at `LLONG_MAX`, and the first node found replaces it in any case. -/
def directSearch (q : Calqueue α) : ℕ → ℤ × ℚ
  | 0 => (-1, 2 ^ 63 - 1)
  | k + 1 => lowerHead (q.bucket k) k (directSearch q k)

/-- The bucket that `calqueue_deq` takes from, and the bucket top then. -/
def findBucket (q : Calqueue α) : Except Fault (ℤ × ExactDouble) := do
  match ← scan q q.nbuckets.toNat q.lastbucket q.buckettop with
  | (some i, top) => return (i, top)
  | (none, top) => return ((directSearch q q.nbuckets.toNat).1, top)

/-- The removal of the head of bucket `i`, at the label `calendar_process`. -/
def takeNode (q : Calqueue α) (i : ℤ) (top : ExactDouble) :
    Except Fault (Node α × Calqueue α) := do
  match ← q.calendar i with
  | [] => throw .nullNode
  | e :: rest =>
      return (e, { q.setCalendar i rest with
        lastbucket := i, lastprio := e.priority, qsize := q.qsize - 1, buckettop := top })

/-- `calqueue_deq` on a queue that is not empty, up to the removal of the
node. -/
def takeNext (q : Calqueue α) : Except Fault (Node α × Calqueue α) := do
  let (i, top) ← findBucket q
  takeNode q i top

/-- Whether `calqueue_deq` halves the calendar. -/
def shrinking (q : Calqueue α) : Bool := decide (q.qsize < q.botThreshold)

/-- `calqueue_deq` over the `resize` that it calls.  No node stands for
`NULL`. -/
def deqWith (resize : Calqueue α → ℤ → Except Fault (Calqueue α)) (q : Calqueue α) :
    Except Fault (Option (Node α) × Calqueue α) := do
  if q.qsize = 0 then return (none, q)
  let (e, q) ← takeNext q
  let q ← if shrinking q then resize q (q.nbuckets.tdiv 2) else pure q
  return (some e, q)

/-! ## `new_width` and `resize` -/

/-- The number of events that `new_width` samples. -/
def nsamples (q : Calqueue α) : ℤ :=
  let n := if q.qsize ≤ 5 then q.qsize else 5 + q.qsize.tdiv 10
  if 25 < n then 25 else n

/-- The loop of `new_width` that dequeues `n` events into `temp`. -/
def sample (deq : Calqueue α → Except Fault (Option (Node α) × Calqueue α)) :
    ℕ → Calqueue α → Except Fault (List (Node α) × Calqueue α)
  | 0, q => .ok ([], q)
  | n + 1, q => do
      match ← deq q with
      | (none, _) => throw .nullNode
      | (some e, q) =>
          let (temp, q) ← sample deq n q
          return (e :: temp, q)

/-- The loop that puts a list of nodes. -/
def putAll (put : Calqueue α → Node α → Except Fault (Calqueue α)) :
    List (Node α) → Calqueue α → Except Fault (Calqueue α)
  | [], q => .ok q
  | n :: rest, q => do
      let q ← put q n
      putAll put rest q

/-- The differences of the priorities of consecutive samples. -/
def separations : List (Node α) → List ℚ
  | a :: b :: rest => (b.priority - a.priority) :: separations (b :: rest)
  | _ => []

/-- `average`, the mean separation of the samples. -/
def average (temp : List (Node α)) : ℚ :=
  (separations temp).sum / ((temp.length : ℚ) - 1)

/-- The separations that are not large, whose number is `j`. -/
def closeSeparations (temp : List (Node α)) : List ℚ :=
  (separations temp).filter (fun s => decide (s < average temp * 2))

/-- The width that `new_width` computes from its samples. -/
def sampledWidth (temp : List (Node α)) : ExactDouble :=
  .fin (closeSeparations temp).sum / .fin ((closeSeparations temp).length : ℚ) * .fin 3

/-- `new_width` over the `resize` that its calls make. -/
def newWidthWith (resize : Calqueue α → ℤ → Except Fault (Calqueue α)) (q : Calqueue α) :
    Except Fault (ExactDouble × Calqueue α) := do
  if q.qsize < 2 then return (.fin 1, q)
  let (temp, q') ← sample (deqWith resize) (nsamples q).toNat { q with resizeEnabled := false }
  let q' ← putAll (putWith resize) temp q'
  return (sampledWidth temp, { q' with
    lastbucket := q.lastbucket, lastprio := q.lastprio, buckettop := q.buckettop,
    resizeEnabled := true })

/-- The loop that copies the first `k` buckets of the old calendar, from the
last one down. -/
def copyBuckets (put : Calqueue α → Node α → Except Fault (Calqueue α)) (oldbase : ℤ) :
    ℕ → Calqueue α → Except Fault (Calqueue α)
  | 0, q => .ok q
  | k + 1, q => do
      let q ← putAll put (q.calq (oldbase + k)) q
      copyBuckets put oldbase k q

/-- Where `resize` places the new window. -/
def newBase (q : Calqueue α) (newsize : ℤ) : ℤ :=
  if q.firstsub = 0 then calqspace - newsize else 0

/-- `resize`, with the number of levels of nested calls that are left. -/
def resize : ℕ → Calqueue α → ℤ → Except Fault (Calqueue α)
  | 0, q, _ => if q.resizeEnabled then .error .nestedResize else .ok q
  | levels + 1, q, newsize => do
      if !q.resizeEnabled then return q
      let (bwidth, q) ← newWidthWith (resize levels) q
      copyBuckets (putWith (resize levels)) q.firstsub q.nbuckets.toNat
        (localinit q (newBase q newsize) newsize bwidth q.lastprio)

/-! ## The functions of the header -/

/-- `calqueue_put`. -/
def calqueuePut (q : Calqueue α) (priority : ℚ) (payload : α) : Except Fault (Calqueue α) :=
  putWith (resize 1) q ⟨priority, payload⟩

/-- `calqueue_deq`. -/
def calqueueDeq (q : Calqueue α) : Except Fault (Option (Node α) × Calqueue α) :=
  deqWith (resize 1) q

/-- `calqueue_get`, on payloads that are pointers. -/
def calqueueGet {β : Type} (q : Calqueue (Option β)) :
    Except Fault (Option β × Calqueue (Option β)) := do
  let (node, q) ← calqueueDeq q
  return (node.bind Node.payload, q)

end LinuxFibers.CalQueue
