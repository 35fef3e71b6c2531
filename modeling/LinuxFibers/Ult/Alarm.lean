import LinuxFibers.Ult.Basic

/-!
# User-space fibers under the alarm

`ult_switch_to` of `multi_thread/src/ult.c` when the handler of `SIGALRM`,
`schedule` of `multi_thread/src/main.c`, can start between any two of its steps.
The handler calls `ult_switch_to` itself, so a thread has a list of calls in
progress, the innermost first.  The list is empty while the thread executes the
code of a fiber.

* A thread can call `ult_switch_to` at any point.  In the code of a fiber this is
  a call of the program or of the handler, elsewhere it is a call of the handler,
  which ends when the call ends.
* A saved context has the calls that are in progress below its own by value.  In
  the program they are on the stack of the fiber, where a second thread changes them
  if it jumps there before the first has left (the window of `StackExclusion`).
  Here the two do not disturb each other.
* `main` makes its fibers before `signal(SIGALRM, schedule)` and before the other
  threads see `init_complete`, so that `ult_creat` is one step here, with the two
  jumps of `context_create`.  It ends behind the `set_jmp` of
  `context_switch_create`, which returns the `rax` of the creator.
-/

namespace LinuxFibers.Ult.Alarm

/-- The next step of a call of `ult_switch_to`.  The last two are also steps of
`context_switch_create` and `context_create_boot`, when a saved `set_jmp`
returns 0. -/
inductive Point where
  /-- `from = current` and the test of `to`. -/
  | entry (ult : Option ℕ)
  /-- `ult_trylock(to)`. -/
  | trylock (source : Option ℕ) (target : ℕ)
  /-- `current = to`. -/
  | setCurrent (source : Option ℕ) (target : ℕ)
  /-- The `set_jmp` of `context_switch(from, to)`. -/
  | setJmp (source : Option ℕ) (target : ℕ)
  /-- The `ult_unlock` of a macro. -/
  | unlock (k : ContextSwitch)
  /-- The `long_jmp` of a macro. -/
  | longJmp (k : ContextSwitch)
  deriving DecidableEq

/-- Where a saved context continues: in `ult_convert`, or behind the `set_jmp` of
a macro with the calls in progress below it. -/
inductive Resume where
  | convert
  | switched (k : ContextSwitch) (calls : List Point)
  deriving DecidableEq

/-- `exec_context_t`. -/
structure ExecContext where
  resume : Resume
  rax : Word
  deriving DecidableEq

/-- A thread: the fiber whose code it executes, its thread-local variables
`current` and `context_creat`, and its calls in progress. -/
structure Thread where
  stack : Option ℕ
  current : Option ℕ
  contextCreat : Option ℕ
  calls : List Point
  deriving DecidableEq

/-- A thread on its first stack. -/
def Thread.start : Thread := ⟨none, none, none, []⟩

/-- A program with its fibers. -/
abbrev State := Fibers ExecContext Thread

/-- The start of the program. -/
def State.init : State := ⟨fun _ => false, fun _ => none, [], 0, fun _ => Thread.start⟩

/-- What a thread does: it calls a function, or takes the next step of its
innermost call.  `creat` has the `rax` that is saved for the new fiber. -/
inductive Act where
  | convert
  | creat (boot : Word)
  | call (ult : Option ℕ)
  | step
  deriving DecidableEq

/-- A step of the thread `tid`, and the value of `rax` at a `set_jmp`. -/
structure Turn where
  tid : ℕ
  act : Act
  rax : Word

namespace State

/-- The calls of a thread. -/
def setCalls (s : State) (tid : ℕ) (calls : List Point) : State :=
  s.setThread tid { s.thread tid with calls := calls }

/-- `ult_convert`, called once by each thread. -/
def ultConvert (s : State) (tid : ℕ) (rax : Word) : Except Fault State :=
  let th := s.thread tid
  match th.stack with
  | some _ => .error .misuse
  | none =>
      let ctx := s.ultId
      let s := { s with ultId := ctx + 1, returned := ctx :: s.returned }
      let s := (s.setRunning ctx true).setContext ctx ⟨.convert, rax⟩
      .ok (s.setThread tid { th with stack := some ctx, current := some ctx })

/-- `ult_creat`: the new fiber is saved in `context_create_boot` and its flag is
clear, the creator is saved in `context_create` and its flag is set again. -/
def ultCreat (s : State) (tid : ℕ) (boot rax : Word) : Except Fault State :=
  let th := s.thread tid
  match th.current with
  | none => .error .nullPointer
  | some creator =>
      let ctx := s.ultId
      let s := { s with ultId := ctx + 1, returned := ctx :: s.returned }
      let s := (s.setContext creator ⟨.switched (.contextCreate ctx) [], rax⟩).setRunning
        creator true
      let s := (s.setContext ctx ⟨.switched .contextCreateBoot [], boot⟩).setRunning ctx false
      .ok (s.setThread tid
        { th with
          contextCreat := some ctx
          calls := if Ult.State.savesAgain rax then [.unlock (.contextCreate ctx)] else [] })

/-- The thread in the fiber `f`, behind the `set_jmp` of the context `c`, which
returns `value`. -/
def resume (s : State) (tid f : ℕ) (c : ExecContext) (value : Word) : State :=
  let th := { s.thread tid with stack := some f }
  match c.resume with
  | .convert => s.setThread tid { th with current := some f, calls := [] }
  | .switched k calls =>
      if Ult.State.savesAgain value then s.setThread tid { th with calls := .unlock k :: calls }
      else s.setThread tid { th with calls := calls }

/-- The next step of the innermost call `p`, above the calls `rest`. -/
def ultSwitchTo (s : State) (tid : ℕ) (p : Point) (rest : List Point) (rax : Word) :
    Except Fault State :=
  let th := s.thread tid
  match p with
  | .entry none => .ok (s.setCalls tid rest)
  | .entry (some target) => .ok (s.setCalls tid (.trylock th.current target :: rest))
  | .trylock source target =>
      if target ∉ s.returned then .error .misuse
      else if s.running target then .ok (s.setCalls tid rest)
      else .ok (setCalls (s.setRunning target true) tid (.setCurrent source target :: rest))
  | .setCurrent source target =>
      .ok (s.setThread tid
        { th with current := some target, calls := .setJmp source target :: rest })
  | .setJmp source target =>
      match source with
      | none => .error .nullPointer
      | some f =>
          let k := .ultSwitchTo f target
          .ok (setCalls (s.setContext f ⟨.switched k rest, rax⟩) tid (.unlock k :: rest))
  | .unlock k =>
      match k.old th.current th.contextCreat with
      | none => .error .nullPointer
      | some f => .ok (setCalls (s.setRunning f false) tid (.longJmp k :: rest))
  | .longJmp k =>
      match k.new th.current with
      | none => .error .nullPointer
      | some f =>
          match s.context f with
          | none => .error .noContext
          | some c => .ok (s.resume tid f c (k.value c.rax))

/-- One step of a thread. -/
def exec (s : State) (m : Turn) : Except Fault State :=
  match m.act, (s.thread m.tid).calls with
  | .convert, [] => s.ultConvert m.tid m.rax
  | .creat boot, [] => s.ultCreat m.tid boot m.rax
  | .call ult, calls => .ok (s.setCalls m.tid (.entry ult :: calls))
  | .step, p :: rest => s.ultSwitchTo m.tid p rest m.rax
  | _, _ => .error .misuse

variable {s : State} {q q' : ℕ}

@[simp] theorem setCalls_self (calls : List Point) :
    (s.setCalls q calls).thread q = { s.thread q with calls := calls } :=
  Fibers.setThread_self _

theorem setCalls_of_ne (h : q' ≠ q) (calls : List Point) :
    (s.setCalls q calls).thread q' = s.thread q' :=
  Fibers.setThread_of_ne h _

end State

/-- The steps of the threads of a program. -/
def Step (s : State) (m : Turn) (t : State) : Prop :=
  s.exec m = .ok t

end LinuxFibers.Ult.Alarm
