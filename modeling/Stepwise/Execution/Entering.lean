import Stepwise.Execution.Cancelling

/-!
# Entering blocks

A block that is entered starts its reminder and then what it does. Some blocks leave at once: a loop
puts its body and its next pass after itself, a wait may be over before it starts, and a parallel
group may end while its threads are started. Then the next block is entered, until one waits for an
event or the sequence ends. Every entry uses up weight, so this ends.
-/

namespace Stepwise

variable {σ : Type} (services : Services σ)

namespace Sleep

/-- Starts a wait that has not passed already, holding reminders back while it lasts if it is
silent. -/
def start (s : Sleep) (address : List Nat) (w : World σ) : Outcome σ Sleep Unit :=
  let rewound := { s with remaining := fullLength s.value s.unit }
  if s.silent then
    match w.requestPause services with
    | (.error e, w) => ⟨.error e, rewound, w⟩
    | (.ok token, w) =>
      let (answer, w) := w.startCountdown services s.value s.unit address
      ⟨answer, { rewound with token := some token, route := address }, w⟩
  else
    let (answer, w) := w.startCountdown services s.value s.unit address
    ⟨answer, { rewound with route := address }, w⟩

end Sleep

namespace Block

/-- The blocks that a block puts after itself when it is entered. -/
def pass (b : Block) : List Block :=
  match b.activity with
  | .counted remaining _ body =>
    if 0 < remaining then
      body.map ofTemplate ++ [b.successor (.counted (remaining - 1) true body)]
    else []
  | _ => []

theorem weight_pass_lt (b : Block) : blocksWeight b.pass < b.weight := by
  obtain ⟨id, image, reminder, handle, hooks, text, activity⟩ := b
  cases activity with
  | counted remaining entered body =>
    by_cases h : 0 < remaining
    · obtain ⟨n, rfl⟩ : ∃ n : Nat, remaining = n + 1 := ⟨(remaining - 1).toNat, by omega⟩
      have hn : ((n : Int) + 1).toNat = n + 1 := by omega
      simp [pass, h, successor, weight, hn, Nat.succ_mul]
      omega
    · simpa only [pass, if_neg h, blocksWeight_nil] using weight_pos _
  | _ => simpa only [pass, blocksWeight_nil] using weight_pos _

end Block

namespace Sequence

/-- Ends the sequence. -/
def finish (s : Sequence) (w : World σ) : Outcome σ Sequence Unit :=
  if s.finished then ⟨.ok (), s, w⟩
  else
    ({ s with finished := true }.unregister services w).bind (fun s => s) fun _ s w =>
      ⟨.ok (), s, w.note (.finished s.address)⟩

end Sequence

/-- The weight of threads that are still to be started. -/
def pendingWeight : List Thread → Nat
  | [] => 0
  | t :: rest => (1 + blocksWeight t.execution.ahead) + pendingWeight rest

@[simp]
theorem pendingWeight_threadsFrom (address : List Nat) (first : Nat)
    (branches : List (List Template)) :
    pendingWeight (threadsFrom address first branches) = weightBranches branches := by
  induction branches generalizing first with
  | nil => rfl
  | cons templates rest ih =>
    simp [threadsFrom, pendingWeight, weightBranches, ih, Execution.fresh, Sequence.fresh]

mutual

/-- Enters the current block and, while the current block leaves at once, the one after it. -/
def Execution.enter (e : Execution) (w : World σ) : Outcome σ Execution Unit :=
  match _ahead : e.ahead with
  | [] => (e.toSequence.finish services w).within fun line => ⟨line, []⟩
  | b :: rest =>
    match b.register services w with
    | (.error error, w) => ⟨.error error, e, w⟩
    | (.ok handle, w) =>
      (Block.arrive e.address { b with handle } w).bind
        (fun (b, threads) => { e with ahead := b :: rest, threads })
        fun leaves (arrived, threads) w =>
          let w := e.noteEntered arrived w
          if leaves then
            let ahead := { b with handle }.pass ++ rest
            (arrived.leave services w).bind
              (fun left => ⟨{ e.toSequence with ahead := left :: ahead }, []⟩)
              fun _ left w => Execution.enter ⟨e.advance left ahead, []⟩ (e.noteLeft left w)
          else ⟨.ok (), { e with ahead := arrived :: rest, threads }, w⟩
termination_by 2 * blocksWeight e.ahead + 1
decreasing_by
  · have same : ({ b with handle } : Block).weight = b.weight := rfl
    rw [_ahead, blocksWeight_cons]
    omega
  · have less := Block.weight_pass_lt { b with handle }
    have same : ({ b with handle } : Block).weight = b.weight := rfl
    simp only [_ahead, Sequence.advance, blocksWeight_cons, blocksWeight_append]
    omega

/-- What a block does when it is entered, with the threads that it then has and whether it leaves at
once. -/
def Block.arrive (address : List Nat) (b : Block) (w : World σ) :
    Outcome σ (Block × List Thread) Bool :=
  match _activity : b.activity with
  | .task | .condition _ _ | .asked _ _ => ⟨.ok false, (b, []), w⟩
  | .counted remaining _ body =>
    let entered := { b with activity := .counted remaining true body }
    if 0 < remaining then ⟨.ok true, ({ entered with handle := none }, []), w.noteBuilt body⟩
    else ⟨.ok true, (entered, []), w⟩
  | .sleep sleep =>
    if 0 < sleep.value then
      ((sleep.start services address w).bind (fun s => s) fun _ s w => ⟨.ok false, s, w⟩).within
        fun sleep => ({ b with activity := .sleep sleep }, [])
    else
      let rewound := { sleep with remaining := Sleep.fullLength sleep.value sleep.unit }
      ⟨.ok true, ({ b with activity := .sleep rewound }, []), w⟩
  | .parallel join =>
    let opened := { join with completed := 0, done := false }
    let w := w.noteOpened join.branches
    if join.branches.isEmpty then
      ⟨.ok true, ({ b with activity := .parallel { opened with done := true } }, []), w⟩
    else
      (startThreads (join.threads address) [] opened w).within
        fun (join, threads) => ({ b with activity := .parallel join }, threads)
termination_by 2 * b.weight
decreasing_by
  simp [Block.weight, _activity, Join.threads]

/-- Starts the threads that are pending, in order, until the group ends or all are started. -/
def startThreads (pending started : List Thread) (join : Join) (w : World σ) :
    Outcome σ (Join × List Thread) Bool :=
  match pending with
  | [] => ⟨.ok false, (join, started), w⟩
  | ⟨branch, execution⟩ :: rest =>
    (Execution.enter { execution with started := true } w).bind
      (fun execution => (join, started ++ ⟨branch, execution⟩ :: rest))
      fun _ execution w =>
        if execution.finished then
          (join.complete services (started ++ rest) w).bind (fun part => part)
            fun ended (join, others) w =>
              if ended then ⟨.ok true, (join, others), w⟩
              else startThreads rest started join w
        else startThreads rest (started ++ [⟨branch, execution⟩]) join w
termination_by 2 * pendingWeight pending
decreasing_by
  all_goals simp [pendingWeight]
  all_goals omega

end

end Stepwise
