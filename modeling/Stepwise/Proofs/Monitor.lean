import Stepwise.Execution
import Stepwise.Block.Leaving
import Stepwise.Proofs.Ending

/-!
# Following a run request by request

All that an operation does to the world is a series of requests to the host and notes in the
journal, and the first request that is refused is the last of them. A monitor looks at each of them.
It is told what the parts of the run still have to do: the reminders they are to give back and the
callbacks they are to make, each of which they do once. If it stays fine over each single request
and note, then it does so over whole operations, whatever the host answers.
-/

namespace Stepwise

variable {σ : Type}

/-- What a block or a sequence does once, when it leaves or is given up. -/
inductive Duty where
  | giveBack (id : Nat)
  | callBack (name : String)
  deriving DecidableEq

def LeaveHook.duty : LeaveHook → Duty
  | .removeReminder id => .giveBack id
  | .custom name _ => .callBack name

/-- The duty to give back the reminder that is running. -/
def handleDuties (handle : Option Nat) : List Duty := handle.toList.map .giveBack

def Block.duties (b : Block) : List Duty := handleDuties b.handle ++ b.hooks.map LeaveHook.duty

def blocksDuties (blocks : List Block) : List Duty := blocks.flatMap Block.duties

mutual

/-- The duties of a sequence, of its blocks and of its threads. -/
def Execution.duties : Execution → List Duty
  | ⟨line, threads⟩ =>
    handleDuties line.handle ++
      (blocksDuties line.behind ++ (blocksDuties line.ahead ++ threadsDuties threads))

def threadsDuties : List Thread → List Duty
  | [] => []
  | ⟨_, execution⟩ :: rest => execution.duties ++ threadsDuties rest

end

@[simp]
theorem blocksDuties_nil : blocksDuties [] = [] := rfl

@[simp]
theorem blocksDuties_cons (b : Block) (rest : List Block) :
    blocksDuties (b :: rest) = b.duties ++ blocksDuties rest := List.flatMap_cons

@[simp]
theorem blocksDuties_append (first second : List Block) :
    blocksDuties (first ++ second) = blocksDuties first ++ blocksDuties second :=
  List.flatMap_append

@[simp]
theorem threadsDuties_nil : threadsDuties [] = [] := rfl

theorem threadsDuties_cons (t : Thread) (rest : List Thread) :
    threadsDuties (t :: rest) = t.execution.duties ++ threadsDuties rest := by
  obtain ⟨branch, execution⟩ := t
  rw [threadsDuties]

@[simp]
theorem threadsDuties_append (first second : List Thread) :
    threadsDuties (first ++ second) = threadsDuties first ++ threadsDuties second := by
  induction first with
  | nil => rfl
  | cons t first ih =>
    rw [List.cons_append, threadsDuties_cons, threadsDuties_cons, ih, List.append_assoc]

theorem Execution.duties_eq (e : Execution) :
    e.duties = handleDuties e.handle ++
      (blocksDuties e.behind ++ (blocksDuties e.ahead ++ threadsDuties e.threads)) := by
  obtain ⟨line, threads⟩ := e
  rw [duties]

mutual

/-- The addresses of the execution and of all threads in it are in the place. -/
def Execution.Within (place : List Nat → Prop) : Execution → Prop
  | ⟨line, threads⟩ => place line.address ∧ allWithin place threads

def allWithin (place : List Nat → Prop) : List Thread → Prop
  | [] => True
  | ⟨_, execution⟩ :: rest => execution.Within place ∧ allWithin place rest

end

section Places

variable {place : List Nat → Prop}

theorem allWithin_cons (t : Thread) (rest : List Thread) :
    allWithin place (t :: rest) ↔ t.execution.Within place ∧ allWithin place rest := by
  obtain ⟨branch, execution⟩ := t
  rw [allWithin]

theorem allWithin_forall (threads : List Thread) :
    allWithin place threads ↔ ∀ t ∈ threads, t.execution.Within place := by
  induction threads with
  | nil => simp [allWithin]
  | cons t rest ih => rw [allWithin_cons, ih, List.forall_mem_cons]

theorem allWithin_append (first second : List Thread) :
    allWithin place (first ++ second) ↔ allWithin place first ∧ allWithin place second := by
  induction first with
  | nil => simp [allWithin]
  | cons t first ih => rw [List.cons_append, allWithin_cons, allWithin_cons, ih, and_assoc]

theorem Execution.within_iff (e : Execution) :
    e.Within place ↔ place e.address ∧ allWithin place e.threads := by
  obtain ⟨line, threads⟩ := e
  rw [Within]

mutual

theorem Execution.within_all (all : ∀ address, place address) : ∀ e : Execution, e.Within place
  | ⟨line, threads⟩ => ⟨all line.address, allWithin_all all threads⟩

theorem allWithin_all (all : ∀ address, place address) :
    ∀ threads : List Thread, allWithin place threads
  | [] => trivial
  | ⟨_, execution⟩ :: rest => ⟨execution.within_all all, allWithin_all all rest⟩

end

theorem allWithin_threadsFrom {address : List Nat} (inside : ∀ n, place (address ++ [n]))
    (first : Nat) (branches : List (List Template)) :
    allWithin place (threadsFrom address first branches) := by
  induction branches generalizing first with
  | nil => trivial
  | cons templates rest ih => exact ⟨⟨inside first, trivial⟩, ih (first + 1)⟩

end Places

/-- What the request does of what is still to be done. -/
def Request.duties : Request → List Duty
  | .removeReminder id => [.giveBack id]
  | .hook name => [.callBack name]
  | _ => []

/-- The call of the host that a request stands for. A callback answers for itself. -/
inductive Services.Serves (services : Services σ) :
    Request → (σ → Except ServiceError Unit × σ) → Prop
  | removeReminder (id : Nat) :
    services.Serves (.removeReminder id) (services.removeReminder id)
  | setPaused (paused : Bool) : services.Serves (.setPaused paused) (services.setPaused paused)
  | startCountdown (value : Int64) (unit : TimeUnit) (route : List Nat) :
    services.Serves (.startCountdown value unit route) (services.startCountdown value unit route)
  | forceFinish : services.Serves .forceFinish services.forceFinish
  | cancelCountdown (route : List Nat) :
    services.Serves (.cancelCountdown route) (services.cancelCountdown route)
  | hook (name : String) (answer : Except ServiceError Unit) :
    services.Serves (.hook name) fun h => (answer, h)

/-- An entry that is no request to the host, about a sequence in the place if about any. -/
def Entry.IsNote (place : List Nat → Prop) : Entry → Prop
  | .added _ _ _ | .asked _ _ => False
  | .entered address _ _ | .left address _ _ | .finished address => place address
  | .pauseRequested _ | .built _ | .opened _ _ | .passedOver _ => True

/-- `Fine w duties` is to hold as long as no request is refused, with the duties that are left then,
and `Failed e w duties` once one has been refused with the error `e`. A monitor may forget duties.
It follows sequences by their addresses, and with a sequence all threads in it. -/
structure Monitor (services : Services σ) where
  Fine : World σ → List Duty → Prop
  Failed : ServiceError → World σ → List Duty → Prop
  Follows : List Nat → Prop
  branch : ∀ {address}, Follows address → ∀ n, Follows (address ++ [n])
  fewer : ∀ {w duties left}, Fine w duties →
    (∀ d, left.count d ≤ duties.count d) → Fine w left
  failed_fewer : ∀ {e w duties left}, Failed e w duties →
    (∀ d, left.count d ≤ duties.count d) → Failed e w left
  pause : ∀ {w duties} pause, Fine w duties → Fine { w with pause } duties
  failed_pause : ∀ {e w duties} pause, Failed e w duties → Failed e { w with pause } duties
  note : ∀ {w duties entry}, entry.IsNote Follows → Fine w duties → Fine (w.note entry) duties
  added : ∀ {w duties} label r, Fine w duties →
    Answered (fun id w => Fine w (.giveBack id :: duties)) (fun e w => Failed e w duties)
      (w.addReminder services label r)
  asked : ∀ {w duties request call}, services.Serves request call →
    Fine w (request.duties ++ duties) →
    Answered (fun _ w => Fine w duties) (fun e w => Failed e w duties) (w.ask request call)

namespace Monitor

variable {services : Services σ} (m : Monitor services) {w : World σ} {duties : List Duty}

/-- The monitor stays fine, with the duties that an answer leaves, or has failed with those that
were left then. -/
def Takes {α : Type} (granted : α → List Duty) (refused : List Duty) :
    Except ServiceError α × World σ → Prop :=
  Answered (fun a w => m.Fine w (granted a)) fun e w => m.Failed e w refused

/-- The same for an operation on a part of the run, which keeps some of its duties. -/
def Keeps {τ α : Type} (duties : τ → List Duty) (o : Outcome σ τ α) : Prop :=
  o.Ends (fun _ part w => m.Fine w (duties part)) fun e part w => m.Failed e w (duties part)

variable {m}

theorem noteBuilt (templates : List Template) (fine : m.Fine w duties) :
    m.Fine (w.noteBuilt templates) duties := by
  induction templates generalizing w with
  | nil => exact fine
  | cons t rest ih =>
    have noted : m.Fine (w.note (.built t)) duties := m.note trivial fine
    have same : w.noteBuilt (t :: rest) = (w.note (.built t)).noteBuilt rest := by
      simp [World.noteBuilt, World.note]
    rw [same]
    exact ih noted

theorem noteOpened (branches : List (List Template)) (fine : m.Fine w duties) :
    m.Fine (w.noteOpened branches) duties := by
  induction branches generalizing w with
  | nil => exact fine
  | cons templates rest ih =>
    have noted : m.Fine (w.note (.opened none none)) duties := m.note trivial fine
    exact ih (noteBuilt templates noted)

theorem requestPause (fine : m.Fine w duties) :
    m.Takes (fun _ => duties) duties (w.requestPause services) := by
  have noted : m.Fine (w.note (.pauseRequested w.pause.next)) duties := m.note trivial fine
  have set := m.asked (.setPaused true) noted
  unfold World.requestPause PauseRequests.request World.setPaused
  by_cases paused : w.pause.isPaused
  · simp only [paused, if_true]
    exact m.pause _ noted
  · simp only [paused]
    exact set.elim (fun _ _ fine => m.pause _ fine) fun _ _ failed => m.failed_pause _ failed

theorem releasePause (token : Nat) (fine : m.Fine w duties) :
    m.Takes (fun _ => duties) duties (w.releasePause services token) := by
  have set := m.asked (.setPaused false) fine
  unfold World.releasePause PauseRequests.release World.setPaused
  by_cases outstanding : token ∈ w.pause.outstanding
  · simp only [outstanding, if_true]
    split
    · exact m.pause _ fine
    · exact set.elim (fun _ _ fine => m.pause _ fine) fun _ _ failed => m.failed_pause _ failed
  · simp only [outstanding, if_false]
    exact m.pause _ fine

end Monitor

end Stepwise
