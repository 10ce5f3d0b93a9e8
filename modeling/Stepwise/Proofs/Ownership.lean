import Stepwise.Proofs.Reliability

/-!
# Who holds a reminder

Every reminder that was added and not yet removed is held in one place of a run: by a sequence, by a
block, or by a hook that a condition handed it to. The book of a host is balanced by the numbers
that are held. Nothing is assumed of its countdown: one that refuses to be cancelled makes a run
lose reminders, which then are active and held nowhere, and even so none is removed twice.
-/

namespace Stepwise

variable {σ : Type}

def LeaveHook.held : LeaveHook → List Nat
  | .removeReminder id => [id]
  | .custom _ _ => []

def Block.held (b : Block) : List Nat := b.handle.toList ++ b.hooks.flatMap LeaveHook.held

def blocksHeld (blocks : List Block) : List Nat := blocks.flatMap Block.held

mutual

/-- The numbers held by a sequence, by its blocks and in its threads. -/
def Execution.held : Execution → List Nat
  | ⟨line, threads⟩ =>
    line.handle.toList ++ (blocksHeld line.behind ++ (blocksHeld line.ahead ++ threadsHeld threads))

def threadsHeld : List Thread → List Nat
  | [] => []
  | ⟨_, execution⟩ :: rest => execution.held ++ threadsHeld rest

end

@[simp]
theorem blocksHeld_nil : blocksHeld [] = [] := rfl

@[simp]
theorem blocksHeld_cons (b : Block) (rest : List Block) :
    blocksHeld (b :: rest) = b.held ++ blocksHeld rest := List.flatMap_cons

@[simp]
theorem blocksHeld_append (first second : List Block) :
    blocksHeld (first ++ second) = blocksHeld first ++ blocksHeld second := List.flatMap_append

@[simp]
theorem threadsHeld_nil : threadsHeld [] = [] := rfl

theorem threadsHeld_cons (t : Thread) (rest : List Thread) :
    threadsHeld (t :: rest) = t.execution.held ++ threadsHeld rest := by
  obtain ⟨branch, execution⟩ := t
  rw [threadsHeld]

@[simp]
theorem threadsHeld_append (first second : List Thread) :
    threadsHeld (first ++ second) = threadsHeld first ++ threadsHeld second := by
  induction first with
  | nil => rfl
  | cons t first ih =>
    rw [List.cons_append, threadsHeld_cons, threadsHeld_cons, ih, List.append_assoc]

theorem Execution.held_eq (e : Execution) :
    e.held = e.handle.toList ++
      (blocksHeld e.behind ++ (blocksHeld e.ahead ++ threadsHeld e.threads)) := by
  obtain ⟨line, threads⟩ := e
  rw [held]

theorem blocksHeld_eq_nil {blocks : List Block} (none : ∀ b ∈ blocks, b.held = []) :
    blocksHeld blocks = [] := by
  rw [blocksHeld, List.flatMap_eq_nil_iff]
  exact none

theorem Block.held_ofTemplate (t : Template) : (ofTemplate t).held = [] := by
  rw [held, handle_ofTemplate, hooks_ofTemplate]
  rfl

@[simp]
theorem blocksHeld_ofTemplates (ts : List Template) :
    blocksHeld (ts.map Block.ofTemplate) = [] := by
  refine blocksHeld_eq_nil fun b mem => ?_
  obtain ⟨t, -, rfl⟩ := List.mem_map.mp mem
  exact Block.held_ofTemplate t

/-- The reminders of a host are a book, whatever its countdown does. -/
structure Services.KeepsBook (services : Services σ) (book : σ → ReminderBook) : Prop where
  addReminder : ∀ label r h, (services.addReminder label r h).1 = ((book h).add label r).1 ∧
    book (services.addReminder label r h).2 = ((book h).add label r).2
  removeReminder : ∀ id h, (services.removeReminder id h).1 = ((book h).remove id).1 ∧
    book (services.removeReminder id h).2 = ((book h).remove id).2
  setPaused : ∀ paused h, (services.setPaused paused h).1 = ((book h).setPaused paused).1 ∧
    book (services.setPaused paused h).2 = ((book h).setPaused paused).2
  startCountdown : ∀ value unit route h, book (services.startCountdown value unit route h).2 = book h
  forceFinish : ∀ h, book (services.forceFinish h).2 = book h
  cancelCountdown : ∀ route h, book (services.cancelCountdown route h).2 = book h

theorem InMemory.keepsBook : services.KeepsBook InMemory.reminders where
  addReminder _ _ _ := ⟨rfl, rfl⟩
  removeReminder _ _ := ⟨rfl, rfl⟩
  setPaused _ _ := ⟨rfl, rfl⟩
  startCountdown _ _ _ _ := rfl
  forceFinish _ := rfl
  cancelCountdown _ _ := rfl

namespace ReminderBook

/-- A book that takes every request and has only been asked to remove what was active. -/
structure Sound (b : ReminderBook) : Prop where
  willing : b.Willing
  distinct : b.ids.Nodup
  numbered : ∀ id ∈ b.ids, id ≤ b.lastId
  known : b.unknownRemovals = 0
  total : b.added = b.removed + b.active.length

theorem sound_empty : empty.Sound := ⟨rfl, List.nodup_nil, List.forall_mem_nil _, rfl, rfl⟩

variable {b : ReminderBook}

theorem Sound.add (sound : b.Sound) (label : String) (r : Reminder) :
    ∃ b', b.add label r = (.ok (b.lastId + 1), b') ∧ b'.Sound ∧
      b'.ids = b.ids ++ [b.lastId + 1] := by
  refine ⟨{ b with
    lastId := b.lastId + 1
    active := b.active ++ [(b.lastId + 1, label, r)]
    added := b.added + 1 }, if_neg ?_, ?_, ?_⟩
  · rw [sound.willing]
    exact Bool.false_ne_true
  · have new : b.lastId + 1 ∉ b.ids := by
      intro mem
      have := sound.numbered _ mem
      omega
    refine ⟨sound.willing, ?_, ?_, sound.known, ?_⟩
    · simp only [ids, List.map_append, List.map_cons, List.map_nil]
      refine List.nodup_append.mpr ⟨sound.distinct, List.pairwise_singleton _ _, ?_⟩
      intro id mem new_id mem_new same
      rw [List.mem_singleton.mp mem_new] at same
      exact new (same ▸ mem)
    · intro id mem
      simp only [ids, List.map_append, List.map_cons, List.map_nil, List.mem_append,
        List.mem_singleton] at mem
      rcases mem with mem | rfl
      · exact Nat.le_succ_of_le (sound.numbered id mem)
      · exact Nat.le_refl _
    · have total := sound.total
      simp only [List.length_append, List.length_singleton]
      omega
  · simp [ids]

theorem Sound.remove (sound : b.Sound) {id : Nat} (mem : id ∈ b.ids) :
    ∃ b', b.remove id = (.ok (), b') ∧ b'.Sound ∧ b'.ids = b.ids.erase id := by
  have ids_eq : (b.active.filter (·.1 ≠ id)).map (·.1) = b.ids.erase id := by
    rw [sound.distinct.erase_eq_filter, ids, List.filter_map]
    congr 1
    exact List.filter_congr fun entry _ => decide_not
  refine ⟨{ b with
    active := b.active.filter (·.1 ≠ id)
    removed := b.removed + 1 }, ?_, ?_, ids_eq⟩
  · have willing : ¬ b.failing = true := by
      rw [sound.willing]
      exact Bool.false_ne_true
    simp only [ReminderBook.remove, willing, mem]
    rfl
  · refine ⟨sound.willing, ?_, ?_, sound.known, ?_⟩
    · show ((b.active.filter (·.1 ≠ id)).map (·.1)).Nodup
      rw [ids_eq]
      exact sound.distinct.erase id
    · intro other mem'
      have mem' : other ∈ (b.active.filter (·.1 ≠ id)).map (·.1) := mem'
      rw [ids_eq] at mem'
      exact sound.numbered other (List.mem_of_mem_erase mem')
    · show b.added = b.removed + 1 + (b.active.filter (·.1 ≠ id)).length
      have total := sound.total
      have fewer : (b.active.filter (·.1 ≠ id)).length = b.active.length - 1 := by
        rw [← List.length_map (·.1), ids_eq, List.length_erase_of_mem mem, ids, List.length_map]
      have positive : 0 < b.active.length := by
        rw [← List.length_map (·.1)]
        exact List.length_pos_of_mem mem
      omega

theorem Sound.setPaused (sound : b.Sound) (paused : Bool) :
    ∃ b', b.setPaused paused = (.ok (), b') ∧ b'.Sound ∧ b'.ids = b.ids := by
  have willing : ¬ b.failing = true := by
    rw [sound.willing]
    exact Bool.false_ne_true
  unfold ReminderBook.setPaused
  rw [if_neg willing]
  split
  · exact ⟨b, rfl, sound, rfl⟩
  · exact ⟨_, rfl, ⟨sound.willing, sound.distinct, sound.numbered, sound.known, sound.total⟩, rfl⟩

theorem active_setPaused (paused : Bool) (b : ReminderBook) :
    (b.setPaused paused).2.active = b.active := by
  unfold ReminderBook.setPaused
  split
  · rfl
  · split <;> rfl

theorem lastId_setPaused (paused : Bool) (b : ReminderBook) :
    (b.setPaused paused).2.lastId = b.lastId := by
  unfold ReminderBook.setPaused
  split
  · rfl
  · split <;> rfl

theorem lastId_remove (id : Nat) (b : ReminderBook) : (b.remove id).2.lastId = b.lastId := by
  unfold ReminderBook.remove
  split
  · rfl
  · split <;> rfl

theorem lastId_add {b : ReminderBook} (willing : b.Willing) (label : String) (r : Reminder) :
    (b.add label r).2.lastId = b.lastId + 1 := by
  unfold Willing at willing
  simp only [add, willing]
  rfl

end ReminderBook

/-- The host refused to cancel a countdown. -/
def Entry.isRefusal : Entry → Bool
  | .asked (.cancelCountdown _) (.error _) => true
  | _ => false

namespace World

/-- No countdown was refused to be cancelled. -/
def Lossless (w : World σ) : Prop := ∀ entry ∈ w.journal, entry.isRefusal = false

/-- The book is sound, the numbers are active in it, and they are all that are unless the host has
refused to cancel a countdown. -/
structure Owns (book : σ → ReminderBook) (w : World σ) (ids : List Nat) : Prop where
  sound : (book w.host).Sound
  active : ∀ id, ids.count id ≤ (book w.host).ids.count id
  complete : w.Lossless → ∀ id, (book w.host).ids.count id ≤ ids.count id

variable {book : σ → ReminderBook} {w w' : World σ} {ids : List Nat}

theorem Lossless.of_suffix (lossless : w'.Lossless) (grown : w.journal <:+ w'.journal) :
    w.Lossless := fun entry mem => lossless entry (grown.subset mem)

theorem Owns.congr {ids' : List Nat} (owns : w.Owns book ids)
    (same : ∀ id, ids'.count id = ids.count id) : w.Owns book ids' where
  sound := owns.sound
  active id := by
    rw [same]
    exact owns.active id
  complete lossless id := by
    rw [same]
    exact owns.complete lossless id

/-- A step that leaves the book as it is. -/
theorem Owns.of_same (owns : w.Owns book ids) (same : book w'.host = book w.host)
    (grown : w.journal <:+ w'.journal) : w'.Owns book ids where
  sound := by
    rw [same]
    exact owns.sound
  active := by
    rw [same]
    exact owns.active
  complete lossless := by
    rw [same]
    exact owns.complete (lossless.of_suffix grown)

theorem Owns.note (owns : w.Owns book ids) (entry : Entry) : (w.note entry).Owns book ids :=
  owns.of_same rfl (List.suffix_cons _ _)

theorem Owns.noteBuilt (owns : w.Owns book ids) (templates : List Template) :
    (w.noteBuilt templates).Owns book ids :=
  owns.of_same rfl (List.suffix_append _ _)

theorem Owns.noteOpened (owns : w.Owns book ids) (branches : List (List Template)) :
    (w.noteOpened branches).Owns book ids := by
  induction branches generalizing w with
  | nil => exact owns
  | cons templates rest ih => exact ih ((owns.note _).noteBuilt templates)

/-- Numbers that are lost after the host has refused to cancel a countdown. -/
theorem Owns.drop {lost : List Nat} (owns : w.Owns book (lost ++ ids)) (lossy : ¬ w.Lossless) :
    w.Owns book ids where
  sound := owns.sound
  active id := by
    have := owns.active id
    rw [List.count_append] at this
    omega
  complete lossless := absurd lossless lossy

theorem ask_owns {call : σ → Except ServiceError Unit × σ} (keeps : ∀ h, book (call h).2 = book h)
    (request : Request) (owns : w.Owns book ids) : (w.ask request call).2.Owns book ids :=
  owns.of_same (keeps w.host) (List.suffix_cons _ _)

section Reminders

variable {services : Services σ} (keeps : services.KeepsBook book)
include keeps

theorem addReminder_owns (label : String) (r : Reminder) (owns : w.Owns book ids) :
    ∃ id w', w.addReminder services label r = (.ok id, w') ∧ w'.Owns book (id :: ids) := by
  obtain ⟨b', added, sound', ids'⟩ := owns.sound.add label r
  obtain ⟨answer, becomes⟩ := keeps.addReminder label r w.host
  rw [added] at answer becomes
  refine ⟨(book w.host).lastId + 1, (w.addReminder services label r).2,
    Prod.ext answer rfl, ?_⟩
  have becomes : book (w.addReminder services label r).2.host = b' := becomes
  have count : ∀ id, b'.ids.count id = (book w.host).ids.count id +
      if (book w.host).lastId + 1 = id then 1 else 0 := by
    intro id
    simp [ids', List.count_singleton, beq_iff_eq]
  refine ⟨becomes ▸ sound', fun id => ?_, fun lossless id => ?_⟩
  · have := owns.active id
    rw [becomes, count, List.count_cons]
    simp only [beq_iff_eq]
    omega
  · have := owns.complete (lossless.of_suffix (List.suffix_cons _ _)) id
    rw [becomes, count, List.count_cons]
    simp only [beq_iff_eq]
    omega

theorem removeReminder_owns {id : Nat} (owns : w.Owns book (id :: ids)) :
    ∃ w', w.removeReminder services id = (.ok (), w') ∧ w'.Owns book ids := by
  have mem : id ∈ (book w.host).ids := by
    have := owns.active id
    rw [List.count_cons_self] at this
    exact List.count_pos_iff.mp (by omega)
  obtain ⟨b', removed, sound', ids'⟩ := owns.sound.remove mem
  obtain ⟨answer, becomes⟩ := keeps.removeReminder id w.host
  rw [removed] at answer becomes
  refine ⟨(w.removeReminder services id).2, Prod.ext answer rfl, ?_⟩
  have becomes : book (w.removeReminder services id).2.host = b' := becomes
  have count : ∀ other, b'.ids.count other =
      (book w.host).ids.count other - if id = other then 1 else 0 := by
    intro other
    simp [ids', List.count_erase, beq_iff_eq]
  refine ⟨becomes ▸ sound', fun other => ?_, fun lossless other => ?_⟩
  · have := owns.active other
    rw [List.count_cons] at this
    simp only [beq_iff_eq] at this
    rw [becomes, count]
    omega
  · have := owns.complete (lossless.of_suffix (List.suffix_cons _ _)) other
    rw [List.count_cons] at this
    simp only [beq_iff_eq] at this
    rw [becomes, count]
    omega

theorem setPaused_owns (paused : Bool) (owns : w.Owns book ids) :
    ∃ w', w.setPaused services paused = (.ok (), w') ∧ w'.Owns book ids := by
  obtain ⟨b', set, sound', ids'⟩ := owns.sound.setPaused paused
  obtain ⟨answer, becomes⟩ := keeps.setPaused paused w.host
  rw [set] at answer becomes
  refine ⟨(w.setPaused services paused).2, Prod.ext answer rfl, ?_⟩
  have becomes : book (w.setPaused services paused).2.host = b' := becomes
  refine ⟨becomes ▸ sound', ?_, fun lossless => ?_⟩
  · rw [becomes, ids']
    exact owns.active
  · rw [becomes, ids']
    exact owns.complete (lossless.of_suffix (List.suffix_cons _ _))

theorem requestPause_owns (owns : w.Owns book ids) :
    ∃ token w', w.requestPause services = (.ok token, w') ∧ w'.Owns book ids := by
  have noted := owns.note (.pauseRequested w.pause.next)
  obtain ⟨v, set, owns_v⟩ := setPaused_owns keeps true noted
  unfold requestPause PauseRequests.request
  by_cases paused : w.pause.isPaused
  · simp only [paused, if_true]
    exact ⟨_, _, rfl, noted.of_same rfl (List.suffix_refl _)⟩
  · simp only [paused, set]
    exact ⟨_, _, rfl, owns_v.of_same rfl (List.suffix_refl _)⟩

theorem releasePause_owns (token : Nat) (owns : w.Owns book ids) :
    ∃ w', w.releasePause services token = (.ok (), w') ∧ w'.Owns book ids := by
  obtain ⟨v, set, owns_v⟩ := setPaused_owns keeps false owns
  unfold releasePause PauseRequests.release
  by_cases outstanding : token ∈ w.pause.outstanding
  · simp only [outstanding, if_true]
    split
    · exact ⟨_, rfl, owns.of_same rfl (List.suffix_refl _)⟩
    · simp only [set]
      exact ⟨_, rfl, owns_v.of_same rfl (List.suffix_refl _)⟩
  · simp only [outstanding, if_false]
    exact ⟨_, rfl, owns.of_same rfl (List.suffix_refl _)⟩

theorem cancelCountdown_owns (route : List Nat) (owns : w.Owns book ids) :
    ∃ answer w', w.cancelCountdown services route = (answer, w') ∧ w'.Owns book ids ∧
      (answer = .ok () ∨ ¬ w'.Lossless) := by
  refine ⟨_, _, rfl, ask_owns (keeps.cancelCountdown route) _ owns, ?_⟩
  cases answer : (w.cancelCountdown services route).1 with
  | ok _ => exact Or.inl answer
  | error e =>
    refine Or.inr fun lossless => ?_
    have refused := lossless (.asked (.cancelCountdown route) (w.cancelCountdown services route).1)
      List.mem_cons_self
    rw [answer] at refused
    exact Bool.false_ne_true refused.symm

end Reminders

end World

end Stepwise
