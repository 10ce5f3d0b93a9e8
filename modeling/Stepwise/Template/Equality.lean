import Stepwise.Template

/-!
# Equality of templates

Whether two templates are equal is decided part by part.
-/

namespace Stepwise.Template

mutual

def decEq : (a b : Template) → Decidable (a = b)
  | ⟨kind, id, image, reminder⟩, ⟨kind', id', image', reminder'⟩ =>
    match decEqKind kind kind' with
    | isFalse h => isFalse fun e => h (Template.mk.inj e).1
    | isTrue h =>
      if hr : id = id' ∧ image = image' ∧ reminder = reminder' then
        isTrue (by rw [h, hr.1, hr.2.1, hr.2.2])
      else isFalse fun e => hr (Template.mk.inj e).2

def decEqKind : (a b : TemplateKind) → Decidable (a = b)
  | .task text, .task text' =>
    if h : text = text' then isTrue (h ▸ rfl) else isFalse fun e => h (TemplateKind.task.inj e)
  | .condition text onYes onNo, .condition text' onYes' onNo' =>
    match decEqAll onYes onYes', decEqAll onNo onNo' with
    | isTrue hy, isTrue hn =>
      if h : text = text' then isTrue (by rw [h, hy, hn])
      else isFalse fun e => h (TemplateKind.condition.inj e).1
    | isFalse h, _ => isFalse fun e => h (TemplateKind.condition.inj e).2.1
    | _, isFalse h => isFalse fun e => h (TemplateKind.condition.inj e).2.2
  | .counted times body, .counted times' body' =>
    match decEqAll body body' with
    | isFalse h => isFalse fun e => h (TemplateKind.counted.inj e).2
    | isTrue hb =>
      if h : times = times' then isTrue (by rw [h, hb])
      else isFalse fun e => h (TemplateKind.counted.inj e).1
  | .asked text loop body, .asked text' loop' body' =>
    match decEqAll body body' with
    | isFalse h => isFalse fun e => h (TemplateKind.asked.inj e).2.2
    | isTrue hb =>
      if h : text = text' ∧ loop = loop' then isTrue (by rw [h.1, h.2, hb])
      else isFalse fun e => h ⟨(TemplateKind.asked.inj e).1, (TemplateKind.asked.inj e).2.1⟩
  | .parallel text choose branches, .parallel text' choose' branches' =>
    match decEqBranches branches branches' with
    | isFalse h => isFalse fun e => h (TemplateKind.parallel.inj e).2.2
    | isTrue hb =>
      if h : text = text' ∧ choose = choose' then isTrue (by rw [h.1, h.2, hb])
      else isFalse fun e => h ⟨(TemplateKind.parallel.inj e).1, (TemplateKind.parallel.inj e).2.1⟩
  | .sleep value unit text silent, .sleep value' unit' text' silent' =>
    if h : value = value' ∧ unit = unit' ∧ text = text' ∧ silent = silent' then
      isTrue (by rw [h.1, h.2.1, h.2.2.1, h.2.2.2])
    else isFalse fun e => h (TemplateKind.sleep.inj e)
  | .task _, .condition _ _ _ | .task _, .counted _ _ | .task _, .asked _ _ _
  | .task _, .parallel _ _ _ | .task _, .sleep _ _ _ _
  | .condition _ _ _, .task _ | .condition _ _ _, .counted _ _ | .condition _ _ _, .asked _ _ _
  | .condition _ _ _, .parallel _ _ _ | .condition _ _ _, .sleep _ _ _ _
  | .counted _ _, .task _ | .counted _ _, .condition _ _ _ | .counted _ _, .asked _ _ _
  | .counted _ _, .parallel _ _ _ | .counted _ _, .sleep _ _ _ _
  | .asked _ _ _, .task _ | .asked _ _ _, .condition _ _ _ | .asked _ _ _, .counted _ _
  | .asked _ _ _, .parallel _ _ _ | .asked _ _ _, .sleep _ _ _ _
  | .parallel _ _ _, .task _ | .parallel _ _ _, .condition _ _ _ | .parallel _ _ _, .counted _ _
  | .parallel _ _ _, .asked _ _ _ | .parallel _ _ _, .sleep _ _ _ _
  | .sleep _ _ _ _, .task _ | .sleep _ _ _ _, .condition _ _ _ | .sleep _ _ _ _, .counted _ _
  | .sleep _ _ _ _, .asked _ _ _ | .sleep _ _ _ _, .parallel _ _ _ => isFalse nofun

def decEqAll : (a b : List Template) → Decidable (a = b)
  | [], [] => isTrue rfl
  | [], _ :: _ | _ :: _, [] => isFalse nofun
  | t :: rest, t' :: rest' =>
    match decEq t t', decEqAll rest rest' with
    | isTrue h, isTrue hr => isTrue (by rw [h, hr])
    | isFalse h, _ => isFalse fun e => h (List.cons.inj e).1
    | _, isFalse h => isFalse fun e => h (List.cons.inj e).2

def decEqBranches : (a b : List (List Template)) → Decidable (a = b)
  | [], [] => isTrue rfl
  | [], _ :: _ | _ :: _, [] => isFalse nofun
  | branch :: rest, branch' :: rest' =>
    match decEqAll branch branch', decEqBranches rest rest' with
    | isTrue h, isTrue hr => isTrue (by rw [h, hr])
    | isFalse h, _ => isFalse fun e => h (List.cons.inj e).1
    | _, isFalse h => isFalse fun e => h (List.cons.inj e).2

end

instance : DecidableEq Template := decEq
instance : DecidableEq TemplateKind := decEqKind

instance : DecidableEq Workflow := fun a b =>
  if h : a.description = b.description ∧ a.id = b.id ∧ a.reminder = b.reminder ∧
      a.blocks = b.blocks then
    isTrue (by cases a; cases b; simp_all)
  else isFalse fun e => h (by rw [e]; exact ⟨rfl, rfl, rfl, rfl⟩)

end Stepwise.Template
