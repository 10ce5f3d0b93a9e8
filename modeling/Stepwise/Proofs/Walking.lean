import Stepwise.Proofs.Structured.Spots

/-!
# Walking through a workflow

A walk meets the template of every spot of a workflow once, in the order of the spots. Spots are
ordered like the words of a dictionary, so a template comes before those inside it, and the
sequences that it holds come in the order in which it declares them.
-/

namespace Stepwise

/-- The template at a spot below some sequences, the number of one of them coming first. -/
def templateUnder : List Nat → List (List Template) → Option Template
  | child :: spot, children => children[child]?.bind (templateAt spot)
  | [], _ => none

def Occurrence.Under (children : List (List Template)) (o : Occurrence) : Prop :=
  templateUnder o.spot children = some o.template

/-- The list is made of the templates of these occurrences, one for each, in the order of spots. -/
def Visits (there : Occurrence → Prop) (walked : List Template) : Prop :=
  ∃ visits : List Occurrence, visits.map (·.template) = walked ∧
    visits.Pairwise (fun o p => o.spot < p.spot) ∧ ∀ o, o ∈ visits ↔ there o

/-- The spot one further along the sequence, or in the next sequence. -/
def nextSpot : List Nat → List Nat
  | index :: spot => (index + 1) :: spot
  | [] => []

theorem nextSpot_lt {spot spot' : List Nat} (before : spot < spot') :
    nextSpot spot < nextSpot spot' := by
  cases spot' with
  | nil => exact absurd before (List.not_lt_nil _)
  | cons index' spot' =>
    cases spot with
    | nil => exact List.nil_lt_cons _ _
    | cons index spot =>
      rcases List.cons_lt_cons_iff.mp before with less | ⟨rfl, later⟩
      · exact List.cons_lt_cons_iff.mpr (Or.inl (Nat.succ_lt_succ less))
      · exact List.cons_lt_cons_iff.mpr (Or.inr ⟨rfl, later⟩)

theorem cons_lt (index : Nat) {spot spot' : List Nat} (before : spot < spot') :
    index :: spot < index :: spot' :=
  List.cons_lt_cons_iff.mpr (Or.inr ⟨rfl, before⟩)

namespace Visits

variable {there there' : Occurrence → Prop} {walked walked' : List Template}

theorem none : Visits (fun _ => False) [] :=
  ⟨[], rfl, .nil, fun _ => iff_of_false List.not_mem_nil id⟩

theorem single (o : Occurrence) : Visits (· = o) [o.template] :=
  ⟨[o], rfl, List.pairwise_singleton _ _, fun _ => List.mem_singleton⟩

theorem congr (visits : Visits there walked) (same : ∀ o, there o ↔ there' o) :
    Visits there' walked := by
  obtain ⟨list, templates, ordered, complete⟩ := visits
  exact ⟨list, templates, ordered, fun o => (complete o).trans (same o)⟩

theorem append (visits : Visits there walked) (visits' : Visits there' walked')
    (before : ∀ o p, there o → there' p → o.spot < p.spot) :
    Visits (fun o => there o ∨ there' o) (walked ++ walked') := by
  obtain ⟨list, templates, ordered, complete⟩ := visits
  obtain ⟨list', templates', ordered', complete'⟩ := visits'
  refine ⟨list ++ list', ?_, List.pairwise_append.mpr ⟨ordered, ordered', ?_⟩, fun o => ?_⟩
  · rw [List.map_append, templates, templates']
  · intro o mem p mem'
    exact before o p ((complete o).mp mem) ((complete' p).mp mem')
  · rw [List.mem_append, complete, complete']

/-- All spots are moved in a way that keeps their order. -/
theorem moved (visits : Visits there walked) {move : List Nat → List Nat}
    (keeps : ∀ {spot spot'}, spot < spot' → move spot < move spot') :
    Visits (fun o => ∃ spot, o.spot = move spot ∧ there ⟨spot, o.template⟩) walked := by
  obtain ⟨list, templates, ordered, complete⟩ := visits
  refine ⟨list.map fun o => ⟨move o.spot, o.template⟩, ?_, ?_, fun o => ?_⟩
  · rw [List.map_map]
    exact templates
  · exact List.pairwise_map.mpr (ordered.imp fun before => keeps before)
  · rw [List.mem_map]
    constructor
    · rintro ⟨p, mem, rfl⟩
      exact ⟨p.spot, rfl, (complete p).mp mem⟩
    · rintro ⟨spot, at_spot, here⟩
      refine ⟨⟨spot, o.template⟩, (complete _).mpr here, ?_⟩
      rw [← at_spot]

end Visits

theorem templateAt_empty (spot : List Nat) : templateAt spot [] = none := by
  cases spot with
  | nil => rfl
  | cons index spot => cases spot <;> rfl

theorem templateUnder_empty (spot : List Nat) : templateUnder spot [] = none := by
  cases spot <;> rfl

theorem templateAt_zero (t : Template) (rest : List Template) (spot : List Nat) :
    templateAt (0 :: spot) (t :: rest) =
      if spot = [] then some t else templateUnder spot t.children := by
  cases spot <;> rfl

theorem templateAt_succ (index : Nat) (spot : List Nat) (t : Template) (rest : List Template) :
    templateAt ((index + 1) :: spot) (t :: rest) = templateAt (index :: spot) rest := by
  cases spot <;> rfl

/-- A spot in a sequence is the first place, or inside the first template, or further on. -/
theorem in_cons (t : Template) (rest : List Template) (o : Occurrence) :
    o.In (t :: rest) ↔
      (o = ⟨[0], t⟩ ∨ ∃ spot, o.spot = 0 :: spot ∧ Occurrence.Under t.children ⟨spot, o.template⟩) ∨
        ∃ spot, o.spot = nextSpot spot ∧ Occurrence.In rest ⟨spot, o.template⟩ := by
  obtain ⟨spot, found⟩ := o
  simp only [Occurrence.In, Occurrence.Under, Occurrence.mk.injEq]
  -- The first number of the spot says which of the three it is.
  match spot with
  | [] =>
    refine iff_of_false nofun ?_
    rintro ((⟨none, -⟩ | ⟨_, none, -⟩) | ⟨spot, none, there⟩)
    · cases none
    · cases none
    · cases spot with
      | nil => cases there
      | cons index spot => cases none
  | 0 :: spot =>
    rw [templateAt_zero]
    constructor
    · intro there
      split at there
      · next whole => exact .inl (.inl ⟨by rw [whole], (Option.some.inj there).symm⟩)
      · exact .inl (.inr ⟨spot, rfl, there⟩)
    · rintro ((⟨same, rfl⟩ | ⟨_, same, there⟩) | ⟨later, same, there⟩)
      · rw [if_pos (List.cons.inj same).2]
      · cases same
        cases spot with
        | nil => cases there
        | cons child spot => exact there
      · cases later with
        | nil => cases same
        | cons index later => cases same
  | (index + 1) :: spot =>
    rw [templateAt_succ]
    constructor
    · exact fun there => .inr ⟨index :: spot, rfl, there⟩
    · rintro ((⟨same, -⟩ | ⟨_, same, -⟩) | ⟨later, same, there⟩)
      · cases same
      · cases same
      · cases later with
        | nil => cases same
        | cons index' later =>
          cases same
          exact there

theorem under_cons (templates : List Template) (rest : List (List Template)) (o : Occurrence) :
    o.Under (templates :: rest) ↔
      (∃ spot, o.spot = 0 :: spot ∧ Occurrence.In templates ⟨spot, o.template⟩) ∨
        ∃ spot, o.spot = nextSpot spot ∧ Occurrence.Under rest ⟨spot, o.template⟩ := by
  obtain ⟨spot, found⟩ := o
  simp only [Occurrence.In, Occurrence.Under]
  match spot with
  | [] =>
    refine iff_of_false nofun ?_
    rintro (⟨_, none, -⟩ | ⟨spot, none, there⟩)
    · cases none
    · cases spot with
      | nil => cases there
      | cons index spot => cases none
  | 0 :: spot =>
    constructor
    · exact fun there => .inl ⟨spot, rfl, there⟩
    · rintro (⟨_, same, there⟩ | ⟨later, same, there⟩)
      · cases same
        exact there
      · cases later with
        | nil => cases same
        | cons index later => cases same
  | (index + 1) :: spot =>
    constructor
    · exact fun there => .inr ⟨index :: spot, rfl, there⟩
    · rintro (⟨_, same, -⟩ | ⟨later, same, there⟩)
      · cases same
      · cases later with
        | nil => cases same
        | cons index' later =>
          cases same
          exact there

theorem Occurrence.In.spot_ne_nil {root : List Template} {o : Occurrence} (is_in : o.In root) :
    o.spot ≠ [] := by
  intro none
  rw [Occurrence.In, none] at is_in
  cases is_in

theorem Occurrence.Under.spot_ne_nil {children : List (List Template)} {o : Occurrence}
    (under : o.Under children) : o.spot ≠ [] := by
  intro none
  rw [Occurrence.Under, none] at under
  cases under

theorem lt_nextSpot {spot spot' : List Nat} (some_spot : spot' ≠ []) :
    0 :: spot < nextSpot spot' := by
  cases spot' with
  | nil => exact absurd rfl some_spot
  | cons index spot' => exact List.cons_lt_cons_iff.mpr (Or.inl (Nat.succ_pos index))

theorem visits_in_nil : Visits (Occurrence.In []) [] :=
  Visits.none.congr fun o => iff_of_false id fun is_in => by
    rw [Occurrence.In, templateAt_empty] at is_in
    cases is_in

theorem visits_under_nil : Visits (Occurrence.Under []) [] :=
  Visits.none.congr fun o => iff_of_false id fun under => by
    rw [Occurrence.Under, templateUnder_empty] at under
    cases under

theorem visits_in_cons {t : Template} {rest walked walked' : List Template}
    (inside : Visits (Occurrence.Under t.children) walked)
    (later : Visits (Occurrence.In rest) walked') :
    Visits (Occurrence.In (t :: rest)) ((t :: walked) ++ walked') := by
  have whole := (Visits.single ⟨[0], t⟩).append (inside.moved (cons_lt 0)) (by
    rintro o p rfl ⟨spot, at_spot, under⟩
    rw [at_spot]
    refine cons_lt 0 ?_
    cases spot with
    | nil => exact absurd rfl under.spot_ne_nil
    | cons child spot => exact List.nil_lt_cons _ _)
  have all := whole.append (later.moved nextSpot_lt) (by
    rintro o p first ⟨spot, at_spot, is_in⟩
    rw [at_spot]
    rcases first with rfl | ⟨spot', at_spot', -⟩
    · exact lt_nextSpot is_in.spot_ne_nil
    · rw [at_spot']
      exact lt_nextSpot is_in.spot_ne_nil)
  exact all.congr fun o => (in_cons t rest o).symm

theorem visits_under_cons {templates walked walked' : List Template}
    {rest : List (List Template)} (first : Visits (Occurrence.In templates) walked)
    (later : Visits (Occurrence.Under rest) walked') :
    Visits (Occurrence.Under (templates :: rest)) (walked ++ walked') := by
  have all := (first.moved (cons_lt 0)).append (later.moved nextSpot_lt) (by
    rintro o p ⟨spot, at_spot, -⟩ ⟨spot', at_spot', under⟩
    rw [at_spot, at_spot']
    exact lt_nextSpot under.spot_ne_nil)
  exact all.congr fun o => (under_cons templates rest o).symm

mutual

theorem Template.visits_children : ∀ t : Template,
    Visits (Occurrence.Under t.children) t.kind.walk
  | ⟨kind, id, image, reminder⟩ => kind.visits_children ⟨kind, id, image, reminder⟩ rfl

theorem TemplateKind.visits_children : ∀ (kind : TemplateKind) (t : Template), t.kind = kind →
    Visits (Occurrence.Under t.children) kind.walk
  | .task _, t, same | .sleep _ _ _ _, t, same => by
    simp only [Template.children, same, TemplateKind.walk]
    exact visits_under_nil
  | .condition _ onYes onNo, t, same => by
    have both := visits_under_cons (visits_all onYes)
      (visits_under_cons (visits_all onNo) visits_under_nil)
    rw [List.append_nil] at both
    simp only [Template.children, same, TemplateKind.walk]
    exact both
  | .counted _ body, t, same | .asked _ _ body, t, same => by
    have one := visits_under_cons (visits_all body) visits_under_nil
    rw [List.append_nil] at one
    simp only [Template.children, same, TemplateKind.walk]
    exact one
  | .parallel _ _ branches, t, same => by
    simp only [Template.children, same, TemplateKind.walk]
    exact visits_branches branches

theorem visits_all : ∀ templates : List Template,
    Visits (Occurrence.In templates) (walkAll templates)
  | [] => visits_in_nil
  | ⟨kind, id, image, reminder⟩ :: rest => by
    have inside := kind.visits_children ⟨kind, id, image, reminder⟩ rfl
    simp only [walkAll, Template.walk]
    exact visits_in_cons inside (visits_all rest)

theorem visits_branches : ∀ branches : List (List Template),
    Visits (Occurrence.Under branches) (walkBranches branches)
  | [] => visits_under_nil
  | branch :: rest => visits_under_cons (visits_all branch) (visits_branches rest)

end

end Stepwise
