import RoleAudit.Proofs.Extents

/-!
# Walks in order

A walk goes through a forest whose spans are in order, as those of a parsed source are.  It enters
and leaves every element once, in the order in which they start.  `Bracketed` keeps the stack of the
elements that are entered and not yet left: entering puts an element on it, and only the element on
top can be left.  At every moment of a walk the stack holds the elements around the place that the
walk has come to.

Main statements: `bracketed_walk`, `nodup_walk`, `pairwise_entered` and `exists_opened`, which
`walkedInOrder_of_parse` puts together.
-/

namespace RoleAudit.Markup

/-! ### Brackets -/

/-- Events lead from one stack of open elements to another, the innermost first. -/
inductive Bracketed : List Element → List Event → List Element → Prop
  | done (opened : List Element) : Bracketed opened [] opened
  | enter {opened after : List Element} {events : List Event} (e : Element)
      (h : Bracketed (e :: opened) events after) : Bracketed opened (.enter e :: events) after
  | leave {opened after : List Element} {events : List Event} (e : Element)
      (h : Bracketed opened events after) : Bracketed (e :: opened) (.leave e :: events) after

theorem Bracketed.append {opened mid after : List Element} {events others : List Event}
    (h : Bracketed opened events mid) (h' : Bracketed mid others after) :
    Bracketed opened (events ++ others) after := by
  induction h with
  | done => exact h'
  | enter e _ ih => exact .enter e (ih h')
  | leave e _ ih => exact .leave e (ih h')

/-- A walk through a forest closes whatever it opens. -/
theorem bracketed_walk (es : List Element) (opened : List Element) :
    Bracketed opened (walk es) opened := by
  induction es using forest_induction generalizing opened with
  | nil => exact .done opened
  | cons e es ih ih' =>
      rw [walk_eq]
      exact .enter e ((ih (e :: opened)).append (.leave e (ih' opened)))

/-! ### The order of entering -/

/-- The elements that are entered. -/
def enteredOf (events : List Event) : List Element :=
  events.filterMap fun
    | .enter e => some e
    | .leave _ => none

theorem Document.entered_eq (d : Document) : d.entered = enteredOf (walk d.elements) := rfl

theorem enteredOf_walk_cons (e : Element) (es : List Element) :
    enteredOf (walk (e :: es)) = e :: (enteredOf (walk e.nested) ++ enteredOf (walk es)) := by
  rw [walk_eq]
  simp [enteredOf]

theorem mem_enteredOf_walk {e : Element} {es : List Element} :
    e ∈ enteredOf (walk es) ↔ Among es e := by
  rw [← mem_walk.1, enteredOf, List.mem_filterMap]
  constructor
  · rintro ⟨event, hevent, h⟩
    cases event <;> cases h
    exact hevent
  · exact fun h => ⟨_, h, rfl⟩

section Ordered

variable {es : List Element}

/-- No element is entered or left twice. -/
theorem nodup_walk (h : Orderly es) : (walk es).Nodup := by
  induction es using forest_induction with
  | nil => exact List.nodup_nil
  | cons e es ih ih' =>
      have hlt := h.head_lt
      have hout : ¬ Among es e := fun he => absurd (h.stop_head_le he) (by omega)
      rw [walk_eq]
      refine List.nodup_cons.2 ⟨fun he => ?_, List.nodup_append.2 ⟨ih h.nested, List.nodup_cons.2
        ⟨fun he => hout (mem_walk.2.1 he), ih' h.tail⟩, ?_⟩⟩
      · rcases List.mem_append.1 he with he | he
        · exact StrictlyWithin.irrefl _ (h.within_head (mem_walk.1.1 he))
        · rcases List.mem_cons.1 he with he | he
          · cases he
          · exact hout (mem_walk.1.1 he)
      · -- what is nested in the element is neither the element nor after it
        rintro event hevent other hother rfl
        have hwithin := h.within_head (among_of_mem_walk hevent)
        rcases List.mem_cons.1 hother with rfl | hother
        · exact StrictlyWithin.irrefl _ hwithin
        · exact h.not_among_tail hwithin (among_of_mem_walk hother)

/-- Elements are entered in the order in which they start. -/
theorem pairwise_entered (h : Orderly es) :
    (enteredOf (walk es)).Pairwise fun e f => e.span.start < f.span.start := by
  induction es using forest_induction with
  | nil => exact .nil
  | cons e es ih ih' =>
      have hlt := h.head_lt
      rw [enteredOf_walk_cons]
      refine List.pairwise_cons.2 ⟨fun f hf => ?_,
        List.pairwise_append.2 ⟨ih h.nested, ih' h.tail, fun f hf g hg => ?_⟩⟩
      · rcases List.mem_append.1 hf with hf | hf
        · exact (h.within_head (mem_enteredOf_walk.1 hf)).1
        · exact Nat.lt_of_lt_of_le hlt (h.stop_head_le (mem_enteredOf_walk.1 hf))
      · have hne := h.nested.nonempty (mem_enteredOf_walk.1 hf)
        have hstop := (h.within_head (mem_enteredOf_walk.1 hf)).2
        have hle := h.stop_head_le (mem_enteredOf_walk.1 hg)
        omega

/-! ### What is around an element -/

/-- Nothing in a forest is around its first element. -/
theorem Orderly.not_around_head {e f : Element} (h : Orderly (e :: es)) (hf : Among (e :: es) f) :
    ¬ StrictlyWithin e.span f.span := by
  intro hwithin
  rcases among_cons.1 hf with rfl | hf | hf
  · exact StrictlyWithin.irrefl _ hwithin
  · exact StrictlyWithin.irrefl _ (hwithin.trans (h.within_head hf))
  · have hle := h.stop_head_le hf
    have hlt := hwithin.1
    have hne := h.head_lt
    omega

/-- What is around an element nested in the first one is that one, or nested in it as well. -/
theorem Orderly.around_nested {e f g : Element} (h : Orderly (g :: es)) (he : Among g.nested e) :
    Among (g :: es) f ∧ StrictlyWithin e.span f.span ↔
      (Among g.nested f ∧ StrictlyWithin e.span f.span) ∨ f = g := by
  constructor
  · rintro ⟨hf, hwithin⟩
    rcases among_cons.1 hf with rfl | hf | hf
    · exact Or.inr rfl
    · exact Or.inl ⟨hf, hwithin⟩
    · have hle := h.stop_head_le hf
      have hlt := (h.within_head he).2
      have hlt' := hwithin.1
      have hne := h.nested.nonempty he
      omega
  · rintro (⟨hf, hwithin⟩ | rfl)
    · exact ⟨among_cons.2 (Or.inr (Or.inl hf)), hwithin⟩
    · exact ⟨among_cons.2 (Or.inl rfl), h.within_head he⟩

/-- What is around an element after the first one comes after that one as well. -/
theorem Orderly.around_tail {e f g : Element} (h : Orderly (g :: es)) (he : Among es e) :
    Among (g :: es) f ∧ StrictlyWithin e.span f.span ↔
      Among es f ∧ StrictlyWithin e.span f.span := by
  refine and_congr_left fun hwithin => ⟨fun hf => ?_, fun hf => among_cons.2 (Or.inr (Or.inr hf))⟩
  rcases among_cons.1 hf with rfl | hf | hf
  · exact absurd he (h.not_among_tail hwithin)
  · exact absurd he (h.not_among_tail (hwithin.trans (h.within_head hf)))
  · exact hf

/-- When an element is entered, those that are open are those around it. -/
theorem exists_opened (h : Orderly es) {before after : List Event} {e : Element}
    (hwalk : walk es = before ++ .enter e :: after) (opened : List Element) :
    ∃ around, Bracketed opened before (around ++ opened) ∧
      ∀ f, f ∈ around ↔ Among es f ∧ StrictlyWithin e.span f.span := by
  induction es using forest_induction generalizing before after opened with
  | nil => simp at hwalk
  | cons g es ih ih' =>
      rw [walk_eq] at hwalk
      cases before with
      | nil =>
          obtain ⟨heq, -⟩ := List.cons.inj hwalk
          cases heq
          exact ⟨[], .done opened, fun f => iff_of_false List.not_mem_nil
            fun hf => h.not_around_head hf.1 hf.2⟩
      | cons event before =>
          obtain ⟨rfl, hinside⟩ := List.cons.inj hwalk
          rcases List.append_eq_append_iff.1 hinside with ⟨mid, rfl, hmid⟩ | ⟨mid, hnested, hmid⟩
          · -- the element comes after the first one is left
            obtain ⟨rfl, hothers⟩ | ⟨mid, rfl, hothers⟩ := List.cons_eq_append_iff.1 hmid
            · cases hothers
            · have he : Among es e := mem_walk.1.1 (by simp [hothers])
              obtain ⟨around, hbracketed, haround⟩ := ih' h.tail hothers opened
              exact ⟨around, .enter g ((bracketed_walk _ _).append (.leave g hbracketed)),
                fun f => (haround f).trans (h.around_tail he).symm⟩
          · -- the element is nested in the first one
            obtain ⟨rfl, hothers⟩ | ⟨mid, rfl, hothers⟩ := List.cons_eq_append_iff.1 hmid
            · cases hothers
            · have he : Among g.nested e := mem_walk.1.1 (by simp [hnested])
              obtain ⟨around, hbracketed, haround⟩ := ih h.nested hnested (g :: opened)
              refine ⟨around ++ [g], .enter g (by simpa using hbracketed), fun f => ?_⟩
              rw [List.mem_append, List.mem_singleton, haround, h.around_nested he]

end Ordered

/-! ### Walks of parsed sources -/

/-- The walk of a document goes through all of it, and in order. -/
structure Document.WalkedInOrder (d : Document) : Prop where
  /-- Whatever is opened is closed again, the last first. -/
  bracketed : Bracketed [] d.events []
  /-- Every element at any depth is entered and left, and nothing else is. -/
  every : ∀ e, (.enter e ∈ d.events ↔ Among d.elements e) ∧
    (.leave e ∈ d.events ↔ Among d.elements e)
  once : d.events.Nodup
  ascending : d.entered.Pairwise fun e f => e.span.start < f.span.start
  /-- When an element is entered, those that are open are those around it. -/
  opened : ∀ before after e, d.events = before ++ .enter e :: after →
    ∃ around, Bracketed [] before around ∧
      ∀ f, f ∈ around ↔ Among d.elements f ∧ StrictlyWithin e.span f.span

theorem walkedInOrder_of_parse {source : String} {d : Document}
    (h : Document.parse source = .ok d) : d.WalkedInOrder where
  bracketed := bracketed_walk d.elements []
  every := fun _ => mem_walk
  once := nodup_walk (orderly_of_parse h)
  ascending := pairwise_entered (orderly_of_parse h)
  opened := fun before after e hevents => by
    obtain ⟨around, hbracketed, haround⟩ := exists_opened (orderly_of_parse h) hevents []
    exact ⟨around, by rwa [List.append_nil] at hbracketed, haround⟩

end RoleAudit.Markup
