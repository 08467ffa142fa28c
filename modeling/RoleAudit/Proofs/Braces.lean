import Mathlib.Data.List.Basic
import RoleAudit.Markup.Grammar
import RoleAudit.Proofs.Reads

/-!
# Balanced braces

A token list is balanced if every brace in it has its partner.  Skipping a group in braces reads
exactly a balanced list, and the brace that closes a group is determined by what it opens:

* `Balanced.count_close_le` — no front part of a balanced list closes more groups than it opens;
* `Balanced.append_close_inj` — hence at most one balanced list leads up to a closing brace;
* `many_balanced_takes`, `many_balanced_reads` — the reader that skips tokens takes balanced lists
  only, and every balanced list in front of a closing brace.
-/

namespace RoleAudit.Markup

open RoleAudit.Text (Span)
open Reader Grammar

theorem lexemes_cons {ts : List Lexeme} {t : Token} {toks : List Token}
    (h : ts.map Lexeme.token = t :: toks) :
    ∃ span us, ts = ⟨t, span⟩ :: us ∧ us.map Lexeme.token = toks := by
  obtain ⟨⟨_, span⟩, us, rfl, rfl, hus⟩ := List.map_eq_cons_iff.1 h
  exact ⟨span, us, rfl, hus⟩

theorem lexemes_single {ts : List Lexeme} {t : Token} (h : ts.map Lexeme.token = [t]) :
    ∃ span, ts = [⟨t, span⟩] := by
  obtain ⟨span, us, rfl, hus⟩ := lexemes_cons h
  rw [List.map_eq_nil_iff.1 hus]
  exact ⟨span, rfl⟩

theorem Token.ne_of_not_isBrace {t : Token} (h : t.isBrace = false) :
    t ≠ .openBrace ∧ t ≠ .closeBrace := by
  constructor
  · rintro rfl
    cases h
  · rintro rfl
    cases h

/-- Token lists in which every brace has its partner. -/
inductive Balanced : List Token → Prop
  | nil : Balanced []
  | single {t : Token} {rest : List Token} (ht : t.isBrace = false) (hrest : Balanced rest) :
      Balanced (t :: rest)
  | group {inside rest : List Token} (hinside : Balanced inside) (hrest : Balanced rest) :
      Balanced (.openBrace :: (inside ++ .closeBrace :: rest))

namespace Balanced

theorem append {first second : List Token} (h : Balanced first) (h' : Balanced second) :
    Balanced (first ++ second) := by
  induction h with
  | nil => exact h'
  | single ht _ ih => exact single ht ih
  | group hinside _ _ ih => simpa using group hinside ih

theorem of_forall {ts : List Token} (h : ∀ t ∈ ts, t.isBrace = false) : Balanced ts := by
  induction ts with
  | nil => exact nil
  | cons t ts ih => exact single (h t (by simp)) (ih fun u hu => h u (by simp [hu]))

/-- A balanced list in a pair of braces. -/
theorem braced {inside : List Token} (h : Balanced inside) :
    Balanced (.openBrace :: (inside ++ [.closeBrace])) :=
  group h nil

/-- As many groups are closed as are opened. -/
theorem count_eq {ts : List Token} (h : Balanced ts) :
    ts.count .closeBrace = ts.count .openBrace := by
  induction h with
  | nil => rfl
  | @single t rest ht _ ih =>
      obtain ⟨hopen, hclose⟩ := t.ne_of_not_isBrace ht
      rw [List.count_cons_of_ne hclose, List.count_cons_of_ne hopen, ih]
  | group _ _ ih ih' =>
      simp [ih, ih']
      omega

/-- No front part closes more groups than it opens. -/
theorem count_close_le {ts : List Token} (h : Balanced ts) {front : List Token}
    (hfront : front <+: ts) : front.count .closeBrace ≤ front.count .openBrace := by
  induction h generalizing front with
  | nil =>
      rw [List.prefix_nil] at hfront
      simp [hfront]
  | @single t rest ht _ ih =>
      rcases List.prefix_cons_iff.1 hfront with rfl | ⟨front', rfl, hfront'⟩
      · simp
      · obtain ⟨hopen, hclose⟩ := t.ne_of_not_isBrace ht
        rw [List.count_cons_of_ne hclose, List.count_cons_of_ne hopen]
        exact ih hfront'
  | @group inside rest hinside _ ih ih' =>
      rcases List.prefix_cons_iff.1 hfront with rfl | ⟨front', rfl, hfront'⟩
      · simp
      · -- the front part ends inside the group, or takes it up as a whole
        obtain ⟨behind, hbehind⟩ := hfront'
        rcases List.append_eq_append_iff.1 hbehind with ⟨more, hmore, -⟩ | ⟨more, rfl, hmore⟩
        · have := ih ⟨more, hmore.symm⟩
          simp
          omega
        · have hcount := hinside.count_eq
          cases more with
          | nil => simp [hcount]
          | cons t more =>
              obtain rfl := (List.cons.inj hmore).1
              have := ih' ⟨behind, (List.cons.inj hmore).2.symm⟩
              simp [hcount]
              omega

/-- A closing brace after a balanced list is the first that nothing in the list opens. -/
theorem append_close_inj {first second rest rest' : List Token} (h : Balanced first)
    (h' : Balanced second) (heq : first ++ .closeBrace :: rest = second ++ .closeBrace :: rest') :
    first = second ∧ rest = rest' := by
  -- one of the two lists would have the other with its closing brace as a front part
  have key : ∀ {xs ys us vs : List Token}, Balanced xs → Balanced ys →
      xs ++ .closeBrace :: us = ys ++ .closeBrace :: vs → xs.length ≤ ys.length → xs = ys := by
    intro xs ys us vs hxs hys heq hle
    rcases List.append_eq_append_iff.1 heq with ⟨zs, rfl, hzs⟩ | ⟨zs, rfl, -⟩
    · cases zs with
      | nil => simp
      | cons z zs =>
          obtain ⟨rfl, -⟩ := List.cons.inj hzs
          have hfront := hys.count_close_le
            (show xs ++ [.closeBrace] <+: xs ++ .closeBrace :: zs from ⟨zs, by simp⟩)
          have hcount := hxs.count_eq
          have hclose : (xs ++ [Token.closeBrace]).count .closeBrace =
              xs.count .closeBrace + 1 := by simp
          have hopen : (xs ++ [Token.closeBrace]).count .openBrace =
              xs.count .openBrace := by simp
          omega
    · have : zs = [] := by
        simp only [List.length_append] at hle
        exact List.length_eq_zero_iff.1 (by omega)
      simp [this]
  have hfirst : first = second := by
    rcases Nat.le_total first.length second.length with hle | hle
    · exact key h h' heq hle
    · exact (key h' h heq.symm hle).symm
  subst hfirst
  exact ⟨rfl, by simpa using heq⟩

end Balanced

/-! ### Skipping -/

theorem balancedTo_succ (depth : Nat) :
    balancedTo (depth + 1) =
      ((do
        let _ ← token .openBrace
        let _ ← many (balancedTo depth)
        let _ ← token .closeBrace) <|>
      (do
        let _ ← accept fun t => if t.isBrace then none else some ())) :=
  rfl

theorem balancedTo_takes (depth : Nat) :
    (balancedTo depth).Takes fun used _ => used ≠ [] ∧ Balanced (used.map Lexeme.token) := by
  induction depth with
  | zero =>
      intro ts value rest h
      cases h
  | succ depth ih =>
      intro ts value rest h
      rw [balancedTo_succ] at h
      simp only [reads_orElse, reads_bind, reads_token, reads_accept, reads_pure] at h
      rcases h with ⟨left, mid, rfl, units, mid', hmany, right, mid'', rfl, -, rfl⟩ |
          ⟨-, read, mid, ⟨t, ht, rfl⟩, -, rfl⟩
      · have hinside : (many (balancedTo depth)).Takes fun used _ =>
            Balanced (used.map Lexeme.token) :=
          ih.many .nil fun us vs _ _ hus hvs => by simpa using hus.2.append hvs
        obtain ⟨inside, rfl, hbalanced⟩ := hinside hmany
        exact ⟨⟨.openBrace, left⟩ :: (inside ++ [⟨.closeBrace, right⟩]), by simp, by simp,
          by simpa using hbalanced.braced⟩
      · have hbrace : t.isBrace = false := by
          by_contra hne
          simp [hne] at ht
        exact ⟨[⟨t, read.2⟩], rfl, by simp, .single hbrace .nil⟩

theorem balanced_takes :
    balanced.Takes fun used _ => used ≠ [] ∧ Balanced (used.map Lexeme.token) := by
  intro ts value rest h
  exact balancedTo_takes (ts.length + 1) h

theorem many_balanced_takes :
    (many balanced).Takes fun used _ => Balanced (used.map Lexeme.token) :=
  balanced_takes.many .nil fun us vs _ _ hus hvs => by simpa using hus.2.append hvs

theorem many1_balanced_takes :
    (many1 balanced).Takes fun used _ => used ≠ [] ∧ Balanced (used.map Lexeme.token) := by
  intro ts units rest h
  simp only [many1, reads_bind, reads_pure] at h
  obtain ⟨_, mid, hfirst, _, _, hothers, -, rfl⟩ := h
  obtain ⟨us, rfl, hne, hus⟩ := balanced_takes hfirst
  obtain ⟨vs, rfl, hvs⟩ := many_balanced_takes hothers
  exact ⟨us ++ vs, by simp, by simp [hne], by simpa using hus.append hvs⟩

/-- Nothing is skipped in front of a closing brace. -/
theorem balancedTo_fails_close (depth : Nat) {right : Span} {tail : List Lexeme} :
    (balancedTo depth).Fails (⟨.closeBrace, right⟩ :: tail) := by
  cases depth with
  | zero => rfl
  | succ depth =>
      rw [balancedTo_succ]
      simp [Token.isBrace]

/-- A balanced list in front of a closing brace is skipped as a whole.  The depth to which groups
may lie in one another can change from one token to the next, as long as it exceeds the length. -/
theorem many_skips {p : Reader Unit} {toks : List Token} (h : Balanced toks) :
    ∀ (ts tail : List Lexeme) (right : Span), ts.map Lexeme.token = toks →
      (∀ us, us.length ≤ (ts ++ ⟨.closeBrace, right⟩ :: tail).length →
        ∃ depth, us.length < depth ∧ p us = balancedTo depth us) →
      ∃ units, (many p).Reads (ts ++ ⟨.closeBrace, right⟩ :: tail) units
        (⟨.closeBrace, right⟩ :: tail) := by
  induction h generalizing p with
  | nil =>
      intro ts tail right hts hp
      obtain rfl := List.map_eq_nil_iff.1 hts
      obtain ⟨depth, -, hdepth⟩ := hp (⟨.closeBrace, right⟩ :: tail) (by simp)
      exact ⟨[], many_stop ((fails_congr hdepth).2 (balancedTo_fails_close depth))⟩
  | single ht _ ih =>
      intro ts tail right hts hp
      obtain ⟨⟨t, span⟩, ts, rfl, rfl, rfl⟩ := List.map_eq_cons_iff.1 hts
      obtain ⟨units, hunits⟩ := ih ts tail right rfl fun us hus =>
        hp us (by simp at hus ⊢; omega)
      refine ⟨() :: units, many_step ?_ (by simp) hunits⟩
      obtain ⟨depth, hlt, hdepth⟩ := hp (⟨t, span⟩ :: ts ++ ⟨.closeBrace, right⟩ :: tail) (by simp)
      cases depth with
      | zero => simp at hlt
      | succ depth =>
          obtain ⟨hopen, -⟩ := t.ne_of_not_isBrace ht
          rw [reads_congr hdepth, balancedTo_succ]
          simp [hopen, ht]
  | group _ _ ih ih' =>
      intro ts tail right hts hp
      obtain ⟨⟨_, left⟩, ts, rfl, rfl, hts'⟩ := List.map_eq_cons_iff.1 hts
      obtain ⟨inside, ts, rfl, rfl, hclose⟩ := List.map_eq_append_iff.1 hts'
      obtain ⟨⟨_, close⟩, ts, rfl, rfl, rfl⟩ := List.map_eq_cons_iff.1 hclose
      obtain ⟨units, hunits⟩ := ih' ts tail right rfl fun us hus =>
        hp us (by simp at hus ⊢; omega)
      refine ⟨() :: units, many_step ?_ (by simp; omega) hunits⟩
      obtain ⟨depth, hlt, hdepth⟩ := hp _ (Nat.le_refl _)
      cases depth with
      | zero => simp at hlt
      | succ depth =>
          -- inside the group one level of depth is used up, and so is its opening brace
          obtain ⟨inner, hinner⟩ := @ih (balancedTo depth) inside
            (ts ++ ⟨.closeBrace, right⟩ :: tail) close rfl fun us hus =>
              ⟨depth, by simp at hus hlt; omega, rfl⟩
          rw [reads_congr hdepth, balancedTo_succ]
          simp only [reads_orElse, reads_bind, reads_token, reads_pure]
          exact Or.inl ⟨left, _, by simp, inner, _, hinner, close, _, rfl, trivial, rfl⟩

/-- A balanced list in front of a closing brace is skipped as a whole. -/
theorem many_balanced_reads {inside tail : List Lexeme} {right : Span}
    (h : Balanced (inside.map Lexeme.token)) :
    ∃ units, (many balanced).Reads (inside ++ ⟨.closeBrace, right⟩ :: tail) units
      (⟨.closeBrace, right⟩ :: tail) :=
  many_skips h _ _ _ rfl fun us _ => ⟨us.length + 1, us.length.lt_succ_self, rfl⟩

/-- A balanced list that is not empty is skipped by one step at least. -/
theorem many1_balanced_reads {inside tail : List Lexeme} {right : Span}
    (h : Balanced (inside.map Lexeme.token)) (hne : inside ≠ []) :
    ∃ units, (many1 balanced).Reads (inside ++ ⟨.closeBrace, right⟩ :: tail) units
      (⟨.closeBrace, right⟩ :: tail) := by
  obtain ⟨units, hunits⟩ := @many_balanced_reads inside tail right h
  have hpos := List.length_pos_iff.2 hne
  rcases reads_many.1 hunits with ⟨-, -, hrest⟩ | ⟨first, mid, hfirst, hnext⟩
  · have := congrArg List.length hrest
    simp only [List.length_cons, List.length_append] at this
    omega
  · rcases hnext with ⟨-, others, -, hothers⟩ | ⟨-, -, rfl⟩
    · exact ⟨_, many1_reads hfirst hothers⟩
    · exact ⟨_, many1_reads hfirst (many_stop (balancedTo_fails_close _))⟩

end RoleAudit.Markup
