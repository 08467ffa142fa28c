import RoleAudit.Markup.Reader

/-!
# What a reader reads

An attempt at reading carries the failures that it met; whether a list is read, and as what, does
not depend on them.  This module states the outcome alone:

* `Reads p ts value rest` — `p` takes `value` off the front of `ts` and leaves `rest`;
* `Fails p ts` — `p` takes nothing off `ts`.

For each way of putting readers together there is one equivalence for `Reads` and one for `Fails`
(`reads_bind`, `fails_bind`, …).  Later proofs use these and never look into an attempt.  `Takes`
is the half that grammars need in bulk: whatever a reader takes is a front part of the list with a
given property.
-/

namespace RoleAudit.Markup.Reader

open RoleAudit.Text (Span)

variable {α β : Type}

/-- The reader takes `value` off the front of a list and leaves `rest`. -/
def Reads (p : Reader α) (ts : List Lexeme) (value : α) (rest : List Lexeme) : Prop :=
  (p ts).result = some (value, rest)

/-- The reader takes nothing off a list. -/
def Fails (p : Reader α) (ts : List Lexeme) : Prop :=
  (p ts).result = none

theorem fails_iff_forall {p : Reader α} {ts : List Lexeme} :
    p.Fails ts ↔ ∀ value rest, ¬ p.Reads ts value rest := by
  unfold Fails Reads
  rw [Option.eq_none_iff_forall_ne_some]
  exact ⟨fun h value rest => h (value, rest), fun h read => h read.1 read.2⟩

theorem reads_or_fails (p : Reader α) (ts : List Lexeme) :
    (∃ value rest, p.Reads ts value rest) ∨ p.Fails ts := by
  rw [fails_iff_forall]
  by_cases h : ∃ value rest, p.Reads ts value rest
  · exact Or.inl h
  · refine Or.inr fun value rest hread => h ⟨value, rest, hread⟩

/-- A reader reads a list in one way at most. -/
theorem Reads.unique {p : Reader α} {ts rest rest' : List Lexeme} {a b : α}
    (h : p.Reads ts a rest) (h' : p.Reads ts b rest') : a = b ∧ rest = rest' := by
  unfold Reads at h h'
  rw [h] at h'
  simpa using h'

theorem reads_congr {p q : Reader α} {ts rest : List Lexeme} {a : α} (h : p ts = q ts) :
    p.Reads ts a rest ↔ q.Reads ts a rest := by
  unfold Reads
  rw [h]

theorem fails_congr {p q : Reader α} {ts : List Lexeme} (h : p ts = q ts) :
    p.Fails ts ↔ q.Fails ts := by
  unfold Fails
  rw [h]

/-! ### One lexeme or none -/

@[simp] theorem reads_pure {a b : α} {ts rest : List Lexeme} :
    Reads (pure a : Reader α) ts b rest ↔ b = a ∧ rest = ts := by
  show some (a, ts) = some (b, rest) ↔ _
  simp [eq_comm]

@[simp] theorem not_fails_pure {a : α} {ts : List Lexeme} : ¬ Fails (pure a : Reader α) ts := by
  intro h
  cases h

@[simp] theorem not_reads_refuse {cause : Cause} {ts rest : List Lexeme} {a : α} :
    ¬ Reads (refuse cause) ts a rest := by
  intro h
  cases h

@[simp] theorem fails_refuse {cause : Cause} {ts : List Lexeme} :
    Fails (refuse cause : Reader α) ts :=
  rfl

@[simp] theorem reads_accept {kind : Token → Option α} {ts rest : List Lexeme} {read : α × Span} :
    (accept kind).Reads ts read rest ↔
      ∃ t, kind t = some read.1 ∧ ts = ⟨t, read.2⟩ :: rest := by
  obtain ⟨a, span⟩ := read
  cases ts with
  | nil => simp [Reads, accept, refuse]
  | cons t ts =>
      obtain ⟨t, s⟩ := t
      cases h : kind t with
      | none =>
          simp only [Reads, accept, refuse, h, reduceCtorEq, false_iff]
          rintro ⟨t', ht', heq⟩
          simp only [List.cons.injEq, Lexeme.mk.injEq] at heq
          rw [← heq.1.1, h] at ht'
          cases ht'
      | some b =>
          simp only [Reads, accept, h, Option.some.injEq, Prod.mk.injEq]
          constructor
          · rintro ⟨⟨rfl, rfl⟩, rfl⟩
            exact ⟨t, h, rfl⟩
          · rintro ⟨t', ht', heq⟩
            simp only [List.cons.injEq, Lexeme.mk.injEq] at heq
            obtain ⟨⟨rfl, rfl⟩, rfl⟩ := heq
            rw [h] at ht'
            exact ⟨⟨Option.some.inj ht', rfl⟩, rfl⟩

@[simp] theorem fails_accept_nil {kind : Token → Option α} : (accept kind).Fails [] :=
  rfl

@[simp] theorem fails_accept_cons {kind : Token → Option α} {t : Lexeme} {ts : List Lexeme} :
    (accept kind).Fails (t :: ts) ↔ kind t.token = none := by
  cases h : kind t.token <;> simp [Fails, accept, refuse, h]

@[simp] theorem reads_bind {p : Reader α} {f : α → Reader β} {ts rest : List Lexeme} {b : β} :
    Reads (p >>= f) ts b rest ↔ ∃ a mid, p.Reads ts a mid ∧ (f a).Reads mid b rest := by
  rcases h : p ts with ⟨_ | ⟨a, mid⟩, missed⟩ <;>
    simp [Reads, bind, Reader.bind, h, and_assoc]

@[simp] theorem fails_bind {p : Reader α} {f : α → Reader β} {ts : List Lexeme} :
    Fails (p >>= f) ts ↔ p.Fails ts ∨ ∃ a mid, p.Reads ts a mid ∧ (f a).Fails mid := by
  rcases h : p ts with ⟨_ | ⟨a, mid⟩, missed⟩ <;>
    simp [Reads, Fails, bind, Reader.bind, h, and_assoc]

@[simp] theorem reads_token {expected : Token} {ts rest : List Lexeme} {span : Span} :
    (token expected).Reads ts span rest ↔ ts = ⟨expected, span⟩ :: rest := by
  unfold token
  simp only [reads_bind, reads_accept, reads_pure]
  constructor
  · rintro ⟨⟨⟨⟩, s⟩, mid, ⟨t, ht, hts⟩, rfl, rfl⟩
    by_cases h : t = expected
    · rw [hts, h]
    · simp [h] at ht
  · rintro rfl
    exact ⟨((), span), rest, ⟨expected, by simp⟩, rfl, rfl⟩

@[simp] theorem fails_token_nil {expected : Token} : (token expected).Fails [] :=
  rfl

@[simp] theorem fails_token_cons {expected : Token} {t : Lexeme} {ts : List Lexeme} :
    (token expected).Fails (t :: ts) ↔ t.token ≠ expected := by
  unfold token
  simp

@[simp] theorem reads_atEnd {ts rest : List Lexeme} {value : Unit} :
    atEnd.Reads ts value rest ↔ ts = [] ∧ rest = [] := by
  cases ts <;> simp [Reads, atEnd, refuse, eq_comm]

/-! ### Choices -/

@[simp] theorem reads_orElse {p q : Reader α} {ts rest : List Lexeme} {a : α} :
    Reads (p <|> q) ts a rest ↔ p.Reads ts a rest ∨ (p.Fails ts ∧ q.Reads ts a rest) := by
  show (Reader.orElse p q ts).result = _ ↔ _
  rcases h : p ts with ⟨_ | ⟨b, mid⟩, missed⟩ <;>
    rcases h' : q ts with ⟨_ | ⟨c, mid'⟩, missed'⟩ <;>
    simp [Reads, Fails, Reader.orElse, h, h']

@[simp] theorem fails_orElse {p q : Reader α} {ts : List Lexeme} :
    Fails (p <|> q) ts ↔ p.Fails ts ∧ q.Fails ts := by
  show (Reader.orElse p q ts).result = _ ↔ _
  rcases h : p ts with ⟨_ | ⟨b, mid⟩, missed⟩ <;>
    rcases h' : q ts with ⟨_ | ⟨c, mid'⟩, missed'⟩ <;>
    simp [Fails, Reader.orElse, h, h']

@[simp] theorem reads_optional {p : Reader α} {ts rest : List Lexeme} {value : Option α} :
    (optional p).Reads ts value rest ↔
      (∃ a, value = some a ∧ p.Reads ts a rest) ∨ (value = none ∧ rest = ts ∧ p.Fails ts) := by
  rcases h : p ts with ⟨_ | ⟨b, mid⟩, missed⟩ <;>
    simp [Reads, Fails, optional, h, eq_comm, and_left_comm]

@[simp] theorem not_fails_optional {p : Reader α} {ts : List Lexeme} : ¬ (optional p).Fails ts := by
  rcases h : p ts with ⟨_ | ⟨b, mid⟩, missed⟩ <;> simp [Fails, optional, h]

@[simp] theorem reads_ahead {p : Reader α} {ts rest : List Lexeme} {a : α} :
    (ahead p).Reads ts a rest ↔ rest = ts ∧ ∃ mid, p.Reads ts a mid := by
  rcases h : p ts with ⟨_ | ⟨b, mid⟩, missed⟩ <;> simp [Reads, ahead, h, eq_comm, and_comm]

@[simp] theorem fails_ahead {p : Reader α} {ts : List Lexeme} :
    (ahead p).Fails ts ↔ p.Fails ts := by
  rcases h : p ts with ⟨_ | ⟨b, mid⟩, missed⟩ <;> simp [Fails, ahead, h]

/-! ### Repetition -/

theorem reads_many {p : Reader α} {ts rest : List Lexeme} {as : List α} :
    (many p).Reads ts as rest ↔
      (p.Fails ts ∧ as = [] ∧ rest = ts) ∨
        ∃ a mid, p.Reads ts a mid ∧
          ((mid.length < ts.length ∧ ∃ bs, as = a :: bs ∧ (many p).Reads mid bs rest) ∨
            (¬ mid.length < ts.length ∧ as = [a] ∧ rest = mid)) := by
  unfold Reads Fails
  rw [many]
  rcases h : p ts with ⟨_ | ⟨a, mid⟩, missed⟩
  · simp [eq_comm]
  · simp only [reduceCtorEq, false_and, Option.some.injEq, Prod.mk.injEq, and_assoc, false_or,
      exists_and_left, exists_eq_left']
    by_cases hlt : mid.length < ts.length
    · simp only [hlt, true_and, not_true_eq_false, false_and, or_false]
      rcases h' : many p mid with ⟨_ | ⟨bs, rest'⟩, missed'⟩
      · simp
      · simp [eq_comm, and_left_comm]
    · simp only [hlt, not_false_eq_true, true_and, false_and, false_or]
      simp [eq_comm]

@[simp] theorem not_fails_many {p : Reader α} {ts : List Lexeme} : ¬ (many p).Fails ts := by
  induction hn : ts.length using Nat.strongRecOn generalizing ts with
  | ind n ih =>
      rw [fails_iff_forall]
      intro hnone
      rcases reads_or_fails p ts with ⟨a, mid, ha⟩ | hfail
      · by_cases hlt : mid.length < ts.length
        · rcases reads_or_fails (many p) mid with ⟨bs, rest, hbs⟩ | hmid
          · exact hnone _ _ (reads_many.2 (Or.inr ⟨a, mid, ha, Or.inl ⟨hlt, bs, rfl, hbs⟩⟩))
          · exact ih _ (hn ▸ hlt) rfl hmid
        · exact hnone _ _ (reads_many.2 (Or.inr ⟨a, mid, ha, Or.inr ⟨hlt, rfl, rfl⟩⟩))
      · exact hnone _ _ (reads_many.2 (Or.inl ⟨hfail, rfl, rfl⟩))

/-- A repetition stops where its reader takes nothing. -/
theorem many_stop {p : Reader α} {ts : List Lexeme} (h : p.Fails ts) :
    (many p).Reads ts [] ts :=
  reads_many.2 (Or.inl ⟨h, rfl, rfl⟩)

/-- A repetition goes on after each value that takes up something. -/
theorem many_step {p : Reader α} {ts mid rest : List Lexeme} {a : α} {as : List α}
    (h : p.Reads ts a mid) (hlt : mid.length < ts.length) (hmany : (many p).Reads mid as rest) :
    (many p).Reads ts (a :: as) rest :=
  reads_many.2 (Or.inr ⟨a, mid, h, Or.inl ⟨hlt, as, rfl, hmany⟩⟩)

theorem many1_reads {p : Reader α} {ts mid rest : List Lexeme} {a : α} {as : List α}
    (h : p.Reads ts a mid) (hmany : (many p).Reads mid as rest) :
    (many1 p).Reads ts (a :: as) rest := by
  unfold many1
  simp only [reads_bind, reads_pure]
  exact ⟨a, mid, h, as, rest, hmany, rfl, rfl⟩

@[simp] theorem fails_many1 {p : Reader α} {ts : List Lexeme} :
    (many1 p).Fails ts ↔ p.Fails ts := by
  unfold many1
  simp

/-! ### Properties of what is taken -/

/-- Whatever the reader takes is a front part of the list with the property `P`. -/
def Takes (p : Reader α) (P : List Lexeme → α → Prop) : Prop :=
  ∀ ⦃ts value rest⦄, p.Reads ts value rest → ∃ used, ts = used ++ rest ∧ P used value

section Takes

variable {p : Reader α} {q : Reader β} {P : List Lexeme → α → Prop} {Q : List Lexeme → β → Prop}

/-- A left fold over repeated readings keeps a property that each of them keeps. -/
theorem Takes.foldl {f : α → β → α} (hq : q.Takes Q)
    (step : ∀ us vs a b, P us a → Q vs b → P (us ++ vs) (f a b))
    {ts rest us : List Lexeme} {bs : List β} {a : α}
    (hmany : (many q).Reads ts bs rest) (ha : P us a) :
    ∃ used, ts = used ++ rest ∧ P (us ++ used) (bs.foldl f a) := by
  induction hn : ts.length using Nat.strongRecOn generalizing ts us bs a with
  | ind n ih =>
      rcases reads_many.1 hmany with ⟨-, rfl, rfl⟩ | ⟨b, mid, hb, hnext⟩
      · exact ⟨[], rfl, by simpa using ha⟩
      · obtain ⟨vs, rfl, hvs⟩ := hq hb
        rcases hnext with ⟨hlt, bs, rfl, hbs⟩ | ⟨-, rfl, rfl⟩
        · obtain ⟨ws, rfl, hws⟩ := ih _ (hn ▸ hlt) hbs (step us vs a b ha hvs) rfl
          exact ⟨vs ++ ws, by simp, by simpa using hws⟩
        · exact ⟨vs, rfl, step us vs a b ha hvs⟩

/-- What a repetition takes is put together from what its reader takes. -/
theorem Takes.many {R : List Lexeme → List α → Prop} (hp : p.Takes P) (nil : R [] [])
    (cons : ∀ us vs a as, P us a → R vs as → R (us ++ vs) (a :: as)) :
    (many p).Takes R := by
  intro ts as rest h
  induction hn : ts.length using Nat.strongRecOn generalizing ts as with
  | ind n ih =>
      rcases reads_many.1 h with ⟨-, rfl, rfl⟩ | ⟨a, mid, ha, hnext⟩
      · exact ⟨[], rfl, nil⟩
      · obtain ⟨us, rfl, hus⟩ := hp ha
        rcases hnext with ⟨hlt, bs, rfl, hbs⟩ | ⟨-, rfl, rfl⟩
        · obtain ⟨vs, rfl, hvs⟩ := ih _ (hn ▸ hlt) hbs rfl
          exact ⟨us ++ vs, by simp, cons us vs a bs hus hvs⟩
        · exact ⟨us, rfl, by simpa using cons us [] a [] hus nil⟩

end Takes

end RoleAudit.Markup.Reader
