import RoleAudit.Proofs.Concatenation
import RoleAudit.Proofs.ProseText

/-!
# Roles in quotes

In a tag, a text in double quotes is one piece up to the next double quote, whatever else is in it:
there are no escapes, and no character of it is read as markup.  So a role that is written in quotes
comes to the rule as it stands, and the rule reports it unless it holds a word, and no word but roles
that may be used.

Main statement: `quoted_role_follows`.
-/

namespace RoleAudit.Text

/-! ### Words -/

/-- A word of a text is a run of characters that are not blank, as long as it can be. -/
def IsWord (text word : List Char) : Prop :=
  word ≠ [] ∧ (∀ c ∈ word, isBlank c = false) ∧ ∃ before after, text = before ++ (word ++ after) ∧
    (∀ c ∈ before.getLast?, isBlank c = true) ∧ ∀ c ∈ after.head?, isBlank c = true

section Words

variable {run rest word : List Char}

/-- A blank belongs to no word. -/
theorem isWord_cons_of_blank {c : Char} (hc : isBlank c = true) :
    IsWord (c :: rest) word ↔ IsWord rest word := by
  constructor
  · rintro ⟨hne, hword, before, after, htext, hbefore, hafter⟩
    cases before with
    | nil =>
        obtain ⟨d, word, rfl⟩ := List.exists_cons_of_ne_nil hne
        obtain ⟨rfl, -⟩ := List.cons.inj htext
        rw [hword c List.mem_cons_self] at hc
        cases hc
    | cons d before =>
        obtain ⟨rfl, rfl⟩ := List.cons.inj htext
        refine ⟨hne, hword, before, after, rfl, fun e he => hbefore e ?_, hafter⟩
        rw [List.getLast?_cons, Option.mem_def.1 he]
        rfl
  · rintro ⟨hne, hword, before, after, rfl, hbefore, hafter⟩
    refine ⟨hne, hword, c :: before, after, rfl, fun d hd => ?_, hafter⟩
    rw [List.getLast?_cons] at hd
    cases hlast : before.getLast? with
    | none =>
        rw [hlast] at hd
        cases hd
        exact hc
    | some e =>
        rw [hlast] at hd
        cases hd
        exact hbefore _ hlast

/-- A word of what comes after a run is a word of the whole text. -/
theorem IsWord.after_run (hrest : ∀ c ∈ rest.head?, isBlank c = true) (h : IsWord rest word) :
    IsWord (run ++ rest) word := by
  obtain ⟨hne', hword, before, after, rfl, hbefore, hafter⟩ := h
  refine ⟨hne', hword, run ++ before, after, by simp, fun e he => hbefore e ?_, hafter⟩
  cases before with
  | nil =>
      -- a word right after the run would go on with it
      obtain ⟨d, word, rfl⟩ := List.exists_cons_of_ne_nil hne'
      have hd := hrest d rfl
      rw [hword d List.mem_cons_self] at hd
      cases hd
  | cons d before =>
      rw [List.getLast?_append] at he
      cases hlast : (d :: before).getLast? with
      | none => simp at hlast
      | some f =>
          rw [hlast] at he
          exact he

/-- A word that does not stand at the front is a word of what comes after the run. -/
theorem IsWord.of_append (hrun : ∀ c ∈ run, isBlank c = false)
    (hrest : ∀ c ∈ rest.head?, isBlank c = true) (h : IsWord (run ++ rest) word) :
    word = run ∨ IsWord rest word := by
  obtain ⟨hne', hword, before, after, htext, hbefore, hafter⟩ := h
  -- a run is all that stands before the first blank
  have hfirst : ∀ {run rest : List Char}, (∀ c ∈ run, isBlank c = false) →
      (∀ c ∈ rest.head?, isBlank c = true) → (run ++ rest).takeWhile (fun c => !isBlank c) = run :=
    fun hrun hrest => (Markup.takeWhile_run (by simpa using hrun) (by simpa using hrest)).1
  cases before with
  | nil =>
      left
      rw [← hfirst hword hafter, ← hfirst hrun hrest, htext, List.nil_append]
  | cons c before =>
      right
      have hlast := List.getLast?_eq_some_getLast (l := c :: before) (by simp)
      have hblank := hbefore _ hlast
      -- what stands before the word ends with a blank, so it goes on after the run
      obtain ⟨mid, hmid, hrest'⟩ | ⟨mid, hmid, -⟩ := List.append_eq_append_iff.1 htext
      · cases mid with
        | nil =>
            rw [List.append_nil] at hmid
            rw [hrun _ (hmid ▸ List.getLast_mem _)] at hblank
            cases hblank
        | cons d mid =>
            refine ⟨hne', hword, d :: mid, after, hrest', fun e he => hbefore e ?_, hafter⟩
            rw [hmid, List.getLast?_append, Option.mem_def.1 he]
            rfl
      · have hmem : (c :: before).getLast (by simp) ∈ run :=
          hmid ▸ List.mem_append_left _ (List.getLast_mem _)
        rw [hrun _ hmem] at hblank
        cases hblank

variable (hne : run ≠ []) (hrun : ∀ c ∈ run, isBlank c = false)
  (hrest : ∀ c ∈ rest.head?, isBlank c = true)
include hne hrun hrest

/-- The run that a text starts with is its first word. -/
theorem words_run : words (run ++ rest) = run :: words rest := by
  induction run with
  | nil => exact absurd rfl hne
  | cons c run ih =>
      have hc := hrun c List.mem_cons_self
      cases run with
      | nil =>
          cases rest with
          | nil => simp [words, hc]
          | cons d rest => simp [words, hc, hrest d rfl]
      | cons d run =>
          have hd := hrun d (by simp)
          have htail := ih (by simp) fun e he => hrun e (List.mem_cons_of_mem _ he)
          simp only [List.cons_append] at htail ⊢
          simp [words, hc, hd, htail]

/-- A word of a text that starts with a run is this run, or a word of what comes after it. -/
theorem isWord_append : IsWord (run ++ rest) word ↔ word = run ∨ IsWord rest word := by
  constructor
  · exact IsWord.of_append hrun hrest
  · rintro (rfl | h)
    · exact ⟨hne, hrun, [], rest, rfl, by simp, hrest⟩
    · exact h.after_run hrest

end Words

/-- The words of a text are its longest runs of characters that are not blank. -/
theorem mem_words_iff {text word : List Char} : word ∈ words text ↔ IsWord text word := by
  induction hlength : text.length using Nat.strongRecOn generalizing text with
  | ind length ih =>
      cases text with
      | nil =>
          refine iff_of_false List.not_mem_nil fun ⟨hne, _, before, after, htext, _⟩ => hne ?_
          simp_all
      | cons c rest =>
          cases hc : isBlank c with
          | true =>
              rw [isWord_cons_of_blank hc, ← ih rest.length (by simp [← hlength]) rfl]
              cases rest <;> simp [words, hc]
          | false =>
              -- the run at the front, and what is left after it
              let run := c :: rest.takeWhile fun d => !isBlank d
              let after := rest.dropWhile fun d => !isBlank d
              have htext : c :: rest = run ++ after := by
                simp [run, after, List.takeWhile_append_dropWhile]
              have hrun : ∀ d ∈ run, isBlank d = false := by
                intro d hd
                rcases List.mem_cons.1 hd with rfl | hd
                · exact hc
                · simpa using List.all_eq_true.1 List.all_takeWhile d hd
              have hafter : ∀ d ∈ after.head?, isBlank d = true := by
                intro d hd
                have hhead := List.head?_dropWhile_not (fun d => !isBlank d) rest
                rw [Option.mem_def.1 hd] at hhead
                simpa using hhead
              have hshorter : after.length < length := by
                have hle : after.length ≤ rest.length := (List.dropWhile_suffix _).length_le
                rw [List.length_cons] at hlength
                omega
              rw [htext, words_run (by simp [run]) hrun hafter,
                isWord_append (by simp [run]) hrun hafter, List.mem_cons, ih _ hshorter rfl]

end RoleAudit.Text

namespace RoleAudit.Markup

open RoleAudit.Text

/-! ### Sources with a role -/

/-- The lexemes of a tag before the value of the role. -/
def beforeRole : List Lexeme :=
  [⟨.less, ⟨0, 1⟩⟩, ⟨.word "div", ⟨1, 4⟩⟩, ⟨.word "role", ⟨5, 9⟩⟩, ⟨.equals, ⟨9, 10⟩⟩]

/-- The lexemes of the tag after a value that stops at `stop`. -/
def afterRole (stop : Nat) : List Lexeme :=
  [⟨.slash, ⟨stop + 1, stop + 2⟩⟩, ⟨.greater, ⟨stop + 2, stop + 3⟩⟩]

/-- A role in a tag with nothing else is the value that its lexemes spell after the equal sign. -/
theorem parse_of_role_lexemes {source : String} {ts : List Lexeme} {value : AttributeValue}
    (hlexemes : lexemes source = beforeRole ++ (ts ++ afterRole value.span.stop))
    (hspells : Spells (⟨.equals, ⟨9, 10⟩⟩ :: ts) (.value (some value))) :
    Document.parse source = .ok ⟨[.single ⟨.plain "div",
      [.plain ⟨none, "role", some value, ⟨5, value.span.stop⟩⟩], ⟨0, value.span.stop + 3⟩⟩]⟩ := by
  have hitem : Spells _ (.item (.plain ⟨none, "role", some value, ⟨5, value.span.stop⟩⟩)) :=
    @Written.plain _ ⟨5, 9⟩ "role" _ _ hspells
  have hsingle : Spells _ (.element (.single ⟨.plain "div", _, ⟨0, value.span.stop + 3⟩⟩)) :=
    @Written.single _ ⟨0, 1⟩ ⟨value.span.stop + 1, value.span.stop + 2⟩
      ⟨value.span.stop + 2, value.span.stop + 3⟩ [⟨.word "div", ⟨1, 4⟩⟩] _ (.plain "div") _ trivial
      (by simp) rfl (.items hitem .noItems)
  have hall : Spells _ (.elements [_]) := .elements hsingle .noElements
  refine parse_of_spells ?_
  rw [hlexemes]
  simpa [beforeRole, afterRole] using hall

/-- A value of the role that is lexed between the equal sign and the end of the tag. -/
theorem parse_role {source : String} {text : List Char} {ts : List Lexeme} {value : AttributeValue}
    (hsource : source.toList =
      '<' :: 'd' :: 'i' :: 'v' :: ' ' :: 'r' :: 'o' :: 'l' :: 'e' :: '=' :: text)
    (hequals : codeBite true ('=' :: text) = some ⟨some .equals, 1, text⟩)
    (hlexes : Lexes [.tag ⟨false, false, false⟩] 10 text ts [.tag ⟨false, false, false⟩]
      value.span.stop [' ', '/', '>'])
    (hspells : Spells (⟨.equals, ⟨9, 10⟩⟩ :: ts) (.value (some value))) :
    Document.parse source = .ok ⟨[.single ⟨.plain "div",
      [.plain ⟨none, "role", some value, ⟨5, value.span.stop⟩⟩], ⟨0, value.span.stop + 3⟩⟩]⟩ := by
  have hfront : Lexes [] 0 source.toList beforeRole [.tag ⟨false, false, false⟩] 10 text := by
    rw [hsource]
    exact .token .less 1 rfl rfl (.token (.word "div") 3 rfl rfl (.gap rfl
      (.token (.word "role") 4 rfl rfl (.token .equals 1 hequals rfl .done))))
  have hback : Lexes [.tag ⟨false, false, false⟩] value.span.stop [' ', '/', '>']
      (afterRole value.span.stop) [] (value.span.stop + 3) [] :=
    .gap rfl (.token .slash 1 rfl rfl (.token .greater 1 rfl rfl .done))
  have hlexemes := (hfront.append (hlexes.append hback)).filterMap_eq
  rw [traceFrom_nil, List.filterMap_nil, List.append_nil] at hlexemes
  exact parse_of_role_lexemes hlexemes hspells

/-- In a tag, a text in double quotes is one piece. -/
theorem codeBite_doubleQuoted {text : List Char} (h : '"' ∉ text) (rest : List Char) :
    codeBite true ('"' :: (text ++ '"' :: rest)) =
      some ⟨some (.quoted (String.ofList text)), byteLength text + 2, rest⟩ := by
  have hquote : ('"' : Char).utf8Size = 1 := rfl
  simp [codeBite, isSpace, isWordStart, plainQuoted, Quoted.cut?_of_not_mem h, quotedBite, hquote]
  omega

/-- A tag with a role in double quotes. -/
def roleSource (value : String) : String :=
  "<div role=\"" ++ value ++ "\" />"

/-- Where the role stops. -/
def roleStop (value : String) : Nat :=
  12 + byteLength value.toList

/-- The role of the tag. -/
def roleAttribute (value : String) : Attribute :=
  ⟨none, "role", some (.quoted value ⟨10, roleStop value⟩), ⟨5, roleStop value⟩⟩

/-- The element that the tag is. -/
def roleElement (value : String) : Element :=
  .single ⟨.plain "div", [.plain (roleAttribute value)], ⟨0, roleStop value + 3⟩⟩

theorem parse_roleSource {value : String} (h : '"' ∉ value.toList) :
    Document.parse (roleSource value) = .ok ⟨[roleElement value]⟩ := by
  have htext : (roleSource value).toList = '<' :: 'd' :: 'i' :: 'v' :: ' ' :: 'r' :: 'o' :: 'l' ::
      'e' :: '=' :: '"' :: (value.toList ++ '"' :: ' ' :: ['/', '>']) := by
    simp [roleSource]
  have hstop : 10 + (byteLength value.toList + 2) = roleStop value := by
    rw [roleStop]
    omega
  have hquoted := codeBite_doubleQuoted h [' ', '/', '>']
  rw [String.ofList_toList] at hquoted
  have hlexes : Lexes [.tag ⟨false, false, false⟩] 10
      ('"' :: (value.toList ++ '"' :: [' ', '/', '>']))
      [⟨.quoted value, ⟨10, 10 + (byteLength value.toList + 2)⟩⟩] [.tag ⟨false, false, false⟩]
      (10 + (byteLength value.toList + 2)) [' ', '/', '>'] :=
    .token (.quoted value) _ hquoted rfl .done
  rw [hstop] at hlexes
  exact @parse_role _ _ _ (.quoted value ⟨10, roleStop value⟩) htext rfl hlexes .quotedValue

end RoleAudit.Markup

namespace RoleAudit.Audit

open RoleAudit.Markup
open RoleAudit.Text

/-! ### What the rule says -/

namespace RoleRule

variable (r : RoleRule)

/-- A text may stand in a role attribute if it holds a word, and every word of it is a concrete role
or is allowed by the options. -/
def Permits (value : String) : Prop :=
  (∃ word, IsWord value.toList word) ∧ ∀ word, IsWord value.toList word →
    r.registry.isConcrete (String.ofList word) = true ∨ String.ofList word ∈ r.options.allowed

theorem isValid_text_iff {value : String} : r.isValid (.text value) = true ↔ r.Permits value := by
  simp only [isValid, Bool.and_eq_true, Bool.not_eq_true', List.isEmpty_eq_false_iff_exists_mem,
    List.all_eq_true, mem_words_iff, isAllowed, Bool.or_eq_true, List.contains_iff_mem]
  rfl

theorem offences_roleElement (value : String) : r.offences [roleElement value] =
    if r.isValid (.text value) then [] else [(roleElement value, roleAttribute value)] := by
  have hnode : Name.isNode (.plain "div") = true := by decide
  have hrole : (roleElement value).tag.attributeIgnoringCase? "role" =
      some (roleAttribute value) := by
    simp [roleElement, Element.tag, Tag.attributeIgnoringCase?, Tag.attributes, roleAttribute]
  have hvalue : RoleValue.ofAttribute (some (roleAttribute value)) = .text value := rfl
  have hname : (roleElement value).tag.name = .plain "div" := rfl
  have hoffending : r.offending? (roleElement value).tag =
      if r.isValid (.text value) then none else some (roleAttribute value) := by
    rw [offending?, hrole, hname, hnode]
    cases hvalid : r.isValid (.text value) <;> simp [Option.filter, hvalue, hvalid]
  rw [offences, List.filterMap_cons, hoffending]
  split <;> simp_all

/-- The stretch of the role, from its name to the closing quote, in lines and columns. -/
theorem location_roleAttribute (value : String) :
    (Lines.ofText (roleSource value)).location (roleAttribute value).span =
      ⟨⟨0, 5⟩, Position.afterText ("<div role=\"" ++ value ++ "\"").toList⟩ := by
  have hstart : (roleSource value).toList =
      "<div ".toList ++ ("role=\"".toList ++ (value.toList ++ "\" />".toList)) := by
    simp [roleSource]
  have hstop : (roleSource value).toList =
      ("<div role=\"" ++ value ++ "\"").toList ++ " />".toList := by
    simp [roleSource]
  have hlength : byteLength ("<div role=\"" ++ value ++ "\"").toList = roleStop value := by
    simp only [String.toList_append, byteLength_append, roleStop]
    have hfront : byteLength "<div role=\"".toList = 11 := by decide
    have hback : byteLength "\"".toList = 1 := by decide
    omega
  have hposition := Lines.position_byteLength hstart
  have hposition' := Lines.position_byteLength hstop
  rw [hlength] at hposition'
  exact congrArg₂ Location.mk hposition hposition'

end RoleRule

/-- A role in double quotes follows the registry, whatever characters it is made of: it is reported,
where it stands, unless it is permitted. -/
theorem quoted_role_follows (r : RoleRule) (value : String) (h : '"' ∉ value.toList) :
    ∃ found, auditSource [r.rule] (roleSource value) = .ok found ∧
      (r.Permits value → found = []) ∧
      (¬ r.Permits value → found = [⟨"aria-role", RoleRule.message,
        ⟨5, 12 + byteLength value.toList⟩,
        ⟨⟨0, 5⟩, Position.afterText ("<div role=\"" ++ value ++ "\"").toList⟩⟩]) := by
  have hentered : Document.entered ⟨[roleElement value]⟩ = [roleElement value] := rfl
  refine ⟨_, r.auditSource_eq (parse_roleSource h), ?_⟩
  rw [hentered, r.offences_roleElement, ← r.isValid_text_iff]
  constructor
  · intro hvalid
    rw [if_pos hvalid]
    rfl
  · intro hvalid
    rw [if_neg hvalid]
    exact congrArg (fun location => [Diagnostic.mk "aria-role" RoleRule.message _ location])
      (RoleRule.location_roleAttribute value)

/-- A role of two lines, with a letter of two bytes and a brace. -/
theorem quoted_role_follows_sample : '"' ∉ "\u00e9\n\x7b".toList ∧
    ¬ buttonRule.Permits "\u00e9\n\x7b" ∧
    ∃ found, auditSource [buttonRule.rule] (roleSource "\u00e9\n\x7b") = .ok found ∧
      found = [⟨"aria-role", RoleRule.message, ⟨5, 16⟩, ⟨⟨0, 5⟩, ⟨1, 2⟩⟩⟩] := by
  have hquote : '"' ∉ "\u00e9\n\x7b".toList := by decide
  have hinvalid : ¬ buttonRule.Permits "\u00e9\n\x7b" := by
    rw [← RoleRule.isValid_text_iff]
    decide
  obtain ⟨found, hfound, -, hreport⟩ := quoted_role_follows buttonRule "\u00e9\n\x7b" hquote
  refine ⟨hquote, hinvalid, found, hfound, ?_⟩
  rw [hreport hinvalid]
  decide

end RoleAudit.Audit
