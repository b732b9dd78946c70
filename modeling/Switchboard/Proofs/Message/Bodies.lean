import Switchboard.Proofs.Json.Grammar
import Switchboard.Proofs.Message.Entries

/-! Bodies, split into their entries.

A body is read twice: once as a whole, and once more, when it is a list, to cut the list. By the
grammar alone it holds one value's text between blanks or none (`Payload.Holds`). It is refused as
no text exactly when it holds none, and where it holds one, that text settles what it is split into
(`Payload.parse_splits`): the second reading never fails behind the first. -/
namespace Switchboard
open Json

/-- Bytes are those of the text that they are read as, and of no other. -/
theorem fromUTF8?_eq_some_iff {body : ByteArray} {text : String} :
    String.fromUTF8? body = some text ↔ body = text.toUTF8 := by
  constructor
  · intro h
    unfold String.fromUTF8? at h
    split at h
    · cases h
      rfl
    · cases h
  · rintro rfl
    simp only [String.fromUTF8?, String.toUTF8_eq_toByteArray, dif_pos text.isValidUTF8]
    rfl

namespace Payload
variable {body : ByteArray} {r : Raw} {items : List Raw}

/-- The body is, in UTF-8, a text that the grammar derives, with blanks around it. -/
def Holds (body : ByteArray) (r : Raw) : Prop :=
  ∃ (text : String) (b b' : List Char), body = text.toUTF8 ∧
    text.toList = b ++ (r.chars ++ b') ∧ Blank b ∧ Blank b' ∧ r.Derived

/-- The first reading accepts what holds a text, and keeps that text. -/
theorem skimBody_eq_ok_iff : skimBody body = .ok r ↔ Holds body r := by
  constructor
  · intro h
    obtain ⟨text, b, b', htext, hs, hb, hb', hr⟩ := laidOut_of_skimBody h
    exact ⟨text, b, b', fromUTF8?_eq_some_iff.mp htext, hs, hb, hb', hr.derived⟩
  · rintro ⟨text, b, b', htext, hs, hb, hb', hr⟩
    simp only [skimBody, fromUTF8?_eq_some_iff.mpr htext, hs]
    exact (Reader.raw_takes hr.isText).document hb hb' Char.utf8Size

theorem Holds.derived (h : Holds body r) : r.Derived := by
  obtain ⟨_, _, _, -, -, -, -, hr⟩ := h
  exact hr

/-- The bytes of a text hold it. -/
theorem holds_text (h : r.IsText) : Holds r.text.toUTF8 r :=
  ⟨r.text, [], [], rfl, by rw [Raw.text, String.toList_ofList, List.append_nil, List.nil_append],
    blank_nil, blank_nil, h.derived⟩

/-- A body that holds no text is refused. -/
theorem parse_of_none (h : ∀ r, ¬Holds body r) :
    ∃ detail, parse body = .error (.parseError detail) := by
  cases hs : skimBody body with
  | ok r => exact absurd (skimBody_eq_ok_iff.mp hs) (h r)
  | error fault => exact ⟨fault.message, by simp only [parse, hs]⟩

/-- The second reading cuts a list into its elements. -/
theorem parse_of_list (h : Holds body r) (hl : r.IsList items) :
    parse body =
      if items = [] then .error (.invalidRequest "empty batch") else .ok (.batch items) := by
  obtain ⟨v, hv⟩ := hl.bracket
  simp only [parse, skimBody_eq_ok_iff.mpr h, hv, hl.elements]
  cases items <;> rfl

theorem parse_of_other (h : Holds body r) (hhead : r.chars.head? ≠ some '[') :
    parse body = .ok (.single r) := by
  simp only [parse, skimBody_eq_ok_iff.mpr h]
  split
  · rename_i v hv
    exact absurd (congrArg List.head? hv) hhead
  · rfl

/-- The only entry of a body whose text it is, unless it is a list. -/
theorem parse_text (h : r.IsText) (hhead : r.chars.head? ≠ some '[') :
    parse r.text.toUTF8 = .ok (.single r) := parse_of_other (holds_text h) hhead

/-- Texts that are put in a list are the entries of a batch. -/
theorem parse_list (hne : items ≠ []) (h : ∀ entry ∈ items, entry.IsText) :
    parse (Raw.list items).text.toUTF8 = .ok (.batch items) := by
  rw [parse_of_list (holds_text (Raw.isText_list h)) (Raw.isList_list h), if_neg hne]

/-- What the grammar makes of a body: nothing, a list without elements, a list of entries, or one
entry. -/
inductive Splits (body : ByteArray) : Except ErrorObject Payload → Prop
  | nothing {detail : String} (h : ∀ r, ¬Holds body r) :
      Splits body (.error (.parseError detail))
  | empty {b : List Char} (hb : Blank b) (h : Holds body ⟨'[' :: (b ++ [']'])⟩) :
      Splits body (.error (.invalidRequest "empty batch"))
  | batch {parts : List Padded} (hne : parts ≠ []) (ht : ∀ p ∈ parts, p.text.Derived)
      (h : Holds body ⟨writeList (parts.map Padded.chars)⟩) :
      Splits body (.ok (.batch (parts.map Padded.text)))
  | single {entry : Raw} (h : Holds body entry) (hhead : entry.chars.head? ≠ some '[') :
      Splits body (.ok (.single entry))

/-- **Parsing makes of a body what the grammar does.** -/
theorem splits_parse (body : ByteArray) : Splits body (parse body) := by
  by_cases hex : ∃ r, Holds body r
  · obtain ⟨r, h⟩ := hex
    by_cases hhead : r.chars.head? = some '['
    · obtain ⟨v, hv⟩ := List.head?_eq_some_iff.mp hhead
      obtain ⟨items, hl⟩ := h.derived.isText.isList hv
      rw [parse_of_list h hl]
      cases hl with
      | empty hb => exact .empty hb h
      | items hne ht =>
        rw [if_neg (mt List.map_eq_nil_iff.mp hne)]
        exact .batch hne (fun p hp => (ht p hp).derived) h
    · rw [parse_of_other h hhead]
      exact .single h hhead
  · obtain ⟨detail, he⟩ := parse_of_none fun r h => hex ⟨r, h⟩
    rw [he]
    exact .nothing fun r h => hex ⟨r, h⟩

theorem parse_eq_parseError_iff :
    (∃ detail, parse body = .error (.parseError detail)) ↔ ∀ r, ¬Holds body r := by
  refine ⟨fun ⟨detail, he⟩ => ?_, parse_of_none⟩
  have hsplits := splits_parse body
  rw [he] at hsplits
  generalize hx : ErrorObject.parseError detail = e at hsplits
  cases hsplits with
  | nothing h => exact h
  | empty => cases hx

theorem parse_eq_empty_iff :
    parse body = .error (.invalidRequest "empty batch") ↔
      ∃ b, Blank b ∧ Holds body ⟨'[' :: (b ++ [']'])⟩ := by
  constructor
  · intro he
    have hsplits := splits_parse body
    rw [he] at hsplits
    generalize hx : ErrorObject.invalidRequest "empty batch" = e at hsplits
    cases hsplits with
    | nothing => cases hx
    | empty hb h => exact ⟨_, hb, h⟩
  · rintro ⟨b, hb, h⟩
    rw [parse_of_list h (.empty hb), if_pos rfl]

theorem parse_eq_batch_iff {entries : List Raw} :
    parse body = .ok (.batch entries) ↔
      ∃ parts : List Padded, parts ≠ [] ∧ (∀ p ∈ parts, p.text.Derived) ∧
        entries = parts.map Padded.text ∧ Holds body ⟨writeList (parts.map Padded.chars)⟩ := by
  constructor
  · intro he
    have hsplits := splits_parse body
    rw [he] at hsplits
    cases hsplits with
    | batch hne ht h => exact ⟨_, hne, ht, rfl, h⟩
  · rintro ⟨parts, hne, ht, rfl, h⟩
    rw [parse_of_list h (.items hne fun p hp => (ht p hp).isText),
      if_neg (mt List.map_eq_nil_iff.mp hne)]

theorem parse_eq_single_iff {entry : Raw} :
    parse body = .ok (.single entry) ↔ Holds body entry ∧ entry.chars.head? ≠ some '[' := by
  constructor
  · intro he
    have hsplits := splits_parse body
    rw [he] at hsplits
    cases hsplits with
    | single h hhead => exact ⟨h, hhead⟩
  · rintro ⟨h, hhead⟩
    exact parse_of_other h hhead

/-- Where the first reading has found a list, the second never fails. -/
theorem elements_of_skimBody (h : skimBody body = .ok r) (hhead : r.chars.head? = some '[') :
    ∃ items, r.elements = .ok items := by
  obtain ⟨v, hv⟩ := List.head?_eq_some_iff.mp hhead
  obtain ⟨items, hl⟩ := (skimBody_eq_ok_iff.mp h).derived.isText.isList hv
  exact ⟨items, hl.elements⟩

/-- **Every body is split as the grammar has it.** A parse error is the answer to a body that holds
no text, and to no other. A list without elements is refused as an empty batch; the entries of any
other list are cut out of it, commas and blanks aside; every other text is an entry of its own. The
two readings agree: behind the first, the second does not fail. -/
theorem parse_exact (body : ByteArray) :
    ((∃ detail, parse body = .error (.parseError detail)) ↔ ∀ r, ¬Holds body r) ∧
    (parse body = .error (.invalidRequest "empty batch") ↔
      ∃ b, Blank b ∧ Holds body ⟨'[' :: (b ++ [']'])⟩) ∧
    (∀ entries, parse body = .ok (.batch entries) ↔
      ∃ parts : List Padded, parts ≠ [] ∧ (∀ p ∈ parts, p.text.Derived) ∧
        entries = parts.map Padded.text ∧ Holds body ⟨writeList (parts.map Padded.chars)⟩) ∧
    (∀ entry, parse body = .ok (.single entry) ↔
      Holds body entry ∧ entry.chars.head? ≠ some '[') ∧
    ∀ r, skimBody body = .ok r → r.chars.head? = some '[' → ∃ items, r.elements = .ok items :=
  ⟨parse_eq_parseError_iff, parse_eq_empty_iff, fun _ => parse_eq_batch_iff,
    fun _ => parse_eq_single_iff, fun _ => elements_of_skimBody⟩

/-- Behind a blank, a list nested a thousand deep; and a string that holds brackets and a comma. -/
def deepAndQuoted : List Padded :=
  [(Padded.bare (Raw.nested 1000)).behind [' '] (List.forall_mem_singleton.mpr rfl),
    Padded.bare ⟨'"' :: spell [.plain ']' (by decide) (by decide) (by decide),
      .plain ',' (by decide) (by decide) (by decide),
      .plain '[' (by decide) (by decide) (by decide)]⟩]

theorem parse_deepAndQuoted :
    parse (Raw.text ⟨writeList (deepAndQuoted.map Padded.chars)⟩).toUTF8 =
      .ok (.batch [Raw.nested 1000, .ofString "\"],[\""]) := by
  have hparts : ∀ p ∈ deepAndQuoted, p.text.Derived := by
    simp only [deepAndQuoted, List.forall_mem_cons]
    exact ⟨(Raw.nested_isText 1000).derived, .string _, fun _ h => by cases h⟩
  have htext := (Raw.Derived.list (List.cons_ne_nil _ _) hparts).isText
  exact ((parse_exact _).2.2.1 _).mpr ⟨_, List.cons_ne_nil _ _, hparts, rfl, holds_text htext⟩

end Payload
end Switchboard
