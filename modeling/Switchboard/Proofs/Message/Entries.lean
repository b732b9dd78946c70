import Switchboard.Message.Payload
import Switchboard.Proofs.Message.Request

/-! The entries of a body.

A body that is accepted is one value's text between blanks: that of its only entry, or of the list
of its entries (`Payload.spelt_of_parse`). So every entry is a text of its own, and the one that
its caller wrote. A request is read from its entry, and its arguments are the texts of its params
(`Request.Positional.arguments`).

The params are kept as a text and cut when the call is made. That second reading is of a text that
the first one skimmed (`Request.textual_of_ofRaw`), so it finds the list that it is. -/
namespace Switchboard
open Json

namespace Payload

/-- The entries, in their order. -/
def entries : Payload → List Raw
  | .single entry => [entry]
  | .batch entries => entries

/-- The text is that of the only entry, or of the list of the entries. -/
def Spelt (p : Payload) (r : Raw) : Prop :=
  match p with
  | .single entry => r = entry
  | .batch entries => r.IsList entries

theorem Spelt.isText {p : Payload} {r : Raw} (h : p.Spelt r) (hr : r.IsText) :
    ∀ entry ∈ p.entries, entry.IsText := by
  cases p with
  | single entry =>
    cases h
    exact List.forall_mem_singleton.mpr hr
  | batch entries => exact Raw.IsList.items_isText h

/-- A body that is skimmed is the text between blanks. -/
theorem laidOut_of_skimBody {body : ByteArray} {r : Raw} (h : skimBody body = .ok r) :
    ∃ (text : String) (b b' : List Char), String.fromUTF8? body = some text ∧
      text.toList = b ++ (r.chars ++ b') ∧ Blank b ∧ Blank b' ∧ r.IsText := by
  unfold skimBody at h
  split at h
  · rename_i text htext
    obtain ⟨b, t, b', hb, ht, hb', hs⟩ := Reader.raw_skims.document h
    have htaken : Raw.parse text.toList = .ok t :=
      hs ▸ (Reader.raw_takes ht).document hb hb' Char.utf8Size
    cases h.symm.trans htaken
    exact ⟨text, b, b', htext, hs, hb, hb', ht⟩
  · cases h

/-- **An accepted body is the text of its entries, as they stand in it, between blanks.** -/
theorem spelt_of_parse {body : ByteArray} {p : Payload} (h : parse body = .ok p) :
    ∃ (text : String) (b : List Char) (r : Raw) (b' : List Char),
      String.fromUTF8? body = some text ∧ text.toList = b ++ (r.chars ++ b') ∧ Blank b ∧
        Blank b' ∧ r.IsText ∧ p.Spelt r := by
  unfold parse at h
  split at h
  · cases h
  · rename_i r hr
    obtain ⟨text, b, b', htext, hs, hb, hb', ht⟩ := laidOut_of_skimBody hr
    refine ⟨text, b, r, b', htext, hs, hb, hb', ht, ?_⟩
    split at h
    · rename_i v hv
      obtain ⟨items, hl⟩ := ht.isList hv
      rw [hl.elements] at h
      cases items with
      | nil => cases h
      | cons entry items =>
        cases h
        exact hl
    · cases h
      rfl

theorem entries_isText {body : ByteArray} {p : Payload} (h : parse body = .ok p) :
    ∀ entry ∈ p.entries, entry.IsText := by
  obtain ⟨_, _, _, _, -, -, -, -, hr, hs⟩ := spelt_of_parse h
  exact hs.isText hr

end Payload

/-! ### Arguments -/

namespace Request
variable {q : Request} {items : List Raw} {e : ErrorObject}

/-- The arguments come by position: as a list, or there are none. -/
inductive ByPosition (q : Request) : List Raw → Prop
  | absent (h : q.params? = none) : ByPosition q []
  | null (h : q.params? = some Raw.null) : ByPosition q []
  | listed {p : Raw} {items : List Raw} (h : q.params? = some p) (hl : p.IsList items) :
      ByPosition q items

/-- The params are an object or another value by itself, and what is said of them. -/
inductive OutOfPlace (q : Request) : ErrorObject → Prop
  | named {p : Raw} {fields : List Field} (h : q.params? = some p) (ho : p.IsObject fields) :
      OutOfPlace q (.invalidParams "named parameters are not supported")
  | scalar {p : Raw} (h : q.params? = some p) (hs : p.IsScalar) (hne : p ≠ Raw.null) :
      OutOfPlace q (.invalidParams "params must be an array")

/-- The params are one value's own text. -/
def Textual (q : Request) : Prop := ∀ p, q.params? = some p → p.IsText

/-- **Arguments by position are read in order, as they are spelt.** -/
theorem ByPosition.arguments (h : q.ByPosition items) : q.arguments = .ok items := by
  cases h with
  | absent h => simp only [Request.arguments, h]
  | null h =>
    simp only [Request.arguments, h]
    rfl
  | listed h hl =>
    obtain ⟨v, hv⟩ := hl.bracket
    simp only [Request.arguments, h, hv, hl.elements]

theorem OutOfPlace.arguments (h : q.OutOfPlace e) : q.arguments = .error e := by
  cases h with
  | named h ho =>
    obtain ⟨v, hv⟩ := ho.brace
    simp only [Request.arguments, h, hv]
  | scalar h hs hne =>
    obtain ⟨c, v, hv, -, hl, ho, -⟩ := hs
    simp only [Request.arguments, h]
    split
    · rename_i he
      cases hv.symm.trans he
      exact absurd rfl hl
    · rename_i he
      cases hv.symm.trans he
      exact absurd rfl ho
    · rw [if_neg hne]

theorem OutOfPlace.code (h : q.OutOfPlace e) : e.code = -32602 := by
  cases h <;> rfl

theorem OutOfPlace.not_byPosition (h : q.OutOfPlace e) : ¬q.ByPosition items := fun hp => by
  cases h.arguments.symm.trans hp.arguments

theorem Textual.byPosition_or (h : q.Textual) :
    (∃ items, q.ByPosition items) ∨ ∃ e, q.OutOfPlace e := by
  cases hp : q.params? with
  | none => exact .inl ⟨_, .absent hp⟩
  | some p =>
    rcases Raw.isText_cases (h p hp) with ⟨items, hl⟩ | ⟨fields, ho⟩ | hs
    · exact .inl ⟨_, .listed hp hl⟩
    · exact .inr ⟨_, .named hp ho⟩
    · by_cases hnull : p = Raw.null
      · exact .inl ⟨_, .null (hnull ▸ hp)⟩
      · exact .inr ⟨_, .scalar hp hs hnull⟩

end Request

/-! ### Requests in entries -/

namespace Request
variable {entry : Raw} {q : Request} {items : List Raw}

theorem parse_of_ofRaw (h : ofRaw entry = .ok q) : parse entry.chars = .ok q := by
  unfold ofRaw at h
  split at h
  · cases h
  · split at h <;> cases h
    assumption

theorem takes_of_ofRaw (hr : entry.IsText) (h : ofRaw entry = .ok q) :
    (Layout.reader Char.utf8Size).Takes entry q :=
  (parse_eq_ok_iff hr).mp (parse_of_ofRaw h)

theorem members_skim : ∀ m ∈ Layout.members, m.value.Skims := by
  simp only [plan, List.forall_mem_cons]
  exact ⟨Reader.string_skims.map _, (Reader.id_skims 1).map _, Reader.string_skims.map _,
    (Reader.raw_skims.map _).map _, fun _ h => by cases h⟩

/-- **The params of a request that was read are one value's own text.** -/
theorem textual_of_ofRaw (h : ofRaw entry = .ok q) : q.Textual := by
  intro p hp
  have hparse := parse_of_ofRaw h
  obtain ⟨b, r, b', hb, hr, hb', hs⟩ := (Plan.reader_skims members_skim).document hparse
  rw [hs] at hparse
  have htakes := ((Plan.reader_settled covered.settled).document_eq_ok_iff hr hb hb' _).mp hparse
  by_cases hhas : ∃ t, Layout.Has r "params" t
  · obtain ⟨t, ht⟩ := hhas
    rw [params_of_has htakes ht] at hp
    split at hp <;> cases hp
    exact ht.isText
  · rw [params_of_lacks hr htakes fun t ht => hhas ⟨t, ht⟩] at hp
    cases hp

/-- The texts of the arguments by position: none without params or with null, else those of the
list that the params are. -/
inductive Positional (entry : Raw) : List Raw → Prop
  | absent (h : ∀ t, Layout.Has entry "params" t → t = Raw.null) : Positional entry []
  | listed {t : Raw} {items : List Raw} (h : Layout.Has entry "params" t) (hl : t.IsList items) :
      Positional entry items

theorem Positional.byPosition (h : Positional entry items) (hr : entry.IsText)
    (hq : (Layout.reader Char.utf8Size).Takes entry q) : q.ByPosition items := by
  cases h with
  | absent h =>
    apply ByPosition.absent
    by_cases hex : ∃ t, Layout.Has entry "params" t
    · obtain ⟨t, ht⟩ := hex
      rw [params_of_has hq ht, if_pos (h t ht)]
    · exact params_of_lacks hr hq fun t ht => hex ⟨t, ht⟩
  | @listed t _ h hl =>
    obtain ⟨v, hv⟩ := hl.bracket
    have hne : t ≠ Raw.null := fun he => by
      rw [he] at hv
      cases hv
    refine .listed ?_ hl
    rw [params_of_has hq h, if_neg hne]

/-- **The arguments of a request are the texts that its entry has for them.** -/
theorem Positional.arguments (h : Positional entry items) (hr : entry.IsText)
    (hq : (Layout.reader Char.utf8Size).Takes entry q) : q.arguments = .ok items :=
  (h.byPosition hr hq).arguments

end Request
end Switchboard
