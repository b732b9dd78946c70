import Switchboard.Proofs.Json.Stricter
import Switchboard.Proofs.Message.Members

/-! What a message that was read holds.

Each part of a message is what the text of its member spells, whichever way the message is laid
out: strings and ids are decoded, results and params are the very texts. Whatever is read as a
response is one text between blanks (`Response.laidOut`). -/
namespace Switchboard
open Json

variable {r t : Raw}

/-! ### Error objects -/

namespace ErrorObject
variable {outer : Nat} {e : ErrorObject}

theorem finish_eq_some {d : Draft} :
    (Layout outer).finish d = some e ↔
      d.code? = some e.code ∧ d.message? = some e.message ∧ d.data?.join = e.data? := by
  obtain ⟨code?, message?, data?⟩ := d
  obtain ⟨code, message, data?'⟩ := e
  cases code? <;> cases message? <;> simp [plan]

theorem code_of_has (h : ((Layout outer).reader Char.utf8Size).Takes r e)
    (ht : (Layout outer).Has r "code" t) : t.IsWhole e.code ∧ Fits64 e.code := by
  obtain ⟨d, x, hf, hget, hx⟩ := (codeSlot outer).has (covered outer).settled
    (members_nodup outer) h ht
  cases hget.symm.trans (finish_eq_some.mp hf).1
  exact (Reader.word_takes_iff ht.isText).mp hx

theorem message_of_has (h : ((Layout outer).reader Char.utf8Size).Takes r e)
    (ht : (Layout outer).Has r "message" t) : t.IsString e.message := by
  obtain ⟨d, x, hf, hget, hx⟩ := (messageSlot outer).has (covered outer).settled
    (members_nodup outer) h ht
  cases hget.symm.trans (finish_eq_some.mp hf).2.1
  exact (Reader.string_takes_iff ht.isText).mp hx

/-- What the text of an error's data is carried as, inside `depth` open lists and objects: nothing
for null, else the value it denotes. -/
inductive Carried (depth : Nat) : Raw → Option Value → Prop
  | null : Carried depth Raw.null none
  | value {t : Raw} {x : Value} (hne : t ≠ Raw.null) (h : Denotes true depth t x) :
    Carried depth t (some x)

section
variable {depth : Nat} {x? : Option Value}

theorem Carried.of_null (h : Carried depth Raw.null x?) : x? = none := by
  cases h with
  | null => rfl
  | value hne => exact absurd rfl hne

theorem Carried.of_ne (h : Carried depth t x?) (hne : t ≠ Raw.null) :
    ∃ x, Denotes true depth t x ∧ x? = some x := by
  cases h with
  | null => exact absurd rfl hne
  | value _ hx => exact ⟨_, hx, rfl⟩

theorem Carried.denotes {x : Value} (h : Carried depth t (some x)) : Denotes true depth t x := by
  cases h with
  | value _ hx => exact hx

theorem data_takes_iff (ht : t.IsText) :
    (Reader.value Char.utf8Size depth).orNull.Takes t x? ↔ Carried depth t x? := by
  constructor
  · intro h
    by_cases hne : t = Raw.null
    · subst hne
      cases h.unique Reader.orNull_takes_null
      exact .null
    · obtain ⟨x, hx, rfl⟩ := h.of_orNull (Reader.value_settled depth) ht hne
      exact .value hne ((Reader.value_takes_iff ht).mp hx)
  · intro h
    cases h with
    | null => exact Reader.orNull_takes_null
    | value hne hx => exact Reader.orNull_takes (Reader.value_takes hx) ht hne

/-- Data is carried if its text denotes a value. -/
theorem exists_carried_iff : (∃ x?, Carried depth t x?) ↔ ∃ x, Denotes true depth t x := by
  constructor
  · rintro ⟨_, h⟩
    cases h with
    | null => exact ⟨_, denotes_null depth⟩
    | value _ hx => exact ⟨_, hx⟩
  · rintro ⟨x, hx⟩
    by_cases hne : t = Raw.null
    · exact ⟨none, hne ▸ .null⟩
    · exact ⟨some x, .value hne hx⟩

end

theorem data_of_has (h : ((Layout outer).reader Char.utf8Size).Takes r e)
    (ht : (Layout outer).Has r "data" t) : Carried (outer + 1) t e.data? := by
  obtain ⟨d, x?, hf, hget, hx⟩ := (dataSlot outer).has (covered outer).settled
    (members_nodup outer) h ht
  rw [← (finish_eq_some.mp hf).2.2, show d.data? = some x? from hget]
  exact (data_takes_iff ht.isText).mp hx

theorem data_of_lacks (hr : r.IsText) (h : ((Layout outer).reader Char.utf8Size).Takes r e)
    (hno : ∀ t, ¬(Layout outer).Has r "data" t) : e.data? = none := by
  obtain ⟨d, hf, hget⟩ := (dataSlot outer).lacks (covered outer).settled
    (members_nodup outer) hr h hno
  rw [← (finish_eq_some.mp hf).2.2, show d.data? = none from hget]
  rfl

end ErrorObject

/-! ### Responses -/

namespace Response
variable {a : Response}

theorem finish_eq_some {d : Draft} :
    Layout.finish d = some a ↔
      d.version? = some a.version ∧ d.id? = some a.id ∧ d.result? = a.result? ∧
        d.error?.join = a.error? := by
  obtain ⟨version?, id?, result?, error?⟩ := d
  obtain ⟨version, id, result?', error?'⟩ := a
  cases version? <;> cases id? <;> simp [plan]

theorem version_of_has (h : (Layout.reader Char.utf8Size).Takes r a)
    (ht : Layout.Has r "jsonrpc" t) : t.IsString a.version := by
  obtain ⟨d, x, hf, hget, hx⟩ := versionSlot.has covered.settled members_nodup h ht
  cases hget.symm.trans (finish_eq_some.mp hf).1
  exact (Reader.string_takes_iff ht.isText).mp hx

theorem id_of_has (h : (Layout.reader Char.utf8Size).Takes r a) (ht : Layout.Has r "id" t) :
    Denotes false 1 t a.id.value := by
  obtain ⟨d, x, hf, hget, hx⟩ := idSlot.has covered.settled members_nodup h ht
  cases hget.symm.trans (finish_eq_some.mp hf).2.1
  exact (Id.reader_takes_iff ht.isText).mp hx

theorem result_of_has (h : (Layout.reader Char.utf8Size).Takes r a)
    (ht : Layout.Has r "result" t) : a.result? = some t := by
  obtain ⟨d, x, hf, hget, hx⟩ := resultSlot.has covered.settled members_nodup h ht
  cases hx.unique (Reader.raw_takes ht.isText)
  exact (finish_eq_some.mp hf).2.2.1.symm.trans hget

theorem error_of_has (h : (Layout.reader Char.utf8Size).Takes r a)
    (ht : Layout.Has r "error" t) (hne : t ≠ Raw.null) :
    ∃ e, a.error? = some e ∧ ((ErrorObject.Layout 1).reader Char.utf8Size).Takes t e := by
  obtain ⟨d, x?, hf, hget, hx⟩ := errorSlot.has covered.settled members_nodup h ht
  obtain ⟨e, he, rfl⟩ :=
    hx.of_orNull (Plan.reader_settled (ErrorObject.covered 1).settled) ht.isText hne
  refine ⟨e, ?_, he⟩
  rw [← (finish_eq_some.mp hf).2.2.2, show d.error? = some (some e) from hget]
  rfl

/-- The response has no error: the member is not there, or is null. -/
def Faultless (r : Raw) : Prop := ∀ t, Layout.Has r "error" t → t = Raw.null

theorem error_of_faultless (hr : r.IsText) (h : (Layout.reader Char.utf8Size).Takes r a)
    (hno : Faultless r) : a.error? = none := by
  by_cases ht : ∃ t, Layout.Has r "error" t
  · obtain ⟨t, ht⟩ := ht
    cases hno t ht
    obtain ⟨d, x?, hf, hget, hx⟩ := errorSlot.has covered.settled members_nodup h ht
    cases hx.unique Reader.orNull_takes_null
    rw [← (finish_eq_some.mp hf).2.2.2, show d.error? = some none from hget]
    rfl
  · obtain ⟨d, hf, hget⟩ := errorSlot.lacks covered.settled members_nodup hr h
      fun t hh => ht ⟨t, hh⟩
    rw [← (finish_eq_some.mp hf).2.2.2, show d.error? = none from hget]
    rfl

/-- A frame with blanks around its text is read as what its text is taken as. -/
theorem parse_eq_ok_iff (hr : r.IsText) {b b' : List Char} (hb : Blank b) (hb' : Blank b') :
    parse (b ++ (r.chars ++ b')) = .ok a ↔ (Layout.reader Char.utf8Size).Takes r a :=
  (Plan.reader_settled covered.settled).document_eq_ok_iff hr hb hb' _

theorem members_skim : ∀ m ∈ Layout.members, m.value.Skims := by
  have herror : ∀ m ∈ (ErrorObject.Layout 1).members, m.value.Skims := by
    simp only [ErrorObject.plan, List.forall_mem_cons]
    exact ⟨Reader.word_skims.map _, Reader.string_skims.map _,
      (Reader.value_skims _).orNull.map _, fun _ h => by cases h⟩
  simp only [plan, List.forall_mem_cons]
  exact ⟨Reader.string_skims.map _, (Reader.id_skims 1).map _, Reader.raw_skims.map _,
    (Plan.reader_skims herror).orNull.map _, fun _ h => by cases h⟩

/-- **What is read as a response is one text between blanks, and read from that text.** -/
theorem laidOut {s : List Char} (h : parse s = .ok a) :
    ∃ (b : List Char) (r : Raw) (b' : List Char), Blank b ∧ r.IsText ∧ Blank b' ∧
      s = b ++ (r.chars ++ b') ∧ (Layout.reader Char.utf8Size).Takes r a := by
  obtain ⟨b, r, b', hb, hr, hb', rfl⟩ := (Plan.reader_skims members_skim).document h
  exact ⟨b, r, b', hb, hr, hb', rfl, (parse_eq_ok_iff hr hb hb').mp h⟩

end Response

/-! ### Requests -/

namespace Request
variable {q : Request}

theorem finish_eq_some {d : Draft} :
    Layout.finish d = some q ↔
      d.version? = some q.version ∧ d.id? = q.id? ∧ d.method? = some q.method ∧
        d.params?.join = q.params? := by
  obtain ⟨version?, id?, method?, params?⟩ := d
  obtain ⟨version, id?', method, params?'⟩ := q
  cases version? <;> cases method? <;> simp [plan]

theorem method_of_has (h : (Layout.reader Char.utf8Size).Takes r q)
    (ht : Layout.Has r "method" t) : t.IsString q.method := by
  obtain ⟨d, x, hf, hget, hx⟩ := methodSlot.has covered.settled members_nodup h ht
  cases hget.symm.trans (finish_eq_some.mp hf).2.2.1
  exact (Reader.string_takes_iff ht.isText).mp hx

theorem params_of_has (h : (Layout.reader Char.utf8Size).Takes r q)
    (ht : Layout.Has r "params" t) : q.params? = if t = Raw.null then none else some t := by
  obtain ⟨d, x?, hf, hget, hx⟩ := paramsSlot.has covered.settled members_nodup h ht
  cases hx.unique ((Reader.raw_takes ht.isText).map _)
  rw [← (finish_eq_some.mp hf).2.2.2, show d.params? = some _ from hget]
  rfl

theorem params_of_lacks (hr : r.IsText) (h : (Layout.reader Char.utf8Size).Takes r q)
    (hno : ∀ t, ¬Layout.Has r "params" t) : q.params? = none := by
  obtain ⟨d, hf, hget⟩ := paramsSlot.lacks covered.settled members_nodup hr h hno
  rw [← (finish_eq_some.mp hf).2.2.2, show d.params? = none from hget]
  rfl

/-- A request that was read has a method. -/
theorem exists_method (hr : r.IsText) (h : (Layout.reader Char.utf8Size).Takes r q) :
    ∃ t, Layout.Has r "method" t := by
  by_contra hno
  obtain ⟨d, hf, hget⟩ := methodSlot.lacks covered.settled members_nodup hr h
    fun t ht => hno ⟨t, ht⟩
  cases hget.symm.trans (finish_eq_some.mp hf).2.2.1

/-- A text of its own is read as what it is taken as. -/
theorem parse_eq_ok_iff (hr : r.IsText) :
    parse r.chars = .ok q ↔ (Layout.reader Char.utf8Size).Takes r q := by
  have := (Plan.reader_settled covered.settled).document_eq_ok_iff hr (x := q) blank_nil
    blank_nil Char.utf8Size
  rwa [List.nil_append, List.append_nil] at this

end Request
end Switchboard
