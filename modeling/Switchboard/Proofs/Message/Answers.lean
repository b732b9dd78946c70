import Switchboard.Proofs.Json.Written
import Switchboard.Proofs.Message.Contents

/-! Answers that are laid out as objects.

An answer is well formed when its members have names of their own, its version is spelt as a
string, its id as a number, and it has either a result or an error with a code and a message
(`Response.WellFormed`). It is readable when all that is decoded in it means something
(`Response.Readable`): its names and strings, and the data of its error. What is well formed is
read exactly when it is readable (`Response.takes_iff_readable`), and as what it says
(`Response.says_of_takes`). -/
namespace Switchboard
open Json

/-- Some member of the name has such a text. -/
def Holds (fields : List Field) (name : String) (K : Raw → Prop) : Prop :=
  ∃ f ∈ fields, f.Named name ∧ K f.value.text

def Lacks (fields : List Field) (name : String) : Prop := ∀ f ∈ fields, ¬f.Named name

/-- The text is spelt as a string, whatever its escapes stand for. -/
def Json.Raw.IsQuoted (r : Raw) : Prop := ∃ ps, r.chars = '"' :: spell ps

/-- What one member of the name satisfies, each of them does. -/
theorem Holds.all {fields : List Field} {name : String} {K : Raw → Prop} (h : Holds fields name K)
    (ha : Apart fields) : ∀ f ∈ fields, f.Named name → K f.value.text := by
  obtain ⟨g, hg, hn, hk⟩ := h
  intro f hf hfn
  cases ha.unique hf hg hfn hn
  exact hk

theorem Holds.and {fields : List Field} {name : String} {K K' : Raw → Prop}
    (h : Holds fields name K) (hk : ∀ f ∈ fields, f.Named name → K' f.value.text) :
    Holds fields name K' := by
  obtain ⟨f, hf, hn, -⟩ := h
  exact ⟨f, hf, hn, hk f hf hn⟩

namespace Json.Plan

/-- The members of an object that was read have names that mean something. -/
theorem Reads.named {δ α : Type} {P : Plan δ α} {d d' : δ} {fields : List Field}
    (h : P.Reads d fields d') : ∀ f ∈ fields, ∃ name, f.Named name := by
  induction h with
  | nil => exact fun _ hf => by cases hf
  | @cons d₁ d₂ d₃ f fields hf hr ih =>
    intro g hg
    rcases List.mem_cons.mp hg with rfl | hg
    · cases hf with
      | skipped hn => exact ⟨_, hn⟩
      | noted hn => exact ⟨_, hn⟩
    · exact ih g hg

end Json.Plan

variable {r : Raw} {fields : List Field}

/-! ### Error objects -/

namespace ErrorObject

structure WellFormed (r : Raw) (fields : List Field) : Prop where
  object : r.IsObject fields
  apart : Apart fields
  code : Holds fields "code" fun t => ∃ i, t.IsWhole i ∧ Fits64 i
  message : Holds fields "message" Raw.IsQuoted

/-- All that is decoded means something, the data inside `depth` open lists and objects. -/
structure Readable (depth : Nat) (fields : List Field) : Prop where
  named : ∀ f ∈ fields, ∃ name, f.Named name
  message : ∀ f ∈ fields, f.Named "message" → ∃ s, f.value.text.IsString s
  data : ∀ f ∈ fields, f.Named "data" → ∃ x, Denotes true depth f.value.text x

/-- The error object that the members spell. -/
structure Spells (depth : Nat) (fields : List Field) (e : ErrorObject) : Prop where
  code : Holds fields "code" fun t => t.IsWhole e.code
  message : Holds fields "message" fun t => t.IsString e.message
  data : (Lacks fields "data" ∧ e.data? = none) ∨
    Holds fields "data" fun t => Carried depth t e.data?

variable {outer : Nat} {e : ErrorObject}

theorem takes_of_readable (h : WellFormed r fields) (hr : Readable (outer + 1) fields) :
    ∃ e, ((Layout outer).reader Char.utf8Size).Takes r e := by
  have ht := h.object.values_isText
  have hv : ∀ f ∈ fields, ∀ m ∈ (Layout outer).members, f.Named m.name →
      ∃ note, m.value.Takes f.value.text note := by
    intro f hf
    simp only [plan, List.forall_mem_cons]
    refine ⟨fun hn => ?_, fun hn => ?_, fun hn => ?_, fun _ hm => by cases hm⟩
    · obtain ⟨i, hi, hfit⟩ := h.code.all h.apart f hf hn
      exact ⟨_, (Reader.word_takes hi hfit).map _⟩
    · obtain ⟨s, hs⟩ := hr.message f hf hn
      exact ⟨_, (Reader.string_takes hs).map _⟩
    · obtain ⟨x?, hx⟩ := exists_carried_iff.mpr (hr.data f hf hn)
      exact ⟨_, ((data_takes_iff (ht f hf)).mpr hx).map _⟩
  obtain ⟨d, hreads⟩ := (covered outer).reads ⟨hr.named, h.apart⟩ ht hv
  obtain ⟨f, hf, hn, -⟩ := h.code
  obtain ⟨i, -, hi⟩ := (codeSlot outer).named hreads ht hf hn
  obtain ⟨g, hg, hgn, -⟩ := h.message
  obtain ⟨s, -, hs⟩ := (messageSlot outer).named hreads ht hg hgn
  exact ⟨⟨i, s, d.data?.join⟩, hreads.takes h.object (finish_eq_some.mpr ⟨hi, hs, rfl⟩)⟩

theorem readable_of_takes (ho : r.IsObject fields)
    (h : ((Layout outer).reader Char.utf8Size).Takes r e) : Readable (outer + 1) fields where
  named := by
    obtain ⟨d, hr, -⟩ := Plan.reads_of_object (covered outer).settled ho h
    exact hr.named
  message f hf hn := ⟨e.message, message_of_has h (.named ho hf hn)⟩
  data f hf hn := exists_carried_iff.mp ⟨_, data_of_has h (.named ho hf hn)⟩

/-- An error object that was read is the one that its members spell. -/
theorem spells_of_takes (h : WellFormed r fields)
    (he : ((Layout outer).reader Char.utf8Size).Takes r e) : Spells (outer + 1) fields e where
  code := h.code.and fun _ hf hn => (code_of_has he (.named h.object hf hn)).1
  message := h.message.and fun _ hf hn => message_of_has he (.named h.object hf hn)
  data := by
    by_cases hd : ∃ f ∈ fields, f.Named "data"
    · obtain ⟨f, hf, hn⟩ := hd
      exact .inr ⟨f, hf, hn, data_of_has he (.named h.object hf hn)⟩
    · have hno : Lacks fields "data" := fun f hf hn => hd ⟨f, hf, hn⟩
      obtain ⟨d, hreads, hfin⟩ := Plan.reads_of_object (covered outer).settled h.object he
      refine .inl ⟨hno, ?_⟩
      rw [← (finish_eq_some.mp hfin).2.2, show d.data? = none from
        (dataSlot outer).unnamed hreads h.object.values_isText hno]
      rfl

end ErrorObject

/-! ### Responses -/

namespace Response

/-- An answer under the id `n`. -/
structure WellFormed (r : Raw) (fields : List Field) (n : Nat) : Prop where
  object : r.IsObject fields
  apart : Apart fields
  version : Holds fields "jsonrpc" Raw.IsQuoted
  id : Holds fields "id" fun t => t.IsWhole n
  body : (Holds fields "result" (fun _ => True) ∧ Lacks fields "error") ∨
    (Lacks fields "result" ∧
      Holds fields "error" fun t => ∃ members, ErrorObject.WellFormed t members)

/-- All that is decoded means something. -/
structure Readable (fields : List Field) : Prop where
  named : ∀ f ∈ fields, ∃ name, f.Named name
  version : ∀ f ∈ fields, f.Named "jsonrpc" → ∃ s, f.value.text.IsString s
  error : ∀ f ∈ fields, f.Named "error" → ∀ members, f.value.text.IsObject members →
    ErrorObject.Readable 2 members

/-- The outcome that the members spell. -/
inductive Says (fields : List Field) : Outcome → Prop
  | result {t : Raw} (h : Holds fields "result" fun t' => t' = t) (hno : Lacks fields "error") :
      Says fields (.ok t)
  | error {e : ErrorObject} (hno : Lacks fields "result")
      (h : Holds fields "error" fun t =>
        ∃ members, t.IsObject members ∧ ErrorObject.Spells 2 members e) :
      Says fields (.error e)

variable {n : Nat} {a : Response}

/-- No object is null. -/
theorem object_ne_null {t : Raw} {members : List Field} (h : t.IsObject members) :
    t ≠ Raw.null := by
  rintro rfl
  obtain ⟨v, hv⟩ := h.brace
  cases hv

theorem takes_of_readable (h : WellFormed r fields n) (hn : n < UInt64.size)
    (hr : Readable fields) : ∃ a, (Layout.reader Char.utf8Size).Takes r a := by
  have ht := h.object.values_isText
  have hv : ∀ f ∈ fields, ∀ m ∈ Layout.members, f.Named m.name →
      ∃ note, m.value.Takes f.value.text note := by
    intro f hf
    simp only [plan, List.forall_mem_cons]
    refine ⟨fun hfn => ?_, fun hfn => ?_, fun hfn => ?_, fun hfn => ?_, fun _ hm => by cases hm⟩
    · obtain ⟨s, hs⟩ := hr.version f hf hfn
      exact ⟨_, (Reader.string_takes hs).map _⟩
    · have hw := h.id.all h.apart f hf hfn
      exact ⟨_, (Id.takes_ofNat hn hw).map _⟩
    · exact ⟨_, (Reader.raw_takes (ht f hf)).map _⟩
    · rcases h.body with ⟨-, hno⟩ | ⟨-, herror⟩
      · exact absurd hfn (hno f hf)
      · obtain ⟨members, hm⟩ := herror.all h.apart f hf hfn
        obtain ⟨e, he⟩ := ErrorObject.takes_of_readable hm (hr.error f hf hfn members hm.object)
        exact ⟨_, (Reader.orNull_takes he (ht f hf) (object_ne_null hm.object)).map _⟩
  obtain ⟨d, hreads⟩ := covered.reads ⟨hr.named, h.apart⟩ ht hv
  obtain ⟨f, hf, hfn, -⟩ := h.version
  obtain ⟨s, -, hs⟩ := versionSlot.named hreads ht hf hfn
  obtain ⟨g, hg, hgn, -⟩ := h.id
  obtain ⟨i, -, hi⟩ := idSlot.named hreads ht hg hgn
  exact ⟨⟨s, i, d.result?, d.error?.join⟩,
    hreads.takes h.object (finish_eq_some.mpr ⟨hs, hi, rfl, rfl⟩)⟩

theorem readable_of_takes (ho : r.IsObject fields) (h : (Layout.reader Char.utf8Size).Takes r a) :
    Readable fields where
  named := by
    obtain ⟨d, hr, -⟩ := Plan.reads_of_object covered.settled ho h
    exact hr.named
  version f hf hn := ⟨a.version, version_of_has h (.named ho hf hn)⟩
  error f hf hn members hm := by
    obtain ⟨e, -, he⟩ := error_of_has h (.named ho hf hn) (object_ne_null hm)
    exact ErrorObject.readable_of_takes hm he

/-- **A well-formed answer is read exactly when all that is decoded in it means something.** -/
theorem takes_iff_readable (h : WellFormed r fields n) (hn : n < UInt64.size) :
    (∃ a, (Layout.reader Char.utf8Size).Takes r a) ↔ Readable fields :=
  ⟨fun ⟨_, ha⟩ => readable_of_takes h.object ha, takes_of_readable h hn⟩

theorem id_of_takes (h : WellFormed r fields n) (hn : n < UInt64.size)
    (ha : (Layout.reader Char.utf8Size).Takes r a) : a.id.natural? = some n := by
  obtain ⟨f, hf, hfn, hw⟩ := h.id
  have hd := id_of_has ha (.named h.object hf hfn)
  have hvalue := hd.unique (hw.denotes (inWords_of_lt hn))
  cases hi : a.id with
  | number x =>
    rw [hi] at hvalue
    cases hvalue
    rfl
  | string s =>
    rw [hi] at hvalue
    cases hvalue
  | null =>
    rw [hi] at hvalue
    cases hvalue

/-- **It is read as what it says.** -/
theorem says_of_takes (h : WellFormed r fields n) (ha : (Layout.reader Char.utf8Size).Takes r a) :
    Says fields a.outcome := by
  obtain ⟨d, hreads, hfin⟩ := Plan.reads_of_object covered.settled h.object ha
  obtain ⟨-, -, hresult, herror⟩ := finish_eq_some.mp hfin
  rcases h.body with ⟨⟨f, hf, hfn, -⟩, hno⟩ | ⟨hno, f, hf, hfn, members, hm⟩
  · have hr := result_of_has ha (.named h.object hf hfn)
    have he : a.error? = none := by
      rw [← herror, show d.error? = none from
        errorSlot.unnamed hreads h.object.values_isText hno]
      rfl
    simp only [outcome, he, hr]
    exact .result ⟨f, hf, hfn, rfl⟩ hno
  · obtain ⟨e, he, htakes⟩ := error_of_has ha (.named h.object hf hfn) (object_ne_null hm.object)
    simp only [outcome, he]
    exact .error hno ⟨f, hf, hfn, members, hm.object, ErrorObject.spells_of_takes hm htakes⟩

end Response

/-! ### Answers that are written -/

section Written
variable {members : List (String × Raw)} {name : String} {t data : Raw} {code : Int}
  {message : String} {n depth : Nat}

theorem holds_written {K : Raw → Prop} (h : (name, t) ∈ members) (hk : K t) :
    Holds (Field.all members) name K :=
  ⟨.written name t, Field.written_mem h, Field.written_named name t, hk⟩

theorem named_written {f : Field} (hf : f ∈ Field.all members) (hn : f.Named name) :
    ∃ t, (name, t) ∈ members ∧ f.value.text = t := by
  obtain ⟨m, hm, rfl⟩ := List.mem_map.mp hf
  cases hn.unique (Field.written_named m.1 m.2)
  exact ⟨m.2, hm, rfl⟩

theorem lacks_written (h : name ∉ members.map Prod.fst) : Lacks (Field.all members) name :=
  fun _ hf hn =>
    have ⟨t, ht, _⟩ := named_written hf hn
    h (List.mem_map.mpr ⟨(name, t), ht, rfl⟩)

theorem named_of_written {f : Field} (hf : f ∈ Field.all members) : ∃ name, f.Named name := by
  obtain ⟨m, -, rfl⟩ := List.mem_map.mp hf
  exact ⟨m.1, Field.written_named ..⟩

theorem Json.Raw.isQuoted_written (s : String) : Raw.IsQuoted ⟨writeString s⟩ :=
  ⟨written s, writeString_written s⟩

/-- The members of an error object whose data has this text. -/
def ErrorObject.told (code : Int) (message : String) (data : Raw) : List (String × Raw) :=
  [("code", ⟨(toString code).toList⟩), ("message", ⟨writeString message⟩), ("data", data)]

theorem ErrorObject.told_data : Field.written "data" data ∈ Field.all (told code message data) :=
  Field.written_mem (List.mem_cons_of_mem _ (List.mem_cons_of_mem _ (List.mem_cons_self ..)))

theorem ErrorObject.told_wellFormed (hc : Fits64 code) (hd : data.IsText) :
    WellFormed ⟨writeObject (Raw.spelt (told code message data))⟩
      (Field.all (told code message data)) where
  object := by
    refine Raw.isObject_written ?_
    simp only [told, List.forall_mem_cons]
    exact ⟨Raw.IsWhole.isText (i := code) rfl, (Raw.isString_written _).isText, hd,
      fun _ h => by cases h⟩
  apart := apart_written (show ["code", "message", "data"].Nodup by decide)
  code := holds_written (List.mem_cons_self ..) ⟨code, rfl, hc⟩
  message := holds_written (List.mem_cons_of_mem _ (List.mem_cons_self ..)) (Raw.isQuoted_written _)

theorem ErrorObject.told_readable {x : Value} (hd : Denotes true depth data x) :
    Readable depth (Field.all (told code message data)) where
  named _ := named_of_written
  message f hf hn := by
    obtain ⟨t', ht', rfl⟩ := named_written hf hn
    simp [told] at ht'
    exact ⟨message, ht' ▸ Raw.isString_written _⟩
  data f hf hn := by
    obtain ⟨t', ht', rfl⟩ := named_written hf hn
    simp [told] at ht'
    exact ⟨x, ht' ▸ hd⟩

/-- The members of an answer with a result or with an error. -/
def Response.answering (n : Nat) (part : String) (t : Raw) : List (String × Raw) :=
  [("jsonrpc", ⟨writeString protocolVersion⟩), ("id", ⟨(toString (n : Int)).toList⟩), (part, t)]

theorem Response.answering_part {part : String} :
    Field.written part t ∈ Field.all (answering n part t) :=
  Field.written_mem (List.mem_cons_of_mem _ (List.mem_cons_of_mem _ (List.mem_cons_self ..)))

theorem Response.answering_isObject (part : String) (ht : t.IsText) :
    Raw.IsObject ⟨writeObject (Raw.spelt (answering n part t))⟩ (Field.all (answering n part t)) := by
  refine Raw.isObject_written ?_
  simp only [answering, List.forall_mem_cons]
  exact ⟨(Raw.isString_written _).isText, Raw.IsWhole.isText (i := (n : Int)) rfl, ht,
    fun _ h => by cases h⟩

theorem Response.result_wellFormed (ht : t.IsText) :
    WellFormed ⟨writeObject (Raw.spelt (answering n "result" t))⟩
      (Field.all (answering n "result" t)) n where
  object := answering_isObject "result" ht
  apart := apart_written (show ["jsonrpc", "id", "result"].Nodup by decide)
  version := holds_written (List.mem_cons_self ..) (Raw.isQuoted_written _)
  id := holds_written (List.mem_cons_of_mem _ (List.mem_cons_self ..)) rfl
  body := .inl ⟨holds_written (List.mem_cons_of_mem _ (List.mem_cons_of_mem _
    (List.mem_cons_self ..))) trivial, lacks_written (show _ ∉ ["jsonrpc", "id", "result"] by decide)⟩

theorem Response.answering_version {part : String} (hp : part ≠ "jsonrpc") :
    ∀ f ∈ Field.all (answering n part t), f.Named "jsonrpc" → ∃ s, f.value.text.IsString s := by
  intro f hf hn
  obtain ⟨t', ht', rfl⟩ := named_written hf hn
  simp [answering, hp.symm] at ht'
  exact ⟨protocolVersion, ht' ▸ Raw.isString_written _⟩

theorem Response.result_readable : Readable (Field.all (answering n "result" t)) where
  named _ := named_of_written
  version := answering_version (by decide)
  error f hf hn := absurd hn (lacks_written (show _ ∉ ["jsonrpc", "id", "result"] by decide) f hf)

theorem Response.error_wellFormed {fields : List Field} (ht : ErrorObject.WellFormed t fields) :
    WellFormed ⟨writeObject (Raw.spelt (answering n "error" t))⟩
      (Field.all (answering n "error" t)) n where
  object := answering_isObject "error" ht.object.isText
  apart := apart_written (show ["jsonrpc", "id", "error"].Nodup by decide)
  version := holds_written (List.mem_cons_self ..) (Raw.isQuoted_written _)
  id := holds_written (List.mem_cons_of_mem _ (List.mem_cons_self ..)) rfl
  body := .inr ⟨lacks_written (show _ ∉ ["jsonrpc", "id", "error"] by decide),
    holds_written (List.mem_cons_of_mem _ (List.mem_cons_of_mem _ (List.mem_cons_self ..)))
      ⟨fields, ht⟩⟩

/-- An answer with an error whose data denotes a value is readable. -/
theorem Response.error_readable (hc : Fits64 code) {x : Value} (hd : Denotes true 2 data x)
    (ht : data.IsText) : Readable (Field.all (answering n "error"
      ⟨writeObject (Raw.spelt (ErrorObject.told code message data))⟩)) where
  named _ := named_of_written
  version := answering_version (by decide)
  error f hf hn fields ho := by
    obtain ⟨t', ht', he⟩ := named_written hf hn
    simp [answering] at ht'
    rw [he, ht'] at ho
    have hreadable : ErrorObject.Readable 2 (Field.all (ErrorObject.told code message data)) :=
      ErrorObject.told_readable hd
    obtain ⟨e, htakes⟩ :=
      ErrorObject.takes_of_readable (ErrorObject.told_wellFormed hc ht) hreadable
    exact ErrorObject.readable_of_takes ho htakes

/-- **An answer is readable only if the data of its error denotes a value.** -/
theorem Response.Readable.data_denotes (hc : Fits64 code) (hd : data.IsText)
    (h : Readable (Field.all (answering n "error"
      ⟨writeObject (Raw.spelt (ErrorObject.told code message data))⟩))) :
    ∃ x, Denotes true 2 data x := by
  have htold := @ErrorObject.told_wellFormed _ _ message hc hd
  exact (h.error _ answering_part (Field.written_named "error" _) _ htold.object).data _
    ErrorObject.told_data (Field.written_named "data" data)

end Written
end Switchboard
