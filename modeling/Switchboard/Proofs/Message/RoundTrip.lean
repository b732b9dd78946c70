import Switchboard.Proofs.Json.Exact
import Switchboard.Proofs.Message.Answers
import Switchboard.Proofs.Message.Request

/-! Messages that are read back as they were written.

What the relay writes as a request is read as that request, whatever its method and its arguments
hold (`Request.call_read_back`). A response is read as that response when the numbers in it are
whole ones and the data of its error is not null, not too deep, and plain
(`Response.Exact.parse_write`). Data that is not plain comes back as other data, or not at all, so
it is with plain data exactly that an outcome and its id come back as they were
(`Response.outcome_read_back`). -/
namespace Switchboard
open Json

/-! ### Requests -/

namespace Request

/-- **A request that the relay made is read back as it was made.** Its text is one value's own text;
it is read as a request with that id, that method and those very arguments, which is to be answered
and is written as the same text again. -/
theorem call_read_back (id : UInt64) (method : String) {items : List Raw}
    (h : ∀ a ∈ items, a.IsText) :
    Raw.parse (call id.toNat method items).write = .ok ⟨(call id.toNat method items).write⟩ ∧
      ∃ q, ofRaw ⟨(call id.toNat method items).write⟩ = .ok q ∧
        q.id?.bind Id.natural? = some id.toNat ∧ q.method = method ∧ q.isNotification = false ∧
        q.arguments = .ok items ∧ q.write = (call id.toNat method items).write := by
  have hid : id.toNat < UInt64.size := id.toNat_lt_size
  constructor
  · have hobject := Raw.isObject_written (callMembers_isText hid method h)
    rw [← write_call] at hobject
    exact hobject.isText
  · refine ⟨call id.toNat method items, ofRaw_call hid method h, ?_, method_call .., ?_,
      arguments_call id.toNat method h, rfl⟩
    · rw [id?_call, Option.bind_some, natural?_ofNat hid]
    · rw [isNotification, id?_call, Option.isNone_some]

/-- A deep list with a line feed in it, half of a surrogate pair, and a number that no machine
number is. -/
def awkward : List Raw := [.ofString "[[\n]]", .ofString "\"\\ud800\"", .ofString "1.10e-999"]

/-- The greatest id, under a name with a quote, a backslash and a control character in it. -/
theorem awkward_read_back : ∃ q,
    ofRaw ⟨(call 18446744073709551615 "\"\\\x00_é" awkward).write⟩ = .ok q ∧
      q.id?.bind Id.natural? = some 18446744073709551615 ∧ q.method = "\"\\\x00_é" ∧
      q.arguments = .ok awkward := by
  have htexts : ∀ a ∈ awkward, a.IsText := by
    unfold Raw.IsText
    decide +kernel
  obtain ⟨-, q, hq, hid, hmethod, -, harguments, -⟩ :=
    call_read_back 18446744073709551615 "\"\\\x00_é" htexts
  exact ⟨q, hq, hid, hmethod, harguments⟩

end Request

/-! ### Error objects -/

namespace ErrorObject

/-- The error object keeps to what is read back inside `outer` open lists and objects: a code of 64
bits, and data that is not null, is exact and plain, and is not too deep. -/
structure Exact (outer : Nat) (e : ErrorObject) : Prop where
  code : Fits64 e.code
  data : ∀ v ∈ e.data?, v ≠ .null ∧ v.Exact ∧ outer + 1 + v.depth ≤ depthLimit ∧ v.Plain

/-- The members of an error object, as they are written. -/
def members (e : ErrorObject) : List (String × Raw) :=
  [("code", ⟨(toString e.code).toList⟩), ("message", ⟨writeString e.message⟩)] ++
    e.data?.toList.map fun v => ("data", ⟨v.write⟩)

/-- The members of an error object, as they are noted. -/
def draft (e : ErrorObject) : Draft := ⟨some e.code, some e.message, e.data?.map some⟩

variable {outer : Nat} {e : ErrorObject}

theorem write_eq (e : ErrorObject) : e.write = writeObject (Raw.spelt e.members) := by
  simp only [write, members, Raw.spelt, List.map_append, List.map_cons, List.map_nil, List.map_map]
  rfl

theorem members_isText (e : ErrorObject) : ∀ m ∈ e.members, m.2.IsText := by
  simp only [members, List.forall_mem_append, List.forall_mem_cons, List.forall_mem_map]
  exact ⟨⟨Raw.IsWhole.isText (i := e.code) rfl, (Raw.isString_written _).isText,
    fun _ h => by cases h⟩, fun v _ => v.write_means.isText⟩

theorem write_isObject (e : ErrorObject) : Raw.IsObject ⟨e.write⟩ (Field.all e.members) := by
  rw [write_eq]
  exact Raw.isObject_written e.members_isText

theorem Exact.reads (h : e.Exact outer) :
    (Layout outer).Reads {} (Field.all e.members) e.draft := by
  have hcode : (Reader.word Char.utf8Size).Takes ⟨(toString e.code).toList⟩ e.code :=
    Reader.word_takes rfl h.code
  have hmessage := Reader.string_takes (Raw.isString_written e.message)
  have hdata := h.data
  obtain ⟨code, message, data?⟩ := e
  refine .cons (.noted (Field.written_named ..) rfl rfl (hcode.map _)) ?_
  refine .cons (.noted (Field.written_named ..) rfl rfl (hmessage.map _)) ?_
  cases data? with
  | none => exact .nil
  | some v =>
    obtain ⟨hnull, hexact, hdepth, hplain⟩ := hdata v rfl
    have hdenotes : Denotes true (outer + 1) ⟨v.write⟩ v := hexact.denotes (fun _ => hplain) hdepth
    have hne : (⟨v.write⟩ : Raw) ≠ Raw.null := fun h0 =>
      hnull (hdenotes.unique (h0 ▸ denotes_null _))
    have hvalue := (data_takes_iff v.write_means.isText).mpr (.value hne hdenotes)
    exact .cons (.noted (Field.written_named ..) rfl rfl (hvalue.map _)) .nil

/-- An exact error object is taken from its text. -/
theorem Exact.takes (h : e.Exact outer) :
    ((Layout outer).reader Char.utf8Size).Takes ⟨e.write⟩ e := by
  refine h.reads.takes e.write_isObject ?_
  obtain ⟨code, message, data?⟩ := e
  cases data? <;> rfl

/-- **Data that comes back as itself is plain.** -/
theorem plain_of_takes (h : ((Layout outer).reader Char.utf8Size).Takes ⟨e.write⟩ e) :
    ∀ v ∈ e.data?, v.Plain := by
  intro v hv
  have hmem : ("data", (⟨v.write⟩ : Raw)) ∈ e.members :=
    List.mem_append_right _ (List.mem_map.mpr ⟨v, Option.mem_toList.mpr hv, rfl⟩)
  have hcarried := data_of_has h (.named e.write_isObject (Field.written_mem hmem)
    (Field.written_named ..))
  rw [show e.data? = some v from hv] at hcarried
  exact .of_denotes hcarried.denotes

end ErrorObject

/-! ### Responses -/

namespace Response

/-- The response keeps to what is read back. -/
structure Exact (a : Response) : Prop where
  id : a.id.value.Exact
  result : ∀ r ∈ a.result?, r.IsText
  error : ∀ e ∈ a.error?, e.Exact 1

/-- The members of a response, as they are written. -/
def members (a : Response) : List (String × Raw) :=
  [("jsonrpc", ⟨writeString a.version⟩), ("id", ⟨a.id.write⟩)] ++
    (a.result?.toList.map fun result => ("result", result)) ++
    a.error?.toList.map fun e => ("error", ⟨e.write⟩)

/-- The members of a response, as they are noted. -/
def draft (a : Response) : Draft := ⟨some a.version, some a.id, a.result?, a.error?.map some⟩

variable {a : Response}

theorem write_eq (a : Response) : a.write = writeObject (Raw.spelt a.members) := by
  simp only [write, members, Raw.spelt, List.map_append, List.map_cons, List.map_nil, List.map_map]
  rfl

theorem write_isObject (h : ∀ r ∈ a.result?, r.IsText) :
    Raw.IsObject ⟨a.write⟩ (Field.all a.members) := by
  rw [write_eq]
  refine Raw.isObject_written ?_
  simp only [members, List.forall_mem_append, List.forall_mem_cons, List.forall_mem_map]
  exact ⟨⟨⟨(Raw.isString_written _).isText, a.id.value.write_means.isText, fun _ h => by cases h⟩,
    fun r hr => h r (Option.mem_toList.mp hr)⟩, fun e _ => e.write_isObject.isText⟩

theorem Exact.reads (h : a.Exact) : Layout.Reads {} (Field.all a.members) a.draft := by
  have hversion := Reader.string_takes (Raw.isString_written a.version)
  have hid : (Id.reader Char.utf8Size 1).Takes ⟨a.id.write⟩ a.id :=
    Id.reader_takes (h.id.denotes (fun hu => by cases hu)
      (by cases a.id <;> simp [Id.value, Value.depth, depthLimit]))
  have hresult := h.result
  have herror := h.error
  obtain ⟨version, id, result?, error?⟩ := a
  refine .cons (.noted (Field.written_named ..) rfl rfl (hversion.map _)) ?_
  refine .cons (.noted (Field.written_named ..) rfl rfl (hid.map _)) ?_
  have herrors : Layout.Reads ⟨some version, some id, result?, none⟩
      (Field.all (error?.toList.map fun e => ("error", ⟨e.write⟩)))
      (draft ⟨version, id, result?, error?⟩) := by
    cases error? with
    | none => exact .nil
    | some e =>
      have htakes : errorReader.Takes ⟨e.write⟩ (some e) :=
        Reader.orNull_takes (herror e rfl).takes e.write_isObject.isText
          (object_ne_null e.write_isObject)
      exact .cons (.noted (Field.written_named ..) rfl rfl (htakes.map _)) .nil
  cases result? with
  | none => exact herrors
  | some r =>
    have htakes := Reader.raw_takes (hresult r rfl)
    exact .cons (.noted (Field.written_named ..) rfl rfl (htakes.map _)) herrors

/-- **An exact response is read back as it was written.** -/
theorem Exact.parse_write (h : a.Exact) : parse a.write = .ok a := by
  have hfinish : Layout.finish a.draft = some a := by
    obtain ⟨version, id, result?, error?⟩ := a
    cases error? <;> rfl
  have hobject := write_isObject h.result
  have hparse := (parse_eq_ok_iff hobject.isText blank_nil blank_nil).mpr
    (h.reads.takes hobject hfinish)
  rwa [List.nil_append, List.append_nil] at hparse

/-- A response that is read back with the error it was written with has plain data in it. -/
theorem plain_of_parse {i : Id} {e : ErrorObject}
    (h : parse (ofOutcome i (.error e)).write = .ok a) (ho : a.outcome = .error e) :
    ∀ v ∈ e.data?, v.Plain := by
  have hobject : Raw.IsObject ⟨(ofOutcome i (.error e)).write⟩ _ :=
    write_isObject fun r hr => by cases hr
  have htakes := (@parse_eq_ok_iff _ a hobject.isText _ _ blank_nil blank_nil).mp
    (by rwa [List.nil_append, List.append_nil])
  have hmem : ("error", (⟨e.write⟩ : Raw)) ∈ (ofOutcome i (.error e)).members :=
    List.mem_append_right _ (List.mem_singleton_self _)
  obtain ⟨e', he', hte⟩ := error_of_has htakes (.named hobject (Field.written_mem hmem)
    (Field.written_named ..)) (object_ne_null e.write_isObject)
  rw [outcome, he'] at ho
  cases ho
  exact ErrorObject.plain_of_takes hte

/-- **A call's outcome comes back as it was exactly when its data is plain.** It is the text of any
value, or an error with a code of 64 bits, any message and data that is not null, exact and not
deeper than 125 lists and objects, under an id that is null, a string or a whole number. -/
theorem outcome_read_back {i : Id} {o : Outcome} (hi : i.value.Exact)
    (hresult : ∀ r, o = .ok r → r.IsText)
    (herror : ∀ e, o = .error e → Fits64 e.code ∧
      ∀ v ∈ e.data?, v ≠ .null ∧ v.Exact ∧ v.depth ≤ 125) :
    (∃ a, parse (ofOutcome i o).write = .ok a ∧ a.outcome = o ∧ a.id = i) ↔
      ∀ e, o = .error e → ∀ v ∈ e.data?, v.Plain := by
  constructor
  · rintro ⟨a, ha, ho, -⟩ e rfl
    exact plain_of_parse ha ho
  · intro hplain
    refine ⟨ofOutcome i o, Exact.parse_write ?_, ?_, ?_⟩
    · cases o with
      | ok r =>
        exact ⟨hi, fun r' hr' => Option.some.inj hr' ▸ hresult r rfl, fun e he => (by cases he)⟩
      | error e =>
        obtain ⟨hcode, hdata⟩ := herror e rfl
        refine ⟨hi, fun r hr => (by cases hr), fun e' he' => Option.some.inj he' ▸ ⟨hcode, ?_⟩⟩
        intro v hv
        obtain ⟨hnull, hexact, hdepth⟩ := hdata v hv
        exact ⟨hnull, hexact, by rw [depthLimit]; omega, hplain e rfl v hv⟩
    · cases o <;> rfl
    · cases o <;> rfl

/-- Data with a list in an object, an empty name and the least number of 64 bits. -/
def tangled : Value :=
  .object [("b", .array [.number (.whole (-9223372036854775808) (by decide)), .null]),
    ("", .object [])]

theorem tangled_exact : tangled.Exact := by
  refine .object (by decide) ?_
  simp only [List.forall_mem_cons]
  refine ⟨.array ?_, .object List.nodup_nil fun _ h => (by cases h), fun _ h => by cases h⟩
  simp only [List.forall_mem_cons]
  exact ⟨.whole _ _, .null, fun _ h => by cases h⟩

theorem tangled_plain : tangled.Plain := by
  have hbare : (Value.object []).Bare := fun _ h => by cases h
  refine .object (fun m hm => ?_) ?_
  · cases hm
    decide
  · simp only [List.forall_mem_cons]
    refine ⟨.array ?_, .object hbare fun _ h => (by cases h), fun _ h => by cases h⟩
    simp only [List.forall_mem_cons]
    exact ⟨.number _, .null, fun _ h => by cases h⟩

/-- An error with such data, under the greatest id, and null as a result, under a text. -/
theorem tangled_read_back :
    (∃ a, parse (ofOutcome (.number (.whole 18446744073709551615 (by decide)))
        (.error ⟨-32000, "\x00\"é", some tangled⟩)).write = .ok a ∧
      a.outcome = .error ⟨-32000, "\x00\"é", some tangled⟩ ∧
      a.id = .number (.whole 18446744073709551615 (by decide))) ∧
    ∃ a, parse (ofOutcome (.string "\n") (.ok .null)).write = .ok a ∧
      a.outcome = .ok .null ∧ a.id = .string "\n" := by
  constructor
  · have hi : (Id.number (.whole 18446744073709551615 (by decide))).value.Exact := .whole _ _
    refine (outcome_read_back hi (fun r hr => by cases hr) fun e he => ?_).mpr
      fun e he v hv => ?_
    · cases he
      refine ⟨⟨by decide, by decide⟩, fun v hv => ?_⟩
      cases hv
      exact ⟨by simp [tangled], tangled_exact, by decide⟩
    · cases he
      cases hv
      exact tangled_plain
  · have hi : (Id.string "\n").value.Exact := .string _
    refine (outcome_read_back hi (fun r hr => ?_) fun e he => by cases he).mpr
      fun e he => by cases he
    cases hr
    exact Raw.isText_null

/-- An object that holds the text of a list, and begins like a wrapper. -/
def wrapping : Value := .object [(wrapperName, .string "[1]")]

theorem wrapping_exact : wrapping.Exact :=
  .object (by decide) (List.forall_mem_singleton.mpr (.string _))

/-- The data of an error comes back as the list whose text it holds. -/
theorem wrapping_unwrapped :
    wrapping.Exact ∧ wrapping ≠ .null ∧ wrapping.depth ≤ 125 ∧
    ∃ a e v, parse (ofOutcome (.ofNat 1) (.error ⟨-32000, "m", some wrapping⟩)).write = .ok a ∧
      a.outcome = .error e ∧ e.data? = some v ∧ v.write = "[1]".toList ∧
      a.outcome ≠ .error ⟨-32000, "m", some wrapping⟩ := by
  refine ⟨wrapping_exact, by simp [wrapping], by decide, ?_⟩
  generalize hparse : parse (ofOutcome (.ofNat 1) (.error ⟨-32000, "m", some wrapping⟩)).write = read
  have hread : (read.toOption.bind fun a => a.error?.bind fun e => e.data?.map Value.write) =
      some "[1]".toList := by
    rw [← hparse]
    decide +kernel
  cases read with
  | error => cases hread
  | ok a =>
    obtain ⟨_, ⟨⟩, hread⟩ := Option.bind_eq_some_iff.mp hread
    obtain ⟨e, he, hread⟩ := Option.bind_eq_some_iff.mp hread
    obtain ⟨v, hv, hwrite⟩ := Option.map_eq_some_iff.mp hread
    have ho : a.outcome = .error e := by rw [outcome, he]
    refine ⟨a, e, v, rfl, ho, hv, hwrite, fun hsame => ?_⟩
    cases ho.symm.trans hsame
    cases hv
    exact absurd hwrite (by decide +kernel)

end Response
end Switchboard
