import Mathlib.Tactic.NormNum
import Switchboard.Proofs.Call.Relaying
import Switchboard.Proofs.Json.Meaning

/-! Errors that are passed back.

An error comes back with the code and the message that the endpoint gave it. Its data is decoded
and written anew, so it comes back with its meaning exactly where its text is faithful, and null is
taken for no data at all (`errors_passed_back`). -/
namespace Switchboard
open Json Redirect Connection

/-! ### The members of an error -/

/-- What an error object conveys of the text that it was read from. -/
structure ErrorObject.Conveys (e : ErrorObject) (t : Raw) : Prop where
  code : ∀ c, (Layout 1).Has t "code" c → c.IsWhole e.code
  message : ∀ c, (Layout 1).Has t "message" c → c.IsString e.message
  /-- Null is no data. -/
  silent : (∀ c, (Layout 1).Has t "data" c → c = Raw.null) → e.data? = none
  data : ∀ c, (Layout 1).Has t "data" c → c ≠ Raw.null →
    ∃ v, e.data? = some v ∧ Means ⟨v.write⟩ v.meaning ∧ (∃ m, Means c m) ∧
      ∀ m, Means c m → (v.meaning = m ↔ Faithful c)

theorem ErrorObject.conveys_of_takes {t : Raw} {e : ErrorObject} (ht : t.IsText)
    (h : ((Layout 1).reader Char.utf8Size).Takes t e) : e.Conveys t where
  code _ hc := (code_of_has h hc).1
  message _ hc := message_of_has h hc
  silent hno := by
    by_cases hc : ∃ c, (Layout 1).Has t "data" c
    · obtain ⟨c, hc⟩ := hc
      have hcarried := data_of_has h hc
      rw [hno c hc] at hcarried
      exact hcarried.of_null
    · exact data_of_lacks ht h fun c h => hc ⟨c, h⟩
  data c hc hne := by
    obtain ⟨x, hx, he⟩ := (data_of_has h hc).of_ne hne
    exact ⟨x, he, x.write_means, hx.exists_means, fun m hm => hx.meaning_iff hm⟩

/-- The text of an answer with an error. -/
theorem Response.write_failure (i : Id) (e : ErrorObject) :
    (failure i e).write = "\x7b\"jsonrpc\":\"2.0\",\"id\":".toList ++ i.write ++
      ",\"error\":\x7b\"code\":".toList ++ (toString e.code).toList ++ ",\"message\":".toList ++
        writeString e.message ++
          e.data?.elim [] (fun v => ",\"data\":".toList ++ v.write) ++ "\x7d\x7d".toList := by
  cases hd : e.data? <;>
    simp [write, failure, ErrorObject.write, hd, writeObject_cons, afterCommas,
      writeString_protocolVersion,
      writeMember_plain (show "jsonrpc".toList.flatMap escaped = _ by decide),
      writeMember_plain (show "id".toList.flatMap escaped = _ by decide),
      writeMember_plain (show "error".toList.flatMap escaped = _ by decide),
      writeMember_plain (show "code".toList.flatMap escaped = _ by decide),
      writeMember_plain (show "message".toList.flatMap escaped = _ by decide),
      writeMember_plain (show "data".toList.flatMap escaped = _ by decide)]

/-! ### The way back -/

section Back
variable {s : Session} {n key : Nat} {line : List Char} {rest : List UInt8} {a : Response}

/-- A response with an error, under a pending id, is passed back as the error that is read from
its text. -/
theorem Redirect.Kept.passesBack_error (h : Kept s) (hp : (n, key) ∈ s.connection.pending)
    (hread : s.connection.reader = .reading)
    (hf : incoming s.connection.longestFrame s.connection.ended s.connection.received =
      .frame line rest)
    (ha : Response.parse line = .ok a) (hid : a.id.natural? = some n) {frame t : Raw}
    (htakes : (Response.Layout.reader Char.utf8Size).Takes frame a)
    (ht : Response.Layout.Has frame "error" t) (hne : t ≠ Raw.null) :
    ∃ e, ((ErrorObject.Layout 1).reader Char.utf8Size).Takes t e ∧
      s.PassesBack n key (.error e) := by
  obtain ⟨e, he, hte⟩ := Response.error_of_has htakes ht hne
  have hd : Delivery.ofFrame line = .answer n (.error e) := by
    simp only [Delivery.ofFrame, ha, hid, Response.outcome, he]
  exact ⟨e, hte, h.passesBack hp hread hf hd⟩

/-- **An error is passed back with its code and its message, and its data is decoded.** A frame that
is read as a response under a pending id, with an error, is passed back as an error object that
conveys what the text of the error does: the code and the message, no data where there is none or
null, and else a value that is written with the meaning of the data exactly when the data is
faithful. -/
theorem errors_passed_back {longestFrame : Nat} {capacity : Capacity} {ms : List Move}
    (hrun : (Session.opened longestFrame capacity).run ms = some s)
    (hp : (n, key) ∈ s.connection.pending) (hread : s.connection.reader = .reading)
    (hf : incoming s.connection.longestFrame s.connection.ended s.connection.received =
      .frame line rest)
    (ha : Response.parse line = .ok a) (hid : a.id.natural? = some n) :
    ∃ (b : List Char) (frame : Raw) (b' : List Char), Blank b ∧ frame.IsText ∧ Blank b' ∧
      line = b ++ (frame.chars ++ b') ∧
      ∀ t, Response.Layout.Has frame "error" t → t ≠ Raw.null →
        ∃ e : ErrorObject, e.Conveys t ∧ s.PassesBack n key (.error e) ∧
          ∀ i, (Response.ofOutcome i (.error e)).write =
            "\x7b\"jsonrpc\":\"2.0\",\"id\":".toList ++ i.write ++
              ",\"error\":\x7b\"code\":".toList ++ (toString e.code).toList ++
                ",\"message\":".toList ++ writeString e.message ++
                  e.data?.elim [] (fun v => ",\"data\":".toList ++ v.write) ++
                    "\x7d\x7d".toList := by
  obtain ⟨b, frame, b', hb, hframe, hb', hline, htakes⟩ := Response.laidOut ha
  refine ⟨b, frame, b', hb, hframe, hb', hline, fun t ht hne => ?_⟩
  obtain ⟨e, he, hback⟩ :=
    (kept_of_run hrun).passesBack_error hp hread hf ha hid htakes ht hne
  exact ⟨e, ErrorObject.conveys_of_takes ht.isText he, hback, fun i => Response.write_failure i e⟩

end Back

/-! ### Errors with data -/

/-- The text of an error with this data. -/
def refusal (data : Raw) : Raw :=
  ⟨writeObject (Raw.spelt (ErrorObject.told (-32000) "m" data))⟩

/-- An answer with the error, under the id 1. -/
def refused (data : Raw) : Raw :=
  ⟨writeObject (Raw.spelt (Response.answering 1 "error" (refusal data)))⟩

/-- Up to where the answer is to be read. -/
def refusing (data : Raw) : List Move :=
  waitingOnce ++ [.receive (Text.utf8 ((refused data).chars ++ ['\n']))]

section Refusals
variable {data : Raw} {x : Value}

theorem refusal_wellFormed (ht : data.IsText) : ErrorObject.WellFormed (refusal data)
    (Field.all (ErrorObject.told (-32000) "m" data)) :=
  ErrorObject.told_wellFormed (by unfold Fits64; decide) ht

theorem refusal_data (ht : data.IsText) (outer : Nat) :
    (ErrorObject.Layout outer).Has (refusal data) "data" data :=
  .named (refusal_wellFormed ht).object ErrorObject.told_data (Field.written_named "data" data)

theorem refused_wellFormed (ht : data.IsText) : Response.WellFormed (refused data)
    (Field.all (Response.answering 1 "error" (refusal data))) 1 :=
  Response.error_wellFormed (refusal_wellFormed ht)

theorem refused_error (ht : data.IsText) :
    Response.Layout.Has (refused data) "error" (refusal data) :=
  .named (refused_wellFormed ht).object Response.answering_part
    (Field.written_named "error" (refusal data))

/-- The answer is read as a response under its id when its data denotes a value. -/
theorem parse_refused (ht : data.IsText) (hd : Denotes true 2 data x) :
    ∃ a, Response.parse (refused data).chars = .ok a ∧ a.id.natural? = some 1 ∧
      (Response.Layout.reader Char.utf8Size).Takes (refused data) a := by
  have hwell := refused_wellFormed ht
  obtain ⟨a, ha⟩ := Response.takes_of_readable hwell (by decide)
    (Response.error_readable (by unfold Fits64; decide) hd ht)
  have hparse := (Response.parse_eq_ok_iff hwell.object.isText blank_nil blank_nil).mpr ha
  rw [List.nil_append, List.append_nil] at hparse
  exact ⟨a, hparse, Response.id_of_takes hwell (by decide) ha, ha⟩

/-- Such an answer is passed back with what its data is carried as. -/
theorem refused_back (ht : data.IsText) (hd : Denotes true 2 data x)
    (hrun : ((Session.opened 1048576 65536).run (refusing data)).any
      (fun s => decide ((1, 5) ∈ s.connection.pending ∧ s.connection.reader = .reading ∧
        incoming s.connection.longestFrame s.connection.ended s.connection.received =
          .frame (refused data).chars []))) :
    ∃ s e, (Session.opened 1048576 65536).run (refusing data) = some s ∧
      incoming s.connection.longestFrame s.connection.ended s.connection.received =
        .frame (refused data).chars [] ∧
      s.PassesBack 1 5 (.error e) ∧ ErrorObject.Carried 2 data e.data? := by
  obtain ⟨s, hs, hd'⟩ := (Option.any_eq_true _ _).mp hrun
  obtain ⟨hp, hread, hf⟩ := of_decide_eq_true hd'
  obtain ⟨a, hparse, hid, ha⟩ := parse_refused ht hd
  obtain ⟨e, he, hback⟩ := (kept_of_run hs).passesBack_error hp hread hf hparse hid ha
    (refused_error ht) (Response.object_ne_null (refusal_wellFormed ht).object)
  exact ⟨s, e, hs, hf, hback, ErrorObject.data_of_has he (refusal_data ht 1)⟩

end Refusals

/-- The data `7` comes back as `7`. -/
theorem seven_conveyed :
    ∃ s e v, (Session.opened 1048576 65536).run (refusing ⟨['7']⟩) = some s ∧
      s.PassesBack 1 5 (.error e) ∧ e.data? = some v ∧ v.meaning = .number 7 := by
  have hrun : ((Session.opened 1048576 65536).run (refusing ⟨['7']⟩)).any
      (fun s => decide ((1, 5) ∈ s.connection.pending ∧ s.connection.reader = .reading ∧
        incoming s.connection.longestFrame s.connection.ended s.connection.received =
          .frame (refused ⟨['7']⟩).chars [])) := by
    decide +kernel
  obtain ⟨s, hs, hd⟩ := (Option.any_eq_true _ _).mp hrun
  obtain ⟨hp, hread, hf⟩ := of_decide_eq_true hd
  have hseven : Raw.IsWhole ⟨['7']⟩ 7 := rfl
  have hin : InWords 7 := by unfold InWords; decide
  have ht := hseven.isText
  obtain ⟨a, hparse, hid, ha⟩ := parse_refused ht (hseven.denotes hin)
  obtain ⟨b, frame, b', hb, hframe, hb', hline, hback⟩ :=
    errors_passed_back hs hp hread hf hparse hid
  have hsame : refused ⟨['7']⟩ = frame := by
    refine ((refused_wellFormed ht).object.isText.unique_padded hframe blank_nil hb (Heads.nil _)
      hb'.stops ?_).1
    rw [List.nil_append, List.append_nil]
    exact hline
  subst hsame
  obtain ⟨e, hconveys, hpasses, -⟩ := hback _ (refused_error ht)
    (Response.object_ne_null (refusal_wellFormed ht).object)
  have hne : (⟨['7']⟩ : Raw) ≠ Raw.null := by decide
  obtain ⟨v, hv, -, -, hiff⟩ := hconveys.data _ (refusal_data ht 1) hne
  exact ⟨s, e, v, hs, hpasses, hv, (hiff _ hseven.means).mpr (hseven.faithful hin)⟩

/-- The digits of a number beyond 64 bits. -/
def wide : Raw := ⟨(toString (123456789012345678901234567890 : Int)).toList⟩

/-- The data `null` comes back as no data, and a whole number beyond 64 bits comes back as another
number. -/
theorem data_changed :
    (∃ s e, (Session.opened 1048576 65536).run (refusing Raw.null) = some s ∧
      incoming s.connection.longestFrame s.connection.ended s.connection.received =
        .frame (refused Raw.null).chars [] ∧
      Response.Layout.Has (refused Raw.null) "error" (refusal Raw.null) ∧
      (ErrorObject.Layout 1).Has (refusal Raw.null) "data" Raw.null ∧
      s.PassesBack 1 5 (.error e) ∧ e.data? = none) ∧
    ∃ s e v, (Session.opened 1048576 65536).run (refusing wide) = some s ∧
      incoming s.connection.longestFrame s.connection.ended s.connection.received =
        .frame (refused wide).chars [] ∧
      Response.Layout.Has (refused wide) "error" (refusal wide) ∧
      (ErrorObject.Layout 1).Has (refusal wide) "data" wide ∧
      s.PassesBack 1 5 (.error e) ∧ e.data? = some v ∧
      v.write = "1.2345678901234568e+29".toList ∧
      v.meaning ≠ .number 123456789012345678901234567890 := by
  constructor
  · have ht := Raw.isText_null
    obtain ⟨s, e, hs, hf, hback, he⟩ := refused_back ht (denotes_null 2) (by decide +kernel)
    exact ⟨s, e, hs, hf, refused_error ht, refusal_data ht 1, hback, he.of_null⟩
  · have hw : wide.IsWhole 123456789012345678901234567890 := rfl
    have ht := hw.isText
    have hread : readNumber false (Nat.toDigits 10 123456789012345678901234567890 ++ []) =
        .ok (.real ⟨false, 7017705969039166, 44⟩, []) := by
      have : (readNumber false (Nat.toDigits 10 123456789012345678901234567890 ++ [])).toOption =
          some (.real ⟨false, 7017705969039166, 44⟩, []) := by
        decide +kernel
      cases h : readNumber false (Nat.toDigits 10 123456789012345678901234567890 ++ []) <;>
        rw [h] at this <;> cases this
      rfl
    have hd : Denotes true 2 wide _ := (denotes_numeral hw.numeral).mpr hread
    obtain ⟨s, e, hs, hf, hback, hcarried⟩ := refused_back ht hd (by decide +kernel)
    obtain ⟨y, hy, he⟩ := hcarried.of_ne (by decide)
    cases hy.unique hd
    refine ⟨s, e, _, hs, hf, refused_error ht, refusal_data ht 1, hback, he, by decide +kernel, ?_⟩
    have hshort : Decimal.shortest ⟨false, 7017705969039166, 44⟩ = ⟨12345678901234568, 13⟩ := by
      decide +kernel
    rw [Value.meaning, ne_eq, Meaning.number.injEq, Number.spelt, hshort, Decimal.Scaled.value]
    norm_num

end Switchboard
