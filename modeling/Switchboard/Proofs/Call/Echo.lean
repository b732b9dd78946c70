import Switchboard.Proofs.Call.Batch
import Switchboard.Proofs.Call.Errors
import Switchboard.Proofs.Message.Ids

/-! The ids of answers.

However long the calls of a body take and whatever they come to, each of its entries is answered
under its own id (`Slot.Addressed`, `Passage.Addresses`). It is written in the answer as it was
decoded, so it means what the entry's text for it means unless that is a number which decoding does
not keep (`ids_echoed`); and two entries of one batch whose ids are such numbers may be answered
under the same id (`ids_collide`). -/
namespace Switchboard
open Json

/-- The text of an answer, and where its id is written. -/
theorem Response.write_ofOutcome (i : Id) (o : Outcome) :
    ∃ rest, (ofOutcome i o).write =
      "\x7b\"jsonrpc\":\"2.0\",\"id\":".toList ++ (i.write ++ ',' :: rest) := by
  cases o with
  | ok t =>
    refine ⟨"\"result\":".toList ++ (t.chars ++ ['\x7d']), ?_⟩
    rw [ofOutcome, write_success]
    simp
  | error e =>
    rw [ofOutcome, write_failure]
    simp only [List.append_assoc]
    exact ⟨_, rfl⟩

/-! ### One entry -/

namespace Slot
variable {raw : Raw} {timeoutMs now party : Nat} {s s' : Slot} {ending? : Option (Call × Answer)}
  {r : Relay} {parent : Token}

/-- The slot is that of the entry, and if it is finished the response is under the entry's id. -/
inductive Addressed (raw : Raw) : Slot → Prop
  | fresh : Addressed raw (.fresh raw)
  | running {e : Entry} : Addressed raw (.running (Request.addressee? raw) e)
  | finished (o : Outcome) :
      Addressed raw (.finished ((Request.addressee? raw).map fun i => .ofOutcome i o))

/-- An entry that is looked at keeps its id. -/
theorem Goes.addressed (h : Goes timeoutMs now s s' ending?) (hs : Addressed raw s) :
    Addressed raw s' := by
  cases h with
  | @refused _ i e h =>
    cases hs
    have hfinished := @Addressed.finished raw (.error e)
    rwa [Request.addressee?_refused h] at hfinished
  | @unfit _ q e hq h =>
    cases hs
    have hfinished := @Addressed.finished raw (.error e)
    rwa [Request.addressee?_request hq] at hfinished
  | begun hq =>
    cases hs
    exact Request.addressee?_request hq ▸ .running
  | @answered _ q c a hq =>
    cases hs
    exact Request.addressee?_request hq ▸ .finished (a.mapError CallError.object)
  | goesOn =>
    cases hs
    exact .running
  | @ended _ _ a =>
    cases hs
    exact .finished (a.mapError CallError.object)
  | settled => exact hs

theorem goAll_addressed {raws : List Raw} {slots : List Slot}
    (h : List.Forall₂ Addressed raws slots) :
    List.Forall₂ Addressed raws (goAll r parent party now slots).1 := by
  induction h generalizing r with
  | nil => exact .nil
  | @cons _ s _ _ hs _ ih => exact .cons ((s.go_goes r parent party now).1.addressed hs) ih

/-- The answer is under the id. -/
def AnswersUnder (i : Id) (a : Response) : Prop := ∃ o, a = .ofOutcome i o

/-- Entries that are all finished have their responses under their ids. -/
theorem answersUnder_of_finished {raws : List Raw} {slots : List Slot}
    (h : List.Forall₂ Addressed raws slots) (hall : slots.all isFinished = true) :
    List.Forall₂ AnswersUnder (raws.filterMap Request.addressee?)
      (slots.filterMap response?) := by
  induction h with
  | nil => exact .nil
  | @cons raw s raws rest hs hrest ih =>
    obtain ⟨hfinished, hall⟩ := Bool.and_eq_true_iff.mp hall
    cases hs with
    | fresh | running => cases hfinished
    | finished o =>
      rw [List.filterMap_cons, List.filterMap_cons, response?]
      cases Request.addressee? raw with
      | none => exact ih hall
      | some i => exact .cons ⟨o, rfl⟩ (ih hall)

end Slot

/-! ### A request on its way -/

/-- The text of the responses to a body. -/
def Payload.text? (p : Payload) (responses : List Response) : Option (List Char) :=
  if p.isBatch then
    if responses.isEmpty then none else some (writeList (responses.map Response.write))
  else responses.head?.map Response.write

namespace Passage
variable {payload : Payload} {p : Passage} {party now : Nat} {body : ByteArray} {r : Relay}

/-- What is being answered, and what has been, is under the ids of the body's entries. -/
def Addresses (payload : Payload) (p : Passage) : Prop :=
  match p.progress with
  | .pending x => x.batch = payload.isBatch ∧
      List.Forall₂ Slot.Addressed payload.entries x.slots
  | .ended text? => ∃ responses, text? = payload.text? responses ∧
      List.Forall₂ Slot.AnswersUnder (payload.entries.filterMap Request.addressee?) responses

theorem addresses_go {x : Exchange} {r : Relay} {others : Nat} {ended : List (Call × Answer)}
    (hbatch : x.batch = payload.isBatch)
    (hslots : List.Forall₂ Slot.Addressed payload.entries x.slots) :
    Addresses payload ⟨(x.go r party now).1, (x.go r party now).2, ended, others⟩ := by
  have hgoes := x.go_goes r party now
  have haddressed := @Slot.goAll_addressed now party r x.token _ _ hslots
  generalize x.go r party now = result at hgoes
  cases hgoes with
  | pending => exact ⟨hbatch, haddressed⟩
  | ended hall =>
    refine ⟨_, ?_, Slot.answersUnder_of_finished haddressed hall⟩
    rw [Payload.text?, ← hbatch]
    rfl

theorem addresses_begin (h : Payload.parse body = .ok payload) :
    Addresses payload (begin_ body r party now) := by
  rw [begin_, Exchange.begin_eq h, h]
  refine addresses_go rfl ?_
  exact List.forall₂_map_right_iff.mpr (List.forall₂_same.mpr fun raw _ => .fresh)

theorem Addresses.look (h : Addresses payload p) (l : Look) :
    Addresses payload (p.look party l) := by
  cases hp : p.progress with
  | ended text? =>
    rw [Passage.look, hp]
    exact h
  | pending x =>
    rw [Addresses, hp] at h
    rw [Passage.look, hp]
    exact addresses_go h.1 h.2

theorem addresses_through (h : Payload.parse body = .ok payload) (looks : List Look) :
    Addresses payload (through body r party now looks) := by
  have hlooks {p : Passage} (hp : Addresses payload p) :
      Addresses payload (looks.foldl (fun p l => p.look party l) p) := by
    induction looks generalizing p with
    | nil => exact hp
    | cons l rest ih => exact ih (hp.look l)
  exact hlooks (addresses_begin h)

end Passage

/-- **Ids come back.** The id of an entry that is a request, and the one that is found in an entry
that is none, stand in a text of the entry; the id means what that text means exactly when the text
is null, a string or a number that decoding keeps. Whenever the body comes in and however often it
is looked at, its answer holds the responses to its entries in their order, each with the id of its
entry. So ids that are kept are equal in the responses only if they were in the requests. -/
theorem ids_echoed {body : ByteArray} {payload : Payload}
    (hbody : Payload.parse body = .ok payload) :
    (∀ entry ∈ payload.entries,
      (∀ q t, Request.ofRaw entry = .ok q → Request.Layout.Has entry "id" t →
        ∃ i, Request.Names entry t i) ∧
      (∀ j e i, Request.ofRaw entry = .error (j, e) → Request.salvage? entry.chars = some i →
        ∃ t, Request.Names entry t i) ∧
      ∀ t i, Request.Names entry t i → Request.addressee? entry = some i ∧ i.Echoes t) ∧
    (∀ r party now looks text?,
      (Passage.through body r party now looks).progress = .ended text? →
      ∃ responses, text? = payload.text? responses ∧
        List.Forall₂ (fun (i : Id) (a : Response) => ∃ rest, a.write =
            "\x7b\"jsonrpc\":\"2.0\",\"id\":".toList ++ (i.write ++ ',' :: rest))
          (payload.entries.filterMap Request.addressee?) responses) ∧
    ∀ entry ∈ payload.entries, ∀ entry' ∈ payload.entries, ∀ t t' i i' m m',
      Request.Names entry t i → Request.Names entry' t' i' → Means t m → Means t' m' →
        t.Keeps → t'.Keeps → (i.value.meaning = i'.value.meaning ↔ m = m') := by
  have htext := Payload.entries_isText hbody
  refine ⟨fun entry hentry => ⟨fun q t hq ht => ?_, fun j e i hq hi => ?_, fun t i h =>
    ⟨h.addressee?, h.echoes (htext entry hentry)⟩⟩, fun r party now looks text? hended => ?_, ?_⟩
  · obtain ⟨i, hi, -⟩ := Request.id_of_has (Request.takes_of_ofRaw (htext entry hentry) hq) ht
    exact ⟨i, .request hq ht hi⟩
  · obtain ⟨⟨t, ht⟩, -⟩ := Request.salvage_of_has (htext entry hentry) hi
    exact ⟨t, .salvaged hq ht hi⟩
  · have haddresses := @Passage.addresses_through payload party now body r hbody looks
    rw [Passage.Addresses, hended] at haddresses
    obtain ⟨responses, hresponses, hunder⟩ := haddresses
    refine ⟨responses, hresponses, hunder.imp fun i a ha => ?_⟩
    obtain ⟨o, rfl⟩ := ha
    exact Response.write_ofOutcome i o
  · intro entry hentry entry' hentry' t t' i i' m m' h h' hm hm' hk hk'
    exact (h.echoes (htext entry hentry)).eq_iff (h'.echoes (htext entry' hentry')) hk hk' hm hm'

/-! ### Two numbers for one -/

/-- The members of a request under an id that is spelt so. -/
def askedMembers (id : Raw) : List (String × Raw) :=
  [("jsonrpc", ⟨writeString protocolVersion⟩), ("id", id),
    ("method", ⟨writeString "net_listening"⟩)]

def askingUnder (id : Raw) : Raw := ⟨writeObject (Raw.spelt (askedMembers id))⟩

section Asking
variable {id : Raw} {i : Id}

theorem askingUnder_isObject (h : id.IsText) :
    (askingUnder id).IsObject (Field.all (askedMembers id)) := by
  refine Raw.isObject_written ?_
  simp only [askedMembers, List.forall_mem_cons]
  exact ⟨(Raw.isString_written _).isText, h, (Raw.isString_written _).isText,
    fun _ h => by cases h⟩

theorem ofRaw_askingUnder (h : Denotes false 1 id i.value) :
    Request.ofRaw (askingUnder id) = .ok ⟨protocolVersion, some i, "net_listening", none⟩ := by
  obtain ⟨m, hm⟩ := h.exists_means
  have hobject := askingUnder_isObject hm.isText
  have hstring (s : String) := Reader.string_takes (Raw.isString_written s)
  have hreads : Request.Layout.Reads {} (Field.all (askedMembers id))
      ⟨some protocolVersion, some i, some "net_listening", none⟩ := by
    refine .cons (.noted (Field.written_named ..) rfl rfl ((hstring protocolVersion).map _)) ?_
    refine .cons (.noted (Field.written_named ..) rfl rfl ((Id.reader_takes h).map _)) ?_
    exact .cons (.noted (Field.written_named ..) rfl rfl ((hstring "net_listening").map _)) .nil
  exact Request.ofRaw_of_parse
    ((Request.parse_eq_ok_iff hobject.isText).mpr (hreads.takes hobject rfl)) rfl

theorem askingUnder_names (h : Denotes false 1 id i.value) :
    Request.Names (askingUnder id) id i := by
  obtain ⟨m, hm⟩ := h.exists_means
  exact .request (ofRaw_askingUnder h) (.named (askingUnder_isObject hm.isText)
    (Field.written_mem (List.mem_cons_of_mem _ (List.mem_cons_self ..)))
    (Field.written_named ..)) rfl

end Asking

/-- Two such requests in one batch. -/
def pairUnder (id id' : Raw) : List Raw := [askingUnder id, askingUnder id']

theorem parse_pairUnder {id id' : Raw} (h : id.IsText) (h' : id'.IsText) :
    Payload.parse (Raw.list (pairUnder id id')).text.toUTF8 = .ok (.batch (pairUnder id id')) := by
  refine Payload.parse_list (List.cons_ne_nil _ _) ?_
  simp only [pairUnder, List.forall_mem_cons]
  exact ⟨(askingUnder_isObject h).isText, (askingUnder_isObject h').isText, fun _ h => by cases h⟩

/-- A number, and a string that looks like it. -/
def seven : Raw := ⟨['7']⟩

def quotedSeven : Raw := ⟨writeString "7"⟩

/-- A node without redirections answers a batch under both of them at once. -/
theorem sevens_echoed : ∃ relay i j text? responses, Relay.ofConfig {} [] = .ok relay ∧
    Request.Names (askingUnder seven) seven i ∧
    Request.Names (askingUnder quotedSeven) quotedSeven j ∧
    i.value.meaning = .number 7 ∧ j.value.meaning = .string "7" ∧
    (Passage.through (Raw.list (pairUnder seven quotedSeven)).text.toUTF8 relay 0 0 []).progress =
      .ended text? ∧
    text? = (Payload.batch (pairUnder seven quotedSeven)).text? responses ∧
    List.Forall₂ (fun (i : Id) (a : Response) => ∃ rest, a.write =
      "\x7b\"jsonrpc\":\"2.0\",\"id\":".toList ++ (i.write ++ ',' :: rest)) [i, j] responses := by
  have hwhole : seven.IsWhole (7 : Nat) := rfl
  have hin : InWords (7 : Nat) := by decide
  have hstring : quotedSeven.IsString "7" := Raw.isString_written "7"
  have hi : Request.Names (askingUnder seven) seven (.number (.whole (7 : Nat) hin)) :=
    askingUnder_names (hwhole.denotes hin)
  have hj : Request.Names (askingUnder quotedSeven) quotedSeven (.string "7") :=
    askingUnder_names (denotes_string hstring)
  have hbody := parse_pairUnder hwhole.isText hstring.isText
  obtain ⟨hentries, hanswers, -⟩ := ids_echoed hbody
  obtain ⟨-, -, hsevens⟩ := hentries (askingUnder seven) (List.mem_cons_self ..)
  obtain ⟨-, -, hquoteds⟩ := hentries (askingUnder quotedSeven)
    (List.mem_cons_of_mem _ (List.mem_cons_self ..))
  obtain ⟨hia, hiecho⟩ := hsevens _ _ hi
  obtain ⟨hja, hjecho⟩ := hquoteds _ _ hj
  obtain ⟨relay, hrelay⟩ : ∃ relay, Relay.ofConfig {} [] = .ok relay := ⟨_, rfl⟩
  obtain ⟨hprompt, hcalls⟩ := Relay.prompt_ofConfig hrelay rfl (by decide) (by simp)
  have hended := hprompt.answers hcalls hbody 0 0
  obtain ⟨responses, htext, hunder⟩ := hanswers relay 0 0 [] _ hended
  have hids : (pairUnder seven quotedSeven).filterMap Request.addressee? =
      [.number (.whole (7 : Nat) hin), .string "7"] := by
    rw [pairUnder, List.filterMap_cons, hia, List.filterMap_cons, hja]
    rfl
  rw [Payload.entries, hids] at hunder
  exact ⟨relay, _, _, _, responses, hrelay, hi, hj,
    (hiecho.kept _ hwhole.means).mpr (hwhole.keeps hin),
    (hjecho.kept _ (.string hstring)).mpr hstring.keeps, hended, htext, hunder⟩

/-- The digits of the number after the one that `wide` spells. -/
def wider : Raw := ⟨(toString (123456789012345678901234567891 : Int)).toList⟩

/-- The binary64 next to both of them. -/
def nearest : Id := .number (.real ⟨false, 7017705969039166, 44⟩)

theorem eq_ok_of_toOption {ε α : Type} {x : Except ε α} {a : α} (h : x.toOption = some a) :
    x = .ok a := by
  cases x <;> cases h
  rfl

theorem denotes_wide : Denotes false 1 wide nearest.value := by
  have hw : wide.IsWhole 123456789012345678901234567890 := rfl
  exact (denotes_numeral hw.numeral).mpr (eq_ok_of_toOption (by decide +kernel))

theorem denotes_wider : Denotes false 1 wider nearest.value := by
  have hw : wider.IsWhole 123456789012345678901234567891 := rfl
  exact (denotes_numeral hw.numeral).mpr (eq_ok_of_toOption (by decide +kernel))

theorem nearest_meaning : nearest.value.meaning = .number 123456789012345680000000000000 := by
  have hshort : Decimal.shortest ⟨false, 7017705969039166, 44⟩ = ⟨12345678901234568, 13⟩ := by
    decide +kernel
  rw [nearest, Id.value, Value.meaning, Meaning.number.injEq, Number.spelt, hshort,
    Decimal.Scaled.value]
  norm_num

/-- Two requests of one batch with different ids are answered under one id, which is not that of
either. -/
theorem ids_collide : ∃ relay, Relay.ofConfig {} [] = .ok relay ∧
    Payload.parse (Raw.list (pairUnder wide wider)).text.toUTF8 =
      .ok (.batch (pairUnder wide wider)) ∧
    Request.Names (askingUnder wide) wide nearest ∧
    Request.Names (askingUnder wider) wider nearest ∧
    Means wide (.number 123456789012345678901234567890) ∧
    Means wider (.number 123456789012345678901234567891) ∧
    nearest.value.meaning ≠ .number 123456789012345678901234567890 ∧
    nearest.value.meaning ≠ .number 123456789012345678901234567891 ∧
    (Passage.begin_ (Raw.list (pairUnder wide wider)).text.toUTF8 relay 0 0).progress =
      .ended (some (writeList (List.replicate 2
        ("\x7b\"jsonrpc\":\"2.0\",\"id\":1.2345678901234568e+29,".toList ++
          "\"result\":true\x7d".toList)))) := by
  have hw : wide.IsWhole 123456789012345678901234567890 := rfl
  have hw' : wider.IsWhole 123456789012345678901234567891 := rfl
  have hbody := parse_pairUnder hw.isText hw'.isText
  obtain ⟨hprompt, hcalls⟩ := @Relay.prompt_ofConfig _ {} [] rfl rfl (by decide) (by simp)
  refine ⟨_, rfl, hbody, askingUnder_names denotes_wide, askingUnder_names denotes_wider,
    hw.means, hw'.means, ?_, ?_, ?_⟩
  · rw [nearest_meaning, ne_eq, Meaning.number.injEq]
    norm_num
  · rw [nearest_meaning, ne_eq, Meaning.number.injEq]
    norm_num
  · rw [hprompt.answers hcalls hbody 0 0]
    simp only [Answering.text?, Answering.batchText?, Answering.responses, pairUnder,
      Answering.response?, List.filterMap_cons, ofRaw_askingUnder denotes_wide,
      ofRaw_askingUnder denotes_wider]
    exact congrArg _ (by decide +kernel)

end Switchboard
