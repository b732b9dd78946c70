import Switchboard.Proofs.Json.Written
import Switchboard.Proofs.Message.Contents

/-! The requests the relay makes, read back.

`ofRaw_call`: whatever the method's name holds and however the arguments are spelt, the
text of a forwarded call is read as that very call. `arguments_call`: its arguments are
the texts that were put in. -/
namespace Switchboard
open Json

theorem Id.number_write (x : Number) : (number x).write = x.text.toList := by
  simp only [write, value, Value.write]

/-- An id of the relay's own is spelt with its digits. -/
theorem Id.isWhole_ofNat {n : Nat} (hn : n < UInt64.size) : Raw.IsWhole ⟨(ofNat n).write⟩ n := by
  rw [show ofNat n = .number (Number.ofNat n) from rfl, number_write, Number.ofNat_of_lt hn]
  rfl

namespace Request

/-! ### The whole request -/

/-- The members of a forwarded call, as they are written. -/
def callMembers (id : Nat) (method : String) (items : List Raw) : List (String × Raw) :=
  [("jsonrpc", ⟨writeString protocolVersion⟩), ("id", ⟨(Id.ofNat id).write⟩),
    ("method", ⟨writeString method⟩), ("params", Raw.list items)]

theorem write_call (id : Nat) (method : String) (items : List Raw) :
    (call id method items).write = writeObject (Raw.spelt (callMembers id method items)) := by
  simp only [write, call, callMembers, Raw.spelt, Option.toList_some, List.map_cons, List.map_nil,
    List.cons_append, List.nil_append]

/-- The members of a forwarded call, as they are noted. -/
def callDraft (id : Nat) (method : String) (items : List Raw) : Draft :=
  ⟨some protocolVersion, some (Id.ofNat id), some method, some (some (Raw.list items))⟩

theorem list_ne_null (items : List Raw) : Raw.list items ≠ Raw.null := fun h => by
  have := congrArg (fun r => r.chars.head?) h
  cases this

theorem callMembers_isText {id : Nat} (hid : id < UInt64.size) (method : String) {items : List Raw}
    (h : ∀ a ∈ items, a.IsText) : ∀ m ∈ callMembers id method items, m.2.IsText := by
  simp only [callMembers, List.forall_mem_cons]
  exact ⟨(Raw.isString_written _).isText, (Id.isWhole_ofNat hid).isText,
    (Raw.isString_written _).isText, Raw.isText_list h, fun _ hm => by cases hm⟩

theorem reads_call {id : Nat} (hid : id < UInt64.size) (method : String) {items : List Raw}
    (h : ∀ a ∈ items, a.IsText) :
    Layout.Reads {} (Field.all (callMembers id method items)) (callDraft id method items) := by
  have hstring (s : String) := Reader.string_takes (Raw.isString_written s)
  have hword := Id.isWhole_ofNat hid
  have hparams : (Reader.rawOrNull Char.utf8Size).Takes (Raw.list items) (some (Raw.list items)) := by
    have := (Reader.raw_takes (Raw.isText_list h)).map fun r => if r = Raw.null then none else some r
    rwa [if_neg (list_ne_null items)] at this
  refine .cons (.noted (Field.written_named ..) rfl rfl ((hstring protocolVersion).map _)) ?_
  refine .cons (.noted (Field.written_named ..) rfl rfl
    ((Id.takes_ofNat hid hword).map _)) ?_
  refine .cons (.noted (Field.written_named ..) rfl rfl ((hstring method).map _)) ?_
  refine .cons (.noted (Field.written_named ..) rfl rfl (hparams.map _)) ?_
  exact .nil

theorem parse_call {id : Nat} (hid : id < UInt64.size) (method : String) {items : List Raw}
    (h : ∀ a ∈ items, a.IsText) :
    parse (call id method items).write = .ok (call id method items) := by
  have hobject := Raw.isObject_written (callMembers_isText hid method h)
  rw [write_call]
  exact (parse_eq_ok_iff hobject.isText).mpr ((reads_call hid method h).takes hobject rfl)

theorem ofRaw_of_parse {s : List Char} {r : Request} (h : parse s = .ok r)
    (hv : r.version = protocolVersion) : ofRaw ⟨s⟩ = .ok r := by
  simp only [ofRaw, h, hv, if_true]

/-- What is no request is refused under the id that can be found in it. -/
theorem ofRaw_eq_error {entry : Raw} {i : Id} {e : ErrorObject} (h : ofRaw entry = .error (i, e)) :
    i = salvagedId entry.chars := by
  unfold ofRaw at h
  split at h
  · cases h
    rfl
  · split at h <;> cases h
    rfl

/-- **The text of a forwarded call is read as that call.** -/
theorem ofRaw_call {id : Nat} (hid : id < UInt64.size) (method : String) {items : List Raw}
    (h : ∀ a ∈ items, a.IsText) :
    ofRaw ⟨(call id method items).write⟩ = .ok (call id method items) :=
  ofRaw_of_parse (parse_call hid method h) rfl

/-- **Its arguments are the texts that were put in.** -/
theorem arguments_call (id : Nat) (method : String) {items : List Raw}
    (h : ∀ a ∈ items, a.IsText) : (call id method items).arguments = .ok items := by
  have hchars : (Raw.list items).chars =
      '[' :: (List.intercalate [','] (items.map Raw.chars) ++ [']']) := rfl
  simp only [arguments, call, hchars, Raw.elements_list h]

theorem natural?_ofNat {id : Nat} (hid : id < UInt64.size) : (Id.ofNat id).natural? = some id := by
  rw [show Id.ofNat id = .number (Number.ofNat id) from rfl, Id.natural?]
  exact Number.natural?_ofNat hid

theorem id?_call (id : Nat) (method : String) (items : List Raw) :
    (call id method items).id? = some (Id.ofNat id) := by
  simp only [call]

theorem method_call (id : Nat) (method : String) (items : List Raw) :
    (call id method items).method = method := by
  simp only [call]

/-- The arguments of any request are texts of their own. -/
theorem arguments_isText {r : Request} {items : List Raw} (h : r.arguments = .ok items) :
    ∀ a ∈ items, a.IsText := by
  unfold arguments at h
  split at h
  · cases h
    exact fun a ha => by cases ha
  · split at h
    · split at h
      · rename_i he
        cases h
        exact Raw.elements_isText he
      · cases h
    · cases h
    · split at h
      · cases h
        exact fun a ha => by cases ha
      · cases h

end Request
end Switchboard
