import Mathlib.Data.List.Nodup
import Switchboard.Message.Response
import Switchboard.Proofs.Json.Scalars

/-! The members of requests, responses and error objects.

Every member has its slot and a settled reader, so every text is read as a message or refused,
and a message that was read holds what stands in its text (`Request.covered`,
`Response.covered`, `ErrorObject.covered`), as does the id that is found where there is no request
(`Request.salvage_covered`). -/
namespace Switchboard
open Json

/-! ### Values or null -/

namespace Json.Reader
variable {α : Type} {r : Raw} {p : Reader α}

theorem orNull_takes_null : p.orNull.Takes Raw.null none := by
  intro b u hb _
  have hfront := Raw.isText_null.skipBlank_padded hb u
  simp only [orNull, hfront]
  rfl

theorem orNull_takes {x : α} (h : p.Takes r x) (hr : r.IsText) (hne : r ≠ Raw.null) :
    p.orNull.Takes r (some x) := by
  intro b u hb hu
  obtain ⟨c, v, hc, -, hfront⟩ := hr.front
  have hn : c ≠ 'n' := fun hn => hne (hr.eq_null (hn ▸ hc))
  have hrun := h blank_nil hu
  rw [hc] at hrun
  simp only [orNull, hfront b u hb]
  split
  · rename_i heq
    exact absurd (List.cons.inj heq).1 hn
  · rw [show p.run (c :: (v ++ u)) = _ from hrun]

theorem orNull_refuses (h : p.Refuses r) (hr : r.IsText) (hne : r ≠ Raw.null) :
    p.orNull.Refuses r := by
  intro b u hb hu y hy
  obtain ⟨c, v, hc, -, hfront⟩ := hr.front
  have hn : c ≠ 'n' := fun hn => hne (hr.eq_null (hn ▸ hc))
  have hrun := h blank_nil hu
  rw [hc] at hrun
  simp only [orNull, hfront b u hb] at hy
  split at hy
  · rename_i heq
    exact absurd (List.cons.inj heq).1 hn
  · split at hy
    · rename_i heq
      exact hrun _ heq
    · cases hy

theorem Settled.orNull (h : p.Settled) : p.orNull.Settled := by
  intro r hr
  by_cases hne : r = Raw.null
  · exact .inl ⟨none, hne ▸ orNull_takes_null⟩
  · rcases h hr with ⟨x, hx⟩ | hno
    · exact .inl ⟨some x, orNull_takes hx hr hne⟩
    · exact .inr (orNull_refuses hno hr hne)

theorem Takes.of_orNull {x? : Option α} (hs : p.Settled) (hr : r.IsText) (hne : r ≠ Raw.null)
    (h : p.orNull.Takes r x?) : ∃ x, p.Takes r x ∧ x? = some x := by
  rcases hs hr with ⟨x, hx⟩ | hno
  · exact ⟨x, hx, h.unique (orNull_takes hx hr hne)⟩
  · exact absurd (orNull_refuses hno hr hne) h.not_refuses

end Json.Reader

/-! ### Ids -/

namespace Id
variable {r : Raw} {outer : Nat}

theorem ofValue?_eq_some {x : Value} {i : Id} : ofValue? x = some i ↔ x = i.value := by
  cases x <;> cases i <;> simp [ofValue?, value]

theorem reader_takes {i : Id} (h : Denotes false outer r i.value) :
    (reader Char.utf8Size outer).Takes r i := by
  intro b u hb hu
  simp only [reader, h.decode hb hu, ofValue?_eq_some.mpr rfl]

theorem reader_settles (h : r.IsText) (outer : Nat) :
    (∃ i : Id, Denotes false outer r i.value) ∨ (reader Char.utf8Size outer).Refuses r := by
  have hread {b u : List Char} {y : Id × List Char}
      (hy : (reader Char.utf8Size outer).run (b ++ (r.chars ++ u)) = .ok y) :
      ∃ v t, decode Char.utf8Size false outer (b ++ (r.chars ++ u)) = .ok (v, t) ∧
        ofValue? v = some y.1 := by
    simp only [reader] at hy
    split at hy
    · cases hy
    · rename_i v t hv
      split at hy
      · rename_i i hi
        cases hy
        exact ⟨v, t, hv, hi⟩
      · cases hy
  rcases h.settles outer with ⟨x, hx⟩ | hno
  · cases hi : ofValue? x with
    | some i => exact .inl ⟨i, ofValue?_eq_some.mp hi ▸ hx⟩
    | none =>
      refine .inr fun b u hb hu y hy => ?_
      obtain ⟨v, t, hv, hvi⟩ := hread hy
      cases (hx.decode hb hu).symm.trans hv
      cases hi.symm.trans hvi
  · refine .inr fun b u hb hu y hy => ?_
    obtain ⟨v, t, hv, -⟩ := hread hy
    exact hno.decode hb hu _ hv

theorem reader_settled (outer : Nat) : (reader Char.utf8Size outer).Settled := fun _ h =>
  (reader_settles h outer).imp_left fun ⟨i, hi⟩ => ⟨i, reader_takes hi⟩

theorem reader_takes_iff (h : r.IsText) {i : Id} :
    (reader Char.utf8Size outer).Takes r i ↔ Denotes false outer r i.value := by
  constructor
  · intro hi
    rcases reader_settles h outer with ⟨j, hj⟩ | hno
    · exact (reader_takes hj).unique hi ▸ hj
    · exact absurd hno hi.not_refuses
  · exact reader_takes

theorem takes_ofNat {n : Nat} (hn : n < UInt64.size) (hw : r.IsWhole n) :
    (reader Char.utf8Size outer).Takes r (.ofNat n) := by
  refine reader_takes ?_
  show Denotes false outer r (.number (Number.ofNat n))
  rw [Number.ofNat_of_lt hn]
  exact hw.denotes (inWords_of_lt hn)

end Id

/-! ### Error objects -/

namespace ErrorObject

/-- The members of an error object inside `outer` open lists and objects. -/
abbrev Layout (outer : Nat) : Plan Draft ErrorObject := plan Char.utf8Size outer

variable (outer : Nat)

def codeSlot : (Layout outer).Slot Int where
  member := ⟨"code", false, fun d => d.code?.isSome,
    (Reader.word Char.utf8Size).map fun code d => { d with code? := some code }⟩
  reader := Reader.word Char.utf8Size
  set code d := { d with code? := some code }
  get := Draft.code?
  mem := List.mem_cons_self ..
  settled := Reader.word_settled
  others := by
    simp only [plan, List.forall_mem_cons]
    exact ⟨.inl trivial, .inr ⟨by decide, Plan.untouched Reader.string_settled fun _ _ => rfl⟩,
      .inr ⟨by decide, Plan.untouched (Reader.value_settled _).orNull fun _ _ => rfl⟩,
      fun _ h => by cases h⟩

def messageSlot : (Layout outer).Slot String where
  member := ⟨"message", false, fun d => d.message?.isSome,
    (Reader.string Char.utf8Size).map fun message d => { d with message? := some message }⟩
  reader := Reader.string Char.utf8Size
  set message d := { d with message? := some message }
  get := Draft.message?
  mem := List.mem_cons_of_mem _ (List.mem_cons_self ..)
  settled := Reader.string_settled
  others := by
    simp only [plan, List.forall_mem_cons]
    exact ⟨.inr ⟨by decide, Plan.untouched Reader.word_settled fun _ _ => rfl⟩, .inl trivial,
      .inr ⟨by decide, Plan.untouched (Reader.value_settled _).orNull fun _ _ => rfl⟩,
      fun _ h => by cases h⟩

def dataSlot : (Layout outer).Slot (Option Value) where
  member := ⟨"data", true, fun d => d.data?.isSome,
    (Reader.value Char.utf8Size (outer + 1)).orNull.map fun data d =>
      { d with data? := some data }⟩
  reader := (Reader.value Char.utf8Size (outer + 1)).orNull
  set data d := { d with data? := some data }
  get := Draft.data?
  mem := List.mem_cons_of_mem _ (List.mem_cons_of_mem _ (List.mem_cons_self ..))
  settled := (Reader.value_settled _).orNull
  others := by
    simp only [plan, List.forall_mem_cons]
    exact ⟨.inr ⟨by decide, Plan.untouched Reader.word_settled fun _ _ => rfl⟩,
      .inr ⟨by decide, Plan.untouched Reader.string_settled fun _ _ => rfl⟩, .inl trivial,
      fun _ h => by cases h⟩

theorem covered : (Layout outer).Covered := by
  simp only [Plan.Covered, plan, List.forall_mem_cons]
  exact ⟨⟨_, codeSlot outer, rfl⟩, ⟨_, messageSlot outer, rfl⟩, ⟨_, dataSlot outer, rfl⟩,
    fun _ h => by cases h⟩

theorem members_nodup : (Layout outer).members.Nodup :=
  List.Nodup.of_map Member.name (show ["code", "message", "data"].Nodup by decide)

end ErrorObject

/-! ### Responses -/

namespace Response

abbrev Layout : Plan Draft Response := plan Char.utf8Size

/-- The error member of a response: an error object, or null for none. -/
def errorReader : Reader (Option ErrorObject) :=
  ((ErrorObject.Layout 1).reader Char.utf8Size).orNull

theorem errorReader_settled : errorReader.Settled :=
  (Plan.reader_settled (ErrorObject.covered 1).settled).orNull

def versionSlot : Layout.Slot String where
  member := ⟨"jsonrpc", false, fun d => d.version?.isSome,
    (Reader.string Char.utf8Size).map fun version d => { d with version? := some version }⟩
  reader := Reader.string Char.utf8Size
  set version d := { d with version? := some version }
  get := Draft.version?
  mem := List.mem_cons_self ..
  settled := Reader.string_settled
  others := by
    simp only [plan, List.forall_mem_cons]
    exact ⟨.inl trivial, .inr ⟨by decide, Plan.untouched (Id.reader_settled 1) fun _ _ => rfl⟩,
      .inr ⟨by decide, Plan.untouched Reader.raw_settled fun _ _ => rfl⟩,
      .inr ⟨by decide, Plan.untouched errorReader_settled fun _ _ => rfl⟩, fun _ h => by cases h⟩

def idSlot : Layout.Slot Id where
  member := ⟨"id", false, fun d => d.id?.isSome,
    (Id.reader Char.utf8Size 1).map fun i d => { d with id? := some i }⟩
  reader := Id.reader Char.utf8Size 1
  set i d := { d with id? := some i }
  get := Draft.id?
  mem := List.mem_cons_of_mem _ (List.mem_cons_self ..)
  settled := Id.reader_settled 1
  others := by
    simp only [plan, List.forall_mem_cons]
    exact ⟨.inr ⟨by decide, Plan.untouched Reader.string_settled fun _ _ => rfl⟩, .inl trivial,
      .inr ⟨by decide, Plan.untouched Reader.raw_settled fun _ _ => rfl⟩,
      .inr ⟨by decide, Plan.untouched errorReader_settled fun _ _ => rfl⟩, fun _ h => by cases h⟩

def resultSlot : Layout.Slot Raw where
  member := ⟨"result", true, fun d => d.result?.isSome,
    (Reader.raw Char.utf8Size).map fun result d => { d with result? := some result }⟩
  reader := Reader.raw Char.utf8Size
  set result d := { d with result? := some result }
  get := Draft.result?
  mem := List.mem_cons_of_mem _ (List.mem_cons_of_mem _ (List.mem_cons_self ..))
  settled := Reader.raw_settled
  others := by
    simp only [plan, List.forall_mem_cons]
    exact ⟨.inr ⟨by decide, Plan.untouched Reader.string_settled fun _ _ => rfl⟩,
      .inr ⟨by decide, Plan.untouched (Id.reader_settled 1) fun _ _ => rfl⟩, .inl trivial,
      .inr ⟨by decide, Plan.untouched errorReader_settled fun _ _ => rfl⟩, fun _ h => by cases h⟩

def errorSlot : Layout.Slot (Option ErrorObject) where
  member := ⟨"error", true, fun d => d.error?.isSome,
    errorReader.map fun e d => { d with error? := some e }⟩
  reader := errorReader
  set e d := { d with error? := some e }
  get := Draft.error?
  mem := List.mem_cons_of_mem _ <| List.mem_cons_of_mem _ <| List.mem_cons_of_mem _ <|
    List.mem_cons_self ..
  settled := errorReader_settled
  others := by
    simp only [plan, List.forall_mem_cons]
    exact ⟨.inr ⟨by decide, Plan.untouched Reader.string_settled fun _ _ => rfl⟩,
      .inr ⟨by decide, Plan.untouched (Id.reader_settled 1) fun _ _ => rfl⟩,
      .inr ⟨by decide, Plan.untouched Reader.raw_settled fun _ _ => rfl⟩, .inl rfl,
      fun _ h => by cases h⟩

theorem covered : Layout.Covered := by
  simp only [Plan.Covered, plan, List.forall_mem_cons]
  exact ⟨⟨_, versionSlot, rfl⟩, ⟨_, idSlot, rfl⟩, ⟨_, resultSlot, rfl⟩, ⟨_, errorSlot, rfl⟩,
    fun _ h => by cases h⟩

theorem members_nodup : Layout.members.Nodup :=
  List.Nodup.of_map Member.name (show ["jsonrpc", "id", "result", "error"].Nodup by decide)

end Response

/-! ### Requests -/

namespace Request

abbrev Layout : Plan Draft Request := plan Char.utf8Size

def versionSlot : Layout.Slot String where
  member := ⟨"jsonrpc", false, fun d => d.version?.isSome,
    (Reader.string Char.utf8Size).map fun version d => { d with version? := some version }⟩
  reader := Reader.string Char.utf8Size
  set version d := { d with version? := some version }
  get := Draft.version?
  mem := List.mem_cons_self ..
  settled := Reader.string_settled
  others := by
    simp only [plan, List.forall_mem_cons]
    exact ⟨.inl trivial, .inr ⟨by decide, Plan.untouched (Id.reader_settled 1) fun _ _ => rfl⟩,
      .inr ⟨by decide, Plan.untouched Reader.string_settled fun _ _ => rfl⟩,
      .inr ⟨by decide, Plan.untouched Reader.rawOrNull_settled fun _ _ => rfl⟩,
      fun _ h => by cases h⟩

def idSlot : Layout.Slot Id where
  member := ⟨"id", true, fun d => d.id?.isSome,
    (Id.reader Char.utf8Size 1).map fun i d => { d with id? := some i }⟩
  reader := Id.reader Char.utf8Size 1
  set i d := { d with id? := some i }
  get := Draft.id?
  mem := List.mem_cons_of_mem _ (List.mem_cons_self ..)
  settled := Id.reader_settled 1
  others := by
    simp only [plan, List.forall_mem_cons]
    exact ⟨.inr ⟨by decide, Plan.untouched Reader.string_settled fun _ _ => rfl⟩, .inl trivial,
      .inr ⟨by decide, Plan.untouched Reader.string_settled fun _ _ => rfl⟩,
      .inr ⟨by decide, Plan.untouched Reader.rawOrNull_settled fun _ _ => rfl⟩,
      fun _ h => by cases h⟩

def methodSlot : Layout.Slot String where
  member := ⟨"method", false, fun d => d.method?.isSome,
    (Reader.string Char.utf8Size).map fun method d => { d with method? := some method }⟩
  reader := Reader.string Char.utf8Size
  set method d := { d with method? := some method }
  get := Draft.method?
  mem := List.mem_cons_of_mem _ (List.mem_cons_of_mem _ (List.mem_cons_self ..))
  settled := Reader.string_settled
  others := by
    simp only [plan, List.forall_mem_cons]
    exact ⟨.inr ⟨by decide, Plan.untouched Reader.string_settled fun _ _ => rfl⟩,
      .inr ⟨by decide, Plan.untouched (Id.reader_settled 1) fun _ _ => rfl⟩, .inl trivial,
      .inr ⟨by decide, Plan.untouched Reader.rawOrNull_settled fun _ _ => rfl⟩,
      fun _ h => by cases h⟩

def paramsSlot : Layout.Slot (Option Raw) where
  member := ⟨"params", true, fun d => d.params?.isSome,
    (Reader.rawOrNull Char.utf8Size).map fun params d => { d with params? := some params }⟩
  reader := Reader.rawOrNull Char.utf8Size
  set params d := { d with params? := some params }
  get := Draft.params?
  mem := List.mem_cons_of_mem _ <| List.mem_cons_of_mem _ <| List.mem_cons_of_mem _ <|
    List.mem_cons_self ..
  settled := Reader.rawOrNull_settled
  others := by
    simp only [plan, List.forall_mem_cons]
    exact ⟨.inr ⟨by decide, Plan.untouched Reader.string_settled fun _ _ => rfl⟩,
      .inr ⟨by decide, Plan.untouched (Id.reader_settled 1) fun _ _ => rfl⟩,
      .inr ⟨by decide, Plan.untouched Reader.string_settled fun _ _ => rfl⟩, .inl trivial,
      fun _ h => by cases h⟩

theorem covered : Layout.Covered := by
  simp only [Plan.Covered, plan, List.forall_mem_cons]
  exact ⟨⟨_, versionSlot, rfl⟩, ⟨_, idSlot, rfl⟩, ⟨_, methodSlot, rfl⟩, ⟨_, paramsSlot, rfl⟩,
    fun _ h => by cases h⟩

theorem members_nodup : Layout.members.Nodup :=
  List.Nodup.of_map Member.name (show ["jsonrpc", "id", "method", "params"].Nodup by decide)

/-! ### Ids where there is no request -/

/-- The only member that is looked for. -/
abbrev Salvage : Plan (Option Id) (Option Id) := idPlan Char.utf8Size

def salvageSlot : Salvage.Slot Id where
  member := ⟨"id", true, Option.isSome, (Id.reader Char.utf8Size 1).map fun i _ => some i⟩
  reader := Id.reader Char.utf8Size 1
  set i _ := some i
  get := id
  mem := List.mem_cons_self ..
  settled := Id.reader_settled 1
  others := by
    simp only [idPlan, List.forall_mem_cons]
    exact ⟨.inl trivial, fun _ h => by cases h⟩

theorem salvage_covered : Salvage.Covered := by
  simp only [Plan.Covered, idPlan, List.forall_mem_cons]
  exact ⟨⟨_, salvageSlot, rfl⟩, fun _ h => by cases h⟩

end Request
end Switchboard
