import Switchboard.Call.Classify
import Switchboard.Proofs.Message.Entries
import Switchboard.Proofs.Text.Affixes

/-! How a stream of requests becomes calls.

A request becomes a call when its method has something on either side of its first underscore
(`Method.Splits`) and its arguments come by position (`Request.ByPosition`); whatever it becomes,
the classifier has moved on by one for a call and not at all otherwise (`Classifier.classify_yields`).
So the calls of a stream are numbered in their order, without gaps (`Classifier.classifyAll_at`). -/
namespace Switchboard
open Json

/-! ### Names -/

namespace Method
variable {name : String} {m : Method}

/-- The name has something on either side of its first underscore, and these are the parts. -/
structure Splits (name : String) (m : Method) : Prop where
  rejoined : m.full = name
  first : '_' ∉ m.namespaceName.toList
  before_ne : m.namespaceName ≠ ""
  after_ne : m.method ≠ ""

theorem parse_splits (h : parse name = some m) : Splits name m := by
  unfold parse at h
  dsimp only at h
  split at h
  · cases h
  · rename_i c after hdrop
    obtain ⟨hsplit, hfirst⟩ := Text.cut_of_dropWhile hdrop
    generalize name.toList.takeWhile (· ≠ '_') = before at *
    split at h <;> cases h
    rename_i hne
    rw [Bool.or_eq_true, not_or, List.isEmpty_iff, List.isEmpty_iff] at hne
    refine ⟨?_, by rwa [String.toList_ofList], ?_, ?_⟩
    · apply String.toList_inj.mp
      rw [full, hsplit]
      simp
    · simpa using hne.1
    · simpa using hne.2

theorem Splits.parse (h : Splits name m) : parse name = some m := by
  obtain ⟨before, after⟩ := m
  obtain ⟨rfl, hfirst, hbefore, hafter⟩ := h
  have hname : (full ⟨before, after⟩).toList = before.toList ++ '_' :: after.toList := by
    simp [full]
  simp only [Method.parse, hname, Text.takeWhile_cut hfirst, Text.dropWhile_cut hfirst,
    List.isEmpty_iff, Bool.or_eq_true, String.toList_eq_nil_iff]
  rw [if_neg (by simp [hbefore, hafter]), String.ofList_toList, String.ofList_toList]

/-- **A name is taken apart at its first underscore, when something stands on either side.** -/
theorem parse_eq_some_iff : parse name = some m ↔ Splits name m := ⟨parse_splits, Splits.parse⟩

theorem parse_eq_none_iff : parse name = none ↔ ∀ m, ¬Splits name m := by
  simp only [Option.eq_none_iff_forall_not_mem, Option.mem_def, parse_eq_some_iff]

end Method

/-! ### One request after another -/

namespace Classifier
variable {c c' : Classifier} {q : Request} {token : Token} {result : Except ClassifyError Call}
  {requests : List (Request × Token)}

/-- What a request becomes, and the classifier after it. -/
inductive Yields (c : Classifier) (q : Request) (token : Token) :
    Except ClassifyError Call → Classifier → Prop
  | call {m : Method} {items : List Raw} (hm : Method.Splits q.method m) (hp : q.ByPosition items) :
      Yields c q token (.ok ⟨c.next, c.timeoutMs, token, m, items⟩) { c with next := c.next + 1 }
  | malformed (hm : ∀ m, ¬Method.Splits q.method m) :
      Yields c q token (.error (.malformedMethod q.method)) c
  | outOfPlace {m : Method} {e : ErrorObject} (hm : Method.Splits q.method m)
      (he : q.OutOfPlace e) : Yields c q token (.error (.invalidParams e)) c

/-- **A request becomes what its method and its params make of it, and only a call takes a
number.** -/
theorem classify_yields (c : Classifier) (token : Token) (hq : q.Textual) :
    c.Yields q token (c.classify q token).1 (c.classify q token).2 := by
  unfold classify
  cases hname : Method.parse q.method with
  | none => exact .malformed (Method.parse_eq_none_iff.mp hname)
  | some m =>
    have hm := Method.parse_splits hname
    rcases hq.byPosition_or with ⟨items, hp⟩ | ⟨e, he⟩
    · simp only [hp.arguments]
      exact .call hm hp
    · simp only [he.arguments]
      exact .outOfPlace hm he

theorem Yields.isOk_iff (h : c.Yields q token result c') :
    (∃ call, result = .ok call) ↔
      (∃ m, Method.Splits q.method m) ∧ ∃ items, q.ByPosition items := by
  constructor
  · rintro ⟨call, rfl⟩
    cases h with
    | call hm hp => exact ⟨⟨_, hm⟩, _, hp⟩
  · rintro ⟨⟨m, hm⟩, items, hp⟩
    cases h with
    | call => exact ⟨_, rfl⟩
    | malformed h => exact absurd hm (h m)
    | outOfPlace _ he => exact absurd hp he.not_byPosition

theorem Yields.of_call {call : Call} (h : c.Yields q token (.ok call) c') :
    call.number = c.next ∧ call.timeoutMs = c.timeoutMs ∧ call.token = token ∧
      Method.Splits q.method call.name ∧ q.ByPosition call.arguments := by
  cases h with
  | call hm hp => exact ⟨rfl, rfl, rfl, hm, hp⟩

theorem Yields.of_malformed (h : c.Yields q token result c') (hm : ∀ m, ¬Method.Splits q.method m) :
    result = .error (.malformedMethod q.method) := by
  cases h with
  | malformed => rfl
  | call h => exact absurd h (hm _)
  | outOfPlace h => exact absurd h (hm _)

theorem Yields.of_outOfPlace (h : c.Yields q token result c')
    (hm : ∃ m, Method.Splits q.method m) (hp : ∀ items, ¬q.ByPosition items) :
    ∃ e, result = .error (.invalidParams e) ∧ e.code = -32602 ∧ q.OutOfPlace e := by
  cases h with
  | outOfPlace _ he => exact ⟨_, rfl, he.code, he⟩
  | call _ h => exact absurd h (hp _)
  | malformed h => exact absurd hm.choose_spec (h _)

/-- Requests classified one after another. -/
def classifyAll (c : Classifier) :
    List (Request × Token) → List (Except ClassifyError Call) × Classifier
  | [] => ([], c)
  | (q, token) :: rest =>
    let (result, c) := c.classify q token
    let (results, c) := c.classifyAll rest
    (result :: results, c)

/-- The classifier after it has made so many calls more. -/
def after (c : Classifier) (made : Nat) : Classifier := { c with next := c.next + made }

/-- How many of the results are calls. -/
def made (results : List (Except ClassifyError Call)) : Nat := results.countP Except.isOk

theorem after_after (c : Classifier) (k n : Nat) : (c.after k).after n = c.after (k + n) := by
  simp only [after, Nat.add_assoc]

theorem made_cons (result : Except ClassifyError Call) (results : List (Except ClassifyError Call)) :
    made (result :: results) = made [result] + made results := by
  simp only [made, List.countP_cons, List.countP_nil]
  omega

theorem classify_after (c : Classifier) (q : Request) (token : Token) :
    (c.classify q token).2 = c.after (made [(c.classify q token).1]) := by
  unfold classify
  split
  · rfl
  · split <;> rfl

theorem classifyAll_length (c : Classifier) (requests : List (Request × Token)) :
    (c.classifyAll requests).1.length = requests.length := by
  induction requests generalizing c with
  | nil => rfl
  | cons r rest ih => exact congrArg (· + 1) (ih _)

/-- **Each request is classified with the number that follows those of the calls before it.** -/
theorem classifyAll_at {i : Nat} (h : requests[i]? = some (q, token)) :
    (c.classifyAll requests).1[i]? =
      some ((c.after (made ((c.classifyAll requests).1.take i))).classify q token).1 := by
  induction requests generalizing c i with
  | nil => cases h
  | cons r rest ih =>
    obtain ⟨q', token'⟩ := r
    cases i with
    | zero =>
      cases h
      rfl
    | succ i =>
      rw [classifyAll, List.getElem?_cons_succ, List.take_succ_cons, made_cons, ← after_after,
        ← classify_after]
      exact ih h

/-- **The calls of a stream.** A request becomes a call exactly when its method has something on
either side of its first underscore and its params are absent, null or a list; the `k`-th call has
the number `k`, the parts of its method's name and its arguments as they are spelt, in order. What
becomes no call takes no number: a method without parts is named in full, whatever the params, and
other params are refused as such. The params of a request that was read are never refused for how
they are spelt. -/
theorem classified_in_order (timeoutMs : Nat) (requests : List (Request × Token))
    (hq : ∀ r ∈ requests, r.1.Textual) (hn : requests.length < UInt64.size) :
    let results := (classifyAll { timeoutMs } requests).1
    results.length = requests.length ∧
    (∀ i q token result, requests[i]? = some (q, token) → results[i]? = some result →
      ((∃ call, result = .ok call) ↔
        (∃ m, Method.Splits q.method m) ∧ ∃ items, q.ByPosition items) ∧
      (∀ call, result = .ok call →
        call.number = made (results.take (i + 1)) ∧ call.number < UInt64.size ∧
          Method.Splits q.method call.name ∧ q.ByPosition call.arguments ∧
          call.token = token ∧ call.timeoutMs = timeoutMs) ∧
      ((∀ m, ¬Method.Splits q.method m) → result = .error (.malformedMethod q.method)) ∧
      ((∃ m, Method.Splits q.method m) → (∀ items, ¬q.ByPosition items) →
        ∃ e, result = .error (.invalidParams e) ∧ e.code = -32602 ∧ q.OutOfPlace e)) ∧
    ∀ entry q, Request.ofRaw entry = .ok q → q.Textual ∧
      ∀ p v, q.params? = some p → p.chars = '[' :: v →
        ∃ items, p.elements = .ok items ∧ p.IsList items := by
  intro results
  refine ⟨classifyAll_length _ _, fun i q token result hi hr => ?_, fun entry q h => ?_⟩
  · have hyields := classify_yields (after { timeoutMs } (made (results.take i))) token
      (hq _ (List.mem_of_getElem? hi))
    rw [← Option.some.inj (hr.symm.trans (classifyAll_at hi))] at hyields
    refine ⟨hyields.isOk_iff, fun call hcall => ?_, hyields.of_malformed, hyields.of_outOfPlace⟩
    subst hcall
    obtain ⟨hnumber, hms, htoken, hm, hp⟩ := hyields.of_call
    have hmade : made (results.take (i + 1)) = made (results.take i) + 1 := by
      rw [List.take_add_one, hr]
      exact List.countP_append
    have hle : made (results.take (i + 1)) ≤ requests.length :=
      List.countP_le_length.trans ((List.length_take_le' _ _).trans (classifyAll_length _ _).le)
    have : call.number = made (results.take (i + 1)) := by
      rw [hnumber, hmade, after, Nat.add_comm]
    exact ⟨this, by omega, hm, hp, htoken, hms⟩
  · have htext := Request.textual_of_ofRaw h
    refine ⟨htext, fun p v hp hv => ?_⟩
    obtain ⟨items, hl⟩ := (htext p hp).isList hv
    exact ⟨items, hl.elements, hl⟩

/-- A call with an argument, a method without parts, params that are a number, and a call with
params that are null. -/
def mixed : List (Request × Token) :=
  [(⟨"2.0", none, "eth_call_now", some (.ofString "[ 1.10 ]")⟩, ⟨7, []⟩),
    (⟨"2.0", none, "version", some (.ofString "3")⟩, ⟨7, []⟩),
    (⟨"2.0", none, "eth_call", some (.ofString "3")⟩, ⟨7, []⟩),
    (⟨"2.0", none, "net_version", some .null⟩, ⟨7, []⟩)]

theorem classified_mixed :
    ∃ last, (classifyAll { timeoutMs := 5 } mixed).1[3]? = some (.ok last) ∧ last.number = 2 ∧
      Method.Splits "net_version" last.name ∧ last.arguments = [] := by
  have hten : (Raw.ofString "1.10").IsScalar := ⟨'1', _, rfl, rfl, by decide, by decide, rfl⟩
  have hthree : (Raw.ofString "3").IsScalar := ⟨'3', _, rfl, rfl, by decide, by decide, rfl⟩
  have hblank : Blank [' '] := List.forall_mem_singleton.mpr rfl
  have hlist : (Raw.ofString "[ 1.10 ]").IsList [.ofString "1.10"] :=
    @Raw.IsList.items [⟨[' '], .ofString "1.10", [' '], hblank, hblank⟩] (List.cons_ne_nil _ _)
      (List.forall_mem_singleton.mpr hten.isText)
  have hlisted : Request.arguments ⟨"2.0", none, "eth_call_now", some (.ofString "[ 1.10 ]")⟩ =
      .ok [.ofString "1.10"] := (Request.ByPosition.listed rfl hlist).arguments
  have hnumber : Request.arguments ⟨"2.0", none, "eth_call", some (.ofString "3")⟩ =
      .error (.invalidParams "params must be an array") :=
    (Request.OutOfPlace.scalar rfl hthree (by decide)).arguments
  have hnull : Request.arguments ⟨"2.0", none, "net_version", some .null⟩ = .ok [] :=
    (Request.ByPosition.null rfl).arguments
  have hresults : (classifyAll { timeoutMs := 5 } mixed).1 =
      [.ok ⟨1, 5, ⟨7, []⟩, ⟨"eth", "call_now"⟩, [.ofString "1.10"]⟩,
        .error (.malformedMethod "version"),
        .error (.invalidParams (.invalidParams "params must be an array")),
        .ok ⟨2, 5, ⟨7, []⟩, ⟨"net", "version"⟩, []⟩] := by
    simp only [mixed, classifyAll, classify, hlisted, hnumber, hnull,
      show Method.parse "eth_call_now" = some ⟨"eth", "call_now"⟩ from rfl,
      show Method.parse "version" = none from rfl,
      show Method.parse "eth_call" = some ⟨"eth", "call"⟩ from rfl,
      show Method.parse "net_version" = some ⟨"net", "version"⟩ from rfl]
  have htext : ∀ r ∈ mixed, r.1.Textual := by
    simp only [mixed, List.forall_mem_cons, Request.Textual, Option.some.injEq, forall_eq']
    exact ⟨hlist.isText, hthree.isText, hthree.isText, Raw.isText_null, fun _ h => by cases h⟩
  obtain ⟨-, hat, -⟩ := classified_in_order 5 mixed htext (by decide)
  rw [hresults] at hat ⊢
  obtain ⟨hnumber, -, hname, -⟩ := (hat 3 _ _ _ rfl rfl).2.1 _ rfl
  exact ⟨_, rfl, hnumber, hname, rfl⟩

end Classifier
end Switchboard
