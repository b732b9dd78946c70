import Switchboard.Json.Reader

/-! Structures read from JSON.

A `Plan` lists a structure's members in their order, with a reader for each. A
structure may be spelt as an object, in any order and with members it does not
know, which are passed over, or as a list of its members in their own order. A
member that may be left out may be left out of both, at the end of a list.

What is missing, doubled or too short is noticed where the structure ends: such a
complaint is placed behind the closing bracket, or where that bracket should
have been (`settleObject`, `settleList`). -/
namespace Switchboard.Json

/-- One member of a structure whose reading builds up a draft `δ`. -/
structure Member (δ : Type) where
  name : String
  /-- Whether the structure is complete without it. -/
  optional : Bool
  seen : δ → Bool
  /-- Reads the member's value and notes it in a draft. -/
  value : Reader (δ → δ)

/-- How a structure `α` is read. -/
structure Plan (δ α : Type) where
  name : String
  members : List (Member δ)
  empty : δ
  /-- The structure, when no member it needs is missing from the draft. -/
  finish : δ → Option α

namespace Plan
variable {δ α : Type} (P : Plan δ α)

def shape : Shape := ⟨P.name, P.members.length⟩

/-- Place and name of the first member that is needed and missing. -/
def firstMissing (draft : δ) : Nat × String :=
  let missing := fun m : Member δ => !m.optional && !m.seen draft
  (P.members.findIdx missing, ((P.members.find? missing).map Member.name).getD "")

/-! ### As an object -/

/-- The colon before a member's value. -/
def colon (s : List Char) : Except Halt (List Char) :=
  match skipBlank s with
  | [] => .error (.before .endInObject [])
  | ':' :: r => .ok r
  | r => .error (.looking .expectedColon r)

theorem colon_length_lt {s r : List Char} (h : colon s = .ok r) : r.length < s.length := by
  have h1 := skipBlank_length_le s
  unfold colon at h
  split at h
  · simp at h
  · rename_i t ht
    simp only [ht, List.length_cons] at h1
    simp only [Except.ok.injEq] at h
    rw [← h]
    omega
  · simp at h

/-- The value of the member `name` and the colon before it. One that is not in the plan
is passed over, one that was there before is refused. -/
def readMember (width : Char → Nat) (draft : δ) (name : String) (s : List Char) :
    Except Stop (δ × List Char) :=
  match P.members.find? (fun m => m.name == name) with
  | none =>
    match colon s with
    | .error halt => .error (.placed halt)
    | .ok t =>
      match skim width t with
      | .error halt => .error (.placed halt)
      | .ok r => .ok (draft, r)
  | some m =>
    if m.seen draft then .error (.unplaced (.duplicateMember name) s)
    else
      match colon s with
      | .error halt => .error (.placed halt)
      | .ok t =>
        match m.value.run t with
        | .error stop => .error stop
        | .ok (note, r) => .ok (note draft, r)

theorem readMember_length_le {width : Char → Nat} {draft d : δ} {name : String} {s r : List Char}
    (h : P.readMember width draft name s = .ok (d, r)) : r.length ≤ s.length := by
  unfold readMember at h
  split at h
  · split at h
    · simp at h
    · rename_i t ht
      have h1 := colon_length_lt ht
      split at h
      · simp at h
      · rename_i u hu
        have h2 := skim_length_lt hu
        simp only [Except.ok.injEq, Prod.mk.injEq] at h
        rw [← h.2]
        omega
  · rename_i m _
    split at h
    · simp at h
    · split at h
      · simp at h
      · rename_i t ht
        have h1 := colon_length_lt ht
        split at h
        · simp at h
        · rename_i note u hu
          have h2 := m.value.shrinks hu
          simp only [Except.ok.injEq, Prod.mk.injEq] at h
          rw [← h.2]
          omega

/-- The members of an object up to its closing brace, the first one's opening quote
having been seen. -/
def readMembers (width : Char → Nat) (draft : δ) (s : List Char) : Except Stop (δ × List Char) :=
  match _hn : readText width s with
  | .error halt => .error (.placed halt)
  | .ok (name, t) =>
    match _hm : P.readMember width draft name t with
    | .error stop => .error stop
    | .ok (draft, u) =>
      match _hu : skipBlank u with
      | [] => .error (.placed (.before .endInObject []))
      | '\x7d' :: r => .ok (draft, '\x7d' :: r)
      | ',' :: r =>
        match _hr : skipBlank r with
        | [] => .error (.placed (.before .endInValue []))
        | '\x7d' :: v => .error (.placed (.looking .trailingComma ('\x7d' :: v)))
        | '"' :: v => readMembers width draft v
        | v => .error (.placed (.looking .keyNotString v))
      | r => .error (.placed (.looking .expectedObjectEnd r))
termination_by s.length
decreasing_by
  have h1 := readText_length_lt _hn
  have h2 := P.readMember_length_le _hm
  have h3 := skipBlank_length_le u
  have h4 := skipBlank_length_le r
  simp only [_hu, List.length_cons] at h3
  simp only [_hr, List.length_cons] at h4
  omega

/-- All members of an object, after its opening brace. -/
def readObject (width : Char → Nat) (s : List Char) : Except Stop (α × List Char) :=
  let members : Except Stop (δ × List Char) :=
    match skipBlank s with
    | [] => .error (.placed (.before .endInObject []))
    | '\x7d' :: r => .ok (P.empty, '\x7d' :: r)
    | '"' :: r => P.readMembers width P.empty r
    | r => .error (.placed (.looking .keyNotString r))
  match members with
  | .error stop => .error stop
  | .ok (draft, r) =>
    match P.finish draft with
    | some a => .ok (a, r)
    | none => .error (.unplaced (.missingMember (P.firstMissing draft).2) r)

/-- Where a complaint about an object is placed. -/
def settleObject (cause : Cause) (s : List Char) : Halt :=
  match skipBlank s with
  | '\x7d' :: r => .before cause r
  | r => .before cause r

/-! ### As a list -/

/-- The members of a list in their order, as far as it goes. -/
def readFields (members : List (Member δ)) (first : Bool) (draft : δ) (s : List Char) :
    Except Stop (δ × List Char) :=
  match members with
  | [] => .ok (draft, s)
  | m :: rest =>
    match skipBlank s with
    | [] => .error (.placed (.before .endInList []))
    | ']' :: r => .ok (draft, ']' :: r)
    | t =>
      if first then
        match m.value.run t with
        | .error stop => .error stop
        | .ok (note, r) => readFields rest false (note draft) r
      else
        match t with
        | ',' :: r =>
          match skipBlank r with
          | [] => .error (.placed (.before .endInValue []))
          | ']' :: v => .error (.placed (.looking .trailingComma (']' :: v)))
          | v =>
            match m.value.run v with
            | .error stop => .error stop
            | .ok (note, r) => readFields rest false (note draft) r
        | r => .error (.placed (.looking .expectedListEnd r))

/-- All members of a list, after its opening bracket. -/
def readList (s : List Char) : Except Stop (α × List Char) :=
  match readFields P.members true P.empty s with
  | .error stop => .error stop
  | .ok (draft, r) =>
    match P.finish draft with
    | some a => .ok (a, r)
    | none => .error (.unplaced (.tooShort (P.firstMissing draft).1 P.shape) r)

/-- Where a complaint about a list is placed. -/
def settleList (cause : Cause) (s : List Char) : Halt :=
  match skipBlank s with
  | ']' :: r => .before cause r
  | ',' :: r => .before cause (skipBlank r)
  | r => .before cause r

/-- The end of a list that was read. -/
def closeList (s : List Char) : Except Halt (List Char) :=
  match skipBlank s with
  | ']' :: r => .ok r
  | [] => .error (.before .endInList [])
  | ',' :: r =>
    match skipBlank r with
    | [] => .error (.before .endInList [])
    | ']' :: t => .error (.looking .trailingComma (']' :: t))
    | t => .error (.looking .trailingCharacters t)
  | r => .error (.looking .trailingCharacters r)

/-! ### Either way -/

/-- What was read inside brackets, with its end. -/
def bracketed (inner : Except Stop (α × List Char)) (settle : Cause → List Char → Halt)
    (close : List Char → Except Halt (List Char)) : Except Halt (α × List Char) :=
  match inner with
  | .error (.placed halt) => .error halt
  | .error (.unplaced cause r) => .error (settle cause r)
  | .ok (a, r) =>
    match close r with
    | .ok t => .ok (a, t)
    | .error halt => .error halt

/-- The structure at the front of a text. -/
def read (width : Char → Nat) (s : List Char) : Except Halt (α × List Char) :=
  match skipBlank s with
  | '[' :: r => bracketed (P.readList r) settleList closeList
  | '\x7b' :: r => bracketed (P.readObject width r) settleObject closeObject
  | t => .error (mistyped width (.record P.shape) t)

theorem readMembers_length_le {width : Char → Nat} {draft d : δ} {s r : List Char}
    (h : P.readMembers width draft s = .ok (d, r)) : r.length ≤ s.length := by
  fun_induction P.readMembers width draft s with
  | case4 draft s name t hn d' u hm v hu =>
    have h1 := readText_length_lt hn
    have h2 := P.readMember_length_le hm
    have h3 := skipBlank_length_le u
    rw [hu] at h3
    simp only [Except.ok.injEq, Prod.mk.injEq] at h
    rw [← h.2]
    omega
  | case7 draft s name t hn d' u hm v hu x hx ih =>
    have h1 := readText_length_lt hn
    have h2 := P.readMember_length_le hm
    have h3 := skipBlank_length_le u
    have h4 := skipBlank_length_le v
    have h5 := ih h
    simp only [hu, List.length_cons] at h3
    simp only [hx, List.length_cons] at h4
    omega
  | _ => simp at h

theorem readFields_length_le {members : List (Member δ)} {first : Bool} {draft d : δ}
    {s r : List Char} (h : readFields members first draft s = .ok (d, r)) :
    r.length ≤ s.length := by
  induction members generalizing first draft s with
  | nil => simp only [readFields, Except.ok.injEq, Prod.mk.injEq] at h; simp [h]
  | cons m rest ih =>
    have h1 := skipBlank_length_le s
    rw [readFields] at h
    split at h
    · simp at h
    · rename_i t ht
      rw [ht] at h1
      simp only [Except.ok.injEq, Prod.mk.injEq] at h
      rw [← h.2]
      exact h1
    · split at h
      · split at h
        · simp at h
        · rename_i note t ht
          have h2 := m.value.shrinks ht
          have h3 := ih h
          omega
      · split at h
        · rename_i t ht
          have h2 := skipBlank_length_le t
          simp only [ht, List.length_cons] at h1
          split at h
          · simp at h
          · simp at h
          · split at h
            · simp at h
            · rename_i note u hu
              have h3 := m.value.shrinks hu
              have h4 := ih h
              omega
        · simp at h

theorem readObject_length_le {width : Char → Nat} {a : α} {s r : List Char}
    (h : P.readObject width s = .ok (a, r)) : r.length ≤ s.length := by
  have h1 := skipBlank_length_le s
  unfold readObject at h
  simp only at h
  split at h
  · simp at h
  · rename_i draft t ht
    split at h
    · simp only [Except.ok.injEq, Prod.mk.injEq] at h
      rw [← h.2]
      split at ht
      · simp at ht
      · rename_i u hu
        rw [hu] at h1
        simp only [Except.ok.injEq, Prod.mk.injEq] at ht
        rw [← ht.2]
        exact h1
      · rename_i u hu
        have h2 := P.readMembers_length_le ht
        simp only [hu, List.length_cons] at h1
        omega
      · simp at ht
    · simp at h

theorem readList_length_le {a : α} {s r : List Char} (h : P.readList s = .ok (a, r)) :
    r.length ≤ s.length := by
  unfold readList at h
  split at h
  · simp at h
  · rename_i draft t ht
    split at h
    · simp only [Except.ok.injEq, Prod.mk.injEq] at h
      rw [← h.2]
      exact readFields_length_le ht
    · simp at h

theorem closeList_length_le {s r : List Char} (h : closeList s = .ok r) : r.length ≤ s.length := by
  have h1 := skipBlank_length_le s
  unfold closeList at h
  split at h
  · rename_i t ht
    simp only [ht, List.length_cons] at h1
    simp only [Except.ok.injEq] at h
    rw [← h]
    omega
  · simp at h
  · split at h <;> simp at h
  · simp at h

theorem bracketed_length_le {inner : Except Stop (α × List Char)}
    {settle : Cause → List Char → Halt} {close : List Char → Except Halt (List Char)}
    {a : α} {s r : List Char} (hi : ∀ {b t}, inner = .ok (b, t) → t.length ≤ s.length)
    (hc : ∀ {t u}, close t = .ok u → u.length ≤ t.length)
    (h : bracketed inner settle close = .ok (a, r)) : r.length ≤ s.length := by
  unfold bracketed at h
  split at h
  · simp at h
  · simp at h
  · rename_i b t _
    split at h
    · rename_i u hu
      have h1 := hi rfl
      have h2 := hc hu
      simp only [Except.ok.injEq, Prod.mk.injEq] at h
      rw [← h.2]
      omega
    · simp at h

theorem read_length_le {width : Char → Nat} {a : α} {s r : List Char}
    (h : P.read width s = .ok (a, r)) : r.length ≤ s.length := by
  have h1 := skipBlank_length_le s
  unfold read at h
  split at h
  · rename_i t ht
    have h2 := bracketed_length_le P.readList_length_le closeList_length_le h
    simp only [ht, List.length_cons] at h1
    omega
  · rename_i t ht
    have h2 := bracketed_length_le P.readObject_length_le
      (fun h => Nat.le_of_lt (closeObject_length_lt h)) h
    simp only [ht, List.length_cons] at h1
    omega
  · simp at h

/-- The structure, as part of another one or as a document. -/
def reader (width : Char → Nat) : Reader α :=
  .ofHalting (P.read width) P.read_length_le

end Plan

/-- What the reader reads, or `null` for none. -/
def Reader.orNull {α : Type} (p : Reader α) : Reader (Option α) where
  run s :=
    match skipBlank s with
    | 'n' :: r =>
      match literal ['u', 'l', 'l'] r with
      | .ok t => .ok (none, t)
      | .error halt => .error (.placed halt)
    | t =>
      match p.run t with
      | .ok (a, r) => .ok (some a, r)
      | .error stop => .error stop
  shrinks {s a r} h := by
    have h1 := skipBlank_length_le s
    split at h
    · rename_i t ht
      simp only [ht, List.length_cons] at h1
      split at h
      · rename_i u hu
        have h2 := literal_length_le hu
        simp only [Except.ok.injEq, Prod.mk.injEq] at h
        rw [← h.2]
        omega
      · simp at h
    · split at h
      · rename_i b u hu
        have h2 := p.shrinks hu
        simp only [Except.ok.injEq, Prod.mk.injEq] at h
        rw [← h.2]
        omega
      · simp at h

end Switchboard.Json
