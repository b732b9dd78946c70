import Switchboard.Json.Skim
import Switchboard.Json.Value

/-! Reading one JSON value.

`decode` builds the value that `skim` only passes over. It is stricter: at most
127 lists and objects may be open at once, counting those around the value,
numbers must fit binary64, and surrogates must come in pairs. What is still open
is held in a stack, so the nesting of a text never becomes nesting of calls.

An object whose first member bears one certain name is a wrapper (`wrapperName`): it
stands for the value whose text that member holds. Not everybody who decodes wants
wrappers opened. -/
namespace Switchboard.Json

/-- How many lists and objects may be open at once. -/
def depthLimit : Nat := 127

/-- A list that is still open, with its elements so far in reverse, or an object that
is still open, with its members so far and the name of the one being read. -/
inductive Building where
  | list (done : List Value)
  | object (done : List (String × Value)) (name : String)

/-- A string read to its end, as text. -/
def readText (width : Char → Nat) (s : List Char) : Except Halt (String × List Char) :=
  match readString width [] s with
  | .ok (cs, r) => .ok (String.ofList cs, r)
  | .error h => .error h

/-- What a string is read as is not longer than its spelling. -/
theorem readString_lengths {width : Char → Nat} {done s cs r : List Char}
    (h : readString width done s = .ok (cs, r)) :
    cs.length + r.length < done.length + s.length := by
  fun_induction readString width done s with
  | case2 done r =>
    cases h
    simp
  | _ => simp_all <;> omega

theorem readText_lengths {width : Char → Nat} {s r : List Char} {t : String}
    (h : readText width s = .ok (t, r)) : t.toList.length + r.length < s.length := by
  unfold readText at h
  split at h
  · rename_i hr
    cases h
    have := readString_lengths hr
    rw [String.toList_ofList]
    simpa using this
  · simp at h

theorem readText_length_lt {width : Char → Nat} {s r : List Char} {t : String}
    (h : readText width s = .ok (t, r)) : r.length < s.length := by
  have := readText_lengths h
  omega

/-- A member's name and colon, where its opening quote has been seen. -/
def readName (width : Char → Nat) (s : List Char) : Except Halt (String × List Char) :=
  match readText width s with
  | .error h => .error h
  | .ok (name, t) =>
    match skipBlank t with
    | [] => .error (.before .endInObject [])
    | ':' :: r => .ok (name, r)
    | r => .error (.looking .expectedColon r)

theorem readName_length_lt {width : Char → Nat} {s r : List Char} {t : String}
    (h : readName width s = .ok (t, r)) : r.length < s.length := by
  unfold readName at h
  split at h
  · simp at h
  · rename_i n u hu
    have h1 := readText_length_lt hu
    have h2 := skipBlank_length_le u
    split at h
    · simp at h
    · rename_i v hv
      simp only [hv, List.length_cons] at h2
      simp only [Except.ok.injEq, Prod.mk.injEq] at h
      rw [← h.2]
      omega
    · simp at h

/-- A value that holds no other: what follows its first character `c`. -/
def readScalar (width : Char → Nat) (c : Char) (r : List Char) :
    Except Halt (Value × List Char) :=
  match c with
  | 'n' => (literal ['u', 'l', 'l'] r).map (.null, ·)
  | 't' => (literal ['r', 'u', 'e'] r).map (.bool true, ·)
  | 'f' => (literal ['a', 'l', 's', 'e'] r).map (.bool false, ·)
  | '-' => (readNumber true r).map fun (n, r) => (.number n, r)
  | '"' => (readText width r).map fun (t, r) => (.string t, r)
  | c =>
    if isDigit c then (readNumber false (c :: r)).map fun (n, r) => (.number n, r)
    else .error (.looking .expectedValue (c :: r))

theorem readScalar_length_le {width : Char → Nat} {c : Char} {s r : List Char} {v : Value}
    (h : readScalar width c s = .ok (v, r)) : r.length ≤ s.length := by
  have lit : ∀ (word : List Char) (w : Value),
      (literal word s).map (w, ·) = .ok (v, r) → r.length ≤ s.length := by
    intro word w hw
    cases hl : literal word s with
    | error e => simp [hl, Except.map] at hw
    | ok t =>
      simp only [hl, Except.map, Except.ok.injEq, Prod.mk.injEq] at hw
      rw [← hw.2]
      exact literal_length_le hl
  have num : ∀ (negative : Bool) (u : List Char) (k : Nat), u.length ≤ s.length + k →
      ((readNumber negative u).map fun (n, r) => (Value.number n, r)) = .ok (v, r) →
        r.length < s.length + k := by
    intro negative u k hu hn
    cases hl : readNumber negative u with
    | error e => simp [hl, Except.map] at hn
    | ok t =>
      obtain ⟨m, t⟩ := t
      simp only [hl, Except.map, Except.ok.injEq, Prod.mk.injEq] at hn
      have := readNumber_length_lt hl
      rw [← hn.2]
      omega
  unfold readScalar at h
  split at h
  · exact lit _ _ h
  · exact lit _ _ h
  · exact lit _ _ h
  · have := num true s 0 (by omega) h; omega
  · cases hl : readText width s with
    | error e => simp [hl, Except.map] at h
    | ok t =>
      obtain ⟨t, u⟩ := t
      simp only [hl, Except.map, Except.ok.injEq, Prod.mk.injEq] at h
      have := readText_length_lt hl
      rw [← h.2]
      omega
  · split at h
    · have := num false (_ :: s) 1 (by simp) h; omega
    · simp at h

/-! ### Values of the wrong kind -/

/-- What a value that was not wanted is called. -/
def found : Value → Found
  | .null => .null
  | .bool b => .boolean b
  | .number n => .number n
  | .string s => .string s
  | .array _ => .sequence
  | .object _ => .map

/-- The refusal of the value at the front of `s`. A scalar is read to its end first; a
list or an object is refused at its opening bracket. -/
def mistyped (width : Char → Nat) (wanted : Wanted) (s : List Char) : Halt :=
  match s with
  | [] => .before .endInValue []
  | '[' :: r => .before (.wrongType .sequence wanted) ('[' :: r)
  | '\x7b' :: r => .before (.wrongType .map wanted) ('\x7b' :: r)
  | c :: r =>
    match readScalar width c r with
    | .ok (v, t) => .before (.wrongType (found v) wanted) t
    | .error halt => halt

/-- A string, where one is wanted. -/
def readString? (width : Char → Nat) (wanted : Wanted) (s : List Char) :
    Except Halt (String × List Char) :=
  match skipBlank s with
  | '"' :: r => readText width r
  | t => .error (mistyped width wanted t)

theorem readString?_lengths {width : Char → Nat} {wanted : Wanted} {s r : List Char} {t : String}
    (h : readString? width wanted s = .ok (t, r)) : t.toList.length + r.length < s.length := by
  unfold readString? at h
  have h1 := skipBlank_length_le s
  split at h
  · rename_i u hu
    have h2 := readText_lengths h
    simp only [hu, List.length_cons] at h1
    omega
  · simp at h

theorem readString?_length_lt {width : Char → Nat} {wanted : Wanted} {s r : List Char} {t : String}
    (h : readString? width wanted s = .ok (t, r)) : r.length < s.length := by
  have := readString?_lengths h
  omega

/-! ### Wrappers -/

/-- The name of the member that makes an object a wrapper. -/
def wrapperName : String := "$serde_json::private::RawValue"

/-- The end of an object that may have no more members. -/
def closeObject (s : List Char) : Except Halt (List Char) :=
  match skipBlank s with
  | '\x7d' :: r => .ok r
  | [] => .error (.before .endInObject [])
  | ',' :: r => .error (.looking .trailingComma (',' :: r))
  | r => .error (.looking .trailingCharacters r)

theorem closeObject_length_lt {s r : List Char} (h : closeObject s = .ok r) :
    r.length < s.length := by
  have h1 := skipBlank_length_le s
  unfold closeObject at h
  split at h <;> cases h
  rename_i hs
  rw [hs, List.length_cons] at h1
  omega

/-- The value that was read from a whole text, behind which only blanks may be left. -/
def wholly {α : Type} (read : Except Halt (α × List Char)) : Except Halt α :=
  match read with
  | .error h => .error h
  | .ok (a, r) =>
    match skipBlank r with
    | [] => .ok a
    | t => .error (.looking .trailingCharacters t)

/-! ### Values -/

/-- Whether one more list or object may be opened, `outer` being open around the
value and `stack` inside it. -/
def mayOpen (outer : Nat) (stack : List Building) : Bool :=
  outer + stack.length < depthLimit

mutual

/-- One value, inside the open `stack`, and everything up to the end of the
outermost list or object. If `unwraps`, wrappers are opened; what is in one is a text of
its own, so nothing is open around its value. -/
def decodeValue (width : Char → Nat) (unwraps : Bool) (outer : Nat) (stack : List Building)
    (s : List Char) : Except Halt (Value × List Char) :=
  match _hs : skipBlank s with
  | [] => .error (.before .endInValue [])
  | '[' :: r =>
    if mayOpen outer stack then
      match _hr : skipBlank r with
      | [] => .error (.before .endInList [])
      | ']' :: t => decodeAfter width unwraps outer (.array []) stack t
      | t => decodeValue width unwraps outer (.list [] :: stack) t
    else .error (.looking .tooDeep ('[' :: r))
  | '\x7b' :: r =>
    if mayOpen outer stack then
      match _hr : skipBlank r with
      | [] => .error (.before .endInObject [])
      | '\x7d' :: t => decodeAfter width unwraps outer (.object []) stack t
      | '"' :: t =>
        match _hk : readName width t with
        | .error h => .error h
        | .ok (name, v) =>
          if unwraps && name == wrapperName then
            match _hw : readString? width .wrapped v with
            | .error h => .error h
            | .ok (text, w) =>
              match wholly (decodeValue Char.utf8Size true 0 [] text.toList) with
              | .error h => .error (h.within Char.utf8Size text.toList w)
              | .ok x =>
                match _hz : closeObject w with
                | .error h => .error h
                | .ok z => decodeAfter width unwraps outer x stack z
          else decodeValue width unwraps outer (.object [] name :: stack) v
      | t => .error (.looking .keyNotString t)
    else .error (.looking .tooDeep ('\x7b' :: r))
  | c :: r =>
    match _hc : readScalar width c r with
    | .error h => .error h
    | .ok (v, t) => decodeAfter width unwraps outer v stack t
termination_by s.length
decreasing_by
  all_goals
    have h1 := skipBlank_length_le s
    simp only [_hs, List.length_cons] at h1
  · have h2 := skipBlank_length_le r
    simp only [_hr, List.length_cons] at h2
    omega
  · have h2 := skipBlank_length_le r
    rw [_hr] at h2
    omega
  · have h2 := skipBlank_length_le r
    simp only [_hr, List.length_cons] at h2
    omega
  · have h2 := skipBlank_length_le r
    simp only [_hr, List.length_cons] at h2
    have h3 := readName_length_lt _hk
    have h4 := readString?_lengths _hw
    omega
  · have h2 := skipBlank_length_le r
    simp only [_hr, List.length_cons] at h2
    have h3 := readName_length_lt _hk
    have h4 := readString?_length_lt _hw
    have h5 := closeObject_length_lt _hz
    omega
  · have h2 := skipBlank_length_le r
    simp only [_hr, List.length_cons] at h2
    have h3 := readName_length_lt _hk
    omega
  · have h2 := readScalar_length_le _hc
    omega

/-- What follows the finished value `v` inside the open `stack`. -/
def decodeAfter (width : Char → Nat) (unwraps : Bool) (outer : Nat) (v : Value)
    (stack : List Building) (s : List Char) : Except Halt (Value × List Char) :=
  match stack with
  | [] => .ok (v, s)
  | .list done :: stack =>
    match _hs : skipBlank s with
    | [] => .error (.before .endInList [])
    | ']' :: r => decodeAfter width unwraps outer (.array (v :: done).reverse) stack r
    | ',' :: r =>
      match _hr : skipBlank r with
      | [] => .error (.before .endInValue [])
      | ']' :: t => .error (.looking .trailingComma (']' :: t))
      | t => decodeValue width unwraps outer (.list (v :: done) :: stack) t
    | r => .error (.looking .expectedListEnd r)
  | .object done name :: stack =>
    match _hs : skipBlank s with
    | [] => .error (.before .endInObject [])
    | '\x7d' :: r => decodeAfter width unwraps outer (.object (put name v done)) stack r
    | ',' :: r =>
      match _hr : skipBlank r with
      | [] => .error (.before .endInValue [])
      | '\x7d' :: t => .error (.looking .trailingComma ('\x7d' :: t))
      | '"' :: t =>
        match _hk : readName width t with
        | .error h => .error h
        | .ok (next, u) =>
          decodeValue width unwraps outer (.object (put name v done) next :: stack) u
      | t => .error (.looking .keyNotString t)
    | r => .error (.looking .expectedObjectEnd r)
termination_by s.length
decreasing_by
  all_goals
    have h1 := skipBlank_length_le s
    simp only [_hs, List.length_cons] at h1
  · omega
  · have h2 := skipBlank_length_le r
    rw [_hr] at h2
    omega
  · omega
  · have h2 := skipBlank_length_le r
    simp only [_hr, List.length_cons] at h2
    have h3 := readName_length_lt _hk
    omega

end

/-- One value, and the blanks before it, inside `outer` open lists and objects. -/
def decode (width : Char → Nat) (unwraps : Bool) (outer : Nat) (s : List Char) :
    Except Halt (Value × List Char) :=
  decodeValue width unwraps outer [] s

/-- The value whose text a wrapper holds. -/
def unwrap (text : String) : Except Halt Value := wholly (decode Char.utf8Size true 0 text.toList)

/-- A value takes at least one character, and what follows a value gives nothing back,
shown together for texts of at most `n` characters. -/
theorem decode_lengths (width : Char → Nat) (unwraps : Bool) (outer n : Nat) :
    (∀ stack s v r, s.length ≤ n → decodeValue width unwraps outer stack s = .ok (v, r) →
      r.length < s.length) ∧
    (∀ v stack s w r, s.length ≤ n → decodeAfter width unwraps outer v stack s = .ok (w, r) →
      r.length ≤ s.length) := by
  induction n using Nat.strongRecOn with
  | ind n ih =>
    refine ⟨fun stack s v r hn h => ?_, fun v stack s w r hn h => ?_⟩
    · have h1 := skipBlank_length_le s
      rw [decodeValue] at h
      split at h
      · simp at h
      · rename_i t hs
        have h2 := skipBlank_length_le t
        simp only [hs, List.length_cons] at h1
        split at h
        · split at h
          · simp at h
          · rename_i u hu
            simp only [hu, List.length_cons] at h2
            have := (ih u.length (by omega)).2 _ _ _ _ _ (Nat.le_refl _) h
            omega
          · have := (ih (skipBlank t).length (by omega)).1 _ _ _ _ (Nat.le_refl _) h
            omega
        · simp at h
      · rename_i t hs
        have h2 := skipBlank_length_le t
        simp only [hs, List.length_cons] at h1
        split at h
        · split at h
          · simp at h
          · rename_i u hu
            simp only [hu, List.length_cons] at h2
            have := (ih u.length (by omega)).2 _ _ _ _ _ (Nat.le_refl _) h
            omega
          · rename_i u hu
            simp only [hu, List.length_cons] at h2
            split at h
            · simp at h
            · rename_i name x hx
              have h3 := readName_length_lt hx
              split at h
              · split at h
                · simp at h
                · rename_i text w hw
                  have h4 := readString?_length_lt hw
                  split at h
                  · simp at h
                  · split at h
                    · simp at h
                    · rename_i z hz
                      have h5 := closeObject_length_lt hz
                      have := (ih z.length (by omega)).2 _ _ _ _ _ (Nat.le_refl _) h
                      omega
              · have := (ih x.length (by omega)).1 _ _ _ _ (Nat.le_refl _) h
                omega
          · simp at h
        · simp at h
      · rename_i c t _ _ hs
        simp only [hs, List.length_cons] at h1
        split at h
        · simp at h
        · rename_i x u hu
          have h2 := readScalar_length_le hu
          have := (ih u.length (by omega)).2 _ _ _ _ _ (Nat.le_refl _) h
          omega
    · have h1 := skipBlank_length_le s
      rw [decodeAfter.eq_def] at h
      split at h
      · simp only [Except.ok.injEq, Prod.mk.injEq] at h; simp [h]
      · split at h
        · simp at h
        · rename_i u hu
          simp only [hu, List.length_cons] at h1
          have := (ih u.length (by omega)).2 _ _ _ _ _ (Nat.le_refl _) h
          omega
        · rename_i u hu
          have h2 := skipBlank_length_le u
          simp only [hu, List.length_cons] at h1
          split at h
          · simp at h
          · simp at h
          · have := (ih (skipBlank u).length (by omega)).1 _ _ _ _ (Nat.le_refl _) h
            omega
        · simp at h
      · split at h
        · simp at h
        · rename_i u hu
          simp only [hu, List.length_cons] at h1
          have := (ih u.length (by omega)).2 _ _ _ _ _ (Nat.le_refl _) h
          omega
        · rename_i u hu
          have h2 := skipBlank_length_le u
          simp only [hu, List.length_cons] at h1
          split at h
          · simp at h
          · simp at h
          · rename_i x hx
            simp only [hx, List.length_cons] at h2
            split at h
            · simp at h
            · rename_i name y hy
              have h3 := readName_length_lt hy
              have := (ih y.length (by omega)).1 _ _ _ _ (Nat.le_refl _) h
              omega
          · simp at h
        · simp at h

theorem decode_length_lt {width : Char → Nat} {unwraps : Bool} {outer : Nat} {s r : List Char}
    {v : Value} (h : decode width unwraps outer s = .ok (v, r)) : r.length < s.length :=
  (decode_lengths width unwraps outer s.length).1 _ _ _ _ (Nat.le_refl _) h

end Switchboard.Json
