import Switchboard.Json.Lexeme

/-! Skimming: passing over one JSON value without taking it apart.

`skim` stops right behind the value, at any nesting depth; the open lists and
objects are held in a stack of their own. `split` cuts a list into the texts of
its elements, each without the blanks around it, and `document` skims a text
that must hold nothing else. -/
namespace Switchboard.Json

/-- A list or an object that is still open. -/
inductive Frame where
  | list
  | object
  deriving DecidableEq, Repr

/-- A member's key and colon, after the brace or the comma before it. -/
def skimKey (width : Char → Nat) (s : List Char) : Except Halt (List Char) :=
  match skipBlank s with
  | [] => .error (.before .endInObject [])
  | '"' :: r =>
    match skimString width r with
    | .error h => .error h
    | .ok t =>
      match skipBlank t with
      | [] => .error (.before .endInObject [])
      | ':' :: r => .ok r
      | r => .error (.looking .expectedColon r)
  | r => .error (.looking .keyNotString r)

theorem skimKey_length_lt {width : Char → Nat} {s r : List Char} (h : skimKey width s = .ok r) :
    r.length < s.length := by
  unfold skimKey at h
  have hs := skipBlank_length_le s
  split at h
  · simp at h
  · rename_i u hu
    rw [hu] at hs
    split at h
    · simp at h
    · rename_i t ht
      have := skimString_length_lt ht
      have := skipBlank_length_le t
      split at h
      · simp at h
      · rename_i v hv
        rw [hv] at this
        simp only [Except.ok.injEq] at h
        subst h
        simp at *; omega
      · simp at h
  · simp at h

/-- A value that holds no other: what follows its first character `c`. -/
def skimScalar (width : Char → Nat) (c : Char) (r : List Char) : Except Halt (List Char) :=
  match c with
  | 'n' => literal ['u', 'l', 'l'] r
  | 't' => literal ['r', 'u', 'e'] r
  | 'f' => literal ['a', 'l', 's', 'e'] r
  | '-' => skimNumber r
  | '"' => skimString width r
  | c => if isDigit c then skimNumber (c :: r) else .error (.looking .expectedValue (c :: r))

theorem skimScalar_length_le {width : Char → Nat} {c : Char} {s r : List Char}
    (h : skimScalar width c s = .ok r) : r.length ≤ s.length := by
  unfold skimScalar at h
  split at h
  · exact literal_length_le h
  · exact literal_length_le h
  · exact literal_length_le h
  · have := skimNumber_length_lt h; omega
  · have := skimString_length_lt h; omega
  · split at h
    · have := skimNumber_length_lt h; simp at this; omega
    · simp at h

mutual

/-- One value, inside the open `stack`, and everything up to the end of the
outermost list or object. -/
def skimValue (width : Char → Nat) (stack : List Frame) (s : List Char) :
    Except Halt (List Char) :=
  match _hs : skipBlank s with
  | [] => .error (.before .endInValue [])
  | '[' :: r =>
    match _hr : skipBlank r with
    | [] => .error (.before .endInList [])
    | ']' :: t => skimAfter width stack t
    | t => skimValue width (.list :: stack) t
  | '\x7b' :: r =>
    match _hr : skipBlank r with
    | [] => .error (.before .endInObject [])
    | '\x7d' :: t => skimAfter width stack t
    | t =>
      match _hk : skimKey width t with
      | .error h => .error h
      | .ok v => skimValue width (.object :: stack) v
  | c :: r =>
    match _hc : skimScalar width c r with
    | .error h => .error h
    | .ok t => skimAfter width stack t
termination_by s.length
decreasing_by
  all_goals
    have h1 := skipBlank_length_le s
    rw [_hs] at h1
  · have h2 := skipBlank_length_le r
    rw [_hr] at h2
    simp at h1 h2; omega
  · have h2 := skipBlank_length_le r
    rw [_hr] at h2
    simp at h1; omega
  · have h2 := skipBlank_length_le r
    rw [_hr] at h2
    simp at h1 h2; omega
  · have h2 := skipBlank_length_le r
    rw [_hr] at h2
    have h3 := skimKey_length_lt _hk
    simp at h1; omega
  · have h2 := skimScalar_length_le _hc
    simp at h1; omega

/-- What follows a value inside the open `stack`. -/
def skimAfter (width : Char → Nat) (stack : List Frame) (s : List Char) :
    Except Halt (List Char) :=
  match stack with
  | [] => .ok s
  | .list :: stack =>
    match _hs : skipBlank s with
    | [] => .error (.before .endInList [])
    | ',' :: r => skimValue width (.list :: stack) r
    | ']' :: r => skimAfter width stack r
    | r => .error (.looking .expectedListEnd r)
  | .object :: stack =>
    match _hs : skipBlank s with
    | [] => .error (.before .endInObject [])
    | ',' :: r =>
      match _hk : skimKey width r with
      | .error h => .error h
      | .ok v => skimValue width (.object :: stack) v
    | '\x7d' :: r => skimAfter width stack r
    | r => .error (.looking .expectedObjectEnd r)
termination_by s.length
decreasing_by
  all_goals
    have h1 := skipBlank_length_le s
    rw [_hs] at h1
  · simp at h1; omega
  · simp at h1; omega
  · have h3 := skimKey_length_lt _hk
    simp at h1; omega
  · simp at h1; omega

end

/-- A value takes at least one character, and what follows a value gives nothing back,
shown together for texts of at most `n` characters. -/
theorem skim_lengths (width : Char → Nat) (n : Nat) :
    (∀ stack s r, s.length ≤ n → skimValue width stack s = .ok r → r.length < s.length) ∧
    (∀ stack s r, s.length ≤ n → skimAfter width stack s = .ok r → r.length ≤ s.length) := by
  induction n using Nat.strongRecOn with
  | ind n ih =>
    refine ⟨fun stack s r hn h => ?_, fun stack s r hn h => ?_⟩
    · have h1 := skipBlank_length_le s
      rw [skimValue] at h
      split at h
      · simp at h
      · rename_i t hs
        have h2 := skipBlank_length_le t
        simp only [hs, List.length_cons] at h1
        split at h
        · simp at h
        · rename_i u hu
          simp only [hu, List.length_cons] at h2
          have := (ih u.length (by omega)).2 _ _ _ (Nat.le_refl _) h
          omega
        · have := (ih (skipBlank t).length (by omega)).1 _ _ _ (Nat.le_refl _) h
          omega
      · rename_i t hs
        have h2 := skipBlank_length_le t
        simp only [hs, List.length_cons] at h1
        split at h
        · simp at h
        · rename_i u hu
          simp only [hu, List.length_cons] at h2
          have := (ih u.length (by omega)).2 _ _ _ (Nat.le_refl _) h
          omega
        · split at h
          · simp at h
          · rename_i v hv
            have h3 := skimKey_length_lt hv
            have := (ih v.length (by omega)).1 _ _ _ (Nat.le_refl _) h
            omega
      · rename_i c t _ _ hs
        simp only [hs, List.length_cons] at h1
        split at h
        · simp at h
        · rename_i v hv
          have h2 := skimScalar_length_le hv
          have := (ih v.length (by omega)).2 _ _ _ (Nat.le_refl _) h
          omega
    · have h1 := skipBlank_length_le s
      rw [skimAfter.eq_def] at h
      split at h
      · simp only [Except.ok.injEq] at h; simp [h]
      · split at h
        · simp at h
        · rename_i u hu
          simp only [hu, List.length_cons] at h1
          have := (ih u.length (by omega)).1 _ _ _ (Nat.le_refl _) h
          omega
        · rename_i u hu
          simp only [hu, List.length_cons] at h1
          have := (ih u.length (by omega)).2 _ _ _ (Nat.le_refl _) h
          omega
        · simp at h
      · split at h
        · simp at h
        · rename_i u hu
          simp only [hu, List.length_cons] at h1
          split at h
          · simp at h
          · rename_i v hv
            have h3 := skimKey_length_lt hv
            have := (ih v.length (by omega)).1 _ _ _ (Nat.le_refl _) h
            omega
        · rename_i u hu
          simp only [hu, List.length_cons] at h1
          have := (ih u.length (by omega)).2 _ _ _ (Nat.le_refl _) h
          omega
        · simp at h

/-- One value, and the blanks before it. -/
def skim (width : Char → Nat) (s : List Char) : Except Halt (List Char) := skimValue width [] s

theorem skim_length_lt {width : Char → Nat} {s r : List Char} (h : skim width s = .ok r) :
    r.length < s.length := (skim_lengths width s.length).1 _ _ _ (Nat.le_refl _) h

/-- One value's own text, and what follows it. -/
def skimText (width : Char → Nat) (s : List Char) : Except Halt (List Char × List Char) :=
  let own := skipBlank s
  match skim width own with
  | .ok r => .ok (own.take (own.length - r.length), r)
  | .error h => .error h

theorem skimText_length_lt {width : Char → Nat} {s t r : List Char}
    (h : skimText width s = .ok (t, r)) : r.length < s.length := by
  have := skipBlank_length_le s
  simp only [skimText] at h
  split at h
  · rename_i hr
    simp only [Except.ok.injEq, Prod.mk.injEq] at h
    have := skim_length_lt hr
    rw [h.2] at this
    omega
  · simp at h

/-- A list's elements after the first, and everything up to its end. -/
def splitMore (width : Char → Nat) (done : List (List Char)) (s : List Char) :
    Except Halt (List (List Char) × List Char) :=
  match _hs : skipBlank s with
  | [] => .error (.before .endInList [])
  | ']' :: r => .ok (done.reverse, r)
  | ',' :: r =>
    match skipBlank r with
    | [] => .error (.before .endInValue [])
    | ']' :: t => .error (.looking .trailingComma (']' :: t))
    | _ =>
      match _ht : skimText width r with
      | .ok (t, rest) => splitMore width (t :: done) rest
      | .error h => .error h
  | r => .error (.looking .expectedListEnd r)
termination_by s.length
decreasing_by
  have h1 := skipBlank_length_le s
  rw [_hs] at h1
  have h2 := skimText_length_lt _ht
  simp at h1; omega

/-- The texts of a list's elements, and what follows the list, after its opening
bracket. -/
def splitList (width : Char → Nat) (s : List Char) :
    Except Halt (List (List Char) × List Char) :=
  match skipBlank s with
  | [] => .error (.before .endInList [])
  | ']' :: r => .ok ([], r)
  | r =>
    match skimText width r with
    | .ok (t, rest) => splitMore width [t] rest
    | .error h => .error h

end Switchboard.Json
