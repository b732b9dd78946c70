import Switchboard.Proofs.Json.Words

/-! Strings, as they may be spelt.

A string is spelt with pieces: characters that stand for themselves, escapes by letter and
escapes by number. Skimming takes every sequence of pieces (`skimString_spell`,
`skimString_pieces`). What the pieces mean (`meaning?`) takes surrogates in pairs, and reading
a string comes to its meaning or, when it has none, to a refusal (`readText_spell`). -/
namespace Switchboard.Json

/-- One piece of a string's spelling. -/
inductive Piece where
  | plain (c : Char) (hq : c ≠ '"') (hb : c ≠ '\\') (hc : ¬c.toNat < 0x20)
  | letter (e c : Char) (h : unescape e = some c)
  | unit (a b c d : Char) (n : Nat) (h : hexWord a b c d = some n)

def Piece.chars : Piece → List Char
  | .plain c _ _ _ => [c]
  | .letter e _ _ => ['\\', e]
  | .unit a b c d _ _ => ['\\', 'u', a, b, c, d]

/-- The spelling, up to and with the closing quote. -/
def spell (ps : List Piece) : List Char := ps.flatMap Piece.chars ++ ['"']

/-- The characters that the pieces stand for, when surrogates come in pairs. -/
def meaning? : List Piece → Option (List Char)
  | [] => some []
  | .plain c _ _ _ :: ps => (meaning? ps).map (c :: ·)
  | .letter _ c _ :: ps => (meaning? ps).map (c :: ·)
  | .unit _ _ _ _ n _ :: ps =>
    if isLow n then none
    else if isHigh n then
      match ps with
      | .unit _ _ _ _ m _ :: rest =>
        if isLow m then (meaning? rest).map (ofPair n m :: ·) else none
      | _ => none
    else (meaning? ps).map (Char.ofNat n :: ·)

variable {width : Char → Nat}

theorem spell_nil (u : List Char) : spell [] ++ u = '"' :: u := rfl

theorem spell_cons (p : Piece) (ps : List Piece) (u : List Char) :
    spell (p :: ps) ++ u = p.chars ++ (spell ps ++ u) := by
  simp [spell]

theorem unescape_ne_u {e c : Char} (h : unescape e = some c) : e ≠ 'u' := by
  rintro rfl
  simp [unescape] at h

/-! ### Skimming -/

theorem skimString_spell (ps : List Piece) (u : List Char) :
    skimString width (spell ps ++ u) = .ok u := by
  induction ps with
  | nil =>
    rw [spell_nil]
    simp [skimString]
  | cons p ps ih =>
    rw [spell_cons]
    cases p with
    | plain c hq hb hc =>
      rw [← ih]
      exact skimString_plain hq hb hc _
    | letter e c h =>
      have hu := unescape_ne_u h
      show skimString width ('\\' :: e :: (spell ps ++ u)) = .ok u
      rw [skimString]
      all_goals simp_all
    | unit a b c d n h =>
      show skimString width ('\\' :: 'u' :: a :: b :: c :: d :: (spell ps ++ u)) = .ok u
      simp only [skimString, h, ih]

/-- What is skimmed as a string is spelt with pieces. -/
theorem skimString_pieces {s r : List Char} (h : skimString width s = .ok r) :
    ∃ ps, s = spell ps ++ r := by
  fun_induction skimString width s with
  | case2 r' =>
    cases h
    exact ⟨[], rfl⟩
  | case4 a b c d r' n hn ih =>
    obtain ⟨ps, rfl⟩ := ih h
    exact ⟨.unit a b c d n hn :: ps, (spell_cons (.unit a b c d n hn) ps r).symm⟩
  | case7 e r' _ _ c hc ih =>
    obtain ⟨ps, rfl⟩ := ih h
    exact ⟨.letter e c hc :: ps, (spell_cons (.letter e c hc) ps r).symm⟩
  | case10 c r' hq hend _ _ hesc hc ih =>
    obtain ⟨ps, rfl⟩ := ih h
    have hb : c ≠ '\\' := by
      intro hb
      cases hr : spell ps ++ r with
      | nil => exact hend hb hr
      | cons e v => exact hesc e v hb hr
    exact ⟨.plain c hq hb hc :: ps, (spell_cons (.plain c hq hb hc) ps r).symm⟩
  | _ => cases h

/-! ### Reading -/

/-- A first half of a surrogate pair and a second one. -/
theorem readString_pair {a b c d e f g i : Char} {n m : Nat} (hn : hexWord a b c d = some n)
    (hm : hexWord e f g i = some m) (hl : isLow n = false) (hh : isHigh n = true)
    (hlow : isLow m = true) (done r : List Char) :
    readString width done ('\\' :: 'u' :: a :: b :: c :: d :: '\\' :: 'u' :: e :: f :: g :: i :: r) =
      readString width (ofPair n m :: done) r := by
  rw [readString.eq_def]
  grind

/-- A second half of a surrogate pair that no first one precedes. -/
theorem readString_low {a b c d : Char} {n : Nat} (h : hexWord a b c d = some n)
    (hl : isLow n = true) (done r : List Char) (x : List Char × List Char) :
    readString width done ('\\' :: 'u' :: a :: b :: c :: d :: r) ≠ .ok x := by
  rw [readString.eq_def]
  grind

/-- A first half of a surrogate pair that no second one follows. -/
theorem readString_high {a b c d : Char} {n : Nat} (h : hexWord a b c d = some n)
    (hl : isLow n = false) (hh : isHigh n = true) (done : List Char) {r : List Char}
    (hr : ∀ e f g i m u, r = '\\' :: 'u' :: e :: f :: g :: i :: u → hexWord e f g i = some m →
      isLow m = false) (x : List Char × List Char) :
    readString width done ('\\' :: 'u' :: a :: b :: c :: d :: r) ≠ .ok x := by
  rw [readString.eq_def]
  split
  case h_4 e f g i u heq =>
    simp only [List.cons.injEq, true_and] at heq
    obtain ⟨rfl, rfl, rfl, rfl, rfl⟩ := heq
    cases hm : hexWord e f g i with
    | none => simp [h, hl, hh]
    | some m => simp [h, hl, hh, hr e f g i m u rfl hm]
  all_goals grind

/-- The outcome of reading pieces with this meaning, `done` having been read before. -/
def ReadsAs (x : Except Halt (List Char × List Char)) (done u : List Char) :
    Option (List Char) → Prop
  | some cs => x = .ok (done.reverse ++ cs, u)
  | none => ∀ y, x ≠ .ok y

theorem ReadsAs.cons {x : Except Halt (List Char × List Char)} {done u : List Char} {c : Char}
    {o : Option (List Char)} (h : ReadsAs x (c :: done) u o) : ReadsAs x done u (o.map (c :: ·)) := by
  cases o with
  | none => exact h
  | some cs => simpa [ReadsAs] using h

/-- What the pieces mean is read, and when they mean nothing, nothing is. -/
theorem readString_spell (ps : List Piece) (done u : List Char) :
    ReadsAs (readString width done (spell ps ++ u)) done u (meaning? ps) := by
  fun_induction meaning? ps generalizing done with
  | case1 =>
    rw [spell_nil]
    simp [ReadsAs, readString]
  | case2 c hq hb hc ps ih =>
    have hstep : readString width done (spell (.plain c hq hb hc :: ps) ++ u) =
        readString width (c :: done) (spell ps ++ u) := by
      rw [spell_cons]
      exact readString_plain hq hb hc done _
    rw [hstep]
    exact (ih _).cons
  | case3 e c h ps ih =>
    have hstep : readString width done (spell (.letter e c h :: ps) ++ u) =
        readString width (c :: done) (spell ps ++ u) := by
      rw [spell_cons]
      exact readString_letter (unescape_ne_u h) h done _
    rw [hstep]
    exact (ih _).cons
  | case4 a b c d n h ps hl =>
    rw [spell_cons]
    exact readString_low h hl done _
  | case5 a b c d n h hl hh e f g i m hm rest hlow ih =>
    have hstep : readString width done (spell (.unit a b c d n h :: .unit e f g i m hm :: rest) ++ u) =
        readString width (ofPair n m :: done) (spell rest ++ u) := by
      rw [spell_cons, spell_cons]
      exact readString_pair h hm (by simpa using hl) hh hlow done _
    rw [hstep]
    exact (ih _).cons
  | case6 a b c d n h hl hh e f g i m hm rest hlow =>
    rw [spell_cons]
    refine readString_high h (by simpa using hl) hh done fun e' f' g' i' m' v hv hm' => ?_
    rw [spell_cons] at hv
    cases hv
    cases hm.symm.trans hm'
    simpa using hlow
  | case7 a b c d n h ps hl hh hnext =>
    rw [spell_cons]
    refine readString_high h (by simpa using hl) hh done fun e f g i m v hv hm => ?_
    cases ps with
    | nil => cases hv
    | cons p rest =>
      rw [spell_cons] at hv
      cases p with
      | plain c' hq hb hc => exact absurd (List.cons.inj hv).1 hb
      | letter e' c' he =>
        exact absurd (List.cons.inj (List.cons.inj hv).2).1 (unescape_ne_u he)
      | unit a' b' c' d' n' h' => exact (hnext _ _ _ _ _ _ _ rfl).elim
  | case8 a b c d n h ps hl hh ih =>
    have hstep : readString width done (spell (.unit a b c d n h :: ps) ++ u) =
        readString width (Char.ofNat n :: done) (spell ps ++ u) := by
      rw [spell_cons]
      exact readString_number h (by simpa using hl) (by simpa using hh) done _
    rw [hstep]
    exact (ih _).cons

theorem readText_spell {ps : List Piece} {cs : List Char} (h : meaning? ps = some cs)
    (u : List Char) : readText width (spell ps ++ u) = .ok (String.ofList cs, u) := by
  have hread := @readString_spell width ps [] u
  rw [h] at hread
  simp only [ReadsAs, List.reverse_nil, List.nil_append] at hread
  rw [readText, hread]

theorem readText_meaningless {ps : List Piece} (h : meaning? ps = none) (u : List Char)
    (x : String × List Char) : readText width (spell ps ++ u) ≠ .ok x := by
  have hread := @readString_spell width ps [] u
  rw [h] at hread
  unfold readText
  split
  · rename_i hr
    exact absurd hr (hread _)
  · exact fun hx => by cases hx

/-! ### Writing -/

theorem escaped_piece (c : Char) :
    ∃ p : Piece, escaped c = p.chars ∧ ∀ ps, meaning? (p :: ps) = (meaning? ps).map (c :: ·) := by
  unfold escaped
  split
  case h_8 hq hb _ _ _ _ _ =>
    split
    · rename_i hc
      refine ⟨.unit _ _ _ _ _ (hexWord_control c.toNat hc), rfl, fun ps => ?_⟩
      have hlow : isLow c.toNat = false := by
        simp only [isLow, Bool.and_eq_false_imp, decide_eq_true_eq]
        omega
      have hhigh : isHigh c.toNat = false := by
        simp only [isHigh, Bool.and_eq_false_imp, decide_eq_true_eq]
        omega
      rw [meaning?.eq_def]
      simp only [hlow, hhigh, Bool.false_eq_true, if_false, Char.ofNat_toNat]
    · rename_i hc
      exact ⟨.plain c hq hb hc, rfl, fun _ => rfl⟩
  all_goals exact ⟨.letter _ _ rfl, rfl, fun _ => rfl⟩

/-- A string that was written is spelt with pieces that mean it. -/
theorem writeString_spell (s : String) :
    ∃ ps, writeString s = '"' :: spell ps ∧ meaning? ps = some s.toList := by
  have hall (cs : List Char) :
      ∃ ps : List Piece, cs.flatMap escaped = ps.flatMap Piece.chars ∧ meaning? ps = some cs := by
    induction cs with
    | nil => exact ⟨[], rfl, rfl⟩
    | cons c cs ih =>
      obtain ⟨ps, hps, hm⟩ := ih
      obtain ⟨p, hp, hmean⟩ := escaped_piece c
      refine ⟨p :: ps, ?_, ?_⟩
      · rw [List.flatMap_cons, List.flatMap_cons, hp, hps]
      · rw [hmean, hm, Option.map_some]
  obtain ⟨ps, hps, hm⟩ := hall s.toList
  exact ⟨ps, by rw [writeString, hps]; rfl, hm⟩

end Switchboard.Json
