import Switchboard.Proofs.Json.Kept
import Switchboard.Proofs.Json.Quoting

/-! Lists and objects as they may be laid out.

Blanks may stand around every element, name and value. A value's own text is that of a scalar,
of a list of texts (`Raw.IsList`) or of an object with named texts (`Raw.IsObject`), and nothing
else is (`Raw.isText_cases`). A list is cut into the texts that it was laid out with
(`Raw.IsList.elements`). -/
namespace Switchboard.Json

variable {width : Char → Nat}

/-- Blanks and nothing else. -/
def Blank (b : List Char) : Prop := ∀ c ∈ b, isBlank c = true

theorem blank_nil : Blank [] := fun _ h => by cases h

/-- A text with the blanks around it. -/
structure Padded where
  before : List Char
  text : Raw
  after : List Char
  before_blank : Blank before
  after_blank : Blank after

def Padded.chars (p : Padded) : List Char := p.before ++ (p.text.chars ++ p.after)

/-- The text without blanks around it. -/
def Padded.bare (r : Raw) : Padded := ⟨[], r, [], blank_nil, blank_nil⟩

theorem Padded.bare_chars (r : Raw) : (bare r).chars = r.chars := List.append_nil _

/-- A member of an object, with the blanks before its name and before its colon. -/
structure Field where
  before : List Char
  name : List Piece
  gap : List Char
  value : Padded
  before_blank : Blank before
  gap_blank : Blank gap

def Field.chars (f : Field) : List Char :=
  f.before ++ '"' :: (spell f.name ++ (f.gap ++ ':' :: f.value.chars))

theorem Blank.append {b b' : List Char} (h : Blank b) (h' : Blank b') : Blank (b ++ b') :=
  fun c hc => (List.mem_append.mp hc).elim (h c) (h' c)

/-- The same with more blanks before it. -/
def Padded.behind (p : Padded) (b : List Char) (hb : Blank b) : Padded :=
  { p with before := b ++ p.before, before_blank := hb.append p.before_blank }

theorem Padded.behind_chars (p : Padded) (b : List Char) (hb : Blank b) :
    (p.behind b hb).chars = b ++ p.chars := List.append_assoc ..

/-- The same with more blanks before it. -/
def Field.behind (f : Field) (b : List Char) (hb : Blank b) : Field :=
  { f with before := b ++ f.before, before_blank := hb.append f.before_blank }

theorem Field.behind_chars (f : Field) (b : List Char) (hb : Blank b) :
    (f.behind b hb).chars = b ++ f.chars := List.append_assoc ..

namespace Raw

/-- The text of a list of these texts. -/
inductive IsList : Raw → List Raw → Prop
  | empty {b : List Char} (hb : Blank b) : IsList ⟨'[' :: (b ++ [']'])⟩ []
  | items {parts : List Padded} (hne : parts ≠ []) (h : ∀ p ∈ parts, p.text.IsText) :
      IsList ⟨writeList (parts.map Padded.chars)⟩ (parts.map Padded.text)

/-- The text of an object with these members. -/
inductive IsObject : Raw → List Field → Prop
  | empty {b : List Char} (hb : Blank b) : IsObject ⟨'\x7b' :: (b ++ ['\x7d'])⟩ []
  | members {fields : List Field} (hne : fields ≠ []) (h : ∀ f ∈ fields, f.value.text.IsText) :
      IsObject ⟨writeObject (fields.map Field.chars)⟩ fields

/-- The text of a value that holds no other. -/
def IsScalar (r : Raw) : Prop :=
  ∃ c v, r.chars = c :: v ∧ isBlank c = false ∧ c ≠ '[' ∧ c ≠ '\x7b' ∧
    skimScalar Char.utf8Size c v = .ok []

end Raw

theorem blank_split {s r : List Char} {c : Char} (h : skipBlank s = c :: r) :
    ∃ b, Blank b ∧ s = b ++ c :: r := by
  obtain ⟨b, hs, hb, -⟩ := skipBlank_cons_split h
  exact ⟨b, hb, hs⟩

/-! ### A value among others -/

/-- A value inside open lists and objects ends where it would end on its own, shown together
with what follows a value for texts of at most `n` characters. -/
theorem skim_split_upTo (width : Char → Nat) (outer : List Frame) (n : Nat) :
    (∀ stack s r, s.length ≤ n → skimValue width (stack ++ outer) s = .ok r →
      ∃ m, skimValue width stack s = .ok m ∧ skimAfter width outer m = .ok r) ∧
    (∀ stack s r, s.length ≤ n → skimAfter width (stack ++ outer) s = .ok r →
      ∃ m, skimAfter width stack s = .ok m ∧ skimAfter width outer m = .ok r) := by
  induction n using Nat.strongRecOn with
  | ind n ih =>
    have value : ∀ stack s r, s.length < n → skimValue width (stack ++ outer) s = .ok r →
        ∃ m, skimValue width stack s = .ok m ∧ skimAfter width outer m = .ok r :=
      fun stack s r hn => (ih s.length hn).1 stack s r (Nat.le_refl _)
    have after : ∀ stack s r, s.length < n → skimAfter width (stack ++ outer) s = .ok r →
        ∃ m, skimAfter width stack s = .ok m ∧ skimAfter width outer m = .ok r :=
      fun stack s r hn => (ih s.length hn).2 stack s r (Nat.le_refl _)
    refine ⟨fun stack s r hn h => ?_, fun stack s r hn h => ?_⟩
    · have h1 := skipBlank_length_le s
      rcases skimValue_cases h with ⟨v, t, hs, hv, ht⟩ | ⟨v, c, t, hs, hv, hc, ht⟩ |
        ⟨v, t, hs, hv, ht⟩ | ⟨v, c, t, k, hs, hv, hc, hk, ht⟩ | ⟨c, v, t, hs, hl, ho, hc, ht⟩
      all_goals rw [hs, List.length_cons] at h1
      · have h2 := skipBlank_length_le v
        rw [hv, List.length_cons] at h2
        rw [skimValue_emptyList hs hv]
        exact after _ _ _ (by omega) ht
      · have h2 := skipBlank_length_le v
        rw [hv] at h2
        rw [skimValue_list hs hv hc]
        exact value (.list :: stack) _ _ (by omega) ht
      · have h2 := skipBlank_length_le v
        rw [hv, List.length_cons] at h2
        rw [skimValue_emptyObject hs hv]
        exact after _ _ _ (by omega) ht
      · have h2 := skipBlank_length_le v
        have h3 := skimKey_length_lt hk
        rw [hv] at h2
        rw [skimValue_object hs hv hc hk]
        exact value (.object :: stack) _ _ (by omega) ht
      · have h2 := skimScalar_length_le hc
        rw [skimValue_scalar hs hl ho hc]
        exact after _ _ _ (by omega) ht
    · have h1 := skipBlank_length_le s
      cases stack with
      | nil => exact ⟨s, skimAfter_nil s, h⟩
      | cons f stack =>
        rcases skimAfter_cases h with ⟨he, _⟩ | ⟨rest, v, he, hs, ht⟩ | ⟨rest, v, he, hs, ht⟩ |
          ⟨rest, v, k, he, hs, hk, ht⟩ | ⟨rest, v, he, hs, ht⟩
        · cases he
        all_goals
          cases he
          rw [hs, List.length_cons] at h1
        · rw [skimAfter_nextElement hs]
          exact value (.list :: stack) _ _ (by omega) ht
        · rw [skimAfter_endList hs]
          exact after _ _ _ (by omega) ht
        · have h2 := skimKey_length_lt hk
          rw [skimAfter_nextMember hs hk]
          exact value (.object :: stack) _ _ (by omega) ht
        · rw [skimAfter_endObject hs]
          exact after _ _ _ (by omega) ht

/-- A value inside an open list or object, and what follows it. -/
theorem skimValue_split {f : Frame} {s r : List Char} (h : skimValue width [f] s = .ok r) :
    ∃ m, skim width s = .ok m ∧ skimAfter width [f] m = .ok r :=
  (skim_split_upTo width [f] s.length).1 [] s r (Nat.le_refl _) h

theorem skipBlank_skipBlank (s : List Char) : skipBlank (skipBlank s) = skipBlank s :=
  dropWhile_append_of_all (t := []) (fun _ h => by cases h) (heads_dropWhile isBlank s)

/-- The blanks before a value do not matter. -/
theorem skimValue_congr {stack : List Frame} {s s' r : List Char}
    (hfront : skipBlank s' = skipBlank s) (h : skimValue width stack s = .ok r) :
    skimValue width stack s' = .ok r := by
  rw [← h]
  rcases skimValue_cases h with ⟨v, t, hs, hv, -⟩ | ⟨v, c, t, hs, hv, hc, -⟩ |
    ⟨v, t, hs, hv, -⟩ | ⟨v, c, t, k, hs, hv, hc, hk, -⟩ | ⟨c, v, t, hs, hl, ho, hc, -⟩
  · rw [skimValue_emptyList (hfront.trans hs) hv, skimValue_emptyList hs hv]
  · rw [skimValue_list (hfront.trans hs) hv hc, skimValue_list hs hv hc]
  · rw [skimValue_emptyObject (hfront.trans hs) hv, skimValue_emptyObject hs hv]
  · rw [skimValue_object (hfront.trans hs) hv hc hk, skimValue_object hs hv hc hk]
  · rw [skimValue_scalar (hfront.trans hs) hl ho hc, skimValue_scalar hs hl ho hc]

theorem skim_congr {s s' r : List Char} (hfront : skipBlank s' = skipBlank s)
    (h : skim width s = .ok r) : skim width s' = .ok r := skimValue_congr hfront h

/-- A skimmed value is a text between blanks and the rest. -/
theorem isText_of_skim {s r : List Char} (h : skim Char.utf8Size s = .ok r) :
    ∃ (b : List Char) (t : Raw), Blank b ∧ t.IsText ∧ s = b ++ (t.chars ++ r) := by
  obtain ⟨b, hs, hb⟩ := skipBlank_split s
  have hskim := skim_congr (skipBlank_skipBlank s) h
  have htext : skimText Char.utf8Size s =
      .ok ((skipBlank s).take ((skipBlank s).length - r.length), r) := by
    simp only [skimText, hskim]
  obtain ⟨hsplit, -, -⟩ := skimText_cases htext
  exact ⟨b, ⟨_⟩, hb, Raw.isText_of_skimText htext, by rw [← hsplit, ← hs]⟩

/-! ### Taking lists and objects apart -/

/-- A skimmed value with the blanks around it. -/
theorem padded_of_skim {s m : List Char} (h : skim Char.utf8Size s = .ok m) {b r : List Char}
    (hb : Blank b) (hm : m = b ++ r) :
    ∃ p : Padded, p.text.IsText ∧ p.after = b ∧ s = p.chars ++ r := by
  obtain ⟨before, t, hbefore, ht, hs⟩ := isText_of_skim h
  exact ⟨⟨before, t, b, hbefore, hb⟩, ht, rfl, by simp [Padded.chars, hs, hm]⟩

/-- The elements after the first one, and the end of the list. -/
theorem skimAfter_elements {s r : List Char}
    (h : skimAfter Char.utf8Size [.list] s = .ok r) :
    ∃ (b : List Char) (parts : List Padded), Blank b ∧ (∀ p ∈ parts, p.text.IsText) ∧
      s = b ++ (afterCommas (parts.map Padded.chars) ++ ']' :: r) := by
  induction hn : s.length using Nat.strongRecOn generalizing s with
  | ind n ih =>
    subst hn
    rcases skimAfter_cases h with ⟨he, _⟩ | ⟨rest, v, he, hs, ht⟩ | ⟨rest, v, he, hs, ht⟩ |
      ⟨_, _, _, he, _⟩ | ⟨_, _, he, _⟩ <;> cases he
    · obtain ⟨b, hb, rfl⟩ := blank_split hs
      obtain ⟨m, hm, hafter⟩ := skimValue_split ht
      have hlen := skim_length_lt hm
      obtain ⟨b', parts, hb', hparts, hrest⟩ := ih m.length
        (by simp only [List.length_append, List.length_cons]; omega) hafter rfl
      obtain ⟨p, hp, -, rfl⟩ := padded_of_skim hm hb' hrest
      refine ⟨b, p :: parts, hb, ?_, by rw [List.map_cons, afterCommas_cons]; simp⟩
      rintro q hq
      rcases List.mem_cons.mp hq with rfl | hq
      · exact hp
      · exact hparts q hq
    · obtain ⟨b, hb, rfl⟩ := blank_split hs
      rw [skimAfter_nil] at ht
      cases ht
      exact ⟨b, [], hb, fun _ hp => (by cases hp), rfl⟩

/-- A member's name and value. -/
theorem field_of_key {s k m : List Char} (hk : skimKey Char.utf8Size s = .ok k)
    (h : skim Char.utf8Size k = .ok m) {b r : List Char} (hb : Blank b) (hm : m = b ++ r) :
    ∃ f : Field, f.value.text.IsText ∧ s = f.chars ++ r := by
  obtain ⟨q, g, hq, hg, hcolon⟩ := skimKey_cases hk
  obtain ⟨before, hbefore, rfl⟩ := blank_split hq
  obtain ⟨ps, rfl⟩ := skimString_pieces hg
  obtain ⟨gap, hgap, rfl⟩ := blank_split hcolon
  obtain ⟨p, hp, -, rfl⟩ := padded_of_skim h hb hm
  exact ⟨⟨before, ps, gap, p, hbefore, hgap⟩, hp, by simp [Field.chars]⟩

/-- The members after the first one, and the end of the object. -/
theorem skimAfter_members {s r : List Char}
    (h : skimAfter Char.utf8Size [.object] s = .ok r) :
    ∃ (b : List Char) (fields : List Field), Blank b ∧ (∀ f ∈ fields, f.value.text.IsText) ∧
      s = b ++ (afterCommas (fields.map Field.chars) ++ '\x7d' :: r) := by
  induction hn : s.length using Nat.strongRecOn generalizing s with
  | ind n ih =>
    subst hn
    rcases skimAfter_cases h with ⟨he, _⟩ | ⟨_, _, he, _⟩ | ⟨_, _, he, _⟩ |
      ⟨rest, v, k, he, hs, hk, ht⟩ | ⟨rest, v, he, hs, ht⟩ <;> cases he
    · obtain ⟨b, hb, rfl⟩ := blank_split hs
      obtain ⟨m, hm, hafter⟩ := skimValue_split ht
      have hlen := skim_length_lt hm
      have hkey := skimKey_length_lt hk
      obtain ⟨b', fields, hb', hfields, hrest⟩ := ih m.length
        (by simp only [List.length_append, List.length_cons]; omega) hafter rfl
      obtain ⟨f, hf, rfl⟩ := field_of_key hk hm hb' hrest
      refine ⟨b, f :: fields, hb, ?_, by rw [List.map_cons, afterCommas_cons]; simp⟩
      rintro g hg
      rcases List.mem_cons.mp hg with rfl | hg
      · exact hf
      · exact hfields g hg
    · obtain ⟨b, hb, rfl⟩ := blank_split hs
      rw [skimAfter_nil] at ht
      cases ht
      exact ⟨b, [], hb, fun _ hp => (by cases hp), rfl⟩

namespace Raw

/-- **A value's own text is that of a list, of an object or of a scalar.** -/
theorem isText_cases {r : Raw} (h : r.IsText) :
    (∃ items, r.IsList items) ∨ (∃ fields, r.IsObject fields) ∨ r.IsScalar := by
  obtain ⟨hown, ⟨c, v, hr, hc⟩, hf⟩ := skimText_cases (isText_iff.mp h)
  have hskim : skimValue Char.utf8Size [] r.chars = .ok [] := by
    have := hf [] (Heads.nil _)
    rwa [List.append_nil] at this
  have hblank : skipBlank (c :: v) = c :: v := skipBlank_cons hc v
  rw [hr] at hskim
  rcases skimValue_cases hskim with ⟨w, t, hs, hw, ht⟩ | ⟨w, d, t, hs, hw, hd, ht⟩ |
    ⟨w, t, hs, hw, ht⟩ | ⟨w, d, t, k, hs, hw, hd, hk, ht⟩ | ⟨d, w, t, hs, hl, ho, hd, ht⟩
  all_goals
    rw [hblank] at hs
    cases hs
  · obtain ⟨b, hb, rfl⟩ := blank_split hw
    rw [skimAfter_nil] at ht
    cases ht
    exact .inl ⟨[], by rw [show r = ⟨'[' :: (b ++ [']'])⟩ from congrArg Raw.mk hr]; exact .empty hb⟩
  · obtain ⟨b, hb, rfl⟩ := blank_split hw
    obtain ⟨m, hm, hafter⟩ := skimValue_split ht
    obtain ⟨b', parts, hb', hparts, hrest⟩ := skimAfter_elements hafter
    obtain ⟨p, hp, -, hs⟩ := padded_of_skim hm hb' hrest
    refine .inl ⟨(p.behind b hb :: parts).map Padded.text, ?_⟩
    have hchars : r = ⟨writeList ((p.behind b hb :: parts).map Padded.chars)⟩ := by
      rw [List.map_cons, writeList_cons, Padded.behind_chars]
      refine congrArg Raw.mk (hr.trans ?_)
      rw [hs]
      simp
    rw [hchars]
    refine .items (List.cons_ne_nil _ _) fun q hq => ?_
    rcases List.mem_cons.mp hq with rfl | hq
    · exact hp
    · exact hparts q hq
  · obtain ⟨b, hb, rfl⟩ := blank_split hw
    rw [skimAfter_nil] at ht
    cases ht
    refine .inr (.inl ⟨[], ?_⟩)
    rw [show r = ⟨'\x7b' :: (b ++ ['\x7d'])⟩ from congrArg Raw.mk hr]
    exact .empty hb
  · obtain ⟨b, hb, rfl⟩ := blank_split hw
    obtain ⟨m, hm, hafter⟩ := skimValue_split ht
    obtain ⟨b', fields, hb', hfields, hrest⟩ := skimAfter_members hafter
    obtain ⟨f, hf', hs⟩ := field_of_key hk hm hb' hrest
    refine .inr (.inl ⟨f.behind b hb :: fields, ?_⟩)
    have hchars : r = ⟨writeObject ((f.behind b hb :: fields).map Field.chars)⟩ := by
      rw [List.map_cons, writeObject_cons, Field.behind_chars]
      refine congrArg Raw.mk (hr.trans ?_)
      rw [hs]
      simp
    rw [hchars]
    refine .members (List.cons_ne_nil _ _) fun g hg => ?_
    rcases List.mem_cons.mp hg with rfl | hg
    · exact hf'
    · exact hfields g hg
  · rw [skimAfter_nil] at ht
    cases ht
    exact .inr (.inr ⟨c, v, hr, hc, hl, ho, hd⟩)

end Raw

/-! ### Putting them together -/

theorem stops_blank {b u : List Char} (hb : Blank b) (hu : Stops u) : Stops (b ++ u) := by
  cases b with
  | nil => exact hu
  | cons c b => exact Heads.cons_iff.mpr (stops_of_blank (hb c (List.mem_cons_self ..)))

theorem Blank.stops {b : List Char} (hb : Blank b) : Stops b := by
  have := stops_blank hb (Heads.nil stopsNumber)
  rwa [List.append_nil] at this

/-- What follows an element or a member is no part of a number. -/
theorem stops_rest {b : List Char} (hb : Blank b) (parts : List (List Char)) {c : Char}
    (hc : stopsNumber c = true) (u : List Char) : Stops (b ++ (afterCommas parts ++ c :: u)) :=
  stops_blank hb (stops_afterCommas parts c hc u)

namespace Raw

variable {r : Raw}

theorem IsText.skipBlank_padded (h : r.IsText) {b : List Char} (hb : Blank b) (u : List Char) :
    skipBlank (b ++ (r.chars ++ u)) = r.chars ++ u := by
  obtain ⟨c, v, hr, hc, -⟩ := h.head
  rw [hr, List.cons_append]
  exact Json.skipBlank_append hb hc (v ++ u)

theorem IsText.skim_padded (h : r.IsText) {b u : List Char} (hb : Blank b) (hu : Stops u) :
    skim Char.utf8Size (b ++ (r.chars ++ u)) = .ok u := by
  refine skim_congr ?_ (h.skim_append hu)
  rw [h.skipBlank_padded hb, h.skipBlank_append]

theorem IsText.skimText_padded (h : r.IsText) {b u : List Char} (hb : Blank b) (hu : Stops u) :
    skimText Char.utf8Size (b ++ (r.chars ++ u)) = .ok (r.chars, u) := by
  obtain ⟨-, hc, hf⟩ := skimText_cases (isText_iff.mp h)
  exact Json.skimText_append hb hc hf hu

/-- Behind blanks a text is found in one way. -/
theorem IsText.unique_padded {r' : Raw} (h : r.IsText) (h' : r'.IsText) {b b' u u' : List Char}
    (hb : Blank b) (hb' : Blank b') (hu : Stops u) (hu' : Stops u')
    (he : b ++ (r.chars ++ u) = b' ++ (r'.chars ++ u')) : r = r' ∧ u = u' := by
  have hskim := h'.skimText_padded hb' hu'
  rw [← he, h.skimText_padded hb hu] at hskim
  obtain ⟨hr, rfl⟩ := Prod.mk.inj (Except.ok.inj hskim)
  exact ⟨congrArg Raw.mk hr, rfl⟩

end Raw

theorem skimAfter_laidOut {parts : List Padded} (h : ∀ p ∈ parts, p.text.IsText) {b : List Char}
    (hb : Blank b) (u : List Char) :
    skimAfter Char.utf8Size [.list] (b ++ (afterCommas (parts.map Padded.chars) ++ ']' :: u)) =
      .ok u := by
  induction parts generalizing b with
  | nil =>
    show skimAfter Char.utf8Size [.list] (b ++ ']' :: u) = _
    rw [skimAfter_endList (skipBlank_append hb (by decide) u), skimAfter_nil]
  | cons p parts ih =>
    have hp := (h p (List.mem_cons_self ..)).skim_padded p.before_blank
      (stops_rest p.after_blank (parts.map Padded.chars) (c := ']') (by decide) u)
    rw [List.map_cons, afterCommas_cons, List.cons_append, Padded.chars,
      skimAfter_nextElement (skipBlank_append hb (by decide) _)]
    simp only [List.append_assoc]
    rw [skimValue_inside hp, ih fun q hq => h q (List.mem_cons_of_mem p hq)]
    exact p.after_blank

theorem Field.skipBlank_chars (f : Field) (u : List Char) :
    skipBlank (f.chars ++ u) =
      '"' :: (spell f.name ++ (f.gap ++ ':' :: (f.value.chars ++ u))) := by
  rw [Field.chars, List.append_assoc, List.cons_append,
    skipBlank_append f.before_blank (by decide)]
  simp only [List.append_assoc, List.cons_append]

theorem skimKey_field {f : Field} {s u : List Char}
    (hs : skipBlank s = '"' :: (spell f.name ++ (f.gap ++ ':' :: u))) :
    skimKey width s = .ok u := by
  simp only [skimKey, hs, skimString_spell,
    skipBlank_append f.gap_blank (show isBlank ':' = false by decide)]

theorem skimAfter_laidOutMembers {fields : List Field} (h : ∀ f ∈ fields, f.value.text.IsText)
    {b : List Char} (hb : Blank b) (u : List Char) :
    skimAfter Char.utf8Size [.object]
      (b ++ (afterCommas (fields.map Field.chars) ++ '\x7d' :: u)) = .ok u := by
  induction fields generalizing b with
  | nil =>
    show skimAfter Char.utf8Size [.object] (b ++ '\x7d' :: u) = _
    rw [skimAfter_endObject (skipBlank_append hb (by decide) u), skimAfter_nil]
  | cons f fields ih =>
    have hp := (h f (List.mem_cons_self ..)).skim_padded f.value.before_blank
      (stops_rest f.value.after_blank (fields.map Field.chars) (c := '\x7d') (by decide) u)
    rw [List.map_cons, afterCommas_cons, List.cons_append, List.append_assoc,
      skimAfter_nextMember (skipBlank_append hb (by decide) _)
        (skimKey_field (f.skipBlank_chars _))]
    simp only [Padded.chars, List.append_assoc]
    rw [skimValue_inside hp, ih fun g hg => h g (List.mem_cons_of_mem f hg)]
    exact f.value.after_blank

namespace Raw

variable {r : Raw}

/-- A scalar is a text. -/
theorem IsScalar.isText (h : r.IsScalar) : r.IsText := by
  obtain ⟨c, v, hr, hc, hl, ho, hs⟩ := h
  have hfront : skipBlank r.chars = r.chars := by rw [hr, skipBlank_cons hc]
  have hskim : skim Char.utf8Size r.chars = .ok [] := by
    rw [skim, skimValue_scalar (hfront.trans hr) hl ho hs, skimAfter_nil]
  refine isText_iff.mpr ?_
  simp only [skimText, hfront, hskim, List.length_nil, Nat.sub_zero, List.take_length]

/-- A text does not begin with what ends a list or an object. -/
theorem IsText.skipBlank_chars {p : Padded} (h : p.text.IsText) (u : List Char) :
    ∃ c v, skipBlank (p.chars ++ u) = c :: v ∧ c ≠ ']' ∧
      c :: v = p.text.chars ++ (p.after ++ u) := by
  obtain ⟨c, v, hr, -, hne⟩ := h.head
  refine ⟨c, v ++ (p.after ++ u), ?_, hne, by rw [hr, List.cons_append]⟩
  rw [Padded.chars, List.append_assoc, List.append_assoc, h.skipBlank_padded p.before_blank, hr,
    List.cons_append]

/-- A text that stops where it should, whatever follows, is a value's own text. -/
theorem isText_of_skim {c : Char} {v : List Char} (hr : r.chars = c :: v)
    (hc : isBlank c = false) (h : ∀ u, Stops u → skim Char.utf8Size (r.chars ++ u) = .ok u) :
    r.IsText := by
  refine isText_iff.mpr ?_
  have := Json.skimText_append (b := []) (fun _ h => by cases h) ⟨c, v, hr, hc⟩ h (Heads.nil _)
  rwa [List.nil_append, List.append_nil] at this

theorem IsList.isText {items : List Raw} (h : r.IsList items) : r.IsText := by
  cases h with
  | @empty b hb =>
    refine isText_of_skim rfl (by decide) fun u _ => ?_
    have hend : skipBlank (b ++ [']'] ++ u) = ']' :: u := by
      rw [List.append_assoc]
      exact skipBlank_append hb (by decide) u
    rw [List.cons_append, skim, skimValue_emptyList (skipBlank_cons (by decide) _) hend,
      skimAfter_nil]
  | @items parts hne h =>
    obtain ⟨p, rest, rfl⟩ := List.exists_cons_of_ne_nil hne
    refine isText_of_skim (by rw [List.map_cons, writeList_cons]) (by decide) fun u _ => ?_
    have hp := h p (List.mem_cons_self ..)
    obtain ⟨c, v, hfront, hc, hv⟩ := hp.skipBlank_chars
      (afterCommas (rest.map Padded.chars) ++ ']' :: u)
    have hvalue := hp.skim_append
      (stops_rest p.after_blank (rest.map Padded.chars) (c := ']') (by decide) u)
    rw [← hv] at hvalue
    simp only [List.map_cons, writeList_cons, List.cons_append, List.append_assoc,
      List.nil_append]
    rw [skim, skimValue_list (skipBlank_cons (by decide) _) hfront hc, skimValue_inside hvalue,
      skimAfter_laidOut (fun q hq => h q (List.mem_cons_of_mem p hq)) p.after_blank]

theorem IsObject.isText {fields : List Field} (h : r.IsObject fields) : r.IsText := by
  cases h with
  | @empty b hb =>
    refine isText_of_skim rfl (by decide) fun u _ => ?_
    have hend : skipBlank (b ++ ['\x7d'] ++ u) = '\x7d' :: u := by
      rw [List.append_assoc]
      exact skipBlank_append hb (by decide) u
    rw [List.cons_append, skim, skimValue_emptyObject (skipBlank_cons (by decide) _) hend,
      skimAfter_nil]
  | members hne h =>
    obtain ⟨f, rest, rfl⟩ := List.exists_cons_of_ne_nil hne
    refine isText_of_skim (by rw [List.map_cons, writeObject_cons]) (by decide) fun u _ => ?_
    have hvalue := (h f (List.mem_cons_self ..)).skim_padded f.value.before_blank
      (stops_rest f.value.after_blank (rest.map Field.chars) (c := '\x7d') (by decide) u)
    have hfront := f.skipBlank_chars (afterCommas (rest.map Field.chars) ++ '\x7d' :: u)
    have hkey := @skimKey_field Char.utf8Size f _ _ ((skipBlank_skipBlank _).trans hfront)
    rw [hfront] at hkey
    simp only [List.map_cons, writeObject_cons, List.cons_append, List.append_assoc,
      List.nil_append]
    rw [skim, skimValue_object (skipBlank_cons (by decide) _) hfront (by decide) hkey,
      Padded.chars, List.append_assoc, List.append_assoc, skimValue_inside hvalue,
      skimAfter_laidOutMembers (fun g hg => h g (List.mem_cons_of_mem f hg)) f.value.after_blank]

/-! ### Cutting lists -/

end Raw

theorem splitMore_laidOut {parts : List Padded} (h : ∀ p ∈ parts, p.text.IsText) {b : List Char}
    (hb : Blank b) (done : List (List Char)) (u : List Char) :
    splitMore Char.utf8Size done (b ++ (afterCommas (parts.map Padded.chars) ++ ']' :: u)) =
      .ok (done.reverse ++ parts.map (fun p => p.text.chars), u) := by
  induction parts generalizing b done with
  | nil =>
    show splitMore Char.utf8Size done (b ++ ']' :: u) = _
    rw [splitMore_end (skipBlank_append hb (by decide) u)]
    simp
  | cons p parts ih =>
    have hp := h p (List.mem_cons_self ..)
    have hrest := stops_rest p.after_blank (parts.map Padded.chars) (c := ']') (by decide) u
    obtain ⟨c, v, hfront, hc, -⟩ := hp.skipBlank_chars
      (afterCommas (parts.map Padded.chars) ++ ']' :: u)
    have htext := hp.skimText_padded p.before_blank hrest
    rw [← List.append_assoc, ← List.append_assoc, List.append_assoc p.before] at htext
    rw [List.map_cons, afterCommas_cons, List.cons_append, List.append_assoc,
      splitMore_next (skipBlank_append hb (by decide) _) hfront hc htext,
      ih (fun q hq => h q (List.mem_cons_of_mem p hq)) p.after_blank]
    simp

namespace Raw

variable {r : Raw}

/-- **A list is cut into the texts that it was laid out with.** -/
theorem IsList.elements {items : List Raw} (h : r.IsList items) : r.elements = .ok items := by
  have of_split {v : List Char} {texts : List (List Char)} (hr : r.chars = '[' :: v)
      (hs : splitList Char.utf8Size v = .ok (texts, [])) (ht : texts.map Raw.mk = items) :
      r.elements = .ok items := by
    have hb : skipBlank [] = [] := rfl
    simp only [Raw.elements, hr, hs, hb, ht]
  cases h with
  | @empty b hb =>
    refine @of_split _ [] rfl ?_ rfl
    simp only [splitList, skipBlank_append hb (show isBlank ']' = false by decide)]
  | @items parts hne h =>
    obtain ⟨p, rest, rfl⟩ := List.exists_cons_of_ne_nil hne
    have hp := h p (List.mem_cons_self ..)
    obtain ⟨c, v, hfront, hc, hv⟩ := hp.skipBlank_chars
      (afterCommas (rest.map Padded.chars) ++ [']'])
    have htext := hp.skimText_append
      (stops_rest p.after_blank (rest.map Padded.chars) (c := ']') (by decide) [])
    rw [← hv] at htext
    refine @of_split _ ((p :: rest).map fun q => q.text.chars)
      (by rw [List.map_cons, writeList_cons]) ?_ (by rw [List.map_map]; rfl)
    rw [splitList_cons hfront hc htext,
      splitMore_laidOut (fun q hq => h q (List.mem_cons_of_mem p hq)) p.after_blank]
    simp

/-- A text that begins with a bracket is that of a list. -/
theorem IsText.isList (h : r.IsText) {v : List Char} (hr : r.chars = '[' :: v) :
    ∃ items, r.IsList items := by
  rcases isText_cases h with h | ⟨fields, h⟩ | ⟨c, w, hc, -, hl, -⟩
  · exact h
  · cases h with
    | empty => cases hr
    | members hne =>
      obtain ⟨f, rest, rfl⟩ := List.exists_cons_of_ne_nil hne
      rw [List.map_cons, writeObject_cons] at hr
      cases hr
  · rw [hr] at hc
    cases hc
    exact absurd rfl hl

/-! ### Lists put together -/

variable {items : List Raw}

theorem isList_list (h : ∀ a ∈ items, a.IsText) : (Raw.list items).IsList items := by
  have hchars : items.map Raw.chars = (items.map Padded.bare).map Padded.chars := by
    rw [List.map_map]
    exact List.map_congr_left fun a _ => (Padded.bare_chars a).symm
  have htexts : items = (items.map Padded.bare).map Padded.text := by
    rw [List.map_map]
    exact (List.map_id _).symm
  rcases items with _ | ⟨a, items⟩
  · exact .empty blank_nil
  · have htext : ∀ p ∈ (a :: items).map Padded.bare, p.text.IsText := List.forall_mem_map.mpr h
    have := @IsList.items ((a :: items).map Padded.bare) (List.cons_ne_nil _ _) htext
    rwa [← htexts, ← hchars] at this

/-- **A list put together from texts is a text again.** -/
theorem isText_list (h : ∀ a ∈ items, a.IsText) : (Raw.list items).IsText := (isList_list h).isText

/-- **A list put together from texts has those texts as its elements.** -/
theorem elements_list (h : ∀ a ∈ items, a.IsText) : (Raw.list items).elements = .ok items :=
  (isList_list h).elements

end Raw

end Switchboard.Json
