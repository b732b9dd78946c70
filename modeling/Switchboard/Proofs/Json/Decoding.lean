import Switchboard.Proofs.Json.Layout
import Switchboard.Proofs.Json.Numerals

/-! What is decoded.

`Denotes` says which value a text is decoded as inside a number of open lists and objects:
strings must mean something, numbers must be readable, and no more than `depthLimit` lists and
objects may be open. Where wrappers are opened, an object that is one denotes what it holds, if it
holds a value's text and nothing else. A text is decoded as what it denotes, whatever stands
around it (`Denotes.decodes`), and one that denotes nothing is refused (`Raw.IsText.settles`). -/
namespace Switchboard.Json

variable {α β : Type} {width : Char → Nat} {unwraps : Bool}

/-! ### Scalars -/

theorem Settles.map {f : List Char → Except Halt (α × List Char)} {t : List Char}
    (h : Settles f t) (g : α → β) :
    Settles (fun s => (f s).map fun (a, r) => (g a, r)) t := by
  rcases h with ⟨a, ha⟩ | hnone
  · refine .inl ⟨g a, fun u hu => ?_⟩
    simp only [ha u hu, Except.map]
  · refine .inr fun u hu x => ?_
    cases hf : f (t ++ u) with
    | error e => simp [hf, Except.map]
    | ok y => exact absurd hf (hnone u hu y)

theorem literal_settles {word t : List Char} (h : literal word t = .ok []) (x : Value) :
    Settles (fun s => (literal word s).map (x, ·)) t := by
  obtain ⟨t', rfl, ht⟩ := literal_exact h
  refine .inl ⟨x, fun u _ => ?_⟩
  simp only [List.append_nil, ht u, Except.map]

theorem readText_settles (ps : List Piece) : Settles (readText width) (spell ps) := by
  cases hm : meaning? ps with
  | none => exact .inr fun u _ x => readText_meaningless hm u x
  | some cs => exact .inl ⟨String.ofList cs, fun u _ => readText_spell hm u⟩

theorem readScalar_minus (s : List Char) :
    readScalar width '-' s = (readNumber true s).map fun (n, r) => (.number n, r) := rfl

theorem readScalar_digits {c : Char} (hc : isDigit c = true) (s : List Char) :
    readScalar width c s = (readNumber false (c :: s)).map fun (n, r) => (.number n, r) := by
  unfold readScalar
  split
  case h_6 => rw [if_pos hc]
  all_goals cases hc

/-- A scalar is read alike whatever follows it, or never. -/
theorem readScalar_settles {c : Char} {v : List Char} (h : skimScalar width c v = .ok []) :
    Settles (readScalar width c) v := by
  unfold skimScalar at h
  split at h
  · exact literal_settles h .null
  · exact literal_settles h (.bool true)
  · exact literal_settles h (.bool false)
  · obtain ⟨n, -, rfl⟩ := skimNumber_numerals h true
    rw [List.append_nil]
    exact (readNumber_settles n true).map Value.number
  · obtain ⟨ps, rfl⟩ := skimString_pieces h
    rw [List.append_nil]
    exact (readText_settles ps).map Value.string
  · rename_i hn ht hf hm hq
    split at h
    · rename_i hc
      obtain ⟨n, -, hs⟩ := skimNumber_numerals h false
      rw [List.append_nil] at hs
      rcases (readNumber_settles n false).map Value.number with ⟨x, hx⟩ | hnone
      · refine .inl ⟨x, fun u hu => ?_⟩
        rw [readScalar_digits hc, ← List.cons_append, hs]
        exact hx u hu
      · refine .inr fun u hu x => ?_
        rw [readScalar_digits hc, ← List.cons_append, hs]
        exact hnone u hu x
    · cases h

/-! ### One step -/

section Steps
variable {outer : Nat} {stack : List Building} {s r t : List Char} {v : Value}

theorem decodeValue_emptyList (hs : skipBlank s = '[' :: r) (hk : mayOpen outer stack = true)
    (hr : skipBlank r = ']' :: t) :
    decodeValue width unwraps outer stack s =
      decodeAfter width unwraps outer (.array []) stack t := by
  rw [decodeValue]
  grind

theorem decodeValue_list {c : Char} (hs : skipBlank s = '[' :: r)
    (hk : mayOpen outer stack = true) (hr : skipBlank r = c :: t) (hc : c ≠ ']') :
    decodeValue width unwraps outer stack s =
      decodeValue width unwraps outer (.list [] :: stack) (c :: t) := by
  rw [decodeValue]
  grind

theorem decodeValue_emptyObject (hs : skipBlank s = '\x7b' :: r)
    (hk : mayOpen outer stack = true) (hr : skipBlank r = '\x7d' :: t) :
    decodeValue width unwraps outer stack s =
      decodeAfter width unwraps outer (.object []) stack t := by
  rw [decodeValue]
  grind

theorem decodeValue_object {name : String} {u : List Char} (hs : skipBlank s = '\x7b' :: r)
    (hk : mayOpen outer stack = true) (hr : skipBlank r = '"' :: t)
    (hn : readName width t = .ok (name, u)) (hw : unwraps = true → name ≠ wrapperName) :
    decodeValue width unwraps outer stack s =
      decodeValue width unwraps outer (.object [] name :: stack) u := by
  rw [decodeValue]
  grind

theorem decodeValue_wrapper {text : String} {u w z : List Char} {x : Value}
    (hs : skipBlank s = '\x7b' :: r) (hk : mayOpen outer stack = true)
    (hr : skipBlank r = '"' :: t) (hn : readName width t = .ok (wrapperName, u))
    (hw : readString? width .wrapped u = .ok (text, w)) (hx : unwrap text = .ok x)
    (hz : closeObject w = .ok z) :
    decodeValue width true outer stack s = decodeAfter width true outer x stack z := by
  rw [unwrap, decode] at hx
  rw [decodeValue]
  grind

theorem decodeValue_nameless (hs : skipBlank s = '\x7b' :: r) (hr : skipBlank r = '"' :: t)
    (hn : ∀ x, readName width t ≠ .ok x) (x : Value × List Char) :
    decodeValue width unwraps outer stack s ≠ .ok x := by
  rw [decodeValue]
  grind

theorem decodeValue_tooDeep (hk : mayOpen outer stack = false)
    (hs : skipBlank s = '[' :: r ∨ skipBlank s = '\x7b' :: r) (x : Value × List Char) :
    decodeValue width unwraps outer stack s ≠ .ok x := by
  rw [decodeValue]
  rcases hs with hs | hs <;> grind

theorem decodeValue_scalar {c : Char} (hs : skipBlank s = c :: r) (hl : c ≠ '[') (ho : c ≠ '\x7b')
    (hc : readScalar width c r = .ok (v, t)) :
    decodeValue width unwraps outer stack s = decodeAfter width unwraps outer v stack t := by
  rw [decodeValue]
  grind

theorem decodeValue_unreadable {c : Char} (hs : skipBlank s = c :: r) (hl : c ≠ '[')
    (ho : c ≠ '\x7b') (hc : ∀ x, readScalar width c r ≠ .ok x) (x : Value × List Char) :
    decodeValue width unwraps outer stack s ≠ .ok x := by
  rw [decodeValue]
  grind

theorem decodeAfter_nil : decodeAfter width unwraps outer v [] s = .ok (v, s) := by
  rw [decodeAfter]

theorem decodeAfter_endList {done : List Value} (hs : skipBlank s = ']' :: r) :
    decodeAfter width unwraps outer v (.list done :: stack) s =
      decodeAfter width unwraps outer (.array (v :: done).reverse) stack r := by
  rw [decodeAfter]
  grind

theorem decodeAfter_nextElement {done : List Value} {c : Char} (hs : skipBlank s = ',' :: r)
    (hr : skipBlank r = c :: t) (hc : c ≠ ']') :
    decodeAfter width unwraps outer v (.list done :: stack) s =
      decodeValue width unwraps outer (.list (v :: done) :: stack) (c :: t) := by
  rw [decodeAfter]
  grind

theorem decodeAfter_endObject {done : List (String × Value)} {name : String}
    (hs : skipBlank s = '\x7d' :: r) :
    decodeAfter width unwraps outer v (.object done name :: stack) s =
      decodeAfter width unwraps outer (.object (put name v done)) stack r := by
  rw [decodeAfter]
  grind

theorem decodeAfter_nextMember {done : List (String × Value)} {name next : String}
    {u : List Char} (hs : skipBlank s = ',' :: r) (hr : skipBlank r = '"' :: t)
    (hn : readName width t = .ok (next, u)) :
    decodeAfter width unwraps outer v (.object done name :: stack) s =
      decodeValue width unwraps outer (.object (put name v done) next :: stack) u := by
  rw [decodeAfter]
  grind

theorem decodeAfter_nameless {done : List (String × Value)} {name : String}
    (hs : skipBlank s = ',' :: r) (hr : skipBlank r = '"' :: t)
    (hn : ∀ x, readName width t ≠ .ok x) (x : Value × List Char) :
    decodeAfter width unwraps outer v (.object done name :: stack) s ≠ .ok x := by
  rw [decodeAfter]
  grind

variable {x : Value}

/-- The steps with which a value that is decoded can begin. -/
theorem decodeValue_cases (h : decodeValue width unwraps outer stack s = .ok (x, r)) :
    (∃ u t, skipBlank s = '[' :: u ∧ skipBlank u = ']' :: t ∧
      decodeAfter width unwraps outer (.array []) stack t = .ok (x, r)) ∨
    (∃ u c t, skipBlank s = '[' :: u ∧ skipBlank u = c :: t ∧ c ≠ ']' ∧
      decodeValue width unwraps outer (.list [] :: stack) (c :: t) = .ok (x, r)) ∨
    (∃ u t, skipBlank s = '\x7b' :: u ∧ skipBlank u = '\x7d' :: t ∧
      decodeAfter width unwraps outer (.object []) stack t = .ok (x, r)) ∨
    (∃ u t name k, skipBlank s = '\x7b' :: u ∧ skipBlank u = '"' :: t ∧
      readName width t = .ok (name, k) ∧ (unwraps = true → name ≠ wrapperName) ∧
      decodeValue width unwraps outer (.object [] name :: stack) k = .ok (x, r)) ∨
    (∃ u t k text w y z, skipBlank s = '\x7b' :: u ∧ skipBlank u = '"' :: t ∧
      unwraps = true ∧ readName width t = .ok (wrapperName, k) ∧
      readString? width .wrapped k = .ok (text, w) ∧ unwrap text = .ok y ∧
      closeObject w = .ok z ∧ decodeAfter width unwraps outer y stack z = .ok (x, r)) ∨
    (∃ c u y t, skipBlank s = c :: u ∧ c ≠ '[' ∧ c ≠ '\x7b' ∧
      readScalar width c u = .ok (y, t) ∧
      decodeAfter width unwraps outer y stack t = .ok (x, r)) := by
  rw [decodeValue] at h
  split at h
  · cases h
  · rename_i u hs
    split at h
    · split at h
      · cases h
      · rename_i t ht
        exact .inl ⟨u, t, hs, ht, h⟩
      · rename_i hne hend
        cases hu : skipBlank u with
        | nil => exact absurd hu hne
        | cons c t =>
          rw [hu] at h
          exact .inr (.inl ⟨u, c, t, hs, hu, fun hc => hend t (by rw [hu, hc]), h⟩)
    · cases h
  · rename_i u hs
    split at h
    · split at h
      · cases h
      · rename_i t ht
        exact .inr (.inr (.inl ⟨u, t, hs, ht, h⟩))
      · rename_i t ht
        split at h
        · cases h
        · rename_i name k hk
          split at h
          · rename_i hname
            obtain ⟨hu, rfl⟩ : unwraps = true ∧ name = wrapperName := by simpa using hname
            split at h
            · cases h
            · rename_i text w hw
              split at h
              · cases h
              · rename_i y hy
                split at h
                · cases h
                · rename_i z hz
                  exact .inr (.inr (.inr (.inr (.inl
                    ⟨u, t, k, text, w, y, z, hs, ht, hu, hk, hw, hy, hz, h⟩))))
          · rename_i hname
            have hne : unwraps = true → name ≠ wrapperName := by simpa using hname
            exact .inr (.inr (.inr (.inl ⟨u, t, name, k, hs, ht, hk, hne, h⟩)))
      · cases h
    · cases h
  · rename_i c u hl ho hs
    split at h
    · cases h
    · rename_i y t ht
      exact .inr (.inr (.inr (.inr (.inr ⟨c, u, y, t, hs, hl, ho, ht, h⟩))))

/-- A wrapper that is decoded holds one text and nothing else. -/
theorem decodeValue_wrapper_eq_ok {w u : List Char} (hs : skipBlank s = '\x7b' :: w)
    (hr : skipBlank w = '"' :: t) (hn : readName width t = .ok (wrapperName, u))
    (h : decodeValue width true outer stack s = .ok (x, r)) :
    ∃ text v y z, readString? width .wrapped u = .ok (text, v) ∧ unwrap text = .ok y ∧
      closeObject v = .ok z ∧ decodeAfter width true outer y stack z = .ok (x, r) := by
  rcases decodeValue_cases h with ⟨_, _, hs', -⟩ | ⟨_, _, _, hs', -⟩ | ⟨_, _, hs', hr', -⟩ |
    ⟨_, _, _, _, hs', hr', hn', hne, -⟩ | ⟨_, _, _, text, v, y, z, hs', hr', -, hn', hv⟩ |
    ⟨_, _, _, _, hs', -, ho, -⟩
  · cases hs.symm.trans hs'
  · cases hs.symm.trans hs'
  · cases hs.symm.trans hs'
    cases hr.symm.trans hr'
  · cases hs.symm.trans hs'
    cases hr.symm.trans hr'
    cases hn.symm.trans hn'
    exact absurd rfl (hne rfl)
  · cases hs.symm.trans hs'
    cases hr.symm.trans hr'
    cases hn.symm.trans hn'
    exact ⟨text, v, y, z, hv⟩
  · cases hs.symm.trans hs'
    exact absurd rfl ho

theorem closeObject_eq_ok (h : closeObject s = .ok r) : skipBlank s = '\x7d' :: r := by
  unfold closeObject at h
  split at h <;> cases h
  assumption

theorem closeObject_append {b : List Char} (hb : Blank b) (u : List Char) :
    closeObject (b ++ '\x7d' :: u) = .ok u := by
  simp only [closeObject, skipBlank_append hb (show isBlank '\x7d' = false by decide)]

/-- The steps that can follow a value that is decoded. -/
theorem decodeAfter_cases (h : decodeAfter width unwraps outer v stack s = .ok (x, r)) :
    (stack = [] ∧ s = r) ∨
    (∃ done rest u, stack = .list done :: rest ∧ skipBlank s = ']' :: u ∧
      decodeAfter width unwraps outer (.array (v :: done).reverse) rest u = .ok (x, r)) ∨
    (∃ done rest u, stack = .list done :: rest ∧ skipBlank s = ',' :: u ∧
      decodeValue width unwraps outer (.list (v :: done) :: rest) (skipBlank u) = .ok (x, r)) ∨
    (∃ done name rest u, stack = .object done name :: rest ∧ skipBlank s = '\x7d' :: u ∧
      decodeAfter width unwraps outer (.object (put name v done)) rest u = .ok (x, r)) ∨
    (∃ done name rest u t next k, stack = .object done name :: rest ∧ skipBlank s = ',' :: u ∧
      skipBlank u = '"' :: t ∧ readName width t = .ok (next, k) ∧
      decodeValue width unwraps outer (.object (put name v done) next :: rest) k = .ok (x, r)) := by
  rw [decodeAfter.eq_def] at h
  split at h
  · cases h
    exact .inl ⟨rfl, rfl⟩
  · rename_i done rest
    split at h
    · cases h
    · rename_i u hs
      exact .inr (.inl ⟨done, rest, u, rfl, hs, h⟩)
    · rename_i u hs
      split at h
      · cases h
      · cases h
      · exact .inr (.inr (.inl ⟨done, rest, u, rfl, hs, h⟩))
    · cases h
  · rename_i done name rest
    split at h
    · cases h
    · rename_i u hs
      exact .inr (.inr (.inr (.inl ⟨done, name, rest, u, rfl, hs, h⟩)))
    · rename_i u hs
      split at h
      · cases h
      · cases h
      · rename_i t ht
        split at h
        · cases h
        · rename_i next k hk
          exact .inr (.inr (.inr (.inr ⟨done, name, rest, u, t, next, k, rfl, hs, ht, hk, h⟩)))
      · cases h
    · cases h

end Steps

/-! ### Names -/

/-- The member's name, once its spelling is read. -/
def Field.Named (f : Field) (name : String) : Prop := meaning? f.name = some name.toList

theorem Field.Named.unique {f : Field} {name name' : String} (h : f.Named name)
    (h' : f.Named name') : name = name' :=
  String.toList_injective (Option.some.inj (h.symm.trans h'))

theorem Field.named_or_meaningless (f : Field) :
    (∃ name, f.Named name) ∨ meaning? f.name = none := by
  cases hm : meaning? f.name with
  | none => exact .inr rfl
  | some cs => exact .inl ⟨String.ofList cs, by rw [Field.Named, hm, String.toList_ofList]⟩

theorem Field.Named.readText {f : Field} {name : String} (h : f.Named name) (u : List Char) :
    readText width (spell f.name ++ u) = .ok (name, u) := by
  rw [readText_spell h, String.ofList_toList]

theorem Field.Named.readName {f : Field} {name : String} (h : f.Named name) (u : List Char) :
    readName width (spell f.name ++ (f.gap ++ ':' :: u)) = .ok (name, u) := by
  simp only [Json.readName, h.readText,
    skipBlank_append f.gap_blank (show isBlank ':' = false by decide)]

theorem readName_meaningless {f : Field} (hm : meaning? f.name = none) (u : List Char)
    (x : String × List Char) : readName width (spell f.name ++ u) ≠ .ok x := by
  unfold readName
  split
  · exact fun h => by cases h
  · rename_i hr
    exact absurd hr (readText_meaningless hm u _)

/-! ### Strings and brackets -/

theorem Raw.IsList.bracket {r : Raw} {items : List Raw} (h : r.IsList items) :
    ∃ v, r.chars = '[' :: v := by
  cases h with
  | empty => exact ⟨_, rfl⟩
  | items => exact ⟨_, rfl⟩

theorem Raw.IsObject.brace {r : Raw} {fields : List Field} (h : r.IsObject fields) :
    ∃ v, r.chars = '\x7b' :: v := by
  cases h with
  | empty => exact ⟨_, rfl⟩
  | members => exact ⟨_, rfl⟩

/-- The text spells the string. -/
def Raw.IsString (r : Raw) (s : String) : Prop :=
  ∃ ps, r.chars = '"' :: spell ps ∧ meaning? ps = some s.toList

/-- What an object begins with that has members. -/
theorem Raw.IsObject.chars_cons {r : Raw} {f : Field} {fs : List Field} (h : r.IsObject (f :: fs))
    (u : List Char) : r.chars ++ u =
      '\x7b' :: (f.chars ++ (afterCommas (fs.map Field.chars) ++ '\x7d' :: u)) := by
  cases h
  rw [List.map_cons, writeObject_cons]
  simp

theorem Raw.IsText.pieces {r : Raw} (h : r.IsText) {v : List Char} (hr : r.chars = '"' :: v) :
    ∃ ps, r.chars = '"' :: spell ps := by
  rcases isText_cases h with ⟨_, hl⟩ | ⟨_, ho⟩ | ⟨c, w, hc, -, -, -, hs⟩
  · obtain ⟨w, hw⟩ := hl.bracket
    cases hr.symm.trans hw
  · obtain ⟨w, hw⟩ := ho.brace
    cases hr.symm.trans hw
  · cases hr.symm.trans hc
    obtain ⟨ps, hps⟩ := skimString_pieces hs
    exact ⟨ps, by rw [hr, hps, List.append_nil]⟩

/-- What a text begins with. -/
theorem Raw.IsText.front {r : Raw} (h : r.IsText) :
    ∃ c v, r.chars = c :: v ∧ isBlank c = false ∧
      ∀ b u, Blank b → skipBlank (b ++ (r.chars ++ u)) = c :: (v ++ u) := by
  obtain ⟨c, v, hr, hc, -⟩ := h.head
  refine ⟨c, v, hr, hc, fun b u hb => ?_⟩
  rw [hr, List.cons_append]
  exact Json.skipBlank_append hb hc _

theorem Raw.IsString.readString? {r : Raw} {s : String} (h : r.IsString s) (wanted : Wanted)
    {b : List Char} (hb : Blank b) (u : List Char) :
    readString? Char.utf8Size wanted (b ++ (r.chars ++ u)) = .ok (s, u) := by
  obtain ⟨ps, hr, hm⟩ := h
  rw [hr, List.cons_append, Json.readString?, Json.skipBlank_append hb (by decide)]
  show readText Char.utf8Size (spell ps ++ u) = _
  rw [readText_spell hm, String.ofList_toList]

/-- What is read as a string spells it, and the reader stops behind it. -/
theorem Raw.IsText.of_readString? {r : Raw} (h : r.IsText) {wanted : Wanted} {b u w : List Char}
    {s : String} (hb : Blank b)
    (hs : readString? Char.utf8Size wanted (b ++ (r.chars ++ u)) = .ok (s, w)) :
    r.IsString s ∧ w = u := by
  obtain ⟨c, v, hr, -, hfront⟩ := h.front
  by_cases hc : c = '"'
  · subst hc
    obtain ⟨ps, hps⟩ := h.pieces hr
    cases hm : meaning? ps with
    | some cs =>
      have hstring : r.IsString (String.ofList cs) := ⟨ps, hps, by rw [hm, String.toList_ofList]⟩
      cases hs.symm.trans (hstring.readString? wanted hb u)
      exact ⟨hstring, rfl⟩
    | none =>
      rw [hps, List.cons_append, readString?, Json.skipBlank_append hb (by decide)] at hs
      exact absurd hs (readText_meaningless hm u _)
  · rw [readString?, hfront b u hb] at hs
    split at hs
    · rename_i heq
      exact absurd (List.cons.inj heq).1 hc
    · cases hs

/-! ### What a text denotes -/

/-- The object that is laid out with these members is a wrapper. -/
def IsWrapper (fields : List Field) : Prop := ∃ f ∈ fields.head?, f.Named wrapperName

/-- The members in the order in which their names first came, each with its last value. -/
def gather (members : List (String × Value)) : List (String × Value) :=
  members.foldl (fun done m => put m.1 m.2 done) []

/-- The value that a text is decoded as, inside so many open lists and objects, where wrappers are
opened or not. -/
inductive Denotes (unwraps : Bool) : Nat → Raw → Value → Prop
  | scalar {depth : Nat} {r : Raw} {c : Char} {v : List Char} {x : Value}
      (hr : r.chars = c :: v) (hb : isBlank c = false) (hl : c ≠ '[') (ho : c ≠ '\x7b')
      (hs : skimScalar Char.utf8Size c v = .ok [])
      (h : readScalar Char.utf8Size c v = .ok (x, [])) : Denotes unwraps depth r x
  | list {depth : Nat} {r : Raw} {parts : List (Raw × Value)} (hk : depth < depthLimit)
      (hl : r.IsList (parts.map Prod.fst)) (h : ∀ p ∈ parts, Denotes unwraps (depth + 1) p.1 p.2) :
      Denotes unwraps depth r (.array (parts.map Prod.snd))
  | object {depth : Nat} {r : Raw} {parts : List (Field × String × Value)}
      (hk : depth < depthLimit) (ho : r.IsObject (parts.map Prod.fst))
      (hn : ∀ p ∈ parts, p.1.Named p.2.1)
      (h : ∀ p ∈ parts, Denotes unwraps (depth + 1) p.1.value.text p.2.2)
      (hw : unwraps = true → ¬IsWrapper (parts.map Prod.fst)) :
      Denotes unwraps depth r (.object (gather (parts.map Prod.snd)))
  | wrapped {depth : Nat} {r : Raw} {f : Field} {text : String} {x : Value} (hu : unwraps = true)
      (hk : depth < depthLimit) (ho : r.IsObject [f]) (hn : f.Named wrapperName)
      (hs : f.value.text.IsString text) (h : unwrap text = .ok x) : Denotes unwraps depth r x

/-- Wherever the text stands, inside so many open lists and objects, it is decoded as the
value. -/
def Decodes (unwraps : Bool) (depth : Nat) (r : Raw) (x : Value) : Prop :=
  ∀ ⦃outer : Nat⦄ ⦃stack : List Building⦄ ⦃b u : List Char⦄, outer + stack.length = depth →
    Blank b → Stops u →
      decodeValue Char.utf8Size unwraps outer stack (b ++ (r.chars ++ u)) =
        decodeAfter Char.utf8Size unwraps outer x stack u

theorem Decodes.inside {depth : Nat} {r : Raw} {x : Value} (h : Decodes unwraps depth r x)
    (outer : Nat) (stack : List Building) (hd : outer + stack.length = depth)
    {b u : List Char} (hb : Blank b) (hu : Stops u) :
    decodeValue Char.utf8Size unwraps outer stack (b ++ (r.chars ++ u)) =
      decodeAfter Char.utf8Size unwraps outer x stack u := h hd hb hu

/-- Wherever the text stands, inside so many open lists and objects, nothing is decoded. -/
def Refused (unwraps : Bool) (depth : Nat) (r : Raw) : Prop :=
  ∀ ⦃outer : Nat⦄ ⦃stack : List Building⦄ ⦃b u : List Char⦄, outer + stack.length = depth →
    Blank b → Stops u →
      ∀ x, decodeValue Char.utf8Size unwraps outer stack (b ++ (r.chars ++ u)) ≠ .ok x

section Parts
variable {depth outer : Nat} {stack : List Building}

theorem decodeAfter_elements (hd : outer + stack.length = depth) {ps : List Padded}
    (ht : ∀ p ∈ ps, p.text.IsText) {parts : List (Raw × Value)}
    (hparts : parts.map Prod.fst = ps.map Padded.text)
    (h : ∀ p ∈ parts, Decodes unwraps (depth + 1) p.1 p.2) (v : Value) (done : List Value)
    {b : List Char} (hb : Blank b) (u : List Char) :
    decodeAfter Char.utf8Size unwraps outer v (.list done :: stack)
        (b ++ (afterCommas (ps.map Padded.chars) ++ ']' :: u)) =
      decodeAfter Char.utf8Size unwraps outer (.array ((v :: done).reverse ++ parts.map Prod.snd))
        stack u := by
  induction ps generalizing parts v done b with
  | nil =>
    have hnil : parts = [] := List.map_eq_nil_iff.mp hparts
    subst hnil
    show decodeAfter Char.utf8Size unwraps outer v (.list done :: stack) (b ++ ']' :: u) = _
    rw [decodeAfter_endList (skipBlank_append hb (by decide) u), List.map_nil, List.append_nil]
  | cons p ps ih =>
    obtain ⟨⟨r, x⟩, rest, rfl, hr, hrest⟩ := List.map_eq_cons_iff.mp hparts
    cases hr
    have hp := ht p (List.mem_cons_self ..)
    obtain ⟨c, w, hfront, hc, hw⟩ := hp.skipBlank_chars
      (afterCommas (ps.map Padded.chars) ++ ']' :: u)
    have hvalue := (h (p.text, x) (List.mem_cons_self ..)).inside outer (.list (v :: done) :: stack)
      (by rw [List.length_cons]; omega) blank_nil
      (stops_rest p.after_blank (ps.map Padded.chars) (c := ']') (by decide) u)
    rw [List.nil_append, ← hw] at hvalue
    rw [List.map_cons, afterCommas_cons, List.cons_append, List.append_assoc,
      decodeAfter_nextElement (skipBlank_append hb (by decide) _) hfront hc, hvalue,
      ih (fun q hq => ht q (List.mem_cons_of_mem p hq)) hrest
        (fun q hq => h q (List.mem_cons_of_mem _ hq)) _ _ p.after_blank]
    simp

theorem decodeAfter_members (hd : outer + stack.length = depth) {fs : List Field}
    {parts : List (Field × String × Value)} (hparts : parts.map Prod.fst = fs)
    (hn : ∀ p ∈ parts, p.1.Named p.2.1)
    (h : ∀ p ∈ parts, Decodes unwraps (depth + 1) p.1.value.text p.2.2) (v : Value) (name : String)
    (done : List (String × Value)) {b : List Char} (hb : Blank b) (u : List Char) :
    decodeAfter Char.utf8Size unwraps outer v (.object done name :: stack)
        (b ++ (afterCommas (fs.map Field.chars) ++ '\x7d' :: u)) =
      decodeAfter Char.utf8Size unwraps outer
        (.object ((parts.map Prod.snd).foldl (fun done m => put m.1 m.2 done) (put name v done)))
        stack u := by
  induction fs generalizing parts v name done b with
  | nil =>
    have hnil : parts = [] := List.map_eq_nil_iff.mp hparts
    subst hnil
    show decodeAfter Char.utf8Size unwraps outer v (.object done name :: stack)
      (b ++ '\x7d' :: u) = _
    rw [decodeAfter_endObject (skipBlank_append hb (by decide) u)]
    rfl
  | cons f fs ih =>
    obtain ⟨⟨f, next, x⟩, rest, rfl, rfl, hrest⟩ := List.map_eq_cons_iff.mp hparts
    have hname := @Field.Named.readName Char.utf8Size _ _ (hn _ (List.mem_cons_self ..))
      (f.value.chars ++ (afterCommas (fs.map Field.chars) ++ '\x7d' :: u))
    have hvalue := (h (f, next, x) (List.mem_cons_self ..)).inside outer
      (.object (put name v done) next :: stack) (by rw [List.length_cons]; omega)
      f.value.before_blank
      (stops_rest f.value.after_blank (fs.map Field.chars) (c := '\x7d') (by decide) u)
    rw [List.map_cons, afterCommas_cons, List.cons_append, List.append_assoc,
      decodeAfter_nextMember (skipBlank_append hb (by decide) _) (f.skipBlank_chars _) hname,
      Padded.chars, List.append_assoc, List.append_assoc, hvalue,
      ih hrest (fun q hq => hn q (List.mem_cons_of_mem _ hq))
        (fun q hq => h q (List.mem_cons_of_mem _ hq)) _ _ _ f.value.after_blank]
    rfl

end Parts

/-! ### Lists and objects -/

section Whole
variable {depth outer : Nat} {stack : List Building} {r : Raw}

theorem mayOpen_of_lt (hd : outer + stack.length = depth) (hk : depth < depthLimit) :
    mayOpen outer stack = true := decide_eq_true (hd.symm ▸ hk)

theorem decodes_list (hk : depth < depthLimit) {items : List Raw} (hl : r.IsList items)
    {parts : List (Raw × Value)} (hparts : parts.map Prod.fst = items)
    (h : ∀ p ∈ parts, Decodes unwraps (depth + 1) p.1 p.2) :
    Decodes unwraps depth r (.array (parts.map Prod.snd)) := by
  intro outer stack b u hd hb _
  have hopen := mayOpen_of_lt hd hk
  have hfront := hl.isText.skipBlank_padded hb u
  cases hl with
  | @empty b' hb' =>
    have hnil : parts = [] := List.map_eq_nil_iff.mp hparts
    subst hnil
    rw [List.cons_append] at hfront
    refine decodeValue_emptyList hfront hopen ?_
    rw [List.append_assoc]
    exact skipBlank_append hb' (by decide) u
  | @items ps hne ht =>
    obtain ⟨p, ps, rfl⟩ := List.exists_cons_of_ne_nil hne
    obtain ⟨⟨r, x⟩, rest, rfl, hr, hrest⟩ := List.map_eq_cons_iff.mp hparts
    cases hr
    have hp := ht p (List.mem_cons_self ..)
    obtain ⟨c, w, hfirst, hc, hw⟩ := hp.skipBlank_chars
      (afterCommas (ps.map Padded.chars) ++ ']' :: u)
    have hvalue := (h (p.text, x) (List.mem_cons_self ..)).inside outer (.list [] :: stack)
      (by rw [List.length_cons]; omega) blank_nil
      (stops_rest p.after_blank (ps.map Padded.chars) (c := ']') (by decide) u)
    rw [List.nil_append, ← hw] at hvalue
    have hchars : writeList ((p :: ps).map Padded.chars) ++ u =
        '[' :: (p.chars ++ (afterCommas (ps.map Padded.chars) ++ ']' :: u)) := by
      rw [List.map_cons, writeList_cons]
      simp
    rw [hchars] at hfront ⊢
    rw [decodeValue_list hfront hopen hfirst hc, hvalue,
      decodeAfter_elements hd (fun q hq => ht q (List.mem_cons_of_mem p hq)) hrest
        (fun q hq => h q (List.mem_cons_of_mem _ hq)) _ _ p.after_blank]
    rfl

theorem decodes_object (hk : depth < depthLimit) {fields : List Field} (ho : r.IsObject fields)
    {parts : List (Field × String × Value)} (hparts : parts.map Prod.fst = fields)
    (hn : ∀ p ∈ parts, p.1.Named p.2.1)
    (h : ∀ p ∈ parts, Decodes unwraps (depth + 1) p.1.value.text p.2.2)
    (hw : unwraps = true → ¬IsWrapper fields) :
    Decodes unwraps depth r (.object (gather (parts.map Prod.snd))) := by
  intro outer stack b u hd hb _
  have hopen := mayOpen_of_lt hd hk
  have hfront := ho.isText.skipBlank_padded hb u
  cases ho with
  | @empty b' hb' =>
    have hnil : parts = [] := List.map_eq_nil_iff.mp hparts
    subst hnil
    rw [List.cons_append] at hfront
    refine decodeValue_emptyObject hfront hopen ?_
    rw [List.append_assoc]
    exact skipBlank_append hb' (by decide) u
  | @members fs hne ht =>
    obtain ⟨f, fs, rfl⟩ := List.exists_cons_of_ne_nil hne
    obtain ⟨⟨f, name, x⟩, rest, rfl, rfl, hrest⟩ := List.map_eq_cons_iff.mp hparts
    have hname := @Field.Named.readName Char.utf8Size _ _ (hn _ (List.mem_cons_self ..))
      (f.value.chars ++ (afterCommas (fs.map Field.chars) ++ '\x7d' :: u))
    have hvalue := (h (f, name, x) (List.mem_cons_self ..)).inside outer
      (.object [] name :: stack) (by rw [List.length_cons]; omega) f.value.before_blank
      (stops_rest f.value.after_blank (fs.map Field.chars) (c := '\x7d') (by decide) u)
    rw [(Raw.IsObject.members hne ht).chars_cons] at hfront ⊢
    have hplain : unwraps = true → name ≠ wrapperName := fun hu he =>
      hw hu ⟨f, rfl, he ▸ hn _ (List.mem_cons_self ..)⟩
    rw [decodeValue_object hfront hopen (f.skipBlank_chars _) hname hplain, Padded.chars,
      List.append_assoc, List.append_assoc, hvalue,
      decodeAfter_members hd hrest (fun q hq => hn q (List.mem_cons_of_mem _ hq))
        (fun q hq => h q (List.mem_cons_of_mem _ hq)) _ _ _ f.value.after_blank]
    rfl

theorem decodes_wrapper (hk : depth < depthLimit) {f : Field} (ho : r.IsObject [f])
    (hn : f.Named wrapperName) {text : String} (hs : f.value.text.IsString text) {x : Value}
    (hx : unwrap text = .ok x) : Decodes true depth r x := by
  intro outer stack b u hd hb _
  have hfront := ho.isText.skipBlank_padded hb u
  rw [ho.chars_cons] at hfront ⊢
  have hread : readString? Char.utf8Size .wrapped (f.value.chars ++ '\x7d' :: u) =
      .ok (text, f.value.after ++ '\x7d' :: u) := by
    rw [Padded.chars, List.append_assoc, List.append_assoc]
    exact hs.readString? .wrapped f.value.before_blank _
  exact decodeValue_wrapper hfront (mayOpen_of_lt hd hk) (f.skipBlank_chars _) (hn.readName _)
    hread hx (closeObject_append f.value.after_blank u)

end Whole

/-! ### What is refused -/

theorem length_lt_afterCommas {parts : List (List Char)} {t : List Char} (h : t ∈ parts) :
    t.length < (afterCommas parts).length := by
  induction parts with
  | nil => cases h
  | cons p parts ih =>
    rw [afterCommas_cons, List.length_cons, List.length_append]
    rcases List.mem_cons.mp h with rfl | h
    · omega
    · have := ih h
      omega

theorem length_lt_between {parts : List (List Char)} {t : List Char} (h : t ∈ parts) (c c' : Char) :
    t.length < (c :: List.intercalate [','] parts ++ [c']).length := by
  obtain ⟨p, parts, rfl⟩ := List.exists_cons_of_ne_nil (List.ne_nil_of_mem h)
  rw [intercalate_cons, List.length_append, List.length_cons, List.length_append]
  rcases List.mem_cons.mp h with rfl | h
  · omega
  · have := length_lt_afterCommas h
    omega

theorem Padded.length_le (p : Padded) : p.text.chars.length ≤ p.chars.length := by
  simp only [Padded.chars, List.length_append]
  omega

theorem Field.length_le (f : Field) : f.value.text.chars.length ≤ f.chars.length := by
  have := f.value.length_le
  simp only [Field.chars, List.length_append, List.length_cons]
  omega

theorem Raw.IsList.length_lt {r : Raw} {items : List Raw} (h : r.IsList items) :
    ∀ a ∈ items, a.chars.length < r.chars.length := by
  intro a ha
  cases h with
  | empty => cases ha
  | items =>
    obtain ⟨p, hp, rfl⟩ := List.mem_map.mp ha
    exact Nat.lt_of_le_of_lt p.length_le (length_lt_between (List.mem_map_of_mem hp) _ _)

theorem Raw.IsObject.length_lt {r : Raw} {fields : List Field} (h : r.IsObject fields) :
    ∀ f ∈ fields, f.value.text.chars.length < r.chars.length := by
  intro f hf
  cases h with
  | empty => cases hf
  | members =>
    exact Nat.lt_of_le_of_lt f.length_le (length_lt_between (List.mem_map_of_mem hf) _ _)

theorem Raw.IsList.items_isText {r : Raw} {items : List Raw} (h : r.IsList items) :
    ∀ a ∈ items, a.IsText := by
  cases h with
  | empty => exact fun _ ha => by cases ha
  | items hne h =>
    intro a ha
    obtain ⟨p, hp, rfl⟩ := List.mem_map.mp ha
    exact h p hp

theorem Raw.IsObject.values_isText {r : Raw} {fields : List Field} (h : r.IsObject fields) :
    ∀ f ∈ fields, f.value.text.IsText := by
  cases h with
  | empty => exact fun _ hf => by cases hf
  | members hne h => exact h

/-- A choice for each element. -/
theorem exists_parts {P : α → β → Prop} {l : List α} (h : ∀ a ∈ l, ∃ b, P a b) :
    ∃ parts : List (α × β), parts.map Prod.fst = l ∧ ∀ p ∈ parts, P p.1 p.2 := by
  induction l with
  | nil => exact ⟨[], rfl, fun _ hp => by cases hp⟩
  | cons a l ih =>
    obtain ⟨b, hb⟩ := h a (List.mem_cons_self ..)
    obtain ⟨parts, hparts, hall⟩ := ih fun a ha => h a (List.mem_cons_of_mem _ ha)
    refine ⟨(a, b) :: parts, by rw [List.map_cons, hparts], fun p hp => ?_⟩
    rcases List.mem_cons.mp hp with rfl | hp
    · exact hb
    · exact hall p hp

section Refusals
variable {depth outer : Nat} {stack : List Building} {r : Raw}

/-- An element that is refused, after others that are decoded. -/
theorem refused_elements (hd : outer + stack.length = depth) {p : Padded} {ps : List Padded}
    (ht : ∀ q ∈ p :: ps, q.text.IsText)
    (h : ∀ q ∈ p :: ps, (∃ x, Decodes unwraps (depth + 1) q.text x) ∨
      Refused unwraps (depth + 1) q.text)
    (hbad : ∃ q ∈ p :: ps, Refused unwraps (depth + 1) q.text) (done : List Value) (u : List Char)
    (y : Value × List Char) :
    decodeValue Char.utf8Size unwraps outer (.list done :: stack)
        (p.text.chars ++ (p.after ++ (afterCommas (ps.map Padded.chars) ++ ']' :: u))) ≠
      .ok y := by
  induction ps generalizing p done with
  | nil =>
    obtain ⟨q, hq, hno⟩ := hbad
    cases List.mem_singleton.mp hq
    exact hno (b := []) (by rw [List.length_cons]; omega) (fun _ hc => by cases hc)
      (stops_rest p.after_blank [] (c := ']') (by decide) u) y
  | cons p' ps ih =>
    have hlen : outer + (Building.list done :: stack).length = depth + 1 := by
      rw [List.length_cons]
      omega
    have hstop := stops_rest p.after_blank ((p' :: ps).map Padded.chars) (c := ']') (by decide) u
    by_cases hno : Refused unwraps (depth + 1) p.text
    · exact hno hlen (b := []) (fun _ hc => by cases hc) hstop y
    · obtain ⟨x, hx⟩ := (h p (List.mem_cons_self ..)).resolve_right hno
      have hvalue := hx hlen (b := []) (fun _ hc => by cases hc) hstop
      rw [List.nil_append] at hvalue
      have hp' := ht p' (List.mem_cons_of_mem _ (List.mem_cons_self ..))
      obtain ⟨c, w, hfront, hc, hw⟩ := hp'.skipBlank_chars
        (afterCommas (ps.map Padded.chars) ++ ']' :: u)
      rw [hvalue, List.map_cons, afterCommas_cons, List.cons_append, List.append_assoc,
        decodeAfter_nextElement (skipBlank_append p.after_blank (by decide) _) hfront hc, hw]
      refine ih (fun q hq => ht q (List.mem_cons_of_mem p hq))
        (fun q hq => h q (List.mem_cons_of_mem p hq)) ?_ _
      obtain ⟨q, hq, hq'⟩ := hbad
      rcases List.mem_cons.mp hq with rfl | hq
      · exact absurd hq' hno
      · exact ⟨q, hq, hq'⟩

/-- A member that is refused for its name or its value, after others that are decoded. -/
theorem refused_members (hd : outer + stack.length = depth) {f : Field} {fs : List Field}
    {name : String} (hname : f.Named name)
    (h : ∀ g ∈ f :: fs, (∃ x, Decodes unwraps (depth + 1) g.value.text x) ∨
      Refused unwraps (depth + 1) g.value.text)
    (hbad : ∃ g ∈ f :: fs, meaning? g.name = none ∨ Refused unwraps (depth + 1) g.value.text)
    (done : List (String × Value)) (u : List Char) (y : Value × List Char) :
    decodeValue Char.utf8Size unwraps outer (.object done name :: stack)
        (f.value.chars ++ (afterCommas (fs.map Field.chars) ++ '\x7d' :: u)) ≠ .ok y := by
  induction fs generalizing f name done with
  | nil =>
    obtain ⟨g, hg, hbad⟩ := hbad
    cases List.mem_singleton.mp hg
    rcases hbad with hm | hno
    · cases hname.symm.trans hm
    · rw [Padded.chars, List.append_assoc, List.append_assoc]
      exact hno (by rw [List.length_cons]; omega) f.value.before_blank
        (stops_rest f.value.after_blank [] (c := '\x7d') (by decide) u) y
  | cons g fs ih =>
    have hlen : outer + (Building.object done name :: stack).length = depth + 1 := by
      rw [List.length_cons]
      omega
    have hstop := stops_rest f.value.after_blank ((g :: fs).map Field.chars) (c := '\x7d')
      (by decide) u
    rw [Padded.chars, List.append_assoc, List.append_assoc]
    by_cases hno : Refused unwraps (depth + 1) f.value.text
    · exact hno hlen f.value.before_blank hstop y
    obtain ⟨x, hx⟩ := (h f (List.mem_cons_self ..)).resolve_right hno
    have hrest : ∃ k ∈ g :: fs, meaning? k.name = none ∨
        Refused unwraps (depth + 1) k.value.text := by
      obtain ⟨k, hk, hk'⟩ := hbad
      rcases List.mem_cons.mp hk with rfl | hk
      · rcases hk' with hm | hk'
        · cases hname.symm.trans hm
        · exact absurd hk' hno
      · exact ⟨k, hk, hk'⟩
    rw [hx hlen f.value.before_blank hstop, List.map_cons, afterCommas_cons, List.cons_append,
      List.append_assoc]
    have hcomma {u : List Char} : skipBlank (f.value.after ++ ',' :: u) = ',' :: u :=
      skipBlank_append f.value.after_blank (by decide) u
    rcases g.named_or_meaningless with ⟨next, hg⟩ | hm
    · rw [decodeAfter_nextMember hcomma (g.skipBlank_chars _) (hg.readName _)]
      exact ih hg (fun k hk => h k (List.mem_cons_of_mem f hk)) hrest _
    · exact decodeAfter_nameless hcomma (g.skipBlank_chars _) (readName_meaningless hm _) y

theorem refused_list {items : List Raw} (hl : r.IsList items)
    (h : ∀ a ∈ items, (∃ x, Decodes unwraps (depth + 1) a x) ∨ Refused unwraps (depth + 1) a)
    (hbad : ∃ a ∈ items, Refused unwraps (depth + 1) a) : Refused unwraps depth r := by
  intro outer stack b u hd hb _ y
  have hfront := hl.isText.skipBlank_padded hb u
  cases hl with
  | empty =>
    obtain ⟨_, ha, -⟩ := hbad
    cases ha
  | @items ps hne ht =>
    obtain ⟨p, ps, rfl⟩ := List.exists_cons_of_ne_nil hne
    obtain ⟨c, w, hfirst, hc, hw⟩ := (ht p (List.mem_cons_self ..)).skipBlank_chars
      (afterCommas (ps.map Padded.chars) ++ ']' :: u)
    have hchars : writeList ((p :: ps).map Padded.chars) ++ u =
        '[' :: (p.chars ++ (afterCommas (ps.map Padded.chars) ++ ']' :: u)) := by
      rw [List.map_cons, writeList_cons]
      simp
    rw [hchars] at hfront ⊢
    cases hopen : mayOpen outer stack with
    | false => exact decodeValue_tooDeep hopen (.inl hfront) y
    | true =>
      rw [decodeValue_list hfront hopen hfirst hc, hw]
      refine refused_elements hd ht (fun q hq => h q.text (List.mem_map_of_mem hq)) ?_ [] u y
      obtain ⟨a, ha, hno⟩ := hbad
      obtain ⟨q, hq, rfl⟩ := List.mem_map.mp ha
      exact ⟨q, hq, hno⟩

theorem refused_object {fields : List Field} (ho : r.IsObject fields)
    (h : ∀ f ∈ fields, (∃ x, Decodes unwraps (depth + 1) f.value.text x) ∨
      Refused unwraps (depth + 1) f.value.text)
    (hbad : ∃ f ∈ fields, meaning? f.name = none ∨ Refused unwraps (depth + 1) f.value.text)
    (hw : unwraps = true → ¬IsWrapper fields) : Refused unwraps depth r := by
  intro outer stack b u hd hb _ y
  have hfront := ho.isText.skipBlank_padded hb u
  cases ho with
  | empty =>
    obtain ⟨_, hf, -⟩ := hbad
    cases hf
  | @members fs hne ht =>
    obtain ⟨f, fs, rfl⟩ := List.exists_cons_of_ne_nil hne
    rw [(Raw.IsObject.members hne ht).chars_cons] at hfront ⊢
    rcases f.named_or_meaningless with ⟨name, hf⟩ | hm
    · cases hopen : mayOpen outer stack with
      | false => exact decodeValue_tooDeep hopen (.inr hfront) y
      | true =>
        have hplain : unwraps = true → name ≠ wrapperName := fun hu he => hw hu ⟨f, rfl, he ▸ hf⟩
        rw [decodeValue_object hfront hopen (f.skipBlank_chars _) (hf.readName _) hplain]
        exact refused_members hd hf h hbad [] u y
    · exact decodeValue_nameless hfront (f.skipBlank_chars _) (readName_meaningless hm _) y

/-- A wrapper is refused unless all it holds is the text of a value. -/
theorem refused_wrapper {fields : List Field} (ho : r.IsObject fields) (hw : IsWrapper fields)
    (hbad : ∀ f text x, fields = [f] → f.value.text.IsString text → unwrap text ≠ .ok x) :
    Refused true depth r := by
  rintro outer stack b u hd hb - y hy
  obtain ⟨f, hf, hname⟩ := hw
  obtain ⟨fs, rfl⟩ := List.head?_eq_some_iff.mp hf
  have hfront := ho.isText.skipBlank_padded hb u
  rw [ho.chars_cons] at hfront hy
  obtain ⟨text, v, x, z, hread, hx, hclose, -⟩ :=
    decodeValue_wrapper_eq_ok hfront (f.skipBlank_chars _) (hname.readName _) hy
  rw [Padded.chars, List.append_assoc, List.append_assoc] at hread
  obtain ⟨hstring, rfl⟩ := (ho.values_isText f (List.mem_cons_self ..)).of_readString?
    f.value.before_blank hread
  cases fs with
  | nil => exact hbad f text x rfl hstring hx
  | cons g fs =>
    have hend := closeObject_eq_ok hclose
    rw [List.map_cons, afterCommas_cons, List.cons_append,
      skipBlank_append f.value.after_blank (by decide)] at hend
    cases hend

/-- No list and no object is decoded where no more may be opened. -/
theorem refused_tooDeep (hk : ¬depth < depthLimit) (h : r.IsText)
    (hr : ∃ v, r.chars = '[' :: v ∨ r.chars = '\x7b' :: v) : Refused unwraps depth r := by
  intro outer stack b u hd hb _ y
  have hopen : mayOpen outer stack = false := decide_eq_false (hd.symm ▸ hk)
  have hfront := h.skipBlank_padded hb u
  obtain ⟨v, hv | hv⟩ := hr
  · rw [hv, List.cons_append] at hfront ⊢
    exact decodeValue_tooDeep hopen (.inl hfront) y
  · rw [hv, List.cons_append] at hfront ⊢
    exact decodeValue_tooDeep hopen (.inr hfront) y

end Refusals

/-! ### A whole text -/

theorem decodes_scalar {depth : Nat} {r : Raw} {c : Char} {v : List Char} {x : Value}
    (hr : r.chars = c :: v) (hb : isBlank c = false) (hl : c ≠ '[') (ho : c ≠ '\x7b')
    (h : ∀ u, Stops u → readScalar Char.utf8Size c (v ++ u) = .ok (x, u)) :
    Decodes unwraps depth r x := by
  intro outer stack b u _ hblank hu
  refine decodeValue_scalar ?_ hl ho (h u hu)
  rw [hr, List.cons_append]
  exact skipBlank_append hblank hb (v ++ u)

/-- **A text is decoded as what it denotes.** -/
theorem Denotes.decodes {depth : Nat} {r : Raw} {x : Value} (h : Denotes unwraps depth r x) :
    Decodes unwraps depth r x := by
  induction h with
  | scalar hr hb hl ho hs h =>
    rcases readScalar_settles hs with ⟨y, hy⟩ | hno
    · have := hy [] (Heads.nil _)
      rw [List.append_nil, h] at this
      cases this
      exact decodes_scalar hr hb hl ho hy
    · exact (hno [] (Heads.nil _) _ ((congrArg _ (List.append_nil _)).trans h)).elim
  | list hk hl _ ih => exact decodes_list hk hl rfl ih
  | object hk ho hn _ hw ih => exact decodes_object hk ho rfl hn ih hw
  | wrapped hu hk ho hn hs h => exact hu ▸ decodes_wrapper hk ho hn hs h

/-- **A text denotes a value or is refused.** -/
theorem Raw.IsText.settles {r : Raw} (h : r.IsText) (depth : Nat) :
    (∃ x, Denotes unwraps depth r x) ∨ Refused unwraps depth r := by
  induction hn : r.chars.length using Nat.strongRecOn generalizing r depth with
  | ind n ih =>
    subst hn
    rcases Raw.isText_cases h with ⟨items, hl⟩ | ⟨fields, ho⟩ | ⟨c, v, hr, hb, hl, ho, hs⟩
    · by_cases hk : depth < depthLimit
      · have hitem (a : Raw) (ha : a ∈ items) :=
          ih _ (hl.length_lt a ha) (hl.items_isText a ha) (depth + 1) rfl
        by_cases hall : ∀ a ∈ items, ∃ x, Denotes unwraps (depth + 1) a x
        · obtain ⟨parts, rfl, hparts⟩ := exists_parts hall
          exact .inl ⟨_, .list hk hl hparts⟩
        · push Not at hall
          obtain ⟨a, ha, hno⟩ := hall
          refine .inr (refused_list hl (fun q hq => ?_)
            ⟨a, ha, (hitem a ha).resolve_left fun ⟨x, hx⟩ => hno x hx⟩)
          exact (hitem q hq).imp_left fun ⟨x, hx⟩ => ⟨x, hx.decodes⟩
      · obtain ⟨v, hv⟩ := hl.bracket
        exact .inr (refused_tooDeep hk h ⟨v, .inl hv⟩)
    · by_cases hk : depth < depthLimit
      · have hvalue (f : Field) (hf : f ∈ fields) :=
          ih _ (ho.length_lt f hf) (ho.values_isText f hf) (depth + 1) rfl
        by_cases hw : unwraps = true ∧ IsWrapper fields
        · obtain ⟨rfl, hw⟩ := hw
          by_cases hone : ∃ f text x, fields = [f] ∧ f.value.text.IsString text ∧
              unwrap text = .ok x
          · obtain ⟨f, text, x, rfl, hs, hx⟩ := hone
            obtain ⟨_, hf, hname⟩ := hw
            cases hf
            exact .inl ⟨x, .wrapped rfl hk ho hname hs hx⟩
          · exact .inr (refused_wrapper ho hw fun f text x hf hs hx =>
              hone ⟨f, text, x, hf, hs, hx⟩)
        have hw : unwraps = true → ¬IsWrapper fields := fun hu hi => hw ⟨hu, hi⟩
        by_cases hall : ∀ f ∈ fields, ∃ p : String × Value, f.Named p.1 ∧
            Denotes unwraps (depth + 1) f.value.text p.2
        · obtain ⟨parts, rfl, hparts⟩ := exists_parts hall
          exact .inl ⟨_, .object hk ho (fun p hp => (hparts p hp).1)
            (fun p hp => (hparts p hp).2) hw⟩
        · push Not at hall
          obtain ⟨f, hf, hno⟩ := hall
          refine .inr (refused_object ho (fun g hg => ?_) ⟨f, hf, ?_⟩ hw)
          · exact (hvalue g hg).imp_left fun ⟨x, hx⟩ => ⟨x, hx.decodes⟩
          · rcases f.named_or_meaningless with ⟨name, hname⟩ | hm
            · exact .inr ((hvalue f hf).resolve_left fun ⟨x, hx⟩ => hno (name, x) hname hx)
            · exact .inl hm
      · obtain ⟨v, hv⟩ := ho.brace
        exact .inr (refused_tooDeep hk h ⟨v, .inr hv⟩)
    · rcases readScalar_settles hs with ⟨x, hx⟩ | hno
      · have := hx [] (Heads.nil _)
        rw [List.append_nil] at this
        exact .inl ⟨x, .scalar hr hb hl ho hs this⟩
      · refine .inr fun outer stack b u _ hblank hu y => ?_
        refine decodeValue_unreadable ?_ hl ho (hno u hu) y
        rw [hr, List.cons_append]
        exact Json.skipBlank_append hblank hb (v ++ u)

section
variable {depth : Nat} {r : Raw} {x y : Value} {b u : List Char}

theorem Denotes.decode (h : Denotes unwraps depth r x) (hb : Blank b) (hu : Stops u) :
    decode Char.utf8Size unwraps depth (b ++ (r.chars ++ u)) = .ok (x, u) := by
  rw [Json.decode, h.decodes (List.length_nil ▸ rfl) hb hu, decodeAfter_nil]

theorem Refused.decode (h : Refused unwraps depth r) (hb : Blank b) (hu : Stops u)
    (y : Value × List Char) :
    decode Char.utf8Size unwraps depth (b ++ (r.chars ++ u)) ≠ .ok y :=
  h (List.length_nil ▸ rfl) hb hu y

/-- A text denotes one value. -/
theorem Denotes.unique (h : Denotes unwraps depth r x) (h' : Denotes unwraps depth r y) :
    x = y := by
  have := (h.decode blank_nil (Heads.nil _)).symm.trans (h'.decode blank_nil (Heads.nil _))
  cases this
  rfl

end

end Switchboard.Json
