import Mathlib.Data.List.Nodup
import Switchboard.Proofs.Json.Scalars
import Switchboard.Proofs.Json.Spelling
import Switchboard.Proofs.Json.Stricter

/-! What texts mean, exactly.

A text means a value whose numbers are exact and whose objects keep every member (`Means`), and it
means only one (`Means.unique`). What a value is written as means the value (`Value.write_means`).
A text that is decoded may come to mean something else: it keeps its meaning exactly when it is
faithful, that is when each number in it is one that decoding keeps and no object in it has two
members of one name or is a wrapper (`Denotes.meaning_iff`). -/
namespace Switchboard.Json

/-- A value with exact numbers and with all the members of its objects. -/
inductive Meaning where
  | null
  | bool (value : Bool)
  | number (value : ℚ)
  | string (value : String)
  | list (items : List Meaning)
  | object (members : List (String × Meaning))

/-- What the text means. -/
inductive Means : Raw → Meaning → Prop
  | null : Means Raw.null .null
  | bool (b : Bool) : Means ⟨(Value.bool b).write⟩ (.bool b)
  | number {r : Raw} {n : Numeral} (hr : r.chars = n.chars) : Means r (.number n.value)
  | string {r : Raw} {s : String} (hs : r.IsString s) : Means r (.string s)
  | list {r : Raw} {parts : List (Raw × Meaning)} (hl : r.IsList (parts.map Prod.fst))
      (h : ∀ p ∈ parts, Means p.1 p.2) : Means r (.list (parts.map Prod.snd))
  | object {r : Raw} {parts : List (Field × String × Meaning)}
      (ho : r.IsObject (parts.map Prod.fst)) (hn : ∀ p ∈ parts, p.1.Named p.2.1)
      (h : ∀ p ∈ parts, Means p.1.value.text p.2.2) : Means r (.object (parts.map Prod.snd))

mutual

/-- What the value means once it is written. -/
def Value.meaning : Value → Meaning
  | .null => .null
  | .bool b => .bool b
  | .number x => .number x.spelt
  | .string s => .string s
  | .array items => .list (Value.meaningItems items)
  | .object members => .object (Value.meaningMembers members)

def Value.meaningItems : List Value → List Meaning
  | [] => []
  | v :: rest => v.meaning :: Value.meaningItems rest

def Value.meaningMembers : List (String × Value) → List (String × Meaning)
  | [] => []
  | (name, v) :: rest => (name, v.meaning) :: Value.meaningMembers rest

end

theorem Value.meaning_array (items : List Value) :
    (array items).meaning = .list (items.map Value.meaning) := by
  have hall (items : List Value) : meaningItems items = items.map Value.meaning := by
    induction items with
    | nil => rfl
    | cons v items ih => rw [meaningItems, ih, List.map_cons]
  rw [meaning, hall]

theorem Value.meaning_object (members : List (String × Value)) :
    (object members).meaning = .object (members.map fun m => (m.1, m.2.meaning)) := by
  have hall (members : List (String × Value)) :
      meaningMembers members = members.map fun m => (m.1, m.2.meaning) := by
    induction members with
    | nil => rfl
    | cons m members ih => rw [meaningMembers, ih, List.map_cons]
  rw [meaning, hall]

/-! ### Objects are laid out in one way -/

/-- The name as it is spelt and the text, without the blanks. -/
def Field.bare (f : Field) : List Char × Raw := (spell f.name, f.value.text)

theorem Field.Named.of_bare {f g : Field} {name : String} (hf : f.Named name)
    (h : f.bare = g.bare) : g.Named name := by
  have hread := @Field.Named.readText Char.utf8Size _ _ hf []
  rw [show spell f.name = spell g.name from congrArg Prod.fst h] at hread
  rcases g.named_or_meaningless with ⟨name', hg⟩ | hm
  · cases hread.symm.trans (hg.readText [])
    exact hg
  · exact absurd hread (readText_meaningless hm [] _)

/-- What follows a member is found in one way. -/
theorem Field.unique {f g : Field} (hf : f.value.text.IsText) (hg : g.value.text.IsText)
    {u u' : List Char} (hu : Stops (f.value.after ++ u)) (hu' : Stops (g.value.after ++ u'))
    (h : skipBlank (f.chars ++ u) = skipBlank (g.chars ++ u')) :
    f.bare = g.bare ∧ f.value.after ++ u = g.value.after ++ u' := by
  rw [f.skipBlank_chars, g.skipBlank_chars] at h
  have hname := (List.cons.inj h).2
  have hrest : f.gap ++ ':' :: (f.value.chars ++ u) = g.gap ++ ':' :: (g.value.chars ++ u') := by
    have := congrArg (skimString Char.utf8Size) hname
    rw [skimString_spell, skimString_spell] at this
    exact Except.ok.inj this
  have hspell : spell f.name = spell g.name := by
    rw [hrest] at hname
    exact List.append_cancel_right hname
  have hvalue : f.value.chars ++ u = g.value.chars ++ u' := by
    have := congrArg skipBlank hrest
    rw [skipBlank_append f.gap_blank (by decide), skipBlank_append g.gap_blank (by decide)] at this
    exact (List.cons.inj this).2
  simp only [Padded.chars, List.append_assoc] at hvalue
  obtain ⟨ht, hafter⟩ := hf.unique_padded hg f.value.before_blank g.value.before_blank hu hu' hvalue
  exact ⟨Prod.ext hspell ht, hafter⟩

theorem members_unique {fs gs : List Field} (hf : ∀ f ∈ fs, f.value.text.IsText)
    (hg : ∀ g ∈ gs, g.value.text.IsText) {b b' : List Char} (hb : Blank b) (hb' : Blank b')
    (h : b ++ (afterCommas (fs.map Field.chars) ++ ['\x7d']) =
      b' ++ (afterCommas (gs.map Field.chars) ++ ['\x7d'])) : fs.map Field.bare = gs.map Field.bare := by
  have front (fs : List Field) {b : List Char} (hb : Blank b) :
      skipBlank (b ++ (afterCommas (fs.map Field.chars) ++ ['\x7d'])) =
        afterCommas (fs.map Field.chars) ++ ['\x7d'] := by
    cases fs with
    | nil => exact skipBlank_append hb (by decide) []
    | cons f fs =>
      rw [List.map_cons, afterCommas_cons, List.cons_append]
      exact skipBlank_append hb (by decide) _
  induction fs generalizing gs b b' with
  | nil =>
    have hsame := (front [] hb).symm.trans ((congrArg skipBlank h).trans (front gs hb'))
    cases gs with
    | nil => rfl
    | cons g gs =>
      rw [List.map_cons, afterCommas_cons, List.cons_append] at hsame
      cases hsame
  | cons f fs ih =>
    have hsame := (front (f :: fs) hb).symm.trans ((congrArg skipBlank h).trans (front gs hb'))
    rw [List.map_cons, afterCommas_cons, List.cons_append] at hsame
    cases gs with
    | nil => cases hsame
    | cons g gs =>
      rw [List.map_cons, afterCommas_cons, List.cons_append, List.append_assoc,
        List.append_assoc] at hsame
      have hstops (f : Field) (fs : List Field) :
          Stops (f.value.after ++ (afterCommas (fs.map Field.chars) ++ ['\x7d'])) :=
        stops_rest f.value.after_blank _ (by decide) []
      obtain ⟨hbare, hrest⟩ := Field.unique (hf f (List.mem_cons_self ..))
        (hg g (List.mem_cons_self ..)) (hstops f fs) (hstops g gs)
        (congrArg skipBlank (List.cons.inj hsame).2)
      have hothers := ih (fun k hk => hf k (List.mem_cons_of_mem f hk))
        (fun k hk => hg k (List.mem_cons_of_mem g hk)) f.value.after_blank g.value.after_blank hrest
      rw [List.map_cons, List.map_cons, hbare, hothers]

/-- **An object is laid out with one list of members**, up to the blanks. -/
theorem Raw.IsObject.unique {r : Raw} {fs gs : List Field} (h : r.IsObject fs)
    (h' : r.IsObject gs) : fs.map Field.bare = gs.map Field.bare := by
  have hf := h.values_isText
  have hg := h'.values_isText
  -- with a comma in place of the brace, all members are laid out alike
  have opened {r : Raw} {fields : List Field} (h : r.IsObject fields) :
      ∃ u, r.chars = '\x7b' :: u ∧ ((fields = [] ∧ skipBlank u = ['\x7d']) ∨
        ',' :: u = afterCommas (fields.map Field.chars) ++ ['\x7d'] ∧ ∃ v, skipBlank u = '"' :: v) := by
    cases h with
    | empty hb => exact ⟨_, rfl, .inl ⟨rfl, skipBlank_append hb (by decide) []⟩⟩
    | members hne =>
      obtain ⟨f, rest, rfl⟩ := List.exists_cons_of_ne_nil hne
      refine ⟨_, by rw [List.map_cons, writeObject_cons], .inr ⟨?_, _, f.skipBlank_chars _⟩⟩
      rw [List.map_cons, afterCommas_cons, List.cons_append, List.append_assoc]
  obtain ⟨u, hr, hu⟩ := opened h
  obtain ⟨u', hr', hu'⟩ := opened h'
  cases hr.symm.trans hr'
  rcases hu with ⟨rfl, he⟩ | ⟨hu, v, hv⟩
  · rcases hu' with ⟨rfl, -⟩ | ⟨-, v, hv⟩
    · rfl
    · cases he.symm.trans hv
  · rcases hu' with ⟨rfl, he⟩ | ⟨hu', -⟩
    · cases he.symm.trans hv
    · exact members_unique hf hg blank_nil blank_nil (hu.symm.trans hu')

/-! ### Kinds of texts -/

section Kinds
variable {r : Raw} {m : Meaning}

/-- What a text begins with says what it may be. -/
theorem Numeral.front_of {n : Numeral} (hr : r.chars = n.chars) {c : Char} {v : List Char}
    (hc : r.chars = c :: v) : c = '-' ∨ isDigit c = true := by
  obtain ⟨d, w, hd, hcase⟩ := n.front
  cases hc.symm.trans (hr.trans hd)
  rcases hcase with ⟨-, rfl, -⟩ | ⟨-, hd, -⟩
  · exact .inl rfl
  · exact .inr hd

theorem Means.of_list (h : Means r m) {items : List Raw} (hl : r.IsList items) :
    ∃ parts : List (Raw × Meaning), parts.map Prod.fst = items ∧ m = .list (parts.map Prod.snd) ∧
      ∀ p ∈ parts, Means p.1 p.2 := by
  obtain ⟨v, hv⟩ := hl.bracket
  cases h with
  | null => cases hv
  | bool b => cases b <;> cases hv
  | number hr => rcases Numeral.front_of hr hv with hc | hc <;> cases hc
  | string hs =>
    obtain ⟨ps, hr, -⟩ := hs
    cases hr.symm.trans hv
  | @list _ parts hl' hparts =>
    exact ⟨parts, Except.ok.inj (hl'.elements.symm.trans hl.elements), rfl, hparts⟩
  | object ho =>
    obtain ⟨w, hw⟩ := ho.brace
    cases hv.symm.trans hw

theorem Means.of_object (h : Means r m) {fields : List Field} (ho : r.IsObject fields) :
    ∃ parts : List (Field × String × Meaning),
      fields.map Field.bare = parts.map (fun p => p.1.bare) ∧ m = .object (parts.map Prod.snd) ∧
      (∀ p ∈ parts, p.1.Named p.2.1) ∧ ∀ p ∈ parts, Means p.1.value.text p.2.2 := by
  obtain ⟨v, hv⟩ := ho.brace
  cases h with
  | null => cases hv
  | bool b => cases b <;> cases hv
  | number hr => rcases Numeral.front_of hr hv with hc | hc <;> cases hc
  | string hs =>
    obtain ⟨ps, hr, -⟩ := hs
    cases hr.symm.trans hv
  | list hl =>
    obtain ⟨w, hw⟩ := hl.bracket
    cases hv.symm.trans hw
  | @object _ parts ho' hn hparts =>
    exact ⟨parts, (ho.unique ho').trans (List.map_map ..), rfl, hn, hparts⟩

end Kinds

/-- A whole number's digits mean the number. -/
theorem Raw.IsWhole.means {r : Raw} {i : Int} (h : r.IsWhole i) : Means r (.number i) := by
  have := Means.number h.numeral
  rwa [Numeral.value_ofInt] at this

/-! ### What is in a text -/

/-- The text is that of the other one's value or of a value in it. -/
inductive Inside : Raw → Raw → Prop
  | self {r : Raw} : Inside r r
  | element {r a t : Raw} {items : List Raw} (hl : r.IsList items) (ha : a ∈ items)
      (h : Inside a t) : Inside r t
  | value {r t : Raw} {fields : List Field} {f : Field} (ho : r.IsObject fields) (hf : f ∈ fields)
      (h : Inside f.value.text t) : Inside r t

/-- Decoding keeps what the text means: each number in it is kept, and no object in it has two
members of one name or is a wrapper. -/
def Faithful (r : Raw) : Prop :=
  ∀ t, Inside r t → (∀ n : Numeral, t.chars = n.chars → n.Kept) ∧
    ∀ fields, t.IsObject fields → Apart fields ∧ ¬IsWrapper fields

section Faithful
variable {r : Raw}

theorem faithful_scalar (h : r.IsScalar) : Faithful r ↔ ∀ n : Numeral, r.chars = n.chars → n.Kept := by
  obtain ⟨c, v, hr, -, hl, ho, -⟩ := h
  have hlist (items : List Raw) : ¬r.IsList items := fun h => by
    obtain ⟨w, hw⟩ := h.bracket
    exact hl (List.cons.inj (hr.symm.trans hw)).1
  have hobject (fields : List Field) : ¬r.IsObject fields := fun h => by
    obtain ⟨w, hw⟩ := h.brace
    exact ho (List.cons.inj (hr.symm.trans hw)).1
  constructor
  · exact fun h => (h r .self).1
  · intro h t ht
    cases ht with
    | self => exact ⟨h, fun fields hf => absurd hf (hobject fields)⟩
    | element hl' => exact absurd hl' (hlist _)
    | value ho' => exact absurd ho' (hobject _)

/-- The digits of a number that is kept exactly are faithful. -/
theorem Raw.IsWhole.faithful {i : Int} (h : r.IsWhole i) (hi : InWords i) : Faithful r :=
  (faithful_scalar (Numeral.isScalar _ h.numeral)).mpr fun n hn =>
    n.kept_whole hi (hn.symm.trans h)

theorem faithful_list {items : List Raw} (hl : r.IsList items) :
    Faithful r ↔ ∀ a ∈ items, Faithful a := by
  obtain ⟨v, hv⟩ := hl.bracket
  have hobject (fields : List Field) : ¬r.IsObject fields := fun h => by
    obtain ⟨w, hw⟩ := h.brace
    cases hv.symm.trans hw
  constructor
  · exact fun h a ha t ht => h t (.element hl ha ht)
  · intro h t ht
    cases ht with
    | self =>
      refine ⟨fun n hn => ?_, fun fields hf => absurd hf (hobject fields)⟩
      rcases Numeral.front_of hn hv with hc | hc <;> cases hc
    | element hl' ha ht =>
      cases hl.elements.symm.trans hl'.elements
      exact h _ ha t ht
    | value ho' => exact absurd ho' (hobject _)

theorem Apart.of_bare {fs gs : List Field} (h : fs.map Field.bare = gs.map Field.bare)
    (ha : Apart fs) : Apart gs := by
  -- what is apart is told by the bare members
  have key (fs : List Field) : Apart fs ↔ (fs.map Field.bare).Pairwise fun b c =>
      ∀ f g : Field, f.bare = b → g.bare = c → ∀ name, f.Named name → ¬g.Named name := by
    rw [Apart, List.pairwise_map]
    refine ⟨List.Pairwise.imp ?_, List.Pairwise.imp fun hfg => hfg _ _ rfl rfl⟩
    exact fun hfg f' g' hf hg name hn hn' => hfg name (hn.of_bare hf) (hn'.of_bare hg)
  rw [key, ← h]
  exact (key fs).mp ha

theorem IsWrapper.of_bare {fs gs : List Field} (h : fs.map Field.bare = gs.map Field.bare)
    (hw : IsWrapper fs) : IsWrapper gs := by
  obtain ⟨f, hf, hn⟩ := hw
  obtain ⟨fs, rfl⟩ := List.head?_eq_some_iff.mp hf
  obtain ⟨g, gs, rfl, hg, -⟩ := List.map_eq_cons_iff.mp h.symm
  exact ⟨g, rfl, hn.of_bare hg.symm⟩

theorem faithful_object {fields : List Field} (ho : r.IsObject fields) :
    Faithful r ↔ Apart fields ∧ ¬IsWrapper fields ∧ ∀ f ∈ fields, Faithful f.value.text := by
  obtain ⟨v, hv⟩ := ho.brace
  constructor
  · intro h
    obtain ⟨ha, hw⟩ := (h r .self).2 fields ho
    exact ⟨ha, hw, fun f hf t ht => h t (.value ho hf ht)⟩
  · rintro ⟨ha, hw, h⟩ t ht
    cases ht with
    | self =>
      refine ⟨fun n hn => ?_, fun gs hg =>
        ⟨ha.of_bare (ho.unique hg), fun hg' => hw (hg'.of_bare (hg.unique ho))⟩⟩
      rcases Numeral.front_of hn hv with hc | hc <;> cases hc
    | element hl =>
      obtain ⟨w, hw⟩ := hl.bracket
      cases hv.symm.trans hw
    | @value _ _ gs g ho' hg ht =>
      have hmem : g.bare ∈ fields.map Field.bare := ho.unique ho' ▸ List.mem_map_of_mem hg
      obtain ⟨f, hf, hfg⟩ := List.mem_map.mp hmem
      have htext : f.value.text = g.value.text := congrArg Prod.snd hfg
      exact h f hf t (htext ▸ ht)

end Faithful

/-! ### What is gathered -/

section Gathering
variable {members : List (String × Value)}

theorem put_of_not_mem {name : String} {v : Value} (h : name ∉ members.map Prod.fst) :
    put name v members = members ++ [(name, v)] := by
  induction members with
  | nil => rfl
  | cons m members ih =>
    rw [List.map_cons, List.mem_cons, not_or] at h
    have hne : (m.1 == name) = false := by simpa using fun he => h.1 he.symm
    simp only [put, hne, Bool.false_eq_true, if_false, ih h.2, List.cons_append]

theorem put_names {name : String} {v : Value} (h : name ∈ members.map Prod.fst) :
    (put name v members).map Prod.fst = members.map Prod.fst := by
  induction members with
  | nil => cases h
  | cons m members ih =>
    by_cases hm : (m.1 == name) = true
    · simp only [put, hm, if_true, List.map_cons]
    · have hne : name ≠ m.1 := fun he => hm (by rw [he]; exact beq_self_eq_true _)
      rw [List.map_cons, List.mem_cons] at h
      simp only [put, hm, Bool.false_eq_true, if_false, List.map_cons, ih (h.resolve_left hne)]

/-- No name is gathered twice. -/
theorem gather_nodup (members : List (String × Value)) : ((gather members).map Prod.fst).Nodup := by
  have key (done : List (String × Value)) (hd : (done.map Prod.fst).Nodup) :
      ((members.foldl (fun done m => put m.1 m.2 done) done).map Prod.fst).Nodup := by
    induction members generalizing done with
    | nil => exact hd
    | cons m members ih =>
      refine ih _ ?_
      show ((put m.1 m.2 done).map Prod.fst).Nodup
      by_cases hm : m.1 ∈ done.map Prod.fst
      · rwa [put_names hm]
      · rw [put_of_not_mem hm, List.map_append]
        exact List.nodup_append.mpr ⟨hd, List.nodup_singleton _, fun a ha b hb => by
          rintro rfl
          exact hm (List.mem_singleton.mp hb ▸ ha)⟩
  exact key [] List.nodup_nil

/-- Members with names of their own are gathered as they are. -/
theorem gather_of_nodup (h : (members.map Prod.fst).Nodup) : gather members = members := by
  have key (done : List (String × Value)) (hd : ((done ++ members).map Prod.fst).Nodup) :
      members.foldl (fun done m => put m.1 m.2 done) done = done ++ members := by
    induction members generalizing done with
    | nil => exact (List.append_nil _).symm
    | cons m members ih =>
      have hm : m.1 ∉ done.map Prod.fst := by
        rw [List.map_append] at hd
        exact fun hm => (List.nodup_append.mp hd).2.2 _ hm _ (List.mem_cons_self ..) rfl
      have hrest : (members.map Prod.fst).Nodup := (List.nodup_cons.mp h).2
      rw [List.foldl_cons, put_of_not_mem hm, ih hrest, List.append_assoc]
      · rfl
      · rwa [List.append_assoc]
  exact key [] h

end Gathering

/-! ### What decoding keeps -/

/-- Two lists that go together element by element are alike exactly when their elements are. -/
theorem map_eq_map_iff {α β γ δ : Type} {k : α → γ} {k' : β → γ} {f : α → δ} {g : β → δ}
    {Q : α → Prop} {as : List α} {bs : List β} (h : as.map k = bs.map k')
    (hall : ∀ a ∈ as, ∀ b ∈ bs, k a = k' b → (f a = g b ↔ Q a)) :
    as.map f = bs.map g ↔ ∀ a ∈ as, Q a := by
  induction as generalizing bs with
  | nil =>
    cases List.map_eq_nil_iff.mp h.symm
    simp
  | cons a as ih =>
    cases bs with
    | nil => cases h
    | cons b bs =>
      obtain ⟨hk, hrest⟩ := List.cons.inj h
      have hhead := hall a (List.mem_cons_self ..) b (List.mem_cons_self ..) hk
      have htail := ih hrest fun a' ha b' hb =>
        hall a' (List.mem_cons_of_mem a ha) b' (List.mem_cons_of_mem b hb)
      rw [List.map_cons, List.map_cons, List.cons.injEq, hhead, htail, List.forall_mem_cons]

theorem apart_iff_nodup {parts : List (Field × String × Value)} (hn : ∀ p ∈ parts, p.1.Named p.2.1) :
    Apart (parts.map Prod.fst) ↔ ((parts.map Prod.snd).map Prod.fst).Nodup := by
  rw [Apart, List.Nodup, List.map_map, List.pairwise_map, List.pairwise_map]
  refine List.Pairwise.iff_of_mem fun {p q} hp hq => ⟨fun h he => ?_, fun h name hpn hqn => ?_⟩
  · have he : p.2.1 = q.2.1 := he
    exact h p.2.1 (hn p hp) (he ▸ hn q hq)
  · exact h (((hn p hp).unique hpn).trans ((hn q hq).unique hqn).symm)

section Keeping
variable {unwraps : Bool} {depth : Nat} {r : Raw} {x : Value} {m : Meaning}

/-- A scalar keeps its meaning unless it is a number that is not kept. -/
theorem Denotes.scalar_meaning_iff (h : Denotes unwraps depth r x) (hr : r.IsScalar)
    (hm : Means r m) : x.meaning = m ↔ Faithful r := by
  have same {v : List Char} {c : Char} (hc : r.chars = c :: v) (h1 : c ≠ '-')
      (h2 : isDigit c = false) (he : x.meaning = m) : x.meaning = m ↔ Faithful r := by
    refine iff_of_true he ((faithful_scalar hr).mpr fun n hn => ?_)
    rcases Numeral.front_of hn hc with hd | hd
    · exact absurd hd h1
    · exact absurd (h2.symm.trans hd) Bool.false_ne_true
  have hscalar := hr
  obtain ⟨c, v, hcv, -, hl, ho, -⟩ := hr
  cases hm with
  | null =>
    cases h.unique (denotes_null depth)
    exact same (c := 'n') rfl (by decide) (by decide) rfl
  | bool b =>
    cases h.unique (denotes_bool depth b)
    cases b with
    | true => exact same (c := 't') rfl (by decide) (by decide) rfl
    | false => exact same (c := 'f') rfl (by decide) (by decide) rfl
  | @number _ n hn =>
    obtain ⟨z, rfl, hz⟩ := h.of_numeral hn
    rw [Value.meaning, Meaning.number.injEq, faithful_scalar hscalar]
    constructor
    · intro he n' hn' z' hz'
      obtain ⟨_, hx, hread⟩ := h.of_numeral hn'
      cases hx
      cases hread.symm.trans hz'
      exact he.trans (Numeral.value_unique (hn.symm.trans hn'))
    · exact fun hk => hk n hn z hz
  | string hs =>
    cases h.unique (denotes_string hs)
    obtain ⟨ps, hps, -⟩ := hs
    exact same hps (by decide) (by decide) rfl
  | list hl' =>
    obtain ⟨w, hw⟩ := hl'.bracket
    exact absurd (List.cons.inj (hcv.symm.trans hw)).1 hl
  | object ho' =>
    obtain ⟨w, hw⟩ := ho'.brace
    exact absurd (List.cons.inj (hcv.symm.trans hw)).1 ho

/-- The value is no object that begins like a wrapper. -/
def Value.Bare : Value → Prop
  | .object members => ∀ m ∈ members.head?, m.1 ≠ wrapperName
  | _ => True

theorem Raw.IsString.length_le {text : String} (h : r.IsString text) :
    text.toList.length ≤ r.chars.length := by
  obtain ⟨ps, hr, hm⟩ := h
  have := readText_lengths (@readText_spell Char.utf8Size _ _ hm [])
  rw [List.append_nil, String.ofList_toList] at this
  rw [hr, List.length_cons]
  omega

theorem put_names_head {name : String} {v : Value} {m : String × Value}
    {members : List (String × Value)} :
    ∃ w rest, put name v (m :: members) = (m.1, w) :: rest := by
  simp only [put]
  split <;> exact ⟨_, _, rfl⟩

/-- What is gathered begins with the first of the names. -/
theorem gather_head (m : String × Value) (members : List (String × Value)) :
    ∃ w rest, gather (m :: members) = (m.1, w) :: rest := by
  have key (w : Value) (done : List (String × Value)) :
      ∃ w' rest, members.foldl (fun done m => put m.1 m.2 done) ((m.1, w) :: done) =
        (m.1, w') :: rest := by
    induction members generalizing w done with
    | nil => exact ⟨w, done, rfl⟩
    | cons n members ih =>
      obtain ⟨w', rest, h⟩ := @put_names_head n.1 n.2 (m.1, w) done
      rw [List.foldl_cons, h]
      exact ih w' rest
  exact key m.2 []

/-- **What is decoded does not begin like a wrapper itself**, where wrappers are opened. -/
theorem Denotes.bare (h : Denotes true depth r x) : x.Bare := by
  -- a wrapper's text is shorter than the wrapper
  induction hn : r.chars.length using Nat.strongRecOn generalizing depth r x with
  | ind n ih =>
    subst hn
    cases h with
    | @scalar _ _ c v _ hr hb hl ho hs hx =>
      have h : Denotes true depth r x := .scalar hr hb hl ho hs hx
      cases Raw.IsScalar.sort ⟨c, v, hr, hb, hl, ho, hs⟩ with
      | null h0 =>
        cases h.unique (h0 ▸ denotes_null depth)
        trivial
      | bool b hb =>
        cases h.unique (hb ▸ denotes_bool depth b)
        trivial
      | numeral n hn =>
        obtain ⟨z, rfl, -⟩ := h.of_numeral hn
        trivial
      | quoted ps hps =>
        obtain ⟨s, rfl, -⟩ := h.of_quoted hps
        trivial
    | list => trivial
    | @object _ _ parts _ _ hname _ hw =>
      cases parts with
      | nil => exact fun m hm => by cases hm
      | cons p parts =>
        obtain ⟨w, rest, hg⟩ := gather_head p.2 (parts.map Prod.snd)
        rw [List.map_cons, hg]
        rintro _ ⟨⟩ he
        exact hw rfl ⟨p.1, rfl, he ▸ hname p (List.mem_cons_self ..)⟩
    | @wrapped _ _ f text _ _ _ ho _ hs hx =>
      obtain ⟨b, t, b', -, -, -, htext, ht⟩ := unwrap_eq_ok_iff.mp hx
      refine ih _ ?_ ht rfl
      have h1 := ho.length_lt f (List.mem_singleton_self f)
      have h2 := hs.length_le
      rw [htext, List.length_append, List.length_append] at h2
      omega

/-- **What is decoded means what its text means exactly when the text is faithful.** -/
theorem Denotes.meaning_iff (h : Denotes true depth r x) (hm : Means r m) :
    x.meaning = m ↔ Faithful r := by
  induction h generalizing m with
  | @scalar depth r c v x hr hb hl ho hs hx =>
    exact (show Denotes true depth r x from .scalar hr hb hl ho hs hx).scalar_meaning_iff
      ⟨c, v, hr, hb, hl, ho, hs⟩ hm
  | @list depth r parts hk hl h ih =>
    obtain ⟨parts', hparts, rfl, hmeans⟩ := hm.of_list hl
    rw [Value.meaning_array, Meaning.list.injEq, List.map_map, faithful_list hl, List.forall_mem_map]
    refine map_eq_map_iff hparts.symm fun p hp q hq hpq => ?_
    exact ih p hp (hpq ▸ hmeans q hq)
  | @object depth r parts hk ho hn h hw ih =>
    obtain ⟨parts', hbare, rfl, hn', hmeans⟩ := hm.of_object ho
    rw [List.map_map] at hbare
    rw [Value.meaning_object, Meaning.object.injEq, faithful_object ho, apart_iff_nodup hn,
      List.forall_mem_map, and_iff_right (hw rfl)]
    have hname {p : Field × String × Value} (hp : p ∈ parts) {q : Field × String × Meaning}
        (hq : q ∈ parts') (hpq : p.1.bare = q.1.bare) : p.2.1 = q.2.1 :=
      ((hn p hp).of_bare hpq).unique (hn' q hq)
    have hnames : (parts.map Prod.snd).map Prod.fst = (parts'.map Prod.snd).map Prod.fst := by
      rw [List.map_map, List.map_map]
      exact (map_eq_map_iff hbare fun p hp q hq hpq => iff_true_intro (hname hp hq hpq)).mpr
        fun _ _ => trivial
    have hall : (parts.map Prod.snd).map (fun m => (m.1, m.2.meaning)) = parts'.map Prod.snd ↔
        ∀ p ∈ parts, Faithful p.1.value.text := by
      rw [List.map_map]
      refine map_eq_map_iff hbare fun p hp q hq hpq => ?_
      have htext : p.1.value.text = q.1.value.text := congrArg Prod.snd hpq
      have hvalue := ih p hp (htext ▸ hmeans q hq)
      rw [← hvalue]
      exact ⟨fun he => congrArg Prod.snd he, fun he => Prod.ext (hname hp hq hpq) he⟩
    constructor
    · intro he
      have hnodup : ((parts.map Prod.snd).map Prod.fst).Nodup := by
        have hgather := gather_nodup (parts.map Prod.snd)
        have := congrArg (List.map Prod.fst) he
        rw [List.map_map] at this
        rwa [hnames, ← this]
      rw [gather_of_nodup hnodup] at he
      exact ⟨hnodup, hall.mp he⟩
    · rintro ⟨hnodup, hf⟩
      rw [gather_of_nodup hnodup]
      exact hall.mpr hf
  | @wrapped depth r f text x hu hk ho hn hs hx =>
    -- the text is an object's that begins like a wrapper, and the value is none
    refine iff_of_false (fun he => ?_) fun hf => ?_
    · have hbare := (show Denotes true depth r x from .wrapped hu hk ho hn hs hx).bare
      obtain ⟨parts, hparts, rfl, hnames, -⟩ := hm.of_object ho
      obtain ⟨p, rest, rfl, hp, -⟩ := List.map_eq_cons_iff.mp hparts.symm
      have hname : p.2.1 = wrapperName :=
        (hnames p (List.mem_cons_self ..)).unique (hn.of_bare hp.symm)
      cases x with
      | object members =>
        rw [Value.meaning_object, Meaning.object.injEq] at he
        cases members with
        | nil => cases he
        | cons m members => exact hbare m rfl ((congrArg Prod.fst (List.cons.inj he).1).trans hname)
      | array items =>
        rw [Value.meaning_array] at he
        cases he
      | _ => cases he
    · exact ((faithful_object ho).mp hf).2.1 ⟨f, rfl, hn⟩

/-- What is decoded has a text that means something. -/
theorem Denotes.exists_means (h : Denotes unwraps depth r x) : ∃ m, Means r m := by
  induction h with
  | @scalar depth r c v x hr hb hl ho hs hx =>
    have h : Denotes unwraps depth r x := .scalar hr hb hl ho hs hx
    cases Raw.IsScalar.sort ⟨c, v, hr, hb, hl, ho, hs⟩ with
    | null h0 =>
      subst h0
      exact ⟨_, .null⟩
    | bool b hb =>
      subst hb
      exact ⟨_, .bool b⟩
    | numeral n hn => exact ⟨_, .number hn⟩
    | quoted ps hps =>
      obtain ⟨s, -, hs⟩ := h.of_quoted hps
      exact ⟨_, .string hs⟩
  | @list depth r parts hk hl h ih =>
    obtain ⟨parts', hparts, hmeans⟩ := exists_parts (List.forall_mem_map.mpr ih)
    exact ⟨_, .list (hparts ▸ hl) hmeans⟩
  | @object depth r parts hk ho hn h hw ih =>
    have hall : ∀ f ∈ parts.map Prod.fst, ∃ q : String × Meaning,
        f.Named q.1 ∧ Means f.value.text q.2 := by
      refine List.forall_mem_map.mpr fun p hp => ?_
      obtain ⟨m, hm⟩ := ih p hp
      exact ⟨(p.2.1, m), hn p hp, hm⟩
    obtain ⟨parts', hparts, hmeans⟩ := exists_parts hall
    exact ⟨_, .object (hparts ▸ ho) (fun p hp => (hmeans p hp).1) fun p hp => (hmeans p hp).2⟩
  | @wrapped depth r f text x hu hk ho hn hs hx =>
    let parts : List (Field × String × Meaning) := [(f, wrapperName, .string text)]
    have hobject : r.IsObject (parts.map Prod.fst) := ho
    exact ⟨_, .object hobject (List.forall_mem_singleton.mpr hn)
      (List.forall_mem_singleton.mpr (.string hs))⟩

end Keeping

/-! ### What is written -/

theorem Value.writeItems_eq (items : List Value) : writeItems items = items.map write := by
  induction items with
  | nil => rfl
  | cons v items ih => rw [writeItems, ih, List.map_cons]

theorem Value.writeMembers_eq (members : List (String × Value)) :
    writeMembers members = Raw.spelt (members.map fun m => (m.1, ⟨m.2.write⟩)) := by
  induction members with
  | nil => rfl
  | cons m members ih =>
    rw [writeMembers, ih]
    rfl

/-- What holds of every value if it does of those that hold those it holds of. -/
theorem Value.forall {P : Value → Prop} (null : P .null) (bool : ∀ b, P (.bool b))
    (number : ∀ x, P (.number x)) (string : ∀ s, P (.string s))
    (array : ∀ items, (∀ v ∈ items, P v) → P (.array items))
    (object : ∀ members : List (String × Value), (∀ m ∈ members, P m.2) → P (.object members)) :
    ∀ v, P v
  | .null => null
  | .bool b => bool b
  | .number x => number x
  | .string s => string s
  | .array items => array items fun v _ => Value.forall null bool number string array object v
  | .object members =>
    object members fun m _ => Value.forall null bool number string array object m.2
termination_by v => sizeOf v
decreasing_by
  · have := List.sizeOf_lt_of_mem ‹v ∈ items›
    simp only [Value.array.sizeOf_spec]
    omega
  · have := List.sizeOf_lt_of_mem ‹m ∈ members›
    obtain ⟨name, v⟩ := m
    simp only [Value.object.sizeOf_spec, Prod.mk.sizeOf_spec] at this ⊢
    omega

/-- A text that means something is a text. -/
theorem Means.isText {r : Raw} {m : Meaning} (h : Means r m) : r.IsText := by
  cases h with
  | null => exact Raw.isText_null
  | bool b => cases b <;> exact Raw.IsScalar.isText ⟨_, _, rfl, by decide, by decide, by decide, rfl⟩
  | number hr => exact Numeral.isText _ hr
  | string hs => exact hs.isText
  | list hl => exact hl.isText
  | object ho => exact ho.isText

/-- **What a value is written as means the value.** -/
theorem Value.write_means (v : Value) : Means ⟨v.write⟩ v.meaning := by
  induction v using Value.forall with
  | null => exact .null
  | bool b => exact .bool b
  | number x =>
    obtain ⟨n, hn, hv⟩ := x.text_numeral
    rw [meaning, ← hv]
    exact .number hn
  | string s => exact .string (Raw.isString_written s)
  | array items ih =>
    let parts : List (Raw × Meaning) := items.map fun v => (⟨v.write⟩, v.meaning)
    have hparts : ∀ p ∈ parts, Means p.1 p.2 := List.forall_mem_map.mpr ih
    have htexts : ∀ a ∈ parts.map Prod.fst, a.IsText :=
      List.forall_mem_map.mpr fun p hp => (hparts p hp).isText
    have hmeans := Means.list (Raw.isList_list htexts) hparts
    have hwrite : Raw.list (parts.map Prod.fst) = ⟨(array items).write⟩ := by
      rw [write, writeItems_eq, Raw.list, List.map_map, List.map_map]
      rfl
    rw [hwrite, List.map_map] at hmeans
    rw [meaning_array]
    exact hmeans
  | object members ih =>
    let parts : List (Field × String × Meaning) :=
      members.map fun m => (.written m.1 ⟨m.2.write⟩, m.1, m.2.meaning)
    have htexts : ∀ m ∈ members.map fun m => (m.1, (⟨m.2.write⟩ : Raw)), m.2.IsText :=
      List.forall_mem_map.mpr fun m hm => (ih m hm).isText
    have ho := Raw.isObject_written htexts
    have hfields : Field.all (members.map fun m => (m.1, ⟨m.2.write⟩)) = parts.map Prod.fst := by
      rw [Field.all, List.map_map, List.map_map]
      rfl
    rw [hfields] at ho
    have hmeans := Means.object ho (List.forall_mem_map.mpr fun m _ => Field.written_named ..)
      (List.forall_mem_map.mpr ih)
    rw [List.map_map] at hmeans
    rw [write, writeMembers_eq, meaning_object]
    exact hmeans

theorem Value.isList_write (items : List Value) :
    (⟨(array items).write⟩ : Raw).IsList (items.map fun v => ⟨v.write⟩) := by
  have hlist := Raw.isList_list (List.forall_mem_map.mpr fun v (_ : v ∈ items) =>
    v.write_means.isText)
  rw [Raw.list, List.map_map] at hlist
  rwa [write, writeItems_eq]

theorem Value.isObject_write (members : List (String × Value)) :
    (⟨(object members).write⟩ : Raw).IsObject
      (members.map fun m => .written m.1 ⟨m.2.write⟩) := by
  have hobject := Raw.isObject_written (List.forall_mem_map.mpr fun m (_ : m ∈ members) =>
    show (m.1, (⟨m.2.write⟩ : Raw)).2.IsText from m.2.write_means.isText)
  rwa [← writeMembers_eq, Field.all, List.map_map] at hobject

end Switchboard.Json
