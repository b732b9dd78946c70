import Switchboard.Proofs.Json.Scalars

/-! The grammar of JSON texts.

`Raw.Derived` says by rules, and without any reader, which texts are those of values: one rule for
each kind of value, with blanks where the grammar allows them. The texts that are kept as one value
are exactly these, however deep they are nested (`Raw.isText_iff_derived`). -/
namespace Switchboard.Json.Raw

/-- The texts of values, by the rules of the grammar. -/
inductive Derived : Raw → Prop
  | literal {word : String} (h : word ∈ ["null", "true", "false"]) : Derived (.ofString word)
  | number (n : Numeral) : Derived ⟨n.chars⟩
  | string (ps : List Piece) : Derived ⟨'"' :: spell ps⟩
  | emptyList {b : List Char} (hb : Blank b) : Derived ⟨'[' :: (b ++ [']'])⟩
  | list {parts : List Padded} (hne : parts ≠ []) (h : ∀ p ∈ parts, Derived p.text) :
      Derived ⟨writeList (parts.map Padded.chars)⟩
  | emptyObject {b : List Char} (hb : Blank b) : Derived ⟨'\x7b' :: (b ++ ['\x7d'])⟩
  | object {fields : List Field} (hne : fields ≠ []) (h : ∀ f ∈ fields, Derived f.value.text) :
      Derived ⟨writeObject (fields.map Field.chars)⟩

variable {r : Raw}

theorem isText_literal {word : String} (h : word ∈ ["null", "true", "false"]) :
    (ofString word).IsText := by
  simp only [List.mem_cons, List.not_mem_nil, or_false] at h
  rcases h with rfl | rfl | rfl
  · exact isText_null
  · exact IsScalar.isText ⟨'t', _, rfl, by decide, by decide, by decide, rfl⟩
  · exact IsScalar.isText ⟨'f', _, rfl, by decide, by decide, by decide, rfl⟩

theorem isText_quoted (ps : List Piece) : IsText ⟨'"' :: spell ps⟩ := by
  have hskim := @skimString_spell Char.utf8Size ps []
  rw [List.append_nil] at hskim
  exact IsScalar.isText ⟨'"', spell ps, rfl, by decide, by decide, by decide, hskim⟩

/-- Whatever the grammar derives is read as one value. -/
theorem Derived.isText (h : r.Derived) : r.IsText := by
  induction h with
  | literal hw => exact isText_literal hw
  | number n => exact (n.isScalar rfl).isText
  | string ps => exact isText_quoted ps
  | emptyList hb => exact (IsList.empty hb).isText
  | list hne _ ih => exact (IsList.items hne ih).isText
  | emptyObject hb => exact (IsObject.empty hb).isText
  | object hne _ ih => exact (IsObject.members hne ih).isText

theorem IsScalar.derived (h : r.IsScalar) : r.Derived := by
  cases h.sort with
  | null h0 =>
    subst h0
    exact @Derived.literal "null" (by decide)
  | bool b hb =>
    subst hb
    cases b with
    | true => exact @Derived.literal "true" (by decide)
    | false => exact @Derived.literal "false" (by decide)
  | numeral n hn => exact (show r = ⟨n.chars⟩ from congrArg Raw.mk hn) ▸ .number n
  | quoted ps hps => exact (show r = ⟨'"' :: spell ps⟩ from congrArg Raw.mk hps) ▸ .string ps

/-- Whatever is read as one value is derived, by induction on its length: what stands in a list or
an object is shorter. -/
theorem IsText.derived (h : r.IsText) : r.Derived := by
  induction hn : r.chars.length using Nat.strongRecOn generalizing r with
  | ind n ih =>
    subst hn
    rcases isText_cases h with ⟨items, hl⟩ | ⟨fields, ho⟩ | hs
    · have hlength := hl.length_lt
      cases hl with
      | empty hb => exact .emptyList hb
      | items hne ht =>
        exact .list hne fun p hp =>
          ih _ (hlength _ (List.mem_map_of_mem hp)) (ht p hp) rfl
    · have hlength := ho.length_lt
      cases ho with
      | empty hb => exact .emptyObject hb
      | members hne ht => exact .object hne fun f hf => ih _ (hlength f hf) (ht f hf) rfl
    · exact hs.derived

/-- **The texts of values are those that the grammar derives.** -/
theorem isText_iff_derived : r.IsText ↔ r.Derived := ⟨IsText.derived, Derived.isText⟩

end Switchboard.Json.Raw
