import Switchboard.Json.Record
import Switchboard.Message.Id
import Switchboard.Proofs.Json.Decoding

/-! What readers take.

A reader takes a text with a result when it comes to that result wherever the text stands, and
refuses it when it never comes to one (`Reader.Takes`, `Reader.Refuses`). Every reader of the
program does one or the other with every text (`Reader.Settled`), so what becomes of a document
is known from its text alone (`Reader.Settled.document_eq_ok_iff`). -/
namespace Switchboard.Json

variable {α β : Type}

namespace Reader

/-- Wherever the text stands, the reader comes to the result and stops behind the text. -/
def Takes (p : Reader α) (r : Raw) (x : α) : Prop :=
  ∀ ⦃b u : List Char⦄, Blank b → Stops u → p.run (b ++ (r.chars ++ u)) = .ok (x, u)

/-- Wherever the text stands, the reader comes to no result. -/
def Refuses (p : Reader α) (r : Raw) : Prop :=
  ∀ ⦃b u : List Char⦄, Blank b → Stops u → ∀ y, p.run (b ++ (r.chars ++ u)) ≠ .ok y

/-- Every text is taken or refused. -/
def Settled (p : Reader α) : Prop := ∀ ⦃r : Raw⦄, r.IsText → (∃ x, p.Takes r x) ∨ p.Refuses r

variable {p : Reader α} {r : Raw} {x y : α}

theorem Takes.run (h : p.Takes r x) : p.run r.chars = .ok (x, []) := by
  simpa using h blank_nil (Heads.nil _)

theorem Takes.unique (h : p.Takes r x) (h' : p.Takes r y) : x = y := by
  have := h.run.symm.trans h'.run
  cases this
  rfl

theorem Takes.not_refuses (h : p.Takes r x) : ¬p.Refuses r := fun hno =>
  hno blank_nil (Heads.nil _) _ (h blank_nil (Heads.nil _))

/-! ### Readers made of others -/

theorem Takes.map (h : p.Takes r x) (f : α → β) : (p.map f).Takes r (f x) :=
  fun _ _ hb hu => map_run.mpr ⟨x, h hb hu, rfl⟩

theorem Refuses.map (h : p.Refuses r) (f : α → β) : (p.map f).Refuses r :=
  fun _ _ hb hu _ hy =>
    have ⟨_, hz, _⟩ := map_run.mp hy
    h hb hu _ hz

theorem Settled.map (h : p.Settled) (f : α → β) : (p.map f).Settled := fun _ hr =>
  (h hr).imp (fun ⟨x, hx⟩ => ⟨f x, hx.map f⟩) fun hno => hno.map f

theorem Takes.of_map {f : α → β} {z : β} (hs : p.Settled) (hr : r.IsText)
    (h : (p.map f).Takes r z) : ∃ x, p.Takes r x ∧ f x = z := by
  rcases hs hr with ⟨x, hx⟩ | hno
  · exact ⟨x, hx, (hx.map f).unique h⟩
  · exact absurd (hno.map f) h.not_refuses

/-! ### Documents -/

theorem Takes.document (h : p.Takes r x) {b b' : List Char} (hb : Blank b) (hb' : Blank b')
    (width : Char → Nat) : p.document width (b ++ (r.chars ++ b')) = .ok x := by
  have hend : skipBlank b' = [] := by
    have := dropWhile_append_of_all hb' (Heads.nil _)
    rwa [List.append_nil] at this
  exact document_eq_ok_iff.mpr ⟨b', h hb hb'.stops, hend⟩

theorem Refuses.document (h : p.Refuses r) {b b' : List Char} (hb : Blank b) (hb' : Blank b')
    (width : Char → Nat) (x : α) : p.document width (b ++ (r.chars ++ b')) ≠ .ok x := by
  intro hx
  obtain ⟨_, hrun, -⟩ := document_eq_ok_iff.mp hx
  exact h hb hb'.stops _ hrun

/-- **A document with blanks around its text is read as what its text is taken as.** -/
theorem Settled.document_eq_ok_iff (h : p.Settled) (hr : r.IsText) {b b' : List Char}
    (hb : Blank b) (hb' : Blank b') (width : Char → Nat) :
    p.document width (b ++ (r.chars ++ b')) = .ok x ↔ p.Takes r x := by
  constructor
  · intro hx
    rcases h hr with ⟨y, hy⟩ | hno
    · cases hx.symm.trans (hy.document hb hb' width)
      exact hy
    · exact absurd hx (hno.document hb hb' width x)
  · exact fun hx => hx.document hb hb' width

end Reader

/-! ### Strings -/

namespace Reader
variable {r : Raw}

theorem string_takes {s : String} (h : r.IsString s) : (string Char.utf8Size).Takes r s :=
  fun _ u hb _ => ofHalting_run.mpr (h.readString? .string hb u)

theorem string_settles (h : r.IsText) :
    (∃ s, r.IsString s) ∨ (string Char.utf8Size).Refuses r := by
  by_cases hs : ∃ s, r.IsString s
  · exact .inl hs
  · exact .inr fun b u hb _ y hy => hs ⟨_, (h.of_readString? hb (ofHalting_run.mp hy)).1⟩

theorem string_settled : (string Char.utf8Size).Settled := fun _ h =>
  (string_settles h).imp_left fun ⟨s, hs⟩ => ⟨s, string_takes hs⟩

theorem string_takes_iff (h : r.IsText) {s : String} :
    (string Char.utf8Size).Takes r s ↔ r.IsString s := by
  constructor
  · intro hs
    rcases string_settles h with ⟨s', hs'⟩ | hno
    · exact (string_takes hs').unique hs ▸ hs'
    · exact absurd hno hs.not_refuses
  · exact string_takes

/-! ### Values of any kind -/

theorem value_takes {outer : Nat} {x : Value} (h : Denotes true outer r x) :
    (value Char.utf8Size outer).Takes r x := fun _ _ hb hu => ofHalting_run.mpr (h.decode hb hu)

theorem value_settles (h : r.IsText) (outer : Nat) :
    (∃ x, Denotes true outer r x) ∨ (value Char.utf8Size outer).Refuses r :=
  (h.settles outer).imp_right fun hno _ _ hb hu _ hy => hno.decode hb hu _ (ofHalting_run.mp hy)

theorem value_settled (outer : Nat) : (value Char.utf8Size outer).Settled := fun _ h =>
  (value_settles h outer).imp_left fun ⟨x, hx⟩ => ⟨x, value_takes hx⟩

theorem value_takes_iff (h : r.IsText) {outer : Nat} {x : Value} :
    (value Char.utf8Size outer).Takes r x ↔ Denotes true outer r x := by
  constructor
  · intro hx
    rcases value_settles h outer with ⟨y, hy⟩ | hno
    · exact (value_takes hy).unique hx ▸ hy
    · exact absurd hno hx.not_refuses
  · exact value_takes

theorem raw_takes (h : r.IsText) : (raw Char.utf8Size).Takes r r := fun _ _ hb hu =>
  raw_run.mpr (h.skimText_padded hb hu)

theorem raw_settled : (raw Char.utf8Size).Settled := fun _ h => .inl ⟨_, raw_takes h⟩

theorem rawOrNull_settled : (rawOrNull Char.utf8Size).Settled := raw_settled.map _

end Reader

section Denoting
variable {unwraps : Bool} {depth : Nat} {r : Raw} {x : Value}

/-- Where a list denotes a value, there is room for one more level, and each of its elements
denotes a value there. -/
theorem Denotes.items (h : Denotes unwraps depth r x) {items : List Raw} (hl : r.IsList items) :
    depth < depthLimit ∧ ∀ a ∈ items, ∃ y, Denotes unwraps (depth + 1) a y := by
  obtain ⟨v, hv⟩ := hl.bracket
  cases h with
  | scalar hr _ hne => exact absurd (List.cons.inj (hv.symm.trans hr)).1.symm hne
  | @list _ _ parts hk hl' hparts =>
    have hitems : items = parts.map Prod.fst := Except.ok.inj (hl.elements.symm.trans hl'.elements)
    subst hitems
    refine ⟨hk, fun a ha => ?_⟩
    obtain ⟨p, hp, rfl⟩ := List.mem_map.mp ha
    exact ⟨p.2, hparts p hp⟩
  | object _ ho | wrapped _ _ ho =>
    obtain ⟨w, hw⟩ := ho.brace
    cases hv.symm.trans hw

/-- An empty list inside so many others. -/
def Raw.nested : Nat → Raw
  | 0 => .list []
  | k + 1 => .list [nested k]

theorem Raw.nested_isText (k : Nat) : (nested k).IsText := by
  induction k with
  | zero => exact isText_list fun _ h => by cases h
  | succ k ih => exact isText_list (List.forall_mem_singleton.mpr ih)

/-- **A nested list denotes a value exactly where there is room for all its levels.** -/
theorem denotes_nested_iff (k depth : Nat) :
    (∃ x, Denotes unwraps depth (.nested k) x) ↔ depth + k < depthLimit := by
  induction k generalizing depth with
  | zero =>
    have hl : (Raw.nested 0).IsList [] := Raw.isList_list fun _ h => by cases h
    constructor
    · exact fun ⟨x, hx⟩ => (hx.items hl).1
    · exact fun hk => ⟨_, @Denotes.list unwraps depth _ [] hk hl fun _ h => by cases h⟩
  | succ k ih =>
    have hl : (Raw.nested (k + 1)).IsList [.nested k] :=
      Raw.isList_list (List.forall_mem_singleton.mpr (Raw.nested_isText k))
    constructor
    · rintro ⟨x, hx⟩
      obtain ⟨-, hitem⟩ := hx.items hl
      have := (ih (depth + 1)).mp (hitem _ (List.mem_singleton_self _))
      omega
    · intro hk
      obtain ⟨y, hy⟩ := (ih (depth + 1)).mpr (by omega)
      exact ⟨_, @Denotes.list unwraps depth _ [(.nested k, y)] (by omega) hl
        (List.forall_mem_singleton.mpr hy)⟩

end Denoting

end Switchboard.Json
