import Switchboard.Proofs.Json.Range
import Switchboard.Proofs.Json.Spelling
import Switchboard.Proofs.Message.Ids

/-! What asks for a request.

The members of an object ask for a request when its version and its method are there once, its id
and its params at most once, and each of them spells what it should (`Request.AskedBy`); other
members, and the order of all of them, do not matter. Objects that ask for one are read as it, and
all others are refused: under the id that a single member spells, or under null
(`Request.ofRaw_object`). Which numbers close to the end of binary64 spell an id depends on how the
reader rounds, and not every number within the range does (`Request.brink_refused`). -/
namespace Switchboard
open Json

/-! ### Ids -/

namespace Id
variable {t : Raw} {i : Id} {depth : Nat}

/-- The id that a text spells: null, what a string means, or the number that a numeral is read as,
if it is within the range of binary64. -/
inductive Spelt (t : Raw) : Id → Prop
  | null (h : t = Raw.null) : Spelt t .null
  | string {s : String} (h : t.IsString s) : Spelt t (.string s)
  | number {n : Numeral} {x : Number} (h : t.chars = n.chars)
      (hx : readNumber n.negative n.unsigned = .ok (x, [])) : Spelt t (.number x)

theorem Spelt.denotes (h : Spelt t i) (depth : Nat) : Denotes false depth t i.value := by
  cases h with
  | null h => exact h ▸ denotes_null depth
  | string h => exact denotes_string h
  | number h hx => exact (denotes_numeral h).mpr hx

theorem Spelt.unique {j : Id} (h : Spelt t i) (h' : Spelt t j) : i = j := by
  have hv := (h.denotes 0).unique (h'.denotes 0)
  cases i <;> cases j <;> cases hv <;> rfl

/-- A text spells the id that it denotes. -/
theorem spelt_iff : Spelt t i ↔ Denotes false depth t i.value := by
  refine ⟨fun h => h.denotes depth, fun h => ?_⟩
  cases (isScalar_of_denotes h).sort with
  | null h0 =>
    have hv := h.unique (h0 ▸ denotes_null depth)
    cases i <;> cases hv
    exact .null h0
  | bool b hb =>
    have hv := h.unique (hb ▸ denotes_bool depth b)
    cases i <;> cases hv
  | numeral n hn =>
    obtain ⟨x, hx, hread⟩ := h.of_numeral hn
    cases i <;> cases hx
    exact .number hn hread
  | quoted ps hps =>
    obtain ⟨s, hs, hstring⟩ := h.of_quoted hps
    cases i <;> cases hs
    exact .string hstring

/-- **A numeral spells an id within the range of binary64, and not beyond it.** Within one part in
`2 ^ 50` of the end of the range it depends on the rounding. -/
theorem spelt_numeral {n : Numeral} (ht : t.chars = n.chars) (hlen : n.chars.length ≤ 2000000000) :
    (|n.value| ≤ (1 - 1 / 2 ^ 50) * 2 ^ 1024 → ∃ i, Spelt t i) ∧
    ∀ i, Spelt t i → |n.value| ≤ (1 + 1 / 2 ^ 50) * 2 ^ 1024 := by
  rw [← Decimal.Binary64.edge_eq]
  constructor
  · intro h
    obtain ⟨x, hx⟩ := Numeral.read_of_le hlen h n.negative
    exact ⟨.number x, .number ht hx⟩
  · intro i h
    obtain ⟨x, -, hread⟩ := (h.denotes 0).of_numeral ht
    exact Numeral.le_of_read hlen hread

/-- A whole number of 64 bits is spelt with its digits. -/
theorem spelt_ofNat {n : Nat} (hn : n < UInt64.size) (h : t.IsWhole n) : Spelt t (ofNat n) :=
  (@spelt_iff _ _ 0).mpr ((reader_takes_iff h.isText).mp (takes_ofNat hn h))

end Id

/-! ### Requests -/

namespace Request
variable {entry : Raw} {fields : List Field} {q : Request} {i : Id} {texts : String → List Raw}

/-- The texts for each part ask for the request. An id that is not there is none, and null is an
id; params that are not there, and null, are none. -/
structure AskedBy (texts : String → List Raw) (q : Request) : Prop where
  protocol : q.version = "2.0"
  version : ∃ t, texts "jsonrpc" = [t] ∧ t.IsString "2.0"
  method : ∃ t, texts "method" = [t] ∧ t.IsString q.method
  id : (texts "id" = [] ∧ q.id? = none) ∨
    ∃ t i, texts "id" = [t] ∧ i.Spelt t ∧ q.id? = some i
  params : (texts "params" = [] ∧ q.params? = none) ∨
    ∃ t, texts "params" = [t] ∧ q.params? = if t = Raw.null then none else some t

/-- Each part of the request is what the texts for it come to. -/
structure ReadBy (texts : String → List Raw) (q : Request) : Prop where
  version : Plan.Comes (Reader.string Char.utf8Size) (texts "jsonrpc") (some q.version)
  id : Plan.Comes (Id.reader Char.utf8Size 1) (texts "id") q.id?
  method : Plan.Comes (Reader.string Char.utf8Size) (texts "method") (some q.method)
  params : ∃ params?, Plan.Comes (Reader.rawOrNull Char.utf8Size) (texts "params") params? ∧
    params?.join = q.params?

theorem rawOrNull_takes_iff {t : Raw} (ht : t.IsText) {params? : Option Raw} :
    (Reader.rawOrNull Char.utf8Size).Takes t params? ↔
      params? = if t = Raw.null then none else some t := by
  have htakes := (Reader.raw_takes ht).map fun r => if r = Raw.null then none else some r
  exact ⟨fun h => h.unique htakes, fun h => h ▸ htakes⟩

/-- The texts come to a request of the right version exactly when they ask for it. -/
theorem readBy_iff (ht : ∀ name, ∀ t ∈ texts name, t.IsText) :
    ReadBy texts q ∧ q.version = protocolVersion ↔ AskedBy texts q := by
  have hstring {name : String} : ∀ t ∈ texts name, ∀ s,
      (Reader.string Char.utf8Size).Takes t s ↔ t.IsString s :=
    fun t hmem s => Reader.string_takes_iff (ht _ t hmem)
  have hid : ∀ t ∈ texts "id", ∀ i, (Id.reader Char.utf8Size 1).Takes t i ↔ i.Spelt t :=
    fun t hmem i => (Id.reader_takes_iff (ht _ t hmem)).trans Id.spelt_iff.symm
  have hparams : ∀ t ∈ texts "params", ∀ params?,
      (Reader.rawOrNull Char.utf8Size).Takes t params? ↔
        params? = if t = Raw.null then none else some t :=
    fun t hmem _ => rawOrNull_takes_iff (ht _ t hmem)
  constructor
  · rintro ⟨⟨hversion, hi, hmethod, params?, hp, hjoin⟩, hprotocol⟩
    have hprotocol : q.version = "2.0" := hprotocol
    obtain ⟨t, hversion, hs⟩ := (Plan.comes_some_iff hstring).mp hversion
    refine ⟨hprotocol, ⟨t, hversion, hprotocol ▸ hs⟩, (Plan.comes_some_iff hstring).mp hmethod,
      (Plan.comes_iff hid).mp hi, ?_⟩
    rcases (Plan.comes_iff hparams).mp hp with ⟨hnil, rfl⟩ | ⟨t, p?, hl, rfl, rfl⟩
    · exact .inl ⟨hnil, hjoin.symm⟩
    · exact .inr ⟨t, hl, hjoin.symm⟩
  · rintro ⟨hprotocol, ⟨t, hversion, hs⟩, hmethod, hi, hp⟩
    refine ⟨⟨(Plan.comes_some_iff hstring).mpr ⟨t, hversion, hprotocol ▸ hs⟩,
      (Plan.comes_iff hid).mpr hi, (Plan.comes_some_iff hstring).mpr hmethod, ?_⟩, hprotocol⟩
    rcases hp with ⟨hnil, hnone⟩ | ⟨t, hl, hget⟩
    · exact ⟨none, (Plan.comes_iff hparams).mpr (.inl ⟨hnil, rfl⟩), hnone.symm⟩
    · exact ⟨some _, (Plan.comes_iff hparams).mpr (.inr ⟨t, _, hl, rfl, rfl⟩), hget.symm⟩

theorem ofRaw_eq_ok_iff (hr : entry.IsText) :
    ofRaw entry = .ok q ↔
      (Layout.reader Char.utf8Size).Takes entry q ∧ q.version = protocolVersion := by
  constructor
  · intro h
    refine ⟨takes_of_ofRaw hr h, ?_⟩
    unfold ofRaw at h
    split at h
    · cases h
    · split at h <;> cases h
      assumption
  · rintro ⟨h, hv⟩
    exact ofRaw_of_parse ((parse_eq_ok_iff hr).mpr h) hv

/-- What is no request is an invalid one. -/
theorem ofRaw_refused (hno : ¬∃ q, ofRaw entry = .ok q) :
    ∃ e : ErrorObject, ofRaw entry = .error (salvagedId entry.chars, e) ∧ e.code = -32600 := by
  cases h : ofRaw entry with
  | ok q => exact absurd ⟨q, h⟩ hno
  | error refusal =>
    unfold ofRaw at h
    split at h
    · cases h
      exact ⟨_, rfl, rfl⟩
    · split at h <;> cases h
      exact ⟨_, rfl, rfl⟩

/-- The id to answer under, when an id is found where some texts spell one. -/
theorem salvagedId_cases {l : List Raw} (ht : ∀ t ∈ l, t.IsText)
    (h : ∀ i, salvage? entry.chars = some i ↔ Plan.Comes (Id.reader Char.utf8Size 1) l (some i)) :
    (∃ t, l = [t] ∧ (salvagedId entry.chars).Spelt t) ∨
      (¬∃ t i, l = [t] ∧ Id.Spelt t i) ∧ salvagedId entry.chars = .null := by
  have hid : ∀ t ∈ l, ∀ i, (Id.reader Char.utf8Size 1).Takes t i ↔ i.Spelt t :=
    fun t hmem i => (Id.reader_takes_iff (ht t hmem)).trans Id.spelt_iff.symm
  have hfound {i : Id} : salvage? entry.chars = some i ↔ ∃ t, l = [t] ∧ i.Spelt t :=
    (h i).trans (Plan.comes_some_iff hid)
  rw [salvagedId_eq]
  cases hs : salvage? entry.chars with
  | some i => exact .inl (hfound.mp hs)
  | none =>
    refine .inr ⟨fun ⟨t, i, hl, hi⟩ => ?_, rfl⟩
    cases hs.symm.trans (hfound.mpr ⟨t, hl, hi⟩)

/-! ### Objects -/

/-- A request is taken from an object when each of its parts is what the members of its name come
to. -/
theorem takes_object_iff (ho : entry.IsObject fields) (hn : ∀ f ∈ fields, ∃ name, f.Named name) :
    (Layout.reader Char.utf8Size).Takes entry q ↔ ReadBy (textsOf fields) q := by
  have ht := ho.values_isText
  constructor
  · intro h
    obtain ⟨d, hreads, hf⟩ := Plan.reads_of_object covered.settled ho h
    obtain ⟨hversion, hid, hmethod, hparams⟩ := finish_eq_some.mp hf
    exact ⟨hversion ▸ versionSlot.comes hreads ht rfl, hid ▸ idSlot.comes hreads ht rfl,
      hmethod ▸ methodSlot.comes hreads ht rfl, d.params?, paramsSlot.comes hreads ht rfl, hparams⟩
  · rintro ⟨hversion, hid, hmethod, params?, hparams, hjoin⟩
    have hcomes : ∀ m ∈ Layout.members,
        ∃ note?, Plan.Comes m.value (textsOf fields m.name) note? := by
      simp only [plan, List.forall_mem_cons]
      exact ⟨⟨_, hversion.map _⟩, ⟨_, hid.map _⟩, ⟨_, hmethod.map _⟩, ⟨_, hparams.map _⟩,
        fun _ hm => by cases hm⟩
    obtain ⟨d, hreads⟩ := Plan.reads_of_comes covered hn ht hcomes fun m hm _ => covered.unseen m hm
    refine hreads.takes ho (finish_eq_some.mpr ⟨?_, ?_, ?_, ?_⟩)
    · exact (versionSlot.comes hreads ht rfl).unique hversion
    · exact (idSlot.comes hreads ht rfl).unique hid
    · exact (methodSlot.comes hreads ht rfl).unique hmethod
    · rw [← hjoin, ← (paramsSlot.comes hreads ht rfl).unique hparams]
      rfl

/-- The id that is found in an object is the one that its only member of that name comes to. -/
theorem salvage?_object_iff (ho : entry.IsObject fields)
    (hn : ∀ f ∈ fields, ∃ name, f.Named name) :
    salvage? entry.chars = some i ↔
      Plan.Comes (Id.reader Char.utf8Size 1) (textsOf fields "id") (some i) := by
  have ht := ho.values_isText
  rw [salvage?_eq_some_iff ho.isText]
  constructor
  · intro h
    obtain ⟨d, hreads, hf⟩ := Plan.reads_of_object salvage_covered.settled ho h
    cases hf
    exact salvageSlot.comes hreads ht rfl
  · intro hid
    have hcomes : ∀ m ∈ Salvage.members,
        ∃ note?, Plan.Comes m.value (textsOf fields m.name) note? :=
      List.forall_mem_singleton.mpr ⟨_, hid.map _⟩
    obtain ⟨d, hreads⟩ := Plan.reads_of_comes salvage_covered hn ht hcomes
      fun m hm _ => salvage_covered.unseen m hm
    cases (salvageSlot.comes hreads ht rfl).unique hid
    exact hreads.takes ho rfl

/-- An object is taken as the request that its members ask for, and as no other. -/
theorem ofRaw_object_iff (ho : entry.IsObject fields) (hn : ∀ f ∈ fields, ∃ name, f.Named name) :
    ofRaw entry = .ok q ↔ AskedBy (textsOf fields) q := by
  rw [ofRaw_eq_ok_iff ho.isText, takes_object_iff ho hn,
    readBy_iff fun name => @textsOf_isText _ name ho.values_isText]

/-- An object whose members ask for none is refused, under the id that they spell. -/
theorem ofRaw_object_refused (ho : entry.IsObject fields)
    (hn : ∀ f ∈ fields, ∃ name, f.Named name) (hno : ¬∃ q, AskedBy (textsOf fields) q) :
    ∃ (i : Id) (e : ErrorObject), ofRaw entry = .error (i, e) ∧ e.code = -32600 ∧
      ((∃ t, textsOf fields "id" = [t] ∧ i.Spelt t) ∨
        (¬∃ t j, textsOf fields "id" = [t] ∧ Id.Spelt t j) ∧ i = .null) := by
  obtain ⟨e, he, hcode⟩ := ofRaw_refused fun ⟨q, hq⟩ => hno ⟨q, (ofRaw_object_iff ho hn).mp hq⟩
  exact ⟨_, e, he, hcode, salvagedId_cases (@textsOf_isText _ "id" ho.values_isText)
    fun _ => salvage?_object_iff ho hn⟩

/-- **Objects are taken as requests exactly by what their members spell.** An object whose names all
mean something is read as the request that its members ask for, and as nothing else. Where they ask
for none it is an invalid request, answered under the id that its only member of that name spells,
and under null where there is no such member, more than one, or one that spells no id. A numeral
spells an id up to the range of binary64. -/
theorem ofRaw_object (ho : entry.IsObject fields) (hn : ∀ f ∈ fields, ∃ name, f.Named name) :
    (∀ q, ofRaw entry = .ok q ↔ AskedBy (textsOf fields) q) ∧
    ((¬∃ q, AskedBy (textsOf fields) q) → ∃ (i : Id) (e : ErrorObject),
      ofRaw entry = .error (i, e) ∧ e.code = -32600 ∧
        ((∃ t, textsOf fields "id" = [t] ∧ i.Spelt t) ∨
          (¬∃ t j, textsOf fields "id" = [t] ∧ Id.Spelt t j) ∧ i = .null)) ∧
    ∀ (t : Raw) (n : Numeral), t.chars = n.chars → n.chars.length ≤ 2000000000 →
      (|n.value| ≤ (1 - 1 / 2 ^ 50) * 2 ^ 1024 → ∃ i, Id.Spelt t i) ∧
      ∀ i, Id.Spelt t i → |n.value| ≤ (1 + 1 / 2 ^ 50) * 2 ^ 1024 := by
  exact ⟨fun _ => ofRaw_object_iff ho hn, ofRaw_object_refused ho hn,
    fun _ _ ht hlen => Id.spelt_numeral ht hlen⟩

/-- A member without blanks. -/
def bareMember (name : List Piece) (value : Raw) : Field :=
  ⟨[], name, [], .bare value, blank_nil, blank_nil⟩

/-- Characters that stand for themselves. -/
def plainly (s : String) : List Piece := s.toList.filterMap fun c =>
  if h : c ≠ '"' ∧ c ≠ '\\' ∧ ¬c.toNat < 0x20 then some (.plain c h.1 h.2.1 h.2.2) else none

/-- The name of an id, with its first letter spelt by number. -/
def escapedId : List Piece := .unit '0' '0' '6' '9' 0x69 rfl :: plainly "d"

/-- The members of a request out of order, with an unknown one that is there twice. -/
def shuffled : List Field :=
  [bareMember (plainly "x") (.list []), bareMember escapedId .null, bareMember (plainly "x") .null,
    bareMember (plainly "method") ⟨writeString "m"⟩, bareMember (plainly "params") .null,
    bareMember (plainly "jsonrpc") ⟨writeString "2.0"⟩]

/-- The same with a second id. -/
def doubled : List Field := bareMember (plainly "id") ⟨writeString "a"⟩ :: shuffled

theorem doubled_named : ∀ f ∈ doubled, ∃ name, f.Named name := by
  simp only [doubled, shuffled, List.forall_mem_cons]
  exact ⟨⟨"id", rfl⟩, ⟨"x", rfl⟩, ⟨"id", rfl⟩, ⟨"x", rfl⟩, ⟨"method", rfl⟩, ⟨"params", rfl⟩,
    ⟨"jsonrpc", rfl⟩, fun _ hf => by cases hf⟩

theorem doubled_isText : ∀ f ∈ doubled, f.value.text.IsText := by
  have hstring (s : String) := (Raw.isString_written s).isText
  simp only [doubled, shuffled, List.forall_mem_cons]
  exact ⟨hstring "a", Raw.isText_list fun _ h => (by cases h), Raw.isText_null, Raw.isText_null,
    hstring "m", Raw.isText_null, hstring "2.0", fun _ hf => by cases hf⟩

theorem ofRaw_shuffled :
    ofRaw ⟨writeObject (shuffled.map Field.chars)⟩ = .ok ⟨"2.0", some .null, "m", none⟩ ∧
      ∃ e, ofRaw ⟨writeObject (doubled.map Field.chars)⟩ = .error (.null, e) ∧ e.code = -32600 := by
  have hshuffled := ofRaw_object
    (.members (List.cons_ne_nil _ _) fun f hf => doubled_isText f (List.mem_cons_of_mem _ hf))
    fun f hf => doubled_named f (List.mem_cons_of_mem _ hf)
  have hdoubled := ofRaw_object (.members (List.cons_ne_nil _ _) doubled_isText) doubled_named
  have htwo : ¬∃ t, textsOf doubled "id" = [t] := by
    rintro ⟨t, ht⟩
    cases congrArg List.length ht
  constructor
  · exact (hshuffled.1 _).mpr
      ⟨rfl, ⟨_, rfl, Raw.isString_written "2.0"⟩, ⟨_, rfl, Raw.isString_written "m"⟩,
        .inr ⟨_, .null, rfl, .null rfl, rfl⟩, .inr ⟨_, rfl, rfl⟩⟩
  · obtain ⟨i, e, he, hcode, ⟨t, ht, -⟩ | ⟨-, rfl⟩⟩ := hdoubled.2.1 fun ⟨q, hq⟩ => by
      rcases hq.id with ⟨hnil, -⟩ | ⟨t, i, ht, -⟩
      · cases hnil
      · exact htwo ⟨t, ht⟩
    · exact absurd ⟨t, ht⟩ htwo
    · exact ⟨e, he, hcode⟩

/-- A number just below the greatest of binary64. -/
def brink : Numeral := { Numeral.ofNat false 17976931348623157081 with power? := some (.ofInt 289) }

/-- Powers are compared as natural numbers, where they can be worked out. -/
theorem scaled_le_scaled {a b k l : Nat} (h : a * Nat.pow 10 k ≤ b * Nat.pow 2 l) :
    (a : ℚ) * 10 ^ k ≤ b * 2 ^ l := by exact_mod_cast h

/-- The number is within the range. -/
theorem brink_le : |brink.value| ≤ (2 ^ 53 - 1) * 2 ^ 971 := by
  have hwhole : brink.whole ++ brink.fraction = Nat.toDigits 10 17976931348623157081 :=
    List.append_nil _
  have hdigits : Nat.ofDigitChars 10 (brink.whole ++ brink.fraction) 0 = 17976931348623157081 := by
    rw [hwhole, Nat.ofDigitChars_toDigits (by decide) (by decide)]
  have hexponent : brink.exponent = (289 : Nat) := Power.value_ofInt 289
  have hmost : (2 ^ 53 - 1 : ℚ) = (9007199254740991 : Nat) := by norm_num
  rw [Numeral.abs_value, Numeral.mantissa, hdigits, hexponent, zpow_natCast, hmost]
  exact (congrArg (· * _) (div_one _)).trans_le (scaled_le_scaled (by decide +kernel))

/-- The rounded digits times the rounded power of ten are beyond it. -/
theorem brink_not_spelt {t : Raw} (ht : t.chars = brink.chars) (i : Id) : ¬i.Spelt t := by
  intro h
  obtain ⟨x, -, hread⟩ := (h.denotes 0).of_numeral ht
  have hnone : (readNumber brink.negative brink.unsigned).toOption = none := by decide +kernel
  rw [hread] at hnone
  cases hnone

/-- The members of a request under that number. -/
def onTheBrink : List Field :=
  [bareMember (plainly "jsonrpc") ⟨writeString "2.0"⟩, bareMember (plainly "id") ⟨brink.chars⟩,
    bareMember (plainly "method") ⟨writeString "m"⟩]

/-- **Close to the end of the range an id may be refused that is within it.** All else is as it
should be. -/
theorem brink_refused :
    Raw.IsObject ⟨writeObject (onTheBrink.map Field.chars)⟩ onTheBrink ∧
    (∀ f ∈ onTheBrink, ∃ name, f.Named name) ∧
    (∃ t, textsOf onTheBrink "jsonrpc" = [t] ∧ t.IsString "2.0") ∧
    (∃ t, textsOf onTheBrink "method" = [t] ∧ t.IsString "m") ∧
    textsOf onTheBrink "params" = [] ∧
    (∃ t, textsOf onTheBrink "id" = [t] ∧ t.chars = brink.chars) ∧
    |brink.value| ≤ (2 ^ 53 - 1) * 2 ^ 971 ∧
    ∃ e, ofRaw ⟨writeObject (onTheBrink.map Field.chars)⟩ = .error (.null, e) ∧ e.code = -32600 := by
  have htext (s : String) : Raw.IsText ⟨writeString s⟩ := (Raw.isString_written s).isText
  have ho : Raw.IsObject ⟨writeObject (onTheBrink.map Field.chars)⟩ onTheBrink := by
    refine .members (List.cons_ne_nil _ _) ?_
    simp only [onTheBrink, List.forall_mem_cons]
    exact ⟨htext "2.0", Numeral.isText brink rfl, htext "m", fun _ hf => by cases hf⟩
  have hn : ∀ f ∈ onTheBrink, ∃ name, f.Named name := by
    simp only [onTheBrink, List.forall_mem_cons]
    exact ⟨⟨"jsonrpc", rfl⟩, ⟨"id", rfl⟩, ⟨"method", rfl⟩, fun _ hf => by cases hf⟩
  have hid : textsOf onTheBrink "id" = [⟨brink.chars⟩] := rfl
  have hno {t : Raw} (i : Id) (ht : textsOf onTheBrink "id" = [t]) : ¬i.Spelt t := by
    cases hid.symm.trans ht
    exact brink_not_spelt rfl i
  refine ⟨ho, hn, ⟨_, rfl, Raw.isString_written "2.0"⟩, ⟨_, rfl, Raw.isString_written "m"⟩, rfl,
    ⟨_, hid, rfl⟩, brink_le, ?_⟩
  have hasked : ¬∃ q, AskedBy (textsOf onTheBrink) q := by
    rintro ⟨q, hq⟩
    rcases hq.id with ⟨hnil, -⟩ | ⟨t, i, ht, hi, -⟩
    · cases hid.symm.trans hnil
    · exact hno i ht hi
  obtain ⟨i, e, he, hcode, ⟨t, ht, hi⟩ | ⟨-, rfl⟩⟩ := ofRaw_object_refused ho hn hasked
  · exact absurd hi (hno i ht)
  · exact ⟨e, he, hcode⟩

end Request
end Switchboard
