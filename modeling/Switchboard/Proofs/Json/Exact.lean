import Switchboard.Proofs.Json.Meaning

/-! Values that are decoded as what they were written from.

A value that holds whole numbers only and no name twice in one object (`Value.Exact`) is what its
own text denotes, as long as no more lists and objects are open at once than may be
(`Value.Exact.denotes`). Where wrappers are opened, no object in it may begin like one
(`Value.Plain`), and a value that is decoded as itself holds no such object
(`Value.Plain.of_denotes`). -/
namespace Switchboard.Json.Value

/-! ### Depth -/

mutual

/-- How many lists and objects are open at once in the value. -/
def depth : Value → Nat
  | .array items => itemsDepth items + 1
  | .object members => membersDepth members + 1
  | _ => 0

def itemsDepth : List Value → Nat
  | [] => 0
  | v :: rest => max v.depth (itemsDepth rest)

def membersDepth : List (String × Value) → Nat
  | [] => 0
  | (_, v) :: rest => max v.depth (membersDepth rest)

end

theorem depth_le_items {v : Value} {items : List Value} (h : v ∈ items) :
    v.depth ≤ itemsDepth items := by
  induction items with
  | nil => cases h
  | cons w items ih =>
    rw [itemsDepth]
    rcases List.mem_cons.mp h with rfl | h
    · exact Nat.le_max_left ..
    · exact Nat.le_trans (ih h) (Nat.le_max_right ..)

theorem depth_le_members {m : String × Value} {members : List (String × Value)}
    (h : m ∈ members) : m.2.depth ≤ membersDepth members := by
  induction members with
  | nil => cases h
  | cons n members ih =>
    obtain ⟨name, v⟩ := n
    rw [membersDepth]
    rcases List.mem_cons.mp h with rfl | h
    · exact Nat.le_max_left ..
    · exact Nat.le_trans (ih h) (Nat.le_max_right ..)

/-! ### Exact values -/

/-- The numbers in the value are whole ones, and the members of an object in it have names of
their own. -/
inductive Exact : Value → Prop
  | null : Exact .null
  | bool (b : Bool) : Exact (.bool b)
  | whole (i : Int) (h : InWords i) : Exact (.number (.whole i h))
  | string (s : String) : Exact (.string s)
  | array {items : List Value} (h : ∀ v ∈ items, Exact v) : Exact (.array items)
  | object {members : List (String × Value)} (hn : (members.map Prod.fst).Nodup)
      (h : ∀ m ∈ members, Exact m.2) : Exact (.object members)

/-! ### Plain values -/

/-- No object in the value begins like a wrapper. -/
inductive Plain : Value → Prop
  | null : Plain .null
  | bool (b : Bool) : Plain (.bool b)
  | number (x : Number) : Plain (.number x)
  | string (s : String) : Plain (.string s)
  | array {items : List Value} (h : ∀ v ∈ items, Plain v) : Plain (.array items)
  | object {members : List (String × Value)} (hb : (object members).Bare)
      (h : ∀ m ∈ members, Plain m.2) : Plain (.object members)

theorem Plain.bare {v : Value} (h : v.Plain) : v.Bare := by
  cases h with
  | object hb => exact hb
  | _ => trivial

theorem Plain.items {items : List Value} (h : Plain (.array items)) : ∀ v ∈ items, v.Plain := by
  cases h with
  | array h => exact h

theorem Plain.members {members : List (String × Value)} (h : Plain (.object members)) :
    ∀ m ∈ members, m.2.Plain := by
  cases h with
  | object _ h => exact h

/-- **An exact value is what its own text denotes**, if it is plain or wrappers are left alone. -/
theorem Exact.denotes {v : Value} (hv : v.Exact) {unwraps : Bool}
    (hp : unwraps = true → v.Plain) {outer : Nat} (hd : outer + v.depth ≤ depthLimit) :
    Denotes unwraps outer ⟨v.write⟩ v := by
  induction hv generalizing outer with
  | null => exact denotes_null outer
  | bool b => exact denotes_bool outer b
  | whole i h =>
    have hw : Raw.IsWhole ⟨(number (.whole i h)).write⟩ i := rfl
    exact hw.denotes h
  | string s => exact denotes_string (Raw.isString_written s)
  | @array items h ih =>
    rw [depth] at hd
    let parts : List (Raw × Value) := items.map fun v => (⟨v.write⟩, v)
    have hparts : ∀ p ∈ parts, Denotes unwraps (outer + 1) p.1 p.2 :=
      List.forall_mem_map.mpr fun v hv =>
        ih v hv (fun hu => (hp hu).items v hv) (by have := depth_le_items hv; omega)
    have hlist : (⟨(Value.array items).write⟩ : Raw).IsList (parts.map Prod.fst) := by
      rw [List.map_map]
      exact isList_write items
    have hdenotes := @Denotes.list unwraps outer _ _ (by omega) hlist hparts
    have hitems : parts.map Prod.snd = items := by
      rw [List.map_map]
      exact List.map_id items
    rwa [hitems] at hdenotes
  | @object members hn h ih =>
    rw [depth] at hd
    let parts : List (Field × String × Value) :=
      members.map fun m => (.written m.1 ⟨m.2.write⟩, m)
    have hparts : ∀ p ∈ parts, Denotes unwraps (outer + 1) p.1.value.text p.2.2 :=
      List.forall_mem_map.mpr fun m hm =>
        ih m hm (fun hu => (hp hu).members m hm) (by have := depth_le_members hm; omega)
    have hobject : (⟨(Value.object members).write⟩ : Raw).IsObject (parts.map Prod.fst) := by
      rw [List.map_map]
      exact isObject_write members
    have hbare : unwraps = true → ¬IsWrapper (parts.map Prod.fst) := by
      rintro hu ⟨f, hf, hname⟩
      cases members with
      | nil => cases hf
      | cons m members =>
        cases hf
        exact (hp hu).bare m rfl ((Field.written_named ..).unique hname)
    have hdenotes := @Denotes.object unwraps outer _ _ (by omega) hobject
      (List.forall_mem_map.mpr fun m _ => Field.written_named ..) hparts hbare
    have hmembers : parts.map Prod.snd = members := by
      rw [List.map_map]
      exact List.map_id members
    rwa [hmembers, gather_of_nodup hn] at hdenotes

theorem Plain.of_faithful {v : Value} (h : Faithful ⟨v.write⟩) : v.Plain := by
  induction v using Value.forall with
  | null => exact .null
  | bool b => exact .bool b
  | number x => exact .number x
  | string s => exact .string s
  | array items ih =>
    have hitems := (faithful_list (isList_write items)).mp h
    exact .array fun v hv => ih v hv (hitems _ (List.mem_map_of_mem hv))
  | object members ih =>
    obtain ⟨-, hw, hvalues⟩ := (faithful_object (isObject_write members)).mp h
    refine .object ?_ fun m hm => ih m hm (hvalues _ (List.mem_map_of_mem hm))
    cases members with
    | nil => exact fun m hm => by cases hm
    | cons m members =>
      rintro _ ⟨⟩ he
      exact hw ⟨_, rfl, he ▸ Field.written_named ..⟩

/-- **A value that is what its own text denotes is plain**, where wrappers are opened. -/
theorem Plain.of_denotes {v : Value} {outer : Nat} (h : Denotes true outer ⟨v.write⟩ v) :
    v.Plain :=
  .of_faithful ((h.meaning_iff v.write_means).mp rfl)

end Switchboard.Json.Value
